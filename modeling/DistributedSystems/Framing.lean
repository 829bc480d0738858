import Mathlib

/-! # Length-prefixed frames on a byte stream

A frame is the length of its payload as a fixed number of little-endian bytes, followed by the
payload.  A reader takes frame after frame from a stream until it meets the end: `eof` when the
stream ends before a read has got a byte, `unexpectedEof` when it ends in the middle of one.

A stream that was cut off anywhere is read as the frames it holds in full, and the error tells where
it was cut (`readFrames_prefix`): the reader sees `eof` between two frames, but also right
after a header. -/

namespace DistributedSystems.Framing

abbrev Bytes := List UInt8

/-! ### Little-endian numbers -/

/-- The `k` lowest bytes of `n`, the lowest first. -/
def leBytes : ℕ → ℕ → Bytes
  | 0, _ => []
  | k + 1, n => UInt8.ofNat n :: leBytes k (n / 256)

def leNat : Bytes → ℕ
  | [] => 0
  | b :: l => b.toNat + 256 * leNat l

@[simp] theorem length_leBytes (k n : ℕ) : (leBytes k n).length = k := by
  induction k generalizing n with
  | zero => rfl
  | succ k ih => simp [leBytes, ih]

theorem leNat_leBytes (k n : ℕ) : leNat (leBytes k n) = n % 256 ^ k := by
  induction k generalizing n with
  | zero => simp [leBytes, leNat, Nat.mod_one]
  | succ k ih =>
      have h8 : (2 : ℕ) ^ 8 = 256 := by norm_num
      have hpow : 256 ^ (k + 1) = 256 * 256 ^ k := pow_succ' 256 k
      rw [leBytes, leNat, ih, UInt8.toNat_ofNat', h8, hpow, Nat.mod_mul]

/-! ### Reading and writing -/

inductive ReadErr where
  | eof
  | unexpectedEof
deriving DecidableEq, Repr

/-- Exactly `n` bytes from the stream, with the rest of it. -/
def readFull (n : ℕ) (stream : Bytes) : Except ReadErr (Bytes × Bytes) :=
  if n ≤ stream.length then .ok (stream.take n, stream.drop n)
  else if stream = [] then .error .eof
  else .error .unexpectedEof

/-- A frame with a header of `k` bytes; a length that does not fit into the header is cut off. -/
def frame (k : ℕ) (b : Bytes) : Bytes := leBytes k b.length ++ b

def readFrame (k : ℕ) (stream : Bytes) : Except ReadErr (Bytes × Bytes) :=
  match readFull k stream with
  | .error e => .error e
  | .ok (header, rest) => readFull (leNat header) rest

@[simp] theorem length_frame (k : ℕ) (b : Bytes) : (frame k b).length = k + b.length := by
  simp [frame]

theorem readFull_append {n : ℕ} {l : Bytes} (h : l.length = n) (rest : Bytes) :
    readFull n (l ++ rest) = .ok (l, rest) := by
  subst h
  simp [readFull]

/-- What the reader reports for a stream that ends after `n` bytes of a frame. -/
def cut (k n : ℕ) : ReadErr := if n = 0 ∨ n = k then .eof else .unexpectedEof

theorem readFull_error {n : ℕ} {stream : Bytes} (h : stream.length < n) :
    readFull n stream = .error (if stream = [] then .eof else .unexpectedEof) := by
  rw [readFull, if_neg (by omega)]
  split <;> rfl

section frame

variable {k : ℕ} {b : Bytes} (hb : b.length < 256 ^ k)

include hb

/-- A frame is read back, whatever follows it. -/
theorem readFrame_frame (rest : Bytes) : readFrame k (frame k b ++ rest) = .ok (b, rest) := by
  have hheader : readFull k (frame k b ++ rest) = .ok (leBytes k b.length, b ++ rest) := by
    rw [frame, List.append_assoc]
    exact readFull_append (length_leBytes _ _) _
  simp only [readFrame, hheader, leNat_leBytes, Nat.mod_eq_of_lt hb]
  exact readFull_append rfl rest

/-- A stream that ends inside a frame. -/
theorem readFrame_cut {q : Bytes} (hq : q <+: frame k b) (hlt : q.length < k + b.length) :
    readFrame k q = .error (cut k q.length) := by
  by_cases hk : q.length < k
  · have hlen : q.length ≠ k := by omega
    simp only [readFrame, readFull_error hk, cut, hlen, or_false, List.length_eq_zero_iff]
  · -- the header is complete, and the payload is not
    obtain ⟨r, rfl, hr⟩ : ∃ r, q = leBytes k b.length ++ r ∧ r.length < b.length := by
      have hheader : leBytes k b.length <+: q :=
        List.prefix_of_prefix_length_le (List.prefix_append _ _) hq (by simpa using hk)
      obtain ⟨r, rfl⟩ := hheader
      refine ⟨r, rfl, ?_⟩
      simp only [List.length_append, length_leBytes] at hlt
      omega
    simp only [readFrame, readFull_append (length_leBytes k b.length) r, leNat_leBytes,
      Nat.mod_eq_of_lt hb, readFull_error hr, cut, List.length_append, length_leBytes]
    congr 1
    refine if_congr ?_ rfl rfl
    rw [← List.length_eq_zero_iff]
    omega

end frame

/-! ### A whole stream -/

theorem length_of_readFull {n : ℕ} {stream b rest : Bytes}
    (h : readFull n stream = .ok (b, rest)) : rest.length + n = stream.length := by
  unfold readFull at h
  split at h
  · simp only [Except.ok.injEq, Prod.mk.injEq] at h
    rw [← h.2, List.length_drop]
    omega
  · split at h <;> cases h

theorem length_of_readFrame {k : ℕ} {stream b rest : Bytes}
    (h : readFrame k stream = .ok (b, rest)) : rest.length + k ≤ stream.length := by
  unfold readFrame at h
  split at h
  · cases h
  · rename_i header rest' hheader
    have h₁ := length_of_readFull hheader
    have h₂ := length_of_readFull h
    omega

/-- Frame after frame until the first error; the header has `k + 1` bytes. -/
def readFrames (k : ℕ) (stream : Bytes) : List Bytes × ReadErr :=
  match _h : readFrame (k + 1) stream with
  | .error e => ([], e)
  | .ok (b, rest) => (b :: (readFrames k rest).1, (readFrames k rest).2)
termination_by stream.length
decreasing_by
  all_goals
    have := length_of_readFrame _h
    omega

theorem readFrames_error {k : ℕ} {stream : Bytes} {e : ReadErr}
    (h : readFrame (k + 1) stream = .error e) : readFrames k stream = ([], e) := by
  rw [readFrames]
  split
  · rename_i e' h'
    rw [h, Except.error.injEq] at h'
    rw [h']
  · rename_i b rest h'
    rw [h] at h'
    cases h'

theorem readFrames_ok {k : ℕ} {stream b rest : Bytes}
    (h : readFrame (k + 1) stream = .ok (b, rest)) :
    readFrames k stream = (b :: (readFrames k rest).1, (readFrames k rest).2) := by
  rw [readFrames]
  split
  · rename_i e' h'
    rw [h] at h'
    cases h'
  · rename_i b' rest' h'
    rw [h, Except.ok.injEq, Prod.mk.injEq] at h'
    rw [h'.1, h'.2]

/-- The stream of the frames with the given payloads. -/
def frames (k : ℕ) (bs : List Bytes) : Bytes := bs.flatMap (frame (k + 1))

/-- **A stream that was cut off.**  A prefix `p` of a stream of frames is read as the first `j`
payloads, where the first `j` frames are those that `p` holds in full; the error tells how
much of the next frame `p` holds. -/
theorem readFrames_prefix {k : ℕ} :
    ∀ {bs : List Bytes}, (∀ b ∈ bs, b.length < 256 ^ (k + 1)) → ∀ {p : Bytes},
      p <+: frames k bs → ∃ j q, j ≤ bs.length ∧ p = frames k (bs.take j) ++ q ∧
        (∀ b, bs[j]? = some b → q.length < (frame (k + 1) b).length) ∧
        readFrames k p = (bs.take j, cut (k + 1) q.length)
  | [], _, p, hp => by
      have hnil : p = [] := List.prefix_nil.mp hp
      subst hnil
      refine ⟨0, [], le_rfl, rfl, by simp, ?_⟩
      exact readFrames_error (by simp [readFrame, readFull, cut])
  | b :: bs, hb, p, hp => by
      have hb0 := hb b List.mem_cons_self
      rw [frames, List.flatMap_cons] at hp
      by_cases hlen : (frame (k + 1) b).length ≤ p.length
      · -- the first frame is there in full
        obtain ⟨p', rfl⟩ := List.prefix_of_prefix_length_le (List.prefix_append _ _) hp hlen
        have hp' : p' <+: frames k bs := (List.prefix_append_right_inj _).mp hp
        obtain ⟨j, q, hj, rfl, hq, hread⟩ :=
          readFrames_prefix (fun c hc => hb c (List.mem_cons_of_mem _ hc)) hp'
        refine ⟨j + 1, q, by simpa using hj, by simp [frames], by simpa using hq, ?_⟩
        rw [readFrames_ok (readFrame_frame hb0 _), hread]
        rfl
      · have hq : p <+: frame (k + 1) b :=
          List.prefix_of_prefix_length_le hp (List.prefix_append _ _) (by omega)
        refine ⟨0, p, Nat.zero_le _, rfl, ?_, ?_⟩
        · intro c hc
          simp only [List.getElem?_cons_zero, Option.some.injEq] at hc
          subst hc
          omega
        · exact readFrames_error (readFrame_cut hb0 hq (by simpa using hlen))

end DistributedSystems.Framing
