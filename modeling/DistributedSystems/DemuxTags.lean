import DistributedSystems.Demux

/-! # Tags and the map of outstanding calls

The reader has only tags to go by, and the map of outstanding calls is changed by all of them.  In
every run with fewer than `2 ^ 32` calls no tag is drawn twice (`Tags`), and the map and the reader
together hold the calls that are open, each once (`MapOk`).

That the reader finds a call for every reply depends on the messages (`Answerable`), which come
with `Traffic`. -/

namespace DistributedSystems.Demux

variable {σ β : Type}

/-- The tag of the call `n`; the tag `0` was used for the first message of the connection. -/
def tagOf (n : ℕ) : Ttag := UInt32.ofNat (n + 1)

/-- The condition on a step: fewer than `2 ^ 32` calls are made. -/
def Few (s : State σ β) : Action β → Prop
  | .send _ => s.calls.length + 1 < 2 ^ 32
  | _ => True

instance (s : State σ β) : (a : Action β) → Decidable (Few s a)
  | .send _ => inferInstanceAs (Decidable (s.calls.length + 1 < 2 ^ 32))
  | .register _ | .write _ | .read | .fail | .drain _ | .finish | .deliver | .close | .srvRead
  | .srvFail | .serve _ | .reply _ | .disconnect | .kill => .isTrue trivial

theorem toNat_tagOf {n : ℕ} (h : n + 1 < 2 ^ 32) : (tagOf n).toNat = n + 1 := by
  rw [tagOf, UInt32.toNat_ofNat', Nat.mod_eq_of_lt h]

theorem tagOf_inj {m n : ℕ} (hm : m + 1 < 2 ^ 32) (hn : n + 1 < 2 ^ 32)
    (h : tagOf m = tagOf n) : m = n := by
  have := congrArg UInt32.toNat h
  rw [toNat_tagOf hm, toNat_tagOf hn] at this
  omega

/-! ### What a step does to one call -/

/-- The steps of `SendReceive` for the call `n`. -/
inductive StageStep (s : State σ β) (n : ℕ) : Stage β → Stage β → Prop
  | refuse (hcl : s.closed = true) : StageStep s n .tagged (.returned none)
  | register (hcl : s.closed = false) : StageStep s n .tagged .registered
  | write : StageStep s n .registered .waiting
  | deliver {a : Option (β × Bool)} {back : Option (List Ttag)}
      (hr : s.reader = .delivering n a back) : StageStep s n .waiting (.returned a)

/-- How the call `n` after a step comes from the state before it. -/
inductive CallStep (s : State σ β) (n : ℕ) : Call β → Prop
  | same {c : Call β} (h : s.calls[n]? = some c) : CallStep s n c
  | new (req : β) (h : n = s.calls.length) : CallStep s n ⟨s.nextTag, req, .tagged⟩
  | moved {c : Call β} {stage : Stage β} (hc : s.calls[n]? = some c)
      (hm : StageStep s n c.stage stage) : CallStep s n { c with stage := stage }

@[simp] theorem answer_calls (s : State σ β) (t : Ttag) (a : Option (β × Bool))
    (back : Option (List Ttag)) : (s.answer t a back).calls = s.calls := by
  unfold State.answer
  split <;> rfl

theorem Stepped.callStep {f : ServeRequest σ β} {s s' : State σ β} {a : Action β}
    (h : Stepped f s a s') {n : ℕ} {c : Call β} (hc : s'.calls[n]? = some c) :
    CallStep s n c := by
  have set : ∀ {m : ℕ} {d : Call β} {stage : Stage β}, s.calls[m]? = some d →
      StageStep s m d.stage stage → (s.calls.set m { d with stage := stage })[n]? = some c →
      CallStep s n c := by
    intro m d stage hd hm hc
    rcases getElem?_set_cases hc with ⟨rfl, rfl⟩ | ⟨-, hc⟩
    · exact .moved hd hm
    · exact .same hc
  cases h with
  | send req =>
      rcases getElem?_concat_cases hc with ⟨rfl, rfl⟩ | hc
      · exact .new req rfl
      · exact .same hc
  | refuse hc' hst hcl => exact set hc' (hst ▸ .refuse hcl) hc
  | register hc' hst hcl => exact set hc' (hst ▸ .register hcl) hc
  | write hc' hst => exact set hc' (hst ▸ .write) hc
  | deliver hr hc' hst => exact set hc' (hst ▸ .deliver hr) hc
  | read hr hm => exact .same (by simpa using hc)
  | drain hr ht => exact .same (by simpa using hc)
  | _ => exact .same hc

/-! ### Tags -/

/-- The tags are drawn in the order of the calls. -/
structure Tags (s : State σ β) : Prop where
  few : s.calls.length < 2 ^ 32
  next : s.nextTag = tagOf s.calls.length
  tag : ∀ (n : ℕ) (c : Call β), s.calls[n]? = some c → c.tag = tagOf n

theorem Tags.lt {s : State σ β} (h : Tags s) {n : ℕ} {c : Call β} (hc : s.calls[n]? = some c) :
    n + 1 < 2 ^ 32 := by
  have := (List.getElem?_eq_some_iff.mp hc).1
  have := h.few
  omega

/-- Two calls do not share a tag. -/
theorem Tags.inj {s : State σ β} (h : Tags s) {m n : ℕ} {c d : Call β}
    (hm : s.calls[m]? = some c) (hn : s.calls[n]? = some d) (ht : tagOf m = tagOf n) : m = n :=
  tagOf_inj (h.lt hm) (h.lt hn) ht

theorem Stepped.send_or {f : ServeRequest σ β} {s s' : State σ β} {a : Action β}
    (h : Stepped f s a s') : (∃ req, a = .send req ∧ s' = s.send req) ∨
      s'.calls.length = s.calls.length ∧ s'.nextTag = s.nextTag := by
  cases h with
  | send req => exact Or.inl ⟨req, rfl, rfl⟩
  | read hr hm => exact Or.inr ⟨by simp, by unfold State.answer; split <;> rfl⟩
  | drain hr ht => exact Or.inr ⟨by simp, by unfold State.answer; split <;> rfl⟩
  | _ => exact Or.inr ⟨by simp, rfl⟩

theorem tagOf_succ (n : ℕ) : tagOf (n + 1) = tagOf n + 1 := by
  simp [tagOf, UInt32.ofNat_add]

theorem Tags.step {f : ServeRequest σ β} {s s' : State σ β} {a : Action β} (h : Tags s)
    (hs : Stepped f s a s') (hC : Few s a) : Tags s' := by
  have htag : ∀ (n : ℕ) (c : Call β), s'.calls[n]? = some c → c.tag = tagOf n := by
    intro n c hc
    cases hs.callStep hc with
    | same hc => exact h.tag n c hc
    | new req hn => exact hn ▸ h.next
    | @moved d stage hd hm => exact h.tag n d hd
  rcases hs.send_or with ⟨req, rfl, rfl⟩ | ⟨hlen, hnext⟩
  · refine ⟨?_, ?_, htag⟩
    · have : s.calls.length + 1 < 2 ^ 32 := hC
      simpa using this
    · simp [h.next, tagOf_succ]
  · exact ⟨hlen ▸ h.few, by rw [hnext, hlen, h.next], htag⟩

/-! ### The map and the reader -/

/-- A call in this stage is in the map, or its answer has been taken from there. -/
def Stage.IsOpen (stage : Stage β) : Prop := stage = .registered ∨ stage = .waiting

/-- The call `n` is open. -/
def OpenAt (calls : List (Call β)) (n : ℕ) : Prop :=
  ∃ c, calls[n]? = some c ∧ c.stage.IsOpen

/-- The calls in the map. -/
def State.entries (s : State σ β) : List ℕ := s.callmap.map Prod.snd

/-- The outstanding tags the reader still has to answer, once it has stopped reading. -/
def Reader.rest : Reader β → Option (List Ttag)
  | .draining ts => some ts
  | .delivering _ _ (some ts) => some ts
  | .ended => some []
  | _ => none

/-- The map holds the open calls under their tags, but for the one whose answer the reader holds;
once the reader has stopped reading, it has the tags of exactly these calls left to answer, and no
call is added any more. -/
structure MapOk (s : State σ β) : Prop where
  key : ∀ e ∈ s.callmap, e.1 = tagOf e.2
  nodup : s.entries.Nodup
  entry : ∀ n ∈ s.entries, OpenAt s.calls n
  held : ∀ n, OpenAt s.calls n → n ∈ s.entries ∨ ∃ a back, s.reader = .delivering n a back
  delivering : ∀ n a back, s.reader = .delivering n a back → n ∉ s.entries ∧ OpenAt s.calls n
  rest : ∀ ts, s.reader.rest = some ts → s.closed = true ∧ ts.Perm (s.entries.map tagOf)

/-- The call `n` is taken from the map, and the reader holds its answer. -/
@[simps] def State.take (s : State σ β) (n : ℕ) (a : Option (β × Bool))
    (back : Option (List Ttag)) : State σ β :=
  { s with
    callmap := s.callmap.filter (fun e => e.1 != tagOf n)
    reader := .delivering n a back }

section map

variable {s : State σ β}

theorem mem_entries {n : ℕ} : n ∈ s.entries ↔ ∃ t, (t, n) ∈ s.callmap := by
  simp [State.entries]

theorem MapOk.mem_callmap (h : MapOk s) {n : ℕ} (hn : n ∈ s.entries) :
    (tagOf n, n) ∈ s.callmap := by
  obtain ⟨t, ht⟩ := mem_entries.mp hn
  have := h.key _ ht
  simp only at this
  exact this ▸ ht

theorem MapOk.tags (h : MapOk s) : s.callmap.map Prod.fst = s.entries.map tagOf := by
  rw [State.entries, List.map_map]
  exact List.map_congr_left (fun e he => h.key e he)

/-- Distinct calls in the map have distinct tags. -/
theorem MapOk.inj (h : MapOk s) (hT : Tags s) {m n : ℕ} (hm : m ∈ s.entries) (hn : n ∈ s.entries)
    (ht : tagOf m = tagOf n) : m = n := by
  obtain ⟨c, hc, -⟩ := h.entry m hm
  obtain ⟨d, hd, -⟩ := h.entry n hn
  exact hT.inj hc hd ht

theorem lookup_of_mem {l : List (Ttag × ℕ)} {t : Ttag} {n : ℕ} (hmem : (t, n) ∈ l)
    (huniq : ∀ m, (t, m) ∈ l → m = n) : l.lookup t = some n := by
  induction l with
  | nil => simp at hmem
  | cons e l ih =>
      obtain ⟨t', m⟩ := e
      rw [List.lookup_cons]
      by_cases ht : t = t'
      · subst ht
        simp [huniq m List.mem_cons_self]
      · have hne : (t == t') = false := by simpa using ht
        simp only [hne]
        refine ih ?_ (fun m hm => huniq m (List.mem_cons_of_mem _ hm))
        simpa [ht] using hmem

/-- The reader finds the call with the tag of a call in the map. -/
theorem MapOk.answer_eq (h : MapOk s) (hT : Tags s) {n : ℕ} (hn : n ∈ s.entries)
    (a : Option (β × Bool)) (back : Option (List Ttag)) :
    s.answer (tagOf n) a back = s.take n a back := by
  have hlookup : s.callmap.lookup (tagOf n) = some n := by
    refine lookup_of_mem (h.mem_callmap hn) ?_
    intro m hm
    have hm' : m ∈ s.entries := mem_entries.mpr ⟨_, hm⟩
    exact h.inj hT hm' hn (h.key _ hm).symm
  simp only [State.answer, hlookup]
  rfl

theorem MapOk.entries_take (h : MapOk s) (hT : Tags s) {n : ℕ} (hn : n ∈ s.entries)
    (a : Option (β × Bool)) (back : Option (List Ttag)) :
    (s.take n a back).entries = s.entries.erase n := by
  rw [h.nodup.erase_eq_filter, State.entries, State.take_callmap, State.entries,
    List.filter_map]
  congr 1
  refine List.filter_congr ?_
  intro e he
  have he' : e.2 ∈ s.entries := mem_entries.mpr ⟨e.1, he⟩
  rw [h.key e he, Function.comp_apply]
  by_cases hen : e.2 = n
  · rw [hen]
    simp
  · have hne : tagOf e.2 ≠ tagOf n := fun ht => hen (h.inj hT he' hn ht)
    rw [bne_iff_ne.mpr hen, bne_iff_ne.mpr hne]

/-! Which calls are open after a step. -/

theorem openAt_concat {calls : List (Call β)} {t : Ttag} {req : β} (m : ℕ) :
    OpenAt (calls ++ [⟨t, req, .tagged⟩]) m ↔ OpenAt calls m := by
  constructor
  · rintro ⟨c, hc, hopen⟩
    rcases getElem?_concat_cases hc with ⟨rfl, rfl⟩ | hc
    · simp [Stage.IsOpen] at hopen
    · exact ⟨c, hc, hopen⟩
  · rintro ⟨c, hc, hopen⟩
    exact ⟨c, by rw [List.getElem?_append_left (List.getElem?_eq_some_iff.mp hc).1, hc], hopen⟩

theorem openAt_set {calls : List (Call β)} {n : ℕ} {c : Call β} (hc : calls[n]? = some c)
    (stage : Stage β) (m : ℕ) : OpenAt (calls.set n { c with stage := stage }) m ↔
      (m = n ∧ stage.IsOpen) ∨ (m ≠ n ∧ OpenAt calls m) := by
  have hlt : n < calls.length := (List.getElem?_eq_some_iff.mp hc).1
  by_cases hm : m = n
  · subst hm
    simp [OpenAt, List.getElem?_set_self hlt]
  · simp [OpenAt, List.getElem?_set_ne (Ne.symm hm), hm]

theorem openAt_iff {calls : List (Call β)} {n : ℕ} {c : Call β} (hc : calls[n]? = some c) :
    OpenAt calls n ↔ c.stage.IsOpen := by
  simp [OpenAt, hc]

theorem openAt_set_of_iff {calls : List (Call β)} {n : ℕ} {c : Call β} (hc : calls[n]? = some c)
    {stage : Stage β} (hiff : stage.IsOpen ↔ c.stage.IsOpen) (m : ℕ) :
    OpenAt (calls.set n { c with stage := stage }) m ↔ OpenAt calls m := by
  rw [openAt_set hc]
  by_cases hm : m = n
  · subst hm
    simp [openAt_iff hc, hiff]
  · simp [hm]

/-- A step that leaves the map and the reader, and does not open or close a call. -/
theorem MapOk.congr {s' : State σ β} (h : MapOk s) (hmap : s'.callmap = s.callmap)
    (hr : s'.reader = s.reader) (hcl : s.closed = true → s'.closed = true)
    (hopen : ∀ n, OpenAt s'.calls n ↔ OpenAt s.calls n) : MapOk s' := by
  have hent : s'.entries = s.entries := by rw [State.entries, hmap, State.entries]
  constructor
  · rw [hmap]; exact h.key
  · rw [hent]; exact h.nodup
  · intro n hn
    rw [hopen]
    exact h.entry n (hent ▸ hn)
  · intro n hn
    rw [hent, hr]
    exact h.held n ((hopen n).mp hn)
  · intro n a back hd
    rw [hent, hopen]
    exact h.delivering n a back (hr ▸ hd)
  · intro ts hts
    rw [hent]
    obtain ⟨h₁, h₂⟩ := h.rest ts (hr ▸ hts)
    exact ⟨hcl h₁, h₂⟩

theorem MapOk.register (h : MapOk s) (hT : Tags s) {n : ℕ} {c : Call β}
    (hc : s.calls[n]? = some c) (hst : c.stage = .tagged) (hcl : s.closed = false) :
    MapOk (s.register n c) := by
  have hnot : ¬ OpenAt s.calls n := by simp [openAt_iff hc, Stage.IsOpen, hst]
  have hn : n ∉ s.entries := fun hn => hnot (h.entry n hn)
  have htag := hT.tag n c hc
  have hmap : (s.register n c).callmap = (tagOf n, n) :: s.callmap := by
    rw [State.register_callmap, htag, List.filter_eq_self.mpr]
    intro e he
    rw [bne_iff_ne, h.key e he]
    have he' : e.2 ∈ s.entries := mem_entries.mpr ⟨e.1, he⟩
    obtain ⟨d, hd, -⟩ := h.entry _ he'
    intro ht
    exact hn (hT.inj hd hc ht ▸ he')
  have hent : (s.register n c).entries = n :: s.entries := by
    rw [State.entries, hmap, List.map_cons, State.entries]
  have hopen : ∀ m, OpenAt (s.register n c).calls m ↔ m = n ∨ m ≠ n ∧ OpenAt s.calls m := by
    intro m
    rw [State.register_calls, openAt_set hc]
    simp [Stage.IsOpen]
  constructor
  · rw [hmap]
    rintro e (_ | ⟨_, he⟩)
    · rfl
    · exact h.key e he
  · rw [hent]
    exact List.nodup_cons.mpr ⟨hn, h.nodup⟩
  · intro m hm
    rw [hent, List.mem_cons] at hm
    rw [hopen]
    rcases hm with rfl | hm
    · exact Or.inl rfl
    · exact Or.inr ⟨fun he => hn (he ▸ hm), h.entry m hm⟩
  · intro m hm
    rw [hent, List.mem_cons]
    rcases (hopen m).mp hm with rfl | ⟨-, hm⟩
    · exact Or.inl (Or.inl rfl)
    · exact (h.held m hm).imp Or.inr id
  · intro m a back hd
    obtain ⟨h₁, h₂⟩ := h.delivering m a back hd
    have hne : m ≠ n := fun he => hnot (he ▸ h₂)
    rw [hent, hopen]
    exact ⟨by simp [hne, h₁], Or.inr ⟨hne, h₂⟩⟩
  · intro ts hts
    have := (h.rest ts hts).1
    rw [hcl] at this
    cases this

/-- The reader takes an answer for the call `n`. -/
theorem MapOk.take (h : MapOk s) (hT : Tags s) {n : ℕ} (hn : n ∈ s.entries)
    (hfree : ∀ m a back, s.reader ≠ .delivering m a back) (a : Option (β × Bool))
    {back : Option (List Ttag)}
    (hback : ∀ ts, back = some ts → s.closed = true ∧ (tagOf n :: ts).Perm (s.entries.map tagOf)) :
    MapOk (s.take n a back) := by
  have hent := h.entries_take hT hn a back
  constructor
  · intro e he
    exact h.key e (List.mem_filter.mp he).1
  · rw [hent]
    exact h.nodup.erase n
  · intro m hm
    rw [hent] at hm
    exact h.entry m (List.mem_of_mem_erase hm)
  · intro m hm
    rw [hent]
    by_cases hmn : m = n
    · exact Or.inr ⟨a, back, by rw [hmn]; rfl⟩
    · refine Or.inl ((List.mem_erase_of_ne hmn).mpr ?_)
      rcases h.held m hm with hm | ⟨a', back', hd⟩
      · exact hm
      · exact absurd hd (hfree m a' back')
  · rintro m a' back' ⟨⟩
    rw [hent]
    exact ⟨h.nodup.not_mem_erase, h.entry n hn⟩
  · intro ts hts
    cases back with
    | none => cases hts
    | some ts' =>
        simp only [State.take_reader, Reader.rest, Option.some.injEq] at hts
        subst hts
        obtain ⟨hcl, hperm⟩ := hback ts' rfl
        refine ⟨hcl, ?_⟩
        rw [hent]
        refine List.Perm.cons_inv (a := tagOf n) (hperm.trans ?_)
        rw [← List.map_cons]
        exact (List.perm_cons_erase hn).map tagOf

/-- The reader hands over the answer. -/
theorem MapOk.deliver (h : MapOk s) {n : ℕ} {a : Option (β × Bool)} {back : Option (List Ttag)}
    {c : Call β} (hr : s.reader = .delivering n a back) (hc : s.calls[n]? = some c) :
    MapOk { s.ret n c a with reader := State.resumed back } := by
  obtain ⟨hn, -⟩ := h.delivering n a back hr
  have hopen : ∀ m, OpenAt (s.ret n c a).calls m ↔ m ≠ n ∧ OpenAt s.calls m := by
    intro m
    rw [State.ret_calls, openAt_set hc]
    simp [Stage.IsOpen]
  have hidle : ∀ m a' back', State.resumed back ≠ (Reader.delivering m a' back' : Reader β) := by
    intro m a' back'
    cases back <;> simp [State.resumed]
  constructor
  · exact h.key
  · exact h.nodup
  · intro m hm
    exact (hopen m).mpr ⟨fun he => hn (he ▸ hm), h.entry m hm⟩
  · intro m hm
    obtain ⟨hne, hm⟩ := (hopen m).mp hm
    rcases h.held m hm with hm | ⟨a', back', hd⟩
    · exact Or.inl hm
    · rw [hr, Reader.delivering.injEq] at hd
      exact absurd hd.1.symm hne
  · intro m a' back' hd
    exact absurd hd (hidle m a' back')
  · intro ts hts
    refine h.rest ts ?_
    rw [hr]
    cases back with
    | none => cases hts
    | some ts' => exact hts

theorem MapOk.fail (h : MapOk s) (hr : s.reader = .reading) :
    MapOk { s with closed := true, reader := .draining (s.callmap.map Prod.fst) } where
  key := h.key
  nodup := h.nodup
  entry := h.entry
  held n hn := by
    rcases h.held n hn with hn | ⟨a, back, hd⟩
    · exact Or.inl hn
    · rw [hr] at hd
      cases hd
  delivering n a back hd := by cases hd
  rest ts hts := by
    simp only [Reader.rest, Option.some.injEq] at hts
    subst hts
    rw [h.tags]
    exact ⟨rfl, List.Perm.refl _⟩

theorem MapOk.finish (h : MapOk s) (hr : s.reader = .draining []) :
    MapOk { s with reader := .ended } where
  key := h.key
  nodup := h.nodup
  entry := h.entry
  held n hn := by
    rcases h.held n hn with hn | ⟨a, back, hd⟩
    · exact Or.inl hn
    · rw [hr] at hd
      cases hd
  delivering n a back hd := by cases hd
  rest ts hts := h.rest ts (by rw [hr]; exact hts)

/-- The reader answers one of the outstanding tags. -/
theorem MapOk.drain (h : MapOk s) (hT : Tags s) {ts : List Ttag} {i : ℕ} {t : Ttag}
    (hr : s.reader = .draining ts) (ht : ts[i]? = some t) :
    ∃ n ∈ s.entries, s.answer t none (some (ts.eraseIdx i)) =
      s.take n none (some (ts.eraseIdx i)) ∧ MapOk (s.take n none (some (ts.eraseIdx i))) := by
  obtain ⟨hcl, hperm⟩ := h.rest ts (by rw [hr]; rfl)
  obtain ⟨n, hn, rfl⟩ := List.mem_map.mp (hperm.mem_iff.mp (List.mem_of_getElem? ht))
  refine ⟨n, hn, h.answer_eq hT hn _ _, h.take hT hn (by simp [hr]) none ?_⟩
  rintro ts' ⟨⟩
  refine ⟨hcl, List.Perm.trans ?_ hperm⟩
  obtain ⟨hlt, hget⟩ := List.getElem?_eq_some_iff.mp ht
  rw [← hget]
  exact List.getElem_cons_eraseIdx_perm hlt

/-- Every reply the reader gets has a call in the map. -/
def Answerable (s : State σ β) : Prop :=
  s.reader = .reading → ∀ m ∈ s.replies, ∃ n ∈ s.entries, m.tag = tagOf n

theorem MapOk.read (h : MapOk s) (hT : Tags s) (hA : Answerable s) {m : Msg β} {l : List (Msg β)}
    (hr : s.reader = .reading) (hm : s.replies = m :: l) :
    ∃ n ∈ s.entries, m.tag = tagOf n ∧
      { s with replies := l }.answer m.tag (some (m.data, m.ok)) none =
        { s with replies := l }.take n (some (m.data, m.ok)) none ∧
      MapOk ({ s with replies := l }.take n (some (m.data, m.ok)) none) := by
  obtain ⟨n, hn, ht⟩ := hA hr m (by simp [hm])
  have h' : MapOk { s with replies := l } := h.congr rfl rfl id (fun _ => Iff.rfl)
  have hT' : Tags { s with replies := l } := ⟨hT.few, hT.next, hT.tag⟩
  refine ⟨n, hn, ht, ?_, h'.take hT' hn (by simp [hr]) _ (by simp)⟩
  rw [ht]
  exact h'.answer_eq hT' hn _ _

theorem MapOk.step {f : ServeRequest σ β} {s' : State σ β} {a : Action β} (h : MapOk s)
    (hT : Tags s) (hA : Answerable s) (hs : Stepped f s a s') : MapOk s' := by
  cases hs with
  | send req => exact h.congr rfl rfl id openAt_concat
  | refuse hc hst hcl =>
      exact h.congr rfl rfl id (openAt_set_of_iff hc (by simp [hst, Stage.IsOpen]))
  | register hc hst hcl => exact h.register hT hc hst hcl
  | write hc hst =>
      exact h.congr rfl rfl id (openAt_set_of_iff hc (by simp [hst, Stage.IsOpen]))
  | read hr hm =>
      obtain ⟨n, -, -, he, hok⟩ := h.read hT hA hr hm
      rw [he]
      exact hok
  | fail hr hd => exact h.fail hr
  | drain hr ht =>
      obtain ⟨n, -, he, hok⟩ := h.drain hT hr ht
      rw [he]
      exact hok
  | finish hr => exact h.finish hr
  | deliver hr hc hst => exact h.deliver hr hc
  | close hcl => exact h.congr rfl rfl (fun _ => rfl) (fun _ => Iff.rfl)
  | srvRead hk hs hm => exact h.congr rfl rfl id (fun _ => Iff.rfl)
  | srvFail hd hsv => exact h.congr rfl rfl id (fun _ => Iff.rfl)
  | serve hx hst hf => exact h.congr rfl rfl id (fun _ => Iff.rfl)
  | crash i hk => exact h.congr rfl rfl id (fun _ => Iff.rfl)
  | reply hx hst => exact h.congr rfl rfl id (fun _ => Iff.rfl)
  | disconnect => exact h.congr rfl rfl id (fun _ => Iff.rfl)
  | kill => exact h.congr rfl rfl id (fun _ => Iff.rfl)

end map

end DistributedSystems.Demux
