import DistributedSystems.KvLinearizable
import DistributedSystems.KvModel
import DistributedSystems.KvPuts

/-! # Operations of a linearized history in the model

`checkPorcupine` of `kvtest1/porcupine.go` hands the log of a test to the checker, which looks, for
every key, for an order of the operations that `KvModel` accepts and that keeps the order of the
recorded times (`KvModel.CheckOperations`).

The model accepts the operations on one key in the order in which the sequential store executes
them, as long as no `Put` is answered with `ErrNoKey`, which the model does not know. -/

namespace DistributedSystems.Kv

/-- A `porcupine.Operation`. -/
structure TimedOperation extends Operation where
  ret : ℕ
  clientId : ℕ
deriving DecidableEq, Repr

namespace KvModel

/-- The operation is accepted in the state `st`, and the next state. -/
def next (st : KvState) (op : Operation) : Option KvState :=
  match step st op.input op.output with
  | (true, st') => st'
  | (false, _) => none

theorem replay_eq (ops : List Operation) : replay ops = ops.foldlM next init := rfl

/-- What `porcupine.CheckOperationsVerbose` looks for: for every part an order of its operations
that the model accepts, in which no operation stands before one that had returned when it was
called. -/
def CheckOperations (history : List TimedOperation) : Prop :=
  ∀ part ∈ partitionOf (fun v => v.input.key) history, ∃ l : List TimedOperation, l.Perm part ∧
    l.Pairwise (fun x y => ¬ y.ret < x.call) ∧ replay (l.map (·.toOperation)) ≠ none

end KvModel

/-! ### The model accepts a run of the sequential store -/

/-- The model's state of a key is the entry of the sequential store. -/
def KvState.Matches (st : KvState) : Option (String × ℕ) → Prop
  | none => st = ⟨"", 0⟩
  | some (value, version) => st.value = value ∧ st.version.toNat = version

/-- What `Get` and `Put` of the tests record for a call that returned. -/
def recorded (op : Op) (r : Ret) (start stop cli : ℕ) : Option TimedOperation :=
  match op, r with
  | .get args, .get value version err =>
      some ⟨⟨⟨0, args.key, "", 0⟩, ⟨value, version, err.string⟩, start⟩, stop, cli⟩
  | .put args, .put err =>
      some ⟨⟨⟨1, args.key, args.value, args.version⟩, ⟨"", 0, err.string⟩, start⟩, stop, cli⟩
  | _, _ => none

theorem recorded_key {op : Op} {r : Ret} {start stop cli : ℕ} {y : TimedOperation}
    (h : recorded op r start stop cli = some y) : y.input.key = op.key := by
  cases op <;> cases r <;> simp only [recorded, reduceCtorEq, Option.some.injEq] at h <;>
    subst h <;> rfl

theorem recorded_times {op : Op} {r : Ret} {start stop cli : ℕ} {y : TimedOperation}
    (h : recorded op r start stop cli = some y) : y.call = start ∧ y.ret = stop := by
  cases op <;> cases r <;> simp only [recorded, reduceCtorEq, Option.some.injEq] at h <;>
    subst h <;> exact ⟨rfl, rfl⟩

/-- A return the model can accept: a `Get` that misses the key returns the empty value, and no
`Put` returns `ErrNoKey`. -/
def Ret.Plain : Ret → Prop
  | .get value _ err => err = .errNoKey → value = ""
  | .put err => err ≠ .errNoKey

/-- The number of `Put`s on the key that the sequence installs. -/
def installed (k : String) (l : List (ℕ × Op × Outcome)) : ℕ :=
  l.countP (fun x => decide (x.2.1.key = k ∧ x.2.2 = .installed))

/-- The version of an entry, `0` when it is absent. -/
def entryVersion : Option (String × ℕ) → ℕ
  | none => 0
  | some (_, version) => version

theorem KvState.Matches.version {st : KvState} {e : Option (String × ℕ)} (h : st.Matches e) :
    st.version.toNat = entryVersion e := by
  cases e with
  | none =>
      have h : st = ⟨"", 0⟩ := h
      subst h
      rfl
  | some p => exact h.2

@[simp] theorem specNext_get (m : Entries) (args : GetArgs) : (specNext m (.get args)).1 = m := by
  simp only [specNext]
  split <;> rfl

/-- A `Put` that names the version of the entry is installed. -/
theorem specNext_put_of_eq {m : Entries} {args : PutArgs}
    (h : args.version.toNat = entryVersion (m args.key)) : specNext m (.put args) =
      (Function.update m args.key (some (args.value, entryVersion (m args.key) + 1)),
        .installed) := by
  simp only [specNext]
  cases hm : m args.key with
  | none =>
      rw [hm] at h
      exact if_pos h
  | some e =>
      rw [hm] at h
      exact if_pos h

/-- Any other `Put` changes nothing. -/
theorem specNext_put_of_ne {m : Entries} {args : PutArgs}
    (h : args.version.toNat ≠ entryVersion (m args.key)) :
    (specNext m (.put args)).1 = m ∧ (specNext m (.put args)).2 ≠ .installed := by
  simp only [specNext]
  cases hm : m args.key with
  | none =>
      rw [hm] at h
      have h : ¬ args.version.toNat = 0 := h
      simp [if_neg h]
  | some e =>
      rw [hm] at h
      have h : ¬ args.version.toNat = e.2 := h
      simp [if_neg h]

/-- An operation on another key leaves the entry. -/
theorem specNext_of_ne (m : Entries) {op : Op} {k : String} (h : op.key ≠ k) :
    (specNext m op).1 k = m k := by
  cases op with
  | get args => rw [specNext_get]
  | put args =>
      by_cases hv : args.version.toNat = entryVersion (m args.key)
      · rw [specNext_put_of_eq hv]
        exact Function.update_of_ne (Ne.symm h) _ _
      · rw [(specNext_put_of_ne hv).1]

/-- Only an installed `Put` raises the version. -/
theorem entryVersion_specNext_le (m : Entries) (op : Op) :
    entryVersion ((specNext m op).1 op.key) ≤
      entryVersion (m op.key) + if (specNext m op).2 = .installed then 1 else 0 := by
  cases op with
  | get args => simp
  | put args =>
      by_cases hv : args.version.toNat = entryVersion (m args.key)
      · rw [specNext_put_of_eq hv]
        simp [Op.key, entryVersion]
      · rw [(specNext_put_of_ne hv).1]
        omega

/-- `Step` accepts a `Get` of the value the store holds. -/
theorem next_get {m : Entries} {args : GetArgs} {value : String} {version : Tversion} {err : Err}
    {start : ℕ} {st : KvState} (hst : st.Matches (m args.key))
    (hex : Explains (.get value version err) (specNext m (.get args)).2)
    (hr : Ret.Plain (.get value version err)) :
    KvModel.next st ⟨⟨0, args.key, "", 0⟩, ⟨value, version, err.string⟩, start⟩ = some st := by
  have hvalue : value = st.value := by
    simp only [specNext] at hex
    cases hm : m args.key with
    | none =>
        rw [hm] at hst hex
        have hst : st = ⟨"", 0⟩ := hst
        cases err <;> simp only [Explains] at hex
        rw [hr rfl, hst]
    | some e =>
        rw [hm] at hst hex
        cases err <;> simp only [Explains] at hex
        exact hex.1.trans hst.1.symm
  simp [KvModel.next, KvModel.step, hvalue]

/-- `Step` accepts a `Put` that names the version of the store, and one that does not. -/
theorem next_put {m : Entries} {args : PutArgs} {err : Err} {start : ℕ} {st : KvState}
    (hst : st.Matches (m args.key)) (hex : Explains (.put err) (specNext m (.put args)).2)
    (hr : Ret.Plain (.put err))
    (hfew : (specNext m (.put args)).2 = .installed → entryVersion (m args.key) + 1 < 2 ^ 64) :
    ∃ st', KvModel.next st ⟨⟨1, args.key, args.value, args.version⟩, ⟨"", 0, err.string⟩, start⟩ =
      some st' ∧ st'.Matches ((specNext m (.put args)).1 args.key) := by
  have hver := hst.version
  by_cases hv : args.version.toNat = entryVersion (m args.key)
  · have hst' : st.version = args.version := UInt64.toNat_inj.mp (hver.trans hv.symm)
    rw [specNext_put_of_eq hv] at hex hfew ⊢
    have herr : err = .ok ∨ err = .errMaybe := by
      cases err <;> simp [Explains] at hex ⊢
    refine ⟨⟨args.value, st.version + 1⟩, ?_, ?_⟩
    · rcases herr with rfl | rfl <;> simp [KvModel.next, KvModel.step, hst', Err.string]
    · have hlt := hfew rfl
      simp only [Function.update_self]
      refine ⟨rfl, ?_⟩
      rw [UInt64.toNat_add, hver]
      exact Nat.mod_eq_of_lt hlt
  · obtain ⟨hsame, hne⟩ := specNext_put_of_ne hv
    have hst' : st.version ≠ args.version := fun he => hv (by rw [← he, hver])
    have herr : err = .errVersion ∨ err = .errMaybe := by
      generalize (specNext m (.put args)).2 = o at hex hne
      cases err <;> cases o <;> simp_all [Explains, Ret.Plain]
    refine ⟨st, ?_, by rw [hsame]; exact hst⟩
    rcases herr with rfl | rfl <;> simp [KvModel.next, KvModel.step, hst', Err.string]

/-- `Step` follows the sequential store in one operation. -/
theorem next_recorded {m : Entries} {op : Op} {r : Ret} {start stop cli : ℕ} {y : TimedOperation}
    {st : KvState} (hst : st.Matches (m op.key)) (hy : recorded op r start stop cli = some y)
    (hex : Explains r (specNext m op).2) (hr : r.Plain)
    (hfew : (specNext m op).2 = .installed → entryVersion (m op.key) + 1 < 2 ^ 64) :
    ∃ st', KvModel.next st y.toOperation = some st' ∧ st'.Matches ((specNext m op).1 op.key) := by
  cases op with
  | get args =>
      cases r with
      | get value version err =>
          simp only [recorded, Option.some.injEq] at hy
          subst hy
          exact ⟨st, next_get hst hex hr, by rw [specNext_get]; exact hst⟩
      | put err => cases hy
  | put args =>
      cases r with
      | get value version err => cases hy
      | put err =>
          simp only [recorded, Option.some.injEq] at hy
          subst hy
          exact next_put hst hex hr hfew

/-- **The model accepts a linearization.**  The operations of the key `k` in a legal sequence are
accepted one after the other, when `f` records each of them with a return that its response
explains. -/
theorem replay_legal (k : String) {f : ℕ → Option TimedOperation} :
    ∀ (l : List (ℕ × Op × Outcome)) (m : Entries) (st : KvState), st.Matches (m k) →
      versionedStore.Legal m (l.map Prod.snd) → entryVersion (m k) + installed k l < 2 ^ 64 →
      (∀ x ∈ l, ∃ r start stop cli y, f x.1 = some y ∧ recorded x.2.1 r start stop cli = some y ∧
        Explains r x.2.2 ∧ r.Plain) →
      (((l.filterMap (fun x => f x.1)).filter (fun y => y.input.key = k)).map
        (·.toOperation)).foldlM KvModel.next st ≠ none
  | [], m, st, _, _, _, _ => by simp
  | (n, op, o) :: l, m, st, hst, hlegal, hfew, hf => by
      obtain ⟨r, start, stop, cli, y, hfn, hy, hex, hr⟩ := hf (n, op, o) List.mem_cons_self
      obtain ⟨ho, hlegal⟩ := hlegal
      have ih := fun st' hst' hfew' => replay_legal k l (specNext m op).1 st' hst' hlegal hfew'
        (fun x hx => hf x (List.mem_cons_of_mem _ hx))
      have ho : (specNext m op).2 = o := ho
      rw [List.filterMap_cons_some (f := fun x : ℕ × Op × Outcome => f x.1) hfn]
      by_cases hk : op.key = k
      · subst hk
        have hcount : installed op.key ((n, op, o) :: l) =
            installed op.key l + if o = .installed then 1 else 0 := by
          simp [installed, List.countP_cons]
        rw [hcount] at hfew
        obtain ⟨st', hnext, hst'⟩ := next_recorded hst hy (ho ▸ hex) hr (by
          intro he
          rw [if_pos (ho.symm.trans he)] at hfew
          omega)
        rw [List.filter_cons_of_pos (by simp [recorded_key hy]), List.map_cons, List.foldlM_cons,
          hnext]
        refine ih st' hst' ?_
        have hle := entryVersion_specNext_le m op
        rw [ho] at hle
        omega
      · rw [List.filter_cons_of_neg (by simpa [recorded_key hy] using hk)]
        refine ih st ?_ ?_
        · rw [specNext_of_ne m hk]
          exact hst
        · rw [specNext_of_ne m hk]
          have hcount : installed k ((n, op, o) :: l) = installed k l := by
            simp [installed, hk]
          omega

end DistributedSystems.Kv
