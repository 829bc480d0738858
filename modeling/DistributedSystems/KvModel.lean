import DistributedSystems.KvServer
import DistributedSystems.Grouping

/-! # The model of the linearizability checker

The tests check the histories of the Clerks against `KvModel` of `models1/kv.go`.  Here the model
is compared with the server itself: a sequence of requests is executed by a new server, recorded
with its replies as the `Get` and `Put` of `kvtest1/porcupine.go` do (`oplog`), split by
`Partition` and replayed by `Step`.

The two agree on every request but one: the server answers a `Put` of a version other than `0` on an
absent key with `ErrNoKey`, which `Step` does not accept.  So the model accepts a sequence, and
follows the server in every state, exactly if every such `Put` comes after one of version `0`
(`model_agrees_iff`). -/

namespace DistributedSystems.Kv

/-! ### `KvModel` -/

structure KvInput where
  op : UInt8
  key : String
  value : String
  version : UInt64
deriving DecidableEq, Repr

structure KvOutput where
  value : String
  version : UInt64
  err : String
deriving DecidableEq, Repr

structure KvState where
  value : String
  version : UInt64
deriving DecidableEq, Repr

/-- A `porcupine.Operation`, with the time of the call. -/
structure Operation where
  input : KvInput
  output : KvOutput
  call : ℕ
deriving DecidableEq, Repr

namespace KvModel

/-- One history for every key, in the order of the keys. -/
def partitionOf {α : Type} (key : α → String) (history : List α) : List (List α) :=
  let m := collect key history
  let keys := m.keys.insertionSort (· ≤ ·)
  keys.map (fun k => (m.lookup k).getD [])

/-- `Partition`. -/
def partition (history : List Operation) : List (List Operation) :=
  partitionOf (fun v => v.input.key) history

def init : KvState := ⟨"", 0⟩

/-- `Step`: whether the output is accepted, and the next state; `none` is the invalid one. -/
def step (st : KvState) (inp : KvInput) (out : KvOutput) : Bool × Option KvState :=
  if inp.op = 0 then (out.value == st.value, some st)
  else if inp.op = 1 then
    if st.version = inp.version then
      (out.err == "OK" || out.err == "ErrMaybe", some ⟨inp.value, st.version + 1⟩)
    else (out.err == "ErrVersion" || out.err == "ErrMaybe", some st)
  else (false, none)

/-- The state after the operations, if `Step` accepts every one. -/
def replay (ops : List Operation) : Option KvState :=
  ops.foldlM (fun st op =>
    match step st op.input op.output with
    | (true, st') => st'
    | (false, _) => none) init

end KvModel

/-! ### Recorded executions -/

/-- `string(err)`. -/
def Err.string : Err → String
  | .ok => "OK"
  | .errNoKey => "ErrNoKey"
  | .errVersion => "ErrVersion"
  | .errMaybe => "ErrMaybe"

/-- What `Get` and `Put` log for a request that the server executes. -/
def record (kv : KVServer) (call : ℕ) : Op → Operation
  | .get args =>
      let reply := kv.get args
      ⟨⟨0, args.key, "", 0⟩, ⟨reply.value, reply.version, reply.err.string⟩, call⟩
  | .put args =>
      let reply := (kv.put args).2
      ⟨⟨1, args.key, args.value, args.version⟩, ⟨"", 0, reply.err.string⟩, call⟩

/-- The server after the requests. -/
def KVServer.run (kv : KVServer) (reqs : List Op) : KVServer :=
  reqs.foldl (fun kv op => (kv.handle op).1) kv

/-- The history of the requests, the calls numbered from `call` on. -/
def oplogFrom (kv : KVServer) (call : ℕ) : List Op → List Operation
  | [] => []
  | op :: reqs => record kv call op :: oplogFrom (kv.handle op).1 (call + 1) reqs

/-- The history of the requests to a new server. -/
def oplog (reqs : List Op) : List Operation := oplogFrom .make 0 reqs

/-- What the model keeps for a key. -/
def KVServer.kvState (kv : KVServer) (key : String) : KvState :=
  match kv.store key with
  | none => ⟨"", 0⟩
  | some vv => ⟨vv.value, vv.version⟩

/-- The model accepts the history of every key, and after each operation it has the value and the
version that the server has after the request. -/
def ModelAgrees (reqs : List Op) : Prop :=
  ∀ part ∈ KvModel.partition (oplog reqs), ∀ pre op, pre ++ [op] <+: part →
    KvModel.replay (pre ++ [op]) =
      some ((KVServer.make.run (reqs.take (op.call + 1))).kvState op.input.key)

/-- Every `Put` of a version other than `0` comes after a `Put` of version `0` on the same key. -/
def PutsAfterFirst (reqs : List Op) : Prop :=
  ∀ (i : ℕ) args, reqs[i]? = some (.put args) → args.version ≠ 0 →
    ∃ args', .put args' ∈ reqs.take i ∧ args'.key = args.key ∧ args'.version = 0

/-! ### Histories -/

theorem oplogFrom_append (kv : KVServer) (call : ℕ) : ∀ reqs reqs' : List Op,
    oplogFrom kv call (reqs ++ reqs') =
      oplogFrom kv call reqs ++ oplogFrom (kv.run reqs) (call + reqs.length) reqs'
  | [], reqs' => by simp [oplogFrom, KVServer.run]
  | op :: reqs, reqs' => by
      have ih := oplogFrom_append (kv.handle op).1 (call + 1) reqs reqs'
      rw [List.cons_append, oplogFrom, ih, oplogFrom, List.cons_append, List.length_cons,
        Nat.add_right_comm call 1, Nat.add_assoc call reqs.length]
      rfl

theorem oplog_concat (reqs : List Op) (op : Op) : oplog (reqs ++ [op]) =
    oplog reqs ++ [record (KVServer.make.run reqs) reqs.length op] := by
  rw [oplog, oplogFrom_append, Nat.zero_add]
  rfl

theorem KVServer.run_concat (kv : KVServer) (reqs : List Op) (op : Op) :
    kv.run (reqs ++ [op]) = ((kv.run reqs).handle op).1 := by
  rw [run, List.foldl_append]
  rfl

theorem getElem?_oplogFrom : ∀ (reqs : List Op) (kv : KVServer) (call i : ℕ),
    (oplogFrom kv call reqs)[i]? =
      reqs[i]?.map (record (kv.run (reqs.take i)) (call + i))
  | [], _, _, _ => by simp [oplogFrom]
  | op :: reqs, kv, call, 0 => by simp [oplogFrom, KVServer.run]
  | op :: reqs, kv, call, i + 1 => by
      rw [oplogFrom, List.getElem?_cons_succ, getElem?_oplogFrom reqs, List.getElem?_cons_succ,
        List.take_succ_cons, Nat.add_right_comm, Nat.add_assoc call i 1]
      rfl

theorem getElem?_oplog (reqs : List Op) (i : ℕ) : (oplog reqs)[i]? =
    reqs[i]?.map (record (KVServer.make.run (reqs.take i)) i) := by
  rw [oplog, getElem?_oplogFrom, Nat.zero_add]

theorem take_oplog (reqs : List Op) (i : ℕ) :
    (oplog reqs).take i = oplog (reqs.take i) := by
  refine List.ext_getElem? ?_
  intro j
  rw [List.getElem?_take, getElem?_oplog, getElem?_oplog, List.getElem?_take]
  split_ifs with hj
  · rw [List.take_take, min_eq_left hj.le]
  · rfl

/-! ### Keys of the server -/

/-- A key is made by the first `Put` of version `0`. -/
theorem KVServer.store_handle_ne_none_iff (kv : KVServer) (op : Op) (k : String) :
    (kv.handle op).1.store k ≠ none ↔
      kv.store k ≠ none ∨ ∃ args, op = .put args ∧ args.key = k ∧ args.version = 0 := by
  cases op with
  | get args => simp [handle]
  | put args =>
      simp only [handle, Op.put.injEq, exists_eq_left']
      by_cases hv : args.version = kv.version args.key
      · rw [put_of_eq hv]
        by_cases hk : args.key = k
        · subst hk
          simp only [assign_store, if_true, ne_eq, reduceCtorEq, not_false_eq_true, true_and,
            true_iff]
          by_cases hs : kv.store args.key = none
          · exact Or.inr (hv.trans (version_of_none hs))
          · exact Or.inl hs
        · simp [hk, Ne.symm hk]
      · rw [put_of_ne hv]
        constructor
        · exact Or.inl
        · rintro (h | ⟨rfl, h0⟩)
          · exact h
          · intro hs
            exact hv (h0.trans (version_of_none hs).symm)

theorem KVServer.store_run_ne_none_iff (reqs : List Op) (k : String) :
    (make.run reqs).store k ≠ none ↔
      ∃ args, .put args ∈ reqs ∧ args.key = k ∧ args.version = 0 := by
  induction reqs using List.reverseRecOn with
  | nil => simp [run, make]
  | append_singleton reqs op ih =>
      rw [run_concat, store_handle_ne_none_iff, ih]
      simp only [List.mem_append, List.mem_singleton]
      constructor
      · rintro (⟨args, hmem, h⟩ | ⟨args, he, h⟩)
        · exact ⟨args, Or.inl hmem, h⟩
        · exact ⟨args, Or.inr he.symm, h⟩
      · rintro ⟨args, hmem | he, h⟩
        · exact Or.inl ⟨args, hmem, h⟩
        · exact Or.inr ⟨args, he.symm, h⟩

/-! ### One request -/

theorem KVServer.get_value (kv : KVServer) (args : GetArgs) :
    (kv.get args).value = (kv.kvState args.key).value := by
  unfold get kvState
  cases kv.store args.key <;> rfl

theorem KVServer.kvState_version (kv : KVServer) (key : String) :
    (kv.kvState key).version = kv.version key := by
  unfold kvState version
  cases kv.store key <;> rfl

/-- A request leaves the other keys alone. -/
theorem KVServer.kvState_handle_of_ne (kv : KVServer) (call : ℕ) {op : Op} {k : String}
    (h : (record kv call op).input.key ≠ k) : (kv.handle op).1.kvState k = kv.kvState k := by
  cases op with
  | get args => rfl
  | put args =>
      have hne : k ≠ args.key := Ne.symm h
      simp only [kvState, handle]
      by_cases hv : args.version = kv.version args.key
      · rw [put_of_eq hv]
        simp [hne]
      · rw [put_of_ne hv]

namespace KvModel

theorem replay_concat (ops : List Operation) (op : Operation) : replay (ops ++ [op]) =
    (replay ops).bind (fun st =>
      match step st op.input op.output with
      | (true, st') => st'
      | (false, _) => none) := by
  rw [replay, List.foldlM_append]
  simp [replay]

/-- The parts are the histories of the keys. -/
theorem mem_partitionOf_iff {α : Type} {key : α → String} {history part : List α} :
    part ∈ partitionOf key history ↔
      ∃ op ∈ history, part = history.filter (fun v => key v = key op) := by
  unfold partitionOf
  simp only [List.mem_map, List.mem_insertionSort, mem_collect_keys, lookup_collect]
  constructor
  · rintro ⟨k, ⟨op, hop, rfl⟩, rfl⟩
    exact ⟨op, hop, rfl⟩
  · rintro ⟨op, hop, rfl⟩
    exact ⟨_, ⟨op, hop, rfl⟩, rfl⟩

theorem mem_partition_iff {history part : List Operation} : part ∈ partition history ↔
    ∃ op ∈ history, part = history.filter (fun v => v.input.key = op.input.key) :=
  mem_partitionOf_iff

/-- The model follows the server in every request but a `Put` of a version other than `0` on an
absent key. -/
theorem step_record (kv : KVServer) (call : ℕ) {op : Op}
    (h : ∀ args, op = .put args → args.version ≠ 0 → kv.store args.key ≠ none) :
    step (kv.kvState (record kv call op).input.key) (record kv call op).input
        (record kv call op).output =
      (true, some ((kv.handle op).1.kvState (record kv call op).input.key)) := by
  cases op with
  | get args =>
      simp only [step, record, if_true, KVServer.get_value, KVServer.handle, beq_self_eq_true]
  | put args =>
      unfold step
      simp only [record, KVServer.handle, KVServer.kvState_version]
      rw [if_neg (by decide), if_pos trivial]
      by_cases hv : args.version = kv.version args.key
      · rw [if_pos hv.symm, KVServer.put_of_eq hv]
        simp [Err.string, KVServer.kvState, hv]
      · rw [if_neg (Ne.symm hv), KVServer.put_of_ne hv]
        have hs : kv.store args.key ≠ none := by
          intro hs
          rw [KVServer.version_of_none hs] at hv
          exact h args rfl hv hs
        simp [Err.string, hs]

/-- The model does not accept `ErrNoKey`. -/
theorem step_record_absent (kv : KVServer) (call : ℕ) {args : PutArgs}
    (hs : kv.store args.key = none) (hv : args.version ≠ 0) (st : KvState) :
    (step st (record kv call (.put args)).input (record kv call (.put args)).output).1 = false := by
  have herr : (kv.put args).2.err = .errNoKey := by
    simp [KVServer.put, hs, hv]
  simp only [record, step, herr, Err.string]
  rw [if_neg (by decide), if_pos trivial]
  split_ifs <;> rfl

end KvModel

/-! ### Whole histories -/

theorem PutsAfterFirst.take {reqs : List Op} (h : PutsAfterFirst reqs) (n : ℕ) :
    PutsAfterFirst (reqs.take n) := by
  intro i args hi hv
  rw [List.getElem?_take] at hi
  split_ifs at hi with hn
  rw [List.take_take, min_eq_left hn.le]
  exact h i args hi hv

/-- The history of a key leads the model to the state of the key. -/
theorem replay_oplog (reqs : List Op) (h : PutsAfterFirst reqs) (k : String) :
    KvModel.replay ((oplog reqs).filter (fun v => v.input.key = k)) =
      some ((KVServer.make.run reqs).kvState k) := by
  induction reqs using List.reverseRecOn with
  | nil => rfl
  | append_singleton reqs op ih =>
      have hpre : PutsAfterFirst reqs := by
        have := h.take reqs.length
        rwa [List.take_left] at this
      have ih := ih hpre
      rw [oplog_concat, List.filter_append, KVServer.run_concat]
      by_cases hk : (record (KVServer.make.run reqs) reqs.length op).input.key = k
      · rw [List.filter_cons_of_pos (by simpa using hk), List.filter_nil, KvModel.replay_concat, ih,
          Option.bind_some, ← hk, KvModel.step_record]
        -- the key of a `Put` of another version is there
        rintro args rfl hv
        obtain ⟨args', hmem, hkey, h0⟩ := h reqs.length args (by simp) hv
        rw [List.take_left] at hmem
        exact (KVServer.store_run_ne_none_iff reqs _).mpr ⟨args', hmem, hkey, h0⟩
      · rw [List.filter_cons_of_neg (by simpa using hk), List.filter_nil, List.append_nil, ih]
        rw [KVServer.kvState_handle_of_ne _ _ hk]

/-- A prefix of a filtered list that ends with `a` is a filtered prefix of the list. -/
theorem exists_take_of_prefix_filter {α : Type} {p : α → Bool} {l pre : List α} {a : α}
    (h : pre ++ [a] <+: l.filter p) :
    ∃ i, l[i]? = some a ∧ pre ++ [a] = (l.take (i + 1)).filter p := by
  obtain ⟨post, hpost⟩ := h
  rw [List.append_assoc, List.singleton_append] at hpost
  obtain ⟨l₁, l₂, rfl, hl₁, hl₂⟩ := List.filter_eq_append_iff.mp hpost.symm
  obtain ⟨l₃, l₄, rfl, hl₃, ha, -⟩ := List.filter_eq_cons_iff.mp hl₂
  have hsplit : l₁ ++ (l₃ ++ a :: l₄) = (l₁ ++ l₃) ++ a :: l₄ := by simp
  refine ⟨(l₁ ++ l₃).length, ?_, ?_⟩
  · rw [hsplit, List.getElem?_append_right le_rfl]
    simp
  · rw [hsplit, List.take_length_add_append, List.filter_append, List.filter_append, hl₁,
      List.filter_eq_nil_iff.mpr hl₃]
    simp [ha]

/-- The model follows the server exactly if every `Put` of a version other than `0` comes after a
`Put` of version `0` on the same key. -/
theorem model_agrees_iff (reqs : List Op) : ModelAgrees reqs ↔ PutsAfterFirst reqs := by
  constructor
  · intro h i args hi hv
    by_contra hn
    -- the key is absent, and the history of the key up to the `Put` is not accepted
    have hs : (KVServer.make.run (reqs.take i)).store args.key = none := by
      by_contra hs
      exact hn ((KVServer.store_run_ne_none_iff _ _).mp hs)
    have hop := getElem?_oplog reqs i
    rw [hi, Option.map_some] at hop
    have hmem := KvModel.mem_partition_iff.mpr ⟨_, List.mem_of_getElem? hop, rfl⟩
    have hpre : ((oplog reqs).take i).filter (fun v => v.input.key = args.key) ++
        [record (KVServer.make.run (reqs.take i)) i (.put args)] <+:
          (oplog reqs).filter (fun v => v.input.key = args.key) := by
      obtain ⟨hlt, hget⟩ := List.getElem?_eq_some_iff.mp hop
      conv_rhs => rw [← List.take_append_drop i (oplog reqs), List.drop_eq_getElem_cons hlt, hget]
      rw [List.filter_append, List.filter_cons_of_pos (by simp [record])]
      exact ⟨_, List.append_assoc _ _ _⟩
    have hacc := h _ hmem _ _ hpre
    rw [KvModel.replay_concat] at hacc
    obtain ⟨st, -, hst⟩ := Option.bind_eq_some_iff.mp hacc
    have hrej := KvModel.step_record_absent (KVServer.make.run (reqs.take i)) i hs hv st
    split at hst
    · rename_i he
      rw [he] at hrej
      cases hrej
    · cases hst
  · intro h part hpart pre op hpre
    obtain ⟨op₀, -, rfl⟩ := KvModel.mem_partition_iff.mp hpart
    obtain ⟨i, hi, he⟩ := exists_take_of_prefix_filter hpre
    have hkey : op.input.key = op₀.input.key := by
      have hmem := hpre.subset (List.mem_append_right pre (List.mem_singleton_self op))
      simpa using (List.mem_filter.mp hmem).2
    have hcall : op.call = i := by
      rw [getElem?_oplog, Option.map_eq_some_iff] at hi
      obtain ⟨req, -, rfl⟩ := hi
      cases req <;> rfl
    rw [he, take_oplog, replay_oplog _ (h.take _), hcall, hkey]

/-- A `Put` of version `1` to a new server is answered with `ErrNoKey`, and the model rejects it. -/
theorem model_rejects_errNoKey :
    KvModel.partition (oplog [.put ⟨"k", "v", 1⟩]) =
      [[⟨⟨1, "k", "v", 1⟩, ⟨"", 0, "ErrNoKey"⟩, 0⟩]] ∧
    KvModel.replay [⟨⟨1, "k", "v", 1⟩, ⟨"", 0, "ErrNoKey"⟩, 0⟩] = none ∧
    ¬ ModelAgrees [.put ⟨"k", "v", 1⟩] := by
  have hpart : KvModel.partition (oplog [.put ⟨"k", "v", 1⟩]) =
      [[⟨⟨1, "k", "v", 1⟩, ⟨"", 0, "ErrNoKey"⟩, 0⟩]] := by decide
  have hreplay : KvModel.replay [⟨⟨1, "k", "v", 1⟩, ⟨"", 0, "ErrNoKey"⟩, 0⟩] = none := by decide
  refine ⟨hpart, hreplay, ?_⟩
  intro h
  have hacc := h _ (hpart ▸ List.mem_singleton_self _) [] _ (List.prefix_refl _)
  cases hreplay.symm.trans hacc

end DistributedSystems.Kv
