import DistributedSystems.KvInvariants

/-! # The Puts on one key

What the clients of the store use about the `Put`s on a key `K`.  A client that writes `K` only
with the version a `Get` of it returned names at most the current version, and once one attempt of
its `Put` has been executed the `Put` names an older one (`Dated`).  Hence the late attempts of a
`Put` that has returned are dead: a request that can still change the key belongs to a call no
attempt of which has been executed (`Dated.not_executed`). -/

namespace DistributedSystems.Kv

/-! ### What the store knows about a key and a call -/

/-- The number of accepted `Put`s on the key. -/
def puts (K : String) (kv : State) : ℕ := (installs K kv.log).length

/-- The value of the key. -/
def last (K : String) (kv : State) : Option String := (installs K kv.log).getLast?.map Prod.snd

def opOf (kv : State) (n : ℕ) : Option Op := kv.calls[n]?.map Call.op

/-- What a finished call has returned. -/
def resultOf (kv : State) (n : ℕ) : Option Ret := kv.calls[n]?.bind Call.ret

/-- Some attempt of the call has been executed. -/
def Executed (log : List Event) (n : ℕ) : Prop := ∃ a op r, Event.exec n a op r ∈ log

/-- Some attempt of the call has been accepted. -/
def Accepted (log : List Event) (n : ℕ) : Prop :=
  ∃ a args, Event.exec n a (.put args) (.put ⟨.ok⟩) ∈ log

theorem Accepted.executed {log : List Event} {n : ℕ} (h : Accepted log n) : Executed log n := by
  obtain ⟨a, args, he⟩ := h
  exact ⟨a, _, _, he⟩

theorem Tracks.store_of_last {kv : State} (t : Tracks kv) {K val : String}
    (h : last K kv = some val) :
    kv.server.store K = some ⟨val, UInt64.ofNat (puts K kv)⟩ := by
  obtain ⟨p, hp, rfl⟩ := Option.map_eq_some_iff.mp h
  have hs : kv.server.store K = some ⟨p.2, p.1 + 1⟩ := by rw [t.store, current, hp, Option.map_some]
  rw [hs, puts, ← t.version K, KVServer.version_of_some hs]

theorem Tracks.last_of_store {kv : State} (t : Tracks kv) {K val : String} {ver : Tversion}
    (h : kv.server.store K = some ⟨val, ver⟩) : last K kv = some val := by
  rw [t.store, current] at h
  obtain ⟨p, hp, hpv⟩ := Option.map_eq_some_iff.mp h
  rw [last, hp, Option.map_some, (ValueVersion.mk.inj hpv).1]

/-- The value of the key is the one the current version stands for. -/
theorem getElem?_of_last {kv : State} {K val : String} (h : last K kv = some val) :
    0 < puts K kv ∧ ∃ p, (installs K kv.log)[puts K kv - 1]? = some p ∧ p.2 = val := by
  obtain ⟨p, hp, hpv⟩ := Option.map_eq_some_iff.mp h
  refine ⟨?_, p, by rw [puts, ← List.getLast?_eq_getElem?, hp], hpv⟩
  rw [puts, List.length_pos_iff]
  rintro hnil
  rw [hnil] at hp
  cases hp

/-- A step of the store keeps the operation of a call. -/
theorem opOf_step {kv kv' : State} {a : Action} (h : Stepped kv a kv') {n : ℕ} {op : Op}
    (ho : opOf kv n = some op) : opOf kv' n = some op := by
  obtain ⟨c, hc, rfl⟩ := Option.map_eq_some_iff.mp ho
  obtain ⟨c', hc', ho', -⟩ := h.calls_mono hc
  simp [opOf, hc', ho']

theorem opOf_invoke (kv : State) (clerk : ℕ) (op : Op) :
    opOf (kv.invoke clerk op) kv.calls.length = some op := by
  simp [opOf]

theorem opOf_invoke_lt {kv : State} {clerk n : ℕ} {op : Op} (h : n < kv.calls.length) :
    opOf (kv.invoke clerk op) n = opOf kv n := by
  simp [opOf, List.getElem?_append_left h]

theorem opOf_lt {kv : State} {n : ℕ} {op : Op} (h : opOf kv n = some op) :
    n < kv.calls.length := by
  obtain ⟨c, hc, -⟩ := Option.map_eq_some_iff.mp h
  exact (List.getElem?_eq_some_iff.mp hc).1

theorem opOf_invoke_cases {kv : State} {clerk n : ℕ} {op op' : Op}
    (h : opOf (kv.invoke clerk op) n = some op') :
    opOf kv n = some op' ∨ (n = kv.calls.length ∧ op' = op) := by
  have hlt := opOf_lt h
  rw [State.invoke_calls, List.length_append, List.length_singleton] at hlt
  rcases Nat.lt_succ_iff_lt_or_eq.mp hlt with hn | rfl
  · exact Or.inl ((opOf_invoke_lt hn).symm.trans h)
  · rw [opOf_invoke, Option.some.injEq] at h
    exact Or.inr ⟨rfl, h.symm⟩

theorem opOf_set {kv : State} {n : ℕ} {c d : Call} (hc : kv.calls[n]? = some c)
    (hd : d.op = c.op) (m : ℕ) : (kv.calls.set n d)[m]?.map Call.op = opOf kv m := by
  by_cases hm : n = m
  · subst hm
    rw [List.getElem?_set_self (List.getElem?_eq_some_iff.mp hc).1, opOf, hc, Option.map_some, hd,
      Option.map_some]
  · rw [List.getElem?_set_ne hm, opOf]

theorem WellFormed.opOf_request {kv : State} (w : WellFormed kv) {q : Request}
    (hq : q ∈ kv.requests) : opOf kv q.call = some q.op := by
  obtain ⟨c, hc, hop, -⟩ := w.request q hq
  rw [opOf, hc, Option.map_some, hop]

theorem not_executed_new {kv : State} (w : WellFormed kv) :
    ¬ Executed kv.log kv.calls.length := by
  rintro ⟨a, op, r, he⟩
  obtain ⟨d, hd, -⟩ := w.executed _ _ _ _ he
  simp at hd

/-! ### Finished calls -/

section result

variable {kv : State} {n : ℕ}

/-- The execution behind a finished call. -/
theorem result_exec (w : WellFormed kv) {op : Op} {r : Ret} (ho : opOf kv n = some op)
    (hr : resultOf kv n = some r) :
    ∃ a reply, Event.exec n a op reply ∈ kv.log ∧ op.finish a reply = some r := by
  obtain ⟨c, hc, rfl⟩ := Option.map_eq_some_iff.mp ho
  rw [resultOf, hc, Option.bind_some] at hr
  obtain ⟨reply, he, hf⟩ := w.returned n c r hc hr
  exact ⟨c.attempt, reply, he, hf⟩

theorem executed_of_result (w : WellFormed kv) {r : Ret} (hr : resultOf kv n = some r) :
    Executed kv.log n := by
  obtain ⟨c, hc, hret⟩ := Option.bind_eq_some_iff.mp hr
  obtain ⟨reply, he, -⟩ := w.returned n c r hc hret
  exact ⟨_, _, _, he⟩

/-- A `Put` that has returned `OK` was accepted. -/
theorem accepted_of_ok (w : WellFormed kv) {args : PutArgs} (ho : opOf kv n = some (.put args))
    (hr : resultOf kv n = some (.put .ok)) : Accepted kv.log n := by
  obtain ⟨a, reply, he, hf⟩ := result_exec w ho hr
  cases reply with
  | get reply => cases hf
  | put reply =>
      obtain ⟨err⟩ := reply
      simp only [Op.finish, putErr_eq, Option.some.injEq, Ret.put.injEq] at hf
      split_ifs at hf
      subst hf
      exact ⟨a, args, he⟩

/-- A finished `Get` returned `ErrNoKey`, or one of the installed values with its version. -/
theorem saw_result (hk : system.Reachable kv) {K : String} (ho : opOf kv n = some (.get ⟨K⟩))
    {val : String} {ver : Tversion} {err : Err} (hr : resultOf kv n = some (.get val ver err)) :
    (ver = 0 ∧ err = .errNoKey) ∨
      ∃ i p, (installs K kv.log)[i]? = some p ∧ val = p.2 ∧ ver = UInt64.ofNat (i + 1) ∧
        err = .ok := by
  obtain ⟨a, reply, he, hf⟩ := result_exec (reachable_wellFormed hk) ho hr
  cases reply with
  | put reply => cases hf
  | get reply =>
      simp only [Op.finish, Option.some.injEq, Ret.get.injEq] at hf
      obtain ⟨rfl, rfl, rfl⟩ := hf
      rcases reachable_saw hk _ _ _ _ he with hs | ⟨i, p, hi, hs⟩
      · exact Or.inl (by simp [hs])
      · exact Or.inr ⟨i, p, hi, by simp [hs]⟩

/-- The version a `Get` returned is at most the current one, and the value it returned with it is
the one that version replaces. -/
theorem saw_version (hk : system.Reachable kv) {K : String} (ho : opOf kv n = some (.get ⟨K⟩))
    {val : String} {ver : Tversion} {err : Err} (hr : resultOf kv n = some (.get val ver err)) :
    ∃ m, m ≤ puts K kv ∧ ver = UInt64.ofNat m ∧
      ∀ p, 0 < m → (installs K kv.log)[m - 1]? = some p → p.2 = val := by
  rcases saw_result hk ho hr with ⟨rfl, -⟩ | ⟨i, p, hi, rfl, rfl, -⟩
  · exact ⟨0, Nat.zero_le _, rfl, fun p hp => absurd hp (lt_irrefl 0)⟩
  · refine ⟨i + 1, (List.getElem?_eq_some_iff.mp hi).1, rfl, ?_⟩
    intro p' _ hp'
    rw [Nat.add_sub_cancel, hi, Option.some.injEq] at hp'
    rw [hp']

end result

/-! ### Steps that execute nothing -/

/-- Two states of the store that agree on the executions and on the operations of the known
calls. -/
structure Quiet (kv kv' : State) : Prop where
  exec : ∀ n a op r, Event.exec n a op r ∈ kv'.log ↔ Event.exec n a op r ∈ kv.log
  installs : ∀ k, Kv.installs k kv'.log = Kv.installs k kv.log
  op : ∀ n op, opOf kv n = some op → opOf kv' n = some op

theorem quiet_refl (kv : State) : Quiet kv kv :=
  ⟨fun _ _ _ _ => Iff.rfl, fun _ => rfl, fun _ _ h => h⟩

theorem quiet_invoke (kv : State) (clerk : ℕ) (op : Op) : Quiet kv (kv.invoke clerk op) where
  exec := by simp
  installs := by simp
  op := fun _ _ h => opOf_step (.invoke clerk op) h

namespace Quiet

variable {kv kv' : State} (hq : Quiet kv kv')

include hq in
theorem puts (K : String) : Kv.puts K kv' = Kv.puts K kv := by
  rw [Kv.puts, hq.installs, Kv.puts]

include hq in
theorem last (K : String) : Kv.last K kv' = Kv.last K kv := by
  rw [Kv.last, hq.installs, Kv.last]

include hq in
theorem executed (n : ℕ) : Executed kv'.log n ↔ Executed kv.log n := by
  simp only [Executed, hq.exec]

include hq in
theorem accepted (n : ℕ) : Accepted kv'.log n ↔ Accepted kv.log n := by
  simp only [Accepted, hq.exec]

end Quiet

/-- A step that starts no call executes a request or changes nothing the clients rely on. -/
theorem Stepped.exec_or_quiet {kv kv' : State} {a : Action} (h : Stepped kv a kv')
    (ha : a.internal = true) :
    (∃ i q, kv.requests[i]? = some q ∧ kv' = kv.exec i q) ∨
      (Quiet kv kv' ∧ ∀ n, opOf kv' n = opOf kv n) := by
  cases h with
  | invoke clerk op => cases ha
  | exec hq => exact Or.inl ⟨_, _, hq, rfl⟩
  | lose hq => exact Or.inr ⟨⟨fun _ _ _ _ => Iff.rfl, fun _ => rfl, fun _ _ h => h⟩, fun _ => rfl⟩
  | @callTrue i p c r hp hc hopen hatt hr =>
      have ho := opOf_set hc (d := { c with ret := some r }) rfl
      exact Or.inr ⟨⟨by simp, by simp, fun n op h => (ho n).trans h⟩, ho⟩
  | @callFalse n c hc hopen =>
      have ho := opOf_set hc (d := { c with attempt := c.attempt + 1 }) rfl
      exact Or.inr ⟨⟨by simp, by simp, fun n op h => (ho n).trans h⟩, ho⟩

/-- Only a new call adds an operation. -/
theorem Stepped.opOf_cases {kv kv' : State} {a : Action} (h : Stepped kv a kv') {n : ℕ} {op : Op}
    (ho : opOf kv' n = some op) : opOf kv n = some op ∨ ∃ clerk, a = .invoke clerk op := by
  by_cases ha : a.internal = true
  · rcases h.exec_or_quiet ha with ⟨i, q, -, rfl⟩ | ⟨-, hop⟩
    · exact Or.inl ho
    · exact Or.inl ((hop n).symm.trans ho)
  · cases h with
    | invoke clerk op' =>
        rcases opOf_invoke_cases ho with ho | ⟨-, rfl⟩
        · exact Or.inl ho
        · exact Or.inr ⟨clerk, rfl⟩
    | exec hq => exact absurd rfl ha
    | lose hq => exact absurd rfl ha
    | callTrue hp hc hopen hatt hr => exact absurd rfl ha
    | callFalse hc hopen => exact absurd rfl ha

/-- The values installed before stay where they are. -/
theorem Stepped.getElem?_installs {kv kv' : State} {a : Action} (h : Stepped kv a kv') {K : String}
    {m : ℕ} (hm : m < puts K kv) : (installs K kv'.log)[m]? = (installs K kv.log)[m]? := by
  obtain ⟨l, hl⟩ := h.log_append
  rw [hl, installs_append, List.getElem?_append_left hm]

theorem Stepped.puts_mono {kv kv' : State} {a : Action} (h : Stepped kv a kv') (K : String) :
    puts K kv ≤ puts K kv' := by
  obtain ⟨l, hl⟩ := h.log_append
  rw [puts, puts, hl, installs_append, List.length_append]
  omega

/-! ### Executing a request -/

section exec

variable {K : String} {kv : State} {i : ℕ} {q : Request} {args : PutArgs}

/-- The execution installs a value for the key. -/
def Installs (K : String) (kv : State) (q : Request) (args : PutArgs) : Prop :=
  q.op = .put args ∧ args.key = K ∧ args.version = kv.server.version K

theorem installs_of_installs (h : Installs K kv q args) :
    installs K (kv.exec i q).log = installs K kv.log ++ [(args.version, args.value)] := by
  rw [State.exec_log, installs_append, installs_exec, h.1]
  simp [h.2.1, h.2.2]

theorem installs_of_not (h : ∀ args, ¬ Installs K kv q args) :
    installs K (kv.exec i q).log = installs K kv.log := by
  rw [State.exec_log, installs_append, installs_exec]
  cases hop : q.op with
  | get args => simp
  | put args =>
      have hne : ¬ (args.key = K ∧ args.version = kv.server.version K) :=
        fun hv => h args ⟨hop, hv.1, hv.2⟩
      simp [hne]

theorem last_of_installs (h : Installs K kv q args) :
    last K (kv.exec i q) = some args.value := by
  rw [last, installs_of_installs h, List.getLast?_append, List.getLast?_singleton]
  rfl

theorem puts_of_installs (h : Installs K kv q args) :
    puts K (kv.exec i q) = puts K kv + 1 := by
  rw [puts, installs_of_installs h, List.length_append, List.length_singleton, puts]

theorem puts_of_not (h : ∀ args, ¬ Installs K kv q args) :
    puts K (kv.exec i q) = puts K kv := by
  rw [puts, installs_of_not h, puts]

theorem last_of_not (h : ∀ args, ¬ Installs K kv q args) :
    last K (kv.exec i q) = last K kv := by
  rw [last, installs_of_not h, last]

theorem getElem?_installs_of_lt (h : Installs K kv q args) {m : ℕ} (hm : m < puts K kv) :
    (installs K (kv.exec i q).log)[m]? = (installs K kv.log)[m]? := by
  rw [installs_of_installs h, List.getElem?_append_left hm]

/-- The executions a call that is not the executed one has seen are the old ones. -/
theorem exec_log_of_ne {n a : ℕ} {op : Op} {r : Reply} (hn : n ≠ q.call)
    (h : Event.exec n a op r ∈ (kv.exec i q).log) : Event.exec n a op r ∈ kv.log := by
  simp only [State.exec_log, List.mem_append, List.mem_singleton, Event.exec.injEq] at h
  rcases h with h | ⟨h, -⟩
  · exact h
  · exact absurd h hn

theorem Executed.exec {n : ℕ} (h : Executed kv.log n) : Executed (kv.exec i q).log n := by
  obtain ⟨a, op, r, he⟩ := h
  exact ⟨a, op, r, by simp [he]⟩

theorem Accepted.exec {n : ℕ} (h : Accepted kv.log n) : Accepted (kv.exec i q).log n := by
  obtain ⟨a, args, he⟩ := h
  exact ⟨a, args, by simp [he]⟩

theorem executed_exec_of_ne {n : ℕ} (hn : n ≠ q.call) :
    Executed (kv.exec i q).log n ↔ Executed kv.log n := by
  refine ⟨?_, Executed.exec⟩
  rintro ⟨a, op, r, he⟩
  exact ⟨a, op, r, exec_log_of_ne hn he⟩

theorem accepted_exec_of_ne {n : ℕ} (hn : n ≠ q.call) :
    Accepted (kv.exec i q).log n ↔ Accepted kv.log n := by
  refine ⟨?_, Accepted.exec⟩
  rintro ⟨a, args, he⟩
  exact ⟨a, args, exec_log_of_ne hn he⟩

theorem executed_exec : Executed (kv.exec i q).log q.call :=
  ⟨q.attempt, q.op, (kv.server.handle q.op).2, by simp⟩

theorem accepted_exec (h : Installs K kv q args) : Accepted (kv.exec i q).log q.call := by
  refine ⟨q.attempt, args, ?_⟩
  have hput : kv.server.put args = _ := KVServer.put_of_eq (h.2.1 ▸ h.2.2)
  simp [h.1, KVServer.handle, hput]

/-- When the execution installs nothing for the key, no `Put` on the key is accepted by it. -/
theorem accepted_of_not (w : WellFormed kv) (hq : kv.requests[i]? = some q)
    (h : ∀ args, ¬ Installs K kv q args) {n : ℕ} (ho : opOf kv n = some (.put args))
    (hk : args.key = K) (ha : Accepted (kv.exec i q).log n) : Accepted kv.log n := by
  obtain ⟨a, args', he⟩ := ha
  simp only [State.exec_log, List.mem_append, List.mem_singleton, Event.exec.injEq] at he
  rcases he with he | ⟨rfl, -, hqop, hrep⟩
  · exact ⟨a, args', he⟩
  · have hop := w.opOf_request (List.mem_of_getElem? hq)
    rw [ho, ← hqop, Option.some.injEq, Op.put.injEq] at hop
    subst hop
    rw [← hqop] at hrep
    simp only [KVServer.handle, Reply.put.injEq] at hrep
    have hv := KVServer.put_err_ok_iff.mp (congrArg PutReply.err hrep.symm)
    exact absurd ⟨hqop.symm, hk, hk ▸ hv⟩ (h args)

/-- A `Put` on the key with its current version is not the one that the execution refuses. -/
theorem ne_call_of_not (w : WellFormed kv) (t : Tracks kv) (hq : kv.requests[i]? = some q)
    (h : ∀ args, ¬ Installs K kv q args) {n : ℕ} (ho : opOf kv n = some (.put args))
    (hk : args.key = K) (hv : args.version = UInt64.ofNat (puts K kv)) : n ≠ q.call := by
  rintro rfl
  rw [w.opOf_request (List.mem_of_getElem? hq), Option.some.injEq] at ho
  exact h args ⟨ho, hk, hv.trans (t.version K).symm⟩

end exec

/-! ### A key that stays present -/

def Op.key : Op → String
  | .get args => args.key
  | .put args => args.key

def Reply.err : Reply → Err
  | .get reply => reply.err
  | .put reply => reply.err

/-- No request on the key was answered `ErrNoKey`. -/
def Found (K : String) (log : List Event) : Prop :=
  ∀ n a op r, Event.exec n a op r ∈ log → op.key = K → r.err ≠ .errNoKey

theorem KVServer.handle_err {server : KVServer} {op : Op} (h : server.store op.key ≠ none) :
    (server.handle op).2.err ≠ .errNoKey := by
  obtain ⟨vv, hvv⟩ := Option.ne_none_iff_exists'.mp h
  cases op with
  | get args =>
      change server.store args.key = some vv at hvv
      simp [KVServer.handle, KVServer.get, hvv, Reply.err]
  | put args =>
      change server.store args.key = some vv at hvv
      simp only [KVServer.handle, KVServer.put, hvv, Reply.err]
      split_ifs <;> simp

theorem Found.exec {K : String} {kv : State} (h : Found K kv.log) (t : Tracks kv)
    (hpos : 0 < puts K kv) (i : ℕ) (q : Request) : Found K (kv.exec i q).log := by
  intro n a op r he hk
  simp only [State.exec_log, List.mem_append, List.mem_singleton, Event.exec.injEq] at he
  rcases he with he | ⟨-, -, rfl, rfl⟩
  · exact h n a op r he hk
  · refine KVServer.handle_err ?_
    rw [hk, t.store, current]
    simpa [puts, List.length_pos_iff] using hpos

theorem Found.of_quiet {K : String} {kv kv' : State} (h : Found K kv.log) (hq : Quiet kv kv') :
    Found K kv'.log :=
  fun n a op r he hk => h n a op r ((hq.exec n a op r).mp he) hk

/-! ### Every Put names a version it can know -/

/-- Every `Put` on the key names at most the current version, and an older one as soon as one of
its attempts has been executed. -/
def Dated (K : String) (kv : State) : Prop :=
  ∀ n args, opOf kv n = some (.put args) → args.key = K →
    ∃ m, m ≤ puts K kv ∧ args.version = UInt64.ofNat m ∧ (Executed kv.log n → m < puts K kv)

namespace Dated

variable {K : String} {kv kv' : State} {i : ℕ} {q : Request} {args : PutArgs}

/-- A step that executes nothing; a new `Put` on the key names a version up to the current one. -/
theorem of_quiet (hd : Dated K kv) (hq : Quiet kv kv')
    (hnew : ∀ n args, opOf kv' n = some (.put args) → args.key = K →
      opOf kv n = some (.put args) ∨
        (¬ Executed kv.log n ∧ ∃ m, m ≤ Kv.puts K kv ∧ args.version = UInt64.ofNat m)) :
    Dated K kv' := by
  intro n args ho hk
  rw [hq.puts, hq.executed]
  rcases hnew n args ho hk with ho | ⟨hne, m, hm, hmv⟩
  · exact hd n args ho hk
  · exact ⟨m, hm, hmv, fun hex => absurd hex hne⟩

/-- An execution makes the version of a `Put` it does not accept an old one: it was old before. -/
theorem exec (hd : Dated K kv) (w : WellFormed kv) (t : Tracks kv)
    (hq : kv.requests[i]? = some q) : Dated K (kv.exec i q) := by
  intro n args ho hk
  change opOf kv n = some (.put args) at ho
  obtain ⟨m, hm, hmv, hlt⟩ := hd n args ho hk
  by_cases h : ∃ args, Installs K kv q args
  · obtain ⟨args', h⟩ := h
    have hputs := puts_of_installs (i := i) h
    exact ⟨m, by omega, hmv, fun _ => by omega⟩
  · have h := not_exists.mp h
    rw [puts_of_not h]
    refine ⟨m, hm, hmv, ?_⟩
    by_cases hn : n = q.call
    · subst hn
      have hop := w.opOf_request (List.mem_of_getElem? hq)
      rw [ho, Option.some.injEq] at hop
      have hm' : m ≠ Kv.puts K kv := by
        rintro rfl
        exact h args ⟨hop.symm, hk, hmv.trans (t.version K).symm⟩
      intro _
      omega
    · rw [executed_exec_of_ne hn]
      exact hlt

/-- A request that can change the key names the current version, and no attempt of its call has
been executed. -/
theorem not_executed (hd : Dated K kv) (w : WellFormed kv) (t : Tracks kv)
    (hb : Kv.puts K kv < 2 ^ 64) (hq : q ∈ kv.requests) (h : Installs K kv q args) :
    opOf kv q.call = some (.put args) ∧ args.version = UInt64.ofNat (Kv.puts K kv) ∧
      ¬ Executed kv.log q.call := by
  have ho : opOf kv q.call = some (.put args) := by rw [w.opOf_request hq, h.1]
  have hv : args.version = UInt64.ofNat (Kv.puts K kv) := h.2.2.trans (t.version K)
  refine ⟨ho, hv, fun hex => ?_⟩
  obtain ⟨m, hm, hmv, hlt⟩ := hd _ _ ho h.2.1
  have := ofNat_inj_of_lt (by omega) hb (hmv.symm.trans hv)
  have := hlt hex
  omega

end Dated

end DistributedSystems.Kv
