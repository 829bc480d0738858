import DistributedSystems.Linearizability
import DistributedSystems.KvDefinite

/-! # The Clerks see a linearizable versioned store

`versionedStore` is the sequential object documented on the server, with versions that never wrap
around.  `Explains` relates what a Clerk returned to a response of that object: `ErrMaybe` is
explained by a successful `Put` as well as by one that found another version.

A run is timely when the server executes an attempt only while its `Call` is outstanding.  A
`Put` may then be executed several times, and its linearization point is the accepted
attempt if there is one and the last attempt otherwise (`isPoint`).  Attempts that are not
accepted do not change the map, so the marked executions alone are a legal run of the
sequential object (`kv_linearizable`). -/

namespace DistributedSystems.Kv

/-! ### The sequential object -/

/-- Responses of the sequential store. -/
inductive Outcome where
  | value (v : String) (version : ℕ)
  | noKey
  | installed
  | wrongVersion
deriving DecidableEq, Repr

abbrev Entries := String → Option (String × ℕ)

/-- The documented behaviour of one operation, with versions in `ℕ`. -/
def specNext (m : Entries) : Op → Entries × Outcome
  | .get args =>
      match m args.key with
      | none => (m, .noKey)
      | some (v, version) => (m, .value v version)
  | .put args =>
      match m args.key with
      | some (_, version) =>
          if args.version.toNat = version then
            (Function.update m args.key (some (args.value, version + 1)), .installed)
          else (m, .wrongVersion)
      | none =>
          if args.version.toNat = 0 then
            (Function.update m args.key (some (args.value, 1)), .installed)
          else (m, .noKey)

def versionedStore : SeqSpec Entries Op Outcome := ⟨fun _ => none, specNext⟩

/-- What a Clerk returned is explained by a response of the sequential store. -/
def Explains : Ret → Outcome → Prop
  | .get v version .ok, .value v' version' => v = v' ∧ version.toNat = version'
  | .get _ _ .errNoKey, .noKey => True
  | .put .ok, .installed => True
  | .put .errVersion, .wrongVersion => True
  | .put .errNoKey, .noKey => True
  | .put .errMaybe, .installed => True
  | .put .errMaybe, .wrongVersion => True
  | _, _ => False

/-- Only `installed` changes the store. -/
theorem versionedStore_readOnly (m : Entries) (op : Op)
    (h : (versionedStore.next m op).2 ≠ .installed) : (versionedStore.next m op).1 = m := by
  simp only [versionedStore, specNext] at h ⊢
  cases op with
  | get args => dsimp only; split <;> rfl
  | put args =>
      dsimp only at h ⊢
      split at h <;> split_ifs at h <;> simp_all

/-! ### The server refines the sequential object -/

/-- The response of the sequential store a server's reply stands for. -/
def Reply.outcome : Reply → Outcome
  | .get ⟨v, version, .ok⟩ => .value v version.toNat
  | .get _ => .noKey
  | .put ⟨.ok⟩ => .installed
  | .put ⟨.errNoKey⟩ => .noKey
  | .put _ => .wrongVersion

/-- The abstract store a server's map stands for. -/
def KVServer.entries (kv : KVServer) : Entries :=
  fun k => (kv.store k).map (fun vv => (vv.value, vv.version.toNat))

theorem entries_assign (kv : KVServer) (k v : String) {version : UInt64} {n : ℕ}
    (h : version.toNat = n) : (kv.assign k ⟨v, version⟩).entries =
      Function.update kv.entries k (some (v, n)) := by
  subst h
  funext k'
  simp only [KVServer.entries, Function.update_apply, KVServer.assign_store]
  split_ifs <;> rfl

/-- A `Put` that is installed, with a version that does not wrap around. -/
theorem put_refines_of_eq {kv : KVServer} {args : PutArgs}
    (hv : args.version = kv.version args.key)
    (hsucc : (args.version + 1).toNat = args.version.toNat + 1) :
    versionedStore.next kv.entries (.put args) =
      ((kv.handle (.put args)).1.entries, (kv.handle (.put args)).2.outcome) := by
  simp only [versionedStore, specNext, KVServer.handle, KVServer.put_of_eq hv]
  rw [entries_assign kv args.key args.value hsucc]
  cases hs : kv.store args.key with
  | none =>
      have h0 : args.version.toNat = 0 := by
        rw [hv, KVServer.version_of_none hs]
        rfl
      simp only [KVServer.entries, hs, Option.map_none, h0, if_true]
      rfl
  | some vv =>
      have hvv : vv.version.toNat = args.version.toNat := by
        rw [hv, KVServer.version_of_some hs]
      simp only [KVServer.entries, hs, Option.map_some, hvv, if_true]
      rfl

/-- A `Put` with another version changes nothing. -/
theorem put_refines_of_ne {kv : KVServer} {args : PutArgs}
    (hv : args.version ≠ kv.version args.key) :
    versionedStore.next kv.entries (.put args) =
      ((kv.handle (.put args)).1.entries, (kv.handle (.put args)).2.outcome) := by
  simp only [versionedStore, specNext, KVServer.handle, KVServer.put_of_ne hv]
  cases hs : kv.store args.key with
  | none =>
      rw [KVServer.version_of_none hs] at hv
      have h0 : ¬ args.version.toNat = 0 := fun h => hv (UInt64.toNat_inj.mp h)
      simp [KVServer.entries, hs, h0, Reply.outcome]
  | some vv =>
      rw [KVServer.version_of_some hs] at hv
      have h0 : ¬ args.version.toNat = vv.version.toNat := fun h => hv (UInt64.toNat_inj.mp h)
      simp [KVServer.entries, hs, h0, Reply.outcome]

/-- One execution of the server is a step of the sequential store, as long as the version it
installs does not wrap around. -/
theorem handle_refines {s : State} (t : Tracks s) (i : ℕ) (q : Request)
    (hb : FewPuts (s.exec i q)) :
    versionedStore.next s.server.entries q.op =
      ((s.server.handle q.op).1.entries, (s.server.handle q.op).2.outcome) := by
  cases hop : q.op with
  | get args =>
      simp only [versionedStore, specNext, KVServer.handle, KVServer.entries, KVServer.get]
      cases s.server.store args.key <;> rfl
  | put args =>
      by_cases hv : args.version = s.server.version args.key
      · refine put_refines_of_eq hv ?_
        have hlen : (installs args.key (s.exec i q).log).length =
            (installs args.key s.log).length + 1 := by
          rw [State.exec_log, installs_append, installs_exec, hop]
          simp [hv]
        have hlt := hb args.key
        have hnat : args.version.toNat = (installs args.key s.log).length := by
          rw [hv, t.version, UInt64.toNat_ofNat']
          exact Nat.mod_eq_of_lt (by omega)
        rw [UInt64.toNat_add]
        exact Nat.mod_eq_of_lt (by simp only [UInt64.toNat_one]; omega)
      · exact put_refines_of_ne hv

/-! ### The executions are a legal run of the sequential object -/

/-- An execution with the call and attempt it belongs to. -/
def Event.exec? : Event → Option (ℕ × ℕ × Op × Reply)
  | .exec n a op r => some (n, a, op, r)
  | _ => none

def execs (log : List Event) : List (ℕ × ℕ × Op × Reply) := log.filterMap Event.exec?

/-- An execution as an operation of the sequential store with its response. -/
def specOp (x : ℕ × ℕ × Op × Reply) : Op × Outcome := (x.2.2.1, x.2.2.2.outcome)

/-- The executions so far are a legal run of the sequential store, which ends in the
server's map. -/
def Refines (s : State) : Prop :=
  versionedStore.Legal versionedStore.init ((execs s.log).map specOp) ∧
    versionedStore.after versionedStore.init ((execs s.log).map specOp) = s.server.entries

theorem Refines.of_log {s s' : State} (h : Refines s) (hl : execs s'.log = execs s.log)
    (hs : s'.server = s.server) : Refines s' := by
  rw [Refines, hl, hs]
  exact h

theorem Refines.step {s s' : State} {a : Action} (hR : Refines s) (t : Tracks s)
    (h : Stepped s a s') (hb : FewPuts s') : Refines s' := by
  cases h with
  | invoke clerk op => exact hR.of_log (by simp [execs, Event.exec?]) rfl
  | @exec i q hq =>
      have hx : execs (s.exec i q).log =
          execs s.log ++ [(q.call, q.attempt, q.op, (s.server.handle q.op).2)] := by
        simp [execs, Event.exec?]
      have href := handle_refines t i q hb
      rw [Refines, hx, List.map_append, SeqSpec.legal_append, SeqSpec.after_append, hR.2]
      exact ⟨⟨hR.1, congrArg Prod.snd href, trivial⟩, congrArg Prod.fst href⟩
  | lose hq => exact hR
  | callTrue hp hc hopen hatt hr => exact hR.of_log (by simp [execs, Event.exec?]) rfl
  | callFalse hc hopen => exact hR

theorem reachable_refines {C : State → Action → Prop} {s : State}
    (h : system.ReachableBy C s) : FewPuts s → Refines s := by
  have hinit : Refines State.init := ⟨trivial, rfl⟩
  refine h.invariant (I := fun s => FewPuts s → Refines s) (fun _ => hinit) ?_
  intro s a s' hr ih _ hs hb
  have hst := State.step_cases hs
  exact (ih (hb.of_step hst)).step (reachable_tracks hr) hst hb

/-! ### Timely runs -/

/-- The condition on a step: the server executes an attempt only while the `Call` of that attempt
is outstanding. -/
def Timely (s : State) : Action → Prop
  | .exec i => ∀ q ∈ s.requests[i]?, ∃ c ∈ s.calls[q.call]?, c.ret = none ∧ c.attempt = q.attempt
  | _ => True

instance (s : State) : (a : Action) → Decidable (Timely s a)
  | .exec i => inferInstanceAs (Decidable (∀ q ∈ s.requests[i]?,
      ∃ c ∈ s.calls[q.call]?, c.ret = none ∧ c.attempt = q.attempt))
  | .invoke _ _ => inferInstanceAs (Decidable True)
  | .lose _ => inferInstanceAs (Decidable True)
  | .callTrue _ => inferInstanceAs (Decidable True)
  | .callFalse _ => inferInstanceAs (Decidable True)

def Event.invokeId? : Event → Option ℕ
  | .invoke n _ => some n
  | _ => none

/-- The log records every invocation once, with its operation, and exactly the returns of
the calls that have returned. -/
structure Recorded (s : State) : Prop where
  ids : s.log.filterMap Event.invokeId? = List.range s.calls.length
  invoked : ∀ n c, s.calls[n]? = some c → Event.invoke n c.op ∈ s.log
  ret : ∀ n r, Event.ret n r ∈ s.log → ∃ c, s.calls[n]? = some c ∧ c.ret = some r

theorem recorded_init : Recorded State.init := by
  constructor <;> simp [State.init]

section

variable {s s' : State} {a : Action}

/-- A call that has returned stays as it is. -/
theorem Stepped.returned (h : Stepped s a s') {n : ℕ} {c : Call} {r : Ret}
    (hc : s.calls[n]? = some c) (hr : c.ret = some r) :
    ∃ c', s'.calls[n]? = some c' ∧ c'.ret = some r := by
  obtain ⟨c', hc', -⟩ := h.calls_mono hc
  refine ⟨c', hc', ?_⟩
  cases h.callStep hc' with
  | same h₁ =>
      rw [hc, Option.some.injEq] at h₁
      rwa [← h₁]
  | new hn => simp [hn] at hc
  | finish _ _ h₁ hopen _ _ _ =>
      rw [hc, Option.some.injEq] at h₁
      rw [← h₁, hr] at hopen
      cases hopen
  | resend h₁ hopen _ =>
      rw [hc, Option.some.injEq] at h₁
      rw [← h₁, hr] at hopen
      cases hopen

theorem Recorded.invoked_step (hR : Recorded s) (h : Stepped s a s') {n : ℕ} {c : Call}
    (hc : s'.calls[n]? = some c) : Event.invoke n c.op ∈ s'.log := by
  cases h.callStep hc with
  | same h₁ => exact h.log_subset (hR.invoked n c h₁)
  | new hn ha hr =>
      cases h with
      | invoke clerk op =>
          rw [State.invoke_calls, hn, List.getElem?_concat_length, Option.some.injEq] at hc
          subst hc hn
          simp
      | exec hq => simp [hn] at hc
      | lose hq => simp [hn] at hc
      | callTrue hp hc' hopen hatt hr' => simp [hn] at hc
      | callFalse hc' hopen => simp [hn] at hc
  | finish _ _ h₁ _ _ _ he =>
      have := h.log_subset (hR.invoked n _ h₁)
      rwa [he]
  | resend h₁ _ he =>
      have := h.log_subset (hR.invoked n _ h₁)
      rwa [he]

theorem Recorded.ret_step (hR : Recorded s) (h : Stepped s a s') {n : ℕ} {r : Ret}
    (hr : Event.ret n r ∈ s'.log) : ∃ c, s'.calls[n]? = some c ∧ c.ret = some r := by
  have old : Event.ret n r ∈ s.log → ∃ c, s'.calls[n]? = some c ∧ c.ret = some r := by
    intro hr
    obtain ⟨c, hc, hcr⟩ := hR.ret n r hr
    exact h.returned hc hcr
  cases h with
  | invoke clerk op => exact old (by simpa using hr)
  | exec hq => exact old (by simpa using hr)
  | lose hq => exact old hr
  | @callTrue i p c r' hp hc hopen hatt hf =>
      rcases List.mem_append.mp hr with hr | hr
      · exact old hr
      · simp only [List.mem_singleton, Event.ret.injEq] at hr
        obtain ⟨rfl, rfl⟩ := hr
        exact ⟨{ c with ret := some r }, by simp [(List.getElem?_eq_some_iff.mp hc).1], rfl⟩
  | callFalse hc hopen => exact old hr

theorem Recorded.step (hR : Recorded s) (h : Stepped s a s') : Recorded s' := by
  refine ⟨?_, fun n c hc => hR.invoked_step h hc, fun n r hr => hR.ret_step h hr⟩
  cases h with
  | invoke clerk op => simp [hR.ids, Event.invokeId?, List.range_succ]
  | exec hq => simpa [Event.invokeId?, List.filterMap_cons] using hR.ids
  | lose hq => exact hR.ids
  | callTrue hp hc hopen hatt hr => simpa [Event.invokeId?, List.filterMap_cons] using hR.ids
  | callFalse hc hopen => simpa using hR.ids

end

theorem reachable_recorded {C : State → Action → Prop} {s : State}
    (h : system.ReachableBy C s) : Recorded s :=
  h.invariant recorded_init (fun _ _ _ _ hR _ hs => hR.step (State.step_cases hs))

/-- What a timely run says about the log before an execution: its call has been invoked and has not
returned, earlier executions of the call are of earlier attempts, and an answer `ErrNoKey`
means that nothing has been installed for the key. -/
def InTime (pre : List Event) : Event → Prop
  | .exec n a op r => Event.invoke n op ∈ pre ∧ (∀ r', Event.ret n r' ∉ pre) ∧
      (∀ a' op' r', Event.exec n a' op' r' ∈ pre → a' < a) ∧
      (∀ args, op = .put args → r = .put ⟨.errNoKey⟩ → installs args.key pre = [])
  | _ => True

theorem inTime_exec {s : State} (w : WellFormed s) (t : Tracks s) (hR : Recorded s) {i : ℕ}
    {q : Request} (hq : s.requests[i]? = some q) (hC : Timely s (.exec i)) :
    InTime s.log (.exec q.call q.attempt q.op (s.server.handle q.op).2) := by
  have hmem : q ∈ s.requests := List.mem_of_getElem? hq
  obtain ⟨c, hc, hop, -⟩ := w.request q hmem
  obtain ⟨c', hc', hopen, hatt⟩ := hC q hq
  rw [Option.mem_def, hc, Option.some.injEq] at hc'
  subst hc'
  refine ⟨hop ▸ hR.invoked _ _ hc, ?_, ?_, ?_⟩
  · intro r hr
    obtain ⟨c', hc', hret⟩ := hR.ret _ _ hr
    rw [hc, Option.some.injEq] at hc'
    rw [← hc', hopen] at hret
    cases hret
  · intro a' op' r' he
    obtain ⟨c', hc', -, hle⟩ := w.executed _ _ _ _ he
    rw [hc, Option.some.injEq] at hc'
    rw [← hc', hatt] at hle
    refine lt_of_le_of_ne hle ?_
    rintro rfl
    exact w.not_exec_of_mem hmem _ _ he
  · intro args ho hr
    rw [ho] at hr
    have habs := (missesKey_of_reply hr).2
    rwa [t.store, current, Option.map_eq_none_iff, List.getLast?_eq_none_iff] at habs

theorem reachable_inTime {s : State} (h : system.ReachableBy Timely s) :
    EachEvent InTime s.log := by
  refine h.invariant (I := fun s => EachEvent InTime s.log) (EachEvent.nil _) ?_
  intro s a s' hr ih hC hs
  cases State.step_cases hs with
  | invoke clerk op => exact ih.concat trivial
  | exec hq =>
      exact ih.concat (inTime_exec (reachable_wellFormed hr) (reachable_tracks hr)
        (reachable_recorded hr) hq hC)
  | lose hq => exact ih
  | callTrue hp hc hopen hatt hf => exact ih.concat trivial
  | callFalse hc hopen => exact ih

/-- In a timely run a call whose last attempt was answered `ErrNoKey` has no accepted attempt. -/
theorem applied_of_inTime {s : State} (w : WellFormed s) (hT : EachEvent InTime s.log) {n : ℕ}
    {c : Call} {args : PutArgs} (hc : s.calls[n]? = some c)
    (he : Event.exec n c.attempt (.put args) (.put ⟨.errNoKey⟩) ∈ s.log) :
    applied n s.log = 0 := by
  refine applied_eq_zero (fun a args' ha => ?_)
  obtain ⟨c', hc', hop', hle⟩ := w.executed _ _ _ _ ha
  obtain ⟨c₁, hc₁, hop₁, -⟩ := w.executed _ _ _ _ he
  rw [hc, Option.some.injEq] at hc' hc₁
  subst hc' hc₁
  rw [hop₁, Op.put.injEq] at hop'
  subst hop'
  obtain ⟨pre, post, hlog, -, -, -, hkey⟩ := hT.of_mem he
  have hmem : Event.exec n a (.put args) (.put ⟨.ok⟩) ∈ pre := by
    rw [hlog] at ha
    rcases List.mem_append.mp ha with hpre | hpost
    · exact hpre
    · rcases List.mem_cons.mp hpost with heq | hpost
      · simp at heq
      · obtain ⟨u, v, rfl⟩ := List.append_of_mem hpost
        have hT' := hT (pre ++ .exec n c.attempt (.put args) (.put ⟨.errNoKey⟩) :: u)
          (.exec n a (.put args) (.put ⟨.ok⟩)) v (by rw [hlog]; simp)
        have := hT'.2.2.1 c.attempt (.put args) (.put ⟨.errNoKey⟩) (by simp)
        omega
  have hins : (args.version, args.value) ∈ installs args.key pre :=
    List.mem_filterMap.mpr ⟨_, hmem, by simp [Event.install?]⟩
  rw [hkey args rfl rfl] at hins
  cases hins

/-! ### The linearization -/

/-- The history an execution shows its Clerks. -/
def Event.visible : Event → Option (HEvent Op Ret)
  | .invoke n op => some (.call n op)
  | .exec _ _ _ _ => none
  | .ret n r => some (.ret n r)

def history (s : State) : List (HEvent Op Ret) := s.log.filterMap Event.visible

/-- The executions taken as linearization points: the accepted attempt of a call, and the last
attempt of a call that has returned without an accepted one. -/
def isPoint (s : State) (x : ℕ × ℕ × Op × Reply) : Bool :=
  x.2.2.2 == .put ⟨.ok⟩ ||
    (applied x.1 s.log == 0 &&
      (s.calls[x.1]?.any fun c => c.ret.isSome && c.attempt == x.2.1))

def point (s : State) (e : Event) : Option (ℕ × Op × Outcome) :=
  e.exec?.bind fun x => if isPoint s x = true then some (x.1, specOp x) else none

theorem points_eq (s : State) :
    s.log.filterMap (point s) =
      ((execs s.log).filter (isPoint s)).map (fun x => (x.1, specOp x)) := by
  rw [← List.filterMap_eq_map, List.filterMap_filter, execs, List.filterMap_filterMap]
  rfl

theorem mem_points_of_exec {s : State} {n a : ℕ} {op : Op} {r : Reply}
    (he : Event.exec n a op r ∈ s.log) (hp : isPoint s (n, a, op, r) = true) :
    (n, op, r.outcome) ∈ s.log.filterMap (point s) :=
  List.mem_filterMap.mpr ⟨_, he, by simp [point, Event.exec?, hp, specOp]⟩

/-- What makes an execution a linearization point. -/
theorem isPoint_iff {s : State} {n a : ℕ} {op : Op} {r : Reply} :
    isPoint s (n, a, op, r) = true ↔ r = .put ⟨.ok⟩ ∨
      applied n s.log = 0 ∧ ∃ c, s.calls[n]? = some c ∧ c.ret ≠ none ∧ c.attempt = a := by
  simp only [isPoint, Bool.or_eq_true, beq_iff_eq, Bool.and_eq_true, Option.any_eq_true,
    Option.isSome_iff_ne_none]

/-- Every recorded reply was computed by the server's handler. -/
theorem reachable_handled {C : State → Action → Prop} {s : State} (h : system.ReachableBy C s) :
    ∀ n a op r, Event.exec n a op r ∈ s.log → ∃ kv : KVServer, r = (kv.handle op).2 := by
  refine h.invariant (I := fun s => ∀ n a op r, Event.exec n a op r ∈ s.log →
    ∃ kv : KVServer, r = (kv.handle op).2) (by simp [system, State.init]) ?_
  intro s a s' _ ih _ hs n b op r he
  cases State.step_cases hs with
  | invoke clerk op' => exact ih n b op r (by simpa using he)
  | @exec i q hq =>
      simp only [State.exec_log, List.mem_append, List.mem_singleton, Event.exec.injEq] at he
      rcases he with he | ⟨-, -, rfl, rfl⟩
      · exact ih n b op r he
      · exact ⟨s.server, rfl⟩
  | lose hq => exact ih n b op r he
  | callTrue hp hc hopen hatt hf => exact ih n b op r (by simpa using he)
  | callFalse hc hopen => exact ih n b op r he

/-- Only a `Put` is answered by a `Put` reply. -/
theorem handle_put {kv : KVServer} {op : Op} {reply : PutReply}
    (h : Reply.put reply = (kv.handle op).2) : ∃ args, op = .put args := by
  cases op with
  | get args => simp [KVServer.handle] at h
  | put args => exact ⟨args, rfl⟩

section points

variable {s : State} (h : system.ReachableBy Timely s) (hb : FewPuts s)

include h hb in
/-- No call has two linearization points. -/
theorem points_unique {n a a' : ℕ} {op op' : Op} {r r' : Reply}
    (hsub : [Event.exec n a op r, Event.exec n a' op' r'].Sublist s.log)
    (hp : isPoint s (n, a, op, r) = true) (hp' : isPoint s (n, a', op', r') = true) : False := by
  have w := reachable_wellFormed h
  have he : Event.exec n a op r ∈ s.log := hsub.subset (by simp)
  have he' : Event.exec n a' op' r' ∈ s.log := hsub.subset (by simp)
  have accepted : ∀ {b : ℕ} {o : Op}, Event.exec n b o (.put ⟨.ok⟩) ∈ s.log →
      ∃ args, o = .put args := by
    intro b o ho
    obtain ⟨kv, hk⟩ := reachable_handled h _ _ _ _ ho
    exact handle_put hk
  rcases isPoint_iff.mp hp with rfl | ⟨h0, c, hc, -, ha⟩
  · obtain ⟨args, rfl⟩ := accepted he
    rcases isPoint_iff.mp hp' with rfl | ⟨h0, -⟩
    · obtain ⟨args', rfl⟩ := accepted he'
      obtain ⟨c, hc, hop, -⟩ := w.executed _ _ _ _ he
      have h1 := applied_le_one w (reachable_tracks h) hc hop (hb args.key).le
      have h2 : 2 ≤ applied n s.log := by
        have := hsub.countP_le (p := Event.applies n)
        simpa [applied, Event.applies] using this
      omega
    · have := applied_pos he
      omega
  · rcases isPoint_iff.mp hp' with rfl | ⟨-, c', hc', -, ha'⟩
    · obtain ⟨args', rfl⟩ := accepted he'
      have := applied_pos he'
      omega
    · rw [hc, Option.some.injEq] at hc'
      subst hc' ha ha'
      have htags : (s.log.filterMap Event.tag?).Nodup := w.once.of_append_right
      have := htags.sublist (hsub.filterMap Event.tag?)
      simp [Event.tag?] at this

include h hb in
theorem points_nodup : ((s.log.filterMap (point s)).map Prod.fst).Nodup := by
  rw [List.Nodup, List.pairwise_map, List.pairwise_filterMap, List.pairwise_iff_forall_sublist]
  intro e e' hsub x hx y hy hxy
  cases e with
  | exec n a op r =>
      cases e' with
      | exec n' a' op' r' =>
          simp only [point, Event.exec?, Option.bind_some, Option.ite_none_right_eq_some,
            Option.some.injEq] at hx hy
          obtain ⟨hp, rfl⟩ := hx
          obtain ⟨hp', rfl⟩ := hy
          subst hxy
          exact points_unique h hb hsub hp hp'
      | invoke n' op' => simp [point, Event.exec?] at hy
      | ret n' r' => simp [point, Event.exec?] at hy
  | invoke n op => simp [point, Event.exec?] at hx
  | ret n r => simp [point, Event.exec?] at hx

include h hb in
/-- The points are a legal run: what is left out was not accepted. -/
theorem points_legal :
    versionedStore.Legal versionedStore.init ((s.log.filterMap (point s)).map Prod.snd) := by
  rw [points_eq, List.map_map]
  refine SeqSpec.Legal.filter (R := fun o => o ≠ Outcome.installed) versionedStore_readOnly
    specOp (isPoint s) (execs s.log) versionedStore.init ?_ (reachable_refines h hb).1
  rintro ⟨n, a, op, r⟩ - hk hout
  have hr : r = .put ⟨.ok⟩ := by
    revert hout
    simp only [specOp]
    unfold Reply.outcome
    split <;> simp
  rw [isPoint_iff.mpr (Or.inl hr)] at hk
  cases hk

include h in
/-- Every point lies between the call and the return of its operation. -/
theorem points_inTime :
    EachEvent (fun pre e => ∀ x, point s e = some x →
      .call x.1 x.2.1 ∈ pre.filterMap Event.visible ∧
        ∀ r, .ret x.1 r ∉ pre.filterMap Event.visible) s.log := by
  intro pre e post hlog x hx
  have hT := reachable_inTime h pre e post hlog
  cases e with
  | invoke n op => simp [point, Event.exec?] at hx
  | ret n r => simp [point, Event.exec?] at hx
  | exec n a op r =>
      simp only [point, Event.exec?, Option.bind_some, Option.ite_none_right_eq_some,
        Option.some.injEq] at hx
      obtain ⟨-, rfl⟩ := hx
      obtain ⟨hinv, hret, -⟩ := hT
      refine ⟨List.mem_filterMap.mpr ⟨_, hinv, rfl⟩, ?_⟩
      intro r' hr'
      obtain ⟨e, he, hv⟩ := List.mem_filterMap.mp hr'
      cases e with
      | invoke m op' => simp [Event.visible] at hv
      | exec m b op' r'' => simp [Event.visible] at hv
      | ret m r'' =>
          simp only [Event.visible, Option.some.injEq, HEvent.ret.injEq] at hv
          obtain ⟨rfl, rfl⟩ := hv
          exact hret _ he

/-- A reply explains what the Clerk returned for it. -/
theorem explains_finish {op : Op} {attempt : ℕ} {kv : KVServer} {ret : Ret}
    (hf : op.finish attempt (kv.handle op).2 = some ret) :
    Explains ret (kv.handle op).2.outcome := by
  cases op with
  | get args =>
      simp only [KVServer.handle, Op.finish, Option.some.injEq] at hf
      subst hf
      simp only [KVServer.handle, KVServer.get]
      cases kv.store args.key <;> simp [Explains, Reply.outcome]
  | put args =>
      simp only [KVServer.handle, Op.finish, Option.some.injEq, putErr_eq] at hf
      subst hf
      simp only [KVServer.handle]
      by_cases hv : args.version = kv.version args.key
      · rw [KVServer.put_of_eq hv]
        simp [Explains, Reply.outcome]
      · rw [KVServer.put_of_ne hv]
        by_cases hk : kv.store args.key = none
        · simp [hk, Explains, Reply.outcome]
        · by_cases ha : 0 < attempt <;> simp [hk, ha, Explains, Reply.outcome]

include h in
/-- Every call that has returned has a point that explains what it returned. -/
theorem points_complete {n : ℕ} {ret : Ret} (hret : Event.ret n ret ∈ s.log) :
    ∃ op o, (n, op, o) ∈ s.log.filterMap (point s) ∧ Explains ret o := by
  have w := reachable_wellFormed h
  obtain ⟨c, hc, hcr⟩ := (reachable_recorded h).ret n ret hret
  obtain ⟨reply, he, hf⟩ := w.returned n c ret hc hcr
  obtain ⟨kv, rfl⟩ := reachable_handled h _ _ _ _ he
  by_cases h0 : applied n s.log = 0
  · refine ⟨c.op, _, mem_points_of_exec he ?_, explains_finish hf⟩
    exact isPoint_iff.mpr (Or.inr ⟨h0, c, hc, by simp [hcr], rfl⟩)
  · obtain ⟨e, hmem, happ⟩ := List.countP_pos_iff.mp (Nat.pos_of_ne_zero h0)
    obtain ⟨a, args, rfl⟩ := Event.applies_iff.mp happ
    refine ⟨.put args, .installed, mem_points_of_exec hmem (isPoint_iff.mpr (Or.inl rfl)), ?_⟩
    obtain ⟨c', hc', hop, -⟩ := w.executed _ _ _ _ hmem
    rw [hc, Option.some.injEq] at hc'
    subst hc'
    rw [hop] at hf he
    simp only [KVServer.handle, Op.finish, Option.some.injEq] at hf
    subst hf
    have hnv : ∀ err, c.ret = some (.put err) → err ≠ .errVersion := by
      rintro err hr rfl
      exact h0 (applied_of_errVersion w hc hop hr)
    have hnk : ∀ err, c.ret = some (.put err) → err ≠ .errNoKey := by
      rintro err hr rfl
      obtain ⟨⟨err⟩, he', hf'⟩ := w.put_reply hc hop hr
      have herr : err = .errNoKey := by
        split_ifs at hf'
        exact hf'.symm
      subst herr
      exact h0 (applied_of_inTime w (reachable_inTime h) hc he')
    have h1 := hnv _ hcr
    have h2 := hnk _ hcr
    generalize putErr (retryArgs c.attempt) (kv.put args).2 = err at h1 h2 ⊢
    cases err <;> simp_all [Explains]

end points

theorem callIds_history (s : State) :
    (history s).filterMap HEvent.callId? = s.log.filterMap Event.invokeId? := by
  rw [history, List.filterMap_filterMap]
  congr 1
  funext e
  cases e <;> rfl

/-- What a history shows is a return of the log. -/
theorem ret_of_mem_history {s : State} {n : ℕ} {ret : Ret} (h : .ret n ret ∈ history s) :
    Event.ret n ret ∈ s.log := by
  obtain ⟨e, he, hv⟩ := List.mem_filterMap.mp h
  cases e with
  | invoke m op => simp [Event.visible] at hv
  | exec m a op r => simp [Event.visible] at hv
  | ret m r =>
      simp only [Event.visible, Option.some.injEq, HEvent.ret.injEq] at hv
      obtain ⟨rfl, rfl⟩ := hv
      exact he

/-- The points of a timely run are a linearization of its history. -/
theorem points_linearize {s : State} (h : system.ReachableBy Timely s) (hb : FewPuts s) :
    Linearization versionedStore Explains (history s) (s.log.filterMap (point s)) := by
  refine linearization_of_points ?_ (points_nodup h hb) (points_legal h hb) (points_inTime h)
    (fun n ret hr => points_complete h (ret_of_mem_history hr))
  rw [← history, callIds_history, (reachable_recorded h).ids]
  exact List.nodup_range

/-- **Linearizability.**  In every timely run with fewer than `2 ^ 64` accepted `Put`s per key, the
history of `Clerk.Get` and `Clerk.Put` calls is linearizable with respect to the versioned store. -/
theorem kv_linearizable {s : State} (h : system.ReachableBy Timely s) (hb : FewPuts s) :
    Linearizable versionedStore Explains (history s) :=
  ⟨_, points_linearize h hb⟩

/-- The hypotheses are met by a run in which a `Put` returns `ErrMaybe`: the reply of its accepted
first attempt is lost, and the resend finds the version it installed itself. -/
theorem kv_linearizable_maybe :
    ∃ s, Linearizable versionedStore Explains (history s) ∧
      s.calls[0]? = some (⟨0, .put ⟨"k", "a", 0⟩, 1, some (.put .errMaybe)⟩ : Call) := by
  obtain ⟨s, hs, hp⟩ := Lts.exists_of_exec (L := system) (C := Timely)
    (p := fun s => decide (s.calls[0]? =
        some (⟨0, .put ⟨"k", "a", 0⟩, 1, some (.put .errMaybe)⟩ : Call) ∧ s.log.length = 4))
    [.invoke 0 (.put ⟨"k", "a", 0⟩), .exec 0, .callFalse 0, .exec 0, .callTrue 1] (by decide)
  obtain ⟨hc, hlen⟩ := of_decide_eq_true hp
  exact ⟨s, kv_linearizable hs (fewPuts_of_length (by omega)), hc⟩

end DistributedSystems.Kv
