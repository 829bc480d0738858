import DistributedSystems.KvPuts
import DistributedSystems.KvDefinite

/-! # A key with a single writer

One Clerk writes a key: it calls `Put` on the key only after its earlier `Put`s on the key have
returned, and with the key's version at that time (`SingleWriter`).  Other Clerks may read the key
and use other keys.

Then the first attempt of a `Put` that the server executes is accepted, and every later one finds
another version.  So as long as a `Put` has not been accepted it names the current version, and from
its acceptance until the next `Put` on the key the store holds its value (`Written`).  A `Put` that
has returned was therefore applied exactly once, also when it returned `ErrMaybe`
(`single_writer_exactly_once`). -/

namespace DistributedSystems.Kv

/-- The operation is a `Put` on the key. -/
def Op.writes (K : String) : Op → Bool
  | .get _ => false
  | .put args => args.key = K

/-- Only the Clerk `w` calls `Put` on the key `K`, one call after the other, each with the version
the key has at the time of the call. -/
def SingleWriter (K : String) (w : ℕ) (s : State) : Action → Prop
  | .invoke clerk (.put args) => args.key = K → clerk = w ∧
      (∀ c ∈ s.calls, c.op.writes K = true → c.ret ≠ none) ∧ args.version = s.server.version K
  | _ => True

instance (K : String) (w : ℕ) (s : State) : (a : Action) → Decidable (SingleWriter K w s a)
  | .invoke clerk (.put args) => inferInstanceAs (Decidable (args.key = K → clerk = w ∧
      (∀ c ∈ s.calls, c.op.writes K = true → c.ret ≠ none) ∧ args.version = s.server.version K))
  | .invoke _ (.get _) | .exec _ | .lose _ | .callTrue _ | .callFalse _ => isTrue trivial

/-- The call `n` is a `Put` on the key. -/
def PutOn (K : String) (s : State) (n : ℕ) (args : PutArgs) : Prop :=
  opOf s n = some (.put args) ∧ args.key = K

/-- No later call is a `Put` on the key. -/
def LastPut (K : String) (s : State) (n : ℕ) : Prop := ∀ m args, PutOn K s m args → m ≤ n

/-- The `Put`s on a key with a single writer. -/
structure Written (K : String) (s : State) : Prop where
  dated : Dated K s
  pending : ∀ n args, PutOn K s n args → ¬ Accepted s.log n →
    LastPut K s n ∧ ¬ Executed s.log n ∧ args.version = UInt64.ofNat (puts K s)
  current : ∀ n args, PutOn K s n args → LastPut K s n → Accepted s.log n →
    last K s = some args.value ∧ args.version + 1 = UInt64.ofNat (puts K s)
  answered : ∀ n a args reply, Event.exec n a (.put args) (.put reply) ∈ s.log → args.key = K →
    reply.err = .ok ∨ reply.err = .errVersion

section

variable {K : String} {kv kv' : State}

theorem written_init (K : String) : Written K State.init := by
  refine ⟨?_, ?_, ?_, ?_⟩
  · intro n args ho
    simp [opOf, State.init] at ho
  · rintro n args ⟨ho, -⟩
    simp [opOf, State.init] at ho
  · rintro n args ⟨ho, -⟩
    simp [opOf, State.init] at ho
  · intro n a args reply he
    simp [State.init] at he

/-- An attempt of a `Put` that has been executed has been accepted, or another one was. -/
theorem Written.accepted_of_executed (h : Written K kv) {n : ℕ} {args : PutArgs}
    (hn : PutOn K kv n args) (he : Executed kv.log n) : Accepted kv.log n := by
  by_contra ha
  exact (h.pending n args hn ha).2.1 he

theorem puts_pos_of_accepted (w : WellFormed kv) {n : ℕ} {args : PutArgs}
    (hn : PutOn K kv n args) (ha : Accepted kv.log n) : 0 < puts K kv := by
  obtain ⟨a, args', he⟩ := ha
  obtain ⟨c, hc, hop, -⟩ := w.executed _ _ _ _ he
  have ho := hn.1
  rw [opOf, hc, Option.map_some, hop, Option.some.injEq, Op.put.injEq] at ho
  have hmem : (args'.version, args'.value) ∈ installs K kv.log :=
    List.mem_filterMap.mpr ⟨_, he, by simp [Event.install?, ho, hn.2]⟩
  exact List.length_pos_of_mem hmem

/-! ### Executions -/

/-- A request that is accepted belongs to the last `Put` on the key. -/
theorem Written.exec_of_installs (h : Written K kv) (w : WellFormed kv) (t : Tracks kv)
    (hb : puts K kv < 2 ^ 64) {i : ℕ} {q : Request} (hq : kv.requests[i]? = some q)
    {args : PutArgs} (hins : Installs K kv q args) : Written K (kv.exec i q) := by
  obtain ⟨ho, hv, hne⟩ := h.dated.not_executed w t hb (List.mem_of_getElem? hq) hins
  have hput : PutOn K kv q.call args := ⟨ho, hins.2.1⟩
  have hlast := (h.pending q.call args hput (fun ha => hne ha.executed)).1
  have honly : ∀ {n args'}, PutOn K kv n args' → LastPut K kv n → n = q.call := by
    intro n args' hn hlast'
    have h1 := hlast n args' hn
    have h2 := hlast' q.call args hput
    omega
  refine ⟨h.dated.exec w t hq, ?_, ?_, ?_⟩
  · intro n args' hn ha
    have hnq : n ≠ q.call := by
      rintro rfl
      exact ha (accepted_exec hins)
    rw [accepted_exec_of_ne hnq] at ha
    exact absurd (honly hn (h.pending n args' hn ha).1) hnq
  · intro n args' hn hlast' _
    obtain rfl := honly hn hlast'
    obtain rfl : args = args' := by simpa using ho.symm.trans hn.1
    rw [last_of_installs hins, puts_of_installs hins, hv]
    exact ⟨rfl, (UInt64.ofNat_add _ 1).symm⟩
  · intro n a args' reply he hk
    simp only [State.exec_log, List.mem_append, List.mem_singleton, Event.exec.injEq] at he
    rcases he with he | ⟨-, -, hop, hrep⟩
    · exact h.answered n a args' reply he hk
    · rw [hins.1, Op.put.injEq] at hop
      subst hop
      rw [hins.1] at hrep
      simp only [KVServer.handle, Reply.put.injEq] at hrep
      left
      rw [hrep]
      exact KVServer.put_err_ok_iff.mpr (by rw [hins.2.1, hins.2.2])

/-- A request that is not accepted belongs to another key or to a `Put` that was accepted
before. -/
theorem Written.exec_of_not (h : Written K kv) (w : WellFormed kv) (t : Tracks kv) {i : ℕ}
    {q : Request} (hq : kv.requests[i]? = some q) (hins : ∀ args, ¬ Installs K kv q args) :
    Written K (kv.exec i q) := by
  have hreq := w.opOf_request (List.mem_of_getElem? hq)
  have hpending : ∀ {n args}, PutOn K kv n args → ¬ Accepted kv.log n → n ≠ q.call := by
    intro n args hn ha
    exact ne_call_of_not w t hq hins hn.1 hn.2 (h.pending n args hn ha).2.2
  refine ⟨h.dated.exec w t hq, ?_, ?_, ?_⟩
  · intro n args hn ha
    have hold : ¬ Accepted kv.log n := fun hacc => ha hacc.exec
    obtain ⟨hlast, hne, hv⟩ := h.pending n args hn hold
    rw [puts_of_not hins, executed_exec_of_ne (hpending hn hold)]
    exact ⟨hlast, hne, hv⟩
  · intro n args hn hlast ha
    rw [last_of_not hins, puts_of_not hins]
    exact h.current n args hn hlast (accepted_of_not w hq hins hn.1 hn.2 ha)
  · intro n a args reply he hk
    simp only [State.exec_log, List.mem_append, List.mem_singleton, Event.exec.injEq] at he
    rcases he with he | ⟨-, -, hop, hrep⟩
    · exact h.answered n a args reply he hk
    · rw [← hop] at hrep hreq
      have hput : PutOn K kv q.call args := ⟨hreq, hk⟩
      have hv : args.version ≠ kv.server.version args.key := by
        intro hv
        exact hins args ⟨hop.symm, hk, hk ▸ hv⟩
      -- the call has been accepted before, so the key is there
      have hpos : 0 < puts K kv := by
        refine puts_pos_of_accepted w hput ?_
        by_contra ha
        exact hpending hput ha rfl
      have hstore : kv.server.store args.key ≠ none := by
        rw [hk, t.store, Kv.current]
        simpa [puts, List.length_pos_iff] using hpos
      simp only [KVServer.handle, Reply.put.injEq, KVServer.put_of_ne hv, if_neg hstore] at hrep
      exact Or.inr (by rw [hrep])

/-! ### Calls -/

/-- A step that executes nothing and starts no `Put` on the key. -/
theorem Written.of_quiet (h : Written K kv) (hq : Quiet kv kv')
    (hop : ∀ n args, PutOn K kv' n args ↔ PutOn K kv n args) : Written K kv' := by
  have hlast : ∀ n, LastPut K kv' n ↔ LastPut K kv n := by
    intro n
    simp only [LastPut, hop]
  refine ⟨?_, ?_, ?_, ?_⟩
  · refine h.dated.of_quiet hq ?_
    intro n args ho hk
    exact Or.inl ((hop n args).mp ⟨ho, hk⟩).1
  · intro n args hn ha
    rw [hlast, hq.executed, hq.puts]
    rw [hq.accepted] at ha
    exact h.pending n args ((hop n args).mp hn) ha
  · intro n args hn hl ha
    rw [hq.last, hq.puts]
    exact h.current n args ((hop n args).mp hn) ((hlast n).mp hl) ((hq.accepted n).mp ha)
  · intro n a args reply he hk
    exact h.answered n a args reply ((hq.exec n a _ _).mp he) hk

theorem putOn_invoke_cases {clerk n : ℕ} {args args' : PutArgs}
    (h : PutOn K (kv.invoke clerk (.put args)) n args') :
    PutOn K kv n args' ∨ (n = kv.calls.length ∧ args' = args) := by
  obtain ⟨ho, hk⟩ := h
  rcases opOf_invoke_cases ho with ho | ⟨hn, he⟩
  · exact Or.inl ⟨ho, hk⟩
  · exact Or.inr ⟨hn, Op.put.inj he⟩

/-- A `Put` on the key that has returned has been accepted. -/
theorem Written.accepted_of_returned (h : Written K kv) (w : WellFormed kv)
    (hreturned : ∀ c ∈ kv.calls, c.op.writes K = true → c.ret ≠ none) {n : ℕ} {args : PutArgs}
    (hn : PutOn K kv n args) : Accepted kv.log n := by
  obtain ⟨c, hc, hop⟩ := Option.map_eq_some_iff.mp hn.1
  have hret := hreturned c (List.mem_of_getElem? hc) (by simp [Op.writes, hop, hn.2])
  obtain ⟨r, hr⟩ := Option.ne_none_iff_exists'.mp hret
  refine h.accepted_of_executed hn (executed_of_result w (r := r) ?_)
  rw [resultOf, hc, Option.bind_some, hr]

/-- The writer calls the next `Put` on the key. -/
theorem Written.invoke (h : Written K kv) (w : WellFormed kv) (t : Tracks kv) {clerk : ℕ}
    {args : PutArgs} (hk : args.key = K) (hv : args.version = kv.server.version K)
    (hreturned : ∀ c ∈ kv.calls, c.op.writes K = true → c.ret ≠ none) :
    Written K (kv.invoke clerk (.put args)) := by
  have hq := quiet_invoke kv clerk (.put args)
  have hnew := not_executed_new w
  have hv : args.version = UInt64.ofNat (puts K kv) := hv.trans (t.version K)
  refine ⟨?_, ?_, ?_, ?_⟩
  · refine h.dated.of_quiet hq ?_
    intro n args' ho hk'
    rcases putOn_invoke_cases ⟨ho, hk'⟩ with hold | ⟨rfl, rfl⟩
    · exact Or.inl hold.1
    · exact Or.inr ⟨hnew, _, le_rfl, hv⟩
  · intro n args' hn ha
    rw [hq.accepted] at ha
    rcases putOn_invoke_cases hn with hold | ⟨rfl, rfl⟩
    · exact absurd (h.accepted_of_returned w hreturned hold) ha
    · rw [hq.executed, hq.puts]
      refine ⟨?_, hnew, hv⟩
      intro m args'' hm
      rcases putOn_invoke_cases hm with hold | ⟨rfl, -⟩
      · exact (opOf_lt hold.1).le
      · exact le_rfl
  · intro n args' hn hlast ha
    rw [hq.accepted] at ha
    have hnewPut : PutOn K (kv.invoke clerk (.put args)) kv.calls.length args :=
      ⟨opOf_invoke kv clerk _, hk⟩
    have hle := hlast _ _ hnewPut
    rcases putOn_invoke_cases hn with hold | ⟨rfl, -⟩
    · have := opOf_lt hold.1
      omega
    · exact absurd ha.executed hnew
  · intro n a args' reply he hk'
    exact h.answered n a args' reply ((hq.exec n a _ _).mp he) hk'

/-- A call that is no `Put` on the key. -/
theorem putOn_invoke {clerk : ℕ} {op : Op} (hne : ∀ args, op = .put args → args.key ≠ K) (n : ℕ)
    (args : PutArgs) : PutOn K (kv.invoke clerk op) n args ↔ PutOn K kv n args := by
  constructor
  · rintro ⟨ho, hk⟩
    rcases opOf_invoke_cases ho with ho | ⟨-, he⟩
    · exact ⟨ho, hk⟩
    · exact absurd hk (hne args he.symm)
  · rintro ⟨ho, hk⟩
    exact ⟨(quiet_invoke kv clerk op).op n _ ho, hk⟩

theorem Written.step {a : Action} {w : ℕ} (h : Written K kv) (wf : WellFormed kv) (t : Tracks kv)
    (hb : puts K kv < 2 ^ 64) (hs : Stepped kv a kv') (hC : SingleWriter K w kv a) :
    Written K kv' := by
  by_cases ha : a.internal = true
  · rcases hs.exec_or_quiet ha with ⟨i, q, hq, rfl⟩ | ⟨hquiet, hop⟩
    · by_cases hins : ∃ args, Installs K kv q args
      · obtain ⟨args, hins⟩ := hins
        exact h.exec_of_installs wf t hb hq hins
      · exact h.exec_of_not wf t hq (not_exists.mp hins)
    · refine h.of_quiet hquiet ?_
      intro n args
      rw [PutOn, hop, PutOn]
  · cases a with
    | invoke clerk op =>
        cases hs
        cases op with
        | get args => exact h.of_quiet (quiet_invoke _ _ _) (putOn_invoke (by simp))
        | put args =>
            by_cases hk : args.key = K
            · obtain ⟨-, hreturned, hv⟩ := hC hk
              exact h.invoke wf t hk hv hreturned
            · refine h.of_quiet (quiet_invoke _ _ _) (putOn_invoke ?_)
              rintro args' he
              rw [← Op.put.inj he]
              exact hk
    | exec i => exact absurd rfl ha
    | lose i => exact absurd rfl ha
    | callTrue i => exact absurd rfl ha
    | callFalse c => exact absurd rfl ha

theorem reachable_written {w : ℕ} {s : State} (h : system.ReachableBy (SingleWriter K w) s) :
    FewPuts s → Written K s := by
  refine h.invariant (I := fun s => FewPuts s → Written K s) (fun _ => written_init K) ?_
  intro s a s' hr ih hC hstep hb
  have hs := State.step_cases hstep
  have hb := FewPuts.of_step hs hb
  exact (ih hb).step (reachable_wellFormed hr) (reachable_tracks hr) (hb K) hs hC

end

/-! ### The result -/

/-- A `Put` on a key with a single writer returns `OK` or `ErrMaybe`, exactly one of its attempts
is ever applied, and from its return until the next `Put` on the key the store holds its value. -/
theorem single_writer_exactly_once {K : String} {w : ℕ} {s : State}
    (h : system.ReachableBy (SingleWriter K w) s) (hb : FewPuts s) {n : ℕ} {c : Call}
    {args : PutArgs} {err : Err} (hc : s.calls[n]? = some c) (hop : c.op = .put args)
    (hk : args.key = K) (hr : c.ret = some (.put err)) :
    (err = .ok ∨ err = .errMaybe) ∧ applied n s.log = 1 ∧
      ((∀ m c' args', n < m → s.calls[m]? = some c' → c'.op = .put args' → args'.key ≠ K) →
        s.server.store K = some ⟨args.value, args.version + 1⟩) := by
  have wf := reachable_wellFormed h
  have t := reachable_tracks h
  have hw := reachable_written h hb
  have hn : PutOn K s n args := ⟨by rw [opOf, hc, Option.map_some, hop], hk⟩
  have hacc : Accepted s.log n := by
    refine hw.accepted_of_executed hn (executed_of_result wf (r := .put err) ?_)
    rw [resultOf, hc, Option.bind_some, hr]
  have happ : applied n s.log = 1 := by
    obtain ⟨a, args', he⟩ := hacc
    have hpos := applied_pos he
    have hle := applied_le_one wf t hc hop (hb args.key).le
    omega
  refine ⟨?_, happ, ?_⟩
  · obtain ⟨reply, he, herr⟩ := wf.put_reply hc hop hr
    rcases hw.answered _ _ _ _ he hk with hok | hver
    · rw [hok] at herr
      exact Or.inl (by simpa using herr)
    · rw [hver] at herr
      split_ifs at herr
      · exact Or.inr herr
      · -- an unretried `ErrVersion` would mean that no attempt was applied
        have := applied_of_errVersion wf hc hop (herr ▸ hr)
        omega
  · intro hnext
    have hlast : LastPut K s n := by
      rintro m args' ⟨ho, hk'⟩
      obtain ⟨c', hc', hop'⟩ := Option.map_eq_some_iff.mp ho
      by_contra hm
      exact hnext m c' args' (by omega) hc' hop' hk'
    obtain ⟨hval, hver⟩ := hw.current n args hn hlast hacc
    rw [t.store_of_last hval, hver]

/-- The reply to the first attempt is lost, and the resend finds the next version. -/
theorem single_writer_exactly_once_maybe : ∃ s, system.ReachableBy (SingleWriter "k" 0) s ∧
    s.calls = [⟨0, .put ⟨"k", "a", 0⟩, 1, some (.put .errMaybe)⟩] ∧ applied 0 s.log = 1 ∧
      ((∀ m c' args', 0 < m → s.calls[m]? = some c' → c'.op = .put args' → args'.key ≠ "k") →
        s.server.store "k" = some ⟨"a", 0 + 1⟩) := by
  obtain ⟨s, hs, hp⟩ := Lts.exists_of_exec (L := system) (C := SingleWriter "k" 0)
    (p := fun s => decide (s.calls = [(⟨0, .put ⟨"k", "a", 0⟩, 1, some (.put .errMaybe)⟩ : Call)] ∧
      s.log.length = 4))
    [.invoke 0 (.put ⟨"k", "a", 0⟩), .exec 0, .callFalse 0, .exec 0, .callTrue 1] (by decide)
  obtain ⟨hc, hlen⟩ := of_decide_eq_true hp
  obtain ⟨-, happ, hstore⟩ := single_writer_exactly_once hs (fewPuts_of_length (by omega))
    (n := 0) (c := ⟨0, .put ⟨"k", "a", 0⟩, 1, some (.put .errMaybe)⟩) (by rw [hc]; rfl) rfl rfl rfl
  exact ⟨s, hs, hc, happ, hstore⟩

end DistributedSystems.Kv
