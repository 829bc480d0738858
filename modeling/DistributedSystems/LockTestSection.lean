import DistributedSystems.LockTestKey

/-! # A critical section under a lock

The lock protects the section: in every run at most one client is between the return of `Acquire`
and the call of `Release` of the locks with one name, and no client ever comes to `Fatalf`
(`critical_section_exclusive`).  The steps of the clients, of the locks and of the network keep the
invariant of the key (`Guarded.step`). -/

namespace DistributedSystems.LockTest

open DistributedSystems.Kv DistributedSystems.Lock

/-! ### The steps -/

/-- No lock has the name `l0`. -/
def Elsewhere (lock : Lock.State) : Prop := ∀ c ∈ lock.clients, c.lockname ≠ "l0"

section step

variable {names : Names} {lock lock' : Lock.State} {s s' : State} {j : ℕ} {t t' : Test}

theorem Elsewhere.step {a : Lock.Action} (h : Elsewhere lock) (hs : Lock.Stepped lock a lock')
    (ha : ∀ name, a = .makeLock name → name ≠ "l0") : Elsewhere lock' := by
  have hset : ∀ {l : ℕ} {c d : Client}, lock.clients[l]? = some c → d.lockname = c.lockname →
      ∀ c' ∈ lock.clients.set l d, c'.lockname ≠ "l0" := by
    intro l c d hc hd
    exact forall_mem_set h (hd ▸ h c (List.mem_of_getElem? hc))
  cases hs with
  | makeLock name =>
      intro c hc
      rcases List.mem_append.mp hc with hc | hc
      · exact h c hc
      · rw [List.mem_singleton.mp hc]
        exact ha name rfl
  | acquire hc hpc => exact hset hc rfl
  | release hc hpc => exact hset hc rfl
  | tryPut hc hpc hr hv => exact hset hc rfl
  | tryAgain hc hpc hr => exact hset hc rfl
  | acquired hc hpc hr => exact hset hc rfl
  | free hc hpc hr he hv => exact hset hc rfl
  | nothing hc hpc hr hv => exact hset hc rfl
  | released hc hpc hr => exact hset hc rfl
  | app clerk op => exact h
  | net ha hk => exact h

theorem reachable_elsewhere {C : State → Action → Prop} (h : (system names).ReachableBy C s) :
    Elsewhere s.lock := by
  refine h.invariant (I := fun s => Elsewhere s.lock) (by simp [system, State.init, Elsewhere,
    Lock.State.init]) ?_
  intro s a s' _ ih _ hstep
  cases State.step_cases hstep with
  | spawn => exact ih
  | call ht hn hs =>
      refine ih.step (Lock.State.step_cases hs) ?_
      rintro name rfl
      cases hn with
      | make1 hpc => exact names.ne1
      | make2 hpc => exact names.ne2
  | move ht hn => exact ih
  | finish ht hpc => exact ih
  | resume hs => exact ih.step (Lock.State.step_cases hs) (by simp)
  | net hs => exact ih.step (Lock.State.step_cases hs) (by simp)

/-- The code of a lock calls the Clerk on the key of the lock only. -/
theorem Guarded.lock_step {tests : List Test} {a : Lock.Action} (h : Guarded lock.kv tests)
    (he : Elsewhere lock) (hs : Lock.Stepped lock a lock') (happ : ∀ clerk op, a ≠ .app clerk op)
    (hnet : ∀ b, a ≠ .net b) : Guarded lock'.kv tests := by
  have hcall : ∀ {l : ℕ} {c : Client} {op : Op}, lock.clients[l]? = some c →
      op.key = c.lockname → Guarded (lock.kv.invoke l op) tests := by
    intro l c op hc hop
    refine h.of_quiet (quiet_invoke _ _ _) ?_
    intro n op' ho hk
    rcases opOf_invoke_cases ho with ho | ⟨-, rfl⟩
    · exact ho
    · exact absurd (hop.symm.trans hk) (he c (List.mem_of_getElem? hc))
  cases hs with
  | makeLock name => exact h
  | acquire hc hpc => exact hcall hc rfl
  | release hc hpc => exact hcall hc rfl
  | tryPut hc hpc hr hv => exact hcall hc rfl
  | tryAgain hc hpc hr => exact hcall hc rfl
  | acquired hc hpc hr => exact h
  | free hc hpc hr he hv => exact hcall hc rfl
  | nothing hc hpc hr hv => exact h
  | released hc hpc hr => exact h
  | app clerk op => exact absurd rfl (happ clerk op)
  | net ha hk => exact absurd rfl (hnet _)

/-- The `Get` of a client in the section finds the key cleared. -/
theorem Guarded.got (h : Guarded s.lock.kv s.tests) (w : WellFormed s.lock.kv) (ht : t ∈ s.tests)
    {n : ℕ} (hpc : t.pc = .get n) {val : String} {ver : Tversion} {err : Err}
    (hr : resultOf s.lock.kv n = some (.get val ver err)) :
    0 < puts "l0" s.lock.kv ∧ val = "" ∧ ver = UInt64.ofNat (puts "l0" s.lock.kv) ∧ err = .ok := by
  have hok := h.test t ht
  rw [TestOk, hpc] at hok
  obtain ⟨hpos, ho, hx⟩ := hok
  obtain ⟨a, reply, he, hf⟩ := result_exec w ho hr
  rw [hx a _ reply he] at hf
  simp only [Op.finish, Option.some.injEq, Ret.get.injEq] at hf
  exact ⟨hpos, hf.1.symm, hf.2.1.symm, hf.2.2.symm⟩

/-- The first `Put` has been executed, so the key is there. -/
theorem Guarded.pos_of_first (h : Guarded s.lock.kv s.tests) (w : WellFormed s.lock.kv)
    (ht : t ∈ s.tests) {n : ℕ} (hpc : t.pc = .first n) {r : Ret}
    (hr : resultOf s.lock.kv n = some r) : 0 < puts "l0" s.lock.kv := by
  have hok := h.test t ht
  rw [TestOk, hpc] at hok
  obtain ⟨m, -, -, hlt⟩ := h.dated n _ hok rfl
  exact Nat.zero_lt_of_lt (hlt (executed_of_result w hr))

/-- The two `Put`s of the section. -/
theorem Guarded.wrote (h : Guarded s.lock.kv s.tests) (w : WellFormed s.lock.kv) (ht : t ∈ s.tests)
    {n : ℕ} {ver : Tversion} {err : Err} (hr : resultOf s.lock.kv n = some (.put err)) :
    (t.pc = .put n ver → 0 < puts "l0" s.lock.kv ∧ (err = .ok ∨ err = .errMaybe) ∧
      ver + 1 = UInt64.ofNat (puts "l0" s.lock.kv)) ∧
    (t.pc = .clear n ver → 0 < puts "l0" s.lock.kv ∧ (err = .ok ∨ err = .errMaybe) ∧
      last "l0" s.lock.kv = some "") := by
  have hok := h.test t ht
  constructor
  · intro hpc
    rw [TestOk, hpc] at hok
    obtain ⟨herr, hver, -⟩ := hok.2.result w h.found hr
    exact ⟨hok.1, herr, hver⟩
  · intro hpc
    rw [TestOk, hpc] at hok
    obtain ⟨herr, -, hlast⟩ := hok.2.result w h.found hr
    exact ⟨hok.1, herr, hlast⟩

theorem writing_invoke {kv : Kv.State} (w : WellFormed kv) (clerk : ℕ) {args : PutArgs}
    (hkey : args.key = "l0") (hver : args.version = UInt64.ofNat (puts "l0" kv)) :
    Writing (kv.invoke clerk (.put args)) kv.calls.length args := by
  have hq := quiet_invoke kv clerk (.put args)
  refine ⟨opOf_invoke _ _ _, hkey, ?_, ?_⟩
  · intro _
    rw [hq.puts]
    exact hver
  · rw [hq.executed]
    exact fun hex => absurd hex (not_executed_new w)

/-- A client calls a lock. -/
theorem Guarded.calls_lock {a : Lock.Action} (h : Guarded s.lock.kv s.tests)
    (w : WellFormed s.lock.kv) (he : Elsewhere s.lock) (hj : s.tests[j]? = some t)
    (hn : Next names s.lock t t' (some a)) (happ : ∀ clerk op, a ≠ .app clerk op)
    (hs : s.lock.step a = some lock) : Guarded lock.kv (s.tests.set j t') := by
  have ht := List.mem_of_getElem? hj
  have hok := h.test t ht
  have hmove : Guarded s.lock.kv (s.tests.set j t') ∧ ∀ b, a ≠ .net b := by
    cases hn with
    | make1 hpc | make2 hpc | acquire1 hpc | acquire2 hpc hret | release1 hpc hret
    | release2 hpc hret =>
        exact ⟨h.move hj trivial (fun n hw => absurd hw (Pc.not_waits hpc rfl n)), by simp⟩
    | acquire hpc =>
        rw [TestOk, hpc] at hok
        exact ⟨h.move hj hok (fun n hw => absurd hw (Pc.not_waits hpc rfl n)), by simp⟩
    | @release n ver err hpc hr =>
        obtain ⟨hpos, -, hlast⟩ := (h.wrote w ht hr).2 hpc
        refine ⟨h.move hj hpos ?_, by simp⟩
        intro m hwait
        rw [hpc] at hwait
        obtain rfl : n = m := hwait
        exact ⟨executed_of_result w hr, hlast⟩
    | first hpc hret => exact absurd rfl (happ _ _)
    | get hpc hret => exact absurd rfl (happ _ _)
    | put hpc hr => exact absurd rfl (happ _ _)
    | clear hpc hr => exact absurd rfl (happ _ _)
  exact hmove.1.lock_step he (Lock.State.step_cases hs) happ hmove.2

/-- A client calls the Clerk. -/
theorem Guarded.calls_clerk {clerk : ℕ} {op : Op} (h : Guarded s.lock.kv s.tests)
    (w : WellFormed s.lock.kv) (hj : s.tests[j]? = some t)
    (hn : Next names s.lock t t' (some (.app clerk op))) :
    Guarded (s.lock.kv.invoke clerk op) (s.tests.set j t') := by
  have ht := List.mem_of_getElem? hj
  have hok := h.test t ht
  have hq := quiet_invoke s.lock.kv clerk op
  cases hn with
  | first hpc hret =>
      have hout := Pc.not_waits hpc rfl
      refine h.call w hj (Or.inl rfl) (fun args he => Or.inl (Op.put.inj he).symm) ?_
        (fun n hwait => absurd hwait (hout n)) (fun n hwait => absurd hwait (hout n))
      exact opOf_invoke _ _ _
  | get hpc hret =>
      have hout := Pc.not_waits hpc rfl
      rw [TestOk, hpc] at hok
      refine h.call w hj (Or.inr hok) (by simp) ⟨?_, opOf_invoke _ _ _, ?_⟩
        (fun n hwait => absurd hwait (hout n)) (fun n hwait => absurd hwait (hout n))
      · rw [hq.puts]
        exact hok
      · intro a op r hx
        exact absurd ⟨a, op, r, (hq.exec _ _ _ _).mp hx⟩ (not_executed_new w)
  | @put n ver hpc hr =>
      obtain ⟨hpos, -, hver, -⟩ := h.got w ht hpc hr
      have hout : ∀ m, ¬ t.pc.waits m := by
        rw [hpc]
        exact fun m hwait => hwait
      refine h.call w hj (Or.inr hpos) ?_ ⟨(hq.puts _).symm ▸ hpos, writing_invoke w _ rfl hver⟩
        (fun m hwait => absurd hwait (hout m)) (fun m hwait => absurd hwait (hout m))
      rintro args he
      cases he
      exact Or.inr ⟨rfl, hver⟩
  | @clear n ver err hpc hr =>
      obtain ⟨hpos, -, hver⟩ := (h.wrote w ht hr).1 hpc
      refine h.call w hj (Or.inr hpos) ?_ ⟨(hq.puts _).symm ▸ hpos, writing_invoke w _ rfl hver⟩
        ?_ (fun _ _ => rfl)
      · rintro args he
        cases he
        exact Or.inr ⟨rfl, hver⟩
      · intro m hwait
        rw [hpc] at hwait
        obtain rfl : n = m := hwait
        exact executed_of_result w hr

/-- A client goes on by itself, and not to a `Fatalf`. -/
theorem Guarded.moves (h : Guarded s.lock.kv s.tests) (w : WellFormed s.lock.kv)
    (hj : s.tests[j]? = some t) (hn : Next names s.lock t t' none) :
    Guarded s.lock.kv (s.tests.set j t') := by
  have ht := List.mem_of_getElem? hj
  have hok := h.test t ht
  cases hn with
  | begun hpc hr =>
      exact h.move hj (h.pos_of_first w ht hpc hr)
        (fun n hw => absurd hw (Pc.not_waits hpc rfl n))
  | again hpc hret =>
      rw [TestOk, hpc] at hok
      exact h.move hj hok (fun n hw => absurd hw (Pc.not_waits hpc rfl n))
  | getFailed f hpc hr hbad =>
      obtain ⟨-, hval, -, herr⟩ := h.got w ht hpc hr
      rcases hbad with hbad | hbad
      · exact absurd hval hbad
      · exact absurd herr hbad
  | putFailed f hpc hr hbad =>
      obtain ⟨h1, h2⟩ := h.wrote w ht hr
      have herr := hpc.elim (fun hpc => (h1 hpc).2.1) (fun hpc => (h2 hpc).2.1)
      rcases herr with herr | herr
      · exact absurd herr hbad.1
      · exact absurd herr hbad.2

theorem Guarded.step {a : Action} (h : Guarded s.lock.kv s.tests) (w : WellFormed s.lock.kv)
    (tr : Tracks s.lock.kv) (hb : puts "l0" s.lock.kv < 2 ^ 64) (he : Elsewhere s.lock)
    (hx : OneUser s.tests) (hs : Stepped names s a s') : Guarded s'.lock.kv s'.tests := by
  cases hs with
  | spawn =>
      refine ⟨?_, h.dated, h.found, h.absent, ?_, ?_⟩
      · intro t ht
        rcases List.mem_append.mp ht with ht | ht
        · exact h.test t ht
        · rw [List.mem_singleton.mp ht]
          trivial
      · intro n args ho hk
        rcases h.live n args ho hk with hex | hfirst | ⟨t, ht, hwait⟩
        · exact Or.inl hex
        · exact Or.inr (Or.inl hfirst)
        · exact Or.inr (Or.inr ⟨t, List.mem_append_left _ ht, hwait⟩)
      · exact fun hpos hno => h.clean hpos (fun t ht => hno t (List.mem_append_left _ ht))
  | @call j t t' a lock ht hn hs =>
      by_cases happ : ∃ clerk op, a = .app clerk op
      · obtain ⟨clerk, op, rfl⟩ := happ
        cases hs
        exact h.calls_clerk w ht hn
      · exact h.calls_lock w he ht hn (fun clerk op ha => happ ⟨clerk, op, ha⟩) hs
  | move ht hn => exact h.moves w ht hn
  | finish ht hpc =>
      have hok := h.test _ (List.mem_of_getElem? ht)
      rw [TestOk, hpc] at hok
      refine h.move ht hok ?_
      intro n hwait
      rw [hpc] at hwait
      exact hwait.elim
  | resume hs => exact h.lock_step he (Lock.State.step_cases hs) (by simp) (by simp)
  | net hs =>
      cases Lock.State.step_cases hs with
      | net ha hk =>
          rcases (Kv.State.step_cases hk).exec_or_quiet ha with ⟨i, q, hq, rfl⟩ | ⟨hq, hop⟩
          · by_cases hins : ∃ args, Installs "l0" s.lock.kv q args
            · obtain ⟨args, hins⟩ := hins
              exact h.exec_of_installs w tr hq hx hb hins
            · exact h.exec_of_not w tr hq hx (not_exists.mp hins)
          · exact h.of_quiet hq (fun n op ho _ => (hop n).symm.trans ho)

theorem Stepped.lock_step {a : Action} (hs : Stepped names s a s') :
    s'.lock = s.lock ∨ ∃ b, s.lock.step b = some s'.lock := by
  cases hs with
  | spawn => exact Or.inl rfl
  | call ht hn hs => exact Or.inr ⟨_, hs⟩
  | move ht hn => exact Or.inl rfl
  | finish ht hpc => exact Or.inl rfl
  | resume hs => exact Or.inr ⟨_, hs⟩
  | net hs => exact Or.inr ⟨_, hs⟩

theorem fewPuts_of_step {a : Action} (hs : Stepped names s a s') (hb : FewPuts s'.lock.kv) :
    FewPuts s.lock.kv := by
  rcases hs.lock_step with he | ⟨b, hb'⟩
  · rwa [he] at hb
  · rcases (Lock.State.step_cases hb').kv with he | ⟨c, hc⟩
    · rwa [he] at hb
    · exact hb.of_step (Kv.State.step_cases hc)

theorem reachable_guarded {C : State → Action → Prop} (h : (system names).ReachableBy C s) :
    FewPuts s.lock.kv → Guarded s.lock.kv s.tests := by
  refine h.invariant (I := fun s => FewPuts s.lock.kv → Guarded s.lock.kv s.tests) ?_ ?_
  · intro _
    constructor <;> simp [system, State.init, Lock.State.init, Kv.State.init, opOf, Dated, Found,
      puts]
  · intro s a s' hr ih _ hstep hb'
    have hs := State.step_cases hstep
    have hb := fewPuts_of_step hs hb'
    have hk := Lock.reachable_kv (reachable_lock names.ne1 hr)
    exact (ih hb).step (reachable_wellFormed hk) (reachable_tracks hk) (hb _)
      (reachable_elsewhere hr) (reachable_exclusive hr hb).oneUser hs

end step

/-- In every run at most one client is between the return of `Acquire` and the call of `Release` of
the locks with one name, and no client comes to `Fatalf`. -/
theorem critical_section_exclusive {names : Names} {s : State} (h : (system names).Reachable s)
    (hb : FewPuts s.lock.kv) : Exclusive names s ∧ ∀ t ∈ s.tests, ∀ f, t.pc ≠ .fatal f := by
  refine ⟨reachable_exclusive h hb, ?_⟩
  intro t ht f hpc
  have hok := (reachable_guarded h hb).test t ht
  rw [TestOk, hpc] at hok
  exact hok

/-- The steps of a Clerk call without a fault. -/
def clerkRun : List Action := [.net (.exec 0), .net (.callTrue 0)]

/-- The rest of a call of `Acquire` or `Release` of the lock `l` that nobody disturbs. -/
def lockRun (l : ℕ) : List Action := clerkRun ++ [.resume l] ++ clerkRun ++ [.resume l]

/-- The first client is in the section for the first time, and the reply to the `Put` of its number
has been lost; the second client has found the lock taken. -/
def contendedRun : List Action :=
  [[.spawn, .run 0, .run 0, .run 0], lockRun 0, [.run 0], lockRun 1, [.run 0], lockRun 0,
    [.run 0], lockRun 1, [.run 0], clerkRun, [.run 0, .run 0], lockRun 0, [.run 0], clerkRun,
    [.run 0, .spawn, .run 1, .run 1, .run 1, .net (.exec 1), .net (.callTrue 0), .resume 2],
    [.net (.exec 0), .net (.callFalse 12), .net (.exec 1), .net (.callTrue 1), .run 0]].flatten

/-- Two short names. -/
def shortNames : Names := ⟨"a", "b", by decide, by decide⟩

theorem critical_section_exclusive_contended : ∃ s,
    (system shortNames).Reachable s ∧ FewPuts s.lock.kv ∧
      s.tests.map Test.pc = [.clear 15 1, .acquire1] ∧ Exclusive shortNames s ∧
      ∀ t ∈ s.tests, ∀ f, t.pc ≠ .fatal f := by
  have hrun : ((system shortNames).exec (fun _ _ => True) (system shortNames).init
      contendedRun).any (fun s => decide (s.tests.map Test.pc = [.clear 15 1, .acquire1] ∧
        s.lock.kv.log.length < 100)) = true := by
    decide +kernel
  obtain ⟨s, hs, hp⟩ := Lts.exists_of_exec _ hrun
  obtain ⟨hpc, hlen⟩ := of_decide_eq_true hp
  have hb : FewPuts s.lock.kv := fewPuts_of_length (by omega)
  exact ⟨s, hs, hb, hpc, critical_section_exclusive hs hb⟩

end DistributedSystems.LockTest
