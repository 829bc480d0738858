import DistributedSystems.KvDefinite
import DistributedSystems.LockTestOwnership

/-! # The key of the critical section

At most one client uses the key `l0` at a time.  So the only `Put` on the key that can be accepted
is the one that this client waits for (`Guarded`); an earlier one that is still on its way has an
old version. -/

namespace DistributedSystems.LockTest

open DistributedSystems.Kv DistributedSystems.Lock

/-! ### The users of the key -/

/-- The client uses the key in the section of its first lock. -/
def Pc.usesKey : Pc → Bool
  | .get _ | .put _ _ | .clear _ _ | .fatal _ => true
  | _ => false

/-- At most one client uses the key. -/
def OneUser (tests : List Test) : Prop :=
  ∀ (i j : ℕ) t t', tests[i]? = some t → tests[j]? = some t' → t.pc.usesKey = true →
    t'.pc.usesKey = true → i = j

theorem Test.inside_of_usesKey {names : Names} {lock : Lock.State} {t : Test}
    (h : t.pc.usesKey = true) :
    ∃ mode, (t.lk1, names.name1, mode) ∈ t.locks names ∧
      Inside lock (t.lk1, names.name1, mode) := by
  have hb : t.pc.begun = true := by cases hpc : t.pc <;> simp_all [Pc.usesKey, Pc.begun]
  have hm : t.pc.mode1 = .held := by cases hpc : t.pc <;> simp_all [Pc.usesKey, Pc.mode1]
  refine ⟨t.pc.mode1, ?_, Or.inl hm⟩
  rw [Test.locks_of_begun hb]
  exact List.mem_cons_self

theorem Exclusive.oneUser {names : Names} {s : State} (h : Exclusive names s) :
    OneUser s.tests := by
  intro i j t t' hi hj ht ht'
  obtain ⟨mode, hp, hin⟩ := Test.inside_of_usesKey ht
  obtain ⟨mode', hp', hin'⟩ := Test.inside_of_usesKey ht'
  exact h i j t t' _ _ hi hj hp hp' rfl hin hin'

/-! ### The Puts of the critical section -/

/-- The `Put` that a client waits for is the next one to be accepted on `l0`, or it was the last. -/
structure Writing (kv : Kv.State) (n : ℕ) (args : PutArgs) : Prop where
  op : opOf kv n = some (.put args)
  key : args.key = "l0"
  pending : ¬ Executed kv.log n → args.version = UInt64.ofNat (puts "l0" kv)
  done : Executed kv.log n → Accepted kv.log n ∧
    args.version + 1 = UInt64.ofNat (puts "l0" kv) ∧ last "l0" kv = some args.value

section writing

variable {kv kv' : Kv.State} {n i : ℕ} {q : Request} {args : PutArgs}

theorem Writing.of_quiet (h : Writing kv n args) (hq : Quiet kv kv') : Writing kv' n args where
  op := hq.op _ _ h.op
  key := h.key
  pending := by
    rw [hq.executed, hq.puts]
    exact h.pending
  done := by
    rw [hq.executed, hq.accepted, hq.puts, hq.last]
    exact h.done

theorem Writing.exec_of_not (h : Writing kv n args) (w : WellFormed kv) (t : Tracks kv)
    (hq : kv.requests[i]? = some q) (hins : ∀ args, ¬ Installs "l0" kv q args) :
    Writing (kv.exec i q) n args := by
  refine ⟨opOf_step (.exec hq) h.op, h.key, ?_, ?_⟩
  · intro hne
    rw [puts_of_not hins]
    exact h.pending (fun he => hne he.exec)
  · intro hex
    have hold : Executed kv.log n := by
      by_contra hne
      have hn := ne_call_of_not w t hq hins h.op h.key (h.pending hne)
      exact hne ((executed_exec_of_ne hn).mp hex)
    obtain ⟨hacc, hver, hlast⟩ := h.done hold
    rw [puts_of_not hins, last_of_not hins]
    exact ⟨hacc.exec, hver, hlast⟩

/-- The `Put` is accepted. -/
theorem Writing.exec_of_installs (h : Writing kv q.call args) (hq : kv.requests[i]? = some q)
    {args' : PutArgs} (ho : opOf kv q.call = some (.put args'))
    (hins : Installs "l0" kv q args') (hne : ¬ Executed kv.log q.call) :
    Writing (kv.exec i q) q.call args := by
  obtain rfl : args' = args := by simpa using ho.symm.trans h.op
  refine ⟨opOf_step (.exec hq) h.op, h.key, fun hn => absurd executed_exec hn, fun _ => ?_⟩
  rw [puts_of_installs hins, last_of_installs hins, h.pending hne]
  exact ⟨accepted_exec hins, (UInt64.ofNat_add _ 1).symm, rfl⟩

/-- A `Put` that has returned was accepted, and it returned `OK` or `ErrMaybe`. -/
theorem Writing.result (h : Writing kv n args) (w : WellFormed kv) (hf : Found "l0" kv.log)
    {err : Err} (hr : resultOf kv n = some (.put err)) :
    (err = .ok ∨ err = .errMaybe) ∧ args.version + 1 = UInt64.ofNat (puts "l0" kv) ∧
      last "l0" kv = some args.value := by
  obtain ⟨hacc, hver, hlast⟩ := h.done (executed_of_result w hr)
  refine ⟨?_, hver, hlast⟩
  obtain ⟨c, hc, hop⟩ := Option.map_eq_some_iff.mp h.op
  rw [resultOf, hc, Option.bind_some] at hr
  obtain ⟨reply, he, herr⟩ := w.put_reply hc hop hr
  cases hre : err with
  | ok => exact Or.inl rfl
  | errMaybe => exact Or.inr rfl
  | errNoKey =>
      have hnot : reply.err ≠ .errNoKey := hf _ _ _ _ he h.key
      rw [hre] at herr
      split_ifs at herr
      exact absurd herr.symm hnot
  | errVersion =>
      obtain ⟨a, args', he'⟩ := hacc
      have hpos := applied_pos he'
      have hzero := applied_of_errVersion w hc hop (hre ▸ hr)
      omega

end writing

/-- What a client can rely on at every point of its code. -/
def TestOk (kv : Kv.State) (t : Test) : Prop :=
  match t.pc with
  | .begin | .made1 | .made2 | .acquire1 | .acquire2 | .release1 | .release2 => True
  | .first n => opOf kv n = some (.put ⟨"l0", "", 0⟩)
  | .loop | .acquire | .release | .done => 0 < puts "l0" kv
  | .get n => 0 < puts "l0" kv ∧ opOf kv n = some (.get ⟨"l0"⟩) ∧
      ∀ a op r, Event.exec n a op r ∈ kv.log →
        r = .get ⟨"", UInt64.ofNat (puts "l0" kv), .ok⟩
  | .put n ver => 0 < puts "l0" kv ∧ Writing kv n ⟨"l0", toString t.me, ver⟩
  | .clear n ver => 0 < puts "l0" kv ∧ Writing kv n ⟨"l0", "", ver + 1⟩
  | .fatal _ => False

/-- The client waits for the `Put` `n`. -/
def Pc.waits (n : ℕ) : Pc → Prop
  | .put m _ | .clear m _ => m = n
  | _ => False

/-- The invariant of the key `l0`. -/
structure Guarded (kv : Kv.State) (tests : List Test) : Prop where
  test : ∀ t ∈ tests, TestOk kv t
  dated : Dated "l0" kv
  found : Found "l0" kv.log
  absent : puts "l0" kv = 0 → ∀ n op, opOf kv n = some op → op.key = "l0" →
    op = .put ⟨"l0", "", 0⟩
  live : ∀ n args, opOf kv n = some (.put args) → args.key = "l0" →
    Executed kv.log n ∨ args = ⟨"l0", "", 0⟩ ∨ ∃ t ∈ tests, t.pc.waits n
  clean : 0 < puts "l0" kv → (∀ t ∈ tests, ∀ n, ¬ t.pc.waits n) →
    last "l0" kv = some ""

section guarded

variable {kv kv' : Kv.State} {tests : List Test} {j : ℕ} {t t' : Test}

theorem TestOk.of_quiet (h : TestOk kv t) (hq : Quiet kv kv') : TestOk kv' t := by
  unfold TestOk at h ⊢
  cases hpc : t.pc with
  | first n =>
      rw [hpc] at h
      exact hq.op _ _ h
  | loop | acquire | release | done =>
      rw [hpc] at h
      exact (hq.puts _).symm ▸ h
  | get n =>
      rw [hpc] at h
      obtain ⟨hpos, ho, hx⟩ := h
      rw [hq.puts]
      refine ⟨hpos, hq.op _ _ ho, ?_⟩
      intro a op r he
      exact hx a op r ((hq.exec _ _ _ _).mp he)
  | put n ver | clear n ver =>
      rw [hpc] at h
      exact ⟨(hq.puts _).symm ▸ h.1, h.2.of_quiet hq⟩
  | fatal f =>
      rw [hpc] at h
      exact h.elim
  | _ => trivial

/-- A client outside the section only needs that the key is there. -/
theorem TestOk.of_outside {a : Kv.Action} (h : TestOk kv t)
    (hs : Kv.Stepped kv a kv') (hout : t.pc.usesKey = false) : TestOk kv' t := by
  have hmono := hs.puts_mono "l0"
  unfold TestOk at h ⊢
  cases hpc : t.pc with
  | first n =>
      rw [hpc] at h
      exact opOf_step hs h
  | loop | acquire | release | done =>
      rw [hpc] at h
      exact lt_of_lt_of_le h hmono
  | get n | put n ver | clear n ver | fatal f =>
      rw [hpc] at hout
      cases hout
  | _ => trivial

/-- The execution of a request that installs nothing on `l0`. -/
theorem TestOk.exec_of_not {i : ℕ} {q : Request} (h : TestOk kv t)
    (w : WellFormed kv) (tr : Tracks kv) (hq : kv.requests[i]? = some q)
    (hins : ∀ args, ¬ Installs "l0" kv q args)
    (hclean : ∀ n, t.pc = .get n → last "l0" kv = some "") : TestOk (kv.exec i q) t := by
  have hputs := puts_of_not (i := i) hins
  unfold TestOk at h ⊢
  cases hpc : t.pc with
  | first n =>
      rw [hpc] at h
      exact opOf_step (.exec hq) h
  | loop | acquire | release | done =>
      rw [hpc] at h
      exact hputs.symm ▸ h
  | get n =>
      rw [hpc] at h
      obtain ⟨hpos, ho, hx⟩ := h
      rw [hputs]
      refine ⟨hpos, opOf_step (.exec hq) ho, ?_⟩
      intro a op r he
      simp only [Kv.State.exec_log, List.mem_append, List.mem_singleton, Event.exec.injEq] at he
      rcases he with he | ⟨rfl, -, -, hrep⟩
      · exact hx a op r he
      · rw [w.opOf_request (List.mem_of_getElem? hq), Option.some.injEq] at ho
        have hstore := tr.store_of_last (hclean _ hpc)
        rw [ho] at hrep
        simp only [KVServer.handle, KVServer.get, hstore] at hrep
        exact hrep
  | put n ver | clear n ver =>
      rw [hpc] at h
      exact ⟨hputs.symm ▸ h.1, h.2.exec_of_not w tr hq hins⟩
  | fatal f =>
      rw [hpc] at h
      exact h.elim
  | _ => trivial

/-- The `Put` that the client waits for is accepted. -/
theorem TestOk.exec_of_installs {i : ℕ} {q : Request} {args : PutArgs}
    (h : TestOk kv t) (hwait : t.pc.waits q.call) (hq : kv.requests[i]? = some q)
    (ho : opOf kv q.call = some (.put args)) (hins : Installs "l0" kv q args)
    (hne : ¬ Executed kv.log q.call) : TestOk (kv.exec i q) t := by
  have hputs := puts_of_installs (i := i) hins
  unfold TestOk at h ⊢
  unfold Pc.waits at hwait
  cases hpc : t.pc with
  | put n ver | clear n ver =>
      rw [hpc] at h hwait
      subst hwait
      exact ⟨by omega, h.2.exec_of_installs hq ho hins hne⟩
  | _ =>
      rw [hpc] at hwait
      exact hwait.elim

theorem Pc.usesKey_of_waits {pc : Pc} {n : ℕ} (h : pc.waits n) : pc.usesKey = true := by
  cases pc <;> first | rfl | exact h.elim

/-- Outside the section nothing is written. -/
theorem Pc.not_waits {pc pc' : Pc} (h : pc = pc') (hout : pc'.usesKey = false) (n : ℕ) :
    ¬ pc.waits n := by
  intro hwait
  rw [h] at hwait
  rw [Pc.usesKey_of_waits hwait] at hout
  cases hout

/-- While a client reads the key in the section, nobody writes it. -/
theorem Guarded.clean_of_get (h : Guarded kv tests) (hx : OneUser tests) (ht : t ∈ tests) {n : ℕ}
    (hpc : t.pc = .get n) : last "l0" kv = some "" := by
  have hpos : 0 < puts "l0" kv := by
    have hok := h.test t ht
    rw [TestOk, hpc] at hok
    exact hok.1
  refine h.clean hpos ?_
  intro u hu m hwait
  obtain ⟨i, hi⟩ := List.mem_iff_getElem?.mp ht
  obtain ⟨k, hk⟩ := List.mem_iff_getElem?.mp hu
  have hik := hx i k t u hi hk (by rw [hpc]; rfl) (Pc.usesKey_of_waits hwait)
  subst hik
  rw [hi, Option.some.injEq] at hk
  subst hk
  rw [hpc] at hwait
  exact hwait

/-- The key is there while a client is in the section. -/
theorem TestOk.pos (h : TestOk kv t) (hin : t.pc.usesKey = true) :
    0 < puts "l0" kv := by
  unfold TestOk at h
  cases hpc : t.pc with
  | get n | put n ver | clear n ver =>
      rw [hpc] at h
      exact h.1
  | fatal f =>
      rw [hpc] at h
      exact h.elim
  | _ =>
      rw [hpc] at hin
      cases hin

section exec

variable {i : ℕ} {q : Request} (h : Guarded kv tests) (w : WellFormed kv) (tr : Tracks kv)
  (hq : kv.requests[i]? = some q)

include h w tr hq

/-- A `Put` on `l0` that is accepted is the first one or that of the client in the section. -/
theorem Guarded.exec_of_installs (hx : OneUser tests) (hb : puts "l0" kv < 2 ^ 64)
    {args : PutArgs} (hins : Installs "l0" kv q args) :
    Guarded (kv.exec i q) tests := by
  obtain ⟨ho, hv, hne⟩ := h.dated.not_executed w tr hb (List.mem_of_getElem? hq) hins
  have hputs := puts_of_installs (i := i) hins
  have hlast := last_of_installs (i := i) hins
  have hfound : Found "l0" (kv.exec i q).log := by
    intro n a op r he hk
    simp only [Kv.State.exec_log, List.mem_append, List.mem_singleton, Event.exec.injEq] at he
    rcases he with he | ⟨-, -, rfl, rfl⟩
    · exact h.found n a op r he hk
    · have hok := KVServer.put_err_ok_iff.mpr (by rw [hins.2.1, hins.2.2])
      simp only [hins.1, KVServer.handle, Reply.err, hok]
      simp
  have hlive : ∀ n args, opOf (kv.exec i q) n = some (.put args) → args.key = "l0" →
      Executed (kv.exec i q).log n ∨ args = ⟨"l0", "", 0⟩ ∨
        ∃ t ∈ tests, t.pc.waits n := by
    intro n args' ho' hk'
    rcases h.live n args' ho' hk' with hex | hrest
    · exact Or.inl hex.exec
    · exact Or.inr hrest
  have habsent : puts "l0" (kv.exec i q) ≠ 0 := by omega
  rcases h.live q.call args ho hins.2.1 with hex | hfirst | ⟨t, ht, hwait⟩
  · exact absurd hex hne
  · -- the first `Put`: nobody is in the section yet
    rw [hfirst] at hv hlast
    have hzero : puts "l0" kv = 0 := ofNat_inj_of_lt hb (by omega) hv.symm
    refine ⟨?_, h.dated.exec w tr hq, hfound, fun hz => absurd hz habsent, hlive,
      fun _ _ => hlast⟩
    intro u hu
    refine (h.test u hu).of_outside (.exec hq) ?_
    by_contra hin
    have := (h.test u hu).pos (Bool.eq_true_of_not_eq_false hin)
    omega
  · refine ⟨?_, h.dated.exec w tr hq, hfound, fun hz => absurd hz habsent, hlive,
      fun _ hno => absurd hwait (hno t ht q.call)⟩
    intro u hu
    by_cases hut : u.pc.usesKey = true
    · obtain ⟨k, hk⟩ := List.mem_iff_getElem?.mp hu
      obtain ⟨m, hm⟩ := List.mem_iff_getElem?.mp ht
      have hkm := hx k m u t hk hm hut (Pc.usesKey_of_waits hwait)
      subst hkm
      rw [hm, Option.some.injEq] at hk
      subst hk
      exact (h.test t hu).exec_of_installs hwait hq ho hins hne
    · exact (h.test u hu).of_outside (.exec hq) (Bool.eq_false_of_not_eq_true hut)

theorem Guarded.exec_of_not (hx : OneUser tests) (hins : ∀ args, ¬ Installs "l0" kv q args) :
    Guarded (kv.exec i q) tests := by
  have hputs := puts_of_not (i := i) hins
  have hop := w.opOf_request (List.mem_of_getElem? hq)
  refine ⟨?_, h.dated.exec w tr hq, ?_, ?_, ?_, ?_⟩
  · intro t ht
    exact (h.test t ht).exec_of_not w tr hq hins (fun n hpc => h.clean_of_get hx ht hpc)
  · -- on an absent key only the first `Put`s arrive, and they are accepted
    rcases Nat.eq_zero_or_pos (puts "l0" kv) with hz | hpos
    · intro n a op r he hk
      simp only [Kv.State.exec_log, List.mem_append, List.mem_singleton, Event.exec.injEq] at he
      rcases he with he | ⟨-, -, rfl, -⟩
      · exact h.found n a op r he hk
      · have hfirst := h.absent hz _ _ hop hk
        refine absurd ⟨hfirst, rfl, ?_⟩ (hins ⟨"l0", "", 0⟩)
        rw [tr.version, ← puts, hz]
        rfl
    · exact h.found.exec tr hpos i q
  · intro hz
    rw [hputs] at hz
    exact h.absent hz
  · intro n args ho hk
    rcases h.live n args ho hk with hex | hrest
    · exact Or.inl hex.exec
    · exact Or.inr hrest
  · intro hpos hno
    rw [hputs] at hpos
    rw [last_of_not hins]
    exact h.clean hpos hno

end exec

/-- A step that executes nothing and calls nothing on `l0`. -/
theorem Guarded.of_quiet (h : Guarded kv tests) (hq : Quiet kv kv')
    (hop : ∀ n op, opOf kv' n = some op → op.key = "l0" → opOf kv n = some op) :
    Guarded kv' tests where
  test := fun t ht => (h.test t ht).of_quiet hq
  dated := h.dated.of_quiet hq (fun n args ho hk => Or.inl (hop n _ ho hk))
  found := h.found.of_quiet hq
  absent := by
    rw [hq.puts]
    intro hz n op ho hk
    exact h.absent hz n op (hop n op ho hk) hk
  live := by
    intro n args ho hk
    rw [hq.executed]
    exact h.live n args (hop n _ ho hk) hk
  clean := by
    rw [hq.puts, hq.last]
    exact h.clean

/-- The client `j` moves on, and leaves a `Put` only when it is done. -/
theorem Guarded.move (h : Guarded kv tests) (hj : tests[j]? = some t) (htest : TestOk kv t')
    (hleft : ∀ n, t.pc.waits n → Executed kv.log n ∧ last "l0" kv = some "") :
    Guarded kv (tests.set j t') where
  test := forall_mem_set h.test htest
  dated := h.dated
  found := h.found
  absent := h.absent
  live := by
    intro n args ho hk
    rcases h.live n args ho hk with hex | hfirst | ⟨u, hu, hwait⟩
    · exact Or.inl hex
    · exact Or.inr (Or.inl hfirst)
    · rcases eq_or_mem_set hj hu with rfl | hu
      · exact Or.inl (hleft n hwait).1
      · exact Or.inr (Or.inr ⟨u, hu, hwait⟩)
  clean := by
    intro hpos hno
    by_cases hwait : ∃ n, t.pc.waits n
    · obtain ⟨n, hwait⟩ := hwait
      exact (hleft n hwait).2
    · refine h.clean hpos ?_
      intro u hu n hun
      rcases eq_or_mem_set hj hu with rfl | hu
      · exact hwait ⟨n, hun⟩
      · exact hno u hu n hun

/-- The client `j` calls the Clerk on `l0`. -/
theorem Guarded.call (h : Guarded kv tests) (w : WellFormed kv) (hj : tests[j]? = some t)
    {clerk : ℕ} {op : Op} (hop : op = .put ⟨"l0", "", 0⟩ ∨ 0 < puts "l0" kv)
    (hput : ∀ args, op = .put args → args = ⟨"l0", "", 0⟩ ∨
      (t'.pc.waits kv.calls.length ∧ args.version = UInt64.ofNat (puts "l0" kv)))
    (htest : TestOk (kv.invoke clerk op) t') (hleft : ∀ n, t.pc.waits n → Executed kv.log n)
    (hwrites : ∀ n, t.pc.waits n → t'.pc.waits kv.calls.length) :
    Guarded (kv.invoke clerk op) (tests.set j t') := by
  have hq := quiet_invoke kv clerk op
  have hlt := (List.getElem?_eq_some_iff.mp hj).1
  refine ⟨?_, ?_, h.found.of_quiet hq, ?_, ?_, ?_⟩
  · exact forall_mem_set (fun u hu => (h.test u hu).of_quiet hq) htest
  · refine h.dated.of_quiet hq ?_
    intro n args ho hk
    rcases opOf_invoke_cases ho with ho | ⟨rfl, he⟩
    · exact Or.inl ho
    · refine Or.inr ⟨not_executed_new w, ?_⟩
      rcases hput args he.symm with rfl | ⟨-, hv⟩
      · exact ⟨0, Nat.zero_le _, rfl⟩
      · exact ⟨_, le_rfl, hv⟩
  · rw [hq.puts]
    intro hz n op' ho hk
    rcases opOf_invoke_cases ho with ho | ⟨-, rfl⟩
    · exact h.absent hz n op' ho hk
    · rcases hop with hop | hpos
      · exact hop
      · omega
  · intro n args ho hk
    rw [hq.executed]
    rcases opOf_invoke_cases ho with ho | ⟨rfl, he⟩
    · rcases h.live n args ho hk with hex | hfirst | ⟨u, hu, hwait⟩
      · exact Or.inl hex
      · exact Or.inr (Or.inl hfirst)
      · rcases eq_or_mem_set hj hu with rfl | hu
        · exact Or.inl (hleft n hwait)
        · exact Or.inr (Or.inr ⟨u, hu, hwait⟩)
    · rcases hput args he.symm with hfirst | ⟨hwait, -⟩
      · exact Or.inr (Or.inl hfirst)
      · exact Or.inr (Or.inr ⟨t', List.mem_set hlt t', hwait⟩)
  · rw [hq.puts, hq.last]
    intro hpos hno
    refine h.clean hpos ?_
    intro u hu n hun
    rcases eq_or_mem_set hj hu with rfl | hu
    · exact hno t' (List.mem_set hlt t') _ (hwrites n hun)
    · exact hno u hu n hun

end guarded

end DistributedSystems.LockTest
