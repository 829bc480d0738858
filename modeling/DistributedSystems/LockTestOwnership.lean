import DistributedSystems.LockTest

/-! # The locks of the clients

Every client has its own locks, and at every point of its code it knows whether it holds them
(`Owned`).  So a lock is released only while it is held, and forgetting the clients gives a run of
the locks under the condition of their invariant (`reachable_lock`).  At most one client is in the
critical section of the locks with one name (`Exclusive`). -/

namespace DistributedSystems.LockTest

open DistributedSystems.Kv DistributedSystems.Lock

/-! ### The locks of a client -/

/-- What a client knows about one of its locks. -/
inductive Mode where
  | free
  | acquiring
  | held
  | releasing
deriving DecidableEq, Repr

def Mode.Ok (c : Client) : Mode → Prop
  | .free => c.pc = .idle ∧ c.held = false
  | .acquiring => (c.held = false ∧ ∃ n, c.pc = .acquireGet n ∨ c.pc = .acquirePut n) ∨
      (c.pc = .idle ∧ c.held = true)
  | .held => c.pc = .idle ∧ c.held = true
  | .releasing => c.held = false ∧ ∃ n, c.pc = .idle ∨ c.pc = .releaseGet n ∨ c.pc = .releasePut n

def Pc.mode1 : Pc → Mode
  | .acquire1 | .acquire => .acquiring
  | .acquire2 | .get _ | .put _ _ | .clear _ _ | .fatal _ => .held
  | .release1 | .release => .releasing
  | .begin | .made1 | .made2 | .release2 | .first _ | .loop | .done => .free

def Pc.mode2 : Pc → Mode
  | .acquire2 => .acquiring
  | .release1 => .held
  | .release2 => .releasing
  | _ => .free

/-- The locks that a client has made, with their names and what it knows about them. -/
def Test.locks (names : Names) (t : Test) : List (ℕ × String × Mode) :=
  match t.pc with
  | .begin => []
  | .made1 => [(t.lk1, names.name1, .free)]
  | pc => [(t.lk1, names.name1, pc.mode1), (t.lk2, names.name2, pc.mode2)]

/-- The lock is there and does what its client thinks. -/
def Known (lock : Lock.State) (p : ℕ × String × Mode) : Prop :=
  ∃ c, lock.clients[p.1]? = some c ∧ c.lockname = p.2.1 ∧ p.2.2.Ok c

/-- No two clients share a lock. -/
structure Owned (names : Names) (s : State) : Prop where
  known : ∀ t ∈ s.tests, ∀ p ∈ t.locks names, Known s.lock p
  nodup : ∀ t ∈ s.tests, ((t.locks names).map Prod.fst).Nodup
  inj : ∀ (i j : ℕ) t t' p p', s.tests[i]? = some t → s.tests[j]? = some t' →
    p ∈ t.locks names → p' ∈ t'.locks names → p.1 = p'.1 → i = j

theorem Known.lt {lock : Lock.State} {p : ℕ × String × Mode} (h : Known lock p) :
    p.1 < lock.clients.length := by
  obtain ⟨c, hc, -⟩ := h
  exact (List.getElem?_eq_some_iff.mp hc).1

section owned

variable {names : Names} {s : State} {lock : Lock.State} {j : ℕ} {t t' : Test}

/-- The client `j` moves on and uses none but its own locks. -/
theorem Owned.move (h : Owned names s) (hj : s.tests[j]? = some t)
    (hframe : ∀ p, (∀ p' ∈ t'.locks names, p'.1 ≠ p.1) → Known s.lock p → Known lock p)
    (hnew : ∀ p ∈ t'.locks names, (∃ p' ∈ t.locks names, p'.1 = p.1) ∨
      s.lock.clients.length ≤ p.1)
    (hnodup : ((t'.locks names).map Prod.fst).Nodup)
    (hknown : ∀ p ∈ t'.locks names, Known lock p) : Owned names ((s.setLock lock).become j t') := by
  -- the locks of another client are not among those of this one
  have hother : ∀ (i : ℕ) u p p', i ≠ j → s.tests[i]? = some u → p ∈ u.locks names →
      p' ∈ t'.locks names → p'.1 ≠ p.1 := by
    intro i u p p' hij hi hp hp' he
    rcases hnew p' hp' with ⟨p₀, hp₀, he₀⟩ | hle
    · exact hij (h.inj i j u t p p₀ hi hj hp hp₀ (by rw [he₀, he]))
    · have := (h.known u (List.mem_of_getElem? hi) p hp).lt
      omega
  refine ⟨?_, ?_, ?_⟩
  · intro u hu p hp
    obtain ⟨i, hi⟩ := List.mem_iff_getElem?.mp hu
    rcases getElem?_set_cases hi with ⟨-, rfl⟩ | ⟨hij, hi⟩
    · exact hknown p hp
    · refine hframe p ?_ (h.known u (List.mem_of_getElem? hi) p hp)
      exact fun p' hp' => hother i u p p' hij hi hp hp'
  · exact forall_mem_set h.nodup hnodup
  · intro i k u u' p p' hi hk hp hp' he
    rcases getElem?_set_cases hi with ⟨hij, hu⟩ | ⟨hij, hi⟩
    · rcases getElem?_set_cases hk with ⟨hkj, -⟩ | ⟨hkj, hk⟩
      · rw [hij, hkj]
      · exact absurd he (hother k u' p' p hkj hk hp' (hu ▸ hp))
    · rcases getElem?_set_cases hk with ⟨-, hu'⟩ | ⟨-, hk⟩
      · exact absurd he.symm (hother i u p p' hij hi hp (hu' ▸ hp'))
      · exact h.inj i k u u' p p' hi hk hp hp' he

end owned

section known

variable {lock lock' : Lock.State} {l : ℕ} {name : String} {p : ℕ × String × Mode}

theorem Known.congr (h : Known lock p) (hc : lock'.clients = lock.clients) : Known lock' p := by
  unfold Known
  rw [hc]
  exact h

/-- Another lock has moved. -/
theorem Known.of_ne {c : Client} (h : Known lock p) (hc : lock'.clients = lock.clients.set l c)
    (hne : l ≠ p.1) : Known lock' p := by
  unfold Known
  rw [hc, List.getElem?_set_ne hne]
  exact h

theorem Known.concat {c : Client} (h : Known lock p) (hc : lock'.clients = lock.clients ++ [c]) :
    Known lock' p := by
  unfold Known
  rw [hc, List.getElem?_append_left h.lt]
  exact h

/-- A lock has moved in a way that its client expects. -/
theorem Known.set {c c' : Client} (h : Known lock p) (hl : lock.clients[l]? = some c)
    (hc : lock'.clients = lock.clients.set l c') (hname : c'.lockname = c.lockname)
    (hmode : ∀ m : Mode, m.Ok c → m.Ok c') : Known lock' p := by
  by_cases hne : l = p.1
  · subst hne
    obtain ⟨c₀, hc₀, hn₀, hm₀⟩ := h
    rw [hl, Option.some.injEq] at hc₀
    subst hc₀
    refine ⟨c', ?_, hname.trans hn₀, hmode _ hm₀⟩
    rw [hc, List.getElem?_set_self (List.getElem?_eq_some_iff.mp hl).1]
  · exact h.of_ne hc hne

/-- The code of the locks runs on as the clients expect. -/
theorem Known.resume (h : Known lock p) (hs : Lock.Stepped lock (.resume l) lock') :
    Known lock' p := by
  cases hs with
  | tryPut hc hpc hr hv =>
      refine h.set hc rfl rfl ?_
      intro m hm
      cases m <;> simp_all [Mode.Ok]
  | tryAgain hc hpc hr =>
      refine h.set hc rfl rfl ?_
      intro m hm
      cases m <;> rcases hpc with hpc | hpc <;> simp_all [Mode.Ok]
  | acquired hc hpc hr =>
      refine h.set hc rfl rfl ?_
      intro m hm
      cases m <;> simp_all [Mode.Ok]
  | free hc hpc hr he hv =>
      refine h.set hc rfl rfl ?_
      intro m hm
      cases m <;> simp_all [Mode.Ok]
  | nothing hc hpc hr hv =>
      refine h.set hc rfl rfl ?_
      intro m hm
      cases m <;> simp_all [Mode.Ok]
  | released hc hpc hr =>
      refine h.set hc rfl rfl ?_
      intro m hm
      cases m <;> simp_all [Mode.Ok]

theorem known_makeLock (hs : lock.step (.makeLock name) = some lock') :
    lock'.clients = lock.clients ++ [⟨name, idOf (lock.count + 1), .idle, false⟩] ∧
      Known lock' (lock.clients.length, name, .free) := by
  cases hs
  exact ⟨rfl, ⟨name, idOf (lock.count + 1), .idle, false⟩, by simp, rfl, rfl, rfl⟩

/-- `Acquire` is called. -/
theorem known_acquire (hs : lock.step (.acquire l) = some lock') (h : Known lock (l, name, .free)) :
    (∃ c, lock'.clients = lock.clients.set l c) ∧ Known lock' (l, name, .acquiring) := by
  cases Lock.State.step_cases hs with
  | @acquire _ c hc hpc =>
      refine ⟨⟨_, rfl⟩, { c with pc := .acquireGet lock.kv.calls.length }, ?_, ?_, ?_⟩
      · exact List.getElem?_set_self (List.getElem?_eq_some_iff.mp hc).1
      all_goals
        obtain ⟨c₀, hc₀, hn₀, hm₀⟩ := h
        rw [hc, Option.some.injEq] at hc₀
        subst hc₀
      · exact hn₀
      · exact Or.inl ⟨hm₀.2, _, Or.inl rfl⟩

/-- `Release` is called. -/
theorem known_release (hs : lock.step (.release l) = some lock') (h : Known lock (l, name, .held)) :
    (∃ c, lock'.clients = lock.clients.set l c) ∧ Known lock' (l, name, .releasing) := by
  cases Lock.State.step_cases hs with
  | @release _ c hc hpc =>
      refine ⟨⟨_, rfl⟩, { c with held := false, pc := .releaseGet lock.kv.calls.length }, ?_, ?_,
        ?_⟩
      · exact List.getElem?_set_self (List.getElem?_eq_some_iff.mp hc).1
      · obtain ⟨c₀, hc₀, hn₀, -⟩ := h
        rw [hc, Option.some.injEq] at hc₀
        subst hc₀
        exact hn₀
      · exact ⟨rfl, _, Or.inr (Or.inl rfl)⟩

/-- `Acquire` has returned. -/
theorem Known.acquired (h : Known lock (l, name, .acquiring)) (hret : returned lock l = true) :
    Known lock (l, name, .held) := by
  obtain ⟨c, hc, hname, hm⟩ := h
  have hidle : c.pc = .idle := by simpa [returned, hc] using hret
  refine ⟨c, hc, hname, hidle, ?_⟩
  rcases hm with ⟨-, n, hpc | hpc⟩ | ⟨-, hheld⟩
  · rw [hidle] at hpc
    cases hpc
  · rw [hidle] at hpc
    cases hpc
  · exact hheld

/-- `Release` has returned. -/
theorem Known.released (h : Known lock (l, name, .releasing)) (hret : returned lock l = true) :
    Known lock (l, name, .free) := by
  obtain ⟨c, hc, hname, hheld, -⟩ := h
  have hidle : c.pc = .idle := by simpa [returned, hc] using hret
  exact ⟨c, hc, hname, hidle, hheld⟩

end known

section owned

variable {names : Names} {s s' : State} {lock : Lock.State} {j : ℕ} {t t' : Test}

/-- A client that has both locks. -/
def Pc.begun : Pc → Bool
  | .begin | .made1 => false
  | _ => true

theorem Test.locks_of_begun (h : t.pc.begun = true) : t.locks names =
    [(t.lk1, names.name1, t.pc.mode1), (t.lk2, names.name2, t.pc.mode2)] := by
  unfold Test.locks
  cases hpc : t.pc <;> simp_all [Pc.begun]

/-- What a client with both locks knows about them. -/
theorem Owned.both {pc : Pc} (h : Owned names s) (ht : t ∈ s.tests) (hpc : t.pc = pc)
    (hb : pc.begun = true) : Known s.lock (t.lk1, names.name1, pc.mode1) ∧
      Known s.lock (t.lk2, names.name2, pc.mode2) ∧ t.lk1 ≠ t.lk2 := by
  subst hpc
  have hlocks : t.locks names = _ := Test.locks_of_begun hb
  refine ⟨h.known t ht _ (by rw [hlocks]; simp), h.known t ht _ (by rw [hlocks]; simp), ?_⟩
  have hnodup := h.nodup t ht
  rw [hlocks] at hnodup
  simpa using hnodup

/-- A client with both locks uses one of them or the Clerk. -/
theorem Owned.use {pc : Pc} (h : Owned names s) (hj : s.tests[j]? = some t) (hpc : t.pc = pc)
    (hb : pc.begun = true) (hb' : t'.pc.begun = true) (h1 : t'.lk1 = t.lk1) (h2 : t'.lk2 = t.lk2)
    (hc : lock.clients = s.lock.clients ∨
      ∃ l c, (l = t.lk1 ∨ l = t.lk2) ∧ lock.clients = s.lock.clients.set l c)
    (hk1 : Known lock (t.lk1, names.name1, t'.pc.mode1))
    (hk2 : Known lock (t.lk2, names.name2, t'.pc.mode2)) :
    Owned names ((s.setLock lock).become j t') := by
  subst hpc
  have hlocks : t.locks names = _ := Test.locks_of_begun hb
  have hlocks' : t'.locks names =
      [(t.lk1, names.name1, t'.pc.mode1), (t.lk2, names.name2, t'.pc.mode2)] := by
    rw [Test.locks_of_begun hb', h1, h2]
  refine h.move hj ?_ ?_ ?_ ?_
  · intro p hp hknown
    rw [hlocks'] at hp
    rcases hc with hc | ⟨l, c, hl, hc⟩
    · exact hknown.congr hc
    · refine hknown.of_ne hc ?_
      rcases hl with rfl | rfl
      · exact hp (t.lk1, _) (List.mem_cons_self)
      · exact hp (t.lk2, _) (List.mem_cons_of_mem _ List.mem_cons_self)
  · intro p hp
    left
    rw [hlocks'] at hp
    simp only [List.mem_cons, List.not_mem_nil, or_false] at hp
    rw [hlocks]
    rcases hp with rfl | rfl
    · exact ⟨_, List.mem_cons_self, rfl⟩
    · exact ⟨_, List.mem_cons_of_mem _ List.mem_cons_self, rfl⟩
  · rw [hlocks']
    simpa using (h.both (List.mem_of_getElem? hj) rfl hb).2.2
  · intro p hp
    rw [hlocks'] at hp
    simp only [List.mem_cons, List.not_mem_nil, or_false] at hp
    rcases hp with rfl | rfl
    · exact hk1
    · exact hk2

theorem Owned.call {a : Lock.Action} (h : Owned names s) (hj : s.tests[j]? = some t)
    (hn : Next names s.lock t t' (some a)) (hs : s.lock.step a = some lock) :
    Owned names ((s.setLock lock).become j t') := by
  have ht := List.mem_of_getElem? hj
  cases hn with
  | make1 hpc =>
      obtain ⟨hc, hnew⟩ := known_makeLock hs
      refine h.move hj (fun p _ hp => hp.concat hc) ?_ ?_ ?_ <;>
        simp [Test.locks, hnew]
  | make2 hpc =>
      obtain ⟨hc, hnew⟩ := known_makeLock hs
      have hk1 : Known s.lock (t.lk1, names.name1, .free) :=
        h.known t ht _ (by simp [Test.locks, hpc])
      have hlt := hk1.lt
      refine h.move hj (fun p _ hp => hp.concat hc) ?_ ?_ ?_
      · simp [Test.locks, hpc]
      · simpa [Test.locks] using hlt.ne
      · simpa [Test.locks, Pc.mode1, Pc.mode2] using ⟨hk1.concat hc, hnew⟩
  | acquire1 hpc =>
      obtain ⟨hk1, hk2, hne⟩ := h.both ht hpc rfl
      obtain ⟨⟨c, hc⟩, hnew⟩ := known_acquire hs hk1
      exact h.use hj hpc rfl rfl rfl rfl (Or.inr ⟨_, c, Or.inl rfl, hc⟩) hnew
        (hk2.of_ne hc hne)
  | acquire2 hpc hret =>
      obtain ⟨hk1, hk2, hne⟩ := h.both ht hpc rfl
      obtain ⟨⟨c, hc⟩, hnew⟩ := known_acquire hs hk2
      exact h.use hj hpc rfl rfl rfl rfl (Or.inr ⟨_, c, Or.inr rfl, hc⟩)
        ((hk1.acquired hret).of_ne hc hne.symm) hnew
  | release1 hpc hret =>
      obtain ⟨hk1, hk2, hne⟩ := h.both ht hpc rfl
      obtain ⟨⟨c, hc⟩, hnew⟩ := known_release hs hk1
      exact h.use hj hpc rfl rfl rfl rfl (Or.inr ⟨_, c, Or.inl rfl, hc⟩) hnew
        ((hk2.acquired hret).of_ne hc hne)
  | release2 hpc hret =>
      obtain ⟨hk1, hk2, hne⟩ := h.both ht hpc rfl
      obtain ⟨⟨c, hc⟩, hnew⟩ := known_release hs hk2
      exact h.use hj hpc rfl rfl rfl rfl (Or.inr ⟨_, c, Or.inr rfl, hc⟩)
        ((hk1.released hret).of_ne hc hne.symm) hnew
  | first hpc hret =>
      obtain ⟨hk1, hk2, -⟩ := h.both ht hpc rfl
      cases hs
      exact h.use hj hpc rfl rfl rfl rfl (Or.inl rfl) hk1 (hk2.released hret)
  | acquire hpc =>
      obtain ⟨hk1, hk2, hne⟩ := h.both ht hpc rfl
      obtain ⟨⟨c, hc⟩, hnew⟩ := known_acquire hs hk1
      exact h.use hj hpc rfl rfl rfl rfl (Or.inr ⟨_, c, Or.inl rfl, hc⟩) hnew
        (hk2.of_ne hc hne)
  | get hpc hret =>
      obtain ⟨hk1, hk2, -⟩ := h.both ht hpc rfl
      cases hs
      exact h.use hj hpc rfl rfl rfl rfl (Or.inl rfl) (hk1.acquired hret) hk2
  | put hpc hr =>
      obtain ⟨hk1, hk2, -⟩ := h.both ht hpc rfl
      cases hs
      exact h.use hj hpc rfl rfl rfl rfl (Or.inl rfl) hk1 hk2
  | clear hpc hr =>
      obtain ⟨hk1, hk2, -⟩ := h.both ht hpc rfl
      cases hs
      exact h.use hj hpc rfl rfl rfl rfl (Or.inl rfl) hk1 hk2
  | release hpc hr =>
      obtain ⟨hk1, hk2, hne⟩ := h.both ht hpc rfl
      obtain ⟨⟨c, hc⟩, hnew⟩ := known_release hs hk1
      exact h.use hj hpc rfl rfl rfl rfl (Or.inr ⟨_, c, Or.inl rfl, hc⟩) hnew
        (hk2.of_ne hc hne)

theorem Owned.moves (h : Owned names s) (hj : s.tests[j]? = some t)
    (hn : Next names s.lock t t' none) : Owned names (s.become j t') := by
  have ht := List.mem_of_getElem? hj
  cases hn with
  | begun hpc hr =>
      obtain ⟨hk1, hk2, -⟩ := h.both ht hpc rfl
      exact h.use hj hpc rfl rfl rfl rfl (Or.inl rfl) hk1 hk2
  | again hpc hret =>
      obtain ⟨hk1, hk2, -⟩ := h.both ht hpc rfl
      exact h.use hj hpc rfl rfl rfl rfl (Or.inl rfl) (hk1.released hret) hk2
  | getFailed f hpc hr hbad =>
      obtain ⟨hk1, hk2, -⟩ := h.both ht hpc rfl
      exact h.use hj hpc rfl rfl rfl rfl (Or.inl rfl) hk1 hk2
  | putFailed f hpc hr hbad =>
      rcases hpc with hpc | hpc
      all_goals
        obtain ⟨hk1, hk2, -⟩ := h.both ht hpc rfl
        exact h.use hj hpc rfl rfl rfl rfl (Or.inl rfl) hk1 hk2

/-- The locks move on without a client. -/
theorem Owned.setLock (h : Owned names s) (hknown : ∀ p, Known s.lock p → Known lock p) :
    Owned names (s.setLock lock) where
  known := fun t ht p hp => hknown p (h.known t ht p hp)
  nodup := h.nodup
  inj := h.inj

theorem Owned.step {a : Action} (h : Owned names s) (hs : Stepped names s a s') :
    Owned names s' := by
  cases hs with
  | spawn =>
      refine ⟨?_, ?_, ?_⟩
      · intro t ht
        rcases List.mem_append.mp ht with ht | ht
        · exact h.known t ht
        · rw [List.mem_singleton.mp ht]
          simp [Test.locks]
      · intro t ht
        rcases List.mem_append.mp ht with ht | ht
        · exact h.nodup t ht
        · rw [List.mem_singleton.mp ht]
          simp [Test.locks]
      · intro i j t t' p p' hi hj hp hp' he
        rcases getElem?_concat_cases hi with ⟨-, rfl⟩ | hi
        · cases hp
        · rcases getElem?_concat_cases hj with ⟨-, rfl⟩ | hj
          · cases hp'
          · exact h.inj i j t t' p p' hi hj hp hp' he
  | call ht hn hs => exact h.call ht hn hs
  | move ht hn => exact h.moves ht hn
  | finish ht hpc =>
      obtain ⟨hk1, hk2, -⟩ := h.both (List.mem_of_getElem? ht) hpc rfl
      exact h.use ht hpc rfl rfl rfl rfl (Or.inl rfl) hk1 hk2
  | resume hs => exact h.setLock (fun p hp => hp.resume (Lock.State.step_cases hs))
  | net hs =>
      refine h.setLock (fun p hp => hp.congr ?_)
      cases Lock.State.step_cases hs with
      | net ha hk => rfl

theorem reachable_owned {C : State → Action → Prop} (h : (system names).ReachableBy C s) :
    Owned names s := by
  refine h.invariant (I := Owned names) ⟨?_, ?_, ?_⟩ ?_
  · simp [system, State.init]
  · simp [system, State.init]
  · simp [system, State.init]
  · intro s a s' _ ih _ hstep
    exact ih.step (State.step_cases hstep)

section proper

variable {K : String} (hK : K ≠ "l0")

include hK

/-- A client releases a lock only while it holds it, and writes the key of a lock only through the
lock. -/
theorem Owned.proper {a : Lock.Action} (h : Owned names s) (hj : s.tests[j]? = some t)
    (hn : Next names s.lock t t' (some a)) : Proper K s.lock a := by
  have ht := List.mem_of_getElem? hj
  have hheld : ∀ {l : ℕ} {name : String}, Known s.lock (l, name, .held) →
      Proper K s.lock (.release l) := by
    rintro l name ⟨c, hc, -, hm⟩ d hd -
    rw [Option.mem_def, hc, Option.some.injEq] at hd
    exact hd ▸ hm.2
  cases hn with
  | release1 hpc hret => exact hheld (h.both ht hpc rfl).1
  | release2 hpc hret => exact hheld (h.both ht hpc rfl).2.1
  | release hpc hr => exact hheld (h.both ht hpc rfl).1
  | first hpc hret => exact hK.symm
  | put hpc hr => exact hK.symm
  | clear hpc hr => exact hK.symm
  | _ => trivial

/-- Forgetting the clients. -/
theorem reachable_lock {C : State → Action → Prop} (h : (system names).ReachableBy C s) :
    Lock.system.ReachableBy (Proper K) s.lock := by
  refine h.simulate State.lock rfl ?_
  intro s a s' hr _ hstep
  cases State.step_cases hstep with
  | spawn => exact Or.inl rfl
  | call ht hn hs => exact Or.inr ⟨_, (reachable_owned hr).proper hK ht hn, hs⟩
  | move ht hn => exact Or.inl rfl
  | finish ht hpc => exact Or.inl rfl
  | @resume l lock hs => exact Or.inr ⟨.resume l, trivial, hs⟩
  | @net a lock hs => exact Or.inr ⟨.net a, trivial, hs⟩

end proper

end owned

/-! ### Critical sections -/

/-- The client is between the return of `Acquire` and the call of `Release` of the lock. -/
def Inside (lock : Lock.State) (p : ℕ × String × Mode) : Prop :=
  p.2.2 = .held ∨ (p.2.2 = .acquiring ∧ returned lock p.1 = true)

/-- At most one client is in the critical section of the locks with one name. -/
def Exclusive (names : Names) (s : State) : Prop :=
  ∀ (i j : ℕ) t t' p p', s.tests[i]? = some t → s.tests[j]? = some t' → p ∈ t.locks names →
    p' ∈ t'.locks names → p.2.1 = p'.2.1 → Inside s.lock p → Inside s.lock p' → i = j

section exclusive

variable {names : Names} {s : State}

/-- A lock in whose section a client is, is held. -/
theorem Known.held {lock : Lock.State} {p : ℕ × String × Mode} (h : Known lock p)
    (hin : Inside lock p) : Known lock (p.1, p.2.1, .held) := by
  obtain ⟨l, name, mode⟩ := p
  rcases hin with rfl | ⟨rfl, hret⟩
  · exact h
  · exact h.acquired hret

theorem Test.name_of_mem_locks {t : Test} {p : ℕ × String × Mode} (h : p ∈ t.locks names) :
    p.2.1 = names.name1 ∨ p.2.1 = names.name2 := by
  unfold Test.locks at h
  split at h <;> simp only [List.mem_cons, List.not_mem_nil, or_false] at h
  · exact Or.inl (h ▸ rfl)
  · rcases h with rfl | rfl
    · exact Or.inl rfl
    · exact Or.inr rfl

theorem Owned.exclusive (h : Owned names s)
    (I : ∀ K, K = names.name1 ∨ K = names.name2 → LockInv K s.lock) : Exclusive names s := by
  intro i j t t' p p' hi hj hp hp' hname hin hin'
  have I := I p.2.1 (Test.name_of_mem_locks hp)
  -- the key of the lock has the id of the one who holds it
  have hlast : ∀ {t p'}, t ∈ s.tests → p' ∈ t.locks names → p.2.1 = p'.2.1 → Inside s.lock p' →
      ∃ c, s.lock.clients[p'.1]? = some c ∧ last p.2.1 s.lock.kv = some (lockedBy c.id) := by
    intro t p' ht hp' hname hin
    obtain ⟨c, hc, hlock, hheld⟩ := (h.known t ht p' hp').held hin
    exact ⟨c, hc, (I.client c (List.mem_of_getElem? hc) (hlock.trans hname.symm)).1 hheld.2⟩
  obtain ⟨c, hc, hl⟩ := hlast (List.mem_of_getElem? hi) hp rfl hin
  obtain ⟨c', hc', hl'⟩ := hlast (List.mem_of_getElem? hj) hp' hname hin'
  have hid := lockedBy_injective (Option.some.inj (hl.symm.trans hl'))
  exact h.inj i j t t' p p' hi hj hp hp' (I.named.eq_of_id hc hc' hid)

theorem reachable_exclusive {C : State → Action → Prop} (h : (system names).ReachableBy C s)
    (hb : FewPuts s.lock.kv) : Exclusive names s := by
  refine (reachable_owned h).exclusive ?_
  rintro K (rfl | rfl)
  · exact reachable_lockInv (reachable_lock names.ne1 h) (hb _)
  · exact reachable_lockInv (reachable_lock names.ne2 h) (hb _)

end exclusive

end DistributedSystems.LockTest
