import DistributedSystems.LockSafety

/-! # The clients of the lock tests

`oneClient` of `kvsrv1/lock/lock_test.go`.  Each client has two locks.  It first takes both of them
and releases them in the same order.  Then, again and again, in the critical section of the first
one, it reads the key `l0`, writes its own number there and clears the key again, all through a
Clerk that may lose and repeat its messages.  A client that finds the number of another client, or
whose `Put` is refused, ends the test with `Fatalf`.

The names of the locks are not `l0`; in the tests they are random strings of twelve letters. -/

namespace DistributedSystems.LockTest

open DistributedSystems.Kv DistributedSystems.Lock

/-! ### The program of a client -/

/-- The names of the two locks, which are no names of the key `l0`. -/
structure Names where
  name1 : String
  name2 : String
  ne1 : name1 ≠ "l0"
  ne2 : name2 ≠ "l0"

/-- The calls of `Fatalf`. -/
inductive Fatal where
  | twoClients (val : String)
  | getFailed (err : Err)
  | putFailed (err : Err)
deriving DecidableEq, Repr

/-- Where `oneClient` is: before a call of `MakeLock`, in a call of `Acquire` or `Release`, or
waiting for the Clerk. -/
inductive Pc where
  | begin
  | made1
  | made2
  | acquire1
  | acquire2
  | release1
  | release2
  /-- In the `Put` that makes the key. -/
  | first (call : ℕ)
  /-- At the `select`. -/
  | loop
  | acquire
  | get (call : ℕ)
  /-- In the `Put` of the client's number. -/
  | put (call : ℕ) (ver : Tversion)
  /-- In the `Put` that clears the key. -/
  | clear (call : ℕ) (ver : Tversion)
  | release
  | done
  | fatal (f : Fatal)
deriving DecidableEq, Repr

structure Test where
  me : ℕ
  i : ℕ
  lk1 : ℕ
  lk2 : ℕ
  pc : Pc
deriving DecidableEq, Repr

/-- The call of `Acquire` or `Release` of the lock has returned. -/
def returned (s : Lock.State) (l : ℕ) : Bool := s.clients[l]?.any (fun c => c.pc = .idle)

/-- What `oneClient` does next, and how it uses a lock or the Clerk. -/
def next (names : Names) (s : Lock.State) (t : Test) : Option (Test × Option Lock.Action) :=
  match t.pc with
  | .begin => some ({ t with lk1 := s.clients.length, pc := .made1 }, some (.makeLock names.name1))
  | .made1 => some ({ t with lk2 := s.clients.length, pc := .made2 }, some (.makeLock names.name2))
  | .made2 => some ({ t with pc := .acquire1 }, some (.acquire t.lk1))
  | .acquire1 =>
      if returned s t.lk1 then some ({ t with pc := .acquire2 }, some (.acquire t.lk2)) else none
  | .acquire2 =>
      if returned s t.lk2 then some ({ t with pc := .release1 }, some (.release t.lk1)) else none
  | .release1 =>
      if returned s t.lk1 then some ({ t with pc := .release2 }, some (.release t.lk2)) else none
  | .release2 =>
      if returned s t.lk2 then
        some ({ t with pc := .first s.kv.calls.length }, some (.app t.me (.put ⟨"l0", "", 0⟩)))
      else none
  | .first n => if (resultOf s.kv n).isSome then some ({ t with pc := .loop }, none) else none
  | .loop => some ({ t with pc := .acquire }, some (.acquire t.lk1))
  | .acquire =>
      if returned s t.lk1 then
        some ({ t with pc := .get s.kv.calls.length }, some (.app t.me (.get ⟨"l0"⟩)))
      else none
  | .get n =>
      match resultOf s.kv n with
      | some (.get val ver err) =>
          if err = .ok then
            if val ≠ "" then some ({ t with pc := .fatal (.twoClients val) }, none)
            else some ({ t with pc := .put s.kv.calls.length ver },
              some (.app t.me (.put ⟨"l0", toString t.me, ver⟩)))
          else some ({ t with pc := .fatal (.getFailed err) }, none)
      | _ => none
  | .put n ver =>
      match resultOf s.kv n with
      | some (.put err) =>
          if err = .ok ∨ err = .errMaybe then
            some ({ t with pc := .clear s.kv.calls.length ver },
              some (.app t.me (.put ⟨"l0", "", ver + 1⟩)))
          else some ({ t with pc := .fatal (.putFailed err) }, none)
      | _ => none
  | .clear n _ =>
      match resultOf s.kv n with
      | some (.put err) =>
          if err = .ok ∨ err = .errMaybe then
            some ({ t with pc := .release }, some (.release t.lk1))
          else some ({ t with pc := .fatal (.putFailed err) }, none)
      | _ => none
  | .release =>
      if returned s t.lk1 then some ({ t with i := t.i + 1, pc := .loop }, none) else none
  | .done => none
  | .fatal _ => none

structure State where
  lock : Lock.State
  tests : List Test

/-- `spawn`: a new client.  `run`: a client runs on.  `finish`: a client at its `select` is told to
stop.  `resume`: the code of a lock runs on.  `net`: the network, the server or a Clerk. -/
inductive Action where
  | spawn
  | run (j : ℕ)
  | finish (j : ℕ)
  | resume (l : ℕ)
  | net (a : Kv.Action)
deriving DecidableEq, Repr

namespace State

def init : State := ⟨Lock.State.init, []⟩

/-- The client `j` moves on. -/
@[simps] def become (s : State) (j : ℕ) (t : Test) : State := { s with tests := s.tests.set j t }

@[simps] def setLock (s : State) (lock : Lock.State) : State := { s with lock }

def step (names : Names) (s : State) : Action → Option State
  | .spawn => some { s with tests := s.tests ++ [⟨s.tests.length, 1, 0, 0, .begin⟩] }
  | .run j => do
      let t ← s.tests[j]?
      let r ← next names s.lock t
      match r.2 with
      | some a => (s.lock.step a).map (fun lock => (s.setLock lock).become j r.1)
      | none => some (s.become j r.1)
  | .finish j => do
      let t ← s.tests[j]?
      if t.pc = .loop then some (s.become j { t with pc := .done }) else none
  | .resume l => (s.lock.step (.resume l)).map s.setLock
  | .net a => (s.lock.step (.net a)).map s.setLock

end State

def system (names : Names) : Lts State Action := ⟨State.init, State.step names⟩

/-! ### What a step can do -/

/-- The inversion of `next`. -/
inductive Next (names : Names) (s : Lock.State) (t : Test) : Test → Option Lock.Action → Prop
  | make1 (hpc : t.pc = .begin) : Next names s t
      { t with lk1 := s.clients.length, pc := .made1 } (some (.makeLock names.name1))
  | make2 (hpc : t.pc = .made1) : Next names s t
      { t with lk2 := s.clients.length, pc := .made2 } (some (.makeLock names.name2))
  | acquire1 (hpc : t.pc = .made2) :
      Next names s t { t with pc := .acquire1 } (some (.acquire t.lk1))
  | acquire2 (hpc : t.pc = .acquire1) (hret : returned s t.lk1 = true) :
      Next names s t { t with pc := .acquire2 } (some (.acquire t.lk2))
  | release1 (hpc : t.pc = .acquire2) (hret : returned s t.lk2 = true) :
      Next names s t { t with pc := .release1 } (some (.release t.lk1))
  | release2 (hpc : t.pc = .release1) (hret : returned s t.lk1 = true) :
      Next names s t { t with pc := .release2 } (some (.release t.lk2))
  | first (hpc : t.pc = .release2) (hret : returned s t.lk2 = true) :
      Next names s t { t with pc := .first s.kv.calls.length }
        (some (.app t.me (.put ⟨"l0", "", 0⟩)))
  | begun {n : ℕ} {r : Ret} (hpc : t.pc = .first n) (hr : resultOf s.kv n = some r) :
      Next names s t { t with pc := .loop } none
  | acquire (hpc : t.pc = .loop) : Next names s t { t with pc := .acquire } (some (.acquire t.lk1))
  | get (hpc : t.pc = .acquire) (hret : returned s t.lk1 = true) :
      Next names s t { t with pc := .get s.kv.calls.length } (some (.app t.me (.get ⟨"l0"⟩)))
  | put {n : ℕ} {ver : Tversion} (hpc : t.pc = .get n)
      (hr : resultOf s.kv n = some (.get "" ver .ok)) :
      Next names s t { t with pc := .put s.kv.calls.length ver }
        (some (.app t.me (.put ⟨"l0", toString t.me, ver⟩)))
  | clear {n : ℕ} {ver : Tversion} {err : Err} (hpc : t.pc = .put n ver)
      (hr : resultOf s.kv n = some (.put err)) :
      Next names s t { t with pc := .clear s.kv.calls.length ver }
        (some (.app t.me (.put ⟨"l0", "", ver + 1⟩)))
  | release {n : ℕ} {ver : Tversion} {err : Err} (hpc : t.pc = .clear n ver)
      (hr : resultOf s.kv n = some (.put err)) :
      Next names s t { t with pc := .release } (some (.release t.lk1))
  | again (hpc : t.pc = .release) (hret : returned s t.lk1 = true) :
      Next names s t { t with i := t.i + 1, pc := .loop } none
  | getFailed {n : ℕ} {val : String} {ver : Tversion} {err : Err} (f : Fatal) (hpc : t.pc = .get n)
      (hr : resultOf s.kv n = some (.get val ver err)) (hbad : val ≠ "" ∨ err ≠ .ok) :
      Next names s t { t with pc := .fatal f } none
  | putFailed {n : ℕ} {ver : Tversion} {err : Err} (f : Fatal)
      (hpc : t.pc = .put n ver ∨ t.pc = .clear n ver) (hr : resultOf s.kv n = some (.put err))
      (hbad : err ≠ .ok ∧ err ≠ .errMaybe) : Next names s t { t with pc := .fatal f } none

theorem next_cases {names : Names} {s : Lock.State} {t : Test} {r : Test × Option Lock.Action}
    (h : next names s t = some r) : Next names s t r.1 r.2 := by
  unfold next at h
  split at h
  · rename_i hpc
    cases h
    exact .make1 hpc
  · rename_i hpc
    cases h
    exact .make2 hpc
  · rename_i hpc
    cases h
    exact .acquire1 hpc
  · rename_i hpc
    split_ifs at h with hret
    cases h
    exact .acquire2 hpc hret
  · rename_i hpc
    split_ifs at h with hret
    cases h
    exact .release1 hpc hret
  · rename_i hpc
    split_ifs at h with hret
    cases h
    exact .release2 hpc hret
  · rename_i hpc
    split_ifs at h with hret
    cases h
    exact .first hpc hret
  · rename_i hpc
    split_ifs at h with hr
    cases h
    obtain ⟨r, hr⟩ := Option.isSome_iff_exists.mp hr
    exact .begun hpc hr
  · rename_i hpc
    cases h
    exact .acquire hpc
  · rename_i hpc
    split_ifs at h with hret
    cases h
    exact .get hpc hret
  · rename_i hpc
    split at h
    · rename_i val ver err hr
      split_ifs at h with herr hval
      · cases h
        exact .getFailed _ hpc hr (Or.inl hval)
      · cases h
        rw [herr, not_not.mp hval] at hr
        exact .put hpc hr
      · cases h
        exact .getFailed _ hpc hr (Or.inr herr)
    · cases h
  · rename_i hpc
    split at h
    · rename_i err hr
      split_ifs at h with herr
      · cases h
        exact .clear hpc hr
      · cases h
        exact .putFailed _ (Or.inl hpc) hr (not_or.mp herr)
    · cases h
  · rename_i hpc
    split at h
    · rename_i err hr
      split_ifs at h with herr
      · cases h
        exact .release hpc hr
      · cases h
        exact .putFailed _ (Or.inr hpc) hr (not_or.mp herr)
    · cases h
  · rename_i hpc
    split_ifs at h with hret
    cases h
    exact .again hpc hret
  · cases h
  · cases h

/-- The inversion of `State.step`. -/
inductive Stepped (names : Names) (s : State) : Action → State → Prop
  | spawn : Stepped names s .spawn
      { s with tests := s.tests ++ [⟨s.tests.length, 1, 0, 0, .begin⟩] }
  | call {j : ℕ} {t t' : Test} {a : Lock.Action} {lock : Lock.State} (ht : s.tests[j]? = some t)
      (hn : Next names s.lock t t' (some a)) (hs : s.lock.step a = some lock) :
      Stepped names s (.run j) ((s.setLock lock).become j t')
  | move {j : ℕ} {t t' : Test} (ht : s.tests[j]? = some t) (hn : Next names s.lock t t' none) :
      Stepped names s (.run j) (s.become j t')
  | finish {j : ℕ} {t : Test} (ht : s.tests[j]? = some t) (hpc : t.pc = .loop) :
      Stepped names s (.finish j) (s.become j { t with pc := .done })
  | resume {l : ℕ} {lock : Lock.State} (hs : s.lock.step (.resume l) = some lock) :
      Stepped names s (.resume l) (s.setLock lock)
  | net {a : Kv.Action} {lock : Lock.State} (hs : s.lock.step (.net a) = some lock) :
      Stepped names s (.net a) (s.setLock lock)

theorem State.step_cases {names : Names} {s s' : State} {a : Action}
    (h : s.step names a = some s') : Stepped names s a s' := by
  cases a with
  | spawn =>
      cases h
      exact .spawn
  | run j =>
      obtain ⟨t, ht, h⟩ := Option.bind_eq_some_iff.mp h
      obtain ⟨⟨t', a⟩, hn, h⟩ := Option.bind_eq_some_iff.mp h
      cases a with
      | some a =>
          obtain ⟨lock, hs, rfl⟩ := Option.map_eq_some_iff.mp h
          exact .call ht (next_cases hn) hs
      | none =>
          cases h
          exact .move ht (next_cases hn)
  | finish j =>
      obtain ⟨t, ht, h⟩ := Option.bind_eq_some_iff.mp h
      split_ifs at h with hpc
      cases h
      exact .finish ht hpc
  | resume l =>
      obtain ⟨lock, hs, rfl⟩ := Option.map_eq_some_iff.mp h
      exact .resume hs
  | net a =>
      obtain ⟨lock, hs, rfl⟩ := Option.map_eq_some_iff.mp h
      exact .net hs

end DistributedSystems.LockTest
