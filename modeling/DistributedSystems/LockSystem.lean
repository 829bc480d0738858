import DistributedSystems.Decimal
import DistributedSystems.KvPuts

/-! # Locks over the key/value store

The client library of `kvsrv1/lock/lock.go` on top of the Clerks and the server of `KvSystem`.  A
lock is the value of one key: `"1-" + id` while the lock with that id has it and `"0-" + id` after
that lock released it.

Every `Lock` is used by one sequential client.  `acquire` and `release` are the client's calls;
`resume` continues the lock's code when the Clerk call it waits for has returned, up to its next
Clerk call.  `app` is any other use of the store by the application, and `net` a step of the
network, of the server or of a Clerk.  Forgetting the locks gives a run of the store
(`reachable_kv`). -/

namespace DistributedSystems.Lock

open DistributedSystems.Kv

/-! ### The value of the key -/

/-- `strings.Split(s, "-")`. -/
def split (s : String) : List String := (s.toList.splitOn '-').map String.ofList

/-- The owner and the locked flag that `Acquire` reads off the value of the key. -/
def parse (val : String) : String × Bool :=
  match split val with
  | flag :: owner :: _ => (owner, flag == "1")
  | _ => ("", false)

/-- The test of `Acquire`: no owner, own id, or not locked. -/
def mayAcquire (id val : String) : Bool :=
  (parse val).1 == "" || (parse val).1 == id || !(parse val).2

/-- The value `Acquire` writes. -/
def lockedBy (id : String) : String := "1-" ++ id

/-- The value `Release` writes. -/
def releasedBy (id : String) : String := "0-" ++ id

/-- `getId` after the counter was raised to `k`: `strconv.Itoa`. -/
def idOf (k : ℕ) : String := toString k

/-! ### Locks and their clients -/

/-- Where a client is in the lock's code, with the Clerk call it waits for. -/
inductive Pc where
  | idle
  | acquireGet (call : ℕ)
  | acquirePut (call : ℕ)
  | releaseGet (call : ℕ)
  | releasePut (call : ℕ)
deriving DecidableEq, Repr

/-- A `Lock` and its client: `held` from the return of `Acquire` until `Release` is called. -/
structure Client where
  lockname : String
  id : String
  pc : Pc
  held : Bool
deriving DecidableEq, Repr

structure State where
  kv : Kv.State
  count : ℕ
  clients : List Client

inductive Action where
  | makeLock (lockname : String)
  | acquire (l : ℕ)
  | release (l : ℕ)
  | resume (l : ℕ)
  | app (clerk : ℕ) (op : Op)
  | net (a : Kv.Action)
deriving DecidableEq, Repr

namespace State

def init : State := ⟨Kv.State.init, 0, []⟩

/-- `MakeLock`. -/
@[simps] def makeLock (s : State) (lockname : String) : State :=
  { s with
    count := s.count + 1
    clients := s.clients ++ [⟨lockname, idOf (s.count + 1), .idle, false⟩] }

/-- The client `l` starts the Clerk call `op` and waits for it at `pc`. -/
@[simps] def call (s : State) (l : ℕ) (c : Client) (op : Op) (pc : ℕ → Pc) : State :=
  { s with
    kv := s.kv.invoke l op
    clients := s.clients.set l { c with pc := pc s.kv.calls.length } }

/-- The client `l` returns from `Acquire` or `Release`. -/
@[simps] def done (s : State) (l : ℕ) (c : Client) (held : Bool) : State :=
  { s with clients := s.clients.set l { c with pc := .idle, held := held } }

/-- The code of `Acquire` and `Release` between two Clerk calls. -/
def resume (s : State) (l : ℕ) (c : Client) : Option State :=
  match c.pc with
  | .idle => none
  | .acquireGet n =>
      match resultOf s.kv n with
      | some (.get val ver _) =>
          if mayAcquire c.id val then
            some (s.call l c (.put ⟨c.lockname, lockedBy c.id, ver⟩) .acquirePut)
          else some (s.call l c (.get ⟨c.lockname⟩) .acquireGet)
      | _ => none
  | .acquirePut n =>
      match resultOf s.kv n with
      | some (.put err) =>
          if err = .ok then some (s.done l c true)
          else some (s.call l c (.get ⟨c.lockname⟩) .acquireGet)
      | _ => none
  | .releaseGet n =>
      match resultOf s.kv n with
      | some (.get val ver err) =>
          if err = .errNoKey then some (s.done l c false)
          else if (parse val).1 ≠ "" then
            some (s.call l c (.put ⟨c.lockname, releasedBy c.id, ver⟩) .releasePut)
          else some (s.done l c false)
      | _ => none
  | .releasePut n =>
      match resultOf s.kv n with
      | some (.put _) => some (s.done l c false)
      | _ => none

def step (s : State) : Action → Option State
  | .makeLock lockname => some (s.makeLock lockname)
  | .acquire l => do
      let c ← s.clients[l]?
      if c.pc = .idle then some (s.call l c (.get ⟨c.lockname⟩) .acquireGet) else none
  | .release l => do
      let c ← s.clients[l]?
      if c.pc = .idle then
        some (s.call l { c with held := false } (.get ⟨c.lockname⟩) .releaseGet)
      else none
  | .resume l => s.clients[l]?.bind (s.resume l)
  | .app clerk op => some { s with kv := s.kv.invoke clerk op }
  | .net a => if a.internal then (s.kv.step a).map (fun kv => { s with kv := kv }) else none

end State

def system : Lts State Action := ⟨State.init, State.step⟩

/-- What a step can do: the inversion of `State.step`. -/
inductive Stepped (s : State) : Action → State → Prop
  | makeLock (lockname : String) : Stepped s (.makeLock lockname) (s.makeLock lockname)
  | acquire {l : ℕ} {c : Client} (hc : s.clients[l]? = some c) (hpc : c.pc = .idle) :
      Stepped s (.acquire l) (s.call l c (.get ⟨c.lockname⟩) .acquireGet)
  | release {l : ℕ} {c : Client} (hc : s.clients[l]? = some c) (hpc : c.pc = .idle) :
      Stepped s (.release l) (s.call l { c with held := false } (.get ⟨c.lockname⟩) .releaseGet)
  | tryPut {l n : ℕ} {c : Client} {val : String} {ver : Tversion} {err : Err}
      (hc : s.clients[l]? = some c) (hpc : c.pc = .acquireGet n)
      (hr : resultOf s.kv n = some (.get val ver err)) (hv : mayAcquire c.id val = true) :
      Stepped s (.resume l) (s.call l c (.put ⟨c.lockname, lockedBy c.id, ver⟩) .acquirePut)
  | tryAgain {l n : ℕ} {c : Client} (hc : s.clients[l]? = some c)
      (hpc : c.pc = .acquireGet n ∨ c.pc = .acquirePut n) (hr : (resultOf s.kv n).isSome = true) :
      Stepped s (.resume l) (s.call l c (.get ⟨c.lockname⟩) .acquireGet)
  | acquired {l n : ℕ} {c : Client} (hc : s.clients[l]? = some c) (hpc : c.pc = .acquirePut n)
      (hr : resultOf s.kv n = some (.put .ok)) : Stepped s (.resume l) (s.done l c true)
  | free {l n : ℕ} {c : Client} {val : String} {ver : Tversion} {err : Err}
      (hc : s.clients[l]? = some c) (hpc : c.pc = .releaseGet n)
      (hr : resultOf s.kv n = some (.get val ver err)) (he : err ≠ .errNoKey)
      (hv : (parse val).1 ≠ "") :
      Stepped s (.resume l) (s.call l c (.put ⟨c.lockname, releasedBy c.id, ver⟩) .releasePut)
  | nothing {l n : ℕ} {c : Client} {val : String} {ver : Tversion} {err : Err}
      (hc : s.clients[l]? = some c) (hpc : c.pc = .releaseGet n)
      (hr : resultOf s.kv n = some (.get val ver err)) (hv : err = .errNoKey ∨ (parse val).1 = "") :
      Stepped s (.resume l) (s.done l c false)
  | released {l n : ℕ} {c : Client} {err : Err} (hc : s.clients[l]? = some c)
      (hpc : c.pc = .releasePut n) (hr : resultOf s.kv n = some (.put err)) :
      Stepped s (.resume l) (s.done l c false)
  | app (clerk : ℕ) (op : Op) : Stepped s (.app clerk op) { s with kv := s.kv.invoke clerk op }
  | net {a : Kv.Action} {kv : Kv.State} (ha : a.internal = true)
      (h : s.kv.step a = some kv) : Stepped s (.net a) { s with kv := kv }

theorem State.resume_cases {s s' : State} {l : ℕ} {c : Client} (hc : s.clients[l]? = some c)
    (h : s.resume l c = some s') : Stepped s (.resume l) s' := by
  unfold State.resume at h
  split at h
  · cases h
  · rename_i n hpc
    split at h
    · rename_i val ver err hr
      split_ifs at h with hv
      · cases h
        exact .tryPut hc hpc hr hv
      · cases h
        exact .tryAgain hc (Or.inl hpc) (by simp [hr])
    · cases h
  · rename_i n hpc
    split at h
    · rename_i err hr
      split_ifs at h with hv
      · cases h
        exact .acquired hc hpc (hv ▸ hr)
      · cases h
        exact .tryAgain hc (Or.inr hpc) (by simp [hr])
    · cases h
  · rename_i n hpc
    split at h
    · rename_i val ver err hr
      split_ifs at h with hv hv'
      · cases h
        exact .nothing hc hpc hr (Or.inl hv)
      · cases h
        exact .free hc hpc hr hv hv'
      · cases h
        exact .nothing hc hpc hr (Or.inr (not_not.mp hv'))
    · cases h
  · rename_i n hpc
    split at h
    · rename_i err hr
      cases h
      exact .released hc hpc hr
    · cases h

theorem State.step_cases {s s' : State} {a : Action} (h : s.step a = some s') :
    Stepped s a s' := by
  cases a with
  | makeLock lockname =>
      simp only [State.step, Option.some.injEq] at h
      exact h ▸ .makeLock lockname
  | acquire l =>
      simp only [State.step, Option.bind_eq_bind, Option.bind_eq_some_iff] at h
      obtain ⟨c, hc, h⟩ := h
      split_ifs at h with hpc
      cases h
      exact .acquire hc hpc
  | release l =>
      simp only [State.step, Option.bind_eq_bind, Option.bind_eq_some_iff] at h
      obtain ⟨c, hc, h⟩ := h
      split_ifs at h with hpc
      cases h
      exact .release hc hpc
  | resume l =>
      simp only [State.step, Option.bind_eq_some_iff] at h
      obtain ⟨c, hc, h⟩ := h
      exact State.resume_cases hc h
  | app clerk op =>
      simp only [State.step, Option.some.injEq] at h
      exact h ▸ .app clerk op
  | net b =>
      simp only [State.step] at h
      split_ifs at h with hb
      obtain ⟨kv, hkv, rfl⟩ := Option.map_eq_some_iff.mp h
      exact .net hb hkv

/-- Forgetting the locks, every step is a step of the store or none. -/
theorem Stepped.kv {s s' : State} {a : Action} (h : Stepped s a s') :
    s'.kv = s.kv ∨ ∃ b, s.kv.step b = some s'.kv := by
  cases h with
  | makeLock lockname => exact Or.inl rfl
  | acquire hc hpc => exact Or.inr ⟨.invoke _ _, rfl⟩
  | release hc hpc => exact Or.inr ⟨.invoke _ _, rfl⟩
  | tryPut hc hpc hr hv => exact Or.inr ⟨.invoke _ _, rfl⟩
  | tryAgain hc hpc hr => exact Or.inr ⟨.invoke _ _, rfl⟩
  | acquired hc hpc hr => exact Or.inl rfl
  | free hc hpc hr he hv => exact Or.inr ⟨.invoke _ _, rfl⟩
  | nothing hc hpc hr hv => exact Or.inl rfl
  | released hc hpc hr => exact Or.inl rfl
  | app clerk op => exact Or.inr ⟨.invoke clerk op, rfl⟩
  | net ha h => exact Or.inr ⟨_, h⟩

theorem reachable_kv {C : State → Action → Prop} {s : State} (h : system.ReachableBy C s) :
    Kv.system.Reachable s.kv := by
  refine h.simulate State.kv rfl ?_
  intro s a s' _ _ hs
  rcases (State.step_cases hs).kv with he | ⟨b, hb⟩
  · exact Or.inl he
  · exact Or.inr ⟨b, trivial, hb⟩

/-! ### Reading the value back -/

theorem idOf_ne_empty (k : ℕ) : idOf k ≠ "" := toString_ne_empty k

theorem idOf_injective {k m : ℕ} (h : idOf k = idOf m) : k = m := toString_injective h

theorem split_flag (flag : Char) (hflag : flag ≠ '-') (k : ℕ) :
    split (String.ofList [flag, '-'] ++ idOf k) = [String.ofList [flag], idOf k] := by
  have hl : (String.ofList [flag, '-'] ++ idOf k).toList = [flag] ++ '-' :: (idOf k).toList := by
    simp
  have hid : '-' ∉ (idOf k).toList := not_mem_toString (by decide)
  rw [split, hl, List.splitOn_append_cons_self_of_not_mem (by simpa using hflag.symm),
    List.splitOn_eq_singleton hid]
  simp

theorem parse_lockedBy (k : ℕ) : parse (lockedBy (idOf k)) = (idOf k, true) := by
  have h := split_flag '1' (by decide) k
  rw [parse, lockedBy, show ("1-" : String) = String.ofList ['1', '-'] from rfl, h]
  rfl

theorem lockedBy_injective {id id' : String} (h : lockedBy id = lockedBy id') : id = id' := by
  have := congrArg String.toList h
  simp only [lockedBy, String.toList_append] at this
  exact String.toList_injective (List.append_cancel_left this)

theorem releasedBy_injective {id id' : String} (h : releasedBy id = releasedBy id') :
    id = id' := by
  have := congrArg String.toList h
  simp only [releasedBy, String.toList_append] at this
  exact String.toList_injective (List.append_cancel_left this)

theorem releasedBy_ne_lockedBy (id id' : String) : releasedBy id ≠ lockedBy id' := by
  intro h
  have := congrArg String.toList h
  simp [releasedBy, lockedBy] at this

/-- A value that says another lock has the key does not pass the test of `Acquire`. -/
theorem mayAcquire_lockedBy {id : String} {k : ℕ} (h : mayAcquire id (lockedBy (idOf k)) = true) :
    id = idOf k := by
  simp only [mayAcquire, parse_lockedBy, Bool.not_true, Bool.or_false, Bool.or_eq_true,
    beq_iff_eq] at h
  rcases h with h | h
  · exact absurd h (idOf_ne_empty k)
  · exact h.symm

/-! ### The ids of the locks -/

/-- Every lock has an id that `getId` has handed out, and no two have the same. -/
structure Named (s : State) : Prop where
  ids : ∀ c ∈ s.clients, ∃ k, k ≤ s.count ∧ c.id = idOf k
  distinct : (s.clients.map Client.id).Nodup

theorem Named.fresh {s : State} (h : Named s) : ∀ c ∈ s.clients, c.id ≠ idOf (s.count + 1) := by
  intro c hc he
  obtain ⟨k, hk, hid⟩ := h.ids c hc
  have := idOf_injective (hid.symm.trans he)
  omega

theorem Named.makeLock {s : State} (h : Named s) (lockname : String) :
    Named (s.makeLock lockname) := by
  constructor
  · intro c hc
    rw [State.makeLock_clients, List.mem_append, List.mem_singleton] at hc
    rw [State.makeLock_count]
    rcases hc with hc | rfl
    · obtain ⟨k, hk, hid⟩ := h.ids c hc
      exact ⟨k, by omega, hid⟩
    · exact ⟨s.count + 1, le_rfl, rfl⟩
  · rw [State.makeLock_clients, List.map_append, List.nodup_append]
    refine ⟨h.distinct, List.nodup_singleton _, ?_⟩
    rintro a ha b hb rfl
    obtain ⟨c, hc, rfl⟩ := List.mem_map.mp ha
    exact h.fresh c hc (List.mem_singleton.mp hb)

theorem Named.set {s : State} (h : Named s) {l : ℕ} {c d : Client}
    (hc : s.clients[l]? = some c) (hid : d.id = c.id) (kv : Kv.State) :
    Named { s with kv := kv, clients := s.clients.set l d } := by
  constructor
  · intro c' hc'
    rcases List.mem_or_eq_of_mem_set hc' with hc' | rfl
    · exact h.ids c' hc'
    · rw [hid]
      exact h.ids c (List.mem_of_getElem? hc)
  · dsimp only
    rw [map_set_of_eq hc hid]
    exact h.distinct

theorem Named.call {s : State} (h : Named s) {l : ℕ} {c d : Client} {op : Op} {pc : ℕ → Pc}
    (hc : s.clients[l]? = some c) (hid : d.id = c.id) : Named (s.call l d op pc) :=
  h.set (d := { d with pc := pc s.kv.calls.length }) hc hid _

theorem Named.done {s : State} (h : Named s) {l : ℕ} {c : Client} {held : Bool}
    (hc : s.clients[l]? = some c) : Named (s.done l c held) :=
  h.set (d := { c with pc := .idle, held := held }) hc rfl _

theorem Named.step {s s' : State} {a : Action} (h : Named s) (hs : Stepped s a s') : Named s' := by
  cases hs with
  | makeLock lockname => exact h.makeLock lockname
  | acquire hc hpc => exact h.call hc rfl
  | release hc hpc => exact h.call hc rfl
  | tryPut hc hpc hr hv => exact h.call hc rfl
  | tryAgain hc hpc hr => exact h.call hc rfl
  | acquired hc hpc hr => exact h.done hc
  | free hc hpc hr he hv => exact h.call hc rfl
  | nothing hc hpc hr hv => exact h.done hc
  | released hc hpc hr => exact h.done hc
  | app clerk op => exact ⟨h.ids, h.distinct⟩
  | net ha hs => exact ⟨h.ids, h.distinct⟩

theorem reachable_named {C : State → Action → Prop} {s : State} (h : system.ReachableBy C s) :
    Named s := by
  refine h.invariant ⟨?_, ?_⟩ (fun _ _ _ _ hn _ hs => hn.step (State.step_cases hs))
  · simp [system, State.init]
  · simp [system, State.init]

/-- A lock is determined by its id. -/
theorem Named.eq_of_id {s : State} (h : Named s) {i j : ℕ} {c c' : Client}
    (hi : s.clients[i]? = some c) (hj : s.clients[j]? = some c') (hid : c.id = c'.id) : i = j := by
  have hlt : i < (s.clients.map Client.id).length := by
    simpa using (List.getElem?_eq_some_iff.mp hi).1
  refine (List.getElem?_inj hlt h.distinct).mp ?_
  simp [hi, hj, hid]

end DistributedSystems.Lock
