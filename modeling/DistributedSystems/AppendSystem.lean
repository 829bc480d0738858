import DistributedSystems.AppendEntries
import DistributedSystems.KvPuts

/-! # Clients that append to one key

`OneClientAppend` of `kvtest1/kvtest.go`, run by any number of clients over the Clerks and the
server of `KvSystem`.  In iteration `i` the client `me` reads the list under the key `"k"`, appends
`(me, i)` and puts the list back with the version it read; it tries again after `ErrVersion` and
goes to the next iteration after `OK` or `ErrMaybe`.

`next` and `stop` are the two branches of the `select` at the top of an iteration, `resume`
continues the client when the Clerk call it waits for has returned, and `net` is a step of the
network, of the server or of a Clerk.  The key was set to the empty list before the clients start
(`setup`). -/

namespace DistributedSystems.Append

open DistributedSystems.Kv

/-- Where a client is, with the Clerk call it waits for; `failed` after `ts.Fatalf`. -/
inductive Pc where
  | select
  | getJson (call : ℕ)
  | putJson (call : ℕ)
  | returned
  | failed
deriving DecidableEq, Repr

/-- The variables of `OneClientAppend`.  `results` records what the `Put` of every finished
iteration returned. -/
structure Client where
  me : ℕ
  i : ℕ
  nok : ℕ
  nmay : ℕ
  pc : Pc
  results : List Err
deriving DecidableEq, Repr

/-- The end of an iteration whose `Put` has returned `OK` or `ErrMaybe`. -/
@[simps] def Client.advance (c : Client) (err : Err) : Client :=
  { c with
    i := c.i + 1
    nok := if err = .ok then c.nok + 1 else c.nok
    nmay := if err = .ok then c.nmay else c.nmay + 1
    pc := .select
    results := c.results ++ [err] }

/-- What the client returns. -/
def Client.res (c : Client) : ClntRes := ⟨c.nok, c.nmay⟩

structure State where
  kv : Kv.State
  clients : List Client

inductive Action where
  | next (l : ℕ)
  | stop (l : ℕ)
  | resume (l : ℕ)
  | net (a : Kv.Action)
deriving DecidableEq, Repr

/-- The `Put` of the empty list. -/
def setupPut : Op := .put ⟨"k", marshal [], 0⟩

/-- The store after the `Put` of the empty list has returned. -/
def setup : Kv.State :=
  ((Kv.State.init.invoke 0 setupPut).exec 0 ⟨0, 0, setupPut⟩).finish 0 0 ⟨0, setupPut, 0, none⟩
    (.put .ok)

namespace State

def init (nclnt : ℕ) : State :=
  ⟨setup, (List.range nclnt).map (fun me => ⟨me, 0, 0, 0, .select, []⟩)⟩

/-- The client `l` starts the Clerk call `op` and waits for it at `pc`. -/
@[simps] def call (s : State) (l : ℕ) (c : Client) (op : Op) (pc : ℕ → Pc) : State :=
  { s with
    kv := s.kv.invoke l op
    clients := s.clients.set l { c with pc := pc s.kv.calls.length } }

@[simps] def goto (s : State) (l : ℕ) (c : Client) (pc : Pc) : State :=
  { s with clients := s.clients.set l { c with pc := pc } }

@[simps] def advance (s : State) (l : ℕ) (c : Client) (err : Err) : State :=
  { s with clients := s.clients.set l (c.advance err) }

/-- The code of `OneClientAppend` after a Clerk call. -/
def resume (s : State) (l : ℕ) (c : Client) : Option State :=
  match c.pc with
  | .getJson n =>
      match resultOf s.kv n with
      | some (.get val ver err) =>
          if err = .ok then
            match unmarshal val with
            | some es =>
                some (s.call l c (.put ⟨"k", marshal (es ++ [⟨c.me, c.i⟩]), ver⟩) .putJson)
            | none => some (s.goto l c .failed)
          else some (s.goto l c .failed)
      | _ => none
  | .putJson n =>
      match resultOf s.kv n with
      | some (.put err) =>
          if err = .ok ∨ err = .errMaybe then some (s.advance l c err)
          else some (s.call l c (.get ⟨"k"⟩) .getJson)
      | _ => none
  | _ => none

def step (s : State) : Action → Option State
  | .next l => do
      let c ← s.clients[l]?
      if c.pc = .select then some (s.call l c (.get ⟨"k"⟩) .getJson) else none
  | .stop l => do
      let c ← s.clients[l]?
      if c.pc = .select then some (s.goto l c .returned) else none
  | .resume l => s.clients[l]?.bind (s.resume l)
  | .net a => if a.internal then (s.kv.step a).map (fun kv => { s with kv := kv }) else none

end State

def system (nclnt : ℕ) : Lts State Action := ⟨State.init nclnt, State.step⟩

/-- What a step can do: the inversion of `State.step`. -/
inductive Stepped (s : State) : Action → State → Prop
  | next {l : ℕ} {c : Client} (hc : s.clients[l]? = some c) (hpc : c.pc = .select) :
      Stepped s (.next l) (s.call l c (.get ⟨"k"⟩) .getJson)
  | stop {l : ℕ} {c : Client} (hc : s.clients[l]? = some c) (hpc : c.pc = .select) :
      Stepped s (.stop l) (s.goto l c .returned)
  | append {l n : ℕ} {c : Client} {val : String} {ver : Tversion} {es : List Entry}
      (hc : s.clients[l]? = some c) (hpc : c.pc = .getJson n)
      (hr : resultOf s.kv n = some (.get val ver .ok)) (hes : unmarshal val = some es) :
      Stepped s (.resume l) (s.call l c (.put ⟨"k", marshal (es ++ [⟨c.me, c.i⟩]), ver⟩) .putJson)
  | fatal {l n : ℕ} {c : Client} {val : String} {ver : Tversion} {err : Err}
      (hc : s.clients[l]? = some c) (hpc : c.pc = .getJson n)
      (hr : resultOf s.kv n = some (.get val ver err)) (hes : err = .ok → unmarshal val = none) :
      Stepped s (.resume l) (s.goto l c .failed)
  | advance {l n : ℕ} {c : Client} {err : Err} (hc : s.clients[l]? = some c)
      (hpc : c.pc = .putJson n) (hr : resultOf s.kv n = some (.put err))
      (he : err = .ok ∨ err = .errMaybe) : Stepped s (.resume l) (s.advance l c err)
  | retry {l n : ℕ} {c : Client} {err : Err} (hc : s.clients[l]? = some c)
      (hpc : c.pc = .putJson n) (hr : resultOf s.kv n = some (.put err))
      (hok : err ≠ .ok) (hmay : err ≠ .errMaybe) :
      Stepped s (.resume l) (s.call l c (.get ⟨"k"⟩) .getJson)
  | net {a : Kv.Action} {kv : Kv.State} (ha : a.internal = true) (h : s.kv.step a = some kv) :
      Stepped s (.net a) { s with kv := kv }

theorem State.resume_cases {s s' : State} {l : ℕ} {c : Client} (hc : s.clients[l]? = some c)
    (h : s.resume l c = some s') : Stepped s (.resume l) s' := by
  unfold State.resume at h
  split at h
  · rename_i n hpc
    split at h
    · rename_i val ver err hr
      split_ifs at h with he
      · subst he
        split at h
        · rename_i es hes
          cases h
          exact .append hc hpc hr hes
        · rename_i hes
          cases h
          exact .fatal hc hpc hr (fun _ => hes)
      · cases h
        exact .fatal hc hpc hr (fun h => absurd h he)
    · cases h
  · rename_i n hpc
    split at h
    · rename_i err hr
      split_ifs at h with he
      · cases h
        exact .advance hc hpc hr he
      · cases h
        exact .retry hc hpc hr (fun h => he (Or.inl h)) (fun h => he (Or.inr h))
    · cases h
  · cases h

theorem State.step_cases {s s' : State} {a : Action} (h : s.step a = some s') :
    Stepped s a s' := by
  cases a with
  | next l =>
      simp only [State.step, Option.bind_eq_bind, Option.bind_eq_some_iff] at h
      obtain ⟨c, hc, h⟩ := h
      split_ifs at h with hpc
      cases h
      exact .next hc hpc
  | stop l =>
      simp only [State.step, Option.bind_eq_bind, Option.bind_eq_some_iff] at h
      obtain ⟨c, hc, h⟩ := h
      split_ifs at h with hpc
      cases h
      exact .stop hc hpc
  | resume l =>
      simp only [State.step, Option.bind_eq_some_iff] at h
      obtain ⟨c, hc, h⟩ := h
      exact State.resume_cases hc h
  | net b =>
      simp only [State.step] at h
      split_ifs at h with hb
      obtain ⟨kv, hkv, rfl⟩ := Option.map_eq_some_iff.mp h
      exact .net hb hkv

/-! ### The store below the clients -/

theorem setup_reachable : Kv.system.Reachable setup := by
  have h : Kv.system.exec (fun _ _ => True) Kv.system.init
      [.invoke 0 setupPut, .exec 0, .callTrue 0] = some setup := rfl
  exact Lts.reachableBy_of_exec h

/-- Forgetting the clients, every step is a step of the store or none. -/
theorem Stepped.kv {s s' : State} {a : Action} (h : Stepped s a s') :
    s'.kv = s.kv ∨ ∃ b, s.kv.step b = some s'.kv := by
  cases h with
  | next hc hpc => exact Or.inr ⟨.invoke _ _, rfl⟩
  | stop hc hpc => exact Or.inl rfl
  | append hc hpc hr hes => exact Or.inr ⟨.invoke _ _, rfl⟩
  | fatal hc hpc hr hes => exact Or.inl rfl
  | advance hc hpc hr he => exact Or.inl rfl
  | retry hc hpc hr hok hmay => exact Or.inr ⟨.invoke _ _, rfl⟩
  | net ha h => exact Or.inr ⟨_, h⟩

theorem reachable_kv {nclnt : ℕ} {C : State → Action → Prop} {s : State}
    (h : (system nclnt).ReachableBy C s) : Kv.system.Reachable s.kv := by
  refine h.invariant (I := fun s => Kv.system.Reachable s.kv) setup_reachable ?_
  intro s a s' _ hkv _ hs
  rcases (State.step_cases hs).kv with he | ⟨b, hb⟩
  · rw [he]
    exact hkv
  · exact hkv.step trivial hb

end DistributedSystems.Append
