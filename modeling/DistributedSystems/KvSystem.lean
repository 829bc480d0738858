import DistributedSystems.TransitionSystem
import DistributedSystems.EventLog
import DistributedSystems.Parties
import DistributedSystems.KvServer

/-! # Clerks, the network and one server

The whole system of `kvsrv1`: any number of Clerk calls in progress, the requests in flight, one
server, and the replies on their way back.

* `invoke` starts `Clerk.Get` or `Clerk.Put`; its first `Call` puts a request on the network.
* `exec` lets the server execute one request in flight, which leaves the network: every
  request is executed at most once, in any order, at any time — also after its `Call` has
  returned `false`, as `labrpc.processReq` allows.
* `lose` drops a request in flight.
* `callTrue` delivers a reply to the `Call` that waits for it, and the Clerk returns.
* `callFalse` makes the `Call` of the current attempt return `false`, and the Clerk sends the
  request again.  A lost reply is one that is never delivered.

The log records invocations, executions and returns in the order of time. -/

namespace DistributedSystems.Kv

/-- A call of `Clerk.Get` or `Clerk.Put`: its attempt counts the resends, and `ret` is set
when it has returned. -/
structure Call where
  clerk : ℕ
  op : Op
  attempt : ℕ
  ret : Option Ret
deriving DecidableEq, Repr

/-- A request in flight, with the call and the attempt it belongs to. -/
structure Request where
  call : ℕ
  attempt : ℕ
  op : Op
deriving DecidableEq, Repr

/-- A reply in flight. -/
structure Response where
  call : ℕ
  attempt : ℕ
  reply : Reply
deriving DecidableEq, Repr

inductive Event where
  | invoke (call : ℕ) (op : Op)
  | exec (call attempt : ℕ) (op : Op) (reply : Reply)
  | ret (call : ℕ) (r : Ret)
deriving DecidableEq, Repr

structure State where
  server : KVServer
  calls : List Call
  requests : List Request
  replies : List Response
  log : List Event

inductive Action where
  | invoke (clerk : ℕ) (op : Op)
  | exec (i : ℕ)
  | lose (i : ℕ)
  | callTrue (i : ℕ)
  | callFalse (c : ℕ)
deriving DecidableEq, Repr

/-- The steps other than a new call. -/
def Action.internal : Action → Bool
  | .invoke _ _ => false
  | _ => true

namespace State

def init : State := ⟨KVServer.make, [], [], [], []⟩

/-- A call starts and sends its first request. -/
@[simps] def invoke (s : State) (clerk : ℕ) (op : Op) : State :=
  { s with
    calls := s.calls ++ [⟨clerk, op, 0, none⟩]
    requests := s.requests ++ [⟨s.calls.length, 0, op⟩]
    log := s.log ++ [.invoke s.calls.length op] }

/-- The server executes the request `q` found at position `i` of the network. -/
@[simps] def exec (s : State) (i : ℕ) (q : Request) : State :=
  { s with
    server := (s.server.handle q.op).1
    requests := s.requests.eraseIdx i
    replies := s.replies ++ [⟨q.call, q.attempt, (s.server.handle q.op).2⟩]
    log := s.log ++ [.exec q.call q.attempt q.op (s.server.handle q.op).2] }

/-- The call `c`, stored at position `n`, returns `r`. -/
@[simps] def finish (s : State) (i n : ℕ) (c : Call) (r : Ret) : State :=
  { s with
    calls := s.calls.set n { c with ret := some r }
    replies := s.replies.eraseIdx i
    log := s.log ++ [.ret n r] }

/-- The call `c`, stored at position `n`, sends its request again. -/
@[simps] def resend (s : State) (n : ℕ) (c : Call) : State :=
  { s with
    calls := s.calls.set n { c with attempt := c.attempt + 1 }
    requests := s.requests ++ [⟨n, c.attempt + 1, c.op⟩] }

def step (s : State) : Action → Option State
  | .invoke clerk op => some (s.invoke clerk op)
  | .exec i => s.requests[i]?.map (s.exec i)
  | .lose i => s.requests[i]?.map (fun _ => { s with requests := s.requests.eraseIdx i })
  | .callTrue i => do
      let p ← s.replies[i]?
      let c ← s.calls[p.call]?
      if c.ret = none ∧ c.attempt = p.attempt then
        let r ← c.op.finish c.attempt p.reply
        some (s.finish i p.call c r)
      else none
  | .callFalse n => do
      let c ← s.calls[n]?
      if c.ret = none then some (s.resend n c) else none

end State

/-- The system as a transition system. -/
def system : Lts State Action := ⟨State.init, State.step⟩

/-- What a step can do: the inversion of `State.step`. -/
inductive Stepped (s : State) : Action → State → Prop
  | invoke (clerk : ℕ) (op : Op) : Stepped s (.invoke clerk op) (s.invoke clerk op)
  | exec {i : ℕ} {q : Request} (hq : s.requests[i]? = some q) : Stepped s (.exec i) (s.exec i q)
  | lose {i : ℕ} {q : Request} (hq : s.requests[i]? = some q) :
      Stepped s (.lose i) { s with requests := s.requests.eraseIdx i }
  | callTrue {i : ℕ} {p : Response} {c : Call} {r : Ret} (hp : s.replies[i]? = some p)
      (hc : s.calls[p.call]? = some c) (hopen : c.ret = none) (hatt : c.attempt = p.attempt)
      (hr : c.op.finish c.attempt p.reply = some r) :
      Stepped s (.callTrue i) (s.finish i p.call c r)
  | callFalse {n : ℕ} {c : Call} (hc : s.calls[n]? = some c) (hopen : c.ret = none) :
      Stepped s (.callFalse n) (s.resend n c)

theorem State.step_cases {s s' : State} {a : Action} (h : s.step a = some s') :
    Stepped s a s' := by
  cases a with
  | invoke clerk op =>
      simp only [State.step, Option.some.injEq] at h
      exact h ▸ .invoke clerk op
  | exec i =>
      simp only [State.step, Option.map_eq_some_iff] at h
      obtain ⟨q, hq, rfl⟩ := h
      exact .exec hq
  | lose i =>
      simp only [State.step, Option.map_eq_some_iff] at h
      obtain ⟨q, hq, rfl⟩ := h
      exact .lose hq
  | callTrue i =>
      simp only [State.step, Option.bind_eq_bind, Option.bind_eq_some_iff] at h
      obtain ⟨p, hp, c, hc, h⟩ := h
      split at h
      · rename_i hg
        obtain ⟨r, hr, h⟩ := Option.bind_eq_some_iff.mp h
        simp only [Option.some.injEq] at h
        exact h ▸ .callTrue hp hc hg.1 hg.2 hr
      · cases h
  | callFalse n =>
      simp only [State.step, Option.bind_eq_bind, Option.bind_eq_some_iff] at h
      obtain ⟨c, hc, h⟩ := h
      split at h
      · rename_i hg
        simp only [Option.some.injEq] at h
        exact h ▸ .callFalse hc hg
      · cases h

end DistributedSystems.Kv
