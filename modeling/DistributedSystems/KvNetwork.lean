import DistributedSystems.LabrpcCalls
import DistributedSystems.KvLinearizable

/-! # Clerks and the key/value server on the simulated network

The Clerks of `kvsrv1/client.go` call through `tester.Clnt` into the network of `labrpc`, while the
test harness may reconfigure the network at any time.  Behind the network there is one server
object, on which one `KVServer` is registered as a service.  (In the tests the server object
forwards its requests, by `SetDispatch`, to a daemon with the `KVServer`, and the harness may start
another daemon.)  A new end of a `Clnt` is enabled at once; that the `Clnt` is not allowed to reach
the server is an `enable` with `false` after it.

A Clerk's call is a sequence of attempts, each of which is one call of the network (`Call.cur` is
the current one); the Clerk goes on when that call has returned (`resume`).  Arguments and replies
are encoded for the wire, and the server's methods decode them again.

The network component of every state is a state of `Labrpc.system` (`reachable_net`), so what is
proved about the network holds here. -/

namespace DistributedSystems.KvNetwork

open Kv (Op Reply Ret Event KVServer GetArgs GetReply PutArgs PutReply)
open Labrpc (Codec Service Server Network Exchange)

variable {β : Type}

/-- How arguments and replies travel. -/
structure Wire (β : Type) where
  getArgs : Codec GetArgs β
  getReply : Codec GetReply β
  putArgs : Codec PutArgs β
  putReply : Codec PutReply β

namespace Wire

variable (w : Wire β)

def args : Op → β
  | .get args => w.getArgs.marshall args
  | .put args => w.putArgs.marshall args

def encode : Reply → β
  | .get reply => w.getReply.marshall reply
  | .put reply => w.putReply.marshall reply

/-- The Clerk's `Unmarshall` into the reply variable of its method. -/
def decode : Op → β → Option Reply
  | .get _, b => (w.getReply.unmarshall b).map .get
  | .put _, b => (w.putReply.unmarshall b).map .put

/-- The service a `KVServer` registers: its exported methods with an argument and a reply. -/
def service : Service KVServer β where
  name := "KVServer"
  methods m :=
    if m = "Get" then
      some fun kv b => do
        let args ← w.getArgs.unmarshall b
        some (kv, w.getReply.marshall (kv.get args))
    else if m = "Put" then
      some fun kv b => do
        let args ← w.putArgs.unmarshall b
        some ((kv.put args).1, w.putReply.marshall (kv.put args).2)
    else none

/-- The server as `MakeServer` and `AddService` leave it. -/
def server : Server KVServer β := (Labrpc.makeServer KVServer.make).addService w.service

end Wire

/-- The service and method a Clerk names. -/
def svcMeth : Op → String
  | .get _ => "KVServer.Get"
  | .put _ => "KVServer.Put"

/-- `ServerName(GRP0, 0)`. -/
def serverName : String := "server-0-0"

/-! ### The system -/

/-- A call of `Clerk.Get` or `Clerk.Put` with the network call of its current attempt. -/
structure Call where
  clerk : ℕ
  op : Op
  attempt : ℕ
  cur : ℕ
  ret : Option Ret
deriving DecidableEq, Repr

/-- The network, the end that the `Clnt` of each Clerk has made for the server, the calls of the
Clerks, and what they have seen. -/
structure State (β : Type) where
  net : Labrpc.State KVServer β
  ends : ℕ → Option String
  calls : List Call
  history : List (HEvent Op Ret)

inductive Action (β : Type) where
  | invoke (clerk : ℕ) (op : Op) (endname : String)
  | resume (n : ℕ)
  | net (a : Labrpc.Action KVServer β)

/-- The steps of the network and the methods that configure it; calls are made by Clerks only, and
there is one server object. -/
def allowed : Labrpc.Action KVServer β → Bool
  | .newServer _ | .call _ => false
  | _ => true

namespace State

/-- The network with the server added. -/
def init (w : Wire β) : State β where
  net := { (Labrpc.State.init : Labrpc.State KVServer β) with
    servers := [w.server]
    net := Network.make.addServer serverName 0 }
  ends := fun _ => none
  calls := []
  history := []

/-- `Clnt.makeEnd`: the end made before, or a new one, connected and enabled; `none` when the name
drawn for it is in use, and the process ends. -/
def makeEnd (s : State β) (clerk : ℕ) (endname : String) : Option (Network × String) :=
  match s.ends clerk with
  | some e => some (s.net.net, e)
  | none => do
      let rn ← s.net.net.makeEnd endname
      some ((rn.connect endname serverName).enable endname true, endname)

/-- A Clerk starts a call: `Clnt.Call` on the end `e`. -/
@[simps] def invoke (s : State β) (w : Wire β) (clerk : ℕ) (op : Op) (rn : Network) (e : String) :
    State β where
  net := (s.net.setNet rn).call ⟨e, svcMeth op, w.args op⟩
  ends := Function.update s.ends clerk (some e)
  calls := s.calls ++ [⟨clerk, op, 0, s.net.calls.length, none⟩]
  history := s.history ++ [.call s.calls.length op]

/-- `Call` has returned `true`, and the Clerk returns `r`. -/
@[simps] def finish (s : State β) (n : ℕ) (c : Call) (r : Ret) : State β :=
  { s with
    calls := s.calls.set n { c with ret := some r }
    history := s.history ++ [.ret n r] }

/-- `Call` has returned `false`, and the Clerk calls again. -/
@[simps] def resend (s : State β) (w : Wire β) (n : ℕ) (c : Call) (e : String) : State β :=
  { s with
    net := s.net.call ⟨e, svcMeth c.op, w.args c.op⟩
    calls := s.calls.set n { c with attempt := c.attempt + 1, cur := s.net.calls.length } }

@[simps] def exit (s : State β) : State β := { s with net := s.net.exit }

@[simps] def setNet (s : State β) (net : Labrpc.State KVServer β) : State β :=
  { s with net := net }

/-- The Clerk goes on after its `Call` has returned `r`. -/
def resume (s : State β) (w : Wire β) (n : ℕ) (c : Call) (r : Labrpc.ReplyMsg β) :
    Option (State β) :=
  if r.ok then
    match (r.reply.bind (w.decode c.op)).bind (c.op.finish c.attempt) with
    | some ret => some (s.finish n c ret)
    | none => some s.exit
  else (s.ends c.clerk).map (s.resend w n c)

def step (w : Wire β) (s : State β) (a : Action β) : Option (State β) :=
  if s.net.exited then none
  else match a with
    | .invoke clerk op endname =>
        match s.makeEnd clerk endname with
        | some (rn, e) => some (s.invoke w clerk op rn e)
        | none => some s.exit
    | .resume n => do
        let c ← s.calls[n]?
        let x ← s.net.calls[c.cur]?
        match c.ret, x.stage with
        | none, .returned r => s.resume w n c r
        | _, _ => none
    | .net a => if allowed a then (s.net.step a).map s.setNet else none

end State

/-- Clerks, network and server as a transition system. -/
def system (w : Wire β) : Lts (State β) (Action β) := ⟨State.init w, State.step w⟩

/-- What a step can do: the inversion of `State.step`. -/
inductive Stepped (w : Wire β) (s : State β) : Action β → State β → Prop
  | invoke {clerk : ℕ} {endname : String} {rn : Network} {e : String} (op : Op)
      (he : s.makeEnd clerk endname = some (rn, e)) :
      Stepped w s (.invoke clerk op endname) (s.invoke w clerk op rn e)
  | exit (a : Action β) : Stepped w s a s.exit
  | finish {n : ℕ} {c : Call} {x : Exchange β} {r : Labrpc.ReplyMsg β} {b : β} {reply : Reply}
      {ret : Ret} (hc : s.calls[n]? = some c) (hopen : c.ret = none)
      (hx : s.net.calls[c.cur]? = some x) (hr : x.stage = .returned r) (hok : r.ok = true)
      (hb : r.reply = some b) (hd : w.decode c.op b = some reply)
      (hf : c.op.finish c.attempt reply = some ret) : Stepped w s (.resume n) (s.finish n c ret)
  | resend {n : ℕ} {c : Call} {x : Exchange β} {r : Labrpc.ReplyMsg β} {e : String}
      (hc : s.calls[n]? = some c) (hopen : c.ret = none) (hx : s.net.calls[c.cur]? = some x)
      (hr : x.stage = .returned r) (he : s.ends c.clerk = some e) :
      Stepped w s (.resume n) (s.resend w n c e)
  | net {a : Labrpc.Action KVServer β} {net : Labrpc.State KVServer β} (ha : allowed a = true)
      (hs : s.net.step a = some net) : Stepped w s (.net a) (s.setNet net)

theorem State.step_cases {w : Wire β} {s s' : State β} {a : Action β}
    (h : s.step w a = some s') : Stepped w s a s' := by
  unfold State.step at h
  split at h
  · cases h
  · cases a with
    | invoke clerk op endname =>
        dsimp only at h
        split at h <;> simp only [Option.some.injEq] at h
        · rename_i rn e he
          exact h ▸ .invoke op he
        · exact h ▸ .exit _
    | resume n =>
        simp only [Option.bind_eq_bind, Option.bind_eq_some_iff] at h
        obtain ⟨c, hc, x, hx, h⟩ := h
        split at h
        · rename_i r hopen hr
          unfold State.resume at h
          split at h
          · rename_i hok
            split at h <;> simp only [Option.some.injEq] at h
            · rename_i ret hret
              obtain ⟨reply, hreply, hf⟩ := Option.bind_eq_some_iff.mp hret
              obtain ⟨b, hb, hd⟩ := Option.bind_eq_some_iff.mp hreply
              exact h ▸ .finish hc hopen hx hr hok hb hd hf
            · exact h ▸ .exit _
          · obtain ⟨e, he, rfl⟩ := Option.map_eq_some_iff.mp h
            exact .resend hc hopen hx hr he
        · cases h
    | net a =>
        simp only [Option.ite_none_right_eq_some, Option.map_eq_some_iff] at h
        obtain ⟨ha, net, hs, rfl⟩ := h
        exact .net ha hs

/-! ### The network component runs as `Labrpc.system` -/

theorem not_exited_of_step {w : Wire β} {s s' : State β} {a : Action β}
    (h : s.step w a = some s') : s.net.exited = false := by
  unfold State.step at h
  split at h
  · cases h
  · rename_i he
    simpa using he

section net

variable {net : Labrpc.State KVServer β} (h : (Labrpc.system KVServer β).Reachable net)
  (he : net.exited = false)

include h he

theorem net_control {c : Labrpc.Control} {rn : Network} (hc : net.net.apply c = some rn) :
    (Labrpc.system KVServer β).Reachable (net.setNet rn) :=
  .step (a := .control c) h trivial (by simp [Labrpc.system, Labrpc.State.step, he, hc])

theorem net_call (req : Labrpc.ReqMsg β) :
    (Labrpc.system KVServer β).Reachable (net.call req) :=
  .step (a := .call req) h trivial (by simp [Labrpc.system, Labrpc.State.step, he])

/-- The process can always end: an end that exists cannot be made, and one that does not
cannot be deleted. -/
theorem net_exit : (Labrpc.system KVServer β).Reachable net.exit := by
  by_cases hends : net.net.ends "" = true
  · refine .step (a := .control (.makeEnd "")) h trivial ?_
    simp [Labrpc.system, Labrpc.State.step, he, Network.apply, Network.makeEnd, hends]
  · refine .step (a := .control (.deleteEnd "")) h trivial ?_
    simp [Labrpc.system, Labrpc.State.step, he, Network.apply, Network.deleteEnd, hends]

/-- `Clnt.makeEnd` is at most three calls of the network's methods. -/
theorem net_makeEnd {s : State β} (hs : s.net = net) {clerk : ℕ} {endname e : String}
    {rn : Network} (hm : s.makeEnd clerk endname = some (rn, e)) :
    (Labrpc.system KVServer β).Reachable (net.setNet rn) := by
  subst hs
  unfold State.makeEnd at hm
  split at hm
  · simp only [Option.some.injEq, Prod.mk.injEq] at hm
    obtain ⟨rfl, -⟩ := hm
    exact h
  · simp only [Option.bind_eq_bind, Option.bind_eq_some_iff, Option.some.injEq,
      Prod.mk.injEq] at hm
    obtain ⟨rn₀, hrn, rfl, rfl⟩ := hm
    have h₁ := net_control h he (c := .makeEnd endname) hrn
    have h₂ := net_control h₁ he (c := .connect endname serverName) rfl
    exact net_control h₂ he (c := .enable endname true) rfl

end net

theorem reachable_net {w : Wire β} {C : State β → Action β → Prop} {s : State β}
    (h : (system w).ReachableBy C s) : (Labrpc.system KVServer β).Reachable s.net := by
  have hinit : (Labrpc.system KVServer β).Reachable (State.init w).net :=
    .step (a := .addServer serverName 0) (.step (a := .newServer w.server) .init trivial rfl)
      trivial rfl
  refine h.invariant (I := fun s => (Labrpc.system KVServer β).Reachable s.net) hinit ?_
  intro s a s' _ ih _ hs
  have he := not_exited_of_step hs
  cases State.step_cases hs with
  | invoke op hm => exact net_call (net_makeEnd ih he rfl hm) he _
  | exit a => exact net_exit ih he
  | finish hc hopen hx hr hok hb hd hf => exact ih
  | resend hc hopen hx hr hend => exact net_call ih he _
  | net ha hnet => exact .step ih trivial hnet

/-! ### The wire -/

section wire

variable (w : Wire β)

theorem decode_handle (kv : KVServer) (op : Op) :
    w.decode op (w.encode (kv.handle op).2) = some (kv.handle op).2 := by
  cases op with
  | get args => simp [Wire.decode, Wire.encode, KVServer.handle, Codec.unmarshall_marshall]
  | put args => simp [Wire.decode, Wire.encode, KVServer.handle, Codec.unmarshall_marshall]

theorem splitMethod_svcMeth (op : Op) :
    Labrpc.splitMethod (svcMeth op) =
      some ("KVServer", match op with | .get _ => "Get" | .put _ => "Put") := by
  cases op with
  | get args =>
      change Labrpc.splitMethod "KVServer.Get" = some ("KVServer", "Get")
      decide
  | put args =>
      change Labrpc.splitMethod "KVServer.Put" = some ("KVServer", "Put")
      decide

/-- What the server does with the request of a Clerk. -/
theorem dispatch_request {rs : Server KVServer β} (hs : rs.services "KVServer" = some w.service)
    (hf : rs.dispatchf = none) (e : String) (op : Op) :
    rs.dispatch ⟨e, svcMeth op, w.args op⟩ =
      some ({ rs with rcvr := (rs.rcvr.handle op).1, count := rs.count + 1 },
        ⟨true, some (w.encode (rs.rcvr.handle op).2)⟩) := by
  cases op with
  | get args =>
      simp [Server.dispatch, splitMethod_svcMeth, Server.serve, hf, hs, Service.dispatch,
        Wire.service, Wire.args, Wire.encode, KVServer.handle, Codec.unmarshall_marshall]
  | put args =>
      simp [Server.dispatch, splitMethod_svcMeth, Server.serve, hf, hs, Service.dispatch,
        Wire.service, Wire.args, Wire.encode, KVServer.handle, Codec.unmarshall_marshall]

end wire

end DistributedSystems.KvNetwork
