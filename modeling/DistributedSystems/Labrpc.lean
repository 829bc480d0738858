import DistributedSystems.RemoteCall

/-! # The simulated network

`labrpc/labrpc.go`: client ends, the network that can be told to lose requests and replies, to
disable ends and to forget servers, and the servers with their services.

A `Call` (or `Forward`) passes through the stages of `processReq`:

    sending → arrived → admitted → waiting → left → replying → returned

* The network's goroutine accepts the request and starts `processReq`, which reads once whether the
  end is enabled, to which server it is connected, and whether the network is reliable.
* An unreliable network may drop the request.  Otherwise a second goroutine runs the handler, and
  `processReq` waits for it, but gives up when it finds the server dead.  The handler then
  still runs to its end, at any later time.
* Having left the loop, `processReq` looks again whether the server is dead, and replies only if it
  is not; an unreliable network may drop the reply.

Servers are objects: the network maps a name to one of them, and a server that was deleted and
added again under the same name is another object.  A handler runs in one step; for a handler that
does not return the step is never taken.  Delays (short delays, long reordering, long delays) are
the choice of when a step is taken.  `log.Fatalf` and `panic` end the process: nothing happens any
more (`exited`).

The calls are those of client ends without `SetCall`.  An end with it, as a daemon has it, passes
its calls to a function, and the network does not see them.

Payloads are of an arbitrary type `β`, the objects behind the services of a server of an
arbitrary type `σ`. -/

namespace DistributedSystems.Labrpc

variable {σ β : Type}

/-- `reqMsg`, without the channel for the reply. -/
structure ReqMsg (β : Type) where
  endname : String
  svcMeth : String
  args : β
deriving DecidableEq, Repr

/-- `replyMsg`; `reply` is `none` for `nil`. -/
structure ReplyMsg (β : Type) where
  ok : Bool
  reply : Option β
deriving DecidableEq, Repr

/-- `replyMsg{false, nil}`. -/
def ReplyMsg.failed : ReplyMsg β := ⟨false, none⟩

/-- `Marshall` and `Unmarshall` for the values of one type, as `labgob` provides them: what was
encoded can be decoded; `none` when `Unmarshall` ends the process. -/
structure Codec (α β : Type) where
  marshall : α → β
  unmarshall : β → Option α
  unmarshall_marshall : ∀ a, unmarshall (marshall a) = some a

/-! ### Servers and services -/

/-- A `Service`: a method decodes its argument, runs and encodes its reply; `none` when the
argument cannot be decoded. -/
structure Service (σ β : Type) where
  name : String
  methods : String → Option (σ → β → Option (σ × β))

structure Server (σ β : Type) where
  rcvr : σ
  services : String → Option (Service σ β)
  count : ℕ
  dispatchf : Option (σ → String → β → Option (σ × ReplyMsg β))

/-- `MakeServer`, for the object `rcvr` behind its services. -/
def makeServer (rcvr : σ) : Server σ β := ⟨rcvr, fun _ => none, 0, none⟩

def Server.addService (rs : Server σ β) (svc : Service σ β) : Server σ β :=
  { rs with services := Function.update rs.services svc.name (some svc) }

def Server.setDispatch (rs : Server σ β) (f : σ → String → β → Option (σ × ReplyMsg β)) :
    Server σ β :=
  { rs with dispatchf := some f }

/-- The parts before and after the last `c`. -/
def splitLast (c : Char) : List Char → Option (List Char × List Char)
  | [] => none
  | x :: l =>
      match splitLast c l with
      | some (before, after) => some (x :: before, after)
      | none => if x = c then some ([], l) else none

/-- `strings.LastIndex(svcMeth, ".")` and the two slices; without a dot the first slice
panics. -/
def splitMethod (svcMeth : String) : Option (String × String) :=
  (splitLast '.' svcMeth.toList).map fun p => (String.ofList p.1, String.ofList p.2)

/-- `Service.dispatch`; `none` when it ends the process. -/
def Service.dispatch (svc : Service σ β) (methname : String) (rcvr : σ) (args : β) :
    Option (σ × ReplyMsg β) := do
  let method ← svc.methods methname
  let (rcvr, rep) ← method rcvr args
  some (rcvr, ⟨true, some rep⟩)

/-- The end of `Server.dispatch`: the forwarding function, if one is set, or the service. -/
def Server.serve (rs : Server σ β) (serviceName methodName : String) (req : ReqMsg β) :
    Option (σ × ReplyMsg β) :=
  match rs.dispatchf with
  | some f => f rs.rcvr req.svcMeth req.args
  | none => do
      let service ← rs.services serviceName
      service.dispatch methodName rs.rcvr req.args

/-- `Server.dispatch`; `none` when it ends the process. -/
def Server.dispatch (rs : Server σ β) (req : ReqMsg β) : Option (Server σ β × ReplyMsg β) := do
  let (serviceName, methodName) ← splitMethod req.svcMeth
  let (rcvr, rep) ← rs.serve serviceName methodName req
  some ({ rs with rcvr := rcvr, count := rs.count + 1 }, rep)

/-! ### The configuration of the network -/

/-- The fields of `Network` that decide what happens to a request.  `servers` maps a name to a
server object, and `none` stands for an absent name as well as for `nil`. -/
structure Network where
  reliable : Bool
  ends : String → Bool
  enabled : String → Bool
  servers : String → Option ℕ
  connections : String → Option String

/-- What `processReq` has read before it admits a request. -/
structure Info where
  servername : String
  server : ℕ
  reliable : Bool
deriving DecidableEq, Repr

namespace Network

/-- `MakeNetwork`. -/
def make : Network := ⟨true, fun _ => false, fun _ => false, fun _ => none, fun _ => none⟩

/-- `MakeEnd`; `none` when the end exists and the process ends. -/
def makeEnd (rn : Network) (endname : String) : Option Network :=
  if rn.ends endname then none
  else some { rn with
    ends := Function.update rn.ends endname true
    enabled := Function.update rn.enabled endname false
    connections := Function.update rn.connections endname none }

/-- `DeleteEnd`; `none` when the end does not exist and the process ends. -/
def deleteEnd (rn : Network) (endname : String) : Option Network :=
  if rn.ends endname then some { rn with
    ends := Function.update rn.ends endname false
    enabled := Function.update rn.enabled endname false
    connections := Function.update rn.connections endname none }
  else none

@[simps] def addServer (rn : Network) (servername : String) (rs : ℕ) : Network :=
  { rn with servers := Function.update rn.servers servername (some rs) }

@[simps] def deleteServer (rn : Network) (servername : String) : Network :=
  { rn with servers := Function.update rn.servers servername none }

@[simps] def connect (rn : Network) (endname servername : String) : Network :=
  { rn with connections := Function.update rn.connections endname (some servername) }

@[simps] def enable (rn : Network) (endname : String) (enabled : Bool) : Network :=
  { rn with enabled := Function.update rn.enabled endname enabled }

/-- `Reliable`. -/
@[simps] def setReliable (rn : Network) (yes : Bool) : Network := { rn with reliable := yes }

/-- `readEndnameInfo` with the test of `processReq` on what it returns. -/
def readEndnameInfo (rn : Network) (endname : String) : Option Info := do
  let servername ← rn.connections endname
  let server ← rn.servers servername
  if rn.enabled endname then some ⟨servername, server, rn.reliable⟩ else none

def isServerDead (rn : Network) (endname servername : String) (server : ℕ) : Bool :=
  !rn.enabled endname || rn.servers servername != some server

end Network

/-! ### Calls -/

/-- How far a call has come. -/
inductive Stage (β : Type) where
  /-- `e.ch <- req` blocks. -/
  | sending
  /-- `processReq` has started. -/
  | arrived
  /-- The server is there; the request may still be dropped. -/
  | admitted (i : Info)
  /-- In the loop that waits for the handler. -/
  | waiting (i : Info)
  /-- The loop was left, with the handler's reply or because the server was dead. -/
  | left (i : Info) (reply : Option (ReplyMsg β))
  /-- `req.replyCh <- r` is pending. -/
  | replying (r : ReplyMsg β)
  | returned (r : ReplyMsg β)
deriving DecidableEq, Repr

/-- The goroutine that runs the handler at a server object. -/
inductive Handler (β : Type) where
  | idle
  | running (server : ℕ)
  | finished (server : ℕ) (r : ReplyMsg β)
deriving DecidableEq, Repr

structure Exchange (β : Type) where
  req : ReqMsg β
  stage : Stage β
  handler : Handler β
deriving DecidableEq, Repr

/-- The network with its server objects (`servers`), all calls ever made, whether `Cleanup` was
called (`done`), and whether the goroutine that accepts requests still runs (`listening`). -/
structure State (σ β : Type) where
  net : Network
  servers : List (Server σ β)
  calls : List (Exchange β)
  done : Bool
  listening : Bool
  exited : Bool
  log : List (RemoteCall.Event (ReqMsg β) (ReplyMsg β))

/-- The configuring methods of `Network`, `AddServer` apart. -/
inductive Control where
  | makeEnd (endname : String)
  | deleteEnd (endname : String)
  | deleteServer (servername : String)
  | connect (endname servername : String)
  | enable (endname : String) (enabled : Bool)
  | reliable (yes : Bool)
deriving DecidableEq, Repr

/-- The steps of the goroutines that take part in one call, the handler apart. -/
inductive Move where
  | accept
  | abandon
  | read
  | drop
  | dispatch
  | receive
  | expire
  | conclude
  | dropReply
  | deliver
deriving DecidableEq, Repr

inductive Action (σ β : Type) where
  | newServer (rs : Server σ β)
  | addServer (servername : String) (rs : ℕ)
  | control (c : Control)
  | cleanup
  | stop
  | call (req : ReqMsg β)
  | move (n : ℕ) (m : Move)
  | execute (n : ℕ)

/-- The steps the network takes by itself. -/
def Action.internal : Action σ β → Bool
  | .stop | .move _ _ | .execute _ => true
  | _ => false

/-- A configuring method; `none` when it ends the process. -/
def Network.apply (rn : Network) : Control → Option Network
  | .makeEnd endname => rn.makeEnd endname
  | .deleteEnd endname => rn.deleteEnd endname
  | .deleteServer servername => some (rn.deleteServer servername)
  | .connect endname servername => some (rn.connect endname servername)
  | .enable endname enabled => some (rn.enable endname enabled)
  | .reliable yes => some (rn.setReliable yes)

namespace State

def init : State σ β := ⟨.make, [], [], false, true, false, []⟩

/-- The next stage of a call. -/
def next (s : State σ β) (x : Exchange β) : Move → Option (Stage β)
  | .accept => if x.stage matches .sending ∧ s.listening then some .arrived else none
  | .abandon => if x.stage matches .sending ∧ s.done then some (.returned .failed) else none
  | .read =>
      match x.stage with
      | .arrived =>
          match s.net.readEndnameInfo x.req.endname with
          | some i => some (.admitted i)
          -- simulate no reply and eventual timeout
          | none => some (.replying .failed)
      | _ => none
  | .drop =>
      match x.stage with
      | .admitted i => if i.reliable then none else some (.replying .failed)
      | _ => none
  | .dispatch =>
      match x.stage with
      | .admitted i => some (.waiting i)
      | _ => none
  | .receive =>
      match x.stage, x.handler with
      | .waiting i, .finished _ r => some (.left i (some r))
      | _, _ => none
  | .expire =>
      match x.stage with
      | .waiting i =>
          if s.net.isServerDead x.req.endname i.servername i.server then some (.left i none)
          else none
      | _ => none
  | .conclude =>
      match x.stage with
      | .left i reply =>
          -- do not reply if DeleteServer() has been called
          if s.net.isServerDead x.req.endname i.servername i.server then some (.replying .failed)
          else some (.replying (reply.getD .failed))
      | _ => none
  | .dropReply =>
      match x.stage with
      | .left i (some _) => if i.reliable then none else some (.replying .failed)
      | _ => none
  | .deliver =>
      match x.stage with
      | .replying r => some (.returned r)
      | _ => none

/-- What the call returned, as the caller sees it. -/
def result (r : ReplyMsg β) : Option (ReplyMsg β) := if r.ok then some r else none

/-- The event of a move: a call that returns. -/
@[simp] def retEvent (n : ℕ) : Stage β → List (RemoteCall.Event (ReqMsg β) (ReplyMsg β))
  | .returned r => [.ret n (result r)]
  | _ => []

/-- The handler goroutine is started when `processReq` enters its loop. -/
@[simp] def started (h : Handler β) : Stage β → Handler β
  | .waiting i => .running i.server
  | _ => h

@[simps] def setNet (s : State σ β) (net : Network) : State σ β := { s with net := net }

@[simps] def exit (s : State σ β) : State σ β := { s with exited := true }

@[simps] def call (s : State σ β) (req : ReqMsg β) : State σ β :=
  { s with
    calls := s.calls ++ [⟨req, .sending, .idle⟩]
    log := s.log ++ [.call s.calls.length req] }

/-- The call `x`, stored at position `n`, goes on to `stage`. -/
@[simps] def move (s : State σ β) (n : ℕ) (x : Exchange β) (stage : Stage β) : State σ β :=
  { s with
    calls := s.calls.set n { x with stage := stage, handler := started x.handler stage }
    log := s.log ++ retEvent n stage }

/-- The handler of the call `x` has run at the server object `o`, which is now `rs`. -/
@[simps] def execute (s : State σ β) (n : ℕ) (x : Exchange β) (o : ℕ) (rs : Server σ β)
    (r : ReplyMsg β) : State σ β :=
  { s with
    servers := s.servers.set o rs
    calls := s.calls.set n { x with handler := .finished o r }
    log := s.log ++ [.exec n r] }

def step (s : State σ β) (a : Action σ β) : Option (State σ β) :=
  if s.exited then none
  else match a with
    | .newServer rs => some { s with servers := s.servers ++ [rs] }
    | .addServer servername rs =>
        if rs < s.servers.length then some (s.setNet (s.net.addServer servername rs)) else none
    | .control c =>
        match s.net.apply c with
        | some net => some (s.setNet net)
        | none => some s.exit
    | .cleanup => if s.done then some s.exit else some { s with done := true }
    | .stop => if s.done ∧ s.listening then some { s with listening := false } else none
    | .call req => some (s.call req)
    | .move n m => do
        let x ← s.calls[n]?
        let stage ← s.next x m
        some (s.move n x stage)
    | .execute n => do
        let x ← s.calls[n]?
        match x.handler with
        | .running o => do
            let rs ← s.servers[o]?
            match rs.dispatch x.req with
            | some (rs', r) => some (s.execute n x o rs' r)
            | none => some s.exit
        | _ => none

end State

/-- The network as a transition system. -/
def system (σ β : Type) : Lts (State σ β) (Action σ β) := ⟨State.init, State.step⟩

/-! ### What a step can do -/

section steps

variable {s s' : State σ β}

/-- The inversion of `State.next`: a move leads from one stage to another. -/
inductive Moved (s : State σ β) (x : Exchange β) : Move → Stage β → Prop
  | accept (hx : x.stage = .sending) (hl : s.listening = true) : Moved s x .accept .arrived
  | abandon (hx : x.stage = .sending) (hd : s.done = true) :
      Moved s x .abandon (.returned .failed)
  | grant {i : Info} (hx : x.stage = .arrived)
      (hi : s.net.readEndnameInfo x.req.endname = some i) : Moved s x .read (.admitted i)
  | refuse (hx : x.stage = .arrived) (hi : s.net.readEndnameInfo x.req.endname = none) :
      Moved s x .read (.replying .failed)
  | drop {i : Info} (hx : x.stage = .admitted i) (hr : i.reliable = false) :
      Moved s x .drop (.replying .failed)
  | dispatch {i : Info} (hx : x.stage = .admitted i) : Moved s x .dispatch (.waiting i)
  | receive {i : Info} {o : ℕ} {r : ReplyMsg β} (hx : x.stage = .waiting i)
      (hh : x.handler = .finished o r) : Moved s x .receive (.left i (some r))
  | expire {i : Info} (hx : x.stage = .waiting i)
      (hd : s.net.isServerDead x.req.endname i.servername i.server = true) :
      Moved s x .expire (.left i none)
  | dead {i : Info} {reply : Option (ReplyMsg β)} (hx : x.stage = .left i reply)
      (hd : s.net.isServerDead x.req.endname i.servername i.server = true) :
      Moved s x .conclude (.replying .failed)
  | reply {i : Info} {reply : Option (ReplyMsg β)} (hx : x.stage = .left i reply)
      (hd : s.net.isServerDead x.req.endname i.servername i.server = false) :
      Moved s x .conclude (.replying (reply.getD .failed))
  | dropReply {i : Info} {r : ReplyMsg β} (hx : x.stage = .left i (some r))
      (hr : i.reliable = false) : Moved s x .dropReply (.replying .failed)
  | deliver {r : ReplyMsg β} (hx : x.stage = .replying r) : Moved s x .deliver (.returned r)

theorem State.next_cases {x : Exchange β} {m : Move} {stage : Stage β}
    (h : s.next x m = some stage) : Moved s x m stage := by
  obtain ⟨req, st, handler⟩ := x
  cases m with
  | accept =>
      cases st <;> simp [State.next] at h
      exact h.2 ▸ .accept rfl h.1
  | abandon =>
      cases st <;> simp [State.next] at h
      exact h.2 ▸ .abandon rfl h.1
  | read =>
      cases st <;> simp only [State.next, reduceCtorEq] at h
      cases hi : s.net.readEndnameInfo req.endname with
      | none =>
          simp only [hi, Option.some.injEq] at h
          exact h ▸ .refuse rfl hi
      | some i =>
          simp only [hi, Option.some.injEq] at h
          exact h ▸ .grant rfl hi
  | drop =>
      cases st <;> simp [State.next] at h
      exact h.2 ▸ .drop rfl h.1
  | dispatch =>
      cases st <;> simp [State.next] at h
      exact h ▸ .dispatch rfl
  | receive =>
      cases st <;> cases handler <;> simp [State.next] at h
      exact h ▸ .receive rfl rfl
  | expire =>
      cases st <;> simp [State.next] at h
      exact h.2 ▸ .expire rfl h.1
  | conclude =>
      cases st <;> simp only [State.next, reduceCtorEq] at h
      split at h
      · rename_i hd
        simp only [Option.some.injEq] at h
        exact h ▸ .dead rfl hd
      · rename_i hd
        simp only [Option.some.injEq] at h
        exact h ▸ .reply rfl (by simpa using hd)
  | dropReply =>
      cases st with
      | left i reply =>
          cases reply <;> simp [State.next] at h
          exact h.2 ▸ .dropReply rfl h.1
      | _ => simp [State.next] at h
  | deliver =>
      cases st <;> simp [State.next] at h
      exact h ▸ .deliver rfl

/-- What a step can do: the inversion of `State.step`. -/
inductive Stepped (s : State σ β) : Action σ β → State σ β → Prop
  | newServer (rs : Server σ β) :
      Stepped s (.newServer rs) { s with servers := s.servers ++ [rs] }
  | addServer (servername : String) {rs : ℕ} (hrs : rs < s.servers.length) :
      Stepped s (.addServer servername rs) (s.setNet (s.net.addServer servername rs))
  | control {c : Control} {net : Network} (hn : s.net.apply c = some net) :
      Stepped s (.control c) (s.setNet net)
  | exit (a : Action σ β) : Stepped s a s.exit
  | cleanup (hd : s.done = false) : Stepped s .cleanup { s with done := true }
  | stop (hd : s.done = true) (hl : s.listening = true) :
      Stepped s .stop { s with listening := false }
  | call (req : ReqMsg β) : Stepped s (.call req) (s.call req)
  | move {n : ℕ} {m : Move} {x : Exchange β} {stage : Stage β} (hx : s.calls[n]? = some x)
      (hm : Moved s x m stage) : Stepped s (.move n m) (s.move n x stage)
  | execute {n o : ℕ} {x : Exchange β} {rs rs' : Server σ β} {r : ReplyMsg β}
      (hx : s.calls[n]? = some x) (hh : x.handler = .running o) (ho : s.servers[o]? = some rs)
      (hr : rs.dispatch x.req = some (rs', r)) : Stepped s (.execute n) (s.execute n x o rs' r)

theorem State.step_cases {a : Action σ β} (h : s.step a = some s') : Stepped s a s' := by
  unfold State.step at h
  split at h
  · cases h
  · cases a with
    | newServer rs =>
        simp only [Option.some.injEq] at h
        exact h ▸ .newServer rs
    | addServer servername rs =>
        simp only [Option.ite_none_right_eq_some, Option.some.injEq] at h
        exact h.2 ▸ .addServer servername h.1
    | control c =>
        dsimp only at h
        split at h <;> simp only [Option.some.injEq] at h
        · rename_i net hn
          exact h ▸ .control hn
        · exact h ▸ .exit _
    | cleanup =>
        dsimp only at h
        split at h <;> simp only [Option.some.injEq] at h
        · exact h ▸ .exit _
        · rename_i hd
          exact h ▸ .cleanup (by simpa using hd)
    | stop =>
        simp only [Option.ite_none_right_eq_some, Option.some.injEq] at h
        exact h.2 ▸ .stop h.1.1 h.1.2
    | call req =>
        simp only [Option.some.injEq] at h
        exact h ▸ .call req
    | move n m =>
        simp only [Option.bind_eq_bind, Option.bind_eq_some_iff, Option.some.injEq] at h
        obtain ⟨x, hx, stage, hm, rfl⟩ := h
        exact .move hx (State.next_cases hm)
    | execute n =>
        simp only [Option.bind_eq_bind, Option.bind_eq_some_iff] at h
        obtain ⟨x, hx, h⟩ := h
        cases hh : x.handler with
        | running o =>
            simp only [hh, Option.bind_eq_some_iff] at h
            obtain ⟨rs, ho, h⟩ := h
            split at h <;> simp only [Option.some.injEq] at h
            · rename_i rs' r hr
              exact h ▸ .execute hx hh ho hr
            · exact h ▸ .exit _
        | idle => simp [hh] at h
        | finished o r => simp [hh] at h

end steps

end DistributedSystems.Labrpc
