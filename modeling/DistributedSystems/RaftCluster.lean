import DistributedSystems.TransitionSystem
import DistributedSystems.Parties
import DistributedSystems.RaftServer

/-! # The Raft cluster

The servers of `raft1/raft.go`, their goroutines and the network between them as one transition
system.  A step is a section of code that runs without another server, goroutine or message
coming in between: a critical section, or a single unlocked read or write of the server's state.

Every server has its `electionTicker` (`Ticker`).  `requestVotes` starts a goroutine for every
peer that reads the term when it first runs and then calls the peer until a call returns;
`makeLeader` starts the goroutine of the heartbeat loop, which starts a goroutine for every peer
and round (`Task`).

A `Call` puts one request into the network.  The network runs the handler for it at most once, at
any later time or never; `Call` returns `true` with the reply the handler has sent, or `false` at
any time. -/

namespace DistributedSystems.Raft

/-! ### Goroutines and messages -/

/-- Where the `electionTicker` is: at its test, before the critical section of `makeCandidate`, or
before `requestVotes`. -/
inductive Ticker where
  | check
  | elect
  | request
deriving DecidableEq, Repr

/-- Where a goroutine is. -/
inductive Task where
  /-- `requestVoteFromServer` before it reads the term. -/
  | voteStart (ctx peer : ℕ)
  /-- The loop of `requestVoteFromServer`. -/
  | voteLoop (ctx peer : ℕ) (args : RequestVoteArgs)
  | voteWait (ctx peer : ℕ) (args : RequestVoteArgs) (call : ℕ)
  /-- `startHeartbeat` before it sets `abortHeartbeat`. -/
  | heartbeatStart
  | heartbeatLoop (ctx : ℕ)
  /-- `sendHeartbeat` before its critical section. -/
  | beatStart (peer : ℕ)
  | beatCall (peer : ℕ) (args : AppendEntriesArgs)
  | beatWait (call : ℕ)
  | done
deriving DecidableEq, Repr

structure Goroutine where
  server : ℕ
  task : Task
deriving DecidableEq, Repr

inductive Msg where
  | requestVote (args : RequestVoteArgs)
  | appendEntries (args : AppendEntriesArgs)
deriving DecidableEq, Repr

inductive Reply where
  | requestVote (reply : RequestVoteReply)
  | appendEntries (reply : AppendEntriesReply)
deriving DecidableEq, Repr

structure Request where
  call : ℕ
  dest : ℕ
  msg : Msg
deriving DecidableEq, Repr

structure Response where
  call : ℕ
  reply : Reply
deriving DecidableEq, Repr

/-! ### States and steps -/

structure State where
  now : ℤ
  servers : List Server
  tickers : List Ticker
  gos : List Goroutine
  calls : ℕ
  requests : List Request
  replies : List Response
  log : List Event

/-- `clock`: the time of day.  `timeout`: the test of the ticker of a server, with its random
number.  `elect` and `request`: the two sections of `makeCandidate`.  `run`: the next section of a
goroutine.  `deliver`: a handler runs.  `lose`: a request is lost.  `callTrue` and `callFalse`:
the `Call` of a goroutine returns. -/
inductive Action where
  | clock (now : ℤ)
  | timeout (i r : ℕ)
  | elect (i : ℕ)
  | request (i : ℕ)
  | run (g : ℕ)
  | deliver (k : ℕ)
  | lose (k : ℕ)
  | callTrue (g k : ℕ)
  | callFalse (g : ℕ)
deriving DecidableEq, Repr

namespace State

/-- A cluster of `n` servers made by `Make`. -/
def init (n : ℕ) : State where
  now := 0
  servers := (List.range n).map (fun i => Server.make n i 0)
  tickers := List.replicate n .check
  gos := []
  calls := 0
  requests := []
  replies := []
  log := []

variable (s : State)

/-- The server `i`, unless it has panicked. -/
def alive (i : ℕ) : Option Server := s.servers[i]?.filter (fun rf => !rf.panicked)

/-- The peers that the loops of the server `i` go over. -/
def peers (i : ℕ) : List ℕ := (List.range s.servers.length).filter (· ≠ i)

/-- The server `i` has run a section of its code. -/
@[simps] def serve (i : ℕ) (rf : Server) (es : List Event) : State :=
  { s with servers := s.servers.set i rf, log := s.log ++ es }

@[simps] def tick (i : ℕ) (t : Ticker) : State := { s with tickers := s.tickers.set i t }

@[simps] def become (g : ℕ) (go : Goroutine) : State := { s with gos := s.gos.set g go }

@[simps] def spawn (gos : List Goroutine) : State := { s with gos := s.gos ++ gos }

/-- A `Call` sends its request. -/
@[simps] def send (dest : ℕ) (msg : Msg) (e : Event) : State :=
  { s with
    calls := s.calls + 1
    requests := s.requests ++ [⟨s.calls, dest, msg⟩]
    log := s.log ++ [e] }

@[simps] def answer (k : ℕ) (replies : List Response) : State :=
  { s with requests := s.requests.eraseIdx k, replies := s.replies ++ replies }

/-- The critical section of `makeCandidate`. -/
def makeCandidate (i : ℕ) (rf : Server) : State :=
  let rf' := rf.makeCandidate s.now
  (s.serve i rf'
    (if rf'.panicked then [] else [.candidacy rf.me (rf.currentTerm + 1)])).tick i .request

def requestVotes (i : ℕ) (rf : Server) : State :=
  let c := rf.newContext
  ((s.serve i { c.1 with abortElection := some c.2 } []).spawn
    ((s.peers i).map (fun peer => ⟨i, .voteStart c.2 peer⟩))).tick i .check

/-- The next section of the goroutine `g` of the server `i`. -/
def run (g i : ℕ) (rf : Server) : Task → Option State
  | .voteStart ctx peer =>
      some (s.become g ⟨i, .voteLoop ctx peer ⟨rf.currentTerm, rf.me⟩⟩)
  | .voteLoop ctx peer args =>
      if rf.cancelled ctx then some (s.become g ⟨i, .done⟩)
      else some ((s.send peer (.requestVote args) (.sentVote i peer args)).become g
        ⟨i, .voteWait ctx peer args s.calls⟩)
  | .heartbeatStart =>
      let c := rf.newContext
      some ((s.serve i { c.1 with abortHeartbeat := some c.2 } []).become g ⟨i, .heartbeatLoop c.2⟩)
  | .heartbeatLoop ctx =>
      if rf.cancelled ctx then some (s.become g ⟨i, .done⟩)
      else some (s.spawn ((s.peers i).map (fun peer => ⟨i, .beatStart peer⟩)))
  | .beatStart peer => some (s.become g ⟨i, .beatCall peer ⟨rf.currentTerm, rf.me⟩⟩)
  | .beatCall peer args =>
      some ((s.send peer (.appendEntries args) (.sentBeat i peer args)).become g
        ⟨i, .beatWait s.calls⟩)
  | .voteWait _ _ _ _ => none
  | .beatWait _ => none
  | .done => none

/-- A handler runs at the destination of the request. -/
def deliver (k : ℕ) (q : Request) (rf : Server) : State :=
  match q.msg with
  | .requestVote args =>
      let p := rf.requestVote args s.now
      (s.serve q.dest p.1
        (if p.2.voteGranted then [.grant rf.me args.term args.candidateId] else [])).answer k
          [⟨q.call, .requestVote p.2⟩]
  | .appendEntries args =>
      let p := rf.appendEntries args s.now
      (s.serve q.dest p.1 []).answer k (p.2.toList.map (fun r => ⟨q.call, .appendEntries r⟩))

/-- The `Call` of the goroutine `g` returns a reply to `requestVoteFromServer`. -/
def handleRequestVote (g i : ℕ) (rf : Server) (reply : RequestVoteReply) : State :=
  let p := rf.handleRequestVote reply
  ((s.serve i p.1 (if p.2 then [.promoted rf.me rf.currentTerm] else [])).become g ⟨i, .done⟩).spawn
    (if p.2 then [⟨i, .heartbeatStart⟩] else [])

/-- The `Call` of the goroutine `g` returns a reply to `sendHeartbeat`. -/
def handleAppendEntries (g i : ℕ) (rf : Server) (reply : AppendEntriesReply) : State :=
  (s.serve i (rf.handleAppendEntries reply) []).become g ⟨i, .done⟩

def callTrue (g i : ℕ) (rf : Server) (p : Response) : Task → Option State
  | .voteWait _ _ _ call =>
      match p.reply with
      | .requestVote reply =>
          if p.call = call then some (s.handleRequestVote g i rf reply) else none
      | .appendEntries _ => none
  | .beatWait call =>
      match p.reply with
      | .appendEntries reply =>
          if p.call = call then some (s.handleAppendEntries g i rf reply) else none
      | .requestVote _ => none
  | _ => none

def callFalse (g i : ℕ) : Task → Option State
  | .voteWait ctx peer args _ => some (s.become g ⟨i, .voteLoop ctx peer args⟩)
  | .beatWait _ => some (s.become g ⟨i, .done⟩)
  | _ => none

def step (s : State) : Action → Option State
  | .clock now => some { s with now := now }
  | .timeout i r => do
      let rf ← s.alive i
      let t ← s.tickers[i]?
      if t = .check then
        if rf.shouldStartElection s.now r then some (s.tick i .elect) else some s
      else none
  | .elect i => do
      let rf ← s.alive i
      let t ← s.tickers[i]?
      if t = .elect then some (s.makeCandidate i rf) else none
  | .request i => do
      let rf ← s.alive i
      let t ← s.tickers[i]?
      if t = .request then some (s.requestVotes i rf) else none
  | .run g => do
      let go ← s.gos[g]?
      let rf ← s.alive go.server
      s.run g go.server rf go.task
  | .deliver k => do
      let q ← s.requests[k]?
      let rf ← s.alive q.dest
      some (s.deliver k q rf)
  | .lose k => do
      let _ ← s.requests[k]?
      some (s.answer k [])
  | .callTrue g k => do
      let go ← s.gos[g]?
      let rf ← s.alive go.server
      let p ← s.replies[k]?
      s.callTrue g go.server rf p go.task
  | .callFalse g => do
      let go ← s.gos[g]?
      let _ ← s.alive go.server
      s.callFalse g go.server go.task

end State

/-- A cluster of `n` servers as a transition system. -/
def system (n : ℕ) : Lts State Action := ⟨State.init n, State.step⟩

/-! ### What a step can do -/

/-- The inversion of `State.step`. -/
inductive Stepped (s : State) : Action → State → Prop
  | clock (now : ℤ) : Stepped s (.clock now) { s with now := now }
  | idle (i r : ℕ) : Stepped s (.timeout i r) s
  | timeout {i r : ℕ} {rf : Server} (hrf : s.alive i = some rf)
      (h : rf.shouldStartElection s.now r = true) : Stepped s (.timeout i r) (s.tick i .elect)
  | elect {i : ℕ} {rf : Server} (hrf : s.alive i = some rf) (ht : s.tickers[i]? = some .elect) :
      Stepped s (.elect i) (s.makeCandidate i rf)
  | request {i : ℕ} {rf : Server} (hrf : s.alive i = some rf)
      (ht : s.tickers[i]? = some .request) : Stepped s (.request i) (s.requestVotes i rf)
  | voteStart {g i ctx peer : ℕ} {rf : Server} (hg : s.gos[g]? = some ⟨i, .voteStart ctx peer⟩)
      (hrf : s.alive i = some rf) :
      Stepped s (.run g) (s.become g ⟨i, .voteLoop ctx peer ⟨rf.currentTerm, rf.me⟩⟩)
  | voteAbort {g i ctx peer : ℕ} {args : RequestVoteArgs} {rf : Server}
      (hg : s.gos[g]? = some ⟨i, .voteLoop ctx peer args⟩) (hrf : s.alive i = some rf)
      (hc : rf.cancelled ctx = true) : Stepped s (.run g) (s.become g ⟨i, .done⟩)
  | voteSend {g i ctx peer : ℕ} {args : RequestVoteArgs} {rf : Server}
      (hg : s.gos[g]? = some ⟨i, .voteLoop ctx peer args⟩) (hrf : s.alive i = some rf)
      (hc : rf.cancelled ctx = false) :
      Stepped s (.run g) ((s.send peer (.requestVote args) (.sentVote i peer args)).become g
        ⟨i, .voteWait ctx peer args s.calls⟩)
  | heartbeatStart {g i : ℕ} {rf : Server} (hg : s.gos[g]? = some ⟨i, .heartbeatStart⟩)
      (hrf : s.alive i = some rf) :
      Stepped s (.run g)
        ((s.serve i { rf.newContext.1 with abortHeartbeat := some rf.newContext.2 } []).become g
          ⟨i, .heartbeatLoop rf.newContext.2⟩)
  | heartbeatAbort {g i ctx : ℕ} {rf : Server} (hg : s.gos[g]? = some ⟨i, .heartbeatLoop ctx⟩)
      (hrf : s.alive i = some rf) (hc : rf.cancelled ctx = true) :
      Stepped s (.run g) (s.become g ⟨i, .done⟩)
  | heartbeat {g i ctx : ℕ} {rf : Server} (hg : s.gos[g]? = some ⟨i, .heartbeatLoop ctx⟩)
      (hrf : s.alive i = some rf) (hc : rf.cancelled ctx = false) :
      Stepped s (.run g) (s.spawn ((s.peers i).map (fun peer => ⟨i, .beatStart peer⟩)))
  | beatStart {g i peer : ℕ} {rf : Server} (hg : s.gos[g]? = some ⟨i, .beatStart peer⟩)
      (hrf : s.alive i = some rf) :
      Stepped s (.run g) (s.become g ⟨i, .beatCall peer ⟨rf.currentTerm, rf.me⟩⟩)
  | beatSend {g i peer : ℕ} {args : AppendEntriesArgs}
      (hg : s.gos[g]? = some ⟨i, .beatCall peer args⟩) :
      Stepped s (.run g) ((s.send peer (.appendEntries args) (.sentBeat i peer args)).become g
        ⟨i, .beatWait s.calls⟩)
  | deliver {k : ℕ} {q : Request} {rf : Server} (hq : s.requests[k]? = some q)
      (hrf : s.alive q.dest = some rf) : Stepped s (.deliver k) (s.deliver k q rf)
  | lose (k : ℕ) : Stepped s (.lose k) (s.answer k [])
  | voteReply {g i ctx peer call k : ℕ} {args : RequestVoteArgs} {reply : RequestVoteReply}
      {rf : Server} (hg : s.gos[g]? = some ⟨i, .voteWait ctx peer args call⟩)
      (hrf : s.alive i = some rf) (hp : s.replies[k]? = some ⟨call, .requestVote reply⟩) :
      Stepped s (.callTrue g k) (s.handleRequestVote g i rf reply)
  | beatReply {g i call k : ℕ} {reply : AppendEntriesReply} {rf : Server}
      (hg : s.gos[g]? = some ⟨i, .beatWait call⟩) (hrf : s.alive i = some rf)
      (hp : s.replies[k]? = some ⟨call, .appendEntries reply⟩) :
      Stepped s (.callTrue g k) (s.handleAppendEntries g i rf reply)
  | voteFailed {g i ctx peer call : ℕ} {args : RequestVoteArgs}
      (hg : s.gos[g]? = some ⟨i, .voteWait ctx peer args call⟩) :
      Stepped s (.callFalse g) (s.become g ⟨i, .voteLoop ctx peer args⟩)
  | beatFailed {g i call : ℕ} (hg : s.gos[g]? = some ⟨i, .beatWait call⟩) :
      Stepped s (.callFalse g) (s.become g ⟨i, .done⟩)

namespace State

variable {s s' : State}

theorem run_cases {g : ℕ} {go : Goroutine} {rf : Server} (hg : s.gos[g]? = some go)
    (hrf : s.alive go.server = some rf) (h : s.run g go.server rf go.task = some s') :
    Stepped s (.run g) s' := by
  obtain ⟨i, task⟩ := go
  cases task with
  | voteStart ctx peer =>
      simp only [run, Option.some.injEq] at h
      exact h ▸ .voteStart hg hrf
  | voteLoop ctx peer args =>
      simp only [run] at h
      split_ifs at h with hc
      · cases h
        exact .voteAbort hg hrf hc
      · cases h
        exact .voteSend hg hrf (Bool.eq_false_of_not_eq_true hc)
  | heartbeatStart =>
      simp only [run, Option.some.injEq] at h
      exact h ▸ .heartbeatStart hg hrf
  | heartbeatLoop ctx =>
      simp only [run] at h
      split_ifs at h with hc
      · cases h
        exact .heartbeatAbort hg hrf hc
      · cases h
        exact .heartbeat hg hrf (Bool.eq_false_of_not_eq_true hc)
  | beatStart peer =>
      simp only [run, Option.some.injEq] at h
      exact h ▸ .beatStart hg hrf
  | beatCall peer args =>
      simp only [run, Option.some.injEq] at h
      exact h ▸ .beatSend hg
  | voteWait ctx peer args call => cases h
  | beatWait call => cases h
  | done => cases h

theorem callTrue_cases {g k : ℕ} {go : Goroutine} {rf : Server} {p : Response}
    (hg : s.gos[g]? = some go) (hrf : s.alive go.server = some rf) (hp : s.replies[k]? = some p)
    (h : s.callTrue g go.server rf p go.task = some s') : Stepped s (.callTrue g k) s' := by
  obtain ⟨i, task⟩ := go
  obtain ⟨c, reply⟩ := p
  unfold callTrue at h
  split at h
  · rename_i htask
    cases htask
    cases reply with
    | requestVote reply =>
        dsimp only at h
        split_ifs at h with hc
        cases h
        exact .voteReply hg hrf (hc ▸ hp)
    | appendEntries reply => cases h
  · rename_i htask
    cases htask
    cases reply with
    | requestVote reply => cases h
    | appendEntries reply =>
        dsimp only at h
        split_ifs at h with hc
        cases h
        exact .beatReply hg hrf (hc ▸ hp)
  · cases h

theorem callFalse_cases {g : ℕ} {go : Goroutine} (hg : s.gos[g]? = some go)
    (h : s.callFalse g go.server go.task = some s') : Stepped s (.callFalse g) s' := by
  obtain ⟨i, task⟩ := go
  unfold callFalse at h
  split at h
  · rename_i htask
    cases htask
    cases h
    exact .voteFailed hg
  · rename_i htask
    cases htask
    cases h
    exact .beatFailed hg
  · cases h

theorem step_cases {a : Action} (h : s.step a = some s') : Stepped s a s' := by
  cases a with
  | clock now =>
      simp only [step, Option.some.injEq] at h
      exact h ▸ .clock now
  | timeout i r =>
      simp only [step, Option.bind_eq_bind, Option.bind_eq_some_iff] at h
      obtain ⟨rf, hrf, t, ht, h⟩ := h
      split_ifs at h with hc he
      · cases h
        exact .timeout hrf he
      · cases h
        exact .idle i r
  | elect i =>
      simp only [step, Option.bind_eq_bind, Option.bind_eq_some_iff] at h
      obtain ⟨rf, hrf, t, ht, h⟩ := h
      split_ifs at h with hc
      cases h
      exact .elect hrf (hc ▸ ht)
  | request i =>
      simp only [step, Option.bind_eq_bind, Option.bind_eq_some_iff] at h
      obtain ⟨rf, hrf, t, ht, h⟩ := h
      split_ifs at h with hc
      cases h
      exact .request hrf (hc ▸ ht)
  | run g =>
      simp only [step, Option.bind_eq_bind, Option.bind_eq_some_iff] at h
      obtain ⟨go, hg, rf, hrf, h⟩ := h
      exact run_cases hg hrf h
  | deliver k =>
      simp only [step, Option.bind_eq_bind, Option.bind_eq_some_iff, Option.some.injEq] at h
      obtain ⟨q, hq, rf, hrf, h⟩ := h
      exact h ▸ .deliver hq hrf
  | lose k =>
      simp only [step, Option.bind_eq_bind, Option.bind_eq_some_iff, Option.some.injEq] at h
      obtain ⟨q, hq, h⟩ := h
      exact h ▸ .lose k
  | callTrue g k =>
      simp only [step, Option.bind_eq_bind, Option.bind_eq_some_iff] at h
      obtain ⟨go, hg, rf, hrf, p, hp, h⟩ := h
      exact callTrue_cases hg hrf hp h
  | callFalse g =>
      simp only [step, Option.bind_eq_bind, Option.bind_eq_some_iff] at h
      obtain ⟨go, hg, rf, hrf, h⟩ := h
      exact callFalse_cases hg h

end State

end DistributedSystems.Raft
