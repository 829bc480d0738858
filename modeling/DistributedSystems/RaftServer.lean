import DistributedSystems.Ballot

/-! # The Raft server

The state of one server of `raft1/raft.go` and its code between two points where other code can run:
the RPC handlers, the handlers of the replies, the role transitions and the test of the election
timer.

A `context.WithCancel` context is the position of a flag in `contexts` that says whether it was
cancelled, and a `context.CancelFunc` the context it cancels; `none` is the nil function, whose
call panics.  A server that has panicked does nothing any more.  `votedFor = none` is the `-1`
of the source.

The terms and the counter of the votes are of type `int` in the source and natural numbers here.  A
term is at most the number of candidacies in the run (`reachable_termsLe`), and the counter is
raised by one for a candidacy and for a granted vote and never reset.  So the two agree in every
run with fewer than `2 ^ 63` candidacies and granted votes.

On the term and the vote of the server, every handler is a step of a voter (`Voter.Step`). -/

namespace DistributedSystems.Raft

/-! ### The vote counter -/

structure Votes where
  counter : ℕ
  total : ℕ
deriving DecidableEq, Repr

/-- `NewVotes`. -/
def Votes.new (total : ℕ) : Votes := ⟨0, total⟩

def Votes.vote (v : Votes) : Votes := { v with counter := v.counter + 1 }

def Votes.hasMajority (v : Votes) : Bool := v.total / 2 < v.counter

/-! ### State and messages -/

inductive Role where
  | follower
  | candidate
  | leader
deriving DecidableEq, Repr

structure Server where
  me : ℕ
  role : Role
  currentTerm : ℕ
  votedFor : Option ℕ
  votes : Votes
  abortHeartbeat : Option ℕ
  abortElection : Option ℕ
  checkpoint : ℤ
  contexts : List Bool
  panicked : Bool
deriving DecidableEq, Repr

structure RequestVoteArgs where
  term : ℕ
  candidateId : ℕ
deriving DecidableEq, Repr

structure RequestVoteReply where
  term : ℕ
  voteGranted : Bool
deriving DecidableEq, Repr

structure AppendEntriesArgs where
  term : ℕ
  leaderId : ℕ
deriving DecidableEq, Repr

structure AppendEntriesReply where
  term : ℕ
  success : Bool
deriving DecidableEq, Repr

namespace Server

/-- `Make`: a server of a cluster with `n` peers. -/
def make (n me : ℕ) (now : ℤ) : Server where
  me := me
  role := .follower
  currentTerm := 0
  votedFor := none
  votes := .new n
  abortHeartbeat := none
  abortElection := none
  checkpoint := now
  contexts := []
  panicked := false

/-- `GetState`. -/
def getState (rf : Server) : ℕ × Bool := (rf.currentTerm, rf.role = .leader)

/-! ### Contexts -/

/-- The call of a `context.CancelFunc`. -/
def call (rf : Server) : Option ℕ → Server
  | none => { rf with panicked := true }
  | some ctx => { rf with contexts := rf.contexts.set ctx true }

/-- `<-ctx.Done()` is ready. -/
def cancelled (rf : Server) (ctx : ℕ) : Bool := rf.contexts.getD ctx false

/-! ### Role transitions -/

def makeFollower (rf : Server) (newTerm : ℕ) : Server :=
  let rf' := { rf with role := .follower, currentTerm := newTerm }
  match rf.role with
  | .follower => rf'
  | .candidate => rf'.call rf'.abortElection
  | .leader => rf'.call rf'.abortHeartbeat

/-- `makeCandidate` up to its `Unlock`. -/
def makeCandidate (rf : Server) (now : ℤ) : Server :=
  let rf' := if rf.role = .leader then rf.call rf.abortHeartbeat else rf
  if rf'.panicked then rf' else
    { rf' with
      role := .candidate
      currentTerm := rf'.currentTerm + 1
      votes := rf'.votes.vote
      votedFor := some rf'.me
      checkpoint := now }

/-- `makeLeader` without the goroutine it starts. -/
def makeLeader (rf : Server) : Server :=
  let rf' := { rf with role := .leader }
  if rf'.role = .candidate then rf'.call rf'.abortElection else rf'

/-- `shouldStartElection` with the random number `r`. -/
def shouldStartElection (rf : Server) (now : ℤ) (r : ℕ) : Bool :=
  let ms : ℤ := 1000 + r % 1500
  now - rf.checkpoint > ms && rf.role != .leader

/-- The part of `requestVotes` and of `startHeartbeat` that makes a context. -/
def newContext (rf : Server) : Server × ℕ :=
  ({ rf with contexts := rf.contexts ++ [false] }, rf.contexts.length)

/-! ### The RPC handlers -/

def requestVote (rf : Server) (args : RequestVoteArgs) (now : ℤ) : Server × RequestVoteReply :=
  if args.term < rf.currentTerm then
    ({ rf with checkpoint := now }, ⟨rf.currentTerm, false⟩)
  else if args.term = rf.currentTerm ∧ rf.votedFor ≠ none ∧ rf.votedFor ≠ some args.candidateId then
    ({ rf with checkpoint := now }, ⟨0, false⟩)
  else
    ({ rf with votedFor := some args.candidateId, currentTerm := args.term, checkpoint := now },
      ⟨0, true⟩)

/-- `AppendEntries`; no reply if it panics. -/
def appendEntries (rf : Server) (args : AppendEntriesArgs) (now : ℤ) :
    Server × Option AppendEntriesReply :=
  if args.term < rf.currentTerm then (rf, some ⟨rf.currentTerm, false⟩)
  else
    let rf' := rf.makeFollower rf.currentTerm
    if rf'.panicked then (rf', none)
    else ({ rf' with checkpoint := now }, some ⟨rf.currentTerm, true⟩)

/-! ### The handlers of the replies -/

/-- The server after `handleRequestVote`, and whether it made itself leader. -/
def handleRequestVote (rf : Server) (reply : RequestVoteReply) : Server × Bool :=
  if rf.currentTerm < reply.term then (rf.makeFollower reply.term, false)
  else if reply.voteGranted then
    let rf' := { rf with votes := rf.votes.vote }
    if rf'.votes.hasMajority && rf'.role = .candidate then (rf'.makeLeader, true) else (rf', false)
  else (rf, false)

def handleAppendEntries (rf : Server) (reply : AppendEntriesReply) : Server :=
  if rf.currentTerm < reply.term then rf.makeFollower reply.term else rf

/-! ### What the code keeps and changes -/

section fields

variable (rf : Server) (f : Option ℕ) (newTerm : ℕ)

@[simp] theorem call_me : (rf.call f).me = rf.me := by cases f <;> rfl

@[simp] theorem call_role : (rf.call f).role = rf.role := by cases f <;> rfl

@[simp] theorem call_currentTerm : (rf.call f).currentTerm = rf.currentTerm := by cases f <;> rfl

@[simp] theorem call_votedFor : (rf.call f).votedFor = rf.votedFor := by cases f <;> rfl

@[simp] theorem call_votes : (rf.call f).votes = rf.votes := by cases f <;> rfl

@[simp] theorem call_abortElection : (rf.call f).abortElection = rf.abortElection := by
  cases f <;> rfl

@[simp] theorem call_abortHeartbeat : (rf.call f).abortHeartbeat = rf.abortHeartbeat := by
  cases f <;> rfl

@[simp] theorem makeFollower_me : (rf.makeFollower newTerm).me = rf.me := by
  unfold makeFollower
  cases rf.role <;> simp

@[simp] theorem makeFollower_role : (rf.makeFollower newTerm).role = .follower := by
  unfold makeFollower
  cases rf.role <;> simp

@[simp] theorem makeFollower_currentTerm : (rf.makeFollower newTerm).currentTerm = newTerm := by
  unfold makeFollower
  cases rf.role <;> simp

@[simp] theorem makeFollower_votedFor : (rf.makeFollower newTerm).votedFor = rf.votedFor := by
  unfold makeFollower
  cases rf.role <;> simp

@[simp] theorem makeFollower_votes : (rf.makeFollower newTerm).votes = rf.votes := by
  unfold makeFollower
  cases rf.role <;> simp

@[simp] theorem makeFollower_abortElection :
    (rf.makeFollower newTerm).abortElection = rf.abortElection := by
  unfold makeFollower
  cases rf.role <;> simp

@[simp] theorem makeFollower_abortHeartbeat :
    (rf.makeFollower newTerm).abortHeartbeat = rf.abortHeartbeat := by
  unfold makeFollower
  cases rf.role <;> simp

/-- The abort of the election in `makeLeader` is never reached. -/
@[simp] theorem makeLeader_eq : rf.makeLeader = { rf with role := .leader } := by
  simp [makeLeader]

theorem cancelled_call {ctx : ℕ} (h : rf.cancelled ctx = true) :
    (rf.call f).cancelled ctx = true := by
  cases f with
  | none => exact h
  | some ctx' =>
      unfold cancelled at h ⊢
      by_cases hc : ctx' = ctx
      · subst hc
        have hlt : ctx' < rf.contexts.length := by
          by_contra hn
          rw [List.getD_eq_default _ _ (by omega)] at h
          cases h
        simp [call, List.getD_eq_getElem?_getD, hlt]
      · rw [List.getD_eq_getElem?_getD] at h ⊢
        simpa [call, List.getElem?_set_ne hc] using h

theorem cancelled_makeFollower {ctx : ℕ} (h : rf.cancelled ctx = true) :
    (rf.makeFollower newTerm).cancelled ctx = true := by
  unfold makeFollower
  cases rf.role with
  | follower => exact h
  | candidate => exact cancelled_call _ _ h
  | leader => exact cancelled_call _ _ h

end fields

end Server

/-! ### One section of the server's code -/

/-- What happened in the cluster, as far as its properties speak about it. -/
inductive Event where
  | candidacy (server term : ℕ)
  | grant (server term candidate : ℕ)
  | promoted (server term : ℕ)
  | sentVote (server peer : ℕ) (args : RequestVoteArgs)
  | sentBeat (server peer : ℕ) (args : AppendEntriesArgs)
deriving DecidableEq, Repr

/-- What the code of a server does between two points where other code can run, with the events
it records. -/
inductive Section (now : ℤ) (rf : Server) : Server → List Event → Prop
  | keep (checkpoint : ℤ) : Section now rf { rf with checkpoint := checkpoint } []
  | abort (f : Option ℕ) : Section now rf (rf.call f) []
  | stand {rf₀ : Server} (h : rf₀ = rf ∨ ∃ f, rf₀ = rf.call f) : Section now rf
      { rf₀ with
        role := .candidate
        currentTerm := rf.currentTerm + 1
        votes := rf₀.votes.vote
        votedFor := some rf.me
        checkpoint := now } [.candidacy rf.me (rf.currentTerm + 1)]
  | newElection : Section now rf
      { rf.newContext.1 with abortElection := some rf.newContext.2 } []
  | newHeartbeat : Section now rf
      { rf.newContext.1 with abortHeartbeat := some rf.newContext.2 } []
  | grant {args : RequestVoteArgs} (hle : rf.currentTerm ≤ args.term)
      (hfree : args.term = rf.currentTerm →
        rf.votedFor = none ∨ rf.votedFor = some args.candidateId) : Section now rf
      { rf with votedFor := some args.candidateId, currentTerm := args.term, checkpoint := now }
      [.grant rf.me args.term args.candidateId]
  | demote {t : ℕ} (checkpoint : ℤ) (hle : rf.currentTerm ≤ t) : Section now rf
      { rf.makeFollower t with checkpoint := checkpoint } []
  | count : Section now rf { rf with votes := rf.votes.vote } []
  | promote (hm : rf.votes.vote.hasMajority = true) (hr : rf.role = .candidate) : Section now rf
      { rf with votes := rf.votes.vote, role := .leader } [.promoted rf.me rf.currentTerm]

namespace Server

variable (rf : Server) (now : ℤ)

theorem makeCandidate_section : Section now rf (rf.makeCandidate now)
    (if (rf.makeCandidate now).panicked then [] else [.candidacy rf.me (rf.currentTerm + 1)]) := by
  have h : ∀ rf₀ : Server, rf₀ = (if rf.role = .leader then rf.call rf.abortHeartbeat else rf) →
      rf₀ = rf ∨ ∃ f, rf₀ = rf.call f := by
    rintro rf₀ rfl
    split_ifs
    · exact Or.inr ⟨_, rfl⟩
    · exact Or.inl rfl
  unfold makeCandidate
  generalize hrf : (if rf.role = .leader then rf.call rf.abortHeartbeat else rf) = rf₀
  have hrf := h rf₀ hrf.symm
  dsimp only
  by_cases hp : rf₀.panicked = true
  · rw [if_pos hp, if_pos hp]
    rcases hrf with rfl | ⟨f, rfl⟩
    · exact .keep rf₀.checkpoint
    · exact .abort f
  · have ht : rf₀.currentTerm = rf.currentTerm := by rcases hrf with rfl | ⟨f, rfl⟩ <;> simp
    have hm : rf₀.me = rf.me := by rcases hrf with rfl | ⟨f, rfl⟩ <;> simp
    rw [if_neg hp, if_neg hp, ht, hm]
    have := @Section.stand now rf rf₀ hrf
    rwa [hm] at this

theorem requestVote_section (args : RequestVoteArgs) : Section now rf (rf.requestVote args now).1
    (if (rf.requestVote args now).2.voteGranted then [.grant rf.me args.term args.candidateId]
      else []) := by
  unfold requestVote
  by_cases h1 : args.term < rf.currentTerm
  · simp only [h1, if_true]
    exact .keep now
  · simp only [h1, if_false]
    split
    · exact .keep now
    · rename_i h2
      refine .grant (by omega) ?_
      intro he
      by_contra hn
      obtain ⟨hnone, hother⟩ := not_or.mp hn
      exact h2 ⟨he, hnone, hother⟩

theorem appendEntries_section (args : AppendEntriesArgs) :
    Section now rf (rf.appendEntries args now).1 [] := by
  unfold appendEntries
  split
  · exact .keep rf.checkpoint
  · dsimp only
    split
    · exact .demote (rf.makeFollower rf.currentTerm).checkpoint le_rfl
    · exact .demote now le_rfl

theorem handleRequestVote_section (reply : RequestVoteReply) :
    Section now rf (rf.handleRequestVote reply).1
      (if (rf.handleRequestVote reply).2 then [.promoted rf.me rf.currentTerm] else []) := by
  unfold handleRequestVote
  split
  · rename_i h
    exact .demote (rf.makeFollower reply.term).checkpoint h.le
  · split
    · dsimp only
      split
      · rename_i h
        rw [Bool.and_eq_true, decide_eq_true_eq] at h
        rw [makeLeader_eq]
        exact .promote h.1 h.2
      · exact .count
    · exact .keep rf.checkpoint

theorem handleRequestVote_promoted {reply : RequestVoteReply}
    (h : (rf.handleRequestVote reply).2 = true) :
    rf.role = .candidate ∧ reply.term ≤ rf.currentTerm ∧ reply.voteGranted = true ∧
      rf.votes.vote.hasMajority = true := by
  unfold handleRequestVote at h
  split_ifs at h with h1 h2
  dsimp only at h
  split_ifs at h with h3
  rw [Bool.and_eq_true, decide_eq_true_eq] at h3
  exact ⟨h3.2, not_lt.mp h1, h2, h3.1⟩

theorem handleAppendEntries_section (reply : AppendEntriesReply) :
    Section now rf (rf.handleAppendEntries reply) [] := by
  unfold handleAppendEntries
  split
  · rename_i h
    exact .demote (rf.makeFollower reply.term).checkpoint h.le
  · exact .keep rf.checkpoint

end Server

/-- The vote an event records: voter, term and candidate. -/
def Event.vote? : Event → Option (ℕ × ℕ × ℕ)
  | .candidacy i t => some (i, t, i)
  | .grant i t c => some (i, t, c)
  | _ => none

/-- The server as a voter. -/
def Server.voter (rf : Server) : Voter ℕ := ⟨rf.currentTerm, rf.votedFor⟩

namespace Section

variable {now : ℤ} {rf rf' : Server} {es : List Event}

theorem me (h : Section now rf rf' es) : rf'.me = rf.me := by
  cases h with
  | stand h => rcases h with rfl | ⟨f, rfl⟩ <;> simp
  | _ => simp [Server.newContext]

theorem nil_or_singleton (h : Section now rf rf' es) : es = [] ∨ ∃ e, es = [e] := by
  cases h <;> simp

/-- Every section of a server's code is a step of a voter. -/
theorem voter (h : Section now rf rf' es) : ∃ o, Voter.Step rf.voter rf'.voter o ∧
    es.filterMap Event.vote? = (o.map (fun c => (rf.me, rf'.currentTerm, c))).toList := by
  cases h with
  | stand h => exact ⟨some rf.me, .cast (by simp [Server.voter]) (by simp [Server.voter]) rfl, rfl⟩
  | grant hle hfree => exact ⟨some _, .cast hle hfree rfl, rfl⟩
  | demote checkpoint hle =>
      refine ⟨none, ?_, rfl⟩
      rcases hle.lt_or_eq with hlt | he
      · exact .advance (by simpa [Server.voter] using hlt)
      · exact .keep (by simp [Server.voter, he]) (by simp [Server.voter])
  | abort f => exact ⟨none, .keep (by simp [Server.voter]) (by simp [Server.voter]), rfl⟩
  | _ => exact ⟨none, .keep rfl rfl, rfl⟩

/-- A cancelled context stays cancelled. -/
theorem cancelled (h : Section now rf rf' es) {ctx : ℕ} (hc : rf.cancelled ctx = true) :
    rf'.cancelled ctx = true := by
  have new : (rf.contexts ++ [false]).getD ctx false = true := by
    unfold Server.cancelled at hc
    have hlt : ctx < rf.contexts.length := by
      by_contra hn
      rw [List.getD_eq_default _ _ (by omega)] at hc
      cases hc
    rw [List.getD_append _ _ _ _ hlt]
    exact hc
  cases h with
  | abort f => exact rf.cancelled_call f hc
  | stand h =>
      rcases h with rfl | ⟨f, rfl⟩
      · exact hc
      · exact rf.cancelled_call f hc
  | newElection => exact new
  | newHeartbeat => exact new
  | demote checkpoint hle => exact rf.cancelled_makeFollower _ hc
  | keep checkpoint => exact hc
  | grant hle hfree => exact hc
  | count => exact hc
  | promote hm hr => exact hc

end Section

end DistributedSystems.Raft
