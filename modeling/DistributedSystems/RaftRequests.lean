import DistributedSystems.EventLog
import DistributedSystems.RaftVotes

/-! # Who asks for votes and who sends heartbeats

A goroutine of `requestVoteFromServer` or `sendHeartbeat` reads the term of its server when it first
runs, and the server may have moved on by then: granting a `RequestVote` raises the term and
does not change the role.  So a request can name a term in which its sender never stood
(`vote_asked_without_candidacy`) and a heartbeat a term in which its sender was never elected
(`heartbeat_without_election`).

Where every such read finds a server that still has its own vote in the term it reads, and is not a
follower or is still leader, the requests and heartbeats are those of the candidates
(`votes_asked_by_candidates`) and of the elected leaders (`heartbeats_of_elected`). -/

namespace DistributedSystems.Raft

/-! ### The goroutines after a step -/

/-- The goroutines a step can start or move on. -/
inductive Moved (s : State) (a : Action) (s' : State) : Goroutine → Prop
  | voteStart {i peer : ℕ} (ctx : ℕ) (hp : peer ≠ i) : Moved s a s' ⟨i, .voteStart ctx peer⟩
  | voteRead {g i ctx peer : ℕ} {rf : Server} (ha : a = .run g)
      (hg : s.gos[g]? = some ⟨i, .voteStart ctx peer⟩) (hrf : s.servers[i]? = some rf) :
      Moved s a s' ⟨i, .voteLoop ctx peer ⟨rf.currentTerm, rf.me⟩⟩
  | voteSend {g i ctx peer : ℕ} {args : RequestVoteArgs} (ha : a = .run g)
      (hg : s.gos[g]? = some ⟨i, .voteLoop ctx peer args⟩) (hcalls : s'.calls = s.calls + 1) :
      Moved s a s' ⟨i, .voteWait ctx peer args s.calls⟩
  | voteFailed {i ctx peer call : ℕ} {args : RequestVoteArgs}
      (hg : ⟨i, .voteWait ctx peer args call⟩ ∈ s.gos) : Moved s a s' ⟨i, .voteLoop ctx peer args⟩
  | heartbeatStart (i : ℕ) : Moved s a s' ⟨i, .heartbeatStart⟩
  | heartbeatLoop (i ctx : ℕ) : Moved s a s' ⟨i, .heartbeatLoop ctx⟩
  | beatStart (i peer : ℕ) : Moved s a s' ⟨i, .beatStart peer⟩
  | beatRead {g i peer : ℕ} {rf : Server} (ha : a = .run g)
      (hg : s.gos[g]? = some ⟨i, .beatStart peer⟩) (hrf : s.servers[i]? = some rf) :
      Moved s a s' ⟨i, .beatCall peer ⟨rf.currentTerm, rf.me⟩⟩
  | beatSend (i call : ℕ) : Moved s a s' ⟨i, .beatWait call⟩
  | done (i : ℕ) : Moved s a s' ⟨i, .done⟩

theorem ne_of_mem_peers {s : State} {i peer : ℕ} (h : peer ∈ s.peers i) : peer ≠ i := by
  simpa using (List.mem_filter.mp h).2

theorem Stepped.moved {s s' : State} {a : Action} (h : Stepped s a s') {go : Goroutine}
    (hgo : go ∈ s'.gos) : go ∈ s.gos ∨ Moved s a s' go := by
  have set : ∀ {g : ℕ} {x : Goroutine}, go ∈ s.gos.set g x → Moved s a s' x →
      go ∈ s.gos ∨ Moved s a s' go := by
    intro g x hx hm
    rcases List.mem_or_eq_of_mem_set hx with hx | rfl
    · exact Or.inl hx
    · exact Or.inr hm
  cases h with
  | clock now => exact Or.inl hgo
  | idle i r => exact Or.inl hgo
  | timeout hrf h => exact Or.inl hgo
  | elect hrf ht => exact Or.inl hgo
  | request hrf ht =>
      rcases List.mem_append.mp hgo with hgo | hgo
      · exact Or.inl hgo
      · obtain ⟨peer, hp, rfl⟩ := List.mem_map.mp hgo
        exact Or.inr (.voteStart _ (ne_of_mem_peers hp))
  | voteStart hg hrf => exact set hgo (.voteRead rfl hg (State.getElem?_of_alive hrf))
  | voteAbort hg hrf hc => exact set hgo (.done _)
  | voteSend hg hrf hc => exact set hgo (.voteSend rfl hg rfl)
  | heartbeatStart hg hrf => exact set hgo (.heartbeatLoop _ _)
  | heartbeatAbort hg hrf hc => exact set hgo (.done _)
  | heartbeat hg hrf hc =>
      rcases List.mem_append.mp hgo with hgo | hgo
      · exact Or.inl hgo
      · obtain ⟨peer, hp, rfl⟩ := List.mem_map.mp hgo
        exact Or.inr (.beatStart _ _)
  | beatStart hg hrf => exact set hgo (.beatRead rfl hg (State.getElem?_of_alive hrf))
  | beatSend hg => exact set hgo (.beatSend _ _)
  | @deliver k q rf hq hrf =>
      refine Or.inl ?_
      cases hm : q.msg <;> simpa [State.deliver, hm] using hgo
  | lose k => exact Or.inl hgo
  | voteReply hg hrf hp =>
      rcases List.mem_append.mp hgo with hgo | hgo
      · exact set hgo (.done _)
      · split_ifs at hgo
        · rw [List.mem_singleton.mp hgo]
          exact Or.inr (.heartbeatStart _)
        · cases hgo
  | beatReply hg hrf hp => exact set hgo (.done _)
  | voteFailed hg => exact set hgo (.voteFailed (List.mem_of_getElem? hg))
  | beatFailed hg => exact set hgo (.done _)

/-- A goroutine sends the request. -/
inductive Dispatched (s : State) (a : Action) (s' : State) (q : Request) : Prop
  | vote {g i ctx : ℕ} {args : RequestVoteArgs} (ha : a = .run g)
      (hg : s.gos[g]? = some ⟨i, .voteLoop ctx q.dest args⟩) (hm : q.msg = .requestVote args)
      (hcall : q.call = s.calls) (hcalls : s'.calls = s.calls + 1)
  | beat {g i : ℕ} {args : AppendEntriesArgs} (ha : a = .run g)
      (hg : s.gos[g]? = some ⟨i, .beatCall q.dest args⟩) (hm : q.msg = .appendEntries args)
      (hcall : q.call = s.calls) (hcalls : s'.calls = s.calls + 1)

theorem Stepped.requests {s s' : State} {a : Action} (h : Stepped s a s') {q : Request}
    (hq : q ∈ s'.requests) : q ∈ s.requests ∨ Dispatched s a s' q := by
  cases h with
  | voteSend hg hrf hc =>
      rcases List.mem_append.mp hq with hq | hq
      · exact Or.inl hq
      · obtain rfl := List.mem_singleton.mp hq
        exact Or.inr (.vote rfl hg rfl rfl rfl)
  | beatSend hg =>
      rcases List.mem_append.mp hq with hq | hq
      · exact Or.inl hq
      · obtain rfl := List.mem_singleton.mp hq
        exact Or.inr (.beat rfl hg rfl rfl rfl)
  | @deliver k q' rf hq' hrf =>
      refine Or.inl ?_
      cases hm' : q'.msg <;> simp only [State.deliver, hm'] at hq <;>
        exact List.mem_of_mem_eraseIdx hq
  | lose k => exact Or.inl (List.mem_of_mem_eraseIdx hq)
  | _ => exact Or.inl hq

/-- The arguments of a goroutine's messages name its own server, and it never calls itself. -/
def Goroutine.Ok (go : Goroutine) : Prop :=
  match go.task with
  | .voteStart _ peer => peer ≠ go.server
  | .voteLoop _ peer args => peer ≠ go.server ∧ args.candidateId = go.server
  | .voteWait _ peer args _ => peer ≠ go.server ∧ args.candidateId = go.server
  | .beatCall _ args => args.leaderId = go.server
  | _ => True

structure MessagesOk (s : State) : Prop where
  go : ∀ go ∈ s.gos, go.Ok
  request : ∀ q ∈ s.requests, ∀ args, q.msg = .requestVote args → args.candidateId ≠ q.dest

theorem reachable_messagesOk {n : ℕ} {C : State → Action → Prop} {s : State}
    (h : (system n).ReachableBy C s) : MessagesOk s := by
  refine h.invariant ?_ ?_
  · constructor <;> simp [system, State.init]
  · intro s a s' hr m _ hstep
    have hst := State.step_cases hstep
    have hme := reachable_me hr
    constructor
    · intro go hgo
      rcases hst.moved hgo with hgo | hmv
      · exact m.go go hgo
      · cases hmv with
        | voteStart ctx hp => exact hp
        | voteRead ha hg hrf => exact ⟨m.go _ (List.mem_of_getElem? hg), hme _ _ hrf⟩
        | voteSend ha hg hcalls =>
            have hok := m.go _ (List.mem_of_getElem? hg)
            exact hok
        | voteFailed hg =>
            have hok := m.go _ hg
            exact hok
        | beatRead ha hg hrf => exact hme _ _ hrf
        | heartbeatStart i => trivial
        | heartbeatLoop i ctx => trivial
        | beatStart i peer => trivial
        | beatSend i call => trivial
        | done i => trivial
    · intro q hq args hm
      rcases hst.requests hq with hq | hd
      · exact m.request q hq args hm
      · cases hd with
        | vote ha hg hm' hcall hcalls =>
            obtain rfl := Msg.requestVote.inj (hm.symm.trans hm')
            obtain ⟨hne, hid⟩ := m.go _ (List.mem_of_getElem? hg)
            intro he
            exact hne (he.symm.trans hid)
        | beat ha hg hm' hcall hcalls => cases hm.symm.trans hm'

/-! ### Roles and votes of a server -/

/-- A server that is not a follower and has its own vote stood in its term. -/
theorem Section.candidacy {now : ℤ} {rf rf' : Server} {es : List Event}
    (h : Section now rf rf' es) (hother : ∀ t, Event.grant rf.me t rf.me ∉ es)
    (hr : rf'.role ≠ .follower) (hv : rf'.votedFor = some rf.me) :
    Event.candidacy rf.me rf'.currentTerm ∈ es ∨
      (rf.role ≠ .follower ∧ rf.votedFor = some rf.me ∧ rf'.currentTerm = rf.currentTerm) := by
  cases h with
  | stand h => exact Or.inl (List.mem_singleton.mpr rfl)
  | @grant args hle hfree =>
      have hc : args.candidateId = rf.me := Option.some.inj hv
      exact absurd (List.mem_singleton.mpr (by rw [hc])) (hother args.term)
  | demote checkpoint hle => exact absurd (Server.makeFollower_role rf _) hr
  | promote hm hc => exact Or.inr ⟨by simp [hc], hv, rfl⟩
  | abort f => exact Or.inr ⟨by simpa using hr, by simpa using hv, by simp⟩
  | keep checkpoint => exact Or.inr ⟨hr, hv, rfl⟩
  | newElection => exact Or.inr ⟨hr, hv, rfl⟩
  | newHeartbeat => exact Or.inr ⟨hr, hv, rfl⟩
  | count => exact Or.inr ⟨hr, hv, rfl⟩

/-- A leader was promoted in its term, or was leader before and has granted a vote since. -/
theorem Section.leader {now : ℤ} {rf rf' : Server} {es : List Event} (h : Section now rf rf' es)
    (hr : rf'.role = .leader) :
    Event.promoted rf.me rf'.currentTerm ∈ es ∨
      (rf.role = .leader ∧ rf'.votedFor = rf.votedFor ∧ rf'.currentTerm = rf.currentTerm) ∨
      (rf.role = .leader ∧ ∃ c, rf'.votedFor = some c ∧
        Event.grant rf.me rf'.currentTerm c ∈ es) := by
  cases h with
  | stand h => cases hr
  | grant hle hfree => exact Or.inr (Or.inr ⟨hr, _, rfl, List.mem_singleton.mpr rfl⟩)
  | demote checkpoint hle => exact absurd (hr.symm.trans (Server.makeFollower_role rf _)) (by simp)
  | promote hm hc => exact Or.inl (List.mem_singleton.mpr rfl)
  | abort f => exact Or.inr (Or.inl ⟨by simpa using hr, by simp, by simp⟩)
  | keep checkpoint => exact Or.inr (Or.inl ⟨hr, rfl, rfl⟩)
  | newElection => exact Or.inr (Or.inl ⟨hr, rfl, rfl⟩)
  | newHeartbeat => exact Or.inr (Or.inl ⟨hr, rfl, rfl⟩)
  | count => exact Or.inr (Or.inl ⟨hr, rfl, rfl⟩)

/-- No section of a server's code sends a message. -/
theorem Section.not_sent {now : ℤ} {rf rf' : Server} {es : List Event}
    (h : Section now rf rf' es) : ∀ e ∈ es, (∀ i p args, e ≠ .sentVote i p args) ∧
      ∀ i p args, e ≠ .sentBeat i p args := by
  intro e he
  cases h with
  | stand h =>
      rw [List.mem_singleton.mp he]
      exact ⟨by simp, by simp⟩
  | grant hle hfree =>
      rw [List.mem_singleton.mp he]
      exact ⟨by simp, by simp⟩
  | promote hm hr =>
      rw [List.mem_singleton.mp he]
      exact ⟨by simp, by simp⟩
  | _ => cases he

theorem Effect.log_subset {s s' : State} {a : Action} (h : Effect s a s') {e : Event}
    (he : e ∈ s.log) : e ∈ s'.log := by
  cases h with
  | quiet hs hl => rwa [hl]
  | sent hs h hl => simp [hl, he]
  | ran hrf hs hl h ho => simp [hl, he]

/-- A server grants no vote to itself. -/
theorem grant_ne {n : ℕ} {C : State → Action → Prop} {s : State} (h : (system n).ReachableBy C s)
    {a : Action} {i t c : ℕ} {rf : Server} (ho : Origin s a i rf (.grant rf.me t c)) : c ≠ i := by
  obtain ⟨k, q, -, hq, hd, hm⟩ := ho
  have := (reachable_messagesOk h).request q (List.mem_of_getElem? hq) _ hm
  rwa [hd] at this

theorem reachable_candidacy {n : ℕ} {C : State → Action → Prop} {s : State}
    (h : (system n).ReachableBy C s) : ∀ i (rf : Server), s.servers[i]? = some rf →
      rf.role ≠ .follower → rf.votedFor = some i → Event.candidacy i rf.currentTerm ∈ s.log := by
  refine reachable_server (P := fun i rf log => rf.role ≠ .follower → rf.votedFor = some i →
    Event.candidacy i rf.currentTerm ∈ log) ?_ ?_ ?_ h
  · intro i hr
    exact absurd rfl hr
  · intro i rf log es hP _ hr hv
    exact List.mem_append_left _ (hP hr hv)
  · intro s a i rf rf' es hreach _ hrf hme hP hsec ho hr hv
    subst hme
    have hother : ∀ t, Event.grant rf.me t rf.me ∉ es :=
      fun t ht => grant_ne hreach (ho _ ht) rfl
    rcases hsec.candidacy hother hr hv with hc | ⟨hr, hv, ht⟩
    · exact List.mem_append_right _ hc
    · rw [ht]
      exact List.mem_append_left _ (hP hr hv)

/-- A leader that has its own vote was promoted in its term. -/
theorem reachable_promoted {n : ℕ} {C : State → Action → Prop} {s : State}
    (h : (system n).ReachableBy C s) : ∀ i (rf : Server), s.servers[i]? = some rf →
      rf.role = .leader → rf.votedFor = some i → Event.promoted i rf.currentTerm ∈ s.log := by
  refine reachable_server (P := fun i rf log => rf.role = .leader → rf.votedFor = some i →
    Event.promoted i rf.currentTerm ∈ log) ?_ ?_ ?_ h
  · intro i hr
    cases hr
  · intro i rf log es hP _ hr hv
    exact List.mem_append_left _ (hP hr hv)
  · intro s a i rf rf' es hreach _ hrf hme hP hsec ho hr hv
    subst hme
    rcases hsec.leader hr with hp | ⟨hr, hv', ht⟩ | ⟨-, c, hc, hg⟩
    · exact List.mem_append_right _ hp
    · rw [ht]
      exact List.mem_append_left _ (hP hr (hv'.symm.trans hv))
    · exact absurd (Option.some.inj (hc.symm.trans hv)) (grant_ne hreach (ho _ hg))

/-! ### Conditions on the reads of the goroutines -/

/-- The goroutine that runs meets `P` with its server. -/
def OnRun (P : Server → Task → Prop) (s : State) : Action → Prop
  | .run g => ∀ go ∈ s.gos[g]?, ∀ rf ∈ s.servers[go.server]?, P rf go.task
  | _ => True

instance (P : Server → Task → Prop) [∀ rf t, Decidable (P rf t)] (s : State) :
    (a : Action) → Decidable (OnRun P s a)
  | .run g => inferInstanceAs
      (Decidable (∀ go ∈ s.gos[g]?, ∀ rf ∈ s.servers[go.server]?, P rf go.task))
  | .clock _ | .timeout _ _ | .elect _ | .request _ | .deliver _ | .lose _ | .callTrue _ _
  | .callFalse _ => isTrue trivial

/-- `requestVoteFromServer` reads the term of a server that has its own vote and is not a follower,
unless its election was aborted. -/
def AsksForItself (rf : Server) : Task → Prop
  | .voteStart ctx _ =>
      rf.cancelled ctx = true ∨ (rf.role ≠ .follower ∧ rf.votedFor = some rf.me)
  | _ => True

instance (rf : Server) : (t : Task) → Decidable (AsksForItself rf t)
  | .voteStart ctx _ => inferInstanceAs
      (Decidable (rf.cancelled ctx = true ∨ (rf.role ≠ .follower ∧ rf.votedFor = some rf.me)))
  | .voteLoop _ _ _ | .voteWait _ _ _ _ | .heartbeatStart | .heartbeatLoop _ | .beatStart _
  | .beatCall _ _ | .beatWait _ | .done => isTrue trivial

/-- `sendHeartbeat` reads the term of a leader that has its own vote. -/
def LeadsItself (rf : Server) : Task → Prop
  | .beatStart _ => rf.role = .leader ∧ rf.votedFor = some rf.me
  | _ => True

instance (rf : Server) : (t : Task) → Decidable (LeadsItself rf t)
  | .beatStart _ => inferInstanceAs (Decidable (rf.role = .leader ∧ rf.votedFor = some rf.me))
  | .voteStart _ _ | .voteLoop _ _ _ | .voteWait _ _ _ _ | .heartbeatStart | .heartbeatLoop _
  | .beatCall _ _ | .beatWait _ | .done => isTrue trivial

/-! ### Requests for votes -/

/-- The election of a goroutine was aborted, or its server stood in the term it asks for. -/
def Goroutine.Stood (s : State) (go : Goroutine) : Prop :=
  ∀ ctx peer args call, go.task = .voteLoop ctx peer args ∨ go.task = .voteWait ctx peer args call →
    ∀ rf, s.servers[go.server]? = some rf →
      rf.cancelled ctx = true ∨ Event.candidacy go.server args.term ∈ s.log

theorem reachable_stood {n : ℕ} {s : State}
    (h : (system n).ReachableBy (OnRun AsksForItself) s) : ∀ go ∈ s.gos, go.Stood s := by
  refine h.invariant (I := fun s => ∀ go ∈ s.gos, go.Stood s) (by simp [system, State.init]) ?_
  intro s a s' hr ih hc hstep go hgo ctx peer args call htask rf' hrf'
  have hst := State.step_cases hstep
  have hme := reachable_me hr
  -- it is enough to know it of the server and the log before the step
  have back : (∀ rf, s.servers[go.server]? = some rf →
      rf.cancelled ctx = true ∨ Event.candidacy go.server args.term ∈ s.log) →
      rf'.cancelled ctx = true ∨ Event.candidacy go.server args.term ∈ s'.log := by
    intro hold
    obtain ⟨es, hl, ⟨hi, -⟩ | ⟨rf, hrf, hsec, -⟩⟩ := hst.effect.frame hme hrf'
    · rw [hl]
      exact (hold rf' hi).imp_right (List.mem_append_left _)
    · rw [hl]
      exact (hold rf hrf).imp hsec.cancelled (List.mem_append_left _)
  refine back ?_
  rcases hst.moved hgo with hgo | hmv
  · exact ih go hgo ctx peer args call htask
  · cases hmv with
    | @voteRead g i ctx₀ peer₀ rf ha hg hrf =>
        rcases htask with htask | htask
        · cases htask
          intro rf₁ hrf₁
          obtain rfl : rf = rf₁ := Option.some.inj (hrf.symm.trans hrf₁)
          subst ha
          rcases hc _ hg rf hrf with hcan | ⟨hrole, hv⟩
          · exact Or.inl hcan
          · rw [hme i rf hrf] at hv
            exact Or.inr (reachable_candidacy hr i rf hrf hrole hv)
        · cases htask
    | voteSend ha hg hcalls =>
        rcases htask with htask | htask
        · cases htask
        · cases htask
          exact ih _ (List.mem_of_getElem? hg) _ _ _ 0 (Or.inl rfl)
    | voteFailed hg =>
        rcases htask with htask | htask
        · cases htask
          exact ih _ hg _ _ _ _ (Or.inr rfl)
        · cases htask
    | _ => rcases htask with htask | htask <;> cases htask

/-- In every run in which `requestVoteFromServer` reads the term only of a server that is still in
its candidacy, every `RequestVote` that is sent names its sender, and its sender stood in its term
before. -/
theorem votes_asked_by_candidates {n : ℕ} {s : State}
    (h : (system n).ReachableBy (OnRun AsksForItself) s) :
    EachEvent (fun pre e => ∀ i peer args, e = .sentVote i peer args →
      args.candidateId = i ∧ Event.candidacy i args.term ∈ pre) s.log := by
  refine h.invariant (I := fun s => EachEvent (fun pre e => ∀ i peer args,
    e = .sentVote i peer args → args.candidateId = i ∧ Event.candidacy i args.term ∈ pre) s.log)
    (EachEvent.nil _) ?_
  intro s a s' hr ih hc hstep
  cases (State.step_cases hstep).effect with
  | quiet hs hl => rwa [hl]
  | sent hs he hl =>
      rw [hl]
      refine ih.concat ?_
      rintro i peer args rfl
      cases he with
      | @vote _ ctx _ _ rf hg hrf hcan =>
          refine ⟨((reachable_messagesOk hr).go _ hg).2, ?_⟩
          rcases reachable_stood hr _ hg ctx peer args 0 (Or.inl rfl) rf hrf with hcan' | hcand
          · cases hcan.symm.trans hcan'
          · exact hcand
  | ran hrf hs hl hsec ho =>
      rw [hl]
      refine ih.append ?_
      rintro e he pre i peer args rfl
      exact absurd rfl ((hsec.not_sent _ he).1 i peer args)

/-- The server `0` stands in term `1` and is elected with the vote of `1`. -/
def electionRun : List Action :=
  [.clock 2000, .timeout 0 0, .elect 0, .request 0, .run 0, .run 0, .deliver 0, .callTrue 0 0]

theorem votes_asked_by_candidates_election :
    ∃ s, (system 3).ReachableBy (OnRun AsksForItself) s ∧
      ∃ pre post, s.log = pre ++ Event.sentVote 0 1 ⟨1, 0⟩ :: post ∧ Event.candidacy 0 1 ∈ pre := by
  obtain ⟨s, hr, hs⟩ := Lts.exists_of_exec (L := system 3) (C := OnRun AsksForItself)
    (p := fun s => decide (Event.sentVote 0 1 ⟨1, 0⟩ ∈ s.log)) electionRun (by decide)
  obtain ⟨pre, post, hl, hP⟩ := (votes_asked_by_candidates hr).of_mem (of_decide_eq_true hs)
  exact ⟨s, hr, pre, post, hl, (hP 0 1 ⟨1, 0⟩ rfl).2⟩

/-- The server `1` stands in terms `1` and `2`.  The server `0` stands in term `1` and grants `1`
its vote in term `2` before its own goroutine for `2` runs. -/
def overtakenRun : List Action :=
  [.clock 2000, .timeout 1 0, .elect 1, .request 1, .clock 4000, .timeout 1 0, .elect 1, .request 1,
    .timeout 0 0, .elect 0, .request 0, .run 2, .run 2, .deliver 0, .run 5, .run 5]

/-- A server asks for votes in a term in which it never stood and in which it has voted for
another. -/
theorem vote_asked_without_candidacy : ∃ s, (system 3).Reachable s ∧
    Event.sentVote 0 2 ⟨2, 0⟩ ∈ s.log ∧ Event.candidacy 0 2 ∉ s.log ∧
    Event.grant 0 2 1 ∈ s.log := by
  obtain ⟨s, hr, hs⟩ := Lts.exists_of_exec (L := system 3) (C := fun _ _ => True)
    (p := fun s => decide (Event.sentVote 0 2 ⟨2, 0⟩ ∈ s.log ∧ Event.candidacy 0 2 ∉ s.log ∧
      Event.grant 0 2 1 ∈ s.log)) overtakenRun (by decide)
  exact ⟨s, hr, of_decide_eq_true hs⟩

/-! ### Heartbeats -/

theorem reachable_beatCall {n : ℕ} {s : State}
    (h : (system n).ReachableBy (OnRun LeadsItself) s) : ∀ i peer args,
      ⟨i, .beatCall peer args⟩ ∈ s.gos → Event.promoted i args.term ∈ s.log := by
  refine h.invariant (I := fun s => ∀ i peer args, ⟨i, .beatCall peer args⟩ ∈ s.gos →
    Event.promoted i args.term ∈ s.log) (by simp [system, State.init]) ?_
  intro s a s' hr ih hc hstep i peer args hgo
  have hst := State.step_cases hstep
  refine hst.effect.log_subset ?_
  rcases hst.moved hgo with hgo | hmv
  · exact ih i peer args hgo
  · cases hmv with
    | beatRead ha hg hrf =>
        subst ha
        obtain ⟨hrole, hv⟩ := hc _ hg _ hrf
        rw [reachable_me hr i _ hrf] at hv
        exact reachable_promoted hr i _ hrf hrole hv

/-- In every run in which `sendHeartbeat` reads the term only of a leader that has its own vote,
every `AppendEntries` that is sent names its sender, and its sender was elected in its term
before. -/
theorem heartbeats_of_elected {n : ℕ} {s : State}
    (h : (system n).ReachableBy (OnRun LeadsItself) s) :
    EachEvent (fun pre e => ∀ i peer args, e = .sentBeat i peer args →
      args.leaderId = i ∧ Event.promoted i args.term ∈ pre) s.log := by
  refine h.invariant (I := fun s => EachEvent (fun pre e => ∀ i peer args,
    e = .sentBeat i peer args → args.leaderId = i ∧ Event.promoted i args.term ∈ pre) s.log)
    (EachEvent.nil _) ?_
  intro s a s' hr ih hc hstep
  cases (State.step_cases hstep).effect with
  | quiet hs hl => rwa [hl]
  | sent hs he hl =>
      rw [hl]
      refine ih.concat ?_
      rintro i peer args rfl
      cases he with
      | beat hg =>
          exact ⟨(reachable_messagesOk hr).go _ hg, reachable_beatCall hr i peer args hg⟩
  | ran hrf hs hl hsec ho =>
      rw [hl]
      refine ih.append ?_
      rintro e he pre i peer args rfl
      exact absurd rfl ((hsec.not_sent _ he).2 i peer args)

/-- The elected server `0` sends a heartbeat. -/
def heartbeatRun : List Action := electionRun ++ [.run 2, .run 2, .run 3, .run 3]

theorem heartbeats_of_elected_heartbeat :
    ∃ s, (system 3).ReachableBy (OnRun LeadsItself) s ∧
      ∃ pre post, s.log = pre ++ Event.sentBeat 0 1 ⟨1, 0⟩ :: post ∧ Event.promoted 0 1 ∈ pre := by
  obtain ⟨s, hr, hs⟩ := Lts.exists_of_exec (L := system 3) (C := OnRun LeadsItself)
    (p := fun s => decide (Event.sentBeat 0 1 ⟨1, 0⟩ ∈ s.log)) heartbeatRun (by decide)
  obtain ⟨pre, post, hl, hP⟩ := (heartbeats_of_elected hr).of_mem (of_decide_eq_true hs)
  exact ⟨s, hr, pre, post, hl, (hP 0 1 ⟨1, 0⟩ rfl).2⟩

/-- After the election of `0` in term `1` its heartbeats are late; the server `1` stands in term
`2` and `0` grants it its vote. -/
def newerTermRun : List Action :=
  electionRun ++ [.run 2, .run 2, .clock 4000, .timeout 1 0, .elect 1, .request 1, .run 5, .run 5,
    .deliver 0]

/-- The next heartbeat of the old leader has the newer term. -/
theorem heartbeat_without_election : ∃ s, (system 3).Reachable s ∧
    Event.sentBeat 0 1 ⟨2, 0⟩ ∈ s.log ∧ Event.promoted 0 2 ∉ s.log := by
  obtain ⟨s, hr, hs⟩ := Lts.exists_of_exec (L := system 3) (C := fun _ _ => True)
    (p := fun s => decide (Event.sentBeat 0 1 ⟨2, 0⟩ ∈ s.log ∧ Event.promoted 0 2 ∉ s.log))
    (newerTermRun ++ [.run 2, .run 7, .run 7]) (by decide)
  exact ⟨s, hr, of_decide_eq_true hs⟩

end DistributedSystems.Raft
