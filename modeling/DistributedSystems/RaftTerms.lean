import DistributedSystems.RaftRequests

/-! # Newer terms

A server meets a newer term in a request or in a reply.  Only the handlers of the replies always
adopt it and step down: `RequestVote` adopts it and keeps the role, and `AppendEntries` steps down
but stays in its own term.  `adopts_iff` says for every server and every message when the rule is
met (`StepsDown`).

A newer term that comes with a reply leaves `votedFor` as it is, so the server may refuse its vote
in a term in which it has not voted (`refused_without_vote`).  Where this happens only to servers
that have voted for nobody, `votedFor` is the vote of the current term, and a server that has not
voted in a term can still vote in it (`granted_of_unvoted`). -/

namespace DistributedSystems.Raft

/-! ### What one server does in a step -/

/-- The code that the server `i` runs in a step, and the server after it. -/
inductive Ran (s : State) (i : ℕ) (rf : Server) : Action → Server → Prop
  | elect : Ran s i rf (.elect i) (rf.makeCandidate s.now)
  | request : Ran s i rf (.request i)
      { rf.newContext.1 with abortElection := some rf.newContext.2 }
  | heartbeatStart {g : ℕ} (hg : s.gos[g]? = some ⟨i, .heartbeatStart⟩) : Ran s i rf (.run g)
      { rf.newContext.1 with abortHeartbeat := some rf.newContext.2 }
  | requestVote {k call : ℕ} {args : RequestVoteArgs}
      (hq : s.requests[k]? = some ⟨call, i, .requestVote args⟩) :
      Ran s i rf (.deliver k) (rf.requestVote args s.now).1
  | appendEntries {k call : ℕ} {args : AppendEntriesArgs}
      (hq : s.requests[k]? = some ⟨call, i, .appendEntries args⟩) :
      Ran s i rf (.deliver k) (rf.appendEntries args s.now).1
  | voteReply {g k ctx peer call : ℕ} {args : RequestVoteArgs} {reply : RequestVoteReply}
      (hg : s.gos[g]? = some ⟨i, .voteWait ctx peer args call⟩)
      (hp : s.replies[k]? = some ⟨call, .requestVote reply⟩) :
      Ran s i rf (.callTrue g k) (rf.handleRequestVote reply).1
  | beatReply {g k call : ℕ} {reply : AppendEntriesReply}
      (hg : s.gos[g]? = some ⟨i, .beatWait call⟩)
      (hp : s.replies[k]? = some ⟨call, .appendEntries reply⟩) :
      Ran s i rf (.callTrue g k) (rf.handleAppendEntries reply)

theorem Stepped.ran {s s' : State} {a : Action} (h : Stepped s a s') {i : ℕ} {rf' : Server}
    (hi : s'.servers[i]? = some rf') :
    s.servers[i]? = some rf' ∨ ∃ rf, s.alive i = some rf ∧ Ran s i rf a rf' := by
  cases h with
  | elect hrf ht =>
      rcases getElem?_set_cases hi with ⟨rfl, rfl⟩ | ⟨-, hi⟩
      · exact Or.inr ⟨_, hrf, .elect⟩
      · exact Or.inl hi
  | request hrf ht =>
      rcases getElem?_set_cases hi with ⟨rfl, rfl⟩ | ⟨-, hi⟩
      · exact Or.inr ⟨_, hrf, .request⟩
      · exact Or.inl hi
  | heartbeatStart hg hrf =>
      rcases getElem?_set_cases hi with ⟨rfl, rfl⟩ | ⟨-, hi⟩
      · exact Or.inr ⟨_, hrf, .heartbeatStart hg⟩
      · exact Or.inl hi
  | @deliver k q rf hq hrf =>
      obtain ⟨call, dest, msg⟩ := q
      cases msg with
      | requestVote args =>
          rcases getElem?_set_cases hi with ⟨rfl, rfl⟩ | ⟨-, hi⟩
          · exact Or.inr ⟨_, hrf, .requestVote hq⟩
          · exact Or.inl hi
      | appendEntries args =>
          rcases getElem?_set_cases hi with ⟨rfl, rfl⟩ | ⟨-, hi⟩
          · exact Or.inr ⟨_, hrf, .appendEntries hq⟩
          · exact Or.inl hi
  | voteReply hg hrf hp =>
      rcases getElem?_set_cases hi with ⟨rfl, rfl⟩ | ⟨-, hi⟩
      · exact Or.inr ⟨_, hrf, .voteReply hg hp⟩
      · exact Or.inl hi
  | beatReply hg hrf hp =>
      rcases getElem?_set_cases hi with ⟨rfl, rfl⟩ | ⟨-, hi⟩
      · exact Or.inr ⟨_, hrf, .beatReply hg hp⟩
      · exact Or.inl hi
  | _ => exact Or.inl hi

/-! ### Messages and their terms -/

/-- A message that a server handles. -/
inductive Incoming where
  | request (msg : Msg)
  | reply (reply : Reply)
deriving DecidableEq, Repr

def Incoming.term : Incoming → ℕ
  | .request (.requestVote args) => args.term
  | .request (.appendEntries args) => args.term
  | .reply (.requestVote r) => r.term
  | .reply (.appendEntries r) => r.term

namespace Server

variable (rf : Server) (now : ℤ)

/-- The server after the handler of the message. -/
def handle : Incoming → Server
  | .request (.requestVote args) => (rf.requestVote args now).1
  | .request (.appendEntries args) => (rf.appendEntries args now).1
  | .reply (.requestVote reply) => (rf.handleRequestVote reply).1
  | .reply (.appendEntries reply) => rf.handleAppendEntries reply

/-- The handler returns, and the server is follower in the term `t`. -/
structure FollowsIn (t : ℕ) : Prop where
  returned : rf.panicked = false
  term : rf.currentTerm = t
  role : rf.role = .follower

/-- The rule of the newer terms for one message: a newer term is adopted with a step-down, and so
is the term of an `AppendEntries` that is not outdated, which succeeds. -/
structure Adopts (m : Incoming) : Prop where
  newer : rf.currentTerm < m.term → (rf.handle now m).FollowsIn m.term
  append : ∀ args, m = .request (.appendEntries args) → rf.currentTerm ≤ args.term →
    (rf.handle now m).FollowsIn args.term ∧
      ∃ reply, (rf.appendEntries args now).2 = some reply ∧ reply.success = true

/-- The abort function that a step-down calls is set. -/
def CanAbort : Prop :=
  match rf.role with
  | .follower => True
  | .candidate => rf.abortElection ≠ none
  | .leader => rf.abortHeartbeat ≠ none

/-- When the rule is met. -/
def StepsDown : Incoming → Prop
  | .request (.requestVote args) => rf.currentTerm < args.term → rf.role = .follower
  | .request (.appendEntries args) =>
      args.term ≤ rf.currentTerm ∧ (args.term = rf.currentTerm → rf.CanAbort)
  | .reply (.requestVote reply) => rf.currentTerm < reply.term → rf.CanAbort
  | .reply (.appendEntries reply) => rf.currentTerm < reply.term → rf.CanAbort

/-! ### The four handlers -/

variable {rf}

/-- A step-down returns if the abort function that it calls is set. -/
theorem makeFollower_panicked_iff (hrf : rf.panicked = false) (t : ℕ) :
    (rf.makeFollower t).panicked = false ↔ rf.CanAbort := by
  unfold makeFollower CanAbort
  cases rf.role with
  | follower => simpa using hrf
  | candidate => cases h : rf.abortElection <;> simp [call, hrf]
  | leader => cases h : rf.abortHeartbeat <;> simp [call, hrf]

theorem followsIn_makeFollower_iff (hrf : rf.panicked = false) (t : ℕ) :
    (rf.makeFollower t).FollowsIn t ↔ rf.CanAbort := by
  rw [← makeFollower_panicked_iff hrf t]
  constructor
  · intro h
    exact h.returned
  · intro h
    exact ⟨h, rf.makeFollower_currentTerm t, rf.makeFollower_role t⟩

theorem adopts_requestVote_iff (hrf : rf.panicked = false) (args : RequestVoteArgs) :
    rf.Adopts now (.request (.requestVote args)) ↔ rf.StepsDown (.request (.requestVote args)) := by
  have hnew : rf.currentTerm < args.term → rf.handle now (.request (.requestVote args)) =
      { rf with
        votedFor := some args.candidateId, currentTerm := args.term, checkpoint := now } := by
    intro hlt
    simp [handle, requestVote, hlt.not_gt, hlt.ne']
  constructor
  · intro h hlt
    have hrole := (h.newer hlt).role
    rwa [hnew hlt] at hrole
  · intro h
    refine ⟨?_, by simp⟩
    intro hlt
    rw [hnew hlt]
    exact ⟨hrf, rfl, h hlt⟩

theorem adopts_appendEntries_iff (hrf : rf.panicked = false) (args : AppendEntriesArgs) :
    rf.Adopts now (.request (.appendEntries args)) ↔
      rf.StepsDown (.request (.appendEntries args)) := by
  -- the handler stays in its own term
  have hterm : (rf.handle now (.request (.appendEntries args))).currentTerm = rf.currentTerm := by
    simp only [handle, appendEntries]
    split_ifs <;> simp
  have hpan : rf.currentTerm ≤ args.term →
      ((rf.handle now (.request (.appendEntries args))).panicked = false ↔ rf.CanAbort) := by
    intro hle
    rw [← makeFollower_panicked_iff hrf rf.currentTerm]
    simp only [handle, appendEntries, hle.not_gt, if_false]
    split_ifs with hp
    · rfl
    · rfl
  constructor
  · intro h
    constructor
    · by_contra hlt
      have ht := (h.newer (not_le.mp hlt)).term
      rw [hterm] at ht
      exact hlt ht.ge
    · intro he
      exact (hpan he.ge).mp (h.append args rfl he.ge).1.returned
  · rintro ⟨hle, habort⟩
    refine ⟨fun hlt => absurd hlt hle.not_gt, ?_⟩
    intro args' hm hge
    cases hm
    have he : args.term = rf.currentTerm := le_antisymm hle hge
    have hnp := (hpan hge).mpr (habort he)
    have hf : (rf.makeFollower rf.currentTerm).panicked = false :=
      (makeFollower_panicked_iff hrf _).mpr (habort he)
    refine ⟨⟨hnp, hterm.trans he.symm, ?_⟩, ⟨rf.currentTerm, true⟩, ?_, rfl⟩
    · simp [handle, appendEntries, he, hf]
    · simp [appendEntries, he, hf]

theorem adopts_reply_iff (hrf : rf.panicked = false) (r : Reply) :
    rf.Adopts now (.reply r) ↔ rf.StepsDown (.reply r) := by
  have hnew : rf.currentTerm < (Incoming.reply r).term →
      rf.handle now (.reply r) = rf.makeFollower (Incoming.reply r).term := by
    intro hlt
    cases r with
    | requestVote reply => exact congrArg Prod.fst (if_pos hlt)
    | appendEntries reply => exact if_pos hlt
  have hsteps : rf.StepsDown (.reply r) ↔
      (rf.currentTerm < (Incoming.reply r).term → rf.CanAbort) := by
    cases r <;> rfl
  rw [hsteps]
  constructor
  · intro h hlt
    have hf := h.newer hlt
    rw [hnew hlt] at hf
    exact (followsIn_makeFollower_iff hrf _).mp hf
  · intro h
    refine ⟨?_, by simp⟩
    intro hlt
    rw [hnew hlt]
    exact (followsIn_makeFollower_iff hrf _).mpr (h hlt)

end Server

/-- In every state, every server that has not panicked handles every message by the rule of the
newer terms exactly if `StepsDown`. -/
theorem adopts_iff (s : State) {i : ℕ} {rf : Server} (hrf : s.alive i = some rf) (m : Incoming) :
    rf.Adopts s.now m ↔ rf.StepsDown m := by
  have hrf := State.not_panicked_of_alive hrf
  cases m with
  | request msg =>
      cases msg with
      | requestVote args => exact Server.adopts_requestVote_iff s.now hrf args
      | appendEntries args => exact Server.adopts_appendEntries_iff s.now hrf args
  | reply r => exact Server.adopts_reply_iff s.now hrf r

/-- The leader of term `1` steps down on a reply of term `2`. -/
theorem adopts_iff_leader : ∃ s rf, (system 3).Reachable s ∧ s.alive 0 = some rf ∧
    rf.getState = (1, true) ∧ rf.Adopts s.now (.reply (.appendEntries ⟨2, false⟩)) := by
  obtain ⟨s, hr, hs⟩ := Lts.exists_of_exec (L := system 3) (C := fun _ _ => True)
    (p := fun s => decide ((s.alive 0).map (fun rf => (rf.getState, rf.role, rf.abortHeartbeat)) =
      some ((1, true), .leader, some 1))) heartbeatRun (by decide)
  obtain ⟨rf, hrf, he⟩ := Option.map_eq_some_iff.mp (of_decide_eq_true hs)
  simp only [Prod.mk.injEq] at he
  refine ⟨s, rf, hr, hrf, he.1, (adopts_iff s hrf _).mpr ?_⟩
  intro _
  simp [Server.CanAbort, he.2.1, he.2.2]

/-- A leader grants a vote in a newer term and stays leader; a follower answers the heartbeat of a
newer term and stays in its own. -/
theorem newer_term_not_adopted :
    (∃ s rf, (system 3).Reachable s ∧ s.alive 0 = some rf ∧
      ⟨1, 0, .requestVote ⟨2, 1⟩⟩ ∈ s.requests ∧
      ¬ rf.Adopts s.now (.request (.requestVote ⟨2, 1⟩))) ∧
    ∃ s rf, (system 3).Reachable s ∧ s.alive 2 = some rf ∧
      ⟨1, 2, .appendEntries ⟨1, 0⟩⟩ ∈ s.requests ∧
      ¬ rf.Adopts s.now (.request (.appendEntries ⟨1, 0⟩)) := by
  constructor
  · obtain ⟨s, hr, hs⟩ := Lts.exists_of_exec (L := system 3) (C := fun _ _ => True)
      (p := fun s => decide (⟨1, 0, .requestVote ⟨2, 1⟩⟩ ∈ s.requests ∧
        (s.alive 0).map (fun rf => (rf.currentTerm, (rf.requestVote ⟨2, 1⟩ s.now).1.role)) =
          some (1, .leader))) newerTermRun.dropLast (by decide)
    obtain ⟨hq, hs⟩ := of_decide_eq_true hs
    obtain ⟨rf, hrf, he⟩ := Option.map_eq_some_iff.mp hs
    obtain ⟨hterm, hrole⟩ := Prod.mk.inj he
    refine ⟨s, rf, hr, hrf, hq, ?_⟩
    intro h
    have hlt : rf.currentTerm < 2 := by omega
    cases hrole.symm.trans (h.newer hlt).role
  · obtain ⟨s, hr, hs⟩ := Lts.exists_of_exec (L := system 3) (C := fun _ _ => True)
      (p := fun s => decide (⟨1, 2, .appendEntries ⟨1, 0⟩⟩ ∈ s.requests ∧
        (s.alive 2).map (fun rf =>
          (rf.currentTerm, (rf.appendEntries ⟨1, 0⟩ s.now).1.currentTerm)) = some (0, 0)))
      (electionRun ++ [.run 2, .run 2, .run 4, .run 4]) (by decide)
    obtain ⟨hq, hs⟩ := of_decide_eq_true hs
    obtain ⟨rf, hrf, he⟩ := Option.map_eq_some_iff.mp hs
    obtain ⟨hterm, hterm'⟩ := Prod.mk.inj he
    refine ⟨s, rf, hr, hrf, hq, ?_⟩
    intro h
    have hlt : rf.currentTerm < 1 := by omega
    cases hterm'.symm.trans (h.newer hlt).term

/-! ### Votes of the current term -/

/-- The server has no vote that a reply of a newer term would leave standing. -/
def DropsVote (rf : Server) (r : Reply) : Prop :=
  rf.currentTerm < (Incoming.reply r).term → rf.votedFor = none

instance (rf : Server) (r : Reply) : Decidable (DropsVote rf r) :=
  inferInstanceAs (Decidable (_ → _))

/-- Replies of a newer term are handled only by servers that have voted for nobody. -/
def NoStaleVote (s : State) : Action → Prop
  | .callTrue g k => ∀ go ∈ s.gos[g]?, ∀ p ∈ s.replies[k]?, ∀ rf ∈ s.servers[go.server]?,
      DropsVote rf p.reply
  | _ => True

instance (s : State) : (a : Action) → Decidable (NoStaleVote s a)
  | .callTrue g k => inferInstanceAs (Decidable (∀ go ∈ s.gos[g]?, ∀ p ∈ s.replies[k]?,
      ∀ rf ∈ s.servers[go.server]?, DropsVote rf p.reply))
  | .clock _ | .timeout _ _ | .elect _ | .request _ | .run _ | .deliver _ | .lose _
  | .callFalse _ => isTrue trivial

namespace Server

variable (rf : Server) (now : ℤ)

theorem appendEntries_voter (args : AppendEntriesArgs) :
    (rf.appendEntries args now).1.voter = rf.voter := by
  simp only [appendEntries, voter]
  split_ifs <;> simp

theorem makeCandidate_voter : (rf.makeCandidate now).voter =
    if (rf.makeCandidate now).panicked then rf.voter else ⟨rf.currentTerm + 1, some rf.me⟩ := by
  unfold makeCandidate
  dsimp only
  split_ifs <;> simp_all [voter]

theorem requestVote_voter (args : RequestVoteArgs) : (rf.requestVote args now).1.voter =
    if (rf.requestVote args now).2.voteGranted then ⟨args.term, some args.candidateId⟩
    else rf.voter := by
  unfold requestVote
  split_ifs <;> simp_all [voter]

/-- A reply changes the vote only by its newer term. -/
theorem handle_reply_voter {r : Reply} (h : DropsVote rf r) :
    (rf.handle now (.reply r)).votedFor = none ∨ (rf.handle now (.reply r)).voter = rf.voter := by
  by_cases hlt : rf.currentTerm < (Incoming.reply r).term
  · refine Or.inl ?_
    rw [← h hlt]
    cases r with
    | requestVote reply =>
        change rf.currentTerm < reply.term at hlt
        simp [handle, handleRequestVote, hlt]
    | appendEntries reply =>
        change rf.currentTerm < reply.term at hlt
        simp [handle, handleAppendEntries, hlt]
  · refine Or.inr ?_
    cases r with
    | requestVote reply =>
        have hn : ¬ rf.currentTerm < reply.term := hlt
        simp only [handle, handleRequestVote, hn, if_false, makeLeader_eq]
        split_ifs <;> rfl
    | appendEntries reply =>
        have hn : ¬ rf.currentTerm < reply.term := hlt
        simp only [handle, handleAppendEntries, hn, if_false]

end Server

section

variable {s s' : State} {a : Action} {i : ℕ} {rf : Server} {c : ℕ}

/-- A server that stands has voted for itself. -/
theorem voted_of_elect (h : Stepped s (.elect i) s') (hrf : s.alive i = some rf) (hme : rf.me = i)
    (hp : (rf.makeCandidate s.now).panicked = false)
    (hv : (rf.makeCandidate s.now).votedFor = some c) :
    Voted s'.log i (rf.makeCandidate s.now).currentTerm c := by
  have hvoter := rf.makeCandidate_voter s.now
  rw [hp, if_neg (by simp)] at hvoter
  obtain ⟨hterm, hvote⟩ := Voter.mk.inj hvoter
  obtain rfl : rf.me = c := Option.some.inj (hvote.symm.trans hv)
  rw [hterm, hme]
  refine voted_of_candidacy ?_
  cases h with
  | elect hrf₁ ht =>
      obtain rfl := Option.some.inj (hrf.symm.trans hrf₁)
      simp [State.makeCandidate, hp, hme]

/-- A server that grants a vote has voted. -/
theorem voted_of_requestVote {k call : ℕ} {args : RequestVoteArgs} (h : Stepped s (.deliver k) s')
    (hq : s.requests[k]? = some ⟨call, i, .requestVote args⟩) (hrf : s.alive i = some rf)
    (hme : rf.me = i) (hg : (rf.requestVote args s.now).2.voteGranted = true)
    (hv : (rf.requestVote args s.now).1.votedFor = some c) :
    Voted s'.log i (rf.requestVote args s.now).1.currentTerm c := by
  have hvoter := rf.requestVote_voter s.now args
  rw [hg, if_pos rfl] at hvoter
  obtain ⟨hterm, hvote⟩ := Voter.mk.inj hvoter
  obtain rfl : args.candidateId = c := Option.some.inj (hvote.symm.trans hv)
  rw [hterm]
  refine voted_of_grant ?_
  cases h with
  | deliver hq₁ hrf₁ =>
      obtain rfl := Option.some.inj (hq.symm.trans hq₁)
      obtain rfl := Option.some.inj (hrf.symm.trans hrf₁)
      simp [State.deliver, hg, hme]

/-- A step that changes the vote of a server records the new one. -/
theorem Stepped.voted {rf' : Server} (h : Stepped s a s') (hC : NoStaleVote s a)
    (hme : ∀ rf : Server, s.servers[i]? = some rf → rf.me = i) (hi : s'.servers[i]? = some rf')
    (hv : rf'.votedFor = some c) :
    (∃ rf : Server, s.servers[i]? = some rf ∧ rf'.voter = rf.voter) ∨
      Voted s'.log i rf'.currentTerm c := by
  rcases h.ran hi with hsame | ⟨rf, halive, hran⟩
  · exact Or.inl ⟨rf', hsame, rfl⟩
  have hrf := State.getElem?_of_alive halive
  cases hran with
  | elect =>
      cases hp : (rf.makeCandidate s.now).panicked with
      | true =>
          refine Or.inl ⟨rf, hrf, ?_⟩
          rw [rf.makeCandidate_voter, hp, if_pos rfl]
      | false => exact Or.inr (voted_of_elect h halive (hme rf hrf) hp hv)
  | request => exact Or.inl ⟨rf, hrf, rfl⟩
  | heartbeatStart hg => exact Or.inl ⟨rf, hrf, rfl⟩
  | @requestVote k call args hq =>
      cases hg : (rf.requestVote args s.now).2.voteGranted with
      | false =>
          refine Or.inl ⟨rf, hrf, ?_⟩
          rw [rf.requestVote_voter, hg, if_neg (by simp)]
      | true => exact Or.inr (voted_of_requestVote h hq halive (hme rf hrf) hg hv)
  | appendEntries hq => exact Or.inl ⟨rf, hrf, rf.appendEntries_voter s.now _⟩
  | voteReply hg hp =>
      rcases rf.handle_reply_voter s.now (hC _ hg _ hp rf hrf) with hn | he
      · cases hn.symm.trans hv
      · exact Or.inl ⟨rf, hrf, he⟩
  | beatReply hg hp =>
      rcases rf.handle_reply_voter s.now (hC _ hg _ hp rf hrf) with hn | he
      · cases hn.symm.trans hv
      · exact Or.inl ⟨rf, hrf, he⟩

end

/-- What a server has in `votedFor` it has voted for in its term. -/
theorem reachable_voted {n : ℕ} {s : State} (h : (system n).ReachableBy NoStaleVote s) :
    ∀ i (rf : Server) c, s.servers[i]? = some rf → rf.votedFor = some c →
      Voted s.log i rf.currentTerm c := by
  refine h.invariant (I := fun s => ∀ i (rf : Server) c, s.servers[i]? = some rf →
    rf.votedFor = some c → Voted s.log i rf.currentTerm c) ?_ ?_
  · intro i rf c hi hv
    rw [init_server hi] at hv
    cases hv
  · intro s a s' hr ih hC hstep i rf' c hi hv
    have hst := State.step_cases hstep
    rcases hst.voted hC (reachable_me hr i) hi hv with ⟨rf, hrf, he⟩ | hvoted
    · obtain ⟨hterm, hvote⟩ := Voter.mk.inj he
      rw [hterm]
      exact (ih i rf c hrf (hvote ▸ hv)).mono (fun _ hmem => hst.effect.log_subset hmem)
    · exact hvoted

/-- The server has neither granted a vote nor stood in the term. -/
def Unvoted (log : List Event) (i t : ℕ) : Prop :=
  ∀ v ∈ log.filterMap Event.vote?, (v.1, v.2.1) ≠ (i, t)

instance (log : List Event) (i t : ℕ) : Decidable (Unvoted log i t) :=
  inferInstanceAs (Decidable (∀ v ∈ log.filterMap Event.vote?, (v.1, v.2.1) ≠ (i, t)))

theorem Unvoted.not_voted {log : List Event} {i t : ℕ} (h : Unvoted log i t) (c : ℕ) :
    ¬ Voted log i t c :=
  fun hv => h _ hv rfl

/-- In every run in which replies of a newer term are handled only by servers that have voted for
nobody, a server that has neither granted a vote nor stood in a term that is not older than its own
grants every `RequestVote` of that term. -/
theorem granted_of_unvoted {n : ℕ} {s : State} (h : (system n).ReachableBy NoStaleVote s) {i : ℕ}
    {rf : Server} (hrf : s.servers[i]? = some rf) {args : RequestVoteArgs}
    (hterm : rf.currentTerm ≤ args.term) (hun : Unvoted s.log i args.term) (now : ℤ) :
    (rf.requestVote args now).2.voteGranted = true := by
  have hfree : args.term = rf.currentTerm → rf.votedFor = none := by
    intro he
    rw [he] at hun
    refine Option.eq_none_iff_forall_ne_some.mpr ?_
    intro c hv
    exact hun.not_voted c (reachable_voted h i rf c hrf hv)
  unfold Server.requestVote
  rw [if_neg hterm.not_gt, if_neg]
  rintro ⟨he, hne, -⟩
  exact hne (hfree he)

/-- After the election of `0` the server `2` has not voted in term `1` and grants its vote. -/
theorem granted_of_unvoted_election : ∃ s rf, (system 3).ReachableBy NoStaleVote s ∧
    s.servers[2]? = some rf ∧ (rf.requestVote ⟨1, 0⟩ s.now).2.voteGranted = true := by
  obtain ⟨s, hr, hs⟩ := Lts.exists_of_exec (L := system 3) (C := NoStaleVote)
    (p := fun s => decide (s.servers[2]?.map Server.currentTerm = some 0 ∧ Unvoted s.log 2 1))
    electionRun (by decide)
  obtain ⟨hrf, hun⟩ := of_decide_eq_true hs
  obtain ⟨rf, hrf, ht⟩ := Option.map_eq_some_iff.mp hrf
  have hterm : rf.currentTerm ≤ 1 := by omega
  exact ⟨s, rf, hr, hrf, granted_of_unvoted hr hrf hterm hun s.now⟩

/-- The server `2` stands in terms `1` and `2` and refuses the request of `0` of term `1`; the
server `0` learns of term `2` from the reply, and `2` asks it for its vote. -/
def staleVoteRun : List Action :=
  [.clock 2000, .timeout 2 0, .elect 2, .request 2, .clock 4000, .timeout 2 0, .elect 2, .request 2,
    .timeout 0 0, .elect 0, .request 0, .run 5, .run 5, .deliver 0, .callTrue 5 0, .run 2, .run 2]

/-- It refuses, although it has not voted in term `2`: its vote for itself in term `1` stands. -/
theorem refused_without_vote : ∃ s rf, (system 3).Reachable s ∧ s.alive 0 = some rf ∧
    ⟨1, 0, .requestVote ⟨2, 2⟩⟩ ∈ s.requests ∧ rf.currentTerm = 2 ∧ Unvoted s.log 0 2 ∧
    (rf.requestVote ⟨2, 2⟩ s.now).2.voteGranted = false := by
  obtain ⟨s, hr, hs⟩ := Lts.exists_of_exec (L := system 3) (C := fun _ _ => True)
    (p := fun s => decide (⟨1, 0, .requestVote ⟨2, 2⟩⟩ ∈ s.requests ∧ Unvoted s.log 0 2 ∧
      (s.alive 0).map (fun rf => (rf.currentTerm, (rf.requestVote ⟨2, 2⟩ s.now).2.voteGranted)) =
        some (2, false))) staleVoteRun (by decide)
  obtain ⟨hq, hun, hs⟩ := of_decide_eq_true hs
  obtain ⟨rf, hrf, he⟩ := Option.map_eq_some_iff.mp hs
  obtain ⟨hterm, hgrant⟩ := Prod.mk.inj he
  exact ⟨s, rf, hr, hrf, hq, hterm, hun, hgrant⟩

end DistributedSystems.Raft
