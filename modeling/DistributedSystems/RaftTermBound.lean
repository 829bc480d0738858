import DistributedSystems.RaftTerms

/-! # How large a term gets

Only `makeCandidate` takes a server to a term that no server and no message has: the handlers leave
a server in its term or take over that of a message, and messages carry the terms of servers.  So no
term is larger than the number of candidacies so far (`reachable_termsLe`). -/

namespace DistributedSystems.Raft

/-- How often a server has become candidate, over all servers. -/
def allCandidacies (log : List Event) : ℕ :=
  log.countP (fun
    | .candidacy _ _ => true
    | _ => false)

theorem allCandidacies_append (log es : List Event) :
    allCandidacies (log ++ es) = allCandidacies log + allCandidacies es :=
  List.countP_append

/-- The term of the arguments that a goroutine has read. -/
def Task.term? : Task → Option ℕ
  | .voteLoop _ _ args => some args.term
  | .voteWait _ _ args _ => some args.term
  | .beatCall _ args => some args.term
  | _ => none

/-- No term in the cluster is above `b`. -/
structure TermsLe (b : ℕ) (s : State) : Prop where
  server : ∀ (i : ℕ) (rf : Server), s.servers[i]? = some rf → rf.currentTerm ≤ b
  go : ∀ go ∈ s.gos, ∀ t ∈ go.task.term?, t ≤ b
  request : ∀ q ∈ s.requests, (Incoming.request q.msg).term ≤ b
  reply : ∀ p ∈ s.replies, (Incoming.reply p.reply).term ≤ b

namespace Server

variable (rf : Server) (now : ℤ)

/-- A handler leaves the server in its term or takes over that of the message. -/
theorem handle_currentTerm_le (m : Incoming) :
    (rf.handle now m).currentTerm ≤ max rf.currentTerm m.term := by
  cases m with
  | request msg =>
      cases msg with
      | requestVote args =>
          simp only [handle, requestVote, Incoming.term]
          split_ifs <;> simp
      | appendEntries args =>
          simp only [handle, appendEntries, Incoming.term]
          split_ifs <;> simp
  | reply r =>
      cases r with
      | requestVote reply =>
          simp only [handle, handleRequestVote, makeLeader_eq, Incoming.term]
          split_ifs <;> simp
      | appendEntries reply =>
          simp only [handle, handleAppendEntries, Incoming.term]
          split_ifs <;> simp

theorem requestVote_reply_term_le (args : RequestVoteArgs) :
    (rf.requestVote args now).2.term ≤ rf.currentTerm := by
  unfold requestVote
  split_ifs <;> simp

theorem appendEntries_reply_term {args : AppendEntriesArgs} {reply : AppendEntriesReply}
    (h : (rf.appendEntries args now).2 = some reply) : reply.term = rf.currentTerm := by
  unfold appendEntries at h
  dsimp only at h
  split_ifs at h <;> obtain rfl := Option.some.inj h <;> rfl

end Server

section

variable {s s' : State} {a : Action} {b : ℕ}

theorem Stepped.allCandidacies_le (h : Stepped s a s') :
    allCandidacies s.log ≤ allCandidacies s'.log := by
  cases h.effect with
  | quiet hs hl => rw [hl]
  | sent hs he hl =>
      rw [hl, allCandidacies_append]
      exact Nat.le_add_right _ _
  | ran hrf hs hl hsec ho =>
      rw [hl, allCandidacies_append]
      exact Nat.le_add_right _ _

/-- A reply carries at most the term of the server that answers. -/
theorem Stepped.reply_term_le (h : Stepped s a s') (hb : TermsLe b s) {p : Response}
    (hp : p ∈ s'.replies) : (Incoming.reply p.reply).term ≤ b := by
  cases h with
  | @deliver k q rf hq hrf =>
      have hterm := hb.server _ _ (State.getElem?_of_alive hrf)
      cases hm : q.msg with
      | requestVote args =>
          simp only [State.deliver, hm] at hp
          rcases List.mem_append.mp hp with hp | hp
          · exact hb.reply p hp
          · obtain rfl := List.mem_singleton.mp hp
            exact (rf.requestVote_reply_term_le s.now args).trans hterm
      | appendEntries args =>
          simp only [State.deliver, hm] at hp
          rcases List.mem_append.mp hp with hp | hp
          · exact hb.reply p hp
          · obtain ⟨reply, hreply, rfl⟩ := List.mem_map.mp hp
            have he := rf.appendEntries_reply_term s.now (Option.mem_toList.mp hreply)
            exact he.trans_le hterm
  | lose k => exact hb.reply p (by simpa using hp)
  | _ => exact hb.reply p hp

theorem Stepped.go_term_le (h : Stepped s a s') (hb : TermsLe b s) {go : Goroutine}
    (hgo : go ∈ s'.gos) {t : ℕ} (ht : t ∈ go.task.term?) : t ≤ b := by
  rcases h.moved hgo with hgo | hm
  · exact hb.go go hgo t ht
  cases hm with
  | voteRead ha hg hrf =>
      obtain rfl := Option.some.inj ht
      exact hb.server _ _ hrf
  | voteSend ha hg hcalls => exact hb.go _ (List.mem_of_getElem? hg) t ht
  | voteFailed hg => exact hb.go _ hg t ht
  | beatRead ha hg hrf =>
      obtain rfl := Option.some.inj ht
      exact hb.server _ _ hrf
  | _ => cases ht

theorem Stepped.request_term_le (h : Stepped s a s') (hb : TermsLe b s) {q : Request}
    (hq : q ∈ s'.requests) : (Incoming.request q.msg).term ≤ b := by
  rcases h.requests hq with hq | hd
  · exact hb.request q hq
  · cases hd with
    | vote ha hg hm hcall hcalls =>
        rw [hm]
        exact hb.go _ (List.mem_of_getElem? hg) _ rfl
    | beat ha hg hm hcall hcalls =>
        rw [hm]
        exact hb.go _ (List.mem_of_getElem? hg) _ rfl

/-- Only a candidacy takes a server above the terms there are. -/
theorem Stepped.server_term_le (h : Stepped s a s') (hb : TermsLe (allCandidacies s.log) s) {i : ℕ}
    {rf' : Server} (hi : s'.servers[i]? = some rf') : rf'.currentTerm ≤ allCandidacies s'.log := by
  have hlog := h.allCandidacies_le
  rcases h.ran hi with hsame | ⟨rf, halive, hran⟩
  · exact (hb.server i rf' hsame).trans hlog
  have hrf := hb.server i rf (State.getElem?_of_alive halive)
  have handled : ∀ m : Incoming, m.term ≤ allCandidacies s.log →
      (rf.handle s.now m).currentTerm ≤ allCandidacies s'.log := by
    intro m hm
    exact (rf.handle_currentTerm_le s.now m).trans ((max_le hrf hm).trans hlog)
  cases hran with
  | elect =>
      have hvoter := congrArg Voter.round (rf.makeCandidate_voter s.now)
      cases h with
      | elect hrf₁ ht =>
          obtain rfl := Option.some.inj (halive.symm.trans hrf₁)
          cases hp : (rf.makeCandidate s.now).panicked with
          | true =>
              rw [hp, if_pos rfl] at hvoter
              exact hvoter.trans_le (hrf.trans hlog)
          | false =>
              rw [hp, if_neg (by simp)] at hvoter
              have hs : allCandidacies (s.makeCandidate i rf).log = allCandidacies s.log + 1 := by
                simp [State.makeCandidate, hp, allCandidacies]
              rw [hs]
              exact hvoter.trans_le (Nat.succ_le_succ hrf)
  | request => exact hrf.trans hlog
  | heartbeatStart hg => exact hrf.trans hlog
  | requestVote hq => exact handled (.request _) (hb.request _ (List.mem_of_getElem? hq))
  | appendEntries hq => exact handled (.request _) (hb.request _ (List.mem_of_getElem? hq))
  | voteReply hg hp => exact handled (.reply _) (hb.reply _ (List.mem_of_getElem? hp))
  | beatReply hg hp => exact handled (.reply _) (hb.reply _ (List.mem_of_getElem? hp))

end

/-- In every run no server and no message has a term above the number of candidacies so far.  The
terms of the source are of type `int`, so they are numbers in every run with fewer than `2 ^ 63`
candidacies. -/
theorem reachable_termsLe {n : ℕ} {C : State → Action → Prop} {s : State}
    (h : (system n).ReachableBy C s) : TermsLe (allCandidacies s.log) s := by
  refine h.invariant (I := fun s => TermsLe (allCandidacies s.log) s) ?_ ?_
  · refine ⟨?_, by simp [system, State.init], by simp [system, State.init],
      by simp [system, State.init]⟩
    intro i rf hi
    rw [init_server hi]
    exact Nat.zero_le _
  · intro s a s' hr hb _ hstep
    have hst := State.step_cases hstep
    have hle := hst.allCandidacies_le
    constructor
    · intro i rf hi
      exact hst.server_term_le hb hi
    · intro go hgo t ht
      exact (hst.go_term_le hb hgo ht).trans hle
    · intro q hq
      exact (hst.request_term_le hb hq).trans hle
    · intro p hp
      exact (hst.reply_term_le hb hp).trans hle

end DistributedSystems.Raft
