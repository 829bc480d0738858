import DistributedSystems.RaftTerms

/-! # Abort functions

`makeFollower` and `makeCandidate` call `abortElection` or `abortHeartbeat`, which the server sets
only after it has taken the role: `abortElection` in `requestVotes`, after `makeCandidate` has
unlocked, and `abortHeartbeat` in the goroutine that `makeLeader` starts.  A server that is made
follower in between, and has never set the function before, calls nil
(`abort_called_before_set`).

Counting the candidacies that still wait for their `requestVotes` and the promotions that still
wait for their `startHeartbeat` tells when a function is set (`reachable_slots`).  In the runs in
which a role is only left when one of its loops has started before (`AbortsStarted`), no server
panics (`abort_functions_set`). -/

namespace DistributedSystems.Raft

/-! ### Roles that wait for their loop -/

/-- How often the server `i` has become candidate. -/
def candidacies (log : List Event) (i : ℕ) : ℕ :=
  log.countP (fun
    | .candidacy j _ => j = i
    | _ => false)

/-- How often the server `i` has become leader. -/
def promotions (log : List Event) (i : ℕ) : ℕ :=
  log.countP (fun
    | .promoted j _ => j = i
    | _ => false)

/-- The candidacies of the server `i` whose `requestVotes` has not run yet. -/
def pendingElections (s : State) (i : ℕ) : ℕ := if s.tickers[i]? = some .request then 1 else 0

/-- The promotions of the server `i` whose `startHeartbeat` has not run yet. -/
def pendingHeartbeats (s : State) (i : ℕ) : ℕ := s.gos.count ⟨i, .heartbeatStart⟩

theorem candidacies_append (log es : List Event) (i : ℕ) :
    candidacies (log ++ es) i = candidacies log i + candidacies es i :=
  List.countP_append

theorem promotions_append (log es : List Event) (i : ℕ) :
    promotions (log ++ es) i = promotions log i + promotions es i :=
  List.countP_append

theorem State.ticker_of_timeout {s s' : State} {i r : ℕ} (h : s.step (.timeout i r) = some s') :
    s.tickers[i]? = some .check := by
  simp only [State.step, Option.bind_eq_bind, Option.bind_eq_some_iff] at h
  obtain ⟨rf, -, t, ht, h⟩ := h
  split_ifs at h with hc
  · exact hc ▸ ht
  · exact hc ▸ ht

theorem pendingElections_tick_ne (s : State) {i j : ℕ} (h : i ≠ j) (t : Ticker) :
    pendingElections (s.tick j t) i = pendingElections s i := by
  simp [pendingElections, List.getElem?_set_ne h.symm]

theorem pendingElections_tick_self {s : State} {i : ℕ} {t₀ : Ticker} (h : s.tickers[i]? = some t₀)
    (t : Ticker) : pendingElections (s.tick i t) i = if t = .request then 1 else 0 := by
  have hlt := (List.getElem?_eq_some_iff.mp h).1
  simp [pendingElections, hlt]

theorem elections_makeCandidate {s : State} {j : ℕ} {rf : Server} (hme : rf.me = j)
    (ht : s.tickers[j]? = some .elect) (i : ℕ) :
    candidacies (s.makeCandidate j rf).log i + pendingElections s i ≤
      candidacies s.log i + pendingElections (s.makeCandidate j rf) i := by
  unfold State.makeCandidate
  dsimp only
  rw [State.tick_log, State.serve_log, candidacies_append]
  by_cases hij : i = j
  · subst hij
    rw [pendingElections_tick_self (s := s.serve i _ _) ht]
    simp only [if_true]
    split_ifs <;> simp [candidacies, pendingElections, ht, hme]
  · rw [pendingElections_tick_ne _ hij]
    split_ifs <;> simp [candidacies, pendingElections, hme, Ne.symm hij]

/-- A new candidacy waits for its `requestVotes`, and none but the one that runs it stops
waiting. -/
theorem elections_step {s s' : State} {a : Action}
    (hme : ∀ i (rf : Server), s.servers[i]? = some rf → rf.me = i) (h : s.step a = some s')
    (i : ℕ) : (∀ rf', s'.servers[i]? = some rf' → rf'.abortElection ≠ none) ∨
      candidacies s'.log i + pendingElections s i ≤
        candidacies s.log i + pendingElections s' i := by
  cases State.step_cases h with
  | @timeout j r rf hrf ht =>
      right
      by_cases hij : i = j
      · subst hij
        have hcheck := State.ticker_of_timeout h
        rw [pendingElections_tick_self hcheck]
        simp [pendingElections, hcheck]
      · rw [pendingElections_tick_ne s hij]
        rfl
  | elect hrf ht =>
      exact Or.inr (elections_makeCandidate (hme _ _ (State.getElem?_of_alive hrf)) ht i)
  | @request j rf hrf ht =>
      by_cases hij : i = j
      · subst hij
        left
        intro rf' hi
        rcases getElem?_set_cases hi with ⟨-, rfl⟩ | ⟨hne, -⟩
        · exact Option.some_ne_none _
        · exact absurd rfl hne
      · right
        unfold State.requestVotes
        dsimp only
        rw [pendingElections_tick_ne _ hij]
        simp [candidacies, pendingElections]
  | voteSend hg hrf hc => right; simp [candidacies, pendingElections]
  | beatSend hg => right; simp [candidacies, pendingElections]
  | heartbeatStart hg hrf => right; simp [candidacies, pendingElections]
  | @deliver k q rf hq hrf =>
      right
      unfold State.deliver
      split
      · dsimp only
        split_ifs <;> simp [candidacies, pendingElections]
      · simp [candidacies, pendingElections]
  | voteReply hg hrf hp =>
      right
      unfold State.handleRequestVote
      dsimp only
      split_ifs <;> simp [candidacies, pendingElections]
  | beatReply hg hrf hp =>
      right
      simp [State.handleAppendEntries, candidacies, pendingElections]
  | _ => exact Or.inr le_rfl

/-- A promotion and its goroutine are counted together. -/
theorem heartbeats_handleRequestVote {s : State} {g i j : ℕ} {rf : Server}
    {reply : RequestVoteReply} (hme : rf.me = j)
    (hmove : pendingHeartbeats s i ≤ (s.gos.set g ⟨j, .done⟩).count ⟨i, .heartbeatStart⟩) :
    promotions (s.handleRequestVote g j rf reply).log i + pendingHeartbeats s i ≤
      promotions s.log i + pendingHeartbeats (s.handleRequestVote g j rf reply) i := by
  unfold State.handleRequestVote
  dsimp only
  simp only [State.spawn_log, State.become_log, State.serve_log, promotions_append,
    pendingHeartbeats, State.spawn_gos, State.become_gos, State.serve_gos, List.count_append]
    at hmove ⊢
  split_ifs
  · simp only [promotions, hme, List.countP_singleton, List.count_singleton, decide_eq_true_eq]
    by_cases hij : j = i
    · subst hij
      simp
      omega
    · simp [hij]
      omega
  · simp only [promotions, List.countP_nil, List.count_nil]
    omega

/-- A new promotion waits for its `startHeartbeat`, and none but the one whose goroutine runs stops
waiting. -/
theorem heartbeats_step {s s' : State} {a : Action}
    (hme : ∀ i (rf : Server), s.servers[i]? = some rf → rf.me = i) (h : s.step a = some s')
    (i : ℕ) : (∀ rf', s'.servers[i]? = some rf' → rf'.abortHeartbeat ≠ none) ∨
      promotions s'.log i + pendingHeartbeats s i ≤
        promotions s.log i + pendingHeartbeats s' i := by
  -- a goroutine that is not about to start a heartbeat loop of `i` moves on
  have moves : ∀ {g : ℕ} {go : Goroutine} (go' : Goroutine), s.gos[g]? = some go →
      go ≠ ⟨i, .heartbeatStart⟩ →
      pendingHeartbeats s i ≤ (s.gos.set g go').count ⟨i, .heartbeatStart⟩ :=
    fun go' hg hne => count_le_count_set hg hne
  cases State.step_cases h with
  | elect hrf ht =>
      right
      unfold State.makeCandidate
      dsimp only
      split_ifs <;> simp [promotions, pendingHeartbeats]
  | request hrf ht =>
      right
      simp [State.requestVotes, promotions, pendingHeartbeats]
  | voteStart hg hrf => exact Or.inr (Nat.add_le_add_left (moves _ hg (by simp)) _)
  | voteAbort hg hrf hc => exact Or.inr (Nat.add_le_add_left (moves _ hg (by simp)) _)
  | voteSend hg hrf hc =>
      exact Or.inr (Nat.add_le_add (by simp [promotions]) (moves _ hg (by simp)))
  | @heartbeatStart g j rf hg hrf =>
      by_cases hij : j = i
      · subst hij
        left
        intro rf' hi
        rcases getElem?_set_cases hi with ⟨-, rfl⟩ | ⟨hne, -⟩
        · exact Option.some_ne_none _
        · exact absurd rfl hne
      · exact Or.inr (Nat.add_le_add (by simp [promotions]) (moves _ hg (by simp [hij])))
  | heartbeatAbort hg hrf hc => exact Or.inr (Nat.add_le_add_left (moves _ hg (by simp)) _)
  | heartbeat hg hrf hc =>
      right
      simp [promotions, pendingHeartbeats]
  | beatStart hg hrf => exact Or.inr (Nat.add_le_add_left (moves _ hg (by simp)) _)
  | beatSend hg => exact Or.inr (Nat.add_le_add (by simp [promotions]) (moves _ hg (by simp)))
  | deliver hq hrf =>
      right
      unfold State.deliver
      split
      · dsimp only
        split_ifs <;> simp [promotions, pendingHeartbeats]
      · simp [promotions, pendingHeartbeats]
  | voteReply hg hrf hp =>
      have hrf := hme _ _ (State.getElem?_of_alive hrf)
      exact Or.inr (heartbeats_handleRequestVote hrf (moves _ hg (by simp)))
  | beatReply hg hrf hp =>
      exact Or.inr (Nat.add_le_add (by simp [State.handleAppendEntries, promotions])
        (moves _ hg (by simp)))
  | voteFailed hg => exact Or.inr (Nat.add_le_add_left (moves _ hg (by simp)) _)
  | beatFailed hg => exact Or.inr (Nat.add_le_add_left (moves _ hg (by simp)) _)
  | _ => exact Or.inr le_rfl

/-! ### Abort functions that are set -/

/-- As long as an abort function of the server `i` is nil, every role that should set it waits for
its loop. -/
structure Slots (s : State) (i : ℕ) (rf : Server) : Prop where
  election : rf.abortElection = none → candidacies s.log i ≤ pendingElections s i
  heartbeat : rf.abortHeartbeat = none → promotions s.log i ≤ pendingHeartbeats s i

theorem Section.abortElection_eq_none {now : ℤ} {rf rf' : Server} {es : List Event}
    (h : Section now rf rf' es) (hn : rf'.abortElection = none) : rf.abortElection = none := by
  cases h with
  | stand h => rcases h with rfl | ⟨f, rfl⟩ <;> simpa using hn
  | newElection => cases hn
  | _ => simpa [Server.newContext] using hn

theorem Section.abortHeartbeat_eq_none {now : ℤ} {rf rf' : Server} {es : List Event}
    (h : Section now rf rf' es) (hn : rf'.abortHeartbeat = none) : rf.abortHeartbeat = none := by
  cases h with
  | stand h => rcases h with rfl | ⟨f, rfl⟩ <;> simpa using hn
  | newHeartbeat => cases hn
  | _ => simpa [Server.newContext] using hn

theorem reachable_slots {n : ℕ} {C : State → Action → Prop} {s : State}
    (h : (system n).ReachableBy C s) : ∀ i rf, s.servers[i]? = some rf → Slots s i rf := by
  refine h.invariant (I := fun s => ∀ i rf, s.servers[i]? = some rf → Slots s i rf) ?_ ?_
  · intro i rf _
    constructor <;> intro _ <;> exact Nat.zero_le _
  · intro s a s' hr ih _ hstep i rf' hi
    have hme := reachable_me hr
    obtain ⟨es, -, hcase⟩ := (State.step_cases hstep).effect.frame hme hi
    constructor
    · intro hn
      have hold : candidacies s.log i ≤ pendingElections s i := by
        rcases hcase with ⟨hi, -⟩ | ⟨rf, hrf, hsec, -⟩
        · exact (ih i rf' hi).election hn
        · exact (ih i rf hrf).election (hsec.abortElection_eq_none hn)
      rcases elections_step hme hstep i with hset | hle
      · exact absurd hn (hset rf' hi)
      · omega
    · intro hn
      have hold : promotions s.log i ≤ pendingHeartbeats s i := by
        rcases hcase with ⟨hi, -⟩ | ⟨rf, hrf, hsec, -⟩
        · exact (ih i rf' hi).heartbeat hn
        · exact (ih i rf hrf).heartbeat (hsec.abortHeartbeat_eq_none hn)
      rcases heartbeats_step hme hstep i with hset | hle
      · exact absurd hn (hset rf' hi)
      · omega

/-! ### Runs without a nil call -/

/-- One of the loops of the role has started before: fewer of them are still to start than the
server has taken the role. -/
def LoopStarted (s : State) (i : ℕ) : Role → Prop
  | .follower => True
  | .candidate => pendingElections s i < candidacies s.log i
  | .leader => pendingHeartbeats s i < promotions s.log i

instance (s : State) (i : ℕ) : (role : Role) → Decidable (LoopStarted s i role)
  | .follower => isTrue trivial
  | .candidate => inferInstanceAs (Decidable (pendingElections s i < candidacies s.log i))
  | .leader => inferInstanceAs (Decidable (pendingHeartbeats s i < promotions s.log i))

/-- The handler of the message calls `makeFollower`. -/
def Server.MakesFollower (rf : Server) : Incoming → Prop
  | .request (.requestVote _) => False
  | .request (.appendEntries args) => rf.currentTerm ≤ args.term
  | .reply (.requestVote reply) => rf.currentTerm < reply.term
  | .reply (.appendEntries reply) => rf.currentTerm < reply.term

instance (rf : Server) : (m : Incoming) → Decidable (rf.MakesFollower m)
  | .request (.requestVote _) => isFalse id
  | .request (.appendEntries args) => inferInstanceAs (Decidable (rf.currentTerm ≤ args.term))
  | .reply (.requestVote reply) => inferInstanceAs (Decidable (rf.currentTerm < reply.term))
  | .reply (.appendEntries reply) => inferInstanceAs (Decidable (rf.currentTerm < reply.term))

/-- A server leaves its role, by a message or as a leader that stands again, only after one of the
loops of the role has started. -/
def AbortsStarted (s : State) : Action → Prop
  | .elect i => ∀ rf ∈ s.servers[i]?, rf.role = .leader → LoopStarted s i .leader
  | .deliver k => ∀ q ∈ s.requests[k]?, ∀ rf ∈ s.servers[q.dest]?,
      rf.MakesFollower (.request q.msg) → LoopStarted s q.dest rf.role
  | .callTrue g k => ∀ go ∈ s.gos[g]?, ∀ p ∈ s.replies[k]?, ∀ rf ∈ s.servers[go.server]?,
      rf.MakesFollower (.reply p.reply) → LoopStarted s go.server rf.role
  | _ => True

instance (s : State) : (a : Action) → Decidable (AbortsStarted s a)
  | .elect i => inferInstanceAs (Decidable (∀ rf ∈ s.servers[i]?, rf.role = .leader →
      LoopStarted s i .leader))
  | .deliver k => inferInstanceAs (Decidable (∀ q ∈ s.requests[k]?, ∀ rf ∈ s.servers[q.dest]?,
      rf.MakesFollower (.request q.msg) → LoopStarted s q.dest rf.role))
  | .callTrue g k => inferInstanceAs (Decidable (∀ go ∈ s.gos[g]?, ∀ p ∈ s.replies[k]?,
      ∀ rf ∈ s.servers[go.server]?, rf.MakesFollower (.reply p.reply) →
        LoopStarted s go.server rf.role))
  | .clock _ | .timeout _ _ | .request _ | .run _ | .lose _ | .callFalse _ => isTrue trivial

/-- A role one of whose loops has started can be left. -/
theorem Slots.canAbort {s : State} {i : ℕ} {rf : Server} (h : Slots s i rf)
    (hs : LoopStarted s i rf.role) : rf.CanAbort := by
  unfold Server.CanAbort
  cases hr : rf.role with
  | follower => trivial
  | candidate =>
      rw [hr] at hs
      intro hn
      exact absurd (h.election hn) (Nat.not_le.mpr hs)
  | leader =>
      rw [hr] at hs
      intro hn
      exact absurd (h.heartbeat hn) (Nat.not_le.mpr hs)

namespace Server

variable {rf : Server} (now : ℤ)

theorem makeCandidate_not_panicked (hrf : rf.panicked = false)
    (h : rf.role = .leader → rf.CanAbort) : (rf.makeCandidate now).panicked = false := by
  unfold makeCandidate
  by_cases hr : rf.role = .leader
  · have hset := h hr
    unfold CanAbort at hset
    rw [hr] at hset
    obtain ⟨ctx, hctx⟩ := Option.ne_none_iff_exists'.mp hset
    simp [hr, hctx, call, hrf]
  · simp [hr, hrf]

theorem handle_not_panicked (hrf : rf.panicked = false) {m : Incoming}
    (h : rf.MakesFollower m → rf.CanAbort) : (rf.handle now m).panicked = false := by
  cases m with
  | request msg =>
      cases msg with
      | requestVote args =>
          simp only [handle, requestVote]
          split_ifs <;> exact hrf
      | appendEntries args =>
          simp only [handle, appendEntries]
          split_ifs with hlt hp
          · exact hrf
          · have := (makeFollower_panicked_iff hrf rf.currentTerm).mpr (h (Nat.not_lt.mp hlt))
            cases this.symm.trans hp
          · exact Bool.eq_false_of_not_eq_true hp
  | reply r =>
      cases r with
      | requestVote reply =>
          simp only [handle, handleRequestVote]
          split_ifs with hlt
          · exact (makeFollower_panicked_iff hrf _).mpr (h hlt)
          · simpa using hrf
          · exact hrf
          · exact hrf
      | appendEntries reply =>
          simp only [handle, handleAppendEntries]
          split_ifs with hlt
          · exact (makeFollower_panicked_iff hrf _).mpr (h hlt)
          · exact hrf

end Server

/-- In every run in which a server leaves a role only after one of the loops of the role has
started, no server ever calls an abort function that is nil. -/
theorem abort_functions_set {n : ℕ} {s : State} (h : (system n).ReachableBy AbortsStarted s) :
    ∀ (i : ℕ) (rf : Server), s.servers[i]? = some rf → rf.panicked = false := by
  refine h.invariant
    (I := fun s => ∀ (i : ℕ) (rf : Server), s.servers[i]? = some rf → rf.panicked = false) ?_ ?_
  · intro i rf hi
    rw [init_server hi]
    rfl
  · intro s a s' hr ih hc hstep i rf' hi
    rcases (State.step_cases hstep).ran hi with hsame | ⟨rf, hrf, hran⟩
    · exact ih i rf' hsame
    have hp := State.not_panicked_of_alive hrf
    have hrf := State.getElem?_of_alive hrf
    have hslots := reachable_slots hr i rf hrf
    cases hran with
    | elect =>
        refine Server.makeCandidate_not_panicked s.now hp ?_
        intro hl
        exact hslots.canAbort (hl ▸ hc rf hrf hl)
    | request => exact hp
    | heartbeatStart hg => exact hp
    | requestVote hq =>
        exact Server.handle_not_panicked s.now hp (m := .request (.requestVote _)) False.elim
    | @appendEntries k call args hq =>
        refine Server.handle_not_panicked s.now hp (m := .request (.appendEntries args)) ?_
        intro hm
        exact hslots.canAbort (hc _ hq rf hrf hm)
    | @voteReply g k ctx peer call args reply hg hq =>
        refine Server.handle_not_panicked s.now hp (m := .reply (.requestVote reply)) ?_
        intro hm
        exact hslots.canAbort (hc _ hg _ hq rf hrf hm)
    | @beatReply g k call reply hg hq =>
        refine Server.handle_not_panicked s.now hp (m := .reply (.appendEntries reply)) ?_
        intro hm
        exact hslots.canAbort (hc _ hg _ hq rf hrf hm)

/-- A candidate that has asked for votes steps down on a reply of a newer term. -/
theorem abort_functions_set_reply : ∃ s rf, (system 3).ReachableBy AbortsStarted s ∧
    s.servers[0]? = some rf ∧ rf.role = .follower ∧ candidacies s.log 0 = 1 ∧
      rf.panicked = false := by
  obtain ⟨s, hr, hs⟩ := Lts.exists_of_exec (L := system 3) (C := AbortsStarted)
    (p := fun s => decide (s.servers[0]?.map Server.role = some .follower ∧
      candidacies s.log 0 = 1)) staleVoteRun (by decide)
  obtain ⟨hrf, hcand⟩ := of_decide_eq_true hs
  obtain ⟨rf, hrf, hrole⟩ := Option.map_eq_some_iff.mp hrf
  exact ⟨s, rf, hr, hrf, hrole, hcand, abort_functions_set hr 0 rf hrf⟩

/-- The server `2` stands in term `1` and handles a heartbeat of that term before its
`requestVotes`. -/
def earlyHeartbeatRun : List Action :=
  electionRun ++ [.run 2, .run 2, .run 4, .run 4, .timeout 2 0, .elect 2, .deliver 0]

/-- The server `2` stands in terms `1` and `2`.  The server `0` wins term `1` and handles a reply of
term `2` before its `startHeartbeat`. -/
def earlyReplyRun : List Action :=
  [.clock 2000, .timeout 2 0, .elect 2, .request 2, .clock 4000, .timeout 2 0, .elect 2, .request 2,
    .timeout 0 0, .elect 0, .request 0, .run 4, .run 4, .run 5, .run 5, .deliver 0, .deliver 0,
    .callTrue 4 0, .callTrue 5 1]

/-- Both calls are calls of nil. -/
theorem abort_called_before_set :
    (∃ s rf, (system 3).Reachable s ∧ s.servers[2]? = some rf ∧ rf.panicked = true ∧
      Event.candidacy 2 1 ∈ s.log) ∧
    ∃ s rf, (system 3).Reachable s ∧ s.servers[0]? = some rf ∧ rf.panicked = true ∧
      Event.promoted 0 1 ∈ s.log := by
  constructor
  · obtain ⟨s, hr, hs⟩ := Lts.exists_of_exec (L := system 3) (C := fun _ _ => True)
      (p := fun s => decide (s.servers[2]?.map Server.panicked = some true ∧
        Event.candidacy 2 1 ∈ s.log)) earlyHeartbeatRun (by decide)
    obtain ⟨hrf, hlog⟩ := of_decide_eq_true hs
    obtain ⟨rf, hrf, hp⟩ := Option.map_eq_some_iff.mp hrf
    exact ⟨s, rf, hr, hrf, hp, hlog⟩
  · obtain ⟨s, hr, hs⟩ := Lts.exists_of_exec (L := system 3) (C := fun _ _ => True)
      (p := fun s => decide (s.servers[0]?.map Server.panicked = some true ∧
        Event.promoted 0 1 ∈ s.log)) earlyReplyRun (by decide)
    obtain ⟨hrf, hlog⟩ := of_decide_eq_true hs
    obtain ⟨rf, hrf, hp⟩ := Option.map_eq_some_iff.mp hrf
    exact ⟨s, rf, hr, hrf, hp, hlog⟩

end DistributedSystems.Raft
