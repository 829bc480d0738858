import DistributedSystems.RaftCluster

/-! # Votes of the cluster

What a step of the cluster does to the servers and to the log (`Effect`): nothing, a message sent,
or one section of one server's code.  Every server is a voter, so the votes it casts over a whole
run, by granting a `RequestVote` or by standing as a candidate, are at most one in every term
(`one_vote_per_term`), and its term never goes back (`terms_never_decrease`). -/

namespace DistributedSystems.Raft

/-! ### The effect of a step -/

/-- Where a recorded event comes from: a grant from the delivery of a request, a promotion from a
reply. -/
def Origin (s : State) (a : Action) (i : ℕ) (rf : Server) : Event → Prop
  | .grant _ t c => ∃ k q, a = .deliver k ∧ s.requests[k]? = some q ∧ q.dest = i ∧
      q.msg = .requestVote ⟨t, c⟩
  | .promoted _ _ => ∃ g k ctx peer args call reply, a = .callTrue g k ∧
      s.gos[g]? = some ⟨i, .voteWait ctx peer args call⟩ ∧
      s.replies[k]? = some ⟨call, .requestVote reply⟩ ∧ (rf.handleRequestVote reply).2 = true
  | _ => True

/-- A goroutine of the state sends the message. -/
inductive Sent (s : State) : Event → Prop
  | vote {i ctx peer : ℕ} {args : RequestVoteArgs} {rf : Server}
      (hg : ⟨i, .voteLoop ctx peer args⟩ ∈ s.gos) (hrf : s.servers[i]? = some rf)
      (hc : rf.cancelled ctx = false) : Sent s (.sentVote i peer args)
  | beat {i peer : ℕ} {args : AppendEntriesArgs} (hg : ⟨i, .beatCall peer args⟩ ∈ s.gos) :
      Sent s (.sentBeat i peer args)

/-- What a step does to the servers and to the log. -/
inductive Effect (s : State) (a : Action) (s' : State) : Prop
  | quiet (hs : s'.servers = s.servers) (hl : s'.log = s.log)
  | sent {e : Event} (hs : s'.servers = s.servers) (he : Sent s e) (hl : s'.log = s.log ++ [e])
  | ran {i : ℕ} {rf rf' : Server} {es : List Event} (hrf : s.servers[i]? = some rf)
      (hs : s'.servers = s.servers.set i rf') (hl : s'.log = s.log ++ es)
      (h : Section s.now rf rf' es) (ho : ∀ e ∈ es, Origin s a i rf e)

theorem State.getElem?_of_alive {s : State} {i : ℕ} {rf : Server} (h : s.alive i = some rf) :
    s.servers[i]? = some rf :=
  Option.eq_some_of_filter_eq_some h

theorem State.not_panicked_of_alive {s : State} {i : ℕ} {rf : Server} (h : s.alive i = some rf) :
    rf.panicked = false := by
  simpa using (Option.filter_eq_some_iff.mp h).2

theorem Stepped.effect {s s' : State} {a : Action} (h : Stepped s a s') : Effect s a s' := by
  cases h with
  | clock now => exact .quiet rfl rfl
  | idle i r => exact .quiet rfl rfl
  | timeout hrf h => exact .quiet rfl rfl
  | elect hrf ht =>
      refine .ran (State.getElem?_of_alive hrf) rfl rfl (Server.makeCandidate_section _ _) ?_
      intro e he
      split_ifs at he
      · cases he
      · rw [List.mem_singleton.mp he]
        trivial
  | request hrf ht =>
      exact .ran (State.getElem?_of_alive hrf) rfl rfl .newElection (by simp)
  | voteStart hg hrf => exact .quiet rfl rfl
  | voteAbort hg hrf hc => exact .quiet rfl rfl
  | voteSend hg hrf hc =>
      exact .sent rfl (.vote (List.mem_of_getElem? hg) (State.getElem?_of_alive hrf) hc) rfl
  | heartbeatStart hg hrf =>
      exact .ran (State.getElem?_of_alive hrf) rfl rfl .newHeartbeat (by simp)
  | heartbeatAbort hg hrf hc => exact .quiet rfl rfl
  | heartbeat hg hrf hc => exact .quiet rfl rfl
  | beatStart hg hrf => exact .quiet rfl rfl
  | beatSend hg => exact .sent rfl (.beat (List.mem_of_getElem? hg)) rfl
  | @deliver k q rf hq hrf =>
      have hrf := State.getElem?_of_alive hrf
      cases hm : q.msg with
      | requestVote args =>
          refine .ran hrf (by simp [State.deliver, hm]) (by simp [State.deliver, hm])
            (Server.requestVote_section _ _ args) ?_
          intro e he
          split_ifs at he
          · rw [List.mem_singleton.mp he]
            exact ⟨k, q, rfl, hq, rfl, hm⟩
          · cases he
      | appendEntries args =>
          exact .ran hrf (by simp [State.deliver, hm]) (by simp [State.deliver, hm])
            (Server.appendEntries_section _ _ args) (by simp)
  | lose k => exact .quiet rfl rfl
  | @voteReply g i ctx peer call k args reply rf hg hrf hp =>
      refine .ran (State.getElem?_of_alive hrf) rfl rfl
        (Server.handleRequestVote_section _ _ reply) ?_
      intro e he
      split_ifs at he with hprom
      · rw [List.mem_singleton.mp he]
        exact ⟨g, k, ctx, peer, args, call, reply, rfl, hg, hp, hprom⟩
      · cases he
  | beatReply hg hrf hp =>
      exact .ran (State.getElem?_of_alive hrf) rfl (by simp [State.handleAppendEntries])
        (Server.handleAppendEntries_section _ _ _) (by simp)
  | voteFailed hg => exact .quiet rfl rfl
  | beatFailed hg => exact .quiet rfl rfl

theorem Effect.length_servers {s s' : State} {a : Action} (h : Effect s a s') :
    s'.servers.length = s.servers.length := by
  cases h with
  | quiet hs hl => rw [hs]
  | sent hs he hl => rw [hs]
  | ran hrf hs hl h ho => rw [hs, List.length_set]

theorem reachable_length {n : ℕ} {C : State → Action → Prop} {s : State}
    (h : (system n).ReachableBy C s) : s.servers.length = n := by
  refine h.invariant (I := fun s => s.servers.length = n) (by simp [system, State.init]) ?_
  intro s a s' _ hs _ hstep
  rw [(State.step_cases hstep).effect.length_servers, hs]

theorem init_server {n i : ℕ} {rf : Server} (h : (system n).init.servers[i]? = some rf) :
    rf = Server.make n i 0 := by
  simp only [system, State.init, List.getElem?_map, Option.map_eq_some_iff] at h
  obtain ⟨j, hj, rfl⟩ := h
  obtain ⟨hlt, rfl⟩ := List.getElem?_eq_some_iff.mp hj
  simp

/-! ### Invariants of one server -/

/-- The server whose own state an event is about. -/
def Event.actor : Event → Option ℕ
  | .candidacy i _ => some i
  | .grant i _ _ => some i
  | .promoted i _ => some i
  | .sentVote _ _ _ => none
  | .sentBeat _ _ _ => none

theorem Section.actor {now : ℤ} {rf rf' : Server} {es : List Event} (h : Section now rf rf' es) :
    ∀ e ∈ es, e.actor = some rf.me := by
  cases h <;> simp [Event.actor]

theorem Sent.actor {s : State} {e : Event} (h : Sent s e) : e.actor = none := by
  cases h <;> rfl

/-- The log grows by events of other servers, or by those of a section of the server `i`. -/
theorem Effect.frame {s s' : State} {a : Action} (h : Effect s a s')
    (hme : ∀ i (rf : Server), s.servers[i]? = some rf → rf.me = i) {i : ℕ} {rf' : Server}
    (hi : s'.servers[i]? = some rf') : ∃ es, s'.log = s.log ++ es ∧
      ((s.servers[i]? = some rf' ∧ ∀ e ∈ es, e.actor ≠ some i) ∨
        ∃ rf, s.servers[i]? = some rf ∧ Section s.now rf rf' es ∧
          ∀ e ∈ es, Origin s a i rf e) := by
  cases h with
  | quiet hs hl => exact ⟨[], by simpa using hl, Or.inl ⟨hs ▸ hi, by simp⟩⟩
  | @sent e hs he hl =>
      refine ⟨[e], hl, Or.inl ⟨hs ▸ hi, ?_⟩⟩
      intro x hx
      rw [List.mem_singleton.mp hx, he.actor]
      simp
  | @ran j rf rf₁ es hrf hs hl h ho =>
      refine ⟨es, hl, ?_⟩
      rw [hs] at hi
      rcases getElem?_set_cases hi with ⟨rfl, rfl⟩ | ⟨hij, hi⟩
      · exact Or.inr ⟨rf, hrf, h, ho⟩
      · refine Or.inl ⟨hi, ?_⟩
        intro e he hact
        rw [h.actor e he, hme j rf hrf] at hact
        exact hij (Option.some.inj hact).symm

theorem reachable_me {n : ℕ} {C : State → Action → Prop} {s : State}
    (h : (system n).ReachableBy C s) : ∀ i (rf : Server), s.servers[i]? = some rf → rf.me = i := by
  refine h.invariant (I := fun s => ∀ i (rf : Server), s.servers[i]? = some rf → rf.me = i) ?_ ?_
  · intro i rf hi
    rw [init_server hi]
    rfl
  · intro s a s' _ ih _ hstep i rf' hi
    obtain ⟨es, -, ⟨hi, -⟩ | ⟨rf, hrf, hsec, -⟩⟩ := (State.step_cases hstep).effect.frame ih hi
    · exact ih i rf' hi
    · rw [hsec.me]
      exact ih i rf hrf

/-- **Invariants of one server**: a property of a server and of the log that holds of a new
server, that the events of other servers keep, and that every section of the server's code keeps.
-/
theorem reachable_server {n : ℕ} {C : State → Action → Prop}
    {P : ℕ → Server → List Event → Prop} (hinit : ∀ i, P i (Server.make n i 0) [])
    (hframe : ∀ i rf log es, P i rf log → (∀ e ∈ es, e.actor ≠ some i) → P i rf (log ++ es))
    (hsection : ∀ s a i rf rf' es, (system n).ReachableBy C s → C s a → s.servers[i]? = some rf →
      rf.me = i → P i rf s.log → Section s.now rf rf' es → (∀ e ∈ es, Origin s a i rf e) →
      P i rf' (s.log ++ es)) {s : State} (h : (system n).ReachableBy C s) :
    ∀ i rf, s.servers[i]? = some rf → P i rf s.log := by
  refine h.invariant (I := fun s => ∀ i rf, s.servers[i]? = some rf → P i rf s.log) ?_ ?_
  · intro i rf hi
    rw [init_server hi]
    exact hinit i
  · intro s a s' hr ih hc hstep i rf' hi
    have hme := reachable_me hr
    obtain ⟨es, hl, ⟨hi, hact⟩ | ⟨rf, hrf, hsec, ho⟩⟩ :=
      (State.step_cases hstep).effect.frame hme hi
    · rw [hl]
      exact hframe i rf' s.log es (ih i rf' hi) hact
    · rw [hl]
      exact hsection s a i rf rf' es hr hc hrf (hme i rf hrf) (ih i rf hrf) hsec ho

/-- The servers of a later state of a run, as voters. -/
theorem later_of_reachesBy {n : ℕ} {C : State → Action → Prop} {s t : State}
    (h : (system n).ReachableBy C s) (ht : (system n).ReachesBy C s t) :
    ∀ (i : ℕ) (rf rf' : Server), s.servers[i]? = some rf → t.servers[i]? = some rf' →
      rf.voter.Later rf'.voter := by
  induction ht with
  | refl =>
      intro i rf rf' hi hi'
      obtain rfl := Option.some.inj (hi.symm.trans hi')
      exact .refl _
  | step hr hc hstep ih =>
      intro i rf rf' hi hi'
      obtain ⟨es, -, ⟨hi', -⟩ | ⟨rf₁, hrf₁, hsec, -⟩⟩ :=
        (State.step_cases hstep).effect.frame (reachable_me (h.trans hr)) hi'
      · exact ih i rf rf' hi hi'
      · obtain ⟨o, hvote, -⟩ := hsec.voter
        exact (ih i rf rf₁ hi hrf₁).trans hvote.later

/-- Only the servers of the cluster act. -/
theorem reachable_actor {n : ℕ} {C : State → Action → Prop} {s : State}
    (h : (system n).ReachableBy C s) : ∀ e ∈ s.log, ∀ i, e.actor = some i → i < n := by
  refine h.invariant (I := fun s => ∀ e ∈ s.log, ∀ i, e.actor = some i → i < n)
    (by simp [system, State.init]) ?_
  intro s a s' hr ih _ hstep e he i hact
  cases (State.step_cases hstep).effect with
  | quiet hs hl => exact ih e (hl ▸ he) i hact
  | sent hs hsent hl =>
      rw [hl, List.mem_append, List.mem_singleton] at he
      rcases he with he | rfl
      · exact ih e he i hact
      · cases hsent.actor.symm.trans hact
  | @ran j rf rf' es hrf hs hl hsec ho =>
      rw [hl, List.mem_append] at he
      rcases he with he | he
      · exact ih e he i hact
      · rw [hsec.actor e he, reachable_me hr j rf hrf, Option.some.injEq] at hact
        rw [← hact, ← reachable_length hr]
        exact (List.getElem?_eq_some_iff.mp hrf).1

/-! ### The votes in the log -/

/-- The server `i` voted for `c` in the term `t`. -/
def Voted (log : List Event) (i t c : ℕ) : Prop := (i, t, c) ∈ log.filterMap Event.vote?

instance (log : List Event) (i t c : ℕ) : Decidable (Voted log i t c) :=
  inferInstanceAs (Decidable (_ ∈ _))

theorem voted_append {log es : List Event} {i t c : ℕ} :
    Voted (log ++ es) i t c ↔ Voted log i t c ∨ (i, t, c) ∈ es.filterMap Event.vote? := by
  rw [Voted, List.filterMap_append, List.mem_append, Voted]

theorem Voted.mono {log log' : List Event} (h : ∀ e ∈ log, e ∈ log') {i t c : ℕ}
    (hv : Voted log i t c) : Voted log' i t c := by
  obtain ⟨e, he, hev⟩ := List.mem_filterMap.mp hv
  exact List.mem_filterMap.mpr ⟨e, h e he, hev⟩

theorem voted_of_grant {log : List Event} {i t c : ℕ} (h : Event.grant i t c ∈ log) :
    Voted log i t c :=
  List.mem_filterMap.mpr ⟨_, h, rfl⟩

theorem voted_of_candidacy {log : List Event} {i t : ℕ} (h : Event.candidacy i t ∈ log) :
    Voted log i t i :=
  List.mem_filterMap.mpr ⟨_, h, rfl⟩

theorem actor_of_vote {e : Event} {i t c : ℕ} (h : e.vote? = some (i, t, c)) :
    e.actor = some i := by
  cases e <;> simp_all [Event.vote?, Event.actor]

/-- Every server remembers the votes it has cast. -/
theorem reachable_records {n : ℕ} {C : State → Action → Prop} {s : State}
    (h : (system n).ReachableBy C s) :
    ∀ i (rf : Server), s.servers[i]? = some rf → rf.voter.Records (Voted s.log i) := by
  refine reachable_server (P := fun i rf log => rf.voter.Records (Voted log i)) ?_ ?_ ?_ h
  · intro i
    exact ⟨by simp [Voted], by simp [Voted], by simp [Voted]⟩
  · intro i rf log es hP hes
    have hsame : Voted (log ++ es) i = Voted log i := by
      funext t c
      refine propext (voted_append.trans (or_iff_left ?_))
      intro hv
      obtain ⟨e, he, hev⟩ := List.mem_filterMap.mp hv
      exact hes e he (actor_of_vote hev)
    rwa [hsame]
  · intro s a i rf rf' es _ _ hrf hme hP hsec _
    obtain ⟨o, hstep, hes⟩ := hsec.voter
    refine hP.step hstep ?_
    intro t c
    rw [voted_append, hes, Option.mem_toList, Option.map_eq_some_iff]
    refine or_congr_right ⟨?_, ?_⟩
    · rintro ⟨d, ho, he⟩
      simp only [Prod.mk.injEq] at he
      obtain ⟨-, rfl, rfl⟩ := he
      exact ⟨rfl, ho⟩
    · rintro ⟨rfl, ho⟩
      exact ⟨c, ho, by rw [hme]; rfl⟩

theorem Voted.lt {n : ℕ} {C : State → Action → Prop} {s : State} (h : (system n).ReachableBy C s)
    {i t c : ℕ} (hv : Voted s.log i t c) : i < n := by
  obtain ⟨e, he, hev⟩ := List.mem_filterMap.mp hv
  exact reachable_actor h e he i (actor_of_vote hev)

/-- A server votes for at most one candidate in a term. -/
theorem voted_unique {n : ℕ} {C : State → Action → Prop} {s : State}
    (h : (system n).ReachableBy C s) {i t c c' : ℕ} (hv : Voted s.log i t c)
    (hv' : Voted s.log i t c') : c = c' := by
  have hi : i < s.servers.length := by
    rw [reachable_length h]
    exact hv.lt h
  exact (reachable_records h i _ (List.getElem?_eq_getElem hi)).unique t c c' hv hv'

/-! ### One vote per term -/

/-- All `RequestVote` calls of a term that a server has granted are for the same candidate, and if
the server stood in that term itself, that candidate is the server. -/
theorem one_vote_per_term {n : ℕ} {s : State} (h : (system n).Reachable s) (i t : ℕ) :
    (∀ c c', Event.grant i t c ∈ s.log → Event.grant i t c' ∈ s.log → c = c') ∧
      (Event.candidacy i t ∈ s.log → ∀ c, Event.grant i t c ∈ s.log → c = i) := by
  constructor
  · intro c c' hc hc'
    exact voted_unique h (voted_of_grant hc) (voted_of_grant hc')
  · intro hs c hc
    exact voted_unique h (voted_of_grant hc) (voted_of_candidacy hs)

/-- The server `0` stands in term `1`; its request to `1` is retried and granted twice, and `2`,
which stands in the same term, is refused by `1`. -/
def repeatedRun : List Action :=
  [.clock 2000, .timeout 0 0, .elect 0, .request 0, .run 0, .run 0, .callFalse 0, .run 0,
    .deliver 0, .deliver 0, .timeout 2 0, .elect 2, .request 2, .run 3, .run 3, .deliver 0]

theorem one_vote_per_term_repeated : ∃ s, (system 3).Reachable s ∧
    s.log.count (.grant 1 1 0) = 2 ∧ Event.candidacy 0 1 ∈ s.log ∧ Event.candidacy 2 1 ∈ s.log ∧
    (∀ c, Event.grant 1 1 c ∈ s.log → 0 = c) ∧ ∀ c, Event.grant 2 1 c ∈ s.log → c = 2 := by
  obtain ⟨s, hr, hs⟩ := Lts.exists_of_exec (L := system 3) (C := fun _ _ => True)
    (p := fun s => decide (s.log.count (.grant 1 1 0) = 2 ∧ Event.candidacy 0 1 ∈ s.log ∧
      Event.candidacy 2 1 ∈ s.log)) repeatedRun (by decide)
  obtain ⟨hg, h0, h2⟩ := of_decide_eq_true hs
  have hmem : Event.grant 1 1 0 ∈ s.log := List.count_pos_iff.mp (by omega)
  exact ⟨s, hr, hg, h0, h2, fun c => (one_vote_per_term hr 1 1).1 0 c hmem,
    (one_vote_per_term hr 2 1).2 h2⟩

/-! ### Terms -/

/-- From a state of a run to any later one, no term has gone back, and where the term is the same
so is a vote that was there. -/
theorem terms_never_decrease {n : ℕ} {s t : State} (h : (system n).Reachable s)
    (ht : (system n).ReachesBy (fun _ _ => True) s t) {i : ℕ} {rf rf' : Server}
    (hi : s.servers[i]? = some rf) (hi' : t.servers[i]? = some rf') :
    rf.currentTerm ≤ rf'.currentTerm ∧
      (rf'.currentTerm = rf.currentTerm → rf.votedFor ≠ none → rf'.votedFor = rf.votedFor) := by
  have hlater := later_of_reachesBy h ht i rf rf' hi hi'
  refine ⟨hlater.round_le, ?_⟩
  intro hterm hvote
  exact (hlater.choice hterm).resolve_left hvote

theorem terms_never_decrease_repeated : ∃ s t, ∃ rf rf' : Server, (system 3).Reachable s ∧
    (system 3).ReachesBy (fun _ _ => True) s t ∧ s.servers[1]? = some rf ∧
    t.servers[1]? = some rf' ∧ rf.votedFor = some 0 ∧ rf.currentTerm ≤ rf'.currentTerm ∧
      (rf'.currentTerm = rf.currentTerm → rf.votedFor ≠ none → rf'.votedFor = rf.votedFor) := by
  -- the request of server 0 is granted in the first nine steps, and the rest comes after it
  obtain ⟨s, hr, hs⟩ := Lts.exists_of_exec (L := system 3) (C := fun _ _ => True)
    (p := fun s => decide (s.servers[1]?.map Server.votedFor = some (some 0) ∧
      (((system 3).exec (fun _ _ => True) s (repeatedRun.drop 9)).bind (·.servers[1]?)).isSome))
    (repeatedRun.take 9) (by decide)
  obtain ⟨hv, hlater⟩ := of_decide_eq_true hs
  obtain ⟨rf, hi, hv⟩ := Option.map_eq_some_iff.mp hv
  obtain ⟨rf', hlater⟩ := Option.isSome_iff_exists.mp hlater
  obtain ⟨t, ht, hi'⟩ := Option.bind_eq_some_iff.mp hlater
  have hreach : (system 3).ReachesBy (fun _ _ => True) s t := .of_exec .refl ht
  exact ⟨s, t, rf, rf', hr, hreach, hi, hi', hv, terms_never_decrease hr hreach hi hi'⟩

end DistributedSystems.Raft
