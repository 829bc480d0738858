import DistributedSystems.RaftTally

/-! # Election safety

A leader that grants a `RequestVote` of a newer term takes over the term and stays leader, so a
cluster can have two leaders in one term (`two_leaders`).  Also the vote counter is never reset and
counts votes of earlier terms, so a server may be promoted without a majority.

Where no leader is asked for its vote in a newer term, and a candidate counts votes only in the
term of its first candidacy, a leader was promoted in its term with the votes of a majority
(`promoted_hasVotes`); two majorities share a voter, and nobody votes twice in a term
(`voted_unique`), so a term has at most one leader (`election_safety`). -/

namespace DistributedSystems.Raft

/-! ### The condition on a run -/

/-- The server is not a leader that a `RequestVote` takes into a newer term. -/
def KeepsTerm (rf : Server) : Msg → Prop
  | .requestVote args => rf.role = .leader → args.term ≤ rf.currentTerm
  | .appendEntries _ => True

instance (rf : Server) : (m : Msg) → Decidable (KeepsTerm rf m)
  | .requestVote args =>
      inferInstanceAs (Decidable (rf.role = .leader → args.term ≤ rf.currentTerm))
  | .appendEntries _ => isTrue trivial

/-- No leader is taken into a newer term, and a candidate counts votes only in the term of its
first candidacy. -/
def SoundElections (s : State) : Action → Prop
  | .deliver k => ∀ q ∈ s.requests[k]?, ∀ rf ∈ s.servers[q.dest]?, KeepsTerm rf q.msg
  | .callTrue g k => ∀ go ∈ s.gos[g]?, ∀ p ∈ s.replies[k]?, ∀ rf ∈ s.servers[go.server]?,
      CountsOnce s go.server rf p.reply
  | _ => True

instance (s : State) : (a : Action) → Decidable (SoundElections s a)
  | .deliver k => inferInstanceAs
      (Decidable (∀ q ∈ s.requests[k]?, ∀ rf ∈ s.servers[q.dest]?, KeepsTerm rf q.msg))
  | .callTrue g k => inferInstanceAs (Decidable (∀ go ∈ s.gos[g]?, ∀ p ∈ s.replies[k]?,
      ∀ rf ∈ s.servers[go.server]?, CountsOnce s go.server rf p.reply))
  | .clock _ | .timeout _ _ | .elect _ | .request _ | .run _ | .lose _ | .callFalse _ =>
      isTrue trivial

theorem SoundElections.firstTally {s : State} {a : Action} (h : SoundElections s a) :
    FirstTally s a := by
  cases a with
  | callTrue g k => exact h
  | _ => trivial

/-! ### Leaders are promoted, and promotions have votes -/

theorem leader_promoted {n : ℕ} {s : State} (h : (system n).ReachableBy SoundElections s) :
    ∀ i (rf : Server), s.servers[i]? = some rf → rf.role = .leader →
      Event.promoted i rf.currentTerm ∈ s.log := by
  refine reachable_server (P := fun i rf log => rf.role = .leader →
    Event.promoted i rf.currentTerm ∈ log) ?_ ?_ ?_ h
  · intro i hr
    cases hr
  · intro i rf log es hP _ hr
    exact List.mem_append_left _ (hP hr)
  · intro s a i rf rf' es _ hc hrf hme hP hsec ho hr
    subst hme
    rcases hsec.leader hr with hp | ⟨hr, -, ht⟩ | ⟨hr, c, -, hg⟩
    · exact List.mem_append_right _ hp
    · rw [ht]
      exact List.mem_append_left _ (hP hr)
    · obtain ⟨k, q, rfl, hq, hd, hm⟩ := ho _ hg
      have hkeep : KeepsTerm rf q.msg := hc q hq rf (hd ▸ hrf)
      rw [hm] at hkeep
      obtain ⟨o, hstep, -⟩ := hsec.voter
      have hle : rf.currentTerm ≤ rf'.currentTerm := hstep.round_le
      have ht : rf'.currentTerm = rf.currentTerm := le_antisymm (hkeep hr) hle
      rw [ht]
      exact List.mem_append_left _ (hP hr)

theorem promoted_hasVotes {n : ℕ} {s : State} (h : (system n).ReachableBy SoundElections s) :
    ∀ i t, Event.promoted i t ∈ s.log → HasVotes s i t := by
  refine h.invariant (I := fun s => ∀ i t, Event.promoted i t ∈ s.log → HasVotes s i t)
    (by simp [system, State.init]) ?_
  intro s a s' hr ih hc hstep i t hp
  have heff := (State.step_cases hstep).effect
  refine HasVotes.mono heff ?_
  cases heff with
  | quiet hs hl => exact ih i t (hl ▸ hp)
  | sent hs he hl =>
      rw [hl, List.mem_append, List.mem_singleton] at hp
      rcases hp with hp | hp
      · exact ih i t hp
      · subst hp
        cases he
  | @ran j rf rf' es hrf hs hl hsec ho =>
      rw [hl, List.mem_append] at hp
      rcases hp with hp | hp
      · exact ih i t hp
      · obtain ⟨rfl, rfl⟩ := hsec.promoted hp
        rw [reachable_me hr j rf hrf]
        exact hasVotes_of_promoted hr hc.firstTally hrf (ho _ hp)

/-! ### Election safety -/

/-- In every run whose steps take no leader into a newer term and in which a candidate counts votes
only in the term of its first candidacy, `GetState` never reports two leaders for one term. -/
theorem election_safety {n : ℕ} {s : State} (h : (system n).ReachableBy SoundElections s)
    {i j t : ℕ} {rf rf' : Server} (hi : s.servers[i]? = some rf) (hj : s.servers[j]? = some rf')
    (hlead : rf.getState = (t, true)) (hlead' : rf'.getState = (t, true)) : i = j := by
  have votes : ∀ {k : ℕ} {rf : Server}, s.servers[k]? = some rf → rf.getState = (t, true) →
      HasVotes s k t := by
    intro k rf hk hl
    simp only [Server.getState, Prod.mk.injEq, decide_eq_true_eq] at hl
    obtain ⟨rfl, hr⟩ := hl
    exact promoted_hasVotes h k _ (leader_promoted h k rf hk hr)
  refine Elected.unique ?_ (votes hi hlead) (votes hj hlead')
  intro v _ c c' hc hc'
  exact voted_unique h hc hc'

theorem election_safety_election : ∃ s, (system 3).ReachableBy SoundElections s ∧
    s.servers[0]?.map Server.getState = some (1, true) ∧
    ∀ j rf', s.servers[j]? = some rf' → rf'.getState = (1, true) → 0 = j := by
  obtain ⟨s, hr, hs⟩ := Lts.exists_of_exec (L := system 3) (C := SoundElections)
    (p := fun s => decide (s.servers[0]?.map Server.getState = some (1, true))) electionRun
    (by decide)
  have hl := of_decide_eq_true hs
  obtain ⟨rf, hrf, hlead⟩ := Option.map_eq_some_iff.mp hl
  exact ⟨s, hr, hl, fun j rf' hj hlead' => election_safety hr hrf hj hlead hlead'⟩

/-- The server `1` is elected in term `2` with the vote of the old leader, which has followed it
into term `2` and is still leader. -/
theorem two_leaders : ∃ s, (system 3).Reachable s ∧
    s.servers[0]?.map Server.getState = some (2, true) ∧
    s.servers[1]?.map Server.getState = some (2, true) := by
  obtain ⟨s, hr, hs⟩ := Lts.exists_of_exec (L := system 3) (C := fun _ _ => True)
    (p := fun s => decide (s.servers[0]?.map Server.getState = some (2, true) ∧
      s.servers[1]?.map Server.getState = some (2, true))) (newerTermRun ++ [.callTrue 5 1])
    (by decide)
  exact ⟨s, hr, of_decide_eq_true hs⟩

end DistributedSystems.Raft
