import DistributedSystems.RaftLoops

/-! # Loops that outlive their role

A loop belongs to the candidacy or to the leadership that started it, so what is said of it here is
said of the history of the run: since a vote request was started the server has not stood again, and
since a heartbeat was started it has been leader (`LoopPast`).  With the invariant of the loops this
gives that in orderly runs a server runs the loops of its own role only (`loops_owned`).  Each way
in which a loop can be lost is a run of `loops_orphaned`. -/

namespace DistributedSystems.Raft

open Lts (Recorded)

/-! ### Goroutines over a run -/

/-- A goroutine goes on: it keeps its loop, ends it, or begins the heartbeat. -/
structure Goroutine.Continues (go go' : Goroutine) : Prop where
  server : go'.server = go.server
  loop : ∀ l, go'.task.loop = some l →
    go.task.loop = some l ∨ (go.task.loop = some .start ∧ ∃ ctx, l = .beat ctx)

section

variable {s s' : State} {a : Action}

/-- The goroutines go on, and new ones are put after them. -/
structure Continued (s s' : State) : Prop where
  length : s.gos.length ≤ s'.gos.length
  gos : ∀ (g : ℕ) go', g < s.gos.length → s'.gos[g]? = some go' →
    ∃ go, s.gos[g]? = some go ∧ go.Continues go'

theorem Goroutine.Continues.refl (go : Goroutine) : go.Continues go :=
  ⟨rfl, fun _ hl => Or.inl hl⟩

theorem Goroutine.Continues.ended (i : ℕ) (task : Task) {task' : Task} (h : task'.loop = none) :
    Goroutine.Continues ⟨i, task⟩ ⟨i, task'⟩ := by
  refine ⟨rfl, ?_⟩
  intro l hl
  cases h.symm.trans hl

theorem Continued.of_append {new : List Goroutine} (hgos : s'.gos = s.gos ++ new) :
    Continued s s' := by
  constructor
  · rw [hgos, List.length_append]
    omega
  · intro g go' hg h
    rw [hgos, List.getElem?_append_left hg] at h
    exact ⟨go', h, .refl go'⟩

theorem Continued.of_eq (hgos : s'.gos = s.gos) : Continued s s' :=
  .of_append (hgos.trans (List.append_nil _).symm)

theorem Continued.of_set_append {g₀ : ℕ} {go₀ go₁ : Goroutine} {new : List Goroutine}
    (hgos : s'.gos = s.gos.set g₀ go₁ ++ new) (hg : s.gos[g₀]? = some go₀)
    (hc : go₀.Continues go₁) : Continued s s' := by
  constructor
  · rw [hgos, List.length_append, List.length_set]
    omega
  · intro g go' hlt h
    rw [hgos, List.getElem?_append_left (by rwa [List.length_set])] at h
    rcases getElem?_set_cases h with ⟨rfl, rfl⟩ | ⟨-, h⟩
    · exact ⟨go₀, hg, hc⟩
    · exact ⟨go', h, .refl go'⟩

theorem Continued.of_set {g₀ : ℕ} {go₀ go₁ : Goroutine} (hgos : s'.gos = s.gos.set g₀ go₁)
    (hg : s.gos[g₀]? = some go₀) (hc : go₀.Continues go₁) : Continued s s' :=
  .of_set_append (hgos.trans (List.append_nil _).symm) hg hc

theorem Stepped.continued (h : Stepped s a s') : Continued s s' := by
  cases h with
  | clock now => exact .of_eq rfl
  | idle i r => exact .of_eq rfl
  | timeout hrf ht => exact .of_eq rfl
  | elect hrf ht => exact .of_eq rfl
  | request hrf ht => exact .of_append rfl
  | voteStart hg hrf => exact .of_set rfl hg ⟨rfl, fun _ hl => Or.inl hl⟩
  | voteAbort hg hrf hc => exact .of_set rfl hg (.ended _ _ rfl)
  | voteSend hg hrf hc => exact .of_set rfl hg ⟨rfl, fun _ hl => Or.inl hl⟩
  | heartbeatStart hg hrf =>
      refine .of_set rfl hg ⟨rfl, ?_⟩
      intro l hl
      cases hl
      exact Or.inr ⟨rfl, _, rfl⟩
  | heartbeatAbort hg hrf hc => exact .of_set rfl hg (.ended _ _ rfl)
  | heartbeat hg hrf hc => exact .of_append rfl
  | beatStart hg hrf => exact .of_set rfl hg (.ended _ _ rfl)
  | beatSend hg => exact .of_set rfl hg (.ended _ _ rfl)
  | @deliver k q rf hq hrf =>
      obtain ⟨call, dest, msg⟩ := q
      cases msg <;> exact .of_eq rfl
  | lose k => exact .of_eq rfl
  | voteReply hg hrf hp => exact .of_set_append rfl hg (.ended _ _ rfl)
  | beatReply hg hrf hp => exact .of_set rfl hg (.ended _ _ rfl)
  | voteFailed hg => exact .of_set rfl hg ⟨rfl, fun _ hl => Or.inl hl⟩
  | beatFailed hg => exact .of_set rfl hg (.ended _ _ rfl)

theorem Continued.loop (h : Continued s s') {i g : ℕ} {l : Loop} (hg : g < s.gos.length)
    (hl : s'.loop i g = some l) :
    s.loop i g = some l ∨ (s.loop i g = some .start ∧ ∃ ctx, l = .beat ctx) := by
  obtain ⟨go', hgo', hl⟩ := Option.bind_eq_some_iff.mp hl
  obtain ⟨go, hgo, hc⟩ := h.gos g go' hg hgo'
  unfold Goroutine.loop at hl
  split_ifs at hl with hi
  have hold : s.loop i g = go.task.loop := by
    rw [State.loop, hgo, Option.bind_some, Goroutine.loop, if_pos (hc.server ▸ hi)]
  rw [hold]
  exact hc.loop l hl

/-- A context that is not cancelled was not cancelled before. -/
theorem Stepped.live (h : Stepped s a s') (hme : ∀ i (rf : Server), s.servers[i]? = some rf →
    rf.me = i) {i : ℕ} {rf rf' : Server} (hi : s.servers[i]? = some rf)
    (hi' : s'.servers[i]? = some rf') {ctx : ℕ} (hc : rf'.cancelled ctx = false) :
    rf.cancelled ctx = false := by
  obtain ⟨es, -, ⟨hsame, -⟩ | ⟨rf₀, hrf, hsec, -⟩⟩ := h.effect.frame hme hi'
  · obtain rfl : rf = rf' := Option.some.inj (hi.symm.trans hsame)
    exact hc
  · obtain rfl : rf = rf₀ := Option.some.inj (hi.symm.trans hrf)
    by_contra hne
    cases hc.symm.trans (hsec.cancelled (Bool.eq_true_of_not_eq_false hne))

/-- A server that has not panicked had not panicked before. -/
theorem Stepped.not_panicked (h : Stepped s a s') {i : ℕ} {rf' : Server}
    (hi' : s'.servers[i]? = some rf') (hp : rf'.panicked = false) :
    ∃ rf, s.servers[i]? = some rf ∧ rf.panicked = false := by
  rcases h.ran hi' with hsame | ⟨rf, hrf, -⟩
  · exact ⟨rf', hsame, hp⟩
  · exact ⟨rf, State.getElem?_of_alive hrf, State.not_panicked_of_alive hrf⟩

/-- A request for a vote that goes on went on before. -/
theorem LiveVote.before {i g : ℕ} {rf rf' : Server} (h : LiveVote s' i rf' g)
    (hcont : Continued s s') (hlive : ∀ ctx, rf'.cancelled ctx = false → rf.cancelled ctx = false)
    (hg : g < s.gos.length) : LiveVote s i rf g := by
  obtain ⟨ctx, hl, hc⟩ := liveVote_iff.mp h
  rcases hcont.loop hg hl with hl | ⟨-, _, hbeat⟩
  · exact liveVote_iff.mpr ⟨ctx, hl, hlive ctx hc⟩
  · cases hbeat

/-- A heartbeat that goes on went on before or was about to start. -/
theorem Leading.before {i g : ℕ} {rf rf' : Server} (h : Leading s' i rf' g)
    (hcont : Continued s s') (hlive : ∀ ctx, rf'.cancelled ctx = false → rf.cancelled ctx = false)
    (hg : g < s.gos.length) : Leading s i rf g := by
  rcases h with hl | ⟨ctx, hl, hc⟩
  · rcases hcont.loop hg hl with hl | ⟨hl, -⟩
    · exact Or.inl hl
    · exact Or.inl hl
  · rcases hcont.loop hg hl with hl | ⟨hl, -⟩
    · exact Or.inr ⟨ctx, hl, hlive ctx hc⟩
    · exact Or.inl hl

end

/-- The goroutine had been started when the step was taken. -/
def Started (g : ℕ) (e : State × Action) : Prop := g < e.1.gos.length

instance (g : ℕ) (e : State × Action) : Decidable (Started g e) :=
  inferInstanceAs (Decidable (g < e.1.gos.length))

theorem Started.now {n : ℕ} {C : Recorded State Action → Action → Prop} {x : Recorded State Action}
    (h : (system n).recorded.ReachableBy C x) :
    ∀ g, ∀ e ∈ x.past, Started g e → g < x.now.gos.length := by
  refine h.recorded_invariant
    (I := fun x => ∀ g, ∀ e ∈ x.past, Started g e → g < x.now.gos.length) (by simp) ?_
  intro x a s' _ ih _ hstep g e he hs
  have hlen := (State.step_cases hstep).continued.length
  rcases List.mem_append.mp he with he | he
  · exact (ih g e he hs).trans_le hlen
  · rw [List.mem_singleton.mp he] at hs
    exact hs.trans_le hlen

/-- Since a request for a vote has been started the server has not stood again, and since a
heartbeat has been started it has been leader. -/
structure LoopPast (x : Recorded State Action) (i : ℕ) (rf : Server) : Prop where
  votes : ∀ g, LiveVote x.now i rf g → ∀ e ∈ x.past, Started g e → e.2 ≠ .elect i
  beats : ∀ g, Leading x.now i rf g → ∀ e ∈ x.past, Started g e →
    ∀ rf₀, e.1.servers[i]? = some rf₀ → rf₀.role = .leader

theorem reachable_loopPast {n : ℕ} {x : Recorded State Action}
    (h : (system n).recorded.ReachableBy (fun x a => Orderly x.now a) x) :
    ∀ i rf, x.now.servers[i]? = some rf → rf.panicked = false → LoopPast x i rf := by
  refine h.recorded_invariant (I := fun x => ∀ i rf, x.now.servers[i]? = some rf →
    rf.panicked = false → LoopPast x i rf) ?_ ?_
  · intro i rf _ _
    exact ⟨by simp, by simp⟩
  · intro x a s' hr ih hc hstep i rf' hi' hp'
    have hrun : (system n).ReachableBy Orderly x.now := hr.of_recorded (fun _ _ hc => hc)
    have hst := State.step_cases hstep
    obtain ⟨rf, hi, hp⟩ := hst.not_panicked hi' hp'
    have hlive : ∀ ctx, rf'.cancelled ctx = false → rf.cancelled ctx = false :=
      fun ctx hca => hst.live (reachable_me hrun) hi hi' hca
    constructor
    · intro g hg e he hs
      rcases List.mem_append.mp he with he | he
      · exact (ih i rf hi hp).votes g
          (hg.before hst.continued hlive (Started.now hr g e he hs)) e he hs
      · rw [List.mem_singleton.mp he] at hs ⊢
        rintro rfl
        exact (hc rf hi).1 g hs (hg.before hst.continued hlive hs)
    · intro g hg e he hs rf₀ hrf₀
      rcases List.mem_append.mp he with he | he
      · exact (ih i rf hi hp).beats g
          (hg.before hst.continued hlive (Started.now hr g e he hs)) e he hs rf₀ hrf₀
      · rw [List.mem_singleton.mp he] at hs hrf₀
        obtain rfl : rf = rf₀ := Option.some.inj (hi.symm.trans hrf₀)
        exact (reachable_loopsOk hrun i rf hi hp).leads g (hg.before hst.continued hlive hs)

/-! ### No loop is lost -/

/-- A request for a vote that goes on belongs to the candidacy in which the server is, and a
heartbeat that goes on to its leadership. -/
structure LoopsOwned (x : Recorded State Action) (i : ℕ) (rf : Server) : Prop where
  votes : ∀ g, LiveVote x.now i rf g → Standing x.now i rf ∧
    ∀ e ∈ x.past, Started g e → e.2 ≠ .elect i
  beats : ∀ g, LiveBeat x.now i rf g → rf.role = .leader ∧
    ∀ e ∈ x.past, Started g e → ∀ rf₀, e.1.servers[i]? = some rf₀ → rf₀.role = .leader
  one : ∀ g g', LiveBeat x.now i rf g → LiveBeat x.now i rf g' → g = g'

theorem LiveBeat.leading {s : State} {i g : ℕ} {rf : Server} (h : LiveBeat s i rf g) :
    Leading s i rf g := Or.inr (liveBeat_iff.mp h)

/-- In every run in which each role is left by way of its abort function, a server that has not
panicked runs the loops of its own role only. -/
theorem loops_owned {n : ℕ} {x : Recorded State Action}
    (h : (system n).recorded.ReachableBy (fun x a => Orderly x.now a) x) {i : ℕ} {rf : Server}
    (hi : x.now.servers[i]? = some rf) (hp : rf.panicked = false) : LoopsOwned x i rf := by
  have hinv : LoopInv x.now i rf := reachable_loopsOk (h.of_recorded (fun _ _ hc => hc)) i rf hi hp
  have hpast : LoopPast x i rf := reachable_loopPast h i rf hi hp
  constructor
  · intro g hg
    obtain ⟨ctx, hl, hc⟩ := liveVote_iff.mp hg
    exact ⟨(hinv.votes g ctx hl hc).1, hpast.votes g hg⟩
  · intro g hg
    exact ⟨hinv.leads g hg.leading, hpast.beats g hg.leading⟩
  · intro g g' hg hg'
    exact hinv.one g g' hg.leading hg'.leading

/-- A run after which the test `p` holds of the server `0`. -/
theorem exists_server_of_exec {n : ℕ} {C : Recorded State Action → Action → Prop}
    [∀ x a, Decidable (C x a)] {p : Recorded State Action → Server → Bool} (run : List Action)
    (h : ((system n).recorded.exec C (system n).recorded.init run).any
      (fun x => x.now.servers[0]?.any (p x)) = true) :
    ∃ x rf, (system n).recorded.ReachableBy C x ∧ x.now.servers[0]? = some rf ∧ p x rf = true := by
  obtain ⟨x, hr, hx⟩ := Lts.exists_of_exec run h
  obtain ⟨rf, hi, hp⟩ := (Option.any_eq_true _ _).mp hx
  exact ⟨x, rf, hr, hi, hp⟩

/-- The server `2` stands and refuses its vote, and then the vote of `1` makes `0` leader. -/
def lastVoteRun : List Action :=
  [.clock 2000, .timeout 0 0, .elect 0, .request 0, .timeout 2 0, .elect 2, .run 0, .run 0, .run 1,
    .run 1, .deliver 1, .callTrue 1 0, .deliver 0, .callTrue 0 1, .run 2]

theorem loops_owned_lastVote : ∃ (x : Recorded State Action) (rf : Server),
    (system 3).recorded.ReachableBy (fun x a => Orderly x.now a) x ∧
      x.now.servers[0]? = some rf ∧ rf.panicked = false ∧ LiveBeat x.now 0 rf 2 ∧
      LoopsOwned x 0 rf := by
  obtain ⟨x, rf, hr, hi, hrf⟩ := exists_server_of_exec (n := 3) (C := fun x a => Orderly x.now a)
    (p := fun x rf => decide (rf.panicked = false ∧ LiveBeat x.now 0 rf 2)) lastVoteRun (by decide)
  obtain ⟨hp, hbeat⟩ := of_decide_eq_true hrf
  exact ⟨x, rf, hr, hi, hp, hbeat, loops_owned hr hi hp⟩

/-- The server `0` stands a second time before its requests have been answered. -/
def secondElectionRun : List Action :=
  [.clock 2000, .timeout 0 0, .elect 0, .request 0, .clock 4000, .timeout 0 0, .elect 0]

/-- The servers `0` and `1` stand in term `1`, then `1` stands in term `2` and gets the vote of
`0`. -/
def yieldRun : List Action :=
  [.clock 2000, .timeout 0 0, .elect 0, .request 0, .timeout 1 0, .elect 1, .request 1, .clock 4000,
    .timeout 1 0, .elect 1, .request 1, .run 4, .run 4, .deliver 0]

/-- The server `0` leads in terms `1` and `3`.  It leaves term `3` on a heartbeat's reply before its
`startHeartbeat` has run, so it calls the abort function of term `1`, and starts the heartbeat
afterwards. -/
def lateHeartbeatRun : List Action :=
  [.clock 2000, .timeout 0 0, .elect 0, .request 0, .run 0, .run 0, .deliver 0, .callTrue 0 0,
    .run 1, .run 1, .run 1, .run 2, .run 2, .run 3, .run 3, .clock 4000, .timeout 1 0, .elect 1,
    .deliver 0, .callTrue 2 1, .timeout 0 0, .elect 0, .request 0, .run 4, .run 4, .deliver 1,
    .callTrue 4 2, .request 1, .clock 6000, .timeout 1 0, .elect 1, .deliver 0, .callTrue 3 3,
    .run 5]

/-- A run of `n` servers, none of which has panicked, after which the server `0` has a loop of
another role. -/
structure Orphan (n : ℕ) (x : Recorded State Action) (rf : Server) : Prop where
  run : (system n).recorded.Reachable x
  alive : ∀ rf ∈ x.now.servers, rf.panicked = false
  server : x.now.servers[0]? = some rf
  lost : ¬ LoopsOwned x 0 rf

/-- A leader and a candidate of another term ask for votes of an election that is over, and a
follower sends heartbeats. -/
theorem loops_orphaned :
    (∃ x rf, Orphan 3 x rf ∧ rf.role = .leader ∧ LiveVote x.now 0 rf 1) ∧
    (∃ x rf, Orphan 3 x rf ∧ LiveVote x.now 0 rf 0 ∧
      ∃ e ∈ x.past, Started 0 e ∧ e.2 = .elect 0) ∧
    (∃ x rf, Orphan 3 x rf ∧ LiveVote x.now 0 rf 0 ∧ rf.currentTerm = 2 ∧
      stood x.now.log 0 = [1]) ∧
    ∃ x rf, Orphan 2 x rf ∧ rf.role = .follower ∧ LiveBeat x.now 0 rf 5 := by
  refine ⟨?_, ?_, ?_, ?_⟩
  · obtain ⟨x, rf, hr, hi, hx⟩ := exists_server_of_exec (n := 3) (C := fun _ _ => True)
      (p := fun x rf => decide ((∀ rf ∈ x.now.servers, rf.panicked = false) ∧ rf.role = .leader ∧
        LiveVote x.now 0 rf 1)) electionRun (by decide)
    obtain ⟨halive, hrole, hvote⟩ := of_decide_eq_true hx
    refine ⟨x, rf, ⟨hr, halive, hi, ?_⟩, hrole, hvote⟩
    intro howned
    cases hrole.symm.trans (howned.votes 1 hvote).1.1
  · obtain ⟨x, rf, hr, hi, hx⟩ := exists_server_of_exec (n := 3) (C := fun _ _ => True)
      (p := fun x rf => decide ((∀ rf ∈ x.now.servers, rf.panicked = false) ∧
        LiveVote x.now 0 rf 0 ∧ ∃ e ∈ x.past, Started 0 e ∧ e.2 = .elect 0))
      secondElectionRun (by decide)
    obtain ⟨halive, hvote, e, he, hs, helect⟩ := of_decide_eq_true hx
    refine ⟨x, rf, ⟨hr, halive, hi, ?_⟩, hvote, e, he, hs, helect⟩
    intro howned
    exact (howned.votes 0 hvote).2 e he hs helect
  · obtain ⟨x, rf, hr, hi, hx⟩ := exists_server_of_exec (n := 3) (C := fun _ _ => True)
      (p := fun x rf => decide ((∀ rf ∈ x.now.servers, rf.panicked = false) ∧
        LiveVote x.now 0 rf 0 ∧ rf.currentTerm = 2 ∧ stood x.now.log 0 = [1]))
      yieldRun (by decide)
    obtain ⟨halive, hvote, hterm, hstood⟩ := of_decide_eq_true hx
    refine ⟨x, rf, ⟨hr, halive, hi, ?_⟩, hvote, hterm, hstood⟩
    intro howned
    have hlast := (howned.votes 0 hvote).1.2
    rw [hstood, hterm] at hlast
    cases hlast
  · obtain ⟨x, rf, hr, hi, hx⟩ := exists_server_of_exec (n := 2) (C := fun _ _ => True)
      (p := fun x rf => decide ((∀ rf ∈ x.now.servers, rf.panicked = false) ∧ rf.role = .follower ∧
        LiveBeat x.now 0 rf 5)) lateHeartbeatRun (by decide)
    obtain ⟨halive, hrole, hbeat⟩ := of_decide_eq_true hx
    refine ⟨x, rf, ⟨hr, halive, hi, ?_⟩, hrole, hbeat⟩
    intro howned
    cases hrole.symm.trans (howned.beats 5 hbeat).1

end DistributedSystems.Raft
