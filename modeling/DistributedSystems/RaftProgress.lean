import DistributedSystems.RaftTally

/-! # A leader can always be elected

Nothing that has happened keeps the cluster from electing a leader: from every reachable state in
which more than half of the servers have not panicked, a server among them that is not leader can
become the leader of a term that is newer than all terms there were (`leader_can_be_elected`).  It
stands until its term is the newest, and then asks the others one after the other; none of them can
refuse, and with the last vote of a majority it makes itself leader.

The majority is tested only when a vote is granted.  A server that is alone in its cluster asks
nobody and never becomes leader (`no_leader_alone`). -/

namespace DistributedSystems.Raft

/-- The condition on a step: no call fails, and the clock does not go back. -/
def Benign (s : State) : Action → Prop
  | .clock now => s.now ≤ now
  | .lose _ => False
  | .callFalse _ => False
  | _ => True

/-- The servers that have not panicked. -/
def State.up (s : State) : List ℕ :=
  (List.range s.servers.length).filter (fun j => (s.alive j).isSome)

theorem State.mem_up {s : State} {j : ℕ} : j ∈ s.up ↔ ∃ rf, s.alive j = some rf := by
  unfold State.up
  rw [List.mem_filter, List.mem_range, Option.isSome_iff_exists]
  constructor
  · exact fun h => h.2
  · rintro ⟨rf, h⟩
    exact ⟨(List.getElem?_eq_some_iff.mp (State.getElem?_of_alive h)).1, rf, h⟩

theorem State.nodup_up (s : State) : s.up.Nodup := List.nodup_range.filter _

section alive

variable {s s' : State} {i j : ℕ} {rf rf' : Server}

theorem State.alive_of_getElem? (h : s.servers[i]? = some rf) (hp : rf.panicked = false) :
    s.alive i = some rf := by
  simp [State.alive, h, hp]

/-- Another server has run. -/
theorem State.alive_of_ne (hs : s'.servers = s.servers.set i rf) (h : j ≠ i) :
    s'.alive j = s.alive j := by
  unfold State.alive
  rw [hs, List.getElem?_set_ne h.symm]

theorem State.alive_self (hs : s'.servers = s.servers.set i rf') (h : s.alive i = some rf)
    (hp : rf'.panicked = false) : s'.alive i = some rf' := by
  have hlt := (List.getElem?_eq_some_iff.mp (State.getElem?_of_alive h)).1
  refine State.alive_of_getElem? ?_ hp
  rw [hs, List.getElem?_set_self hlt]

theorem State.alive_congr (hs : s'.servers = s.servers) (j : ℕ) : s'.alive j = s.alive j := by
  unfold State.alive
  rw [hs]

end alive

theorem reachable_tickers {n : ℕ} {C : State → Action → Prop} {s : State}
    (h : (system n).ReachableBy C s) : s.tickers.length = n := by
  refine h.invariant (I := fun s => s.tickers.length = n) (by simp [system, State.init]) ?_
  intro s a s' _ ih _ hstep
  cases State.step_cases hstep with
  | timeout hrf ht => simpa using ih
  | elect hrf ht => simpa [State.makeCandidate] using ih
  | request hrf ht => simpa [State.requestVotes] using ih
  | @deliver k q rf hq hrf =>
      unfold State.deliver
      cases q.msg <;> exact ih
  | voteReply hg hrf hp => simpa [State.handleRequestVote] using ih
  | beatReply hg hrf hp => simpa [State.handleAppendEntries] using ih
  | _ => exact ih

/-! ### Standing for election -/

section stand

variable {n : ℕ} {s t u : State} {i : ℕ} {rf rf' rf'' : Server}

/-- From `s` the server `i` alone has run, and it is not leader. -/
structure Alone (n : ℕ) (s : State) (i : ℕ) (rf : Server) (t : State) (rf' : Server) : Prop where
  reaches : (system n).ReachesBy Benign s t
  servers : t.servers = s.servers.set i rf'
  alive : t.alive i = some rf'
  role : rf'.role ≠ .leader
  term : rf.currentTerm ≤ rf'.currentTerm
  ticker : t.tickers[i]? = some .check

theorem Alone.trans (h : Alone n s i rf t rf') (h' : Alone n t i rf' u rf'') :
    Alone n s i rf u rf'' where
  reaches := h.reaches.trans h'.reaches
  servers := by rw [h'.servers, h.servers, List.set_set]
  alive := h'.alive
  role := h'.role
  term := h.term.trans h'.term
  ticker := h'.ticker

/-- The server `i` has stood and asks all others for their votes with the context `ctx`. -/
structure Asks (s : State) (i : ℕ) (rf : Server) (t : State) (rf' : Server) (ctx : ℕ) : Prop where
  role : rf'.role = .candidate
  term : rf'.currentTerm = rf.currentTerm + 1
  votes : rf'.votes = rf.votes.vote
  open_ctx : rf'.cancelled ctx = false
  gos : t.gos = s.gos ++ (s.peers i).map (fun peer => ⟨i, .voteStart ctx peer⟩)

/-- The server after `requestVotes`. -/
@[simps] def Server.campaign (rf : Server) : Server :=
  { rf with contexts := rf.contexts ++ [false], abortElection := some rf.contexts.length }

/-- `requestVotes` runs. -/
theorem alone_request (hrf : s.alive i = some rf) (hrole : rf.role ≠ .leader)
    (ht : s.tickers[i]? = some .request) :
    Alone n s i rf (s.requestVotes i rf) rf.campaign where
  reaches := by
    refine .single (a := .request i) trivial ?_
    simp [system, State.step, hrf, ht]
  servers := rfl
  alive := by
    have hp := State.not_panicked_of_alive hrf
    exact State.alive_self rfl hrf hp
  role := hrole
  term := le_rfl
  ticker := List.getElem?_set_self (List.getElem?_eq_some_iff.mp ht).1

theorem makeCandidate_of_not_leader (hrole : rf.role ≠ .leader) (hp : rf.panicked = false)
    (now : ℤ) : rf.makeCandidate now =
      { rf with
        role := .candidate
        currentTerm := rf.currentTerm + 1
        votes := rf.votes.vote
        votedFor := some rf.me
        checkpoint := now } := by
  simp [Server.makeCandidate, hrole, hp]

/-- `makeCandidate` runs. -/
theorem exists_asks_of_elect (hrf : s.alive i = some rf) (hrole : rf.role ≠ .leader)
    (ht : s.tickers[i]? = some .elect) :
    ∃ t rf' ctx, Alone n s i rf t rf' ∧ Asks s i rf t rf' ctx := by
  have hp := State.not_panicked_of_alive hrf
  have hcand := makeCandidate_of_not_leader hrole hp s.now
  have hstep : (system n).step s (.elect i) = some (s.makeCandidate i rf) := by
    simp [system, State.step, hrf, ht]
  have hservers : (s.makeCandidate i rf).servers = s.servers.set i (rf.makeCandidate s.now) := rfl
  have halive : (s.makeCandidate i rf).alive i = some (rf.makeCandidate s.now) :=
    State.alive_self hservers hrf (by rw [hcand]; exact hp)
  have hticker : (s.makeCandidate i rf).tickers[i]? = some .request :=
    List.getElem?_set_self (List.getElem?_eq_some_iff.mp ht).1
  have hreq := alone_request (n := n) halive (by rw [hcand]; simp) hticker
  refine ⟨_, _, (rf.makeCandidate s.now).contexts.length, ⟨?_, ?_, hreq.alive, hreq.role, ?_,
    hreq.ticker⟩, ⟨?_, ?_, ?_, ?_, ?_⟩⟩
  · exact (Lts.ReachesBy.single (a := .elect i) trivial hstep).trans hreq.reaches
  · rw [hreq.servers, hservers, List.set_set]
  · simp [hcand]
  · simp [hcand]
  · simp [hcand]
  · simp [hcand]
  · simp [Server.cancelled]
  · simp [State.requestVotes, State.makeCandidate, State.peers, Server.newContext]

/-- The ticker of a server that is not leader starts an election once its checkpoint is old
enough. -/
theorem exists_asks (hrf : s.alive i = some rf) (hrole : rf.role ≠ .leader)
    (ht : s.tickers[i]? = some .check) :
    ∃ t rf' ctx, Alone n s i rf t rf' ∧ Asks s i rf t rf' ctx := by
  let now := max s.now (rf.checkpoint + 1001)
  let s₁ : State := { s with now }
  have hclock : (system n).step s (.clock now) = some s₁ := rfl
  have hforward : Benign s (.clock now) := le_max_left _ _
  have hlate : rf.shouldStartElection s₁.now 0 = true := by
    have : rf.checkpoint + 1001 ≤ now := le_max_right _ _
    simp only [Server.shouldStartElection, s₁, Bool.and_eq_true, decide_eq_true_eq]
    refine ⟨?_, by simpa using hrole⟩
    push_cast
    omega
  have htimeout : (system n).step s₁ (.timeout i 0) = some (s₁.tick i .elect) := by
    have hrf : s₁.alive i = some rf := hrf
    have ht : s₁.tickers[i]? = some .check := ht
    simp [system, State.step, hrf, ht, hlate]
  have hreach : (system n).ReachesBy Benign s (s₁.tick i .elect) :=
    (Lts.ReachesBy.single hforward hclock).step (a := .timeout i 0) trivial htimeout
  have hticker : (s₁.tick i .elect).tickers[i]? = some .elect :=
    List.getElem?_set_self (List.getElem?_eq_some_iff.mp ht).1
  have halive : (s₁.tick i .elect).alive i = some rf := hrf
  obtain ⟨t, rf', ctx, halone, hasks⟩ := exists_asks_of_elect (n := n) halive hrole hticker
  exact ⟨t, rf', ctx, ⟨hreach.trans halone.reaches, halone.servers, halone.alive, halone.role,
    halone.term, halone.ticker⟩, ⟨hasks.role, hasks.term, hasks.votes, hasks.open_ctx, hasks.gos⟩⟩

/-- Wherever the ticker is, it comes back to its test. -/
theorem exists_alone (hrf : s.alive i = some rf) (hrole : rf.role ≠ .leader)
    (hlt : i < s.tickers.length) : ∃ t rf', Alone n s i rf t rf' := by
  cases ht : s.tickers[i] with
  | check =>
      obtain ⟨t, rf', ctx, h, -⟩ := exists_asks (n := n) hrf hrole
        (List.getElem?_eq_some_iff.mpr ⟨hlt, ht⟩)
      exact ⟨t, rf', h⟩
  | elect =>
      obtain ⟨t, rf', ctx, h, -⟩ := exists_asks_of_elect (n := n) hrf hrole
        (List.getElem?_eq_some_iff.mpr ⟨hlt, ht⟩)
      exact ⟨t, rf', h⟩
  | request =>
      exact ⟨_, _, alone_request hrf hrole (List.getElem?_eq_some_iff.mpr ⟨hlt, ht⟩)⟩

/-- The server stands again and again until its term is as new as one likes. -/
theorem exists_newer (hrf : s.alive i = some rf) (hrole : rf.role ≠ .leader)
    (hlt : i < s.tickers.length) (k : ℕ) :
    ∃ t rf', Alone n s i rf t rf' ∧ rf.currentTerm + k ≤ rf'.currentTerm := by
  induction k with
  | zero =>
      obtain ⟨t, rf', h⟩ := exists_alone (n := n) hrf hrole hlt
      exact ⟨t, rf', h, h.term⟩
  | succ k ih =>
      obtain ⟨t, rf', h, hk⟩ := ih
      obtain ⟨u, rf'', ctx, h', hasks⟩ := exists_asks (n := n) h.alive h.role h.ticker
      refine ⟨u, rf'', h.trans h', ?_⟩
      have := hasks.term
      omega

end stand

/-! ### Collecting the votes -/

/-- The server `i` is candidate in the term `term`, and `peers` are still to be asked: they have
not panicked and are in older terms, and with their votes there is a majority. -/
structure Campaign (s : State) (i ctx term : ℕ) (rf : Server) (peers : List ℕ) : Prop where
  alive : s.alive i = some rf
  role : rf.role = .candidate
  term_eq : rf.currentTerm = term
  open_ctx : rf.cancelled ctx = false
  majority : rf.votes.total < 2 * (rf.votes.counter + peers.length)
  nodup : peers.Nodup
  others : ∀ j ∈ peers, j ≠ i ∧ ∃ rfj, s.alive j = some rfj ∧ rfj.currentTerm < term
  gos : ∀ j ∈ peers, ∃ g : ℕ, s.gos[g]? = some ⟨i, .voteStart ctx j⟩

section campaign

variable {n : ℕ} {s : State} {i ctx term j : ℕ} {rf : Server} {peers : List ℕ}

/-- A server in an older term grants its vote. -/
theorem requestVote_of_lt {args : RequestVoteArgs} (h : rf.currentTerm < args.term) (now : ℤ) :
    rf.requestVote args now =
      ({ rf with votedFor := some args.candidateId, currentTerm := args.term, checkpoint := now },
        ⟨0, true⟩) := by
  unfold Server.requestVote
  rw [if_neg (by omega), if_neg (by omega)]

theorem handleRequestVote_granted (hrole : rf.role = .candidate) :
    rf.handleRequestVote ⟨0, true⟩ = if rf.votes.vote.hasMajority = true then
      ({ rf with votes := rf.votes.vote, role := .leader }, true)
    else ({ rf with votes := rf.votes.vote }, false) := by
  simp [Server.handleRequestVote, hrole]

/-- `requestVoteFromServer` reads the term and sends its request. -/
theorem exists_sent {g : ℕ} (hg : s.gos[g]? = some ⟨i, .voteStart ctx j⟩)
    (hrf : s.alive i = some rf) (hc : rf.cancelled ctx = false) :
    ∃ t call, (system n).ReachesBy Benign s t ∧ t.servers = s.servers ∧
      (∃ k : ℕ, t.requests[k]? = some ⟨call, j, .requestVote ⟨rf.currentTerm, rf.me⟩⟩) ∧
      t.gos = s.gos.set g ⟨i, .voteWait ctx j ⟨rf.currentTerm, rf.me⟩ call⟩ := by
  have hlt := (List.getElem?_eq_some_iff.mp hg).1
  have hread : (system n).step s (.run g) =
      some (s.become g ⟨i, .voteLoop ctx j ⟨rf.currentTerm, rf.me⟩⟩) := by
    simp [system, State.step, State.run, hg, hrf]
  obtain ⟨s₁, hs₁⟩ : ∃ s₁, s₁ = s.become g ⟨i, .voteLoop ctx j ⟨rf.currentTerm, rf.me⟩⟩ := ⟨_, rfl⟩
  rw [← hs₁] at hread
  have hg₁ : s₁.gos[g]? = some ⟨i, .voteLoop ctx j ⟨rf.currentTerm, rf.me⟩⟩ := by
    rw [hs₁]
    exact List.getElem?_set_self hlt
  have hrf₁ : s₁.alive i = some rf := by
    rw [hs₁]
    exact hrf
  have hsend : (system n).step s₁ (.run g) =
      some ((s₁.send j (.requestVote ⟨rf.currentTerm, rf.me⟩)
        (.sentVote i j ⟨rf.currentTerm, rf.me⟩)).become g
          ⟨i, .voteWait ctx j ⟨rf.currentTerm, rf.me⟩ s₁.calls⟩) := by
    simp [system, State.step, State.run, hg₁, hrf₁, hc]
  refine ⟨_, s₁.calls, (Lts.ReachesBy.single (a := .run g) trivial hread).step (a := .run g) trivial
    hsend, ?_, ?_, ?_⟩
  · simp [hs₁]
  · exact ⟨s₁.requests.length, by simp⟩
  · simp [hs₁]

/-- A server in an older term gets the request and grants its vote. -/
theorem exists_granted {k call : ℕ} {args : RequestVoteArgs} {rfj : Server}
    (hk : s.requests[k]? = some ⟨call, j, .requestVote args⟩) (hrf : s.alive j = some rfj)
    (hterm : rfj.currentTerm < args.term) :
    ∃ t rfj', (system n).ReachesBy Benign s t ∧ t.servers = s.servers.set j rfj' ∧
      (∃ k : ℕ, t.replies[k]? = some ⟨call, .requestVote ⟨0, true⟩⟩) ∧ t.gos = s.gos := by
  have hstep : (system n).step s (.deliver k) =
      some (s.deliver k ⟨call, j, .requestVote args⟩ rfj) := by
    simp [system, State.step, hk, hrf]
  refine ⟨_, (rfj.requestVote args s.now).1, .single (a := .deliver k) trivial hstep, rfl,
    ⟨s.replies.length, ?_⟩, rfl⟩
  simp [State.deliver, requestVote_of_lt hterm]

/-- The vote is counted. -/
theorem exists_counted {g k call : ℕ} {args : RequestVoteArgs}
    (hg : s.gos[g]? = some ⟨i, .voteWait ctx j args call⟩) (hrf : s.alive i = some rf)
    (hk : s.replies[k]? = some ⟨call, .requestVote ⟨0, true⟩⟩) :
    ∃ t, (system n).ReachesBy Benign s t ∧
      t.servers = s.servers.set i (rf.handleRequestVote ⟨0, true⟩).1 ∧
      ∀ (g' : ℕ) go, g' ≠ g → s.gos[g']? = some go → t.gos[g']? = some go := by
  have hstep : (system n).step s (.callTrue g k) = some (s.handleRequestVote g i rf ⟨0, true⟩) := by
    simp [system, State.step, State.callTrue, hg, hrf, hk]
  refine ⟨_, .single (a := .callTrue g k) trivial hstep, rfl, ?_⟩
  intro g' go hne hgo
  have hset : (s.gos.set g ⟨i, .done⟩)[g']? = some go := by
    rw [List.getElem?_set_ne hne.symm]
    exact hgo
  have hlt := (List.getElem?_eq_some_iff.mp hset).1
  exact (List.getElem?_append_left hlt).trans hset

/-- The peer `j` is asked, grants its vote, and the vote is counted. -/
theorem Campaign.exists_vote (h : Campaign s i ctx term rf (j :: peers)) :
    ∃ t, (system n).ReachesBy Benign s t ∧
      t.alive i = some (rf.handleRequestVote ⟨0, true⟩).1 ∧
      (∀ j' ∈ peers, t.alive j' = s.alive j') ∧
      ∀ j' ∈ peers, ∃ g : ℕ, t.gos[g]? = some ⟨i, .voteStart ctx j'⟩ := by
  obtain ⟨hji, rfj, hrfj, hterm⟩ := h.others j (by simp)
  obtain ⟨g, hg⟩ := h.gos j (by simp)
  have hlt := (List.getElem?_eq_some_iff.mp hg).1
  obtain ⟨s₁, call, hr₁, hs₁, ⟨k₁, hk₁⟩, hg₁⟩ := exists_sent (n := n) hg h.alive h.open_ctx
  have hterm₁ : rfj.currentTerm < rf.currentTerm := h.term_eq ▸ hterm
  obtain ⟨s₂, rfj', hr₂, hs₂, ⟨k₂, hk₂⟩, hg₂⟩ := exists_granted (n := n) hk₁
    ((State.alive_congr hs₁ j).trans hrfj) hterm₁
  have hi₂ : s₂.alive i = some rf := by
    rw [State.alive_of_ne hs₂ hji.symm, State.alive_congr hs₁, h.alive]
  have hg₂' : s₂.gos[g]? = some ⟨i, .voteWait ctx j ⟨rf.currentTerm, rf.me⟩ call⟩ := by
    rw [hg₂, hg₁, List.getElem?_set_self hlt]
  obtain ⟨s₃, hr₃, hs₃, hg₃⟩ := exists_counted (n := n) hg₂' hi₂ hk₂
  have hne : ∀ j' ∈ peers, j' ≠ j := by
    intro j' hj' he
    exact (List.nodup_cons.mp h.nodup).1 (he ▸ hj')
  refine ⟨s₃, (hr₁.trans hr₂).trans hr₃, ?_, ?_, ?_⟩
  · refine State.alive_self hs₃ hi₂ ?_
    have hp := State.not_panicked_of_alive h.alive
    rw [handleRequestVote_granted h.role]
    split_ifs <;> exact hp
  · intro j' hj'
    rw [State.alive_of_ne hs₃ (h.others j' (by simp [hj'])).1, State.alive_of_ne hs₂ (hne j' hj'),
      State.alive_congr hs₁]
  · intro j' hj'
    obtain ⟨g', hg'⟩ := h.gos j' (by simp [hj'])
    have hgne : g' ≠ g := by
      rintro rfl
      rw [hg] at hg'
      cases hg'
      exact hne _ hj' rfl
    refine ⟨g', hg₃ g' _ hgne ?_⟩
    rw [hg₂, hg₁, List.getElem?_set_ne hgne.symm, hg']

/-- With the votes of the peers that are left the candidate becomes leader. -/
theorem Campaign.exists_leader : ∀ {peers : List ℕ} {s : State} {rf : Server},
    Campaign s i ctx term rf peers → peers ≠ [] → ∃ t rf', (system n).ReachesBy Benign s t ∧
      t.alive i = some rf' ∧ rf'.role = .leader ∧ rf'.currentTerm = term
  | [], _, _, _, hne => absurd rfl hne
  | j :: peers, s, rf, h, _ => by
      obtain ⟨t, hst, hi, hothers, hgos⟩ := h.exists_vote (n := n)
      rw [handleRequestVote_granted h.role] at hi
      split_ifs at hi with hmaj
      · exact ⟨t, _, hst, hi, rfl, h.term_eq⟩
      · -- no majority yet, so somebody is left to be asked
        have hlt := h.majority
        have hfew : rf.votes.counter + 1 ≤ rf.votes.total / 2 := by
          simpa [Votes.hasMajority, Votes.vote] using hmaj
        rw [List.length_cons] at hlt
        have hcampaign : Campaign t i ctx term { rf with votes := rf.votes.vote } peers := by
          refine ⟨hi, h.role, h.term_eq, h.open_ctx, ?_, (List.nodup_cons.mp h.nodup).2, ?_,
            hgos⟩
          · simp only [Votes.vote]
            omega
          · intro j' hj'
            rw [hothers j' hj']
            exact h.others j' (by simp [hj'])
        have hleft : peers ≠ [] := by
          rintro rfl
          rw [List.length_nil] at hlt
          omega
        obtain ⟨u, rf', htu, hu⟩ := hcampaign.exists_leader hleft
        exact ⟨u, rf', hst.trans htu, hu⟩

end campaign

/-- From every reachable state in which more than half of at least two servers have not panicked, a
server among them that is not leader can become the leader of a term that is newer than all terms
of the cluster, by steps without a fault. -/
theorem leader_can_be_elected {n : ℕ} {s : State} (h : (system n).Reachable s) {i : ℕ} {rf : Server}
    (hi : s.alive i = some rf) (hrole : rf.role ≠ .leader) (hn : 2 ≤ n)
    (hup : n < 2 * s.up.length) :
    ∃ t rf', (system n).ReachesBy Benign s t ∧ t.alive i = some rf' ∧ rf'.role = .leader ∧
      ∀ rfj ∈ s.servers, rfj.currentTerm < rf'.currentTerm := by
  obtain ⟨M, hM⟩ : ∃ M, ∀ rfj ∈ s.servers, rfj.currentTerm ≤ M :=
    ⟨(s.servers.map Server.currentTerm).sum, fun rfj hj =>
      List.le_sum_of_mem (List.mem_map_of_mem hj)⟩
  have hlt : i < s.tickers.length := by
    rw [reachable_tickers h, ← reachable_length h]
    exact (List.getElem?_eq_some_iff.mp (State.getElem?_of_alive hi)).1
  -- the server stands until its term is newer than all others
  obtain ⟨s₁, rf₁, h₁, hterm₁⟩ := exists_newer (n := n) hi hrole hlt M
  obtain ⟨s₂, rf₂, ctx, h₂, hasks⟩ := exists_asks (n := n) h₁.alive h₁.role h₁.ticker
  have h₂ := h₁.trans h₂
  have hr₂ : (system n).Reachable s₂ := h.trans (h₂.reaches.mono (fun _ _ _ => trivial))
  have hi₂ := State.getElem?_of_alive h₂.alive
  have hlen : (s.up.erase i).length = s.up.length - 1 :=
    List.length_erase_of_mem (State.mem_up.mpr ⟨rf, hi⟩)
  have hcampaign : Campaign s₂ i ctx rf₂.currentTerm rf₂ (s.up.erase i) := by
    refine ⟨h₂.alive, hasks.role, rfl, hasks.open_ctx, ?_, s.nodup_up.erase i, ?_, ?_⟩
    · rw [hlen, reachable_total hr₂ i rf₂ hi₂, hasks.votes]
      simp only [Votes.vote]
      omega
    · intro j hj
      obtain ⟨hne, hj⟩ := s.nodup_up.mem_erase_iff.mp hj
      obtain ⟨rfj, hrfj⟩ := State.mem_up.mp hj
      refine ⟨hne, rfj, (State.alive_of_ne h₂.servers hne).trans hrfj, ?_⟩
      have hold := hM rfj (List.mem_of_getElem? (State.getElem?_of_alive hrfj))
      have hnew := hasks.term
      omega
    · intro j hj
      obtain ⟨hne, hj⟩ := s.nodup_up.mem_erase_iff.mp hj
      refine List.mem_iff_getElem?.mp ?_
      rw [hasks.gos]
      refine List.mem_append_right _ (List.mem_map.mpr ⟨j, ?_, rfl⟩)
      have hj : j < s₁.servers.length := by
        rw [h₁.servers, List.length_set]
        exact List.mem_range.mp (List.mem_of_mem_filter hj)
      simp [State.peers, hne, hj]
  have hne : s.up.erase i ≠ [] := by
    intro hnil
    rw [hnil, List.length_nil] at hlen
    omega
  obtain ⟨t, rf', ht, halive, hleader, hterm⟩ := hcampaign.exists_leader (n := n) hne
  refine ⟨t, rf', h₂.reaches.trans ht, halive, hleader, ?_⟩
  intro rfj hj
  have hold := hM rfj hj
  have hnew := hasks.term
  omega

/-- Another server has stood before. -/
theorem leader_can_be_elected_rival : ∃ s rf, (system 3).Reachable s ∧ s.alive 0 = some rf ∧
    rf.role = .follower ∧ 3 < 2 * s.up.length ∧
    ∃ t rf', (system 3).ReachesBy Benign s t ∧ t.alive 0 = some rf' ∧ rf'.role = .leader ∧
      ∀ rfj ∈ s.servers, rfj.currentTerm < rf'.currentTerm := by
  obtain ⟨s, hs, hp⟩ := Lts.exists_of_exec (L := system 3) (C := fun _ _ => True)
    (p := fun s => (s.alive 0).any (fun rf => rf.role = .follower) && decide (3 < 2 * s.up.length))
    [.clock 1001, .timeout 1 0, .elect 1, .request 1] (by decide)
  obtain ⟨hrf, hup⟩ := Bool.and_eq_true_iff.mp hp
  obtain ⟨rf, hrf, hrole⟩ := (Option.any_eq_true _ _).mp hrf
  have hrole := of_decide_eq_true hrole
  have hup := of_decide_eq_true hup
  exact ⟨s, rf, hs, hrf, hrole, hup,
    leader_can_be_elected hs hrf (by simp [hrole]) (by decide) hup⟩

/-! ### A cluster of one server -/

/-- Nobody asks, and nobody is leader. -/
structure Lonely (s : State) : Prop where
  length : s.servers.length = 1
  gos : s.gos = []
  requests : s.requests = []
  role : ∀ rf ∈ s.servers, rf.role ≠ .leader

theorem Lonely.peers {s : State} (h : Lonely s) {i : ℕ} {rf : Server} (hrf : s.alive i = some rf) :
    s.peers i = [] := by
  have hi := (List.getElem?_eq_some_iff.mp (State.getElem?_of_alive hrf)).1
  rw [h.length] at hi
  unfold State.peers
  rw [h.length]
  have : i = 0 := by omega
  subst this
  rfl

theorem Lonely.step {s s' : State} {a : Action} (h : Lonely s) (hs : Stepped s a s') :
    Lonely s' := by
  cases hs with
  | clock now => exact ⟨h.length, h.gos, h.requests, h.role⟩
  | idle i r => exact h
  | timeout hrf ht => exact ⟨h.length, h.gos, h.requests, h.role⟩
  | @elect i rf hrf ht =>
      have hrole := h.role rf (List.mem_of_getElem? (State.getElem?_of_alive hrf))
      have hcand := makeCandidate_of_not_leader hrole (State.not_panicked_of_alive hrf) s.now
      refine ⟨by simpa [State.makeCandidate] using h.length, h.gos, h.requests, ?_⟩
      exact forall_mem_set h.role (by simp [hcand])
  | @request i rf hrf ht =>
      have hrole := h.role rf (List.mem_of_getElem? (State.getElem?_of_alive hrf))
      refine ⟨by simpa [State.requestVotes] using h.length, ?_, h.requests, ?_⟩
      · have hpeers := h.peers hrf
        simpa [State.requestVotes, State.peers, h.gos] using hpeers
      · exact forall_mem_set h.role hrole
  | deliver hq hrf =>
      rw [h.requests] at hq
      cases hq
  | lose k => exact ⟨h.length, h.gos, by simp [h.requests], h.role⟩
  | voteStart hg | voteAbort hg | voteSend hg | heartbeatStart hg | heartbeatAbort hg
  | heartbeat hg | beatStart hg | beatSend hg | voteReply hg | beatReply hg | voteFailed hg
  | beatFailed hg =>
      rw [h.gos] at hg
      cases hg

/-- In a cluster of one server nobody ever becomes leader. -/
theorem no_leader_alone {s : State} (h : (system 1).Reachable s) :
    ∀ rf ∈ s.servers, rf.getState.2 = false := by
  have hlonely : Lonely s := by
    refine h.invariant (I := Lonely) ⟨rfl, rfl, rfl, ?_⟩ ?_
    · intro rf hrf
      obtain ⟨i, hi⟩ := List.mem_iff_getElem?.mp hrf
      rw [init_server hi]
      simp [Server.make]
    · intro s a s' _ ih _ hstep
      exact ih.step (State.step_cases hstep)
  intro rf hrf
  exact decide_eq_false (hlonely.role rf hrf)

theorem no_leader_alone_candidate : ∃ s, (system 1).Reachable s ∧
    s.servers.map Server.role = [.candidate] ∧ s.servers.all (·.votes.hasMajority) = true ∧
    ∀ rf ∈ s.servers, rf.getState.2 = false := by
  obtain ⟨s, hs, hp⟩ := Lts.exists_of_exec (L := system 1) (C := fun _ _ => True)
    (p := fun s => decide (s.servers.map Server.role = [.candidate] ∧
      s.servers.all (·.votes.hasMajority) = true))
    [.clock 1001, .timeout 0 0, .elect 0, .request 0] (by decide)
  obtain ⟨hrole, hmaj⟩ := of_decide_eq_true hp
  exact ⟨s, hs, hrole, hmaj, no_leader_alone hs⟩

end DistributedSystems.Raft
