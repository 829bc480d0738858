import DistributedSystems.RaftRequests

/-! # The vote counter

`makeCandidate` counts the vote of the server for itself and `handleRequestVote` every granted vote
of a reply, but the counter is never reset, and a vote is counted whatever the term it was asked
for.  So the counter is that of the votes only as long as the server has stood in no other term than
the one it is in (`OnlyTerm`).

While a candidate is in that situation, its requests ask for its own term, at most one goroutine is
asking each peer, and every counted vote comes from a peer that no goroutine asks any more
(`Tallied`).  So the counter is at most the number of servers that voted for it, and a promotion
has the votes of a majority (`hasVotes_of_onlyTerm`). -/

namespace DistributedSystems.Raft

/-! ### Candidacies and open requests of a server -/

/-- The term in which the server `i` stands. -/
def Event.stood? (i : ℕ) : Event → Option ℕ
  | .candidacy j t => if j = i then some t else none
  | _ => none

/-- The terms in which the server `i` has stood. -/
def stood (log : List Event) (i : ℕ) : List ℕ := log.filterMap (Event.stood? i)

theorem mem_stood {log : List Event} {i t : ℕ} : t ∈ stood log i ↔ Event.candidacy i t ∈ log := by
  rw [stood, List.mem_filterMap]
  constructor
  · rintro ⟨e, he, ht⟩
    cases e with
    | candidacy j u =>
        simp only [Event.stood?, Option.ite_none_right_eq_some, Option.some.injEq] at ht
        obtain ⟨rfl, rfl⟩ := ht
        exact he
    | _ => cases ht
  · intro h
    exact ⟨_, h, by simp [Event.stood?]⟩

theorem stood_append_of_none {log es : List Event} {i : ℕ} (h : ∀ e ∈ es, e.stood? i = none) :
    stood (log ++ es) i = stood log i := by
  rw [stood, List.filterMap_append, List.filterMap_eq_nil_iff.mpr h, List.append_nil, stood]

theorem stood_append_nil (log : List Event) (i : ℕ) : stood (log ++ []) i = stood log i := by
  rw [List.append_nil]

theorem stood_append_ite {log : List Event} {e : Event} {i : ℕ} {p : Prop} [Decidable p]
    (h : e.stood? i = none) : stood (log ++ if p then [e] else []) i = stood log i := by
  refine stood_append_of_none ?_
  intro e' he
  split_ifs at he
  · rw [List.mem_singleton.mp he]
    exact h
  · cases he

section

variable {s : State} {i j : ℕ} {rf : Server}

theorem stood_makeCandidate_self (hme : rf.me = i)
    (hp : (rf.makeCandidate s.now).panicked = false) :
    stood (s.makeCandidate i rf).log i = stood s.log i ++ [rf.currentTerm + 1] := by
  simp [State.makeCandidate, hp, stood, Event.stood?, hme]

theorem stood_makeCandidate_of_ne (hme : rf.me = j) (hij : i ≠ j) :
    stood (s.makeCandidate j rf).log i = stood s.log i := by
  refine stood_append_of_none ?_
  intro e he
  split_ifs at he
  · cases he
  · rw [List.mem_singleton.mp he]
    simp [Event.stood?, hme, Ne.symm hij]

theorem stood_deliver (k : ℕ) (q : Request) : stood (s.deliver k q rf).log i = stood s.log i := by
  obtain ⟨call, dest, msg⟩ := q
  cases msg with
  | requestVote args => exact stood_append_ite rfl
  | appendEntries args => exact stood_append_nil s.log i

theorem stood_handleRequestVote (g : ℕ) (reply : RequestVoteReply) :
    stood (s.handleRequestVote g j rf reply).log i = stood s.log i := stood_append_ite rfl

/-- A ticker that is not set to `request` is there only when it was. -/
theorem State.request_of_tick {t : Ticker} (ht : i = j → t ≠ .request)
    (h : (s.tick j t).tickers[i]? = some .request) : s.tickers[i]? = some .request := by
  rcases getElem?_set_cases h with ⟨hij, hr⟩ | ⟨-, h⟩
  · exact absurd hr.symm (ht hij)
  · exact h

end

/-- The peer that a goroutine of the server `i` asks for its vote. -/
def Goroutine.asks? (i : ℕ) (go : Goroutine) : Option ℕ :=
  if go.server = i then
    match go.task with
    | .voteStart _ peer => some peer
    | .voteLoop _ peer _ => some peer
    | .voteWait _ peer _ _ => some peer
    | _ => none
  else none

/-- The peers that goroutines of the server `i` ask for their votes. -/
def asking (gos : List Goroutine) (i : ℕ) : List ℕ := gos.filterMap (Goroutine.asks? i)

theorem asking_append (gos gos' : List Goroutine) (i : ℕ) :
    asking (gos ++ gos') i = asking gos i ++ asking gos' i :=
  List.filterMap_append

theorem asking_append_of_none {gos gos' : List Goroutine} {i : ℕ}
    (h : ∀ go ∈ gos', go.asks? i = none) : asking (gos ++ gos') i = asking gos i := by
  rw [asking, List.filterMap_append, List.filterMap_eq_nil_iff.mpr h, List.append_nil, asking]

theorem asking_voteStart (ctx i : ℕ) (peers : List ℕ) :
    asking (peers.map (fun peer => ⟨i, .voteStart ctx peer⟩)) i = peers := by
  have hasks : Goroutine.asks? i ∘ (fun peer => ⟨i, .voteStart ctx peer⟩) = some := by
    funext peer
    simp [Goroutine.asks?]
  rw [asking, List.filterMap_map, hasks, List.filterMap_some]

/-! ### What a step does to a candidate -/

/-- The server counts no vote, and it may become follower or enter a later term. -/
structure Server.Steady (rf rf' : Server) : Prop where
  role : rf'.role = rf.role ∨ rf'.role = .follower
  term : rf.currentTerm ≤ rf'.currentTerm
  votes : rf'.votes = rf.votes

namespace Server

variable (rf : Server)

theorem Steady.refl : rf.Steady rf := ⟨Or.inl rfl, le_rfl, rfl⟩

theorem requestVote_steady (args : RequestVoteArgs) (now : ℤ) :
    rf.Steady (rf.requestVote args now).1 := by
  unfold requestVote
  split_ifs with h1 h2
  · exact ⟨Or.inl rfl, le_rfl, rfl⟩
  · exact ⟨Or.inl rfl, le_rfl, rfl⟩
  · exact ⟨Or.inl rfl, not_lt.mp h1, rfl⟩

theorem makeFollower_steady {t : ℕ} (h : rf.currentTerm ≤ t) : rf.Steady (rf.makeFollower t) :=
  ⟨Or.inr (rf.makeFollower_role t), by simpa using h, rf.makeFollower_votes t⟩

theorem appendEntries_steady (args : AppendEntriesArgs) (now : ℤ) :
    rf.Steady (rf.appendEntries args now).1 := by
  have hf := rf.makeFollower_steady (le_refl rf.currentTerm)
  unfold appendEntries
  split_ifs with h1
  · exact .refl rf
  · dsimp only
    split_ifs
    · exact hf
    · exact ⟨hf.role, hf.term, hf.votes⟩

theorem handleAppendEntries_steady (reply : AppendEntriesReply) :
    rf.Steady (rf.handleAppendEntries reply) := by
  unfold handleAppendEntries
  split_ifs with h
  · exact rf.makeFollower_steady h.le
  · exact .refl rf

theorem makeCandidate_of_not_panicked {now : ℤ} (h : (rf.makeCandidate now).panicked = false) :
    (rf.makeCandidate now).role = .candidate ∧
      (rf.makeCandidate now).currentTerm = rf.currentTerm + 1 ∧
      (rf.makeCandidate now).votes = rf.votes.vote := by
  unfold makeCandidate at h ⊢
  dsimp only at h ⊢
  split_ifs at h ⊢ with hl hp hp
  · simp_all
  · simp
  · simp_all
  · simp

/-- Only a leader panics in `makeCandidate`, and it stays leader. -/
theorem makeCandidate_of_panicked {now : ℤ} (hrf : rf.panicked = false)
    (h : (rf.makeCandidate now).panicked = true) :
    rf.Steady (rf.makeCandidate now) ∧ (rf.makeCandidate now).role = .leader := by
  unfold makeCandidate at h ⊢
  dsimp only at h ⊢
  split_ifs at h ⊢ with hl hp hp
  · exact ⟨⟨Or.inl (by simp), by simp, by simp⟩, by simpa using hl⟩
  · exact absurd h hp
  · exact absurd (hrf.symm.trans hp) (by simp)
  · exact absurd h hp

/-- A reply is no vote, or it is counted; the vote may promote a candidate. -/
theorem handleRequestVote_cases (reply : RequestVoteReply) :
    rf.Steady (rf.handleRequestVote reply).1 ∨
      (reply.voteGranted = true ∧
        ((rf.handleRequestVote reply).1.role = rf.role ∨
          (rf.role = .candidate ∧ (rf.handleRequestVote reply).1.role = .leader)) ∧
        (rf.handleRequestVote reply).1.currentTerm = rf.currentTerm ∧
        (rf.handleRequestVote reply).1.votes = rf.votes.vote) := by
  unfold handleRequestVote
  split_ifs with h1 h2
  · exact Or.inl (rf.makeFollower_steady h1.le)
  · refine Or.inr ⟨h2, ?_⟩
    dsimp only
    split_ifs with h3
    · rw [Bool.and_eq_true, decide_eq_true_eq] at h3
      rw [makeLeader_eq]
      exact ⟨Or.inr ⟨h3.2, rfl⟩, rfl, rfl⟩
    · exact ⟨Or.inl rfl, rfl, rfl⟩
  · exact Or.inl (.refl rf)

end Server

/-- What a step does to the server `i`: it counts no vote and does not stand, it stands, it starts
its requests, or it counts the vote of a peer it asks no more. -/
inductive Turn (s s' : State) (i : ℕ) (rf rf' : Server) : Prop
  | still (h : rf.Steady rf') (hstood : stood s'.log i = stood s.log i)
      (hasking : ∃ l, (asking s.gos i).Perm (l ++ asking s'.gos i))
      (hticker : s'.tickers[i]? = some .request →
        s.tickers[i]? = some .request ∨ rf'.role = .leader)
  | stand (hrole : rf'.role = .candidate) (hterm : rf'.currentTerm = rf.currentTerm + 1)
      (hvotes : rf'.votes = rf.votes.vote)
      (hstood : stood s'.log i = stood s.log i ++ [rf'.currentTerm])
      (hasking : asking s'.gos i = asking s.gos i)
  | request (hrole : rf'.role = rf.role) (hterm : rf'.currentTerm = rf.currentTerm)
      (hvotes : rf'.votes = rf.votes) (hstood : stood s'.log i = stood s.log i)
      (hasking : asking s'.gos i = asking s.gos i ++ s.peers i)
      (hticker : s.tickers[i]? = some .request) (hticker' : s'.tickers[i]? = some .check)
  | count {ctx peer call : ℕ} {args : RequestVoteArgs} {reply : RequestVoteReply}
      (hgo : ⟨i, .voteWait ctx peer args call⟩ ∈ s.gos)
      (hreply : ⟨call, .requestVote reply⟩ ∈ s.replies) (hgranted : reply.voteGranted = true)
      (hrole : rf'.role = rf.role ∨ (rf.role = .candidate ∧ rf'.role = .leader))
      (hterm : rf'.currentTerm = rf.currentTerm) (hvotes : rf'.votes = rf.votes.vote)
      (hstood : stood s'.log i = stood s.log i)
      (hasking : (asking s.gos i).Perm (peer :: asking s'.gos i))
      (hticker : s'.tickers[i]? = s.tickers[i]?)

section asking

variable {gos : List Goroutine} {g i : ℕ} {go go' : Goroutine}

theorem asking_set_of_eq (hg : gos[g]? = some go) (h : go'.asks? i = go.asks? i) :
    asking (gos.set g go') i = asking gos i :=
  filterMap_set_of_eq hg h

theorem asking_perm_set_done (hg : gos[g]? = some go) (j : ℕ) :
    (asking gos i).Perm ((go.asks? i).toList ++ asking (gos.set g ⟨j, .done⟩) i) :=
  filterMap_perm_set hg (by simp [Goroutine.asks?])

end asking

/-- A step in which the server `i` does nothing. -/
theorem Turn.of_same {s s' : State} {i : ℕ} {rf : Server} (hstood : stood s'.log i = stood s.log i)
    (hasking : ∃ l, (asking s.gos i).Perm (l ++ asking s'.gos i))
    (hticker : s'.tickers[i]? = some .request → s.tickers[i]? = some .request) :
    Turn s s' i rf rf :=
  .still (.refl rf) hstood hasking (fun h => Or.inl (hticker h))

/-- A step in which one server runs a section that neither stands nor counts. -/
theorem Turn.of_set {s s' : State} {i j : ℕ} {rf rf₁ rf' : Server}
    (hrf : s.servers[j]? = some rf) (hservers : s'.servers = s.servers.set j rf₁)
    (hsteady : rf.Steady rf₁) (hstood : stood s'.log i = stood s.log i)
    (hasking : ∃ l, (asking s.gos i).Perm (l ++ asking s'.gos i))
    (hticker : s'.tickers = s.tickers) (hi : s'.servers[i]? = some rf') :
    ∃ rf, s.servers[i]? = some rf ∧ Turn s s' i rf rf' := by
  rw [hservers] at hi
  rcases getElem?_set_cases hi with ⟨rfl, rfl⟩ | ⟨-, hi⟩
  · refine ⟨rf, hrf, .still hsteady hstood hasking ?_⟩
    intro ht
    exact Or.inl (hticker ▸ ht)
  · refine ⟨rf', hi, .of_same hstood hasking ?_⟩
    intro ht
    exact hticker ▸ ht

section

variable {s : State} {i j : ℕ} {rf rf' : Server}

theorem Turn.makeCandidate (hrf : s.alive j = some rf) (hme : rf.me = j)
    (hi : (s.makeCandidate j rf).servers[i]? = some rf') :
    ∃ rf₀, s.servers[i]? = some rf₀ ∧ Turn s (s.makeCandidate j rf) i rf₀ rf' := by
  rcases getElem?_set_cases hi with ⟨rfl, rfl⟩ | ⟨hij, hi⟩
  · refine ⟨rf, State.getElem?_of_alive hrf, ?_⟩
    cases hp : (rf.makeCandidate s.now).panicked with
    | true =>
        obtain ⟨hsteady, hlead⟩ :=
          rf.makeCandidate_of_panicked (State.not_panicked_of_alive hrf) hp
        exact .still hsteady (by simp [State.makeCandidate, hp]) ⟨[], .refl _⟩
          (fun _ => Or.inr hlead)
    | false =>
        obtain ⟨hrole, hterm, hvotes⟩ := rf.makeCandidate_of_not_panicked hp
        exact .stand hrole hterm hvotes (hterm ▸ stood_makeCandidate_self hme hp) rfl
  · refine ⟨rf', hi, .of_same (stood_makeCandidate_of_ne hme hij) ⟨[], .refl _⟩ ?_⟩
    exact State.request_of_tick (fun he => absurd he hij)

theorem Turn.requestVotes (hrf : s.alive j = some rf) (ht : s.tickers[j]? = some .request)
    (hi : (s.requestVotes j rf).servers[i]? = some rf') :
    ∃ rf₀, s.servers[i]? = some rf₀ ∧ Turn s (s.requestVotes j rf) i rf₀ rf' := by
  have hlog : stood (s.requestVotes j rf).log i = stood s.log i := stood_append_nil s.log i
  rcases getElem?_set_cases hi with ⟨rfl, rfl⟩ | ⟨hij, hi⟩
  · refine ⟨rf, State.getElem?_of_alive hrf, .request rfl rfl rfl hlog ?_ ht ?_⟩
    · exact (asking_append _ _ _).trans (congrArg _ (asking_voteStart _ _ _))
    · exact List.getElem?_set_self (List.getElem?_eq_some_iff.mp ht).1
  · have hgos : asking (s.requestVotes j rf).gos i = asking s.gos i := by
      refine asking_append_of_none ?_
      intro go hgo
      obtain ⟨p, -, rfl⟩ := List.mem_map.mp hgo
      simp [Goroutine.asks?, Ne.symm hij]
    refine ⟨rf', hi, .of_same hlog ⟨[], by rw [hgos]; rfl⟩ ?_⟩
    exact State.request_of_tick (fun _ => by simp)

/-- The goroutine that has got the reply asks no more, and its vote may be counted. -/
theorem Turn.handleRequestVote {g ctx peer call k : ℕ} {args : RequestVoteArgs}
    {reply : RequestVoteReply} (hg : s.gos[g]? = some ⟨j, .voteWait ctx peer args call⟩)
    (hrf : s.alive j = some rf) (hp : s.replies[k]? = some ⟨call, .requestVote reply⟩)
    (hi : (s.handleRequestVote g j rf reply).servers[i]? = some rf') :
    ∃ rf₀, s.servers[i]? = some rf₀ ∧ Turn s (s.handleRequestVote g j rf reply) i rf₀ rf' := by
  have hlog : stood (s.handleRequestVote g j rf reply).log i = stood s.log i :=
    stood_handleRequestVote g reply
  have hgos : asking (s.handleRequestVote g j rf reply).gos i =
      asking (s.gos.set g ⟨j, .done⟩) i := by
    refine asking_append_of_none ?_
    intro go hgo
    split_ifs at hgo
    · rw [List.mem_singleton.mp hgo]
      simp [Goroutine.asks?]
    · cases hgo
  have hask := asking_perm_set_done (i := i) hg j
  rw [← hgos] at hask
  rcases getElem?_set_cases hi with ⟨rfl, rfl⟩ | ⟨-, hi⟩
  · refine ⟨rf, State.getElem?_of_alive hrf, ?_⟩
    rcases rf.handleRequestVote_cases reply with hsteady | ⟨hgr, hrole, hterm, hvotes⟩
    · exact .still hsteady hlog ⟨_, hask⟩ Or.inl
    · refine .count (List.mem_of_getElem? hg) (List.mem_of_getElem? hp) hgr hrole hterm hvotes
        hlog ?_ rfl
      simpa [Goroutine.asks?] using hask
  · exact ⟨rf', hi, .of_same hlog ⟨_, hask⟩ id⟩

end

theorem Stepped.turn {s s' : State} {a : Action} (h : Stepped s a s')
    (hme : ∀ i (rf : Server), s.servers[i]? = some rf → rf.me = i) {i : ℕ} {rf' : Server}
    (hi : s'.servers[i]? = some rf') : ∃ rf, s.servers[i]? = some rf ∧ Turn s s' i rf rf' := by
  have same : asking s'.gos i = asking s.gos i →
      ∃ l, (asking s.gos i).Perm (l ++ asking s'.gos i) := fun he => ⟨[], by rw [he]; rfl⟩
  cases h with
  | clock now => exact ⟨rf', hi, .of_same rfl (same rfl) id⟩
  | idle j r => exact ⟨rf', hi, .of_same rfl (same rfl) id⟩
  | timeout hrf h =>
      exact ⟨rf', hi, .of_same rfl (same rfl) (State.request_of_tick (fun _ => by simp))⟩
  | elect hrf ht => exact Turn.makeCandidate hrf (hme _ _ (State.getElem?_of_alive hrf)) hi
  | request hrf ht => exact Turn.requestVotes hrf ht hi
  | voteStart hg hrf => exact ⟨rf', hi, .of_same rfl (same (asking_set_of_eq hg rfl)) id⟩
  | voteAbort hg hrf hc => exact ⟨rf', hi, .of_same rfl ⟨_, asking_perm_set_done hg _⟩ id⟩
  | voteSend hg hrf hc =>
      exact ⟨rf', hi, .of_same (stood_append_of_none (by simp [Event.stood?]))
        (same (asking_set_of_eq hg rfl)) id⟩
  | heartbeatStart hg hrf =>
      exact Turn.of_set (State.getElem?_of_alive hrf) rfl ⟨Or.inl rfl, le_rfl, rfl⟩
        (stood_append_nil s.log i) (same (asking_set_of_eq hg rfl)) rfl hi
  | heartbeatAbort hg hrf hc => exact ⟨rf', hi, .of_same rfl ⟨_, asking_perm_set_done hg _⟩ id⟩
  | heartbeat hg hrf hc =>
      refine ⟨rf', hi, .of_same rfl (same ?_) id⟩
      refine asking_append_of_none ?_
      intro go hgo
      obtain ⟨p, -, rfl⟩ := List.mem_map.mp hgo
      simp [Goroutine.asks?]
  | beatStart hg hrf => exact ⟨rf', hi, .of_same rfl (same (asking_set_of_eq hg rfl)) id⟩
  | beatSend hg =>
      exact ⟨rf', hi, .of_same (stood_append_of_none (by simp [Event.stood?]))
        (same (asking_set_of_eq hg rfl)) id⟩
  | @deliver k q rf hq hrf =>
      have hlog : stood (s.deliver k q rf).log i = stood s.log i := stood_deliver k q
      have hrf := State.getElem?_of_alive hrf
      obtain ⟨call, dest, msg⟩ := q
      cases msg with
      | requestVote args =>
          exact Turn.of_set hrf rfl (rf.requestVote_steady args s.now) hlog (same rfl) rfl hi
      | appendEntries args =>
          exact Turn.of_set hrf rfl (rf.appendEntries_steady args s.now) hlog (same rfl) rfl hi
  | lose k => exact ⟨rf', hi, .of_same rfl (same rfl) id⟩
  | voteReply hg hrf hp => exact Turn.handleRequestVote hg hrf hp hi
  | @beatReply g j call k reply rf hg hrf hp =>
      exact Turn.of_set (State.getElem?_of_alive hrf) rfl (rf.handleAppendEntries_steady reply)
        (stood_append_nil s.log i) (same (asking_set_of_eq hg rfl)) rfl hi
  | voteFailed hg => exact ⟨rf', hi, .of_same rfl (same (asking_set_of_eq hg rfl)) id⟩
  | beatFailed hg => exact ⟨rf', hi, .of_same rfl ⟨_, asking_perm_set_done hg _⟩ id⟩

theorem Turn.term_le {s s' : State} {i : ℕ} {rf rf' : Server} (h : Turn s s' i rf rf') :
    rf.currentTerm ≤ rf'.currentTerm := by
  cases h with
  | still h hstood hasking hticker => exact h.term
  | stand hrole hterm hvotes hstood hasking => omega
  | request hrole hterm hvotes hstood hasking hticker hticker' => exact hterm.ge
  | count hgo hreply hgranted hrole hterm hvotes hstood hasking hticker => exact hterm.ge

/-! ### Servers that never stood -/

/-- A server that has never stood asks for no votes and has counted none. -/
structure NeverStood (s : State) (i : ℕ) (rf : Server) : Prop where
  asking : asking s.gos i = []
  counter : rf.votes.counter = 0
  ticker : s.tickers[i]? ≠ some .request
  role : rf.role = .follower

theorem NeverStood.turn {s s' : State} {i : ℕ} {rf rf' : Server} (h : NeverStood s i rf)
    (ht : Turn s s' i rf rf') (hst : stood s'.log i = []) : NeverStood s' i rf' := by
  cases ht with
  | still hs hstood hasking hticker =>
      have hrole : rf'.role = .follower := hs.role.elim (fun he => he.trans h.role) id
      obtain ⟨l, hl⟩ := hasking
      rw [h.asking, List.nil_perm, List.append_eq_nil_iff] at hl
      refine ⟨hl.2, hs.votes ▸ h.counter, ?_, hrole⟩
      intro hr
      rcases hticker hr with hr | hr
      · exact h.ticker hr
      · cases hrole.symm.trans hr
  | stand hrole hterm hvotes hstood hasking => simp [hstood] at hst
  | request hrole hterm hvotes hstood hasking hticker hticker' => exact absurd hticker h.ticker
  | count hgo hreply hgranted hrole hterm hvotes hstood hasking hticker =>
      rw [h.asking, List.nil_perm] at hasking
      cases hasking

theorem reachable_neverStood {n : ℕ} {C : State → Action → Prop} {s : State}
    (h : (system n).ReachableBy C s) : ∀ i (rf : Server), s.servers[i]? = some rf →
      stood s.log i = [] → NeverStood s i rf := by
  refine h.invariant (I := fun s => ∀ i (rf : Server), s.servers[i]? = some rf →
    stood s.log i = [] → NeverStood s i rf) ?_ ?_
  · intro i rf hi _
    rw [init_server hi]
    refine ⟨rfl, rfl, ?_, rfl⟩
    intro ht
    have := List.mem_of_getElem? ht
    simp [system, State.init] at this
  · intro s a s' hr ih _ hstep i rf' hi hst
    obtain ⟨rf, hrf, ht⟩ := (State.step_cases hstep).turn (reachable_me hr) hi
    refine (ih i rf hrf ?_).turn ht hst
    cases ht <;> simp_all

/-! ### The terms that goroutines ask for -/

theorem stood_le {n : ℕ} {C : State → Action → Prop} {s : State} (h : (system n).ReachableBy C s)
    {i t : ℕ} {rf : Server} (hrf : s.servers[i]? = some rf) (ht : t ∈ stood s.log i) :
    t ≤ rf.currentTerm :=
  (reachable_records h i rf hrf).past t i (voted_of_candidacy (mem_stood.mp ht))

/-- The arguments of a goroutine that asks for a vote. -/
def Task.voteArgs? : Task → Option RequestVoteArgs
  | .voteLoop _ _ args => some args
  | .voteWait _ _ args _ => some args
  | _ => none

/-- A goroutine asks for a term between one in which its server stood and the current one. -/
theorem reachable_asked {n : ℕ} {C : State → Action → Prop} {s : State}
    (h : (system n).ReachableBy C s) : ∀ go ∈ s.gos, ∀ args, go.task.voteArgs? = some args →
      ∀ rf : Server, s.servers[go.server]? = some rf →
        args.term ≤ rf.currentTerm ∧ ∃ t ∈ stood s.log go.server, t ≤ args.term := by
  refine h.invariant (I := fun s => ∀ go ∈ s.gos, ∀ args, go.task.voteArgs? = some args →
    ∀ rf : Server, s.servers[go.server]? = some rf →
      args.term ≤ rf.currentTerm ∧ ∃ t ∈ stood s.log go.server, t ≤ args.term)
    (by simp [system, State.init]) ?_
  intro s a s' hr ih _ hstep go hgo args hargs rf' hrf'
  have hst := State.step_cases hstep
  obtain ⟨rf, hrf, ht⟩ := hst.turn (reachable_me hr) hrf'
  -- it is enough to know it before the step
  suffices hold : args.term ≤ rf.currentTerm ∧ ∃ t ∈ stood s.log go.server, t ≤ args.term by
    obtain ⟨hle, t, hmem, htle⟩ := hold
    exact ⟨hle.trans ht.term_le, t,
      mem_stood.mpr (hst.effect.log_subset (mem_stood.mp hmem)), htle⟩
  rcases hst.moved hgo with hgo | hmv
  · exact ih go hgo args hargs rf hrf
  · cases hmv with
    | @voteRead g i ctx peer rf₁ ha hg hrf₁ =>
        obtain rfl : rf₁ = rf := Option.some.inj (hrf₁.symm.trans hrf)
        cases hargs
        refine ⟨le_rfl, ?_⟩
        have hne : stood s.log i ≠ [] := by
          intro hnil
          have hask := (reachable_neverStood hr i rf₁ hrf hnil).asking
          have := List.filterMap_eq_nil_iff.mp hask _ (List.mem_of_getElem? hg)
          simp [Goroutine.asks?] at this
        obtain ⟨t, htm⟩ := List.exists_mem_of_ne_nil _ hne
        exact ⟨t, htm, stood_le hr hrf htm⟩
    | voteSend ha hg hcalls => exact ih _ (List.mem_of_getElem? hg) args hargs rf hrf
    | voteFailed hg => exact ih _ hg args hargs rf hrf
    | _ => cases hargs

/-! ### The replies to a call -/

theorem Stepped.calls_le {s s' : State} {a : Action} (h : Stepped s a s') : s.calls ≤ s'.calls := by
  cases h with
  | voteSend hg hrf hc => exact Nat.le_succ _
  | beatSend hg => exact Nat.le_succ _
  | @deliver k q rf hq hrf =>
      unfold State.deliver
      split <;> exact le_rfl
  | _ => exact le_rfl

/-- A new reply answers a request, and a vote that it grants is in the log. -/
theorem Stepped.replies {s s' : State} {a : Action} (h : Stepped s a s')
    (hme : ∀ i (rf : Server), s.servers[i]? = some rf → rf.me = i) {p : Response}
    (hp : p ∈ s'.replies) : p ∈ s.replies ∨ ∃ q ∈ s.requests, p.call = q.call ∧
      ∀ reply args, p.reply = .requestVote reply → q.msg = .requestVote args →
        reply.voteGranted = true → Event.grant q.dest args.term args.candidateId ∈ s'.log := by
  cases h with
  | @deliver k q rf hq hrf =>
      have hmem := List.mem_of_getElem? hq
      obtain ⟨call, dest, msg⟩ := q
      cases msg with
      | requestVote args =>
          rcases List.mem_append.mp hp with hp | hp
          · exact Or.inl hp
          · obtain rfl := List.mem_singleton.mp hp
            refine Or.inr ⟨_, hmem, rfl, ?_⟩
            intro reply args' hr hm hgr
            cases hr
            cases hm
            have := hme _ _ (State.getElem?_of_alive hrf)
            simp [State.deliver, hgr, this]
      | appendEntries args =>
          rcases List.mem_append.mp hp with hp | hp
          · exact Or.inl hp
          · obtain ⟨r, -, rfl⟩ := List.mem_map.mp hp
            refine Or.inr ⟨_, hmem, rfl, ?_⟩
            intro reply args' hr
            cases hr
  | lose k => exact Or.inl (by simpa using hp)
  | _ => exact Or.inl hp

/-- Every call has its own number: the requests and replies with the number of a waiting goroutine
are those of its call. -/
structure CallsOk (s : State) : Prop where
  request_lt : ∀ q ∈ s.requests, q.call < s.calls
  reply_lt : ∀ p ∈ s.replies, p.call < s.calls
  waiting_lt : ∀ i ctx peer args call, ⟨i, .voteWait ctx peer args call⟩ ∈ s.gos → call < s.calls
  request : ∀ i ctx peer args call, ⟨i, .voteWait ctx peer args call⟩ ∈ s.gos →
    ∀ q ∈ s.requests, q.call = call → q.dest = peer ∧ q.msg = .requestVote args
  granted : ∀ i ctx peer args call, ⟨i, .voteWait ctx peer args call⟩ ∈ s.gos →
    ∀ reply, ⟨call, .requestVote reply⟩ ∈ s.replies → reply.voteGranted = true →
      Event.grant peer args.term args.candidateId ∈ s.log

theorem CallsOk.step {s s' : State} {a : Action} (h : CallsOk s) (hst : Stepped s a s')
    (hme : ∀ i (rf : Server), s.servers[i]? = some rf → rf.me = i) : CallsOk s' := by
  have hle := hst.calls_le
  constructor
  · intro q hq
    rcases hst.requests hq with hq | hd
    · exact (h.request_lt q hq).trans_le hle
    · cases hd <;> omega
  · intro p hp
    rcases hst.replies hme hp with hp | ⟨q, hq, he, -⟩
    · exact (h.reply_lt p hp).trans_le hle
    · rw [he]
      exact (h.request_lt q hq).trans_le hle
  · intro i ctx peer args call hgo
    rcases hst.moved hgo with hgo | hmv
    · exact (h.waiting_lt i ctx peer args call hgo).trans_le hle
    · cases hmv with
      | voteSend ha hg hcalls => omega
  · intro i ctx peer args call hgo q hq he
    rcases hst.moved hgo with hgo | hmv
    · rcases hst.requests hq with hq | hd
      · exact h.request i ctx peer args call hgo q hq he
      · have hlt := h.waiting_lt i ctx peer args call hgo
        cases hd <;> omega
    · cases hmv with
      | voteSend ha hg hcalls =>
          rcases hst.requests hq with hq | hd
          · exact absurd (h.request_lt q hq) (by omega)
          · cases hd with
            | vote ha' hg' hm hcall hcalls' =>
                cases ha.symm.trans ha'
                cases hg.symm.trans hg'
                exact ⟨rfl, hm⟩
            | beat ha' hg' hm hcall hcalls' =>
                cases ha.symm.trans ha'
                cases hg.symm.trans hg'
  · intro i ctx peer args call hgo reply hp hgr
    rcases hst.replies hme hp with hp | ⟨q, hq, he, hgrant⟩
    · rcases hst.moved hgo with hgo | hmv
      · exact hst.effect.log_subset (h.granted i ctx peer args call hgo reply hp hgr)
      · cases hmv with
        | voteSend ha hg hcalls => exact absurd (h.reply_lt _ hp) (lt_irrefl _)
    · rcases hst.moved hgo with hgo | hmv
      · obtain ⟨hd, hm⟩ := h.request i ctx peer args call hgo q hq he.symm
        exact hd ▸ hgrant reply args rfl hm hgr
      · cases hmv with
        | voteSend ha hg hcalls => exact absurd (h.request_lt q hq) (by simp only at he; omega)

theorem reachable_callsOk {n : ℕ} {C : State → Action → Prop} {s : State}
    (h : (system n).ReachableBy C s) : CallsOk s := by
  refine h.invariant ?_ ?_
  · constructor <;> simp [system, State.init]
  · intro s a s' hr ih _ hstep
    exact ih.step (State.step_cases hstep) (reachable_me hr)

/-! ### The counter of a candidate -/

/-- The server `i` has stood in no other term than `t`. -/
def OnlyTerm (log : List Event) (i t : ℕ) : Prop := ∀ u ∈ stood log i, u = t

instance (log : List Event) (i t : ℕ) : Decidable (OnlyTerm log i t) :=
  inferInstanceAs (Decidable (∀ u ∈ stood log i, u = t))

/-- More than half of the servers have voted for `i` in the term `t`. -/
def HasVotes (s : State) (i t : ℕ) : Prop :=
  Elected (Finset.range s.servers.length) (fun v c => Voted s.log v t c) i

instance (s : State) (i t : ℕ) : Decidable (HasVotes s i t) :=
  inferInstanceAs (Decidable (Elected _ _ _))

/-- The counter of a candidate: itself and `voters`, who voted for it in its term and are not asked
any more. -/
structure Tallied (s : State) (i : ℕ) (rf : Server) (voters : List ℕ) : Prop where
  counter : rf.votes.counter = voters.length + 1
  nodup : (asking s.gos i ++ voters).Nodup
  voted : ∀ v ∈ voters, v ≠ i ∧ Voted s.log v rf.currentTerm i
  ticker : s.tickers[i]? = some .request → asking s.gos i = [] ∧ voters = []

section turn

variable {s s' : State} {i : ℕ} {rf rf' : Server} {voters : List ℕ}

theorem Tallied.of_neverStood (h : NeverStood s i rf) (hvotes : rf'.votes = rf.votes.vote)
    (hasking : asking s'.gos i = asking s.gos i) : Tallied s' i rf' [] := by
  have hnil : asking s'.gos i = [] := hasking.trans h.asking
  exact ⟨by simp [hvotes, Votes.vote, h.counter], by simp [hnil], by simp, fun _ => ⟨hnil, rfl⟩⟩

theorem Tallied.still (h : Tallied s i rf voters) (hvotes : rf'.votes = rf.votes)
    (hterm : rf'.currentTerm = rf.currentTerm) (hlog : ∀ e ∈ s.log, e ∈ s'.log)
    (hasking : ∃ l, (asking s.gos i).Perm (l ++ asking s'.gos i))
    (hticker : s'.tickers[i]? = some .request → s.tickers[i]? = some .request) :
    Tallied s' i rf' voters := by
  obtain ⟨l, hl⟩ := hasking
  refine ⟨hvotes ▸ h.counter, ?_, ?_, ?_⟩
  · have hn := (hl.append_right voters).nodup_iff.mp h.nodup
    rw [List.append_assoc] at hn
    exact hn.of_append_right
  · intro v hv
    obtain ⟨hne, hvoted⟩ := h.voted v hv
    exact ⟨hne, hterm ▸ hvoted.mono hlog⟩
  · intro ht
    obtain ⟨hnil, hvoters⟩ := h.ticker (hticker ht)
    rw [hnil, List.nil_perm, List.append_eq_nil_iff] at hl
    exact ⟨hl.2, hvoters⟩

theorem Tallied.request (h : Tallied s i rf voters) (hvotes : rf'.votes = rf.votes)
    (hasking : asking s'.gos i = asking s.gos i ++ s.peers i)
    (hticker : s.tickers[i]? = some .request) (hticker' : s'.tickers[i]? = some .check) :
    Tallied s' i rf' voters := by
  obtain ⟨hnil, rfl⟩ := h.ticker hticker
  refine ⟨hvotes ▸ h.counter, ?_, by simp, by simp [hticker']⟩
  rw [hasking, hnil, List.nil_append, List.append_nil]
  exact List.nodup_range.filter _

theorem Tallied.count (h : Tallied s i rf voters) {peer : ℕ} (hvotes : rf'.votes = rf.votes.vote)
    (hterm : rf'.currentTerm = rf.currentTerm) (hlog : ∀ e ∈ s.log, e ∈ s'.log)
    (hasking : (asking s.gos i).Perm (peer :: asking s'.gos i))
    (hticker : s'.tickers[i]? = s.tickers[i]?)
    (hpeer : peer ≠ i ∧ Voted s.log peer rf.currentTerm i) :
    Tallied s' i rf' (peer :: voters) := by
  refine ⟨by simp [hvotes, Votes.vote, h.counter], ?_, ?_, ?_⟩
  · have hn := (hasking.append_right voters).nodup_iff.mp h.nodup
    exact List.perm_middle.nodup_iff.mpr hn
  · intro v hv
    have hv : v ≠ i ∧ Voted s.log v rf.currentTerm i := by
      rcases List.mem_cons.mp hv with rfl | hv
      · exact hpeer
      · exact h.voted v hv
    exact ⟨hv.1, hterm ▸ hv.2.mono hlog⟩
  · intro ht
    rw [(h.ticker (hticker ▸ ht)).1, List.nil_perm] at hasking
    cases hasking

end turn

section run

variable {n : ℕ} {C : State → Action → Prop} {s : State}

/-- A candidate that has stood in no other term stood in its term. -/
theorem OnlyTerm.mem_stood (h : (system n).ReachableBy C s) {i : ℕ} {rf : Server}
    (hrf : s.servers[i]? = some rf) (hcand : rf.role = .candidate)
    (honly : OnlyTerm s.log i rf.currentTerm) : rf.currentTerm ∈ stood s.log i := by
  have hne : stood s.log i ≠ [] := by
    intro hnil
    cases hcand.symm.trans (reachable_neverStood h i rf hrf hnil).role
  obtain ⟨t, ht⟩ := List.exists_mem_of_ne_nil _ hne
  exact honly t ht ▸ ht

/-- The vote that a candidate counts was cast for it in its term by another server. -/
theorem voted_of_reply (h : (system n).ReachableBy C s) {i ctx peer call : ℕ}
    {args : RequestVoteArgs} {reply : RequestVoteReply} {rf : Server}
    (hrf : s.servers[i]? = some rf) (hgo : ⟨i, .voteWait ctx peer args call⟩ ∈ s.gos)
    (hp : ⟨call, .requestVote reply⟩ ∈ s.replies) (hgr : reply.voteGranted = true)
    (honly : OnlyTerm s.log i rf.currentTerm) :
    peer ≠ i ∧ Voted s.log peer rf.currentTerm i := by
  obtain ⟨hne, hid⟩ := (reachable_messagesOk h).go _ hgo
  obtain ⟨hle, t, ht, hle'⟩ := reachable_asked h _ hgo args rfl rf hrf
  have hterm : args.term = rf.currentTerm := le_antisymm hle (honly t ht ▸ hle')
  have hv := voted_of_grant ((reachable_callsOk h).granted _ _ _ _ _ hgo reply hp hgr)
  rw [hterm, hid] at hv
  exact ⟨hne, hv⟩

theorem reachable_tallied (h : (system n).ReachableBy C s) : ∀ i (rf : Server),
    s.servers[i]? = some rf → rf.role = .candidate → OnlyTerm s.log i rf.currentTerm →
      ∃ voters, Tallied s i rf voters := by
  refine h.invariant (I := fun s => ∀ i (rf : Server), s.servers[i]? = some rf →
    rf.role = .candidate → OnlyTerm s.log i rf.currentTerm → ∃ voters, Tallied s i rf voters) ?_ ?_
  · intro i rf hi hcand
    rw [init_server hi] at hcand
    cases hcand
  · intro s a s' hr ih hc hstep i rf' hi hcand honly
    have hst := State.step_cases hstep
    obtain ⟨rf, hrf, ht⟩ := hst.turn (reachable_me hr) hi
    have hlog : ∀ e ∈ s.log, e ∈ s'.log := fun e he => hst.effect.log_subset he
    cases ht with
    | still hs hstood hasking hticker =>
        have hcand₀ : rf.role = .candidate := by
          rcases hs.role with he | he
          · exact he.symm.trans hcand
          · cases hcand.symm.trans he
        -- the server stood in the term it is in now, so it was in that term before
        have hterm : rf'.currentTerm = rf.currentTerm := by
          have hmem := honly.mem_stood (.step hr hc hstep) hi hcand
          rw [hstood] at hmem
          exact le_antisymm (stood_le hr hrf hmem) hs.term
        have honly₀ : OnlyTerm s.log i rf.currentTerm := by
          rw [← hterm, OnlyTerm, ← hstood]
          exact honly
        obtain ⟨voters, hv⟩ := ih i rf hrf hcand₀ honly₀
        refine ⟨voters, hv.still hs.votes hterm hlog hasking ?_⟩
        intro htick
        refine (hticker htick).resolve_right ?_
        intro hlead
        cases hcand.symm.trans hlead
    | stand hrole hterm hvotes hstood hasking =>
        have hnil : stood s.log i = [] := by
          rw [List.eq_nil_iff_forall_not_mem]
          intro u hu
          have := stood_le hr hrf hu
          have := honly u (hstood ▸ List.mem_append_left _ hu)
          omega
        exact ⟨[], .of_neverStood (reachable_neverStood hr i rf hrf hnil) hvotes hasking⟩
    | request hrole hterm hvotes hstood hasking hticker hticker' =>
        rw [hterm, OnlyTerm, hstood] at honly
        obtain ⟨voters, hv⟩ := ih i rf hrf (hrole.symm.trans hcand) honly
        exact ⟨voters, hv.request hvotes hasking hticker hticker'⟩
    | count hgo hreply hgranted hrole hterm hvotes hstood hasking hticker =>
        rw [hterm, OnlyTerm, hstood] at honly
        have hcand₀ : rf.role = .candidate := by
          rcases hrole with he | ⟨he, -⟩
          · exact he.symm.trans hcand
          · exact he
        obtain ⟨voters, hv⟩ := ih i rf hrf hcand₀ honly
        exact ⟨_, hv.count hvotes hterm hlog hasking hticker
          (voted_of_reply hr hrf hgo hreply hgranted honly)⟩

/-! ### Promotions -/

theorem reachable_total (h : (system n).ReachableBy C s) : ∀ (i : ℕ) (rf : Server),
    s.servers[i]? = some rf → rf.votes.total = n := by
  refine h.invariant (I := fun s => ∀ (i : ℕ) (rf : Server), s.servers[i]? = some rf →
    rf.votes.total = n) ?_ ?_
  · intro i rf hi
    rw [init_server hi]
    rfl
  · intro s a s' hr ih _ hstep i rf' hi
    obtain ⟨rf, hrf, ht⟩ := (State.step_cases hstep).turn (reachable_me hr) hi
    have hold := ih i rf hrf
    cases ht with
    | still hs hstood hasking hticker => rwa [hs.votes]
    | stand hrole hterm hvotes hstood hasking => rwa [hvotes]
    | request hrole hterm hvotes hstood hasking hticker hticker' => rwa [hvotes]
    | count hgo hreply hgranted hrole hterm hvotes hstood hasking hticker => rwa [hvotes]

/-- A candidate that has stood in no other term and whose counter reaches the majority with a
granted vote has the votes of more than half of the servers. -/
theorem hasVotes_of_onlyTerm (h : (system n).ReachableBy C s) {i ctx peer call : ℕ}
    {args : RequestVoteArgs} {reply : RequestVoteReply} {rf : Server}
    (hrf : s.servers[i]? = some rf) (hgo : ⟨i, .voteWait ctx peer args call⟩ ∈ s.gos)
    (hp : ⟨call, .requestVote reply⟩ ∈ s.replies) (hgr : reply.voteGranted = true)
    (hcand : rf.role = .candidate) (honly : OnlyTerm s.log i rf.currentTerm)
    (hmaj : rf.votes.vote.hasMajority = true) : HasVotes s i rf.currentTerm := by
  obtain ⟨voters, hv⟩ := reachable_tallied h i rf hrf hcand honly
  obtain ⟨hne, hpeer⟩ := voted_of_reply h hrf hgo hp hgr honly
  have hself : Voted s.log i rf.currentTerm i :=
    voted_of_candidacy (mem_stood.mp (honly.mem_stood h hrf hcand))
  have hasked : peer ∈ asking s.gos i :=
    List.mem_filterMap.mpr ⟨_, hgo, by simp [Goroutine.asks?]⟩
  have hnew : peer ∉ voters := fun hmem => List.disjoint_of_nodup_append hv.nodup hasked hmem
  have hnodup : (i :: peer :: voters).Nodup := by
    refine List.nodup_cons.mpr ⟨?_, List.nodup_cons.mpr ⟨hnew, hv.nodup.of_append_right⟩⟩
    rw [List.mem_cons, not_or]
    exact ⟨hne.symm, fun hmem => (hv.voted i hmem).1 rfl⟩
  refine Elected.of_nodup hnodup ?_ ?_
  · have hvoted : ∀ v ∈ i :: peer :: voters, Voted s.log v rf.currentTerm i := by
      intro v hmem
      rcases List.mem_cons.mp hmem with rfl | hmem
      · exact hself
      · rcases List.mem_cons.mp hmem with rfl | hmem
        · exact hpeer
        · exact (hv.voted v hmem).2
    intro v hmem
    refine ⟨?_, hvoted v hmem⟩
    rw [Finset.mem_range, reachable_length h]
    exact (hvoted v hmem).lt h
  · rw [Finset.card_range, reachable_length h, ← reachable_total h i rf hrf]
    simpa [Votes.hasMajority, Votes.vote, hv.counter] using hmaj

end run

/-! ### Runs in which every candidate counts in one term -/

/-- If the server `i` counts a vote on the reply while it is candidate, then it has stood in no
other term than its own. -/
def CountsOnce (s : State) (i : ℕ) (rf : Server) : Reply → Prop
  | .requestVote reply => rf.role = .candidate → reply.term ≤ rf.currentTerm →
      reply.voteGranted = true → OnlyTerm s.log i rf.currentTerm
  | .appendEntries _ => True

instance (s : State) (i : ℕ) (rf : Server) : (r : Reply) → Decidable (CountsOnce s i rf r)
  | .requestVote reply => inferInstanceAs (Decidable (rf.role = .candidate →
      reply.term ≤ rf.currentTerm → reply.voteGranted = true → OnlyTerm s.log i rf.currentTerm))
  | .appendEntries _ => isTrue trivial

/-- A candidate counts votes only in the term of its first candidacy. -/
def FirstTally (s : State) : Action → Prop
  | .callTrue g k => ∀ go ∈ s.gos[g]?, ∀ p ∈ s.replies[k]?, ∀ rf ∈ s.servers[go.server]?,
      CountsOnce s go.server rf p.reply
  | _ => True

instance (s : State) : (a : Action) → Decidable (FirstTally s a)
  | .callTrue g k => inferInstanceAs (Decidable (∀ go ∈ s.gos[g]?, ∀ p ∈ s.replies[k]?,
      ∀ rf ∈ s.servers[go.server]?, CountsOnce s go.server rf p.reply))
  | .clock _ | .timeout _ _ | .elect _ | .request _ | .run _ | .deliver _ | .lose _
  | .callFalse _ => isTrue trivial

theorem Section.promoted {now : ℤ} {rf rf' : Server} {es : List Event}
    (h : Section now rf rf' es) {i t : ℕ} (he : Event.promoted i t ∈ es) :
    i = rf.me ∧ t = rf.currentTerm := by
  cases h <;> simp_all

theorem HasVotes.mono {s s' : State} {a : Action} (h : Effect s a s') {i t : ℕ}
    (hv : HasVotes s i t) : HasVotes s' i t := by
  unfold HasVotes
  rw [h.length_servers]
  exact Elected.mono hv (fun v _ hvi => hvi.mono (fun _ he => h.log_subset he))

/-- A step that promotes a server finds its votes. -/
theorem hasVotes_of_promoted {n : ℕ} {C : State → Action → Prop} {s : State} {a : Action}
    {i j t : ℕ} {rf : Server} (h : (system n).ReachableBy C s) (hc : FirstTally s a)
    (hrf : s.servers[i]? = some rf) (ho : Origin s a i rf (.promoted j t)) :
    HasVotes s i rf.currentTerm := by
  obtain ⟨g, k, ctx, peer, args, call, reply, rfl, hg, hk, hlead⟩ := ho
  obtain ⟨hcand, hterm, hgr, hmaj⟩ := rf.handleRequestVote_promoted hlead
  have honly : OnlyTerm s.log i rf.currentTerm := hc _ hg _ hk rf hrf hcand hterm hgr
  exact hasVotes_of_onlyTerm h hrf (List.mem_of_getElem? hg) (List.mem_of_getElem? hk) hgr hcand
    honly hmaj

/-- In every run in which a candidate counts votes only in the term of its first candidacy, a
server that makes itself leader has before that got the votes of more than half of the servers in
its term. -/
theorem promoted_after_majority {n : ℕ} {s : State} (h : (system n).ReachableBy FirstTally s) :
    EachEvent (fun pre e => ∀ i t, e = .promoted i t →
      Elected (Finset.range n) (fun v c => Voted pre v t c) i) s.log := by
  refine h.invariant (I := fun s => EachEvent (fun pre e => ∀ i t, e = .promoted i t →
    Elected (Finset.range n) (fun v c => Voted pre v t c) i) s.log) (EachEvent.nil _) ?_
  intro s a s' hr ih hc hstep
  cases (State.step_cases hstep).effect with
  | quiet hs hl => rwa [hl]
  | sent hs he hl =>
      rw [hl]
      refine ih.concat ?_
      rintro i t rfl
      cases he
  | @ran j rf rf' es hrf hs hl hsec ho =>
      rw [hl]
      rcases hsec.nil_or_singleton with rfl | ⟨e, rfl⟩
      · rwa [List.append_nil]
      · refine ih.concat ?_
        rintro i t rfl
        obtain ⟨hi, ht⟩ := hsec.promoted (List.mem_singleton.mpr rfl)
        rw [reachable_me hr j rf hrf] at hi
        subst hi ht
        have hv := hasVotes_of_promoted hr hc hrf (ho _ (List.mem_singleton.mpr rfl))
        unfold HasVotes at hv
        rwa [reachable_length hr] at hv

theorem promoted_after_majority_election : ∃ s, (system 3).ReachableBy FirstTally s ∧
    ∃ pre post, s.log = pre ++ Event.promoted 0 1 :: post ∧
      Elected (Finset.range 3) (fun v c => Voted pre v 1 c) 0 := by
  obtain ⟨s, hr, hs⟩ := Lts.exists_of_exec (L := system 3) (C := FirstTally)
    (p := fun s => decide (Event.promoted 0 1 ∈ s.log)) electionRun (by decide)
  obtain ⟨pre, post, hl, hP⟩ := (promoted_after_majority hr).of_mem (of_decide_eq_true hs)
  exact ⟨s, hr, pre, post, hl, hP 0 1 rfl⟩

/-- The server `0` stands in term `1` and gets the vote of `1`, but before the reply is back it
stands in term `2`. -/
def lateVoteRun : List Action :=
  [.clock 2000, .timeout 0 0, .elect 0, .request 0, .run 0, .run 0, .deliver 0, .clock 4000,
    .timeout 0 0, .elect 0, .callTrue 0 0]

/-- The late vote makes it leader in term `2`, in which nobody else has voted for it. -/
theorem promoted_without_majority : ∃ s, (system 3).Reachable s ∧
    Event.promoted 0 2 ∈ s.log ∧ ¬ HasVotes s 0 2 := by
  obtain ⟨s, hr, hs⟩ := Lts.exists_of_exec (L := system 3) (C := fun _ _ => True)
    (p := fun s => decide (Event.promoted 0 2 ∈ s.log ∧ ¬ HasVotes s 0 2)) lateVoteRun (by decide)
  exact ⟨s, hr, of_decide_eq_true hs⟩

end DistributedSystems.Raft
