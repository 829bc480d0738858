import DistributedSystems.RaftAborts
import DistributedSystems.RaftTally

/-! # Election and heartbeat loops

The goroutines of an election and of a heartbeat end when their context is cancelled.  A server has
one abort function for each of the two, which belongs to the loops that were started last, so a
loop is lost when another one takes its place or when its role is left while the function is not
set yet.

* `makeLeader` means to abort the election, but tests the role after it has set it, so the vote
  requests of the other peers go on after a promotion.
* `makeCandidate` does not abort the election before, so its vote requests go on in the next term.
* `RequestVote` takes over a newer term without leaving the role, so a candidate goes on asking for
  votes of the term before.
* A server that leaves its role before `requestVotes` or `startHeartbeat` has run starts the loops
  afterwards all the same.

In the runs without these (`Orderly`), the abort functions are those of the loops whose context is
not cancelled, and these belong to the role that the server has, so that leaving the role ends them
(`LoopInv`). -/

namespace DistributedSystems.Raft

/-! ### Loops -/

/-- The loops that a context ends: a request for a vote and the heartbeat; `start` is the goroutine
of the heartbeat before it has made its context. -/
inductive Loop where
  | vote (ctx : ℕ)
  | start
  | beat (ctx : ℕ)
deriving DecidableEq, Repr

def Task.loop : Task → Option Loop
  | .voteStart ctx _ => some (.vote ctx)
  | .voteLoop ctx _ _ => some (.vote ctx)
  | .voteWait ctx _ _ _ => some (.vote ctx)
  | .heartbeatStart => some .start
  | .heartbeatLoop ctx => some (.beat ctx)
  | .beatStart _ | .beatCall _ _ | .beatWait _ | .done => none

/-- The loop that the goroutine runs for the server `i`. -/
def Goroutine.loop (i : ℕ) (go : Goroutine) : Option Loop :=
  if go.server = i then go.task.loop else none

/-- The loop that the goroutine `g` runs for the server `i`. -/
def State.loop (s : State) (i g : ℕ) : Option Loop := s.gos[g]?.bind (Goroutine.loop i)

/-- The goroutine `g` asks for a vote, and its context is not cancelled. -/
def LiveVote (s : State) (i : ℕ) (rf : Server) (g : ℕ) : Prop :=
  match s.loop i g with
  | some (.vote ctx) => rf.cancelled ctx = false
  | _ => False

/-- The goroutine `g` runs the heartbeat, and its context is not cancelled. -/
def LiveBeat (s : State) (i : ℕ) (rf : Server) (g : ℕ) : Prop :=
  match s.loop i g with
  | some (.beat ctx) => rf.cancelled ctx = false
  | _ => False

instance (s : State) (i : ℕ) (rf : Server) (g : ℕ) : Decidable (LiveVote s i rf g) := by
  unfold LiveVote
  split <;> infer_instance

instance (s : State) (i : ℕ) (rf : Server) (g : ℕ) : Decidable (LiveBeat s i rf g) := by
  unfold LiveBeat
  split <;> infer_instance

theorem liveVote_iff {s : State} {i : ℕ} {rf : Server} {g : ℕ} :
    LiveVote s i rf g ↔ ∃ ctx, s.loop i g = some (.vote ctx) ∧ rf.cancelled ctx = false := by
  unfold LiveVote
  split
  · rename_i ctx hl
    simp [hl]
  · rename_i hne
    simp only [false_iff, not_exists, not_and]
    intro ctx hl
    exact absurd hl (hne ctx)

theorem liveBeat_iff {s : State} {i : ℕ} {rf : Server} {g : ℕ} :
    LiveBeat s i rf g ↔ ∃ ctx, s.loop i g = some (.beat ctx) ∧ rf.cancelled ctx = false := by
  unfold LiveBeat
  split
  · rename_i ctx hl
    simp [hl]
  · rename_i hne
    simp only [false_iff, not_exists, not_and]
    intro ctx hl
    exact absurd hl (hne ctx)

theorem State.lt_of_loop {s : State} {i g : ℕ} {l : Loop} (h : s.loop i g = some l) :
    g < s.gos.length := by
  obtain ⟨go, hg, -⟩ := Option.bind_eq_some_iff.mp h
  exact (List.getElem?_eq_some_iff.mp hg).1

/-! ### Runs without lost loops -/

/-- No request for a vote of the server `i` goes on. -/
def Quiet (s : State) (i : ℕ) (rf : Server) : Prop := ∀ g < s.gos.length, ¬ LiveVote s i rf g

/-- The loops of the role have been started. -/
def Settled (s : State) (i : ℕ) : Role → Prop
  | .follower => True
  | .candidate => s.tickers[i]? ≠ some .request
  | .leader => ⟨i, .heartbeatStart⟩ ∉ s.gos

/-- A candidate grants a vote in a newer term. -/
def Server.Yields (rf : Server) : Msg → Prop
  | .requestVote args => rf.role = .candidate ∧ rf.currentTerm < args.term
  | .appendEntries _ => False

/-- The reply makes a candidate leader. -/
def Server.Wins (rf : Server) : Reply → Prop
  | .requestVote reply => rf.role = .candidate ∧ reply.term ≤ rf.currentTerm ∧
      reply.voteGranted = true ∧ rf.votes.vote.hasMajority = true
  | .appendEntries _ => False

/-- A server stands only when its last election is over, is promoted only when no other of its
requests for a vote goes on, grants a vote in a newer term only when it is not in an election, and
leaves its role only when the loops of the role have been started. -/
def Orderly (s : State) : Action → Prop
  | .elect i => ∀ rf ∈ s.servers[i]?, Quiet s i rf ∧ (rf.role = .leader → Settled s i .leader)
  | .deliver k => ∀ q ∈ s.requests[k]?, ∀ rf ∈ s.servers[q.dest]?,
      (rf.Yields q.msg → Quiet s q.dest rf ∧ Settled s q.dest .candidate) ∧
      (rf.MakesFollower (.request q.msg) → Settled s q.dest rf.role)
  | .callTrue g k => ∀ go ∈ s.gos[g]?, ∀ p ∈ s.replies[k]?, ∀ rf ∈ s.servers[go.server]?,
      (rf.Wins p.reply → Settled s go.server .candidate ∧
        ∀ g' < s.gos.length, g' ≠ g → ¬ LiveVote s go.server rf g') ∧
      (rf.MakesFollower (.reply p.reply) → Settled s go.server rf.role)
  | _ => True

instance (s : State) (i : ℕ) (rf : Server) : Decidable (Quiet s i rf) :=
  inferInstanceAs (Decidable (∀ g < s.gos.length, _))

instance (s : State) (i : ℕ) : (role : Role) → Decidable (Settled s i role)
  | .follower => isTrue trivial
  | .candidate => inferInstanceAs (Decidable (s.tickers[i]? ≠ some .request))
  | .leader => inferInstanceAs (Decidable (⟨i, .heartbeatStart⟩ ∉ s.gos))

instance (rf : Server) : (msg : Msg) → Decidable (rf.Yields msg)
  | .requestVote args =>
      inferInstanceAs (Decidable (rf.role = .candidate ∧ rf.currentTerm < args.term))
  | .appendEntries _ => isFalse id

instance (rf : Server) : (reply : Reply) → Decidable (rf.Wins reply)
  | .requestVote _ => inferInstanceAs (Decidable (rf.role = .candidate ∧ _))
  | .appendEntries _ => isFalse id

instance (s : State) : (a : Action) → Decidable (Orderly s a)
  | .elect i => inferInstanceAs (Decidable (∀ rf ∈ s.servers[i]?, _))
  | .deliver k => inferInstanceAs (Decidable (∀ q ∈ s.requests[k]?, ∀ rf ∈ s.servers[q.dest]?, _))
  | .callTrue g k => inferInstanceAs (Decidable (∀ go ∈ s.gos[g]?, ∀ p ∈ s.replies[k]?,
      ∀ rf ∈ s.servers[go.server]?, _))
  | .clock _ | .timeout _ _ | .request _ | .run _ | .lose _ | .callFalse _ => isTrue trivial

theorem Quiet.cancelled {s : State} {i : ℕ} {rf : Server} (h : Quiet s i rf) {g ctx : ℕ}
    (hl : s.loop i g = some (.vote ctx)) : rf.cancelled ctx = true := by
  by_contra hc
  exact h g (State.lt_of_loop hl) (liveVote_iff.mpr ⟨ctx, hl, Bool.eq_false_of_not_eq_true hc⟩)

theorem Settled.loop_ne_start {s : State} {i : ℕ} (h : Settled s i .leader) (g : ℕ) :
    s.loop i g ≠ some .start := by
  intro hl
  obtain ⟨⟨j, task⟩, hg, hl⟩ := Option.bind_eq_some_iff.mp hl
  unfold Goroutine.loop at hl
  split_ifs at hl with hj
  dsimp only at hj hl
  subst hj
  have htask : task = .heartbeatStart := by
    cases task <;> simp [Task.loop] at hl
    rfl
  exact h (List.mem_of_getElem? (htask ▸ hg))

/-! ### The invariant -/

/-- The server is candidate in the term in which it stood last. -/
def Standing (s : State) (i : ℕ) (rf : Server) : Prop :=
  rf.role = .candidate ∧ (stood s.log i).getLast? = some rf.currentTerm

/-- The goroutine `g` runs the heartbeat or is about to. -/
def Leading (s : State) (i : ℕ) (rf : Server) (g : ℕ) : Prop :=
  s.loop i g = some .start ∨ ∃ ctx, s.loop i g = some (.beat ctx) ∧ rf.cancelled ctx = false

/-- The loops that go on belong to the role of the server, and its abort functions end them. -/
structure LoopInv (s : State) (i : ℕ) (rf : Server) : Prop where
  electionBound : ∀ ctx, rf.abortElection = some ctx → ctx < rf.contexts.length
  heartbeatBound : ∀ ctx, rf.abortHeartbeat = some ctx → ctx < rf.contexts.length
  votes : ∀ g ctx, s.loop i g = some (.vote ctx) → rf.cancelled ctx = false →
    Standing s i rf ∧ rf.abortElection = some ctx
  request : s.tickers[i]? = some .request → Standing s i rf ∧
    ∀ g ctx, s.loop i g = some (.vote ctx) → rf.cancelled ctx = true
  beats : ∀ g ctx, s.loop i g = some (.beat ctx) → rf.cancelled ctx = false →
    rf.abortHeartbeat = some ctx
  leads : ∀ g, Leading s i rf g → rf.role = .leader
  one : ∀ g g', Leading s i rf g → Leading s i rf g' → g = g'

/-- A step that starts no loop and no election of the server `i`. -/
structure Rest (s s' : State) (i : ℕ) : Prop where
  loops : ∀ g l, s'.loop i g = some l → s.loop i g = some l
  ticker : s'.tickers[i]? = some .request → s.tickers[i]? = some .request
  log : stood s'.log i = stood s.log i

namespace Server

variable {rf : Server}

theorem call_contexts_length (rf : Server) (f : Option ℕ) :
    (rf.call f).contexts.length = rf.contexts.length := by
  cases f <;> simp [call]

theorem cancelled_call_self {ctx : ℕ} (h : ctx < rf.contexts.length) :
    (rf.call (some ctx)).cancelled ctx = true := by
  simp [cancelled, call, List.getD_eq_getElem?_getD, h]

theorem makeFollower_contexts_length (rf : Server) (t : ℕ) :
    (rf.makeFollower t).contexts.length = rf.contexts.length := by
  unfold makeFollower
  cases rf.role with
  | follower => rfl
  | candidate => exact call_contexts_length _ _
  | leader => exact call_contexts_length _ _

/-- A candidate that is demoted ends its election. -/
theorem cancelled_of_demoted_candidate {ctx : ℕ} (hr : rf.role = .candidate)
    (hf : rf.abortElection = some ctx) (h : ctx < rf.contexts.length) (t : ℕ) :
    (rf.makeFollower t).cancelled ctx = true := by
  simp only [makeFollower, hr, hf]
  exact cancelled_call_self h

/-- A leader that is demoted ends its heartbeat. -/
theorem cancelled_of_demoted_leader {ctx : ℕ} (hr : rf.role = .leader)
    (hf : rf.abortHeartbeat = some ctx) (h : ctx < rf.contexts.length) (t : ℕ) :
    (rf.makeFollower t).cancelled ctx = true := by
  simp only [makeFollower, hr, hf]
  exact cancelled_call_self h

/-- What `makeCandidate` leaves of the contexts and of the abort functions. -/
structure Stands (rf rf' : Server) : Prop where
  role : rf'.role = .candidate
  term : rf'.currentTerm = rf.currentTerm + 1
  election : rf'.abortElection = rf.abortElection
  heartbeat : rf'.abortHeartbeat = rf.abortHeartbeat
  contexts : rf'.contexts =
    if rf.role = .leader then (rf.call rf.abortHeartbeat).contexts else rf.contexts

theorem makeCandidate_stands {now : ℤ} (h : (rf.makeCandidate now).panicked = false) :
    rf.Stands (rf.makeCandidate now) := by
  unfold makeCandidate at h ⊢
  dsimp only at h ⊢
  split_ifs at h ⊢ with hl hp hp
  · cases h.symm.trans hp
  · exact ⟨rfl, by simp, by simp, by simp, by simp [hl]⟩
  · cases h.symm.trans hp
  · exact ⟨rfl, rfl, rfl, rfl, by simp [hl]⟩

theorem Stands.contexts_length {rf' : Server} (h : rf.Stands rf') :
    rf'.contexts.length = rf.contexts.length := by
  rw [h.contexts]
  split_ifs
  · exact call_contexts_length _ _
  · rfl

theorem Stands.cancelled {rf' : Server} (h : rf.Stands rf') {ctx : ℕ}
    (hc : rf.cancelled ctx = true) : rf'.cancelled ctx = true := by
  unfold Server.cancelled
  rw [h.contexts]
  split_ifs
  · exact rf.cancelled_call _ hc
  · exact hc

theorem newContext_cancelled {ctx : ℕ} (h : rf.newContext.1.cancelled ctx = false) :
    rf.cancelled ctx = false := by
  unfold cancelled newContext at *
  by_cases hlt : ctx < rf.contexts.length
  · rwa [List.getD_append _ _ _ _ hlt] at h
  · rw [List.getD_eq_default _ _ (by omega)]

end Server

section

variable {s s' : State} {i : ℕ} {rf rf' : Server}

theorem Leading.mono (hloops : ∀ g l, s'.loop i g = some l → s.loop i g = some l)
    (hlive : ∀ ctx, rf'.cancelled ctx = false → rf.cancelled ctx = false) {g : ℕ}
    (h : Leading s' i rf' g) : Leading s i rf g := by
  rcases h with h | ⟨ctx, h, hc⟩
  · exact Or.inl (hloops g _ h)
  · exact Or.inr ⟨ctx, hloops g _ h, hlive ctx hc⟩

/-- All loops have ended; the next election may be about to start. -/
theorem LoopInv.of_ended (helection : ∀ ctx, rf.abortElection = some ctx → ctx < rf.contexts.length)
    (hheartbeat : ∀ ctx, rf.abortHeartbeat = some ctx → ctx < rf.contexts.length)
    (hvotes : ∀ g ctx, s.loop i g = some (.vote ctx) → rf.cancelled ctx = true)
    (hleads : ∀ g, ¬ Leading s i rf g)
    (hticker : s.tickers[i]? = some .request → Standing s i rf) : LoopInv s i rf where
  electionBound := helection
  heartbeatBound := hheartbeat
  votes := by
    intro g ctx hl hc
    cases hc.symm.trans (hvotes g ctx hl)
  request := fun ht => ⟨hticker ht, hvotes⟩
  beats := by
    intro g ctx hl hc
    exact absurd (Or.inr ⟨ctx, hl, hc⟩) (hleads g)
  leads := fun g hg => absurd hg (hleads g)
  one := fun g _ hg => absurd hg (hleads g)

/-- The server changes nothing that its loops depend on. -/
theorem LoopInv.still (h : LoopInv s i rf) (hrest : Rest s s' i) (hrole : rf'.role = rf.role)
    (hterm : rf'.currentTerm = rf.currentTerm) (hcontexts : rf'.contexts = rf.contexts)
    (helection : rf'.abortElection = rf.abortElection)
    (hheartbeat : rf'.abortHeartbeat = rf.abortHeartbeat) : LoopInv s' i rf' := by
  have hstanding : Standing s i rf → Standing s' i rf' := by
    rintro ⟨hr, hlast⟩
    exact ⟨hrole.trans hr, by rw [hrest.log, hterm, hlast]⟩
  have hcancelled : ∀ ctx, rf'.cancelled ctx = rf.cancelled ctx := by
    intro ctx
    rw [Server.cancelled, hcontexts, Server.cancelled]
  have hlead : ∀ g, Leading s' i rf' g → Leading s i rf g :=
    fun g hg => hg.mono hrest.loops (fun ctx hc => (hcancelled ctx).symm.trans hc)
  constructor
  · rw [helection, hcontexts]
    exact h.electionBound
  · rw [hheartbeat, hcontexts]
    exact h.heartbeatBound
  · intro g ctx hl hc
    rw [hcancelled] at hc
    obtain ⟨hs, hf⟩ := h.votes g ctx (hrest.loops g _ hl) hc
    exact ⟨hstanding hs, helection.trans hf⟩
  · intro ht
    obtain ⟨hs, hend⟩ := h.request (hrest.ticker ht)
    refine ⟨hstanding hs, ?_⟩
    intro g ctx hl
    rw [hcancelled]
    exact hend g ctx (hrest.loops g _ hl)
  · intro g ctx hl hc
    rw [hcancelled] at hc
    exact hheartbeat.trans (h.beats g ctx (hrest.loops g _ hl) hc)
  · intro g hg
    exact hrole.trans (h.leads g (hlead g hg))
  · intro g g' hg hg'
    exact h.one g g' (hlead g hg) (hlead g' hg')

/-- A server that leaves its role ends its loops. -/
theorem LoopInv.demote (h : LoopInv s i rf) (hs : Settled s i rf.role) (hrest : Rest s s' i)
    (t : ℕ) (checkpoint : ℤ) :
    LoopInv s' i { rf.makeFollower t with checkpoint := checkpoint } := by
  have hlive : ∀ ctx, (rf.makeFollower t).cancelled ctx = false → rf.cancelled ctx = false := by
    intro ctx hc
    by_contra hne
    cases hc.symm.trans (rf.cancelled_makeFollower t (Bool.eq_true_of_not_eq_false hne))
  refine .of_ended ?_ ?_ ?_ ?_ ?_
  · dsimp only
    rw [rf.makeFollower_abortElection, rf.makeFollower_contexts_length]
    exact h.electionBound
  · dsimp only
    rw [rf.makeFollower_abortHeartbeat, rf.makeFollower_contexts_length]
    exact h.heartbeatBound
  · intro g ctx hl
    by_contra hc
    have hc := Bool.eq_false_of_not_eq_true hc
    obtain ⟨⟨hr, -⟩, hf⟩ := h.votes g ctx (hrest.loops g _ hl) (hlive ctx hc)
    cases hc.symm.trans (Server.cancelled_of_demoted_candidate hr hf (h.electionBound ctx hf) t)
  · intro g hg
    have hold : Leading s i rf g := hg.mono hrest.loops hlive
    have hr := h.leads g hold
    rw [hr] at hs
    rcases hg with hl | ⟨ctx, hl, hc⟩
    · exact hs.loop_ne_start g (hrest.loops g _ hl)
    · have hf := h.beats g ctx (hrest.loops g _ hl) (hlive ctx hc)
      cases hc.symm.trans (Server.cancelled_of_demoted_leader hr hf (h.heartbeatBound ctx hf) t)
  · intro ht
    have ht := hrest.ticker ht
    have hr := (h.request ht).1.1
    rw [hr] at hs
    exact absurd ht hs

/-- A server that is not in an election takes over a newer term. -/
theorem LoopInv.adopt (h : LoopInv s i rf) (hrest : Rest s s' i)
    (hyield : rf.role = .candidate → Quiet s i rf ∧ Settled s i .candidate) {t : ℕ}
    {votedFor : Option ℕ} {checkpoint : ℤ} :
    LoopInv s' i { rf with votedFor, currentTerm := t, checkpoint } := by
  constructor
  · exact h.electionBound
  · exact h.heartbeatBound
  · intro g ctx hl hc
    have hl := hrest.loops g _ hl
    have hr := (h.votes g ctx hl hc).1.1
    cases hc.symm.trans ((hyield hr).1.cancelled hl)
  · intro ht
    have ht := hrest.ticker ht
    exact absurd ht (hyield (h.request ht).1.1).2
  · intro g ctx hl hc
    exact h.beats g ctx (hrest.loops g _ hl) hc
  · intro g hg
    exact h.leads g (hg.mono hrest.loops (fun _ hc => hc))
  · intro g g' hg hg'
    exact h.one g g' (hg.mono hrest.loops (fun _ hc => hc)) (hg'.mono hrest.loops (fun _ hc => hc))

/-- A server stands when its last election is over; a leader ends its heartbeat before. -/
theorem LoopInv.stand (h : LoopInv s i rf) (hquiet : Quiet s i rf)
    (hsettled : rf.role = .leader → Settled s i .leader) (hstands : rf.Stands rf')
    (hloops : ∀ g l, s'.loop i g = some l → s.loop i g = some l)
    (hlast : (stood s'.log i).getLast? = some rf'.currentTerm) : LoopInv s' i rf' := by
  refine .of_ended ?_ ?_ ?_ ?_ ?_
  · rw [hstands.election, hstands.contexts_length]
    exact h.electionBound
  · rw [hstands.heartbeat, hstands.contexts_length]
    exact h.heartbeatBound
  · intro g ctx hl
    exact hstands.cancelled (hquiet.cancelled (hloops g _ hl))
  · intro g hg
    have hlive : ∀ ctx, rf'.cancelled ctx = false → rf.cancelled ctx = false := by
      intro ctx hc
      by_contra hne
      cases hc.symm.trans (hstands.cancelled (Bool.eq_true_of_not_eq_false hne))
    have hr := h.leads g (hg.mono hloops hlive)
    rcases hg with hl | ⟨ctx, hl, hc⟩
    · exact (hsettled hr).loop_ne_start g (hloops g _ hl)
    · have hf := h.beats g ctx (hloops g _ hl) (hlive ctx hc)
      have hend : (rf.call (some ctx)).cancelled ctx = true :=
        Server.cancelled_call_self (h.heartbeatBound ctx hf)
      have hcontexts := hstands.contexts
      rw [if_pos hr, hf] at hcontexts
      rw [Server.cancelled, hcontexts] at hc
      cases hc.symm.trans hend
  · intro _
    exact ⟨hstands.role, hlast⟩

/-- `requestVotes` starts the requests of the election. -/
theorem LoopInv.newElection (h : LoopInv s i rf) (ht : s.tickers[i]? = some .request)
    (ht' : s'.tickers[i]? ≠ some .request) (hstood : stood s'.log i = stood s.log i)
    (hloops : ∀ g l, s'.loop i g = some l →
      s.loop i g = some l ∨ l = .vote rf.contexts.length) :
    LoopInv s' i { rf.newContext.1 with abortElection := some rf.newContext.2 } := by
  obtain ⟨⟨hr, hlast⟩, hend⟩ := h.request ht
  have hlead : ∀ g, ¬ Leading s' i
      { rf.newContext.1 with abortElection := some rf.newContext.2 } g := by
    rintro g (hl | ⟨ctx, hl, hc⟩)
    · rcases hloops g _ hl with hl | hl
      · cases hr.symm.trans (h.leads g (Or.inl hl))
      · cases hl
    · rcases hloops g _ hl with hl | hl
      · cases hr.symm.trans (h.leads g (Or.inr ⟨ctx, hl, Server.newContext_cancelled hc⟩))
      · cases hl
  constructor
  · intro ctx hf
    cases hf
    simp [Server.newContext]
  · intro ctx hf
    have hlt := h.heartbeatBound ctx hf
    simp only [Server.newContext, List.length_append, List.length_singleton]
    omega
  · intro g ctx hl hc
    rcases hloops g _ hl with hl | hl
    · cases (hend g ctx hl).symm.trans (Server.newContext_cancelled hc)
    · cases hl
      exact ⟨⟨hr, by rw [hstood, hlast]; rfl⟩, rfl⟩
  · intro ht
    exact absurd ht ht'
  · intro g ctx hl hc
    exact absurd (Or.inr ⟨ctx, hl, hc⟩) (hlead g)
  · intro g hg
    exact absurd hg (hlead g)
  · intro g g' hg
    exact absurd hg (hlead g)

/-- `startHeartbeat` makes the context of its loop. -/
theorem LoopInv.newHeartbeat (h : LoopInv s i rf) {g₀ : ℕ} (hg₀ : s.loop i g₀ = some .start)
    (hticker : s'.tickers[i]? = some .request → s.tickers[i]? = some .request)
    (hloops : ∀ g l, s'.loop i g = some l →
      (g = g₀ ∧ l = .beat rf.contexts.length) ∨ (g ≠ g₀ ∧ s.loop i g = some l)) :
    LoopInv s' i { rf.newContext.1 with abortHeartbeat := some rf.newContext.2 } := by
  have hr := h.leads g₀ (Or.inl hg₀)
  have hlead : ∀ g, Leading s' i
      { rf.newContext.1 with abortHeartbeat := some rf.newContext.2 } g → g = g₀ := by
    rintro g (hl | ⟨ctx, hl, hc⟩)
    · rcases hloops g _ hl with ⟨rfl, -⟩ | ⟨-, hl⟩
      · rfl
      · exact h.one g g₀ (Or.inl hl) (Or.inl hg₀)
    · rcases hloops g _ hl with ⟨rfl, -⟩ | ⟨-, hl⟩
      · rfl
      · exact h.one g g₀ (Or.inr ⟨ctx, hl, Server.newContext_cancelled hc⟩) (Or.inl hg₀)
  constructor
  · intro ctx hf
    have hlt := h.electionBound ctx hf
    simp only [Server.newContext, List.length_append, List.length_singleton]
    omega
  · intro ctx hf
    cases hf
    simp [Server.newContext]
  · intro g ctx hl hc
    rcases hloops g _ hl with ⟨-, hl⟩ | ⟨-, hl⟩
    · cases hl
    · have hs := (h.votes g ctx hl (Server.newContext_cancelled hc)).1.1
      cases hr.symm.trans hs
  · intro ht
    cases hr.symm.trans (h.request (hticker ht)).1.1
  · intro g ctx hl hc
    rcases hloops g _ hl with ⟨-, hl⟩ | ⟨hne, hl⟩
    · cases hl
      rfl
    · exact absurd (hlead g (Or.inr ⟨ctx, by assumption, hc⟩)) hne
  · intro g _
    exact hr
  · intro g g' hg hg'
    rw [hlead g hg, hlead g' hg']

/-- A candidate is promoted by its last request. -/
theorem LoopInv.promote (h : LoopInv s i rf) (hr : rf.role = .candidate)
    (hs : Settled s i .candidate) {g₀ : ℕ}
    (hlast : ∀ g < s.gos.length, g ≠ g₀ → ¬ LiveVote s i rf g)
    (hticker : s'.tickers[i]? = some .request → s.tickers[i]? = some .request)
    (hloops : ∀ g l, s'.loop i g = some l →
      (g = s.gos.length ∧ l = .start) ∨ (g ≠ g₀ ∧ s.loop i g = some l)) {votes : Votes} :
    LoopInv s' i { rf with votes, role := .leader } := by
  have hlead : ∀ g, Leading s' i { rf with votes, role := .leader } g → g = s.gos.length := by
    rintro g (hl | ⟨ctx, hl, hc⟩)
    · rcases hloops g _ hl with ⟨hg, -⟩ | ⟨-, hl⟩
      · exact hg
      · cases hr.symm.trans (h.leads g (Or.inl hl))
    · rcases hloops g _ hl with ⟨-, hl⟩ | ⟨-, hl⟩
      · cases hl
      · cases hr.symm.trans (h.leads g (Or.inr ⟨ctx, hl, hc⟩))
  constructor
  · exact h.electionBound
  · exact h.heartbeatBound
  · intro g ctx hl hc
    rcases hloops g _ hl with ⟨-, hl⟩ | ⟨hne, hl⟩
    · cases hl
    · exact absurd (liveVote_iff.mpr ⟨ctx, hl, hc⟩) (hlast g (State.lt_of_loop hl) hne)
  · intro ht
    exact absurd (hticker ht) hs
  · intro g ctx hl hc
    rcases hloops g _ hl with ⟨-, hl⟩ | ⟨-, hl⟩
    · cases hl
    · cases hr.symm.trans (h.leads g (Or.inr ⟨ctx, hl, hc⟩))
  · intro g _
    rfl
  · intro g g' hg hg'
    rw [hlead g hg, hlead g' hg']

/-! ### The handlers -/

theorem LoopInv.requestVote (h : LoopInv s i rf) (hrest : Rest s s' i) {args : RequestVoteArgs}
    (hyield : rf.Yields (.requestVote args) → Quiet s i rf ∧ Settled s i .candidate) (now : ℤ) :
    LoopInv s' i (rf.requestVote args now).1 := by
  unfold Server.requestVote
  split_ifs with hlt hvoted
  · exact h.still hrest rfl rfl rfl rfl rfl
  · exact h.still hrest rfl rfl rfl rfl rfl
  · rcases (Nat.le_of_not_lt hlt).lt_or_eq with hnew | hsame
    · exact h.adopt hrest (fun hr => hyield ⟨hr, hnew⟩)
    · exact h.still hrest rfl hsame.symm rfl rfl rfl

theorem LoopInv.appendEntries (h : LoopInv s i rf) (hrest : Rest s s' i) {args : AppendEntriesArgs}
    (hs : rf.currentTerm ≤ args.term → Settled s i rf.role) (now : ℤ) :
    LoopInv s' i (rf.appendEntries args now).1 := by
  unfold Server.appendEntries
  split_ifs with hlt
  · exact h.still hrest rfl rfl rfl rfl rfl
  · have hs := hs (Nat.le_of_not_lt hlt)
    dsimp only
    split_ifs
    · exact h.demote hs hrest _ (rf.makeFollower rf.currentTerm).checkpoint
    · exact h.demote hs hrest _ now

theorem LoopInv.handleAppendEntries (h : LoopInv s i rf) (hrest : Rest s s' i)
    {reply : AppendEntriesReply} (hs : rf.currentTerm < reply.term → Settled s i rf.role) :
    LoopInv s' i (rf.handleAppendEntries reply) := by
  unfold Server.handleAppendEntries
  split_ifs with hlt
  · exact h.demote (hs hlt) hrest _ (rf.makeFollower reply.term).checkpoint
  · exact h.still hrest rfl rfl rfl rfl rfl

/-- A reply that does not make the server leader. -/
theorem LoopInv.handleRequestVote (h : LoopInv s i rf) (hrest : Rest s s' i)
    {reply : RequestVoteReply} (hs : rf.currentTerm < reply.term → Settled s i rf.role)
    (hlost : (rf.handleRequestVote reply).2 = false) :
    LoopInv s' i (rf.handleRequestVote reply).1 := by
  unfold Server.handleRequestVote at hlost ⊢
  split_ifs at hlost ⊢ with hlt hgranted
  · exact h.demote (hs hlt) hrest _ (rf.makeFollower reply.term).checkpoint
  · dsimp only at hlost ⊢
    split_ifs at hlost ⊢
    exact h.still hrest rfl rfl rfl rfl rfl
  · exact h.still hrest rfl rfl rfl rfl rfl

theorem Server.handleRequestVote_won {reply : RequestVoteReply}
    (h : (rf.handleRequestVote reply).2 = true) : rf.Wins (.requestVote reply) ∧
      (rf.handleRequestVote reply).1 = { rf with votes := rf.votes.vote, role := .leader } := by
  obtain ⟨hr, hle, hgranted, hm⟩ := rf.handleRequestVote_promoted h
  refine ⟨⟨hr, hle, hgranted, hm⟩, ?_⟩
  simp [Server.handleRequestVote, hle.not_gt, hgranted, hm, hr]

end

/-! ### The loops of a step -/

section

variable {s s' : State} {i g₀ : ℕ} {go go' : Goroutine}

theorem loop_of_set (hgos : s'.gos = s.gos.set g₀ go') {g : ℕ} {l : Loop}
    (h : s'.loop i g = some l) :
    (g = g₀ ∧ go'.loop i = some l) ∨ (g ≠ g₀ ∧ s.loop i g = some l) := by
  obtain ⟨x, hx, hl⟩ := Option.bind_eq_some_iff.mp h
  rw [hgos] at hx
  rcases getElem?_set_cases hx with ⟨rfl, rfl⟩ | ⟨hne, hx⟩
  · exact Or.inl ⟨rfl, hl⟩
  · exact Or.inr ⟨hne, Option.bind_eq_some_iff.mpr ⟨x, hx, hl⟩⟩

theorem loop_of_append {new : List Goroutine} (hgos : s'.gos = s.gos ++ new) {g : ℕ} {l : Loop}
    (h : s'.loop i g = some l) :
    s.loop i g = some l ∨ (s.gos.length ≤ g ∧ ∃ go, new[g - s.gos.length]? = some go ∧
      go.loop i = some l) := by
  obtain ⟨x, hx, hl⟩ := Option.bind_eq_some_iff.mp h
  rw [hgos, List.getElem?_append] at hx
  split_ifs at hx with hlt
  · exact Or.inl (Option.bind_eq_some_iff.mpr ⟨x, hx, hl⟩)
  · exact Or.inr ⟨Nat.le_of_not_lt hlt, x, hx, hl⟩

/-- A goroutine goes on with its loop or has none any more. -/
theorem loops_of_set (hgos : s'.gos = s.gos.set g₀ go') (hg : s.gos[g₀]? = some go)
    (hgo : ∀ l, go'.loop i = some l → go.loop i = some l) :
    ∀ g l, s'.loop i g = some l → s.loop i g = some l := by
  intro g l h
  rcases loop_of_set hgos h with ⟨rfl, hl⟩ | ⟨-, hl⟩
  · exact Option.bind_eq_some_iff.mpr ⟨go, hg, hgo l hl⟩
  · exact hl

theorem loops_of_append {new : List Goroutine} (hgos : s'.gos = s.gos ++ new)
    (hnew : ∀ go ∈ new, go.loop i = none) : ∀ g l, s'.loop i g = some l → s.loop i g = some l := by
  intro g l h
  rcases loop_of_append hgos h with hl | ⟨-, go, hgo, hl⟩
  · exact hl
  · cases (hnew go (List.mem_of_getElem? hgo)).symm.trans hl

theorem Goroutine.loop_of_ne {j : ℕ} {task : Task} (h : i ≠ j) :
    Goroutine.loop i ⟨j, task⟩ = none := if_neg (fun he => h he.symm)

theorem Goroutine.loop_self (task : Task) : Goroutine.loop i ⟨i, task⟩ = task.loop := if_pos rfl

theorem Goroutine.loop_of_none (j : ℕ) {task : Task} (h : task.loop = none) :
    Goroutine.loop i ⟨j, task⟩ = none := by
  unfold Goroutine.loop
  split_ifs
  · exact h
  · rfl

/-- A goroutine that goes on with its loop or ends it starts nothing. -/
theorem Rest.of_set (hgos : s'.gos = s.gos.set g₀ go') (hg : s.gos[g₀]? = some go)
    (hgo : ∀ l, go'.loop i = some l → go.loop i = some l) (hticker : s'.tickers = s.tickers)
    (hstood : stood s'.log i = stood s.log i) : Rest s s' i :=
  ⟨loops_of_set hgos hg hgo, fun ht => hticker ▸ ht, hstood⟩

theorem Rest.of_eq (hgos : s'.gos = s.gos) (hticker : s'.tickers = s.tickers)
    (hstood : stood s'.log i = stood s.log i) : Rest s s' i := by
  refine ⟨?_, fun ht => hticker ▸ ht, hstood⟩
  intro g l h
  rwa [State.loop, hgos] at h

/-- After a reply the goroutine is done, and a promotion starts the one of the heartbeat. -/
theorem loop_of_handleRequestVote {g j g' : ℕ} {rf : Server} {reply : RequestVoteReply} {l : Loop}
    (hl : (s.handleRequestVote g j rf reply).loop i g' = some l) :
    (g' = s.gos.length ∧ l = .start ∧ i = j ∧ (rf.handleRequestVote reply).2 = true) ∨
      (g' ≠ g ∧ s.loop i g' = some l) := by
  rcases loop_of_append (s := s.become g ⟨j, .done⟩) rfl hl with hl | ⟨hle, go, hgo, hl⟩
  · rcases loop_of_set (s := s) rfl hl with ⟨-, hl⟩ | hl
    · cases (Goroutine.loop_of_none j rfl).symm.trans hl
    · exact Or.inr hl
  · rw [State.become_gos, List.length_set] at hle hgo
    split_ifs at hgo with hwon
    · have hlt := (List.getElem?_eq_some_iff.mp hgo).1
      rw [List.length_singleton] at hlt
      have hg' : g' = s.gos.length := by omega
      rw [hg', Nat.sub_self] at hgo
      cases hgo
      unfold Goroutine.loop at hl
      split_ifs at hl with hij
      cases hl
      exact Or.inl ⟨hg', rfl, hij.symm, hwon⟩
    · cases hgo

end

/-! ### Steps and runs -/

/-- The invariant of the servers that have not panicked. -/
def LoopsOk (s : State) : Prop :=
  ∀ (i : ℕ) (rf : Server), s.servers[i]? = some rf → rf.panicked = false → LoopInv s i rf

section

variable {s s' : State}

/-- A step in which the server `i` does nothing. -/
theorem LoopsOk.idle (h : LoopsOk s) {i : ℕ} {rf : Server} (hi : s.servers[i]? = some rf)
    (hp : rf.panicked = false) (hrest : Rest s s' i) : LoopInv s' i rf :=
  (h i rf hi hp).still hrest rfl rfl rfl rfl rfl

theorem LoopsOk.alive (h : LoopsOk s) {i : ℕ} {rf : Server} (hrf : s.alive i = some rf) :
    LoopInv s i rf :=
  h i rf (State.getElem?_of_alive hrf) (State.not_panicked_of_alive hrf)

theorem LoopsOk.elect (h : LoopsOk s) (hme : ∀ i (rf : Server), s.servers[i]? = some rf → rf.me = i)
    {j : ℕ} {rf : Server} (hrf : s.alive j = some rf) (hc : Orderly s (.elect j)) :
    LoopsOk (s.makeCandidate j rf) := by
  intro i rf' hi hp
  have hj := State.getElem?_of_alive hrf
  have hgos : ∀ g l, (s.makeCandidate j rf).loop i g = some l → s.loop i g = some l :=
    fun g l hl => hl
  rcases getElem?_set_cases hi with ⟨rfl, rfl⟩ | ⟨hij, hi⟩
  · obtain ⟨hquiet, hsettled⟩ := hc rf hj
    have hstands := Server.makeCandidate_stands hp
    refine (h.alive hrf).stand hquiet hsettled hstands hgos ?_
    rw [stood_makeCandidate_self (hme _ _ hj) hp, hstands.term, List.getLast?_concat]
  · refine h.idle hi hp ⟨hgos, ?_, stood_makeCandidate_of_ne (hme _ _ hj) hij⟩
    exact State.request_of_tick (fun he => absurd he hij)

theorem LoopsOk.request (h : LoopsOk s) {j : ℕ} {rf : Server} (hrf : s.alive j = some rf)
    (ht : s.tickers[j]? = some .request) : LoopsOk (s.requestVotes j rf) := by
  intro i rf' hi hp
  have hlog : stood (s.requestVotes j rf).log i = stood s.log i := stood_append_nil s.log i
  rcases getElem?_set_cases hi with ⟨rfl, rfl⟩ | ⟨hij, hi⟩
  · refine (h.alive hrf).newElection ht ?_ hlog ?_
    · intro ht'
      rcases getElem?_set_cases ht' with ⟨-, ht'⟩ | ⟨hne, -⟩
      · cases ht'
      · exact hne rfl
    · intro g l hl
      rcases loop_of_append (s := s) rfl hl with hl | ⟨-, go, hgo, hl⟩
      · exact Or.inl hl
      · obtain ⟨peer, -, rfl⟩ := List.mem_map.mp (List.mem_of_getElem? hgo)
        rw [Goroutine.loop_self] at hl
        cases hl
        exact Or.inr rfl
  · refine h.idle hi hp ⟨?_, State.request_of_tick (fun _ => by simp), hlog⟩
    refine loops_of_append (s := s) rfl ?_
    intro go hgo
    obtain ⟨peer, -, rfl⟩ := List.mem_map.mp hgo
    exact Goroutine.loop_of_ne hij

theorem LoopsOk.heartbeatStart (h : LoopsOk s) {g j : ℕ} {rf : Server}
    (hg : s.gos[g]? = some ⟨j, .heartbeatStart⟩) (hrf : s.alive j = some rf) :
    LoopsOk ((s.serve j { rf.newContext.1 with abortHeartbeat := some rf.newContext.2 } []).become g
      ⟨j, .heartbeatLoop rf.newContext.2⟩) := by
  intro i rf' hi hp
  rcases getElem?_set_cases hi with ⟨rfl, rfl⟩ | ⟨hij, hi⟩
  · have hstart : s.loop i g = some .start := by
      rw [State.loop, hg, Option.bind_some, Goroutine.loop_self]
      rfl
    refine (h.alive hrf).newHeartbeat hstart (fun ht => ht) ?_
    intro g' l hl
    rcases loop_of_set (s := s) rfl hl with ⟨rfl, hbeat⟩ | hold
    · rw [Goroutine.loop_self] at hbeat
      cases hbeat
      exact Or.inl ⟨rfl, rfl⟩
    · exact Or.inr hold
  · refine h.idle hi hp (.of_set (s := s) rfl hg ?_ rfl (by simp))
    intro l hl
    cases (Goroutine.loop_of_ne hij).symm.trans hl

theorem LoopsOk.deliver (h : LoopsOk s) {k : ℕ} {q : Request} {rf : Server}
    (hq : s.requests[k]? = some q) (hrf : s.alive q.dest = some rf) (hc : Orderly s (.deliver k)) :
    LoopsOk (s.deliver k q rf) := by
  intro i rf' hi hp
  obtain ⟨hyield, hsettled⟩ := hc q hq rf (State.getElem?_of_alive hrf)
  have hlog : stood (s.deliver k q rf).log i = stood s.log i := stood_deliver k q
  obtain ⟨call, dest, msg⟩ := q
  cases msg with
  | requestVote args =>
      have hrest : Rest s (s.deliver k ⟨call, dest, .requestVote args⟩ rf) i :=
        .of_eq rfl rfl hlog
      rcases getElem?_set_cases hi with ⟨rfl, rfl⟩ | ⟨-, hi⟩
      · exact (h.alive hrf).requestVote hrest hyield s.now
      · exact h.idle hi hp hrest
  | appendEntries args =>
      have hrest : Rest s (s.deliver k ⟨call, dest, .appendEntries args⟩ rf) i :=
        .of_eq rfl rfl hlog
      rcases getElem?_set_cases hi with ⟨rfl, rfl⟩ | ⟨-, hi⟩
      · exact (h.alive hrf).appendEntries hrest hsettled s.now
      · exact h.idle hi hp hrest

theorem LoopsOk.voteReply (h : LoopsOk s) {g j ctx peer call k : ℕ} {args : RequestVoteArgs}
    {reply : RequestVoteReply} {rf : Server}
    (hg : s.gos[g]? = some ⟨j, .voteWait ctx peer args call⟩) (hrf : s.alive j = some rf)
    (hk : s.replies[k]? = some ⟨call, .requestVote reply⟩) (hc : Orderly s (.callTrue g k)) :
    LoopsOk (s.handleRequestVote g j rf reply) := by
  intro i rf' hi hp
  obtain ⟨hwins, hsettled⟩ := hc _ hg _ hk rf (State.getElem?_of_alive hrf)
  have hlog : stood (s.handleRequestVote g j rf reply).log i = stood s.log i :=
    stood_handleRequestVote g reply
  cases hwon : (rf.handleRequestVote reply).2 with
  | true =>
      obtain ⟨hwon', hleader⟩ := Server.handleRequestVote_won hwon
      obtain ⟨hs, hlast⟩ := hwins hwon'
      rcases getElem?_set_cases hi with ⟨rfl, rfl⟩ | ⟨hij, hi⟩
      · rw [hleader]
        have hticker : (s.handleRequestVote g i rf reply).tickers[i]? = some .request →
            s.tickers[i]? = some .request := fun ht => ht
        refine (h.alive hrf).promote hwon'.1 hs hlast hticker ?_
        intro g' l hl
        exact (loop_of_handleRequestVote hl).imp_left (fun hnew => ⟨hnew.1, hnew.2.1⟩)
      · refine h.idle hi hp ⟨?_, fun ht => ht, hlog⟩
        intro g' l hl
        rcases loop_of_handleRequestVote hl with ⟨-, -, he, -⟩ | ⟨-, hl⟩
        · exact absurd he hij
        · exact hl
  | false =>
      have hrest : Rest s (s.handleRequestVote g j rf reply) i := by
        refine ⟨?_, fun ht => ht, hlog⟩
        intro g' l hl
        rcases loop_of_handleRequestVote hl with ⟨-, -, -, hw⟩ | ⟨-, hl⟩
        · cases hwon.symm.trans hw
        · exact hl
      rcases getElem?_set_cases hi with ⟨rfl, rfl⟩ | ⟨-, hi⟩
      · exact (h.alive hrf).handleRequestVote hrest hsettled hwon
      · exact h.idle hi hp hrest

theorem LoopsOk.beatReply (h : LoopsOk s) {g j call k : ℕ} {reply : AppendEntriesReply}
    {rf : Server} (hg : s.gos[g]? = some ⟨j, .beatWait call⟩) (hrf : s.alive j = some rf)
    (hk : s.replies[k]? = some ⟨call, .appendEntries reply⟩) (hc : Orderly s (.callTrue g k)) :
    LoopsOk (s.handleAppendEntries g j rf reply) := by
  intro i rf' hi hp
  have hsettled := (hc _ hg _ hk rf (State.getElem?_of_alive hrf)).2
  have hrest : Rest s (s.handleAppendEntries g j rf reply) i := by
    refine .of_set (s := s) rfl hg ?_ rfl (by simp [State.handleAppendEntries])
    intro l hl
    cases (Goroutine.loop_of_none j rfl).symm.trans hl
  rcases getElem?_set_cases hi with ⟨rfl, rfl⟩ | ⟨-, hi⟩
  · exact (h.alive hrf).handleAppendEntries hrest hsettled
  · exact h.idle hi hp hrest

theorem LoopsOk.step {a : Action} (h : LoopsOk s)
    (hme : ∀ i (rf : Server), s.servers[i]? = some rf → rf.me = i) (hc : Orderly s a)
    (hstep : Stepped s a s') : LoopsOk s' := by
  cases hstep with
  | clock now => exact fun i rf hi hp => h.idle hi hp (.of_eq rfl rfl rfl)
  | idle j r => exact h
  | timeout hrf ht =>
      exact fun i rf hi hp => h.idle hi hp
        ⟨fun _ _ hl => hl, State.request_of_tick (fun _ => by simp), rfl⟩
  | elect hrf ht => exact h.elect hme hrf hc
  | request hrf ht => exact h.request hrf ht
  | voteStart hg hrf =>
      exact fun i rf hi hp => h.idle hi hp (.of_set rfl hg (fun _ hl => hl) rfl rfl)
  | voteAbort hg hrf hca =>
      refine fun i rf hi hp => h.idle hi hp (.of_set rfl hg ?_ rfl rfl)
      intro l hl
      cases (Goroutine.loop_of_none _ rfl).symm.trans hl
  | voteSend hg hrf hca =>
      exact fun i rf hi hp => h.idle hi hp (.of_set (s := s) rfl hg (fun _ hl => hl) rfl
        (stood_append_of_none (by simp [Event.stood?])))
  | heartbeatStart hg hrf => exact h.heartbeatStart hg hrf
  | heartbeatAbort hg hrf hca =>
      refine fun i rf hi hp => h.idle hi hp (.of_set rfl hg ?_ rfl rfl)
      intro l hl
      cases (Goroutine.loop_of_none _ rfl).symm.trans hl
  | heartbeat hg hrf hca =>
      refine fun i rf hi hp => h.idle hi hp ⟨loops_of_append rfl ?_, fun ht => ht, rfl⟩
      intro go hgo
      obtain ⟨peer, -, rfl⟩ := List.mem_map.mp hgo
      exact Goroutine.loop_of_none _ rfl
  | beatStart hg hrf =>
      exact fun i rf hi hp => h.idle hi hp (.of_set rfl hg (fun _ hl => hl) rfl rfl)
  | beatSend hg =>
      exact fun i rf hi hp => h.idle hi hp (.of_set (s := s) rfl hg (fun _ hl => hl) rfl
        (stood_append_of_none (by simp [Event.stood?])))
  | deliver hq hrf => exact h.deliver hq hrf hc
  | lose k => exact fun i rf hi hp => h.idle hi hp (.of_eq rfl rfl rfl)
  | voteReply hg hrf hk => exact h.voteReply hg hrf hk hc
  | beatReply hg hrf hk => exact h.beatReply hg hrf hk hc
  | voteFailed hg =>
      exact fun i rf hi hp => h.idle hi hp (.of_set rfl hg (fun _ hl => hl) rfl rfl)
  | beatFailed hg =>
      exact fun i rf hi hp => h.idle hi hp (.of_set rfl hg (fun _ hl => hl) rfl rfl)

end

theorem loopsOk_init (n : ℕ) : LoopsOk (State.init n) := by
  intro i rf hi _
  have hrf : rf = Server.make n i 0 := init_server hi
  have hloop : ∀ g, (State.init n).loop i g = none := fun g => rfl
  refine .of_ended ?_ ?_ ?_ ?_ ?_
  · intro ctx hf
    rw [hrf] at hf
    cases hf
  · intro ctx hf
    rw [hrf] at hf
    cases hf
  · intro g ctx hl
    cases (hloop g).symm.trans hl
  · rintro g (hl | ⟨ctx, hl, -⟩)
    · cases (hloop g).symm.trans hl
    · cases (hloop g).symm.trans hl
  · intro ht
    have hcheck := List.eq_of_mem_replicate (List.mem_of_getElem? ht)
    cases hcheck

theorem reachable_loopsOk {n : ℕ} {s : State} (h : (system n).ReachableBy Orderly s) :
    LoopsOk s := by
  refine h.invariant (I := LoopsOk) (loopsOk_init n) ?_
  intro s a s' hr ih hc hstep
  exact ih.step (reachable_me hr) hc (State.step_cases hstep)

end DistributedSystems.Raft
