import DistributedSystems.CoordinatorPhases
import DistributedSystems.EventLog

/-! # Tasks are handed out again only when they are overdue

`GetTask` hands out pending tasks, and a task that was handed out becomes pending again only by
`checkTask`.  So between two hand-outs of a task one of its checkers has found it ongoing and its
worker silent for more than ten seconds (`hand_outs_exclusive`).

The hand-outs, the pings and the checks of a run are read off its history.  What the coordinator
knows of them is in the task: `lastPing` is no earlier than the last hand-out and than any ping of
the worker that the task records (`TaskRecord`). -/

namespace DistributedSystems.MapReduce

open Lts (Recorded)

/-! ### The history of the coordinator -/

/-- A step of the coordinator, with the state before it. -/
abbrev Entry := Process × Process.Action

/-- The task that the step hands out, and the worker that gets it. -/
def handOut : Entry → Option (ℕ × String)
  | (p, .serve (.getTask workerId)) =>
      (p.coord.getTask workerId p.now).2.2.map (fun i => (i, workerId))
  | _ => none

/-- The step hands out the task `i`. -/
def HandsOut (i : ℕ) (e : Entry) : Prop := (handOut e).map Prod.fst = some i

instance HandsOut.decidable (i : ℕ) (e : Entry) : Decidable (HandsOut i e) :=
  inferInstanceAs (Decidable (_ = _))

/-- The last step that hands out the task `i` is `e₀`, and the worker gets it. -/
def LastHandOut (i : ℕ) (workerId : String) (e₀ : Entry) (past : List Entry) : Prop :=
  Since (fun _ e => e = e₀ ∧ handOut e = some (i, workerId)) (HandsOut i) past

/-- The step is a check of the task `i` at which the task is ongoing and more than ten seconds have
passed since its last hand-out and since every ping of the worker that got it. -/
structure Overdue (i : ℕ) (past : List Entry) (e : Entry) : Prop where
  check : ∃ k, e.2 = .check k ∧ e.1.checkers[k]? = some i
  onGoing : ∃ t, e.1.coord.tasks[i]? = some t ∧ t.status = .onGoing
  silent : ∃ workerId e₀, LastHandOut i workerId e₀ past ∧ 10000 < e.1.now - e₀.1.now ∧
    ∀ p, (p, .serve (.ping workerId)) ∈ past → 10000 < e.1.now - p.now

/-- The task `i` was never handed out, or was overdue after its last hand-out. -/
def Free (i : ℕ) (past : List Entry) : Prop :=
  (∀ e ∈ past, ¬ HandsOut i e) ∨ Since (Overdue i) (HandsOut i) past

/-- The clock does not go back, and the workers report nothing but done. -/
def Process.Regular (p : Process) : Process.Action → Prop
  | .clock now => p.now ≤ now
  | a => a.ReportsDone

instance (p : Process) : (a : Process.Action) → Decidable (p.Regular a)
  | .clock now => inferInstanceAs (Decidable (p.now ≤ now))
  | .serve msg => inferInstanceAs (Decidable (Process.Action.serve msg).ReportsDone)
  | .ready | .check _ => isTrue trivial

theorem Process.Regular.reportsDone {p : Process} {a : Process.Action} (h : p.Regular a) :
    a.ReportsDone := by
  cases a with
  | clock now => trivial
  | ready => trivial
  | serve msg => exact h
  | check k => trivial

theorem not_handsOut {p : Process} {a : Process.Action}
    (h : ∀ workerId, a ≠ .serve (.getTask workerId)) (i : ℕ) : ¬ HandsOut i (p, a) := by
  unfold HandsOut handOut
  split
  · rename_i he
    cases he
    exact absurd rfl (h _)
  · simp

theorem Overdue.not_handsOut {i : ℕ} {past : List Entry} {e : Entry} (h : Overdue i past e) :
    ¬ HandsOut i e := by
  obtain ⟨k, hk, -⟩ := h.check
  obtain ⟨p, a⟩ := e
  subst hk
  exact MapReduce.not_handsOut (by simp) i

theorem Free.concat {i : ℕ} {past : List Entry} {e : Entry} (h : Free i past)
    (he : ¬ HandsOut i e) : Free i (past ++ [e]) := by
  rcases h with hnone | hsince
  · refine Or.inl ?_
    intro x hx
    rcases List.mem_append.mp hx with hx | hx
    · exact hnone x hx
    · rw [List.mem_singleton.mp hx]
      exact he
  · exact Or.inr (hsince.concat he)

theorem LastHandOut.mem {i : ℕ} {workerId : String} {e₀ : Entry} {past : List Entry}
    (h : LastHandOut i workerId e₀ past) : e₀ ∈ past := by
  obtain ⟨pre, e, post, rfl, ⟨rfl, -⟩, -⟩ := h
  simp

/-! ### What a step does to one task -/

/-- What a step does to the task `t` with the index `i`. -/
inductive TaskMoved (p : Process) (i : ℕ) (t : Task) : Process.Action → Task → Prop
  | keep {a : Process.Action} (hout : ¬ HandsOut i (p, a)) (hping : a ≠ .serve (.ping t.workerId))
      (hrep : a.reported ≠ some t.id) : TaskMoved p i t a t
  | ping : TaskMoved p i t (.serve (.ping t.workerId)) { t with lastPing := p.now }
  | handOut {workerId : String} (h : handOut (p, .serve (.getTask workerId)) = some (i, workerId))
      (hs : t.status = .pending) :
      TaskMoved p i t (.serve (.getTask workerId))
        { t with status := .onGoing, workerId, lastPing := p.now }
  | expire {k : ℕ} (hk : p.checkers[k]? = some i) (hs : t.status = .onGoing)
      (hlate : 10000 < p.now - t.lastPing) :
      TaskMoved p i t (.check k) { t with status := .pending, workerId := "" }
  | report {args : UpdateTaskIn} (hid : t.id = args.taskId) :
      TaskMoved p i t (.serve (.updateTask args)) { t with status := args.status }

section

variable {p : Process} {i : ℕ} {t : Task} (ht : p.coord.tasks[i]? = some t)

/-- Only the handlers hand out, ping and report. -/
theorem TaskMoved.of_ne_serve {a : Process.Action} (ha : ∀ msg, a ≠ .serve msg) :
    TaskMoved p i t a t := by
  refine .keep (not_handsOut (fun _ => ha _) i) (ha _) ?_
  rw [(Process.Action.reported_of_ne_serve ha).2]
  simp

include ht

theorem taskMoved_ping (workerId : String) :
    ∃ t', (p.coord.ping workerId p.now).tasks[i]? = some t' ∧
      TaskMoved p i t (.serve (.ping workerId)) t' := by
  refine ⟨if t.workerId = workerId then { t with lastPing := p.now } else t, ?_, ?_⟩
  · rw [Coordinator.ping, List.getElem?_map, ht]
    rfl
  · split_ifs with hw
    · subst hw
      exact .ping
    · refine .keep (not_handsOut (by simp) i) ?_ (by simp [Process.Action.reported])
      intro he
      cases he
      exact hw rfl

theorem taskMoved_getTask (workerId : String) :
    ∃ t', (p.coord.getTask workerId p.now).1.tasks[i]? = some t' ∧
      TaskMoved p i t (.serve (.getTask workerId)) t' := by
  have hgot := gotTask p.coord workerId p.now
  have hout : handOut (p, .serve (.getTask workerId)) =
      (p.coord.getTask workerId p.now).2.2.map (fun i => (i, workerId)) := rfl
  generalize p.coord.getTask workerId p.now = r at hgot hout ⊢
  have hkeep : r.2.2 ≠ some i → TaskMoved p i t (.serve (.getTask workerId)) t := by
    intro hne
    refine .keep ?_ (by simp) (by simp [Process.Action.reported])
    rw [HandsOut, hout, Option.map_map]
    simpa using hne
  cases hgot with
  | exit hphase => exact ⟨t, ht, hkeep (by simp)⟩
  | wait hphase hnone => exact ⟨t, ht, hkeep (by simp)⟩
  | @task j t₁ hphase ht₁ htype hs =>
      by_cases hij : j = i
      · subst hij
        rw [ht, Option.some.injEq] at ht₁
        subst ht₁
        refine ⟨_, ?_, .handOut hout hs⟩
        rw [List.getElem?_set_self (List.getElem?_eq_some_iff.mp ht).1]
      · refine ⟨t, ?_, hkeep (by simpa using hij)⟩
        rw [List.getElem?_set_ne hij, ht]

theorem taskMoved_updateTask (args : UpdateTaskIn) :
    ∃ t', (p.coord.updateTask args).tasks[i]? = some t' ∧
      TaskMoved p i t (.serve (.updateTask args)) t' := by
  refine ⟨if t.id = args.taskId then { t with status := args.status } else t, ?_, ?_⟩
  · simp only [Coordinator.updateTask]
    rw [List.getElem?_map, ht]
    rfl
  · split_ifs with hid
    · exact .report hid
    · refine .keep (not_handsOut (by simp) i) (by simp) ?_
      intro he
      exact hid (Option.some.inj he).symm

theorem taskMoved_checkTask {j k : ℕ} (hk : p.checkers[k]? = some j) :
    ∃ t', (p.coord.checkTask j p.now).tasks[i]? = some t' ∧ TaskMoved p i t (.check k) t' := by
  by_cases hij : j = i
  · subst hij
    refine ⟨if t.status = .onGoing ∧ p.now - t.lastPing > 10000 then
      { t with status := .pending, workerId := "" } else t, ?_, ?_⟩
    · rw [Coordinator.checkTask, List.getElem?_modify_eq, ht]
      rfl
    · split_ifs with hlate
      · exact .expire hk hlate.1 hlate.2
      · exact .of_ne_serve (by simp)
  · refine ⟨t, ?_, .of_ne_serve (by simp)⟩
    rw [Coordinator.checkTask, List.getElem?_modify_ne _ _ hij, ht]

theorem Process.task_step {p' : Process} {a : Process.Action} (h : p.step a = some p') :
    ∃ t', p'.coord.tasks[i]? = some t' ∧ TaskMoved p i t a t' := by
  cases a with
  | clock now =>
      cases h
      exact ⟨t, ht, .of_ne_serve (by simp)⟩
  | ready =>
      simp only [step] at h
      split_ifs at h
      cases h
      exact ⟨t, ht, .of_ne_serve (by simp)⟩
  | serve msg =>
      cases h
      cases msg with
      | ping workerId => exact taskMoved_ping ht workerId
      | getTask workerId => exact taskMoved_getTask ht workerId
      | updateTask args => exact taskMoved_updateTask ht args
  | check k =>
      simp only [step] at h
      obtain ⟨j, hk, h⟩ := Option.bind_eq_some_iff.mp h
      cases h
      exact taskMoved_checkTask ht hk

end

theorem Process.step_length {p p' : Process} {a : Process.Action} (ha : a.ReportsDone)
    (h : p.step a = some p') : p'.coord.tasks.length = p.coord.tasks.length :=
  (Process.step_effect ha h).tasks.length_eq.symm

/-! ### What a task says of the history -/

/-- What the history has to say of the task `t` with the index `i`. -/
structure TaskRecord (past : List Entry) (i : ℕ) (t : Task) : Prop where
  pending : t.status = .pending → Free i past
  onGoing : t.status = .onGoing → ∃ e₀, LastHandOut i t.workerId e₀ past ∧ e₀.1.now ≤ t.lastPing ∧
    ∀ p, (p, .serve (.ping t.workerId)) ∈ past → p.now ≤ t.lastPing
  reported : ∀ e ∈ past, e.2.reported = some t.id → t.status = .done

section

variable {past : List Entry} {p : Process} {a : Process.Action} {i : ℕ} {t t' : Task}

/-- Steps that do not report the task. -/
theorem TaskRecord.reported_concat (h : TaskRecord past i t) (ha : a.reported ≠ some t.id) :
    ∀ e ∈ past ++ [(p, a)], e.2.reported = some t.id → t.status = .done := by
  intro e he hrep
  rcases List.mem_append.mp he with he | he
  · exact h.reported e he hrep
  · rw [List.mem_singleton.mp he] at hrep
    exact absurd hrep ha

theorem TaskRecord.overdue {k : ℕ} (h : TaskRecord past i t) (ht : p.coord.tasks[i]? = some t)
    (hk : p.checkers[k]? = some i) (hs : t.status = .onGoing) (hlate : 10000 < p.now - t.lastPing) :
    Overdue i past (p, .check k) := by
  obtain ⟨e₀, hlast, htime, hpings⟩ := h.onGoing hs
  refine ⟨⟨k, rfl, hk⟩, ⟨t, ht, hs⟩, t.workerId, e₀, hlast, ?_, ?_⟩
  · dsimp only
    omega
  · intro q hq
    have hle := hpings q hq
    dsimp only
    omega

theorem TaskRecord.step (h : TaskRecord past i t) (hclock : ∀ e ∈ past, e.1.now ≤ p.now)
    (ha : a.ReportsDone) (ht : p.coord.tasks[i]? = some t) (hmoved : TaskMoved p i t a t') :
    TaskRecord (past ++ [(p, a)]) i t' := by
  -- A ping or a hand-out sets the time, which is no earlier than that of any entry.
  have hnow : ∀ e ∈ past ++ [(p, a)], e.1.now ≤ p.now := by
    intro e he
    rcases List.mem_append.mp he with he | he
    · exact hclock e he
    · rw [List.mem_singleton.mp he]
  cases hmoved with
  | keep hout hping hrep =>
      refine ⟨fun hs => (h.pending hs).concat hout, ?_, h.reported_concat hrep⟩
      intro hs
      obtain ⟨e₀, hlast, htime, hpings⟩ := h.onGoing hs
      refine ⟨e₀, hlast.concat hout, htime, ?_⟩
      intro q hq
      rcases List.mem_append.mp hq with hq | hq
      · exact hpings q hq
      · rw [List.mem_singleton, Prod.mk.injEq] at hq
        exact absurd hq.2.symm hping
  | ping =>
      have hout := not_handsOut (p := p) (a := .serve (.ping t.workerId)) (by simp) i
      refine ⟨fun hs => (h.pending hs).concat hout, ?_,
        h.reported_concat (by simp [Process.Action.reported])⟩
      intro hs
      obtain ⟨e₀, hlast, -, -⟩ := h.onGoing hs
      exact ⟨e₀, hlast.concat hout, hclock e₀ hlast.mem, fun q hq => hnow _ hq⟩
  | @handOut workerId hgiven hs =>
      refine ⟨by simp, ?_, ?_⟩
      · intro _
        exact ⟨_, .now ⟨rfl, hgiven⟩, le_refl _, fun q hq => hnow _ hq⟩
      · intro e he hrep
        have hdone := h.reported_concat (by simp [Process.Action.reported]) e he hrep
        cases hs.symm.trans hdone
  | expire hk hs hlate =>
      refine ⟨fun _ => Or.inr (.now (h.overdue ht hk hs hlate)), by simp, ?_⟩
      intro e he hrep
      have hdone := h.reported_concat (by simp [Process.Action.reported]) e he hrep
      cases hs.symm.trans hdone
  | @report args hid =>
      have hs : args.status = .done := ha
      refine ⟨?_, ?_, fun _ _ _ => hs⟩
      · intro hp
        cases hs.symm.trans hp
      · intro ho
        cases hs.symm.trans ho

end

/-- What the history says in a state of a run. -/
structure RecordOk (x : Recorded Process Process.Action) : Prop where
  clock : ∀ e ∈ x.past, e.1.now ≤ x.now.now
  tasks : ∀ (i : ℕ) t, x.now.coord.tasks[i]? = some t → TaskRecord x.past i t

theorem Process.now_le {p p' : Process} {a : Process.Action} (ha : p.Regular a)
    (h : p.step a = some p') : p.now ≤ p'.now := by
  cases a with
  | clock now =>
      cases h
      exact ha
  | ready =>
      simp only [step] at h
      split_ifs at h
      cases h
      exact le_refl _
  | serve msg =>
      cases h
      cases msg <;> exact le_refl _
  | check k =>
      simp only [step] at h
      obtain ⟨i, -, h⟩ := Option.bind_eq_some_iff.mp h
      cases h
      exact le_refl _

section

variable {files : List String} {nReduce : ℕ} {x : Recorded Process Process.Action}

theorem recordOk_init : RecordOk ⟨[], (coordinator files nReduce).init⟩ where
  clock := by simp
  tasks := by
    intro i t ht
    have hs : t.status = .pending := (createTasks_getElem? ht).2
    refine ⟨fun _ => Or.inl (by simp), ?_, by simp⟩
    intro ho
    cases hs.symm.trans ho

theorem reachable_recordOk (h : (coordinator files nReduce).recorded.ReachableBy
    (fun x a => x.now.Regular a) x) : RecordOk x := by
  refine h.recorded_invariant (I := RecordOk) recordOk_init ?_
  intro x a p' _ ih ha hstep
  constructor
  · intro e he
    refine le_trans ?_ (Process.now_le ha hstep)
    rcases List.mem_append.mp he with he | he
    · exact ih.clock e he
    · rw [List.mem_singleton.mp he]
  · intro i t' ht'
    have hi := (List.getElem?_eq_some_iff.mp ht').1
    rw [Lts.Recorded.next_now, Process.step_length ha.reportsDone hstep] at hi
    have ht := List.getElem?_eq_getElem hi
    obtain ⟨t'', ht'', hmoved⟩ := Process.task_step ht hstep
    obtain rfl : t'' = t' := Option.some.inj (ht''.symm.trans ht')
    exact (ih.tasks i _ ht).step ih.clock ha.reportsDone ht hmoved

/-! ### Hand-outs -/

/-- `GetTask` hands out pending tasks. -/
theorem pending_of_handsOut {p : Process} {a : Process.Action} {i : ℕ} (h : HandsOut i (p, a)) :
    ∃ t, p.coord.tasks[i]? = some t ∧ t.status = .pending := by
  have hget : ∃ workerId, a = .serve (.getTask workerId) := by
    by_contra hne
    exact not_handsOut (fun workerId he => hne ⟨workerId, he⟩) i h
  obtain ⟨workerId, rfl⟩ := hget
  have hgot := gotTask p.coord workerId p.now
  simp only [HandsOut, handOut] at h
  generalize p.coord.getTask workerId p.now = r at h hgot
  cases hgot with
  | exit hphase => cases h
  | wait hphase hnone => cases h
  | @task j t hphase ht htype hs =>
      obtain rfl : j = i := Option.some.inj h
      exact ⟨t, ht, hs⟩

/-- What is known when the task `i` is handed out. -/
structure HandedOut (i : ℕ) (pre : List Entry) (e : Entry) : Prop where
  free : Free i pre
  unreported : ∀ t, e.1.coord.tasks[i]? = some t → ∀ e' ∈ pre, e'.2.reported ≠ some t.id

theorem RecordOk.handedOut (h : RecordOk x) {a : Process.Action} {i : ℕ}
    (hout : HandsOut i (x.now, a)) : HandedOut i x.past (x.now, a) := by
  obtain ⟨t, ht, hs⟩ := pending_of_handsOut hout
  have hrec := h.tasks i t ht
  refine ⟨hrec.pending hs, ?_⟩
  intro t' ht' e' he' hrep
  obtain rfl : t = t' := Option.some.inj (ht.symm.trans ht')
  cases hs.symm.trans (hrec.reported e' he' hrep)

theorem reachable_handedOut (h : (coordinator files nReduce).recorded.ReachableBy
    (fun x a => x.now.Regular a) x) (i : ℕ) :
    EachEvent (fun pre e => HandsOut i e → HandedOut i pre e) x.past := by
  refine h.recorded_invariant
    (I := fun x => EachEvent (fun pre e => HandsOut i e → HandedOut i pre e) x.past) (.nil _) ?_
  intro x a p' hr ih _ _
  exact ih.concat (fun hout => (reachable_recordOk hr).handedOut hout)

/-- What the history says of the hand-outs of the task `i`. -/
structure Exclusive (i : ℕ) (past : List Entry) : Prop where
  /-- Between two hand-outs the task is found overdue. -/
  overdue : ∀ pre e₀ mid e₁ post, past = (pre ++ e₀ :: mid) ++ e₁ :: post → HandsOut i e₀ →
    HandsOut i e₁ → ∃ mid₁ e mid₂, mid = mid₁ ++ e :: mid₂ ∧ Overdue i (pre ++ e₀ :: mid₁) e
  /-- The task is not handed out after it was reported. -/
  unreported : ∀ pre e post, past = pre ++ e :: post → HandsOut i e →
    ∀ t, e.1.coord.tasks[i]? = some t → ∀ e' ∈ pre, e'.2.reported ≠ some t.id
  /-- A task that is never found overdue is handed out at most once. -/
  once : EachEvent (fun pre e => ¬ Overdue i pre e) past →
    past.countP (fun e => HandsOut i e) ≤ 1

/-- In every run in which the clock does not go back and the workers report nothing but done, a
task is handed out again only after it was overdue, and never after it was reported. -/
theorem hand_outs_exclusive (h : (coordinator files nReduce).recorded.ReachableBy
    (fun x a => x.now.Regular a) x) (i : ℕ) : Exclusive i x.past := by
  have hout := reachable_handedOut h i
  refine ⟨?_, ?_, ?_⟩
  · intro pre e₀ mid e₁ post hpast h₀ h₁
    rcases (hout _ _ _ hpast h₁).free with hnone | hsince
    · exact absurd h₀ (hnone e₀ (by simp))
    · exact hsince.after h₀ (fun _ _ => Overdue.not_handsOut)
  · intro pre e post hpast he
    exact (hout pre e post hpast he).unreported
  · intro hnever
    refine EachEvent.countP_le_one ?_
    intro pre e post hpast he e' he'
    rcases (hout pre e post hpast (of_decide_eq_true he)).free with hnone | hsince
    · exact fun hq => hnone e' he' (of_decide_eq_true hq)
    · obtain ⟨pre', c, post', rfl, hover, -⟩ := hsince
      exact absurd hover (hnever pre' c (post' ++ e :: post) (by rw [hpast]; simp))

end

/-- The map task is handed out, its worker is silent and the task is handed out again. -/
def silentRun : List Process.Action :=
  [.ready, .serve (.getTask "w0"), .clock 4000, .serve (.ping "w0"), .check 0, .clock 14001,
    .check 0, .serve (.getTask "w1")]

theorem hand_outs_exclusive_silent : ∃ x : Recorded Process Process.Action,
    (coordinator ["in"] 1).recorded.ReachableBy (fun x a => x.now.Regular a) x ∧
      x.past.countP (fun e => HandsOut 0 e) = 2 ∧ Exclusive 0 x.past := by
  obtain ⟨x, hr, hx⟩ := Lts.exists_of_exec (L := (coordinator ["in"] 1).recorded)
    (C := fun x a => x.now.Regular a)
    (p := fun x => decide (x.past.countP (fun e => HandsOut 0 e) = 2)) silentRun (by decide)
  exact ⟨x, hr, of_decide_eq_true hx, hand_outs_exclusive hr 0⟩

end DistributedSystems.MapReduce
