import DistributedSystems.Coordinator

/-! # The phases of a job

The phase of the coordinator is a summary of the statuses of its tasks.  It is never ahead of them,
so reduce tasks are handed out only after the last map task and the job ends only after the last
task (`phase_barrier`).

It can be behind them: `MakeCoordinator` sets the phase after it has opened the socket, and workers
that have finished all map tasks by then are sent back to the map phase for ever
(`stuck_in_map_phase`).  Where a map task is left at that moment, the phase is exactly what the
statuses say from then on (`phase_tracks_tasks`). -/

namespace DistributedSystems.MapReduce

instance (a : Process.Action) : Decidable a.ReportsDone :=
  match a with
  | .serve (.updateTask args) => inferInstanceAs (Decidable (args.status = .done))
  | .serve (.ping _) | .serve (.getTask _) | .clock _ | .ready | .check _ => isTrue trivial

/-! ### The phase is not ahead -/

theorem createTasks_tType {files : List String} {nReduce : ℕ} {t : Task}
    (h : t ∈ createTasks files nReduce) : t.tType = .map ∨ t.tType = .reduce := by
  rcases List.mem_append.mp h with h | h
  · obtain ⟨k, hk, rfl⟩ := List.mem_mapIdx.mp h
    exact Or.inl rfl
  · obtain ⟨i, -, rfl⟩ := List.mem_map.mp h
    exact Or.inr rfl

theorem CoordinatorOk.tType {files : List String} {nReduce : ℕ} {c : Coordinator}
    (h : CoordinatorOk files nReduce c) {t : Task} (ht : t ∈ c.tasks) :
    t.tType = .map ∨ t.tType = .reduce := by
  obtain ⟨t₀, h₀, hsame⟩ := exists_of_forall₂ h.tasks ht
  rw [hsame.tType]
  exact createTasks_tType h₀

/-- In the last phase every task is done. -/
theorem CoordinatorOk.done {files : List String} {nReduce : ℕ} {c : Coordinator}
    (h : CoordinatorOk files nReduce c) (hphase : c.phase = .done) :
    ∀ t ∈ c.tasks, t.status = .done := by
  intro t ht
  rcases h.tType ht with hmap | hreduce
  · exact h.phase.maps (Or.inr hphase) t ht hmap
  · exact h.phase.reduces hphase t ht hreduce

theorem phase_of_getTask_reduce {c : Coordinator} {workerId : String} {now : ℤ}
    (h : (c.getTask workerId now).2.1.type = .reduce) : c.phase = .reduce := by
  have hgot := gotTask c workerId now
  generalize c.getTask workerId now = r at h hgot
  cases hgot with
  | exit _ => cases h
  | wait _ _ => cases h
  | task _ _ htype _ =>
      by_contra hne
      rw [if_neg hne] at htype
      cases htype.symm.trans h

theorem phase_of_getTask_exit {c : Coordinator} {workerId : String} {now : ℤ}
    (h : (c.getTask workerId now).2.1.type = .exit) : c.phase = .done := by
  have hgot := gotTask c workerId now
  generalize c.getTask workerId now = r at h hgot
  cases hgot with
  | exit hphase => exact hphase
  | wait _ _ => cases h
  | task _ _ htype _ =>
      have hexit := htype.symm.trans h
      split_ifs at hexit

/-- What the phases keep apart. -/
structure PhaseBarrier (p : Process) : Prop where
  reduce : ∀ workerId, (p.coord.getTask workerId p.now).2.1.type = .reduce →
    ∀ t ∈ p.coord.tasks, t.tType = .map → t.status = .done
  exit : ∀ workerId, (p.coord.getTask workerId p.now).2.1.type = .exit →
    ∀ t ∈ p.coord.tasks, t.status = .done
  done : p.coord.isDone = true → ∀ t ∈ p.coord.tasks, t.status = .done

/-- In every run a reduce task is handed out only when every map task is done, the job ends only
when every task is done, and a task that is done stays done. -/
theorem phase_barrier {files : List String} {nReduce : ℕ} {p : Process}
    (h : (coordinator files nReduce).ReachableBy (fun _ a => a.ReportsDone) p) :
    PhaseBarrier p ∧
      ∀ p', (coordinator files nReduce).ReachesBy (fun _ a => a.ReportsDone) p p' →
        ∀ (i : ℕ) t, p.coord.tasks[i]? = some t → t.status = .done →
          ∃ t', p'.coord.tasks[i]? = some t' ∧ t'.status = .done := by
  have hok := reachable_coordinatorOk h
  refine ⟨⟨?_, ?_, ?_⟩, ?_⟩
  · intro workerId htype
    exact hok.phase.maps (Or.inl (phase_of_getTask_reduce htype))
  · intro workerId htype
    exact hok.done (phase_of_getTask_exit htype)
  · intro hdone
    exact hok.done (of_decide_eq_true hdone)
  · intro p' hlater i t ht hdone
    refine hlater.stable (P := fun p' => ∃ t', p'.coord.tasks[i]? = some t' ∧ t'.status = .done)
      ?_ ⟨t, ht, hdone⟩
    rintro p a p' ⟨t, ht, hdone⟩ ha hstep
    obtain ⟨t', ht', hev⟩ := getElem?_of_forall₂ (Process.step_effect ha hstep).tasks ht
    exact ⟨t', ht', hev.done hdone⟩

/-- The coordinator of a job with one file and one reduce task, whose map task was reported. -/
def mapReportedRun : List Process.Action :=
  [.serve (.getTask "w"), .serve (.updateTask ⟨"w", "1", .done⟩)]

theorem phase_barrier_oneFile : ∃ p,
    (coordinator ["in"] 1).ReachableBy (fun _ a => a.ReportsDone) p ∧
      (p.coord.getTask "w" p.now).2.1.type = .reduce ∧
      ∀ t ∈ p.coord.tasks, t.tType = .map → t.status = .done := by
  obtain ⟨p, hr, hp⟩ := Lts.exists_of_exec (L := coordinator ["in"] 1)
    (C := fun _ a => a.ReportsDone)
    (p := fun p => decide ((p.coord.getTask "w" p.now).2.1.type = .reduce)) mapReportedRun
    (by decide)
  have hreduce := of_decide_eq_true hp
  exact ⟨p, hr, hreduce, (phase_barrier hr).1.reduce "w" hreduce⟩

/-! ### The phase is not behind -/

/-- A task of the type is not done. -/
def Undone (tType : TaskType) (tasks : List Task) : Prop :=
  ∃ t ∈ tasks, t.tType = tType ∧ t.status ≠ .done

theorem undone_iff {tType : TaskType} {tasks : List Task} :
    Undone tType tasks ↔ allDone tType tasks = false := by
  rw [← Bool.not_eq_true, allDone_iff]
  simp [Undone]

/-- `MakeCoordinator` sets the phase while a map task is not done. -/
def SetsPhaseInTime (p : Process) : Process.Action → Prop
  | .ready => allDone .map p.coord.tasks = false
  | _ => True

instance (p : Process) : (a : Process.Action) → Decidable (SetsPhaseInTime p a)
  | .ready => inferInstanceAs (Decidable (_ = _))
  | .clock _ | .serve _ | .check _ => isTrue trivial

/-- The phase says what the statuses say. -/
structure PhaseTracks (c : Coordinator) : Prop where
  map : c.phase = .map ↔ Undone .map c.tasks
  reduce : c.phase = .reduce ↔
    (∀ t ∈ c.tasks, t.tType = .map → t.status = .done) ∧ Undone .reduce c.tasks
  done : c.phase = .done ↔ ∀ t ∈ c.tasks, t.status = .done

/-- The phase is not behind the tasks. -/
structure NotBehind (p : Process) : Prop where
  unset : p.returned = true → p.coord.phase ≠ .unset
  map : p.returned = true → p.coord.phase = .map → Undone .map p.coord.tasks
  reduce : p.coord.phase = .reduce → Undone .reduce p.coord.tasks

/-- A step that reports nothing finishes no task. -/
theorem Undone.evolves {tType : TaskType} {l l' : List Task} (h : Undone tType l)
    (hev : List.Forall₂ (Task.Evolves none) l l') : Undone tType l' := by
  obtain ⟨t, ht, htype, hs⟩ := h
  obtain ⟨i, hi⟩ := List.mem_iff_getElem?.mp ht
  obtain ⟨t', ht', hevt⟩ := getElem?_of_forall₂ hev hi
  refine ⟨t', List.mem_of_getElem? ht', hevt.same.tType.trans htype, ?_⟩
  intro hd
  rcases hevt.of_done hd with hd | hd
  · exact hs hd
  · cases hd

theorem NotBehind.evolves {p p' : Process} (h : NotBehind p) (hret : p'.returned = p.returned)
    (hphase : p'.coord.phase = p.coord.phase)
    (hev : List.Forall₂ (Task.Evolves none) p.coord.tasks p'.coord.tasks) : NotBehind p' := by
  refine ⟨?_, ?_, ?_⟩
  · rw [hret, hphase]
    exact h.unset
  · rw [hret, hphase]
    intro hr hp
    exact (h.map hr hp).evolves hev
  · rw [hphase]
    intro hp
    exact (h.reduce hp).evolves hev

/-- `UpdateTask` computes the phase anew, or a map task is left and the phase stays. -/
theorem NotBehind.updateTask {p : Process} (h : NotBehind p) (hok : PhaseOk p.coord)
    {args : UpdateTaskIn} (hs : args.status = .done) :
    NotBehind { p with coord := p.coord.updateTask args } := by
  have hphase := updateTask_phase p.coord args
  have hok' := hok.updateTask hs
  cases hmap : allDone .map (p.coord.updateTask args).tasks with
  | false =>
      rw [hmap, if_neg (by simp), if_neg (by simp)] at hphase
      refine ⟨?_, fun _ _ => undone_iff.mpr hmap, ?_⟩
      · intro hr
        rw [hphase]
        exact h.unset hr
      · intro hp
        rw [allDone_iff.mpr (hok'.maps (Or.inl hp))] at hmap
        cases hmap
  | true =>
      cases hreduce : allDone .reduce (p.coord.updateTask args).tasks with
      | false =>
          rw [hmap, hreduce, if_pos ⟨rfl, rfl⟩] at hphase
          refine ⟨?_, ?_, fun _ => undone_iff.mpr hreduce⟩
          · simp [hphase]
          · simp [hphase]
      | true =>
          rw [hmap, hreduce, if_neg (by simp), if_pos ⟨rfl, rfl⟩] at hphase
          exact ⟨by simp [hphase], by simp [hphase], by simp [hphase]⟩

theorem reachable_notBehind {files : List String} {nReduce : ℕ} {p : Process}
    (h : (coordinator files nReduce).ReachableBy
      (fun p a => a.ReportsDone ∧ SetsPhaseInTime p a) p) : NotBehind p := by
  refine h.invariant (I := NotBehind) ⟨Bool.noConfusion, Bool.noConfusion, JobPhase.noConfusion⟩ ?_
  rintro p a p' hr ih ⟨ha, hready⟩ hstep
  have heff := Process.step_effect ha hstep
  cases a with
  | clock now =>
      cases hstep
      exact ih.evolves rfl rfl heff.tasks
  | ready =>
      simp only [coordinator, Process.step] at hstep
      split_ifs at hstep
      cases hstep
      exact ⟨by simp, fun _ _ => undone_iff.mpr hready, by simp⟩
  | serve msg =>
      cases hstep
      cases msg with
      | ping workerId => exact ih.evolves rfl rfl heff.tasks
      | getTask workerId =>
          exact ih.evolves rfl (getTask_phase p.coord workerId p.now).1 heff.tasks
      | updateTask args =>
          have hok := reachable_coordinatorOk (hr.mono (fun _ _ hc => hc.1))
          exact ih.updateTask hok.phase ha
  | check k =>
      simp only [coordinator, Process.step] at hstep
      obtain ⟨i, -, hstep⟩ := Option.bind_eq_some_iff.mp hstep
      cases hstep
      exact ih.evolves rfl rfl heff.tasks

theorem NotBehind.tracks {files : List String} {nReduce : ℕ} {p : Process} (h : NotBehind p)
    (hok : CoordinatorOk files nReduce p.coord) (hret : p.returned = true) :
    PhaseTracks p.coord := by
  have hset := h.unset hret
  constructor
  · constructor
    · exact h.map hret
    · rintro ⟨t, ht, htype, hs⟩
      cases hp : p.coord.phase with
      | unset => exact absurd hp hset
      | map => rfl
      | reduce => exact absurd (hok.phase.maps (Or.inl hp) t ht htype) hs
      | done => exact absurd (hok.phase.maps (Or.inr hp) t ht htype) hs
  · constructor
    · intro hp
      exact ⟨hok.phase.maps (Or.inl hp), h.reduce hp⟩
    · rintro ⟨hmaps, t, ht, htype, hs⟩
      cases hp : p.coord.phase with
      | unset => exact absurd hp hset
      | map =>
          obtain ⟨t', ht', htype', hs'⟩ := h.map hret hp
          exact absurd (hmaps t' ht' htype') hs'
      | reduce => rfl
      | done => exact absurd (hok.phase.reduces hp t ht htype) hs
  · constructor
    · exact hok.done
    · intro hall
      cases hp : p.coord.phase with
      | unset => exact absurd hp hset
      | map =>
          obtain ⟨t, ht, -, hs⟩ := h.map hret hp
          exact absurd (hall t ht) hs
      | reduce =>
          obtain ⟨t, ht, -, hs⟩ := h.reduce hp
          exact absurd (hall t ht) hs
      | done => rfl

/-- A worker is told to wait only for a task that somebody executes. -/
theorem PhaseTracks.onGoing {c : Coordinator} (h : PhaseTracks c) (hset : c.phase ≠ .unset)
    {workerId : String} {now : ℤ} (hw : (c.getTask workerId now).2.1.type = .wait) :
    ∃ t ∈ c.tasks, t.status = .onGoing := by
  have hgot := gotTask c workerId now
  generalize c.getTask workerId now = r at hw hgot
  cases hgot with
  | exit _ => cases hw
  | wait hphase hnone =>
      -- a task of the phase is left, and it is not pending
      have hleft : Undone (if c.phase = .reduce then .reduce else .map) c.tasks := by
        split_ifs with hp
        · exact (h.reduce.mp hp).2
        · refine h.map.mp ?_
          cases hc : c.phase with
          | unset => exact absurd hc hset
          | map => rfl
          | reduce => exact absurd hc hp
          | done => exact absurd hc hphase
      obtain ⟨t, ht, htype, hs⟩ := hleft
      refine ⟨t, ht, ?_⟩
      obtain ⟨i, hi⟩ := List.mem_iff_getElem?.mp ht
      have hpend : t.tType = (if c.phase = .reduce then .reduce else .map) →
          t.status ≠ .pending := by
        simpa using List.find?_eq_none.mp hnone (t, i) (List.mem_zipIdx_iff_getElem?.mpr hi)
      cases hst : t.status with
      | pending => exact absurd hst (hpend htype)
      | onGoing => rfl
      | done => exact absurd hst hs
  | task _ _ htype _ =>
      have hwait := htype.symm.trans hw
      split_ifs at hwait

/-- In every run in which a map task is left when `MakeCoordinator` sets the phase, the phase is
exactly what the statuses say once it has returned, and a worker waits only for a task that
somebody executes. -/
theorem phase_tracks_tasks {files : List String} {nReduce : ℕ} {p : Process}
    (h : (coordinator files nReduce).ReachableBy
      (fun p a => a.ReportsDone ∧ SetsPhaseInTime p a) p) (hret : p.returned = true) :
    PhaseTracks p.coord ∧ ∀ workerId, (p.coord.getTask workerId p.now).2.1.type = .wait →
      ∃ t ∈ p.coord.tasks, t.status = .onGoing := by
  have hb := reachable_notBehind h
  have htracks := hb.tracks (reachable_coordinatorOk (h.mono (fun _ _ hc => hc.1))) hret
  exact ⟨htracks, fun workerId hw => htracks.onGoing (hb.unset hret) hw⟩

theorem phase_tracks_tasks_oneFile : ∃ p,
    (coordinator ["in"] 1).ReachableBy (fun p a => a.ReportsDone ∧ SetsPhaseInTime p a) p ∧
      p.returned = true ∧ p.coord.phase = .reduce ∧ PhaseTracks p.coord := by
  obtain ⟨p, hr, hp⟩ := Lts.exists_of_exec (L := coordinator ["in"] 1)
    (C := fun p a => a.ReportsDone ∧ SetsPhaseInTime p a)
    (p := fun p => decide (p.returned = true ∧ p.coord.phase = .reduce))
    (.ready :: mapReportedRun) (by decide)
  obtain ⟨hret, hphase⟩ := of_decide_eq_true hp
  exact ⟨p, hr, hret, hphase, (phase_tracks_tasks hr hret).1⟩

/-- The map task is reported before `MakeCoordinator` sets the phase: the phase goes back to the map
phase, and the worker waits although nobody executes a task. -/
theorem stuck_in_map_phase : ∃ p,
    (coordinator ["in"] 1).ReachableBy (fun _ a => a.ReportsDone) p ∧ p.returned = true ∧
      p.coord.phase = .map ∧ (∀ t ∈ p.coord.tasks, t.tType = .map → t.status = .done) ∧
      (p.coord.getTask "w" p.now).2.1.type = .wait ∧
      ∀ t ∈ p.coord.tasks, t.status ≠ .onGoing := by
  obtain ⟨p, hr, hp⟩ := Lts.exists_of_exec (L := coordinator ["in"] 1)
    (C := fun _ a => a.ReportsDone)
    (p := fun p => decide (p.returned = true ∧ p.coord.phase = .map ∧
      (∀ t ∈ p.coord.tasks, t.tType = .map → t.status = .done) ∧
      (p.coord.getTask "w" p.now).2.1.type = .wait ∧
      ∀ t ∈ p.coord.tasks, t.status ≠ .onGoing)) (mapReportedRun ++ [.ready]) (by decide)
  exact ⟨p, hr, of_decide_eq_true hp⟩

end DistributedSystems.MapReduce
