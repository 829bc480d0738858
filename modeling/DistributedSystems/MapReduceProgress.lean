import DistributedSystems.CoordinatorPhases
import DistributedSystems.MapReduceSystem

/-! # Finishing a job

Workers crash, stall, lose calls and fail to read or write, and a task is lost with each of them
until a checker gives it back.  A worker that lives on may keep a task that it has lost, by its
pings.  But once all workers have stopped, the job is not stuck: whatever has happened after
`MakeCoordinator` has returned, further workers that meet no fault finish it (`job_can_finish`).
The condition on the run is the one under which the phase follows the tasks: a map task is left
when `MakeCoordinator` sets the phase.

One worker for all tasks would not do.  The list of its logger grows with the Fibonacci numbers
(`logger_grows`), and after some twenty tasks it is too long to be stored.  So there is one new
worker for every task that is left, and each of them stops after its task.

The argument is a measure on the coordinator, the number of tasks that are not done.  While the
phase is not the last one, a task of the phase is left; if it is ongoing, its checker goroutine
gives it back once its last ping is old enough; the new worker gets a task, and since none of its
steps waits for anybody it comes to `markAsDone`, which finishes the task. -/

namespace DistributedSystems.MapReduce

/-- The steps of a worker that meets no fault. -/
def Worker.Action.benign : Worker.Action → Bool
  | .crash | .failRead | .failRemove | .write _ .fail => false
  | _ => true

/-- The condition on a step after the state `s₀`: the clock goes forward, a checker runs, a worker
is started, or a worker that was started after `s₀` takes a step without a fault.  Such a worker
may stop between two tasks, and only requests that were sent after `s₀` are served.
`splitIntoBuckets` divides by the number of buckets. -/
def Rescue (job : Job) (ids : ℕ → String) (s₀ s : State) : Action → Prop
  | .coord (.clock now) => s.proc.now ≤ now
  | .coord (.check _) => True
  | .coord _ => False
  | .start workerId => workerId = ids s.workers.length
  | .ping _ => False
  | .call w | .callTrue w _ => s₀.workers.length ≤ w
  | .serve k => ∃ q, s.requests[k]? = some q ∧ s₀.calls ≤ q.call
  | .callFalse _ => False
  | .work w .crash =>
      s₀.workers.length ≤ w ∧ ∃ wk, s.workers[w]? = some wk ∧ wk.pc = .getTask
  | .work w a => s₀.workers.length ≤ w ∧ 0 < job.nReduce ∧ a.benign = true

/-- The condition on a step: `MakeCoordinator` sets the phase while a map task is left. -/
def InTime (s : State) : Action → Prop
  | .coord a => SetsPhaseInTime s.proc a
  | _ => True

instance (s : State) : (a : Action) → Decidable (InTime s a)
  | .coord a => inferInstanceAs (Decidable (SetsPhaseInTime s.proc a))
  | .start _ | .ping _ | .call _ | .serve _ | .callTrue _ _ | .callFalse _ | .work _ _ =>
      isTrue trivial

theorem Rescue.inTime {job : Job} {ids : ℕ → String} {s₀ s : State} {a : Action}
    (h : Rescue job ids s₀ s a) : InTime s a := by
  cases a with
  | coord a =>
      cases a with
      | ready => exact h.elim
      | clock now => trivial
      | serve msg => trivial
      | check k => trivial
  | _ => trivial

/-! ### The coordinator -/

/-- Every ongoing task has a checker. -/
def Checked (p : Process) : Prop :=
  ∀ (i : ℕ) t, p.coord.tasks[i]? = some t → t.status = .onGoing → i ∈ p.checkers

theorem checked_getTask {p : Process} (h : Checked p) (workerId : String) :
    Checked (p.serve (.getTask workerId)).1 := by
  have hgot := gotTask p.coord workerId p.now
  simp only [Process.serve]
  generalize p.coord.getTask workerId p.now = r at hgot ⊢
  intro i t ht hs
  cases hgot with
  | exit hphase => exact List.mem_append_left _ (h i t ht hs)
  | wait hphase hnone => exact List.mem_append_left _ (h i t ht hs)
  | task hphase hj htype hpending =>
      rcases getElem?_set_cases ht with ⟨rfl, -⟩ | ⟨-, ht⟩
      · exact List.mem_append_right _ (by simp)
      · exact List.mem_append_left _ (h i t ht hs)

/-- A change of the tasks that makes none of them ongoing. -/
theorem Checked.of_forall {p p' : Process} (h : Checked p) (hc : p'.checkers = p.checkers)
    (ht : ∀ (i : ℕ) t', p'.coord.tasks[i]? = some t' → t'.status = .onGoing →
      ∃ t, p.coord.tasks[i]? = some t ∧ t.status = .onGoing) : Checked p' := by
  intro i t' ht' hs'
  obtain ⟨t, hti, hs⟩ := ht i t' ht' hs'
  rw [hc]
  exact h i t hti hs

theorem reachable_checked {files : List String} {nReduce : ℕ} {p : Process}
    (h : (coordinator files nReduce).ReachableBy (fun _ a => a.ReportsDone) p) : Checked p := by
  refine h.invariant (I := Checked) ?_ ?_
  · intro i t ht hs
    rw [(createTasks_getElem? ht).2] at hs
    cases hs
  · intro p a p' _ ih ha hstep
    cases a with
    | clock now =>
        cases hstep
        exact ih
    | ready =>
        simp only [coordinator, Process.step] at hstep
        split_ifs at hstep
        cases hstep
        exact ih
    | serve msg =>
        cases hstep
        cases msg with
        | ping workerId =>
            refine ih.of_forall rfl ?_
            intro i t' ht' hs'
            obtain ⟨t, ht, rfl⟩ := Option.map_eq_some_iff.mp ((List.getElem?_map).symm.trans ht')
            refine ⟨t, ht, ?_⟩
            split_ifs at hs' <;> exact hs'
        | getTask workerId => exact checked_getTask ih workerId
        | updateTask args =>
            refine ih.of_forall rfl ?_
            intro i t' ht' hs'
            obtain ⟨t, ht, rfl⟩ := Option.map_eq_some_iff.mp ((List.getElem?_map).symm.trans ht')
            refine ⟨t, ht, ?_⟩
            split_ifs at hs'
            · rw [show args.status = .done from ha] at hs'
              cases hs'
            · exact hs'
    | check k =>
        simp only [coordinator, Process.step] at hstep
        obtain ⟨j, -, hstep⟩ := Option.bind_eq_some_iff.mp hstep
        cases hstep
        refine ih.of_forall rfl ?_
        intro i t' ht' hs'
        simp only [Coordinator.checkTask, List.getElem?_modify] at ht'
        obtain ⟨t, ht, rfl⟩ := Option.map_eq_some_iff.mp ht'
        refine ⟨t, ht, ?_⟩
        split_ifs at hs' <;> exact hs'

/-- The number of tasks that are not done. -/
def left (tasks : List Task) : ℕ := tasks.countP (fun t => t.status ≠ .done)

theorem left_cons (t : Task) (l : List Task) :
    left (t :: l) = left l + if t.status = .done then 0 else 1 := by
  by_cases ht : t.status = .done <;> simp [left, ht]

theorem left_le_of_evolves {reported : Option String} {l l' : List Task}
    (h : List.Forall₂ (Task.Evolves reported) l l') : left l' ≤ left l := by
  induction h with
  | nil => exact le_rfl
  | @cons t t' l l' hev _ ih =>
      rw [left_cons, left_cons]
      by_cases ht : t.status = .done
      · rw [if_pos ht, if_pos (hev.done ht)]
        exact ih
      · rw [if_neg ht]
        split_ifs <;> omega

/-- A task that is reported is one task fewer. -/
theorem left_lt_of_evolves {reported : Option String} {l l' : List Task}
    (h : List.Forall₂ (Task.Evolves reported) l l') {i : ℕ} {t t' : Task} (ht : l[i]? = some t)
    (ht' : l'[i]? = some t') (hs : t.status ≠ .done) (hs' : t'.status = .done) :
    left l' < left l := by
  induction h generalizing i with
  | nil => cases ht
  | @cons a a' l l' hev hl ih =>
      rw [left_cons, left_cons]
      cases i with
      | zero =>
          cases ht
          cases ht'
          rw [if_neg hs, if_pos hs']
          exact Nat.lt_succ_of_le (left_le_of_evolves hl)
      | succ i =>
          have hlt : left l' < left l := ih ht ht'
          by_cases ha : a.status = .done
          · rw [if_pos ha, if_pos (hev.done ha)]
            exact hlt
          · rw [if_neg ha]
            split_ifs <;> omega

/-- A task of the phase is left. -/
theorem PhaseTracks.exists_left {c : Coordinator} (h : PhaseTracks c) (hset : c.phase ≠ .unset)
    (hdone : c.phase ≠ .done) : ∃ (i : ℕ) (t : Task), c.tasks[i]? = some t ∧
      t.tType = (if c.phase = .reduce then .reduce else .map) ∧ t.status ≠ .done := by
  have hleft : Undone (if c.phase = .reduce then .reduce else .map) c.tasks := by
    cases hp : c.phase with
    | unset => exact absurd hp hset
    | map => exact h.map.mp hp
    | reduce => exact (h.reduce.mp hp).2
    | done => exact absurd hp hdone
  obtain ⟨t, ht, htype, hs⟩ := hleft
  obtain ⟨i, hi⟩ := List.mem_iff_getElem?.mp ht
  exact ⟨i, t, hi, htype, hs⟩

theorem findPendingTask_ne_none {c : Coordinator} {i : ℕ} {t : Task} (ht : c.tasks[i]? = some t)
    (htype : t.tType = (if c.phase = .reduce then .reduce else .map)) (hs : t.status = .pending) :
    c.findPendingTask ≠ none := by
  intro hnone
  have := List.find?_eq_none.mp hnone (t, i) (List.mem_zipIdx_iff_getElem?.mpr ht)
  simp [htype, hs] at this

/-- While a task of the phase is pending, `GetTask` hands one out. -/
theorem getTask_of_pending {c : Coordinator} (hphase : c.phase ≠ .done)
    (hfind : c.findPendingTask ≠ none) (workerId : String) (now : ℤ) :
    ((c.getTask workerId now).2.1.type = .map ∨ (c.getTask workerId now).2.1.type = .reduce) ∧
      ∃ (i : ℕ) (t : Task), (c.getTask workerId now).1.tasks[i]? = some t ∧
        t.id = (c.getTask workerId now).2.1.id ∧ t.status = .onGoing := by
  have hgot := gotTask c workerId now
  generalize c.getTask workerId now = r at hgot ⊢
  cases hgot with
  | exit h => exact absurd h hphase
  | wait _ hnone => exact absurd hnone hfind
  | @task i t _ ht htype hs =>
      constructor
      · split_ifs at htype
        · exact Or.inr htype
        · exact Or.inl htype
      · exact ⟨i, _, List.getElem?_set_self (List.getElem?_eq_some_iff.mp ht).1, rfl, rfl⟩

theorem left_updateTask_lt {c : Coordinator} {i : ℕ} {t : Task} (ht : c.tasks[i]? = some t)
    (hs : t.status ≠ .done) (workerId : String) :
    left (c.updateTask ⟨workerId, t.id, .done⟩).tasks < left c.tasks := by
  have ht' : (c.updateTask ⟨workerId, t.id, .done⟩).tasks[i]? =
      some { t with status := .done } := by
    simp [Coordinator.updateTask, ht]
  exact left_lt_of_evolves (evolves_updateTask c rfl) ht ht' hs rfl

/-- The coordinator's part of a run, with the condition. -/
theorem reachable_proc_inTime {job : Job} {s : State} (h : (system job).ReachableBy InTime s) :
    (coordinator job.files job.nReduce).ReachableBy
      (fun p a => a.ReportsDone ∧ SetsPhaseInTime p a) s.proc := by
  refine h.simulate State.proc rfl ?_
  intro s a s' hr hin hstep
  cases State.step_cases hstep with
  | @coord a p ha h =>
      exact Or.inr ⟨a, ⟨(Process.Action.reported_of_ne_serve ha).1, hin⟩, h⟩
  | start workerId => exact Or.inl rfl
  | ping hw hpc => exact Or.inl rfl
  | call hw hreq => exact Or.inl rfl
  | @serve k q hq =>
      refine Or.inr ⟨.serve q.msg, ⟨?_, trivial⟩, rfl⟩
      exact reachable_reportsDone hr q (List.mem_of_getElem? hq)
  | callTrue hw hp hrec => exact Or.inl rfl
  | callFalse hw hf => exact Or.inl rfl
  | work hw hwork => exact Or.inl rfl

/-! ### A worker by itself -/

section worker

variable {job : Job} {ws : List Worker}

/-- The condition on a step: the worker `w` takes it, without a fault. -/
def Works (w : ℕ) (_ : State) (a : Action) : Prop :=
  ∃ b : Worker.Action, a = .work w b ∧ b.benign = true

/-- What a worker by itself leaves as it is. -/
theorem Works.frame {w : ℕ} {s t : State} (h : (system job).ReachesBy (Works w) s t) :
    t.proc = s.proc ∧ t.calls = s.calls ∧
      t.workers.map Worker.logger = s.workers.map Worker.logger := by
  refine h.stable (P := fun t => t.proc = s.proc ∧ t.calls = s.calls ∧
    t.workers.map Worker.logger = s.workers.map Worker.logger) ?_ ⟨rfl, rfl, rfl⟩
  rintro t a t' ⟨hproc, hcalls, hloggers⟩ ⟨b, rfl, -⟩ hs
  have hs : t.step job (.work w b) = some t' := hs
  cases State.step_cases hs with
  | @work w wk wk' a op hw hwork =>
      exact ⟨hproc, hcalls, (map_set_of_eq hw hwork.logger_eq).trans hloggers⟩

/-- Some state that the last worker reaches by itself from `s`, and the worker there. -/
def Leads (job : Job) (ws : List Worker) (s : State) (P : Worker → Prop) : Prop :=
  ∃ t wk, (system job).ReachesBy (Works ws.length) s t ∧ t.workers = ws ++ [wk] ∧ P wk

theorem Leads.of_worker {s : State} {wk : Worker} {P : Worker → Prop}
    (hw : s.workers = ws ++ [wk]) (h : P wk) : Leads job ws s P :=
  ⟨s, wk, .refl, hw, h⟩

/-- One step, and then the rest. -/
theorem Leads.step {s : State} {wk wk' : Worker} {P : Worker → Prop} {a : Worker.Action}
    {op : DiskOp} (hw : s.workers = ws ++ [wk]) (ha : a.benign = true)
    (h : wk.step job s.disk a = some (wk', op))
    (hrest : ∀ t : State, t.workers = ws ++ [wk'] → Leads job ws t P) : Leads job ws s P := by
  have hstep : (system job).step s (.work ws.length a) =
      some ((s.become ws.length wk').perform op) := by
    simp [system, State.step, hw, h]
  have hw' : ((s.become ws.length wk').perform op).workers = ws ++ [wk'] := by
    simp [hw]
  obtain ⟨t, wk'', ht, hwt, hP⟩ := hrest _ hw'
  exact ⟨t, wk'', (Lts.ReachesBy.single ⟨a, rfl, ha⟩ hstep).trans ht, hwt, hP⟩

theorem Leads.trans {s : State} {P Q : Worker → Prop} (h : Leads job ws s P)
    (hrest : ∀ t wk, t.workers = ws ++ [wk] → P wk → Leads job ws t Q) : Leads job ws s Q := by
  obtain ⟨t, wk, hst, hw, hP⟩ := h
  obtain ⟨u, wk', htu, hw', hQ⟩ := hrest t wk hw hP
  exact ⟨u, wk', hst.trans htu, hw', hQ⟩

/-! The writers. -/

/-- How many steps a `writeFile` has left. -/
def Stage.rank : Stage → ℕ
  | .sort _ => 5
  | .create _ => 4
  | .write _ _ => 3
  | .close _ => 2
  | .rename _ => 1
  | .done => 0

def Writer.rank (wr : Writer) : ℕ := wr.stage.rank

theorem exists_tmpName_not_mem (disk : Disk) : ∃ n, tmpName n ∉ disk := by
  have hinf : (Set.range tmpName).Infinite :=
    Set.infinite_range_of_injective (fun _ _ => tmpName_inj)
  obtain ⟨name, ⟨n, rfl⟩, hn⟩ := hinf.exists_notMem_finset disk.keys.toFinset
  exact ⟨n, fun h => hn (List.mem_toFinset.mpr (AList.mem_keys.mp h))⟩

theorem exists_sortsTo (kvs : List KeyValue) : ∃ sorted, SortsTo kvs sorted :=
  ⟨kvs.insertionSort (fun a b => a.key ≤ b.key), List.perm_insertionSort _ _,
    List.pairwise_insertionSort _ _⟩

/-- A writer that is not done can go on. -/
theorem exists_write (job : Job) (disk : Disk) {wk : Worker} {i : ℕ} {wr : Writer}
    (hwr : wk.writers[i]? = some wr) (hdone : wr.stage ≠ .done) :
    ∃ (a : Worker.Action) (stage : Stage) (op : DiskOp), a.benign = true ∧
      wk.step job disk a = some (wk.setStage i stage, op) ∧ stage.rank < wr.rank := by
  unfold Writer.rank
  cases hst : wr.stage with
  | sort kvs =>
      obtain ⟨sorted, hs⟩ := exists_sortsTo kvs
      refine ⟨.write i (.sort sorted), .create (.json sorted), .keep, rfl, ?_, ?_⟩
      · simp [Worker.step, Worker.write, hwr, hst, hs]
      · simp [Stage.rank]
  | create content =>
      obtain ⟨n, hn⟩ := exists_tmpName_not_mem disk
      refine ⟨.write i (.create n), .write n content, .write (tmpName n) (.text []), rfl, ?_, ?_⟩
      · simp [Worker.step, Worker.write, hwr, hst, hn]
      · simp [Stage.rank]
  | write n content =>
      refine ⟨.write i .advance, .close n, .write (tmpName n) content, rfl, ?_, ?_⟩
      · simp [Worker.step, Worker.write, hwr, hst]
      · simp [Stage.rank]
  | close n =>
      refine ⟨.write i .advance, .rename n, .keep, rfl, ?_, ?_⟩
      · simp [Worker.step, Worker.write, hwr, hst]
      · simp [Stage.rank]
  | rename n =>
      refine ⟨.write i .advance, .done, .rename (tmpName n) wr.filename, rfl, ?_, ?_⟩
      · simp [Worker.step, Worker.write, hwr, hst]
      · simp [Stage.rank]
  | done => exact absurd hst hdone

/-- The steps that the writers of a worker have left. -/
def Worker.rank (wk : Worker) : ℕ := (wk.writers.map Writer.rank).sum

theorem rank_setStage_lt {wk : Worker} {i : ℕ} {wr : Writer} {stage : Stage}
    (hwr : wk.writers[i]? = some wr) (h : stage.rank < wr.rank) :
    (wk.setStage i stage).rank < wk.rank := by
  have hset : wk.writers.modify i (fun wr => { wr with stage }) =
      wk.writers.set i { wr with stage } := by
    rw [List.modify_eq_set_getElem?, hwr]
    rfl
  unfold Worker.rank
  rw [Worker.setStage_writers, hset]
  exact sum_map_set_lt hwr h

/-- All writers come to their end, and `wg.Wait` returns. -/
theorem leads_joined {pc : Pc} {s : State} {wk : Worker} (hw : s.workers = ws ++ [wk])
    (hpc : wk.pc = pc) : Leads job ws s (fun wk => wk.pc = pc ∧ wk.joined = true) := by
  induction hr : wk.rank using Nat.strong_induction_on generalizing s wk with
  | _ r ih =>
      by_cases hj : wk.joined = true
      · exact .of_worker hw ⟨hpc, hj⟩
      · -- a writer is left, and its next step lowers the rank
        obtain ⟨wr, hmem, hdone⟩ : ∃ wr ∈ wk.writers, wr.stage ≠ .done := by
          simpa [Worker.joined] using hj
        obtain ⟨i, hi⟩ := List.mem_iff_getElem?.mp hmem
        obtain ⟨a, stage, op, ha, hstep, hlt⟩ := exists_write job s.disk hi hdone
        refine .step hw ha hstep ?_
        intro t ht
        exact ih _ (hr ▸ rank_setStage_lt hi hlt) ht hpc rfl

/-- The worker has executed the task. -/
def Executed (task : GetTaskOut) (wk : Worker) : Prop := wk.pc = .markDone task.id

theorem leads_map {s : State} {wk : Worker} {task : GetTaskOut} (hw : s.workers = ws ++ [wk])
    (hpc : wk.pc = .mapRead task) : Leads job ws s (Executed task) := by
  cases hl : s.disk.lookup task.input with
  | none =>
      have hrun : wk.step job s.disk .run = some (wk.goto (.markDone task.id), .keep) := by
        simp [Worker.step, Worker.run, hpc, hl]
      exact .step hw rfl hrun (fun t ht => .of_worker ht rfl)
  | some content =>
      have hrun : wk.step job s.disk .run = some
          ({ wk with
              pc := .mapWrite task
              writers := writeBucketsToDisk task.id
                (splitIntoBuckets (job.mapf task.input content.string) task.nReduce) }, .keep) := by
        simp [Worker.step, Worker.run, hpc, hl]
      refine .step hw rfl hrun ?_
      intro t ht
      refine (leads_joined ht rfl).trans ?_
      rintro u wk' hu ⟨hpc', hj⟩
      have hdone : wk'.step job u.disk .run =
          some ({ wk' with pc := .markDone task.id, writers := [] }, .keep) := by
        simp [Worker.step, Worker.run, hpc', hj]
      exact .step hu rfl hdone (fun v hv => .of_worker hv rfl)

theorem leads_delete {s : State} {wk : Worker} {task : GetTaskOut} {todo : List String}
    (hw : s.workers = ws ++ [wk]) (hpc : wk.pc = .delete task todo) :
    Leads job ws s (Executed task) := by
  induction todo generalizing s wk with
  | nil =>
      have hrun : wk.step job s.disk .run = some (wk.goto (.markDone task.id), .keep) := by
        simp [Worker.step, Worker.run, hpc]
      exact .step hw rfl hrun (fun t ht => .of_worker ht rfl)
  | cons filename todo ih =>
      have hrun : wk.step job s.disk .run =
          some (wk.goto (.delete task todo), .remove filename) := by
        simp [Worker.step, Worker.run, hpc]
      exact .step hw rfl hrun (fun t ht => ih ht rfl)

theorem leads_reduceRead {s : State} {wk : Worker} {task : GetTaskOut}
    {filenames todo : List String} {kvs : List KeyValue} (hw : s.workers = ws ++ [wk])
    (hpc : wk.pc = .reduceRead task filenames todo kvs) : Leads job ws s (Executed task) := by
  induction todo generalizing s wk kvs with
  | nil =>
      have hreduce : wk.step job s.disk (.reduce (groupValuesByKey kvs)) = some
          ({ wk with
              pc := .reduceWrite task filenames
              writers := [⟨outName task.idx, .create (.text
                (reduceValuesByKey job.reducef (groupValuesByKey kvs)))⟩] }, .keep) := by
        simp [Worker.step, Worker.reduce, hpc]
      refine .step hw rfl hreduce ?_
      intro t ht
      refine (leads_joined ht rfl).trans ?_
      rintro u wk' hu ⟨hpc', hj⟩
      have hdone : wk'.step job u.disk .run =
          some ({ wk' with pc := .delete task filenames, writers := [] }, .keep) := by
        simp [Worker.step, Worker.run, hpc', hj]
      exact .step hu rfl hdone (fun v hv => leads_delete hv rfl)
  | cons filename todo ih =>
      cases hl : s.disk.lookup filename with
      | none =>
          have hrun : wk.step job s.disk .run = some (wk.goto (.markDone task.id), .keep) := by
            simp [Worker.step, Worker.run, hpc, hl]
          exact .step hw rfl hrun (fun t ht => .of_worker ht rfl)
      | some content =>
          have hrun : wk.step job s.disk .run = some
              (wk.goto (.reduceRead task filenames todo (kvs ++ content.unmarshal)), .keep) := by
            simp [Worker.step, Worker.run, hpc, hl]
          exact .step hw rfl hrun (fun t ht => ih ht rfl)

theorem leads_glob {s : State} {wk : Worker} {task : GetTaskOut} (hw : s.workers = ws ++ [wk])
    (hpc : wk.pc = .glob task) : Leads job ws s (Executed task) := by
  have hrun : wk.step job s.disk .run = some
      (wk.goto (.reduceRead task (MapReduce.glob task.input s.disk.keys)
        (MapReduce.glob task.input s.disk.keys) []), .keep) := by
    simp [Worker.step, Worker.run, hpc]
  exact .step hw rfl hrun (fun t ht => leads_reduceRead ht rfl)

/-- A worker that has got a task executes it. -/
theorem leads_executed {s : State} {wk : Worker} {task : GetTaskOut}
    (hw : s.workers = ws ++ [wk.dispatch task]) (ht : task.type = .map ∨ task.type = .reduce) :
    Leads job ws s (Executed task) := by
  rcases ht with ht | ht
  · exact leads_map hw (by simp [Worker.dispatchTo, ht])
  · exact leads_glob hw (by simp [Worker.dispatchTo, ht])

end worker

/-! ### One round -/

section rounds

variable {job : Job} {s₀ : State} {ws : List Worker}

/-- A call of the last worker is served at once and returns. -/
theorem exists_exchange (job : Job) (ids : ℕ → String) {s : State} {wk wk' wk'' : Worker}
    {msg : Msg} (hlen : s₀.workers.length ≤ ws.length) (hcalls : s₀.calls ≤ s.calls)
    (hw : s.workers = ws ++ [wk]) (hreq : wk.request s.calls = some (msg, wk'))
    (hrec : wk'.receive s.calls (s.proc.serve msg).2 = some wk'') :
    ∃ t, (system job).ReachesBy (Rescue job ids s₀) s t ∧ t.proc = (s.proc.serve msg).1 ∧
      t.workers = ws ++ [wk''] ∧ s₀.calls ≤ t.calls := by
  have hcall : (system job).step s (.call ws.length) =
      some ((s.send msg).become ws.length wk') := by
    simp [system, State.step, hw, hreq]
  have hq : ((s.send msg).become ws.length wk').requests[s.requests.length]? =
      some ⟨s.calls, msg⟩ := by
    simp
  have hserve : (system job).step ((s.send msg).become ws.length wk') (.serve s.requests.length) =
      some (((s.send msg).become ws.length wk').serve s.requests.length ⟨s.calls, msg⟩) := by
    simp [system, State.step]
  have htrue : (system job).step
      (((s.send msg).become ws.length wk').serve s.requests.length ⟨s.calls, msg⟩)
      (.callTrue ws.length s.replies.length) = some
        ((((s.send msg).become ws.length wk').serve s.requests.length
          ⟨s.calls, msg⟩).become ws.length wk'') := by
    simp [system, State.step, hw, hrec]
  refine ⟨_, ((Lts.ReachesBy.single ?_ hcall).step ?_ hserve).step ?_ htrue, rfl, ?_, ?_⟩
  · exact hlen
  · exact ⟨_, hq, hcalls⟩
  · exact hlen
  · simp [hw]
  · exact hcalls.trans (Nat.le_succ _)

/-- What the rounds keep: the phase follows the tasks, all workers have stopped, and for every
worker that was started after `s₀` there is one task fewer. -/
structure Rescued (job : Job) (s₀ s : State) : Prop where
  reached : (system job).ReachableBy InTime s
  returned : s.proc.returned = true
  stopped : ∀ wk ∈ s.workers, wk.pc = .exited
  calls : s₀.calls ≤ s.calls
  workers : ∃ news, s.workers = s₀.workers ++ news ∧
    news.length + left s.proc.coord.tasks ≤ left s₀.proc.coord.tasks ∧
    ∀ wk ∈ news, wk.logger.defaults.length = 4

/-- A task of the phase is pending, or its checker makes it so. -/
theorem Rescued.exists_pending (ids : ℕ → String) {s : State} (h : Rescued job s₀ s)
    (hdone : s.proc.coord.phase ≠ .done) :
    ∃ p : Process, (system job).ReachesBy (Rescue job ids s₀) s (s.setProc p) ∧
      p.returned = true ∧ left p.coord.tasks ≤ left s.proc.coord.tasks ∧ p.coord.phase ≠ .done ∧
      p.coord.findPendingTask ≠ none := by
  have hproc := reachable_proc_inTime h.reached
  have hreports := hproc.mono (fun _ _ hc => hc.1)
  have hbehind := reachable_notBehind hproc
  have htracks := hbehind.tracks (reachable_coordinatorOk hreports) h.returned
  obtain ⟨i, task, hi, htype, hs⟩ := htracks.exists_left (hbehind.unset h.returned) hdone
  cases hst : task.status with
  | done => exact absurd hst hs
  | pending =>
      exact ⟨s.proc, .refl, h.returned, le_rfl, hdone, findPendingTask_ne_none hi htype hst⟩
  | onGoing =>
      obtain ⟨k, hk⟩ := List.mem_iff_getElem?.mp (reachable_checked hreports i task hi hst)
      -- the clock moves on until the last ping is too old
      let now := max s.proc.now (task.lastPing + 10001)
      let p : Process := { s.proc with now }
      let p' : Process := { p with coord := p.coord.checkTask i now }
      have hclock : (system job).step s (.coord (.clock now)) = some (s.setProc p) := rfl
      have hcheck : (system job).step (s.setProc p) (.coord (.check k)) =
          some (s.setProc p') := by
        simp [system, State.step, Process.step, State.setProc, p, p', hk]
      have hforward : Rescue job ids s₀ s (.coord (.clock now)) := le_max_left _ _
      have hchecker : Rescue job ids s₀ (s.setProc p) (.coord (.check k)) := trivial
      have hlate : now - task.lastPing > 10000 := by
        have := le_max_right s.proc.now (task.lastPing + 10001)
        omega
      have hi' : p'.coord.tasks[i]? = some { task with status := .pending, workerId := "" } := by
        simp [p', p, Coordinator.checkTask, hi, hst, hlate]
      refine ⟨p', (Lts.ReachesBy.single hforward hclock).step hchecker hcheck, h.returned, ?_,
        hdone, findPendingTask_ne_none hi' htype rfl⟩
      exact left_le_of_evolves (evolves_checkTask s.proc.coord i now)

/-- A new worker gets a task, executes it and reports it. -/
theorem exists_task_done (ids : ℕ → String) (hn : 0 < job.nReduce) {s : State} {wk : Worker}
    (hlen : s₀.workers.length ≤ ws.length) (hcalls : s₀.calls ≤ s.calls)
    (hw : s.workers = ws ++ [wk]) (hpc : wk.pc = .getTask) (hlogger : wk.logger.Grown 0)
    (hdone : s.proc.coord.phase ≠ .done) (hfind : s.proc.coord.findPendingTask ≠ none) :
    ∃ t wk', (system job).ReachesBy (Rescue job ids s₀) s t ∧ t.workers = ws ++ [wk'] ∧
      wk'.pc = .getTask ∧ wk'.logger.Grown 1 ∧ s₀.calls ≤ t.calls ∧
      t.proc.returned = s.proc.returned ∧ left t.proc.coord.tasks < left s.proc.coord.tasks := by
  -- `GetTask`
  obtain ⟨htype, i, task, hi, hid, hongoing⟩ :=
    getTask_of_pending hdone hfind wk.workerId s.proc.now
  have hreq : wk.request s.calls =
      some (.getTask wk.workerId, wk.goto (.waitTask s.calls)) := by
    simp [Worker.request, hpc]
  have hrec : (wk.goto (.waitTask s.calls)).receive s.calls
      (s.proc.serve (.getTask wk.workerId)).2 = some ((wk.goto (.waitTask s.calls)).dispatch
        (s.proc.coord.getTask wk.workerId s.proc.now).2.1) := by
    simp [Worker.receive, Process.serve]
  obtain ⟨s₂, hs₂, hproc₂, hw₂, hcalls₂⟩ := exists_exchange job ids hlen hcalls hw hreq hrec
  -- the task is executed
  obtain ⟨s₃, wk₃, hs₃, hw₃, hpc₃⟩ := leads_executed hw₂ htype
  obtain ⟨hproc₃, hcalls₃, hloggers₃⟩ := Works.frame hs₃
  have hlogger₃ : wk₃.logger.Grown 1 := by
    rw [hw₂, hw₃, List.map_append, List.map_append] at hloggers₃
    have he := List.append_cancel_left hloggers₃
    simp only [List.map_cons, List.map_nil, List.cons.injEq, and_true] at he
    rw [he]
    exact hlogger.logTask _
  have hs₃ : (system job).ReachesBy (Rescue job ids s₀) s₂ s₃ := by
    refine hs₃.mono ?_
    rintro s a ⟨b, rfl, hb⟩
    cases b <;> first | exact ⟨hlen, hn, hb⟩ | cases hb
  -- `UpdateTask`
  have hreq₃ : wk₃.request s₃.calls =
      some (.updateTask ⟨wk₃.workerId, task.id, .done⟩, wk₃.goto (.waitDone s₃.calls)) := by
    unfold Worker.request
    rw [show wk₃.pc = .markDone task.id from hid ▸ hpc₃]
  have hrec₃ : (wk₃.goto (.waitDone s₃.calls)).receive s₃.calls
      (s₃.proc.serve (.updateTask ⟨wk₃.workerId, task.id, .done⟩)).2 =
        some (wk₃.goto .getTask) := by
    simp [Worker.receive, Process.serve, Worker.goto]
  obtain ⟨s₄, hs₄, hproc₄, hw₄, hcalls₄⟩ :=
    exists_exchange job ids hlen (hcalls₂.trans hcalls₃.ge) hw₃ hreq₃ hrec₃
  refine ⟨s₄, _, (hs₂.trans hs₃).trans hs₄, hw₄, rfl, hlogger₃, hcalls₄, ?_, ?_⟩
  · rw [hproc₄, hproc₃, hproc₂]
    rfl
  · rw [hproc₄, hproc₃, hproc₂]
    calc left (((s.proc.coord.getTask wk.workerId s.proc.now).1.updateTask
            ⟨wk₃.workerId, task.id, .done⟩).tasks)
        < left (s.proc.coord.getTask wk.workerId s.proc.now).1.tasks :=
          left_updateTask_lt hi (by simp [hongoing]) _
      _ ≤ left s.proc.coord.tasks := left_le_of_evolves (evolves_getTask _ _ _)

/-- One round: a worker is started, does a task and stops. -/
theorem Rescued.exists_round (ids : ℕ → String) {s : State} (h : Rescued job s₀ s)
    (hn : 0 < job.nReduce) (hdone : s.proc.coord.phase ≠ .done) :
    ∃ t, (system job).ReachesBy (Rescue job ids s₀) s t ∧ Rescued job s₀ t ∧
      left t.proc.coord.tasks < left s.proc.coord.tasks := by
  obtain ⟨news, hworkers, hcount, hloggers⟩ := h.workers
  have hlen : s₀.workers.length ≤ s.workers.length := by
    simp [hworkers]
  obtain ⟨p, hs₁, hret, hle, hdone₁, hfind⟩ := h.exists_pending ids hdone
  let workerId := ids s.workers.length
  have hstart : (system job).step (s.setProc p) (.start workerId) =
      some ((s.setProc p).spawn workerId) := rfl
  have hnamed : Rescue job ids s₀ (s.setProc p) (.start workerId) := rfl
  obtain ⟨t, wk, ht, hw, hpc, hgrown, hcalls, hreturned, hlt⟩ :=
    exists_task_done ids (s := (s.setProc p).spawn workerId) hn hlen h.calls rfl rfl
      (Logger.grown_forWorker workerId) hdone₁ hfind
  -- the worker stops
  let stopped : Worker := { wk with pc := .exited, writers := [] }
  have hcrash : (system job).step t (.work s.workers.length .crash) =
      some ((t.become s.workers.length stopped).perform .keep) := by
    simp [system, State.step, Worker.step, hw, stopped]
  have hbetween : Rescue job ids s₀ t (.work s.workers.length .crash) := by
    refine ⟨hlen, wk, ?_, hpc⟩
    rw [hw]
    exact List.getElem?_concat_length
  have hreach : (system job).ReachesBy (Rescue job ids s₀) s
      ((t.become s.workers.length stopped).perform .keep) :=
    ((hs₁.step hnamed hstart).trans ht).step hbetween hcrash
  have hworkers' : ((t.become s.workers.length stopped).perform .keep).workers =
      s.workers ++ [stopped] := by
    simp [hw]
  refine ⟨_, hreach, ?_, hlt.trans_le hle⟩
  refine ⟨h.reached.trans (hreach.mono (fun _ _ hr => hr.inTime)), hreturned.trans hret, ?_, hcalls,
    news ++ [stopped], ?_, ?_, ?_⟩
  · intro wk' hwk'
    rw [hworkers'] at hwk'
    rcases List.mem_append.mp hwk' with hwk' | hwk'
    · exact h.stopped wk' hwk'
    · rw [List.mem_singleton.mp hwk']
  · rw [hworkers', hworkers, List.append_assoc]
  · have hleft : left t.proc.coord.tasks < left s.proc.coord.tasks := hlt.trans_le hle
    show (news ++ [stopped]).length + left t.proc.coord.tasks ≤ _
    rw [List.length_append, List.length_singleton]
    omega
  · intro wk' hwk'
    rcases List.mem_append.mp hwk' with hwk' | hwk'
    · exact hloggers wk' hwk'
    · rw [List.mem_singleton.mp hwk']
      exact Nat.succ_injective hgrown.length

end rounds

/-- Once all workers have stopped, in a run in which a map task is left when `MakeCoordinator` sets
the phase, further workers without a fault lead to a state in which the job is done, whatever faults
the run has had and whatever the new workers are called.  They are at most as many as there are
tasks left, and each of them stops after one task. -/
theorem job_can_finish {job : Job} {s : State} (hn : 0 < job.nReduce)
    (h : (system job).ReachableBy InTime s) (hret : s.proc.returned = true)
    (hstopped : ∀ wk ∈ s.workers, wk.pc = .exited) (ids : ℕ → String) :
    ∃ t news, (system job).ReachesBy (Rescue job ids s) s t ∧ t.proc.coord.isDone = true ∧
      t.workers = s.workers ++ news ∧ (∀ wk ∈ t.workers, wk.pc = .exited) ∧
      news.length ≤ left s.proc.coord.tasks ∧ ∀ wk ∈ news, wk.logger.defaults.length = 4 := by
  have hrescued : Rescued job s s :=
    ⟨h, hret, hstopped, le_rfl, [], by simp, by simp, by simp⟩
  obtain ⟨t, ht, ⟨-, -, hexited, -, news, hworkers, hcount, hloggers⟩, hdone⟩ :=
    Lts.exists_reaches_of_measure (Q := fun t => t.proc.coord.phase = .done)
      (fun t => left t.proc.coord.tasks) (fun t ht hdone => ht.exists_round ids hn hdone) hrescued
  exact ⟨t, news, ht, decide_eq_true hdone, hworkers, hexited, by omega, hloggers⟩

/-- A worker has got the only map task and has crashed. -/
theorem job_can_finish_crashed : ∃ s, (system oneWordJob).ReachableBy InTime s ∧
    (s.proc.returned = true ∧ s.workers.map Worker.pc = [.exited] ∧
      s.proc.coord.tasks.map Task.status = [.onGoing, .pending]) ∧
    ∃ t news, (system oneWordJob).ReachesBy (Rescue oneWordJob (fun _ => "w'") s) s t ∧
      t.proc.coord.isDone = true ∧ t.workers = s.workers ++ news ∧
      (∀ wk ∈ t.workers, wk.pc = .exited) ∧ news.length ≤ left s.proc.coord.tasks ∧
      ∀ wk ∈ news, wk.logger.defaults.length = 4 := by
  obtain ⟨s, hs, hp⟩ := Lts.exists_of_exec (L := system oneWordJob) (C := InTime)
    (p := fun s => decide (s.proc.returned = true ∧ s.workers.map Worker.pc = [.exited] ∧
      s.proc.coord.tasks.map Task.status = [.onGoing, .pending]))
    [.coord .ready, .start "w", .call 0, .serve 0, .callTrue 0 0, .work 0 .crash] (by decide)
  have hp := of_decide_eq_true hp
  have hstopped : ∀ wk ∈ s.workers, wk.pc = .exited := by
    intro wk hwk
    have hmem : wk.pc ∈ s.workers.map Worker.pc := List.mem_map_of_mem hwk
    rw [hp.2.1] at hmem
    exact List.mem_singleton.mp hmem
  exact ⟨s, hs, hp, job_can_finish (by decide) hs hp.1 hstopped _⟩

end DistributedSystems.MapReduce
