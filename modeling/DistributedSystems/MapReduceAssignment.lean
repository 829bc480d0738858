import DistributedSystems.MapReduceSystem

/-! # Tasks and their workers

`GetTask` records in a task the worker it is handed to, and every `Ping` of the worker keeps all
tasks alive that record it.  So the coordinator never takes a task back from a worker that has
forgotten it.

A worker forgets a task when the reply that hands it out is lost, when the handler of a `GetTask`
runs after its call has failed, or when its report is lost (`task_stranded`).  In the runs without
these (`KeepsTasks`), every ongoing task that records a live worker is the one that the worker
executes, is about to receive or is about to report, and there is at most one
(`tasks_of_live_workers`). -/

namespace DistributedSystems.MapReduce

/-! ### Recorded workers -/

/-- An ongoing task with the id records the worker. -/
def Assigned (tasks : List Task) (workerId taskId : String) : Prop :=
  ∃ t ∈ tasks, t.status = .onGoing ∧ t.workerId = workerId ∧ t.id = taskId

/-- The reply hands out a task. -/
def GetTaskOut.HandsOut (out : GetTaskOut) : Prop := out.type = .map ∨ out.type = .reduce

instance (out : GetTaskOut) : Decidable out.HandsOut :=
  inferInstanceAs (Decidable (_ ∨ _))

section

variable {c : Coordinator} {workerId taskId : String}

theorem assigned_ping {pinging : String} {now : ℤ}
    (h : Assigned (c.ping pinging now).tasks workerId taskId) :
    Assigned c.tasks workerId taskId := by
  obtain ⟨t', ht', hs, hw, hid⟩ := h
  obtain ⟨t, ht, rfl⟩ := List.mem_map.mp ht'
  refine ⟨t, ht, ?_⟩
  split_ifs at hs hw hid <;> exact ⟨hs, hw, hid⟩

theorem assigned_checkTask {i : ℕ} {now : ℤ}
    (h : Assigned (c.checkTask i now).tasks workerId taskId) :
    Assigned c.tasks workerId taskId := by
  obtain ⟨t', ht', hs, hw, hid⟩ := h
  obtain ⟨j, hj⟩ := List.mem_iff_getElem?.mp ht'
  simp only [Coordinator.checkTask, List.getElem?_modify, Option.map_eq_map,
    Option.map_eq_some_iff] at hj
  obtain ⟨t, ht, rfl⟩ := hj
  refine ⟨t, List.mem_of_getElem? ht, ?_⟩
  split_ifs at hs hw hid <;> exact ⟨hs, hw, hid⟩

theorem assigned_updateTask {args : UpdateTaskIn} (hdone : args.status = .done)
    (h : Assigned (c.updateTask args).tasks workerId taskId) :
    Assigned c.tasks workerId taskId ∧ taskId ≠ args.taskId := by
  obtain ⟨t', ht', hs, hw, hid⟩ := h
  obtain ⟨t, ht, rfl⟩ := List.mem_map.mp ht'
  split_ifs at hs hw hid with he
  · cases hdone.symm.trans hs
  · exact ⟨⟨t, ht, hs, hw, hid⟩, fun h => he (hid.trans h)⟩

/-- `GetTask` records its caller in the task it hands out. -/
theorem assigned_getTask {caller : String} {now : ℤ}
    (h : Assigned (c.getTask caller now).1.tasks workerId taskId) :
    Assigned c.tasks workerId taskId ∨
      workerId = caller ∧ (c.getTask caller now).2.1.HandsOut ∧
        (c.getTask caller now).2.1.id = taskId := by
  have hgot := gotTask c caller now
  generalize c.getTask caller now = r at h hgot ⊢
  cases hgot with
  | exit _ => exact Or.inl h
  | wait _ _ => exact Or.inl h
  | @task i t _ ht htype _ =>
      obtain ⟨t', ht', hs, hw, hid⟩ := h
      obtain ⟨j, hj⟩ := List.mem_iff_getElem?.mp ht'
      rcases getElem?_set_cases hj with ⟨-, rfl⟩ | ⟨-, hj⟩
      · refine Or.inr ⟨hw.symm, ?_, hid⟩
        unfold GetTaskOut.HandsOut
        dsimp only
        rw [htype]
        split_ifs
        · exact Or.inr rfl
        · exact Or.inl rfl
      · exact Or.inl ⟨t', List.mem_of_getElem? hj, hs, hw, hid⟩

/-- The clock, `MakeCoordinator` and the checkers record no worker. -/
theorem assigned_step {p p' : Process} {a : Process.Action} (ha : ∀ msg, a ≠ .serve msg)
    (hstep : p.step a = some p') (h : Assigned p'.coord.tasks workerId taskId) :
    Assigned p.coord.tasks workerId taskId := by
  cases a with
  | clock now =>
      cases hstep
      exact h
  | ready =>
      simp only [Process.step] at hstep
      split_ifs at hstep
      cases hstep
      exact h
  | serve msg => exact absurd rfl (ha msg)
  | check k =>
      simp only [Process.step] at hstep
      obtain ⟨i, -, hstep⟩ := Option.bind_eq_some_iff.mp hstep
      cases hstep
      exact assigned_checkTask h

end

/-! ### Calls -/

/-- The numbers of the calls whose request or reply is in the network. -/
def State.numbers (s : State) : List ℕ :=
  s.requests.map Request.call ++ s.replies.map Response.call

/-- Every call has one request or one reply. -/
structure CallsOnce (s : State) : Prop where
  lt : ∀ n ∈ s.numbers, n < s.calls
  nodup : s.numbers.Nodup

theorem CallsOnce.send {s : State} (h : CallsOnce s) (msg : Msg) : CallsOnce (s.send msg) := by
  have hperm : (s.send msg).numbers.Perm (s.calls :: s.numbers) := by
    simp only [State.numbers, State.send_requests, State.send_replies, List.map_append,
      List.map_cons, List.map_nil, List.append_assoc]
    exact List.perm_middle
  constructor
  · intro n hn
    rw [State.send_calls]
    rcases List.mem_cons.mp (hperm.mem_iff.mp hn) with rfl | hn
    · omega
    · have := h.lt n hn
      omega
  · rw [hperm.nodup_iff, List.nodup_cons]
    refine ⟨?_, h.nodup⟩
    intro hn
    have := h.lt _ hn
    omega

theorem CallsOnce.serve {s : State} (h : CallsOnce s) {k : ℕ} {q : Request}
    (hq : s.requests[k]? = some q) : CallsOnce (s.serve k q) := by
  have hperm : (s.serve k q).numbers.Perm s.numbers := by
    obtain ⟨hk, rfl⟩ := List.getElem?_eq_some_iff.mp hq
    simp only [State.numbers, State.serve_requests, State.serve_replies, List.map_append,
      List.map_cons, List.map_nil]
    have herase := (List.getElem_cons_eraseIdx_perm hk).map Request.call
    refine List.Perm.trans ?_ (herase.append_right _)
    rw [← List.append_assoc, List.map_cons, List.cons_append]
    exact List.perm_append_singleton _ _
  constructor
  · intro n hn
    exact h.lt n (hperm.mem_iff.mp hn)
  · rw [hperm.nodup_iff]
    exact h.nodup

theorem reachable_callsOnce {job : Job} {C : State → Action → Prop} {s : State}
    (h : (system job).ReachableBy C s) : CallsOnce s := by
  refine h.invariant (I := CallsOnce) ?_ ?_
  · exact ⟨by simp [system, State.init, State.numbers], by simp [system, State.init, State.numbers]⟩
  · intro s a s' _ ih _ hstep
    cases State.step_cases hstep with
    | ping hw hpc => exact ih.send _
    | call hw hr => exact ⟨(ih.send _).lt, (ih.send _).nodup⟩
    | serve hq => exact ih.serve hq
    | _ => exact ⟨ih.lt, ih.nodup⟩

theorem CallsOnce.call_ne {s : State} (h : CallsOnce s) {q : Request} {p : Response}
    (hq : q ∈ s.requests) (hp : p ∈ s.replies) : q.call ≠ p.call := by
  intro he
  exact List.disjoint_of_nodup_append h.nodup (List.mem_map_of_mem hq)
    (he ▸ List.mem_map_of_mem hp)

theorem CallsOnce.request_inj {s : State} (h : CallsOnce s) {q q' : Request} (hq : q ∈ s.requests)
    (hq' : q' ∈ s.requests) (he : q.call = q'.call) : q = q' :=
  List.inj_on_of_nodup_map h.nodup.of_append_left hq hq' he

theorem CallsOnce.reply_inj {s : State} (h : CallsOnce s) {p p' : Response} (hp : p ∈ s.replies)
    (hp' : p' ∈ s.replies) (he : p.call = p'.call) : p = p' :=
  List.inj_on_of_nodup_map h.nodup.of_append_right hp hp' he

/-! ### What a worker knows of its task -/

/-- The task that the worker executes, or has executed and not yet reported. -/
def Worker.taskId (wk : Worker) : Option String :=
  match wk.pc with
  | .mapRead task => some task.id
  | .mapWrite task => some task.id
  | .glob task => some task.id
  | .reduceRead task _ _ _ => some task.id
  | .reduceWrite task _ => some task.id
  | .delete task _ => some task.id
  | .markDone taskId => some taskId
  | .getTask | .waitTask _ | .waitDone _ | .exited => none

/-- The worker is about to receive the task, executes it, or is about to report it. -/
inductive Handles (s : State) (wk : Worker) (taskId : String) : Prop
  | receives {call : ℕ} {out : GetTaskOut} (hpc : wk.pc = .waitTask call)
      (hr : ⟨call, .getTask out⟩ ∈ s.replies) (hout : out.HandsOut) (hid : out.id = taskId)
  | executes (h : wk.taskId = some taskId)
  | reports {call : ℕ} (hpc : wk.pc = .waitDone call)
      (hq : ⟨call, .updateTask ⟨wk.workerId, taskId, .done⟩⟩ ∈ s.requests)

/-- Until it reports a task, a worker runs on with it. -/
theorem Worker.Stepped.taskId {job : Job} {disk : Disk} {wk wk' : Worker} {a : Worker.Action}
    {op : DiskOp} (h : Worker.Stepped job disk wk a wk' op) : wk'.workerId = wk.workerId ∧
      (wk'.pc = .exited ∨ wk'.pc = wk.pc ∨ wk.taskId.isSome ∧ wk'.taskId = wk.taskId) := by
  cases h with
  | crash => exact ⟨rfl, Or.inl rfl⟩
  | mapMissing hpc hl => exact ⟨rfl, Or.inr (Or.inr (by simp [Worker.taskId, hpc]))⟩
  | mapRead hpc hl => exact ⟨rfl, Or.inr (Or.inr (by simp [Worker.taskId, hpc]))⟩
  | mapDone hpc hj => exact ⟨rfl, Or.inr (Or.inr (by simp [Worker.taskId, hpc]))⟩
  | glob hpc => exact ⟨rfl, Or.inr (Or.inr (by simp [Worker.taskId, hpc]))⟩
  | readMissing hpc hl => exact ⟨rfl, Or.inr (Or.inr (by simp [Worker.taskId, hpc]))⟩
  | read hpc hl => exact ⟨rfl, Or.inr (Or.inr (by simp [Worker.taskId, hpc]))⟩
  | reduce hpc horder => exact ⟨rfl, Or.inr (Or.inr (by simp [Worker.taskId, hpc]))⟩
  | reduceDone hpc hj => exact ⟨rfl, Or.inr (Or.inr (by simp [Worker.taskId, hpc]))⟩
  | remove hpc => exact ⟨rfl, Or.inr (Or.inr (by simp [Worker.taskId, hpc]))⟩
  | deleted hpc => exact ⟨rfl, Or.inr (Or.inr (by simp [Worker.taskId, hpc]))⟩
  | failMap hpc => exact ⟨rfl, Or.inr (Or.inr (by simp [Worker.taskId, hpc]))⟩
  | failReduce hpc => exact ⟨rfl, Or.inr (Or.inr (by simp [Worker.taskId, hpc]))⟩
  | failRemove hpc => exact ⟨rfl, Or.inr (Or.inr (by simp [Worker.taskId, hpc]))⟩
  | _ => exact ⟨rfl, Or.inr (Or.inl rfl)⟩

/-- The tasks that a worker handles depend on where it is and on the network. -/
theorem Handles.of_subset {s s' : State} {wk wk' : Worker} {taskId : String}
    (h : Handles s wk taskId) (hid : wk'.workerId = wk.workerId) (hpc : wk'.pc = wk.pc)
    (hreq : ∀ q ∈ s.requests, ∀ args, q.msg = .updateTask args → args.taskId = taskId →
      q ∈ s'.requests) (hrep : s.replies ⊆ s'.replies) : Handles s' wk' taskId := by
  cases h with
  | receives hwait hr hout hid => exact .receives (hpc.trans hwait) (hrep hr) hout hid
  | executes h =>
      refine .executes ?_
      unfold Worker.taskId at h ⊢
      rwa [hpc]
  | reports hwait hq =>
      refine .reports (hpc.trans hwait) ?_
      rw [hid]
      exact hreq _ hq _ rfl rfl

theorem not_handles_getTask {s : State} {wk : Worker} (hpc : wk.pc = .getTask) (taskId : String) :
    ¬ Handles s wk taskId := by
  intro h
  cases h with
  | receives hpc' _ _ _ => cases hpc.symm.trans hpc'
  | executes h => simp [Worker.taskId, hpc] at h
  | reports hpc' _ => cases hpc.symm.trans hpc'

theorem Handles.taskId_eq {s : State} {wk : Worker} {taskId : String} (h : Handles s wk taskId)
    (hsome : wk.taskId.isSome) : wk.taskId = some taskId := by
  cases h with
  | receives hpc _ _ _ => simp [Worker.taskId, hpc] at hsome
  | executes h => exact h
  | reports hpc _ => simp [Worker.taskId, hpc] at hsome

theorem Handles.reply {s : State} {wk : Worker} {taskId : String} (h : Handles s wk taskId)
    {call : ℕ} (hpc : wk.pc = .waitTask call) :
    ∃ out : GetTaskOut, ⟨call, .getTask out⟩ ∈ s.replies ∧ out.HandsOut ∧ out.id = taskId := by
  cases h with
  | receives hpc' hr hout hid =>
      cases hpc.symm.trans hpc'
      exact ⟨_, hr, hout, hid⟩
  | executes h => simp [Worker.taskId, hpc] at h
  | reports hpc' _ => cases hpc.symm.trans hpc'

theorem Handles.request {s : State} {wk : Worker} {taskId : String} (h : Handles s wk taskId)
    {call : ℕ} (hpc : wk.pc = .waitDone call) :
    ⟨call, .updateTask ⟨wk.workerId, taskId, .done⟩⟩ ∈ s.requests := by
  cases h with
  | receives hpc' _ _ _ => cases hpc.symm.trans hpc'
  | executes h => simp [Worker.taskId, hpc] at h
  | reports hpc' hq =>
      cases hpc.symm.trans hpc'
      exact hq

/-- A worker that is handed a task executes it. -/
theorem Worker.taskId_dispatch (wk : Worker) {task : GetTaskOut} (h : task.HandsOut) :
    (wk.dispatch task).taskId = some task.id := by
  rcases h with h | h <;> simp [h, Worker.taskId, Worker.dispatchTo]

/-- A worker handles at most one task. -/
theorem Handles.unique {s : State} (hc : CallsOnce s) {wk : Worker} {taskId taskId' : String}
    (h : Handles s wk taskId) (h' : Handles s wk taskId') : taskId = taskId' := by
  cases h with
  | receives hpc hr hout hid =>
      obtain ⟨out', hr', -, hid'⟩ := h'.reply hpc
      cases hc.reply_inj hr hr' rfl
      exact hid.symm.trans hid'
  | executes h =>
      exact Option.some.inj (h.symm.trans (h'.taskId_eq (h ▸ rfl)))
  | reports hpc hq =>
      cases hc.request_inj hq (h'.request hpc) rfl
      rfl

/-! ### Runs in which no task is lost -/

/-- The caller of a `GetTask` still waits for it, or has stopped. -/
def Request.Awaited (s : State) (q : Request) : Prop :=
  match q.msg with
  | .getTask workerId => ∀ wk ∈ s.workers, wk.workerId = workerId →
      wk.pc = .waitTask q.call ∨ wk.pc = .exited
  | _ => True

/-- The reply hands out a task. -/
def Response.HandsOut (p : Response) : Prop :=
  match p.reply with
  | .getTask out => out.HandsOut
  | _ => False

/-- The call of the worker can fail: its `GetTask` was not answered with a task, or its
`UpdateTask` has been executed or reports no task. -/
def Worker.CanFail (s : State) (wk : Worker) : Prop :=
  match wk.pc with
  | .waitTask call => ∀ p ∈ s.replies, p.call = call → ¬ p.HandsOut
  | .waitDone call => ∀ q ∈ s.requests, q.call = call →
      q.msg = .updateTask ⟨wk.workerId, "", .done⟩
  | _ => True

/-- The ids of the workers differ, and no task and no report is lost. -/
def KeepsTasks (s : State) : Action → Prop
  | .start workerId => ∀ wk ∈ s.workers, wk.workerId ≠ workerId
  | .serve k => ∀ q ∈ s.requests[k]?, q.Awaited s
  | .callFalse w => ∀ wk ∈ s.workers[w]?, wk.CanFail s
  | _ => True

instance (s : State) (q : Request) : Decidable (q.Awaited s) := by
  unfold Request.Awaited
  cases q.msg <;> infer_instance

instance (p : Response) : Decidable p.HandsOut := by
  unfold Response.HandsOut
  cases p.reply <;> infer_instance

instance (s : State) (wk : Worker) : Decidable (wk.CanFail s) := by
  unfold Worker.CanFail
  cases wk.pc <;> infer_instance

instance (s : State) : (a : Action) → Decidable (KeepsTasks s a)
  | .start workerId => inferInstanceAs (Decidable (∀ wk ∈ s.workers, wk.workerId ≠ workerId))
  | .serve k => inferInstanceAs (Decidable (∀ q ∈ s.requests[k]?, q.Awaited s))
  | .callFalse w => inferInstanceAs (Decidable (∀ wk ∈ s.workers[w]?, wk.CanFail s))
  | .coord _ | .ping _ | .call _ | .callTrue _ _ | .work _ _ => isTrue trivial

/-- Every ongoing task records a worker that has stopped or handles the task. -/
structure AssignmentOk (s : State) : Prop where
  distinct : (s.workers.map Worker.workerId).Nodup
  callers : ∀ q ∈ s.requests, ∀ workerId, q.msg = .getTask workerId →
    workerId ∈ s.workers.map Worker.workerId
  assigned : ∀ workerId taskId, Assigned s.proc.coord.tasks workerId taskId →
    ∃ wk ∈ s.workers, wk.workerId = workerId ∧ (wk.pc = .exited ∨ Handles s wk taskId)

/-- A worker moves on, and the coordinator does nothing. -/
theorem AssignmentOk.become {s s' : State} {w : ℕ} {wk wk' : Worker} (h : AssignmentOk s)
    (hw : s.workers[w]? = some wk) (hworkers : s'.workers = s.workers.set w wk')
    (hid : wk'.workerId = wk.workerId) (hproc : s'.proc = s.proc)
    (hreq : s.requests ⊆ s'.requests) (hrep : s.replies ⊆ s'.replies)
    (hcallers : ∀ q ∈ s'.requests, ∀ workerId, q.msg = .getTask workerId →
      q ∈ s.requests ∨ workerId = wk.workerId)
    (hhandles : ∀ taskId, Assigned s.proc.coord.tasks wk.workerId taskId →
      wk.pc = .exited ∨ Handles s wk taskId → wk'.pc = .exited ∨ Handles s' wk' taskId) :
    AssignmentOk s' := by
  have hids : s'.workers.map Worker.workerId = s.workers.map Worker.workerId := by
    rw [hworkers, map_set_of_eq hw hid]
  refine ⟨hids ▸ h.distinct, ?_, ?_⟩
  · intro q hq workerId hmsg
    rw [hids]
    rcases hcallers q hq workerId hmsg with hq | rfl
    · exact h.callers q hq workerId hmsg
    · exact List.mem_map_of_mem (List.mem_of_getElem? hw)
  · intro workerId taskId ha
    rw [hproc] at ha
    obtain ⟨wk₀, hmem, hwid, hcase⟩ := h.assigned workerId taskId ha
    obtain ⟨w₀, hw₀⟩ := List.mem_iff_getElem?.mp hmem
    have hlt := (List.getElem?_eq_some_iff.mp hw).1
    rw [hworkers]
    by_cases hww : w = w₀
    · subst hww
      obtain rfl := Option.some.inj (hw.symm.trans hw₀)
      exact ⟨wk', List.mem_of_getElem? (List.getElem?_set_self hlt), hid.trans hwid,
        hhandles taskId (hwid ▸ ha) hcase⟩
    · refine ⟨wk₀, List.mem_of_getElem? ((List.getElem?_set_ne hww).trans hw₀), hwid, ?_⟩
      rcases hcase with hex | hh
      · exact Or.inl hex
      · exact Or.inr (hh.of_subset rfl rfl (fun q hq _ _ _ => hreq hq) hrep)

/-- The state changes only in the coordinator and in the network. -/
theorem AssignmentOk.of_workers {s s' : State} (h : AssignmentOk s)
    (hworkers : s'.workers = s.workers)
    (hcallers : ∀ q ∈ s'.requests, ∀ workerId, q.msg = .getTask workerId →
      workerId ∈ s.workers.map Worker.workerId)
    (hassigned : ∀ workerId taskId, Assigned s'.proc.coord.tasks workerId taskId →
      ∃ wk ∈ s.workers, wk.workerId = workerId ∧ (wk.pc = .exited ∨ Handles s' wk taskId)) :
    AssignmentOk s' :=
  ⟨hworkers ▸ h.distinct, hworkers ▸ hcallers, hworkers ▸ hassigned⟩

theorem AssignmentOk.serve {s : State} (h : AssignmentOk s) {k : ℕ} {q : Request}
    (hq : s.requests[k]? = some q)
    (hdone : (Process.Action.serve q.msg).ReportsDone) (haw : q.Awaited s) :
    AssignmentOk (s.serve k q) := by
  have hmem := List.mem_of_getElem? hq
  refine h.of_workers rfl ?_ ?_
  · intro q' hq'
    exact h.callers q' (List.mem_of_mem_eraseIdx hq')
  intro workerId taskId ha
  -- a worker that reports another task still waits for its request
  have keep : Assigned s.proc.coord.tasks workerId taskId →
      (∀ args, q.msg = .updateTask args → args.taskId ≠ taskId) →
      ∃ wk ∈ s.workers, wk.workerId = workerId ∧
        (wk.pc = .exited ∨ Handles (s.serve k q) wk taskId) := by
    intro hold hne
    obtain ⟨wk, hwk, hid, hcase⟩ := h.assigned workerId taskId hold
    refine ⟨wk, hwk, hid, hcase.imp_right (fun hh => ?_)⟩
    refine hh.of_subset rfl rfl ?_ (List.subset_append_left _ _)
    intro q' hq' args hmsg hargs
    refine mem_eraseIdx_of_ne hq hq' ?_
    rintro rfl
    exact hne args hmsg hargs
  obtain ⟨call, msg⟩ := q
  cases msg with
  | ping pinging => exact keep (assigned_ping ha) (by simp)
  | updateTask args =>
      obtain ⟨hold, hne⟩ := assigned_updateTask hdone ha
      refine keep hold ?_
      rintro args' he rfl
      cases he
      exact hne rfl
  | getTask caller =>
      rcases assigned_getTask ha with hold | ⟨rfl, hout, hid⟩
      · exact keep hold (by simp)
      · obtain ⟨wk, hwk, hwid⟩ := List.mem_map.mp (h.callers _ hmem _ rfl)
        refine ⟨wk, hwk, hwid, ?_⟩
        rcases haw wk hwk hwid with hpc | hpc
        · refine Or.inr (.receives hpc ?_ hout hid)
          exact List.mem_append_right _ (List.mem_singleton_self _)
        · exact Or.inl hpc

theorem CoordinatorOk.id {files : List String} {nReduce : ℕ} {c : Coordinator}
    (h : CoordinatorOk files nReduce c) {i : ℕ} {t : Task} (ht : c.tasks[i]? = some t) :
    t.id = toString (i + 1) := by
  obtain ⟨t₀, h₀, hsame⟩ := getElem?_of_forall₂ h.tasks.flip ht
  rw [hsame.id]
  exact (createTasks_getElem? h₀).1

theorem CoordinatorOk.ne_of_assigned {files : List String} {nReduce : ℕ} {c : Coordinator}
    (h : CoordinatorOk files nReduce c) {workerId taskId : String}
    (ha : Assigned c.tasks workerId taskId) : taskId ≠ "" := by
  obtain ⟨t, ht, -, -, rfl⟩ := ha
  obtain ⟨i, hi⟩ := List.mem_iff_getElem?.mp ht
  rw [h.id hi]
  exact toString_ne_empty (i + 1)

/-! ### The steps of the workers -/

section workers

variable {s : State} {w : ℕ} {wk wk' : Worker}

/-- Nothing changes but the network, which only grows by requests other than `GetTask`. -/
theorem AssignmentOk.send (h : AssignmentOk s) {msg : Msg}
    (hmsg : ∀ workerId, msg ≠ .getTask workerId) : AssignmentOk (s.send msg) := by
  refine h.of_workers rfl ?_ ?_
  · intro q hq workerId hq'
    rcases List.mem_append.mp hq with hq | hq
    · exact h.callers q hq workerId hq'
    · rw [List.mem_singleton.mp hq] at hq'
      exact absurd hq' (hmsg workerId)
  · intro workerId taskId hassigned
    obtain ⟨wk, hwk, hid, hcase⟩ := h.assigned workerId taskId hassigned
    exact ⟨wk, hwk, hid, hcase.imp_right (fun hh => hh.of_subset rfl rfl
      (fun q hq _ _ _ => List.mem_append_left _ hq) (List.Subset.refl _))⟩

theorem AssignmentOk.spawn (h : AssignmentOk s) {workerId : String}
    (hnew : ∀ wk ∈ s.workers, wk.workerId ≠ workerId) : AssignmentOk (s.spawn workerId) := by
  refine ⟨?_, ?_, ?_⟩
  · rw [State.spawn_workers, List.map_append, List.nodup_append]
    refine ⟨h.distinct, List.nodup_singleton _, ?_⟩
    intro a ha b hb he
    obtain ⟨wk, hwk, rfl⟩ := List.mem_map.mp ha
    exact hnew wk hwk (he.trans (List.mem_singleton.mp hb))
  · intro q hq workerId' hmsg
    rw [State.spawn_workers, List.map_append]
    exact List.mem_append_left _ (h.callers q hq workerId' hmsg)
  · intro workerId' taskId hassigned
    obtain ⟨wk, hwk, hid, hcase⟩ := h.assigned workerId' taskId hassigned
    refine ⟨wk, List.mem_append_left _ hwk, hid, hcase.imp_right ?_⟩
    exact fun hh => hh.of_subset rfl rfl (fun q hq _ _ _ => hq) (List.Subset.refl _)

/-- A worker moves on and sends nothing. -/
theorem AssignmentOk.moves {s' : State} (h : AssignmentOk s) (hw : s.workers[w]? = some wk)
    (hworkers : s'.workers = s.workers.set w wk') (hid : wk'.workerId = wk.workerId)
    (hproc : s'.proc = s.proc) (hreq : s'.requests = s.requests) (hrep : s'.replies = s.replies)
    (hhandles : ∀ taskId, Assigned s.proc.coord.tasks wk.workerId taskId →
      wk.pc = .exited ∨ Handles s wk taskId → wk'.pc = .exited ∨ Handles s' wk' taskId) :
    AssignmentOk s' := by
  refine h.become hw hworkers hid hproc (by simp [hreq]) (by simp [hrep]) ?_ hhandles
  intro q hq _ _
  exact Or.inl (hreq ▸ hq)

theorem AssignmentOk.call (h : AssignmentOk s) {msg : Msg} (hw : s.workers[w]? = some wk)
    (hreq : wk.request s.calls = some (msg, wk')) : AssignmentOk ((s.send msg).become w wk') := by
  have hsub : s.requests ⊆ s.requests ++ [⟨s.calls, msg⟩] := List.subset_append_left _ _
  rcases Worker.request_cases hreq with ⟨hpc, rfl, rfl⟩ | ⟨taskId₀, hpc, rfl, rfl⟩
  · refine h.become hw rfl rfl rfl hsub (List.Subset.refl _) ?_ ?_
    · intro q hq workerId hmsg
      rcases List.mem_append.mp hq with hq | hq
      · exact Or.inl hq
      · rw [List.mem_singleton.mp hq] at hmsg
        cases hmsg
        exact Or.inr rfl
    · rintro taskId - (hex | hh)
      · cases hpc.symm.trans hex
      · exact absurd hh (not_handles_getTask hpc taskId)
  · refine h.become hw rfl rfl rfl hsub (List.Subset.refl _) ?_ ?_
    · intro q hq workerId hmsg
      rcases List.mem_append.mp hq with hq | hq
      · exact Or.inl hq
      · rw [List.mem_singleton.mp hq] at hmsg
        cases hmsg
    · rintro taskId - (hex | hh)
      · cases hpc.symm.trans hex
      · have htask : wk.taskId = some taskId₀ := by simp [Worker.taskId, hpc]
        obtain rfl := Option.some.inj (htask.symm.trans (hh.taskId_eq (htask ▸ rfl)))
        exact Or.inr (.reports rfl (List.mem_append_right _ (List.mem_singleton_self _)))

/-- A reply hands over the task the worker was to receive, or ends its report. -/
theorem AssignmentOk.callTrue (h : AssignmentOk s) (hcalls : CallsOnce s) {p : Response}
    (hw : s.workers[w]? = some wk) (hp : p ∈ s.replies)
    (hrec : wk.receive p.call p.reply = some wk') : AssignmentOk (s.become w wk') := by
  obtain ⟨call, reply⟩ := p
  rcases Worker.receive_cases hrec with ⟨task, hpc, rfl, rfl⟩ | ⟨hpc, rfl⟩
  · refine h.moves hw rfl rfl rfl rfl rfl ?_
    rintro taskId - (hex | hh)
    · cases hpc.symm.trans hex
    · obtain ⟨out, hr, hout, rfl⟩ := hh.reply hpc
      cases hcalls.reply_inj hr hp rfl
      exact Or.inr (.executes (wk.taskId_dispatch hout))
  · refine h.moves hw rfl rfl rfl rfl rfl ?_
    rintro taskId - (hex | hh)
    · cases hpc.symm.trans hex
    · exact absurd rfl (hcalls.call_ne (hh.request hpc) hp)

/-- A call that fails under the condition loses neither a task nor a report. -/
theorem AssignmentOk.callFalse {files : List String} {nReduce : ℕ} (h : AssignmentOk s)
    (hok : CoordinatorOk files nReduce s.proc.coord) (hw : s.workers[w]? = some wk)
    (hfail : wk.CanFail s) (hf : wk.callFailed = some wk') : AssignmentOk (s.become w wk') := by
  unfold Worker.CanFail at hfail
  rcases Worker.callFailed_cases hf with ⟨call, hpc, rfl⟩ | ⟨call, hpc, rfl⟩
  · refine h.moves hw rfl rfl rfl rfl rfl ?_
    rintro taskId - (hex | hh)
    · cases hpc.symm.trans hex
    · rw [hpc] at hfail
      obtain ⟨out, hr, hout, -⟩ := hh.reply hpc
      exact absurd hout (hfail _ hr rfl)
  · refine h.moves hw rfl rfl rfl rfl rfl ?_
    rintro taskId hassigned (hex | hh)
    · cases hpc.symm.trans hex
    · rw [hpc] at hfail
      cases hfail _ (hh.request hpc) rfl
      exact absurd rfl (hok.ne_of_assigned hassigned)

theorem AssignmentOk.work {job : Job} {a : Worker.Action} {op : DiskOp} (h : AssignmentOk s)
    (hw : s.workers[w]? = some wk) (hwork : Worker.Stepped job s.disk wk a wk' op) :
    AssignmentOk ((s.become w wk').perform op) := by
  obtain ⟨hid, hpc⟩ := hwork.taskId
  refine h.moves hw rfl hid rfl rfl rfl ?_
  rintro taskId - hcase
  rcases hpc with hpc | hpc | ⟨hsome, htask⟩
  · exact Or.inl hpc
  · rw [hpc]
    exact hcase.imp_right (fun hh => hh.of_subset hid hpc (fun q hq _ _ _ => hq)
      (List.Subset.refl _))
  · rcases hcase with hex | hh
    · simp [Worker.taskId, hex] at hsome
    · exact Or.inr (.executes (htask.trans (hh.taskId_eq hsome)))

end workers

theorem reachable_assignmentOk {job : Job} {s : State}
    (h : (system job).ReachableBy KeepsTasks s) : AssignmentOk s := by
  refine h.invariant (I := AssignmentOk) ?_ ?_
  · refine ⟨List.nodup_nil, by simp [system, State.init], ?_⟩
    rintro workerId taskId ⟨t, ht, hs, -⟩
    obtain ⟨i, hi⟩ := List.mem_iff_getElem?.mp ht
    cases (createTasks_getElem? hi).2.symm.trans hs
  · intro s a s' hr ih hkeep hstep
    have hok := reachable_coordinatorOk (reachable_proc hr)
    cases State.step_cases hstep with
    | coord ha hp =>
        refine ih.of_workers rfl ih.callers ?_
        intro workerId taskId hassigned
        obtain ⟨wk, hwk, hid, hcase⟩ := ih.assigned workerId taskId (assigned_step ha hp hassigned)
        exact ⟨wk, hwk, hid, hcase.imp_right
          (fun hh => hh.of_subset rfl rfl (fun q hq _ _ _ => hq) (List.Subset.refl _))⟩
    | start workerId => exact ih.spawn hkeep
    | ping hw hpc => exact ih.send (by simp)
    | call hw hreq => exact ih.call hw hreq
    | @serve k q hq =>
        exact ih.serve hq (reachable_reportsDone hr q (List.mem_of_getElem? hq)) (hkeep q hq)
    | callTrue hw hp hrec =>
        exact ih.callTrue (reachable_callsOnce hr) hw (List.mem_of_getElem? hp) hrec
    | callFalse hw hf => exact ih.callFalse hok hw (hkeep _ hw) hf
    | work hw hwork => exact ih.work hw hwork

/-- In every run in which no task and no report is lost, every ongoing task that records a live
worker is the one that the worker is about to receive, executes or is about to report, and at most
one ongoing task records it. -/
theorem tasks_of_live_workers {job : Job} {s : State} (h : (system job).ReachableBy KeepsTasks s)
    {w : ℕ} {wk : Worker} (hw : s.workers[w]? = some wk) (halive : wk.pc ≠ .exited) :
    (∀ t ∈ s.proc.coord.tasks, t.status = .onGoing → t.workerId = wk.workerId →
      Handles s wk t.id) ∧
    ∀ (i j : ℕ) t t', s.proc.coord.tasks[i]? = some t → s.proc.coord.tasks[j]? = some t' →
      t.status = .onGoing → t.workerId = wk.workerId →
      t'.status = .onGoing → t'.workerId = wk.workerId → i = j := by
  have hok := reachable_assignmentOk h
  have handles : ∀ t ∈ s.proc.coord.tasks, t.status = .onGoing → t.workerId = wk.workerId →
      Handles s wk t.id := by
    intro t ht hs hid
    obtain ⟨wk₀, hmem, hwid, hcase⟩ := hok.assigned _ _ ⟨t, ht, hs, hid, rfl⟩
    obtain rfl := List.inj_on_of_nodup_map hok.distinct hmem (List.mem_of_getElem? hw) hwid
    exact hcase.resolve_left halive
  refine ⟨handles, ?_⟩
  intro i j t t' hi hj hs hid hs' hid'
  have hcoord := reachable_coordinatorOk (reachable_proc h)
  have he := (handles t (List.mem_of_getElem? hi) hs hid).unique (reachable_callsOnce h)
    (handles t' (List.mem_of_getElem? hj) hs' hid')
  rw [hcoord.id hi, hcoord.id hj] at he
  have := toString_injective he
  omega

/-! ### A worker that forgets a task -/

/-- The word count of the same file twice. -/
def twiceJob : Job :=
  { oneWordJob with
    files := ["in", "in"]
    inputs := by
      intro f hf
      exact oneWordJob.inputs f (by simpa [oneWordJob] using hf)
    distinct := by
      intro f hf
      exact oneWordJob.distinct f (by simpa [oneWordJob] using hf) }

/-- The worker is handed the first map task and runs on with it. -/
theorem tasks_of_live_workers_twice : ∃ s wk t, (system twiceJob).ReachableBy KeepsTasks s ∧
    s.workers[0]? = some wk ∧ t ∈ s.proc.coord.tasks ∧ t.status = .onGoing ∧
      t.workerId = wk.workerId ∧ Handles s wk t.id := by
  obtain ⟨s, hr, hs⟩ := Lts.exists_of_exec (L := system twiceJob) (C := KeepsTasks)
    (p := fun s => decide (
      s.workers[0]?.map (fun wk : Worker => (wk.workerId, decide (wk.pc = .exited))) =
        some ("w", false) ∧
      s.proc.coord.tasks[0]?.map (fun t : Task => (t.status, t.workerId)) = some (.onGoing, "w")))
    [.coord .ready, .start "w", .call 0, .serve 0, .callTrue 0 0] (by decide)
  obtain ⟨hwk, ht⟩ := of_decide_eq_true hs
  obtain ⟨wk, hwk, he⟩ := Option.map_eq_some_iff.mp hwk
  obtain ⟨t, ht, he'⟩ := Option.map_eq_some_iff.mp ht
  obtain ⟨hid, hpc⟩ := Prod.mk.inj he
  obtain ⟨hstatus, hrec⟩ := Prod.mk.inj he'
  have hmem := List.mem_of_getElem? ht
  have hown := hrec.trans hid.symm
  exact ⟨s, wk, t, hr, hwk, hmem, hstatus, hown,
    (tasks_of_live_workers hr hwk (of_decide_eq_false hpc)).1 t hmem hstatus hown⟩

/-- The reply that hands out the first map task is lost; the worker goes on with an empty task and
is handed the second one. -/
def lostReplyRun : List Action :=
  [.coord .ready, .start "w", .call 0, .serve 0, .callFalse 0, .call 0, .serve 0, .callTrue 0 1,
    .call 0, .serve 0, .callTrue 0 2]

/-- The worker executes the second task, and both tasks record it. -/
theorem task_stranded : ∃ s wk, (system twiceJob).Reachable s ∧ s.workers[0]? = some wk ∧
    wk.pc ≠ .exited ∧ wk.taskId = some "2" ∧ ¬ Handles s wk "1" ∧
    s.proc.coord.tasks.filterMap
      (fun t => if t.status = .onGoing ∧ t.workerId = wk.workerId then some t.id else none) =
        ["1", "2"] := by
  obtain ⟨s, hr, hs⟩ := Lts.exists_of_exec (L := system twiceJob) (C := fun _ _ => True)
    (p := fun s => decide (s.workers[0]?.map (fun wk : Worker => (wk.workerId, wk.taskId)) =
        some ("w", some "2") ∧
      s.proc.coord.tasks.filterMap
        (fun t => if t.status = .onGoing ∧ t.workerId = "w" then some t.id else none) =
          ["1", "2"])) lostReplyRun (by decide)
  obtain ⟨hwk, htasks⟩ := of_decide_eq_true hs
  obtain ⟨wk, hwk, he⟩ := Option.map_eq_some_iff.mp hwk
  obtain ⟨hid, htask⟩ := Prod.mk.inj he
  refine ⟨s, wk, hr, hwk, ?_, htask, ?_, by rw [hid]; exact htasks⟩
  · intro hpc
    simp [Worker.taskId, hpc] at htask
  · intro h
    have := htask.symm.trans (h.taskId_eq (htask ▸ rfl))
    simp at this

end DistributedSystems.MapReduce
