import DistributedSystems.MapReduceSystem

/-! # The loggers of the workers

In a run a worker adds two pairs to its logger whenever a call of `GetTask` returns, also when it is
told to wait and when the call fails.  So the list of the logger grows with the Fibonacci numbers
(`logger_grows`), and after some twenty tasks it is too long to be stored. -/

namespace DistributedSystems.MapReduce

open Lts (Recorded)

def Worker.waitsTask (wk : Worker) : Bool :=
  match wk.pc with
  | .waitTask _ => true
  | _ => false

/-- In the step, `getTask` of the worker `w` returns. -/
def GetsTask (w : ℕ) (e : State × Action) : Bool :=
  match e.2 with
  | .callTrue w' _ | .callFalse w' => w' = w ∧ e.1.workers[w]?.any Worker.waitsTask = true
  | _ => false

theorem getsTask_lt {w : ℕ} {s : State} {a : Action} (h : GetsTask w (s, a) = true) :
    w < s.workers.length := by
  have hany : s.workers[w]?.any Worker.waitsTask = true := by
    cases a <;> simp_all [GetsTask]
  cases hw : s.workers[w]? with
  | none => simp [hw] at hany
  | some wk => exact (List.getElem?_eq_some_iff.mp hw).1

/-- What a step makes of the logger of the worker `w`. -/
inductive LoggerStep (s : State) (a : Action) (w : ℕ) (l : Logger) : Prop
  | kept {wk : Worker} (hw : s.workers[w]? = some wk) (h : GetsTask w (s, a) = false)
      (hl : l = wk.logger)
  | task {wk : Worker} {task : GetTaskOut} (hw : s.workers[w]? = some wk)
      (h : GetsTask w (s, a) = true) (hl : l = wk.logger.logTask task)
  | started {workerId : String} (hw : w = s.workers.length) (hl : l = .forWorker workerId)

theorem Stepped.loggerStep {job : Job} {s s' : State} {a : Action} (h : Stepped job s a s')
    {w : ℕ} {wk' : Worker} (hw' : s'.workers[w]? = some wk') : LoggerStep s a w wk'.logger := by
  cases h with
  | coord ha hp => exact .kept hw' rfl rfl
  | start workerId =>
      rcases getElem?_concat_cases hw' with ⟨hw, rfl⟩ | hw
      · exact .started hw rfl
      · exact .kept hw rfl rfl
  | ping hw hpc => exact .kept hw' rfl rfl
  | call hw hreq =>
      rcases getElem?_set_cases hw' with ⟨rfl, rfl⟩ | ⟨hne, hold⟩
      · obtain ⟨-, -, rfl⟩ | ⟨taskId, -, -, rfl⟩ := Worker.request_cases hreq <;>
          exact .kept hw rfl rfl
      · exact .kept hold rfl rfl
  | serve hq => exact .kept hw' rfl rfl
  | callTrue hw hp hrec =>
      rcases getElem?_set_cases hw' with ⟨rfl, rfl⟩ | ⟨hne, hold⟩
      · obtain ⟨task, hpc, -, rfl⟩ | ⟨hpc, rfl⟩ := Worker.receive_cases hrec
        · exact .task hw (by simp [GetsTask, hw, Worker.waitsTask, hpc]) rfl
        · exact .kept hw (by simp [GetsTask, hw, Worker.waitsTask, hpc]) rfl
      · exact .kept hold (by simp [GetsTask, Ne.symm hne]) rfl
  | callFalse hw hf =>
      rcases getElem?_set_cases hw' with ⟨rfl, rfl⟩ | ⟨hne, hold⟩
      · obtain ⟨call, hpc, rfl⟩ | ⟨call, hpc, rfl⟩ := Worker.callFailed_cases hf
        · exact .task hw (by simp [GetsTask, hw, Worker.waitsTask, hpc]) rfl
        · exact .kept hw (by simp [GetsTask, hw, Worker.waitsTask, hpc]) rfl
      · exact .kept hold (by simp [GetsTask, Ne.symm hne]) rfl
  | work hw hwork =>
      rcases getElem?_set_cases hw' with ⟨rfl, rfl⟩ | ⟨hne, hold⟩
      · exact .kept hw rfl hwork.logger_eq
      · exact .kept hold rfl rfl

theorem Stepped.length_le {job : Job} {s s' : State} {a : Action} (h : Stepped job s a s') :
    s.workers.length ≤ s'.workers.length := by
  cases h <;> simp

/-- The loggers of the workers after the tasks that they have got. -/
structure LoggersOk (x : Recorded State Action) : Prop where
  grown : ∀ (w : ℕ) (wk : Worker), x.now.workers[w]? = some wk →
    wk.logger.Grown (x.past.countP (GetsTask w))
  fresh : ∀ w, x.now.workers.length ≤ w → x.past.countP (GetsTask w) = 0

theorem LoggersOk.next {job : Job} {x : Recorded State Action} {a : Action} {s' : State}
    (h : LoggersOk x) (hstep : Stepped job x.now a s') : LoggersOk (x.next a s') := by
  have hcount : ∀ w, (x.next a s').past.countP (GetsTask w) =
      x.past.countP (GetsTask w) + if GetsTask w (x.now, a) = true then 1 else 0 := by
    intro w
    simp [List.countP_append, List.countP_singleton]
  constructor
  · intro w wk' hw'
    rw [hcount]
    cases hstep.loggerStep hw' with
    | kept hw hgets hl =>
        rw [hl, hgets]
        exact h.grown w _ hw
    | task hw hgets hl =>
        rw [hl, hgets]
        exact (h.grown w _ hw).logTask _
    | started hw hl =>
        have hgets : GetsTask w (x.now, a) ≠ true := fun hg => (getsTask_lt hg).ne hw
        rw [hl, h.fresh w hw.ge, if_neg hgets]
        exact Logger.grown_forWorker _
  · intro w hw
    have hle := hstep.length_le.trans hw
    have hgets : GetsTask w (x.now, a) ≠ true := fun hg => (getsTask_lt hg).not_ge hle
    rw [hcount, h.fresh w hle, if_neg hgets]

theorem reachable_loggersOk {job : Job} {x : Recorded State Action}
    (h : (system job).recorded.Reachable x) : LoggersOk x := by
  refine h.recorded_invariant (I := LoggersOk) ⟨?_, fun _ _ => rfl⟩ ?_
  · intro w wk hw
    cases hw
  · intro x a s' _ ih _ hstep
    exact ih.next (State.step_cases hstep)

/-- After a worker has got `n` tasks, its logger adds the pairs of the `2n + 3`rd Fibonacci number,
less one, to every line. -/
theorem logger_grows {job : Job} {x : Recorded State Action}
    (h : (system job).recorded.Reachable x) {w : ℕ} {wk : Worker}
    (hw : x.now.workers[w]? = some wk) :
    wk.logger.defaults.length + 1 = Nat.fib (2 * x.past.countP (GetsTask w) + 3) :=
  ((reachable_loggersOk h).grown w wk hw).length

/-- The worker has twice been told to wait. -/
theorem logger_grows_waiting : ∃ (x : Recorded State Action) (wk : Worker),
    (system oneWordJob).recorded.Reachable x ∧ x.now.workers[1]? = some wk ∧
      x.past.countP (GetsTask 1) = 2 ∧
      wk.logger.defaults.length + 1 = Nat.fib (2 * x.past.countP (GetsTask 1) + 3) := by
  obtain ⟨x, hr, hx⟩ := Lts.exists_of_exec (L := (system oneWordJob).recorded)
    (C := fun _ _ => True)
    (p := fun x => decide (x.now.workers.length = 2 ∧ x.past.countP (GetsTask 1) = 2))
    [.coord .ready, .start "v", .start "w", .call 0, .serve 0, .call 1, .serve 0, .callTrue 1 1,
      .call 1, .serve 0, .callTrue 1 2] (by decide)
  obtain ⟨hlen, hcount⟩ := of_decide_eq_true hx
  have hw : x.now.workers[1]? = some (x.now.workers[1]) := List.getElem?_eq_getElem (by omega)
  exact ⟨x, _, hr, hw, hcount, logger_grows hr hw⟩

end DistributedSystems.MapReduce
