import DistributedSystems.Parties
import DistributedSystems.Worker

/-! # The MapReduce system

The coordinator, any number of workers and the directory that they share, as one transition system.

Workers are started at any time.  A call of a worker puts one request to the coordinator; its
handler runs at most once, at any later time or never.  The call returns `true` with the reply of
the handler, or `false` at any time.  The coordinator's part of a run is a run of the coordinator
in which nothing but done is reported (`reachable_proc`). -/

namespace DistributedSystems.MapReduce

structure Request where
  call : ℕ
  msg : Msg
deriving DecidableEq, Repr

structure Response where
  call : ℕ
  reply : Reply
deriving DecidableEq, Repr

structure State where
  proc : Process
  disk : Disk
  workers : List Worker
  calls : ℕ
  requests : List Request
  replies : List Response
  log : List FileEvent

/-- `coord`: the clock, `MakeCoordinator` or a checker.  `start`: a new worker.  `ping`: the
goroutine of a worker calls `Ping`.  `call`: a worker calls `GetTask` or `UpdateTask`.  `serve`: a
handler runs.  `callTrue` and `callFalse`: the call of a worker returns.  `work`: a worker runs
on. -/
inductive Action where
  | coord (a : Process.Action)
  | start (workerId : String)
  | ping (w : ℕ)
  | call (w : ℕ)
  | serve (k : ℕ)
  | callTrue (w k : ℕ)
  | callFalse (w : ℕ)
  | work (w : ℕ) (a : Worker.Action)
deriving DecidableEq, Repr

namespace State

def init (job : Job) : State where
  proc := .init job.files job.nReduce
  disk := job.disk
  workers := []
  calls := 0
  requests := []
  replies := []
  log := []

variable (s : State)

@[simps] def setProc (p : Process) : State := { s with proc := p }

@[simps] def spawn (workerId : String) : State :=
  { s with workers := s.workers ++ [⟨workerId, .getTask, [], .forWorker workerId⟩] }

@[simps] def become (w : ℕ) (wk : Worker) : State := { s with workers := s.workers.set w wk }

@[simps] def send (msg : Msg) : State :=
  { s with calls := s.calls + 1, requests := s.requests ++ [⟨s.calls, msg⟩] }

@[simps] def serve (k : ℕ) (q : Request) : State :=
  { s with
    proc := (s.proc.serve q.msg).1
    requests := s.requests.eraseIdx k
    replies := s.replies ++ [⟨q.call, (s.proc.serve q.msg).2⟩] }

@[simps] def perform (op : DiskOp) : State :=
  { s with disk := op.apply s.disk, log := s.log ++ op.events s.disk }

def step (job : Job) (s : State) : Action → Option State
  | .coord (.serve _) => none
  | .coord a => (s.proc.step a).map s.setProc
  | .start workerId => some (s.spawn workerId)
  | .ping w => do
      let wk ← s.workers[w]?
      if wk.pc = .exited then none else some (s.send (.ping wk.workerId))
  | .call w => do
      let wk ← s.workers[w]?
      let r ← wk.request s.calls
      some ((s.send r.1).become w r.2)
  | .serve k => do
      let q ← s.requests[k]?
      some (s.serve k q)
  | .callTrue w k => do
      let wk ← s.workers[w]?
      let p ← s.replies[k]?
      let wk' ← wk.receive p.call p.reply
      some (s.become w wk')
  | .callFalse w => do
      let wk ← s.workers[w]?
      let wk' ← wk.callFailed
      some (s.become w wk')
  | .work w a => do
      let wk ← s.workers[w]?
      let r ← wk.step job s.disk a
      some ((s.become w r.1).perform r.2)

end State

/-- A job as a transition system. -/
def system (job : Job) : Lts State Action := ⟨State.init job, State.step job⟩

/-! ### What a step can do -/

/-- The inversion of `State.step`. -/
inductive Stepped (job : Job) (s : State) : Action → State → Prop
  | coord {a : Process.Action} {p : Process} (ha : ∀ msg, a ≠ .serve msg)
      (h : s.proc.step a = some p) : Stepped job s (.coord a) (s.setProc p)
  | start (workerId : String) : Stepped job s (.start workerId) (s.spawn workerId)
  | ping {w : ℕ} {wk : Worker} (hw : s.workers[w]? = some wk) (hpc : wk.pc ≠ .exited) :
      Stepped job s (.ping w) (s.send (.ping wk.workerId))
  | call {w : ℕ} {wk wk' : Worker} {msg : Msg} (hw : s.workers[w]? = some wk)
      (h : wk.request s.calls = some (msg, wk')) :
      Stepped job s (.call w) ((s.send msg).become w wk')
  | serve {k : ℕ} {q : Request} (hq : s.requests[k]? = some q) :
      Stepped job s (.serve k) (s.serve k q)
  | callTrue {w k : ℕ} {wk wk' : Worker} {p : Response} (hw : s.workers[w]? = some wk)
      (hp : s.replies[k]? = some p) (h : wk.receive p.call p.reply = some wk') :
      Stepped job s (.callTrue w k) (s.become w wk')
  | callFalse {w : ℕ} {wk wk' : Worker} (hw : s.workers[w]? = some wk)
      (h : wk.callFailed = some wk') : Stepped job s (.callFalse w) (s.become w wk')
  | work {w : ℕ} {wk wk' : Worker} {a : Worker.Action} {op : DiskOp}
      (hw : s.workers[w]? = some wk) (h : Worker.Stepped job s.disk wk a wk' op) :
      Stepped job s (.work w a) ((s.become w wk').perform op)

theorem State.step_cases {job : Job} {s s' : State} {a : Action} (h : s.step job a = some s') :
    Stepped job s a s' := by
  cases a with
  | coord a =>
      cases a with
      | serve msg => cases h
      | clock now =>
          cases h
          exact .coord (by simp) rfl
      | ready =>
          obtain ⟨p, hp, rfl⟩ := Option.map_eq_some_iff.mp h
          exact .coord (by simp) hp
      | check k =>
          obtain ⟨p, hp, rfl⟩ := Option.map_eq_some_iff.mp h
          exact .coord (by simp) hp
  | start workerId =>
      cases h
      exact .start workerId
  | ping w =>
      obtain ⟨wk, hw, h⟩ := Option.bind_eq_some_iff.mp h
      split_ifs at h with hpc
      cases h
      exact .ping hw hpc
  | call w =>
      obtain ⟨wk, hw, h⟩ := Option.bind_eq_some_iff.mp h
      obtain ⟨⟨msg, wk'⟩, hr, h⟩ := Option.bind_eq_some_iff.mp h
      cases h
      exact .call hw hr
  | serve k =>
      obtain ⟨q, hq, h⟩ := Option.bind_eq_some_iff.mp h
      cases h
      exact .serve hq
  | callTrue w k =>
      obtain ⟨wk, hw, h⟩ := Option.bind_eq_some_iff.mp h
      obtain ⟨p, hp, h⟩ := Option.bind_eq_some_iff.mp h
      obtain ⟨wk', hr, h⟩ := Option.bind_eq_some_iff.mp h
      cases h
      exact .callTrue hw hp hr
  | callFalse w =>
      obtain ⟨wk, hw, h⟩ := Option.bind_eq_some_iff.mp h
      obtain ⟨wk', hr, h⟩ := Option.bind_eq_some_iff.mp h
      cases h
      exact .callFalse hw hr
  | work w a =>
      obtain ⟨wk, hw, h⟩ := Option.bind_eq_some_iff.mp h
      obtain ⟨⟨wk', op⟩, hr, h⟩ := Option.bind_eq_some_iff.mp h
      cases h
      exact .work hw (Worker.step_cases hr)

/-! ### The calls of a worker -/

/-- The two calls of `run`. -/
theorem Worker.request_cases {wk wk' : Worker} {call : ℕ} {msg : Msg}
    (h : wk.request call = some (msg, wk')) :
    (wk.pc = .getTask ∧ msg = .getTask wk.workerId ∧ wk' = wk.goto (.waitTask call)) ∨
    ∃ taskId, wk.pc = .markDone taskId ∧ msg = .updateTask ⟨wk.workerId, taskId, .done⟩ ∧
      wk' = wk.goto (.waitDone call) := by
  unfold Worker.request at h
  split at h
  · rename_i hpc
    cases h
    exact Or.inl ⟨hpc, rfl, rfl⟩
  · rename_i taskId hpc
    cases h
    exact Or.inr ⟨taskId, hpc, rfl, rfl⟩
  · cases h

/-- What a worker does with a reply. -/
theorem Worker.receive_cases {wk wk' : Worker} {call : ℕ} {reply : Reply}
    (h : wk.receive call reply = some wk') :
    (∃ task, wk.pc = .waitTask call ∧ reply = .getTask task ∧ wk' = wk.dispatch task) ∨
    (wk.pc = .waitDone call ∧ wk' = wk.goto .getTask) := by
  unfold Worker.receive at h
  split at h
  · rename_i hpc
    split_ifs at h with hcall
    cases h
    exact Or.inl ⟨_, hcall ▸ hpc, rfl, rfl⟩
  · rename_i hpc
    split_ifs at h with hcall
    cases h
    exact Or.inr ⟨hcall ▸ hpc, rfl⟩
  · cases h

/-- A worker that gets no reply goes on with an empty task or asks again. -/
theorem Worker.callFailed_cases {wk wk' : Worker} (h : wk.callFailed = some wk') :
    (∃ call, wk.pc = .waitTask call ∧ wk' = wk.dispatch .zero) ∨
    ∃ call, wk.pc = .waitDone call ∧ wk' = wk.goto .getTask := by
  unfold Worker.callFailed at h
  split at h
  · rename_i hpc
    cases h
    exact Or.inl ⟨_, hpc, rfl⟩
  · rename_i hpc
    cases h
    exact Or.inr ⟨_, hpc, rfl⟩
  · cases h

/-! ### The coordinator's part of a run -/

theorem reachable_reportsDone {job : Job} {C : State → Action → Prop} {s : State}
    (h : (system job).ReachableBy C s) :
    ∀ q ∈ s.requests, (Process.Action.serve q.msg).ReportsDone := by
  refine h.invariant (I := fun s => ∀ q ∈ s.requests, (Process.Action.serve q.msg).ReportsDone)
    (by simp [system, State.init]) ?_
  intro s a s' _ ih _ hstep q hq
  cases State.step_cases hstep with
  | coord ha h => exact ih q hq
  | start workerId => exact ih q hq
  | ping hw hpc =>
      rcases List.mem_append.mp hq with hq | hq
      · exact ih q hq
      · rw [List.mem_singleton] at hq
        subst hq
        trivial
  | call hw hr =>
      rcases List.mem_append.mp hq with hq | hq
      · exact ih q hq
      · rw [List.mem_singleton] at hq
        subst hq
        obtain ⟨-, rfl, -⟩ | ⟨taskId, -, rfl, -⟩ := Worker.request_cases hr
        · trivial
        · rfl
  | serve hk => exact ih q (List.mem_of_mem_eraseIdx hq)
  | callTrue hw hp hr => exact ih q hq
  | callFalse hw hr => exact ih q hq
  | work hw hwork => exact ih q hq

/-- The system refines the coordinator. -/
theorem reachable_proc {job : Job} {C : State → Action → Prop} {s : State}
    (h : (system job).ReachableBy C s) :
    (coordinator job.files job.nReduce).ReachableBy (fun _ a => a.ReportsDone) s.proc := by
  refine h.simulate State.proc rfl ?_
  intro s a s' hr _ hstep
  cases State.step_cases hstep with
  | @coord a p ha h =>
      exact Or.inr ⟨a, (Process.Action.reported_of_ne_serve ha).1, h⟩
  | start workerId => exact Or.inl rfl
  | ping hw hpc => exact Or.inl rfl
  | call hw hreq => exact Or.inl rfl
  | @serve k q hq =>
      exact Or.inr ⟨.serve q.msg, reachable_reportsDone hr q (List.mem_of_getElem? hq), rfl⟩
  | callTrue hw hp hrec => exact Or.inl rfl
  | callFalse hw hf => exact Or.inl rfl
  | work hw hwork => exact Or.inl rfl

/-! ### A job with one word -/

/-- The word count of a file with one word. -/
def oneWordJob : Job where
  mapf := wordMap
  reducef := wordCount
  files := ["in"]
  nReduce := 1
  disk := AList.singleton "in" (.text (.ofText "a"))
  inputs := by
    intro f hf
    rw [List.mem_singleton.mp hf]
    exact ⟨.ofText "a", rfl⟩
  clean := by
    intro name hname r
    have hin : name = "in" := by
      simpa [AList.mem_keys, AList.keys, AList.singleton] using hname
    rw [hin, Bool.eq_false_iff]
    intro h
    obtain ⟨mid, h, -⟩ := bucketPattern_iff.mp h
    simp at h
  distinct := by
    intro f hf r _ h
    have h := congrArg String.toList ((List.mem_singleton.mp hf).symm.trans h)
    simp [outName] at h

end DistributedSystems.MapReduce
