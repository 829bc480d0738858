import DistributedSystems.TransitionSystem
import DistributedSystems.MapReduceFiles

/-! # The MapReduce coordinator

The functions of `mr/coordinator.go`, each as what its critical section does to the coordinator,
and the coordinator with its clock and its checker goroutines as a transition system
(`coordinator`).

Every step moves each task in a way that keeps what `createTasks` put into it and never takes back
that it is done (`Task.Evolves`).  From this follow the invariants that the workers rely on
(`CoordinatorOk`): the tasks are those that were created, and the phase is never ahead of the
tasks. -/

namespace DistributedSystems.MapReduce

inductive TaskType where
  | unset
  | map
  | reduce
  | wait
  | exit
deriving DecidableEq, Repr

inductive TaskStatus where
  | pending
  | onGoing
  | done
deriving DecidableEq, Repr

inductive JobPhase where
  | unset
  | map
  | reduce
  | done
deriving DecidableEq, Repr

structure Task where
  id : String
  input : String
  tType : TaskType
  status : TaskStatus
  workerId : String
  idx : ℕ
  lastPing : ℤ
deriving DecidableEq, Repr

structure GetTaskOut where
  id : String
  input : String
  type : TaskType
  nReduce : ℕ
  idx : ℕ
deriving DecidableEq, Repr

structure UpdateTaskIn where
  workerId : String
  taskId : String
  status : TaskStatus
deriving DecidableEq, Repr

/-- The coordinator, with the counter of the task ids. -/
structure Coordinator where
  phase : JobPhase
  tasks : List Task
  nReduce : ℕ
  taskCounter : ℕ
deriving DecidableEq, Repr

/-- The reply before a call fills it in. -/
def GetTaskOut.zero : GetTaskOut := ⟨"", "", .unset, 0, 0⟩

/-! ### The functions of the coordinator -/

def mapTask (k : ℕ) (filename : String) : Task :=
  ⟨toString (k + 1), filename, .map, .pending, "", 0, 0⟩

/-- The reduce task `i` of a job with `m` files. -/
def reduceTask (m i : ℕ) : Task :=
  ⟨toString (m + i + 1), bucketPattern i, .reduce, .pending, "", i, 0⟩

def createTasks (files : List String) (nReduce : ℕ) : List Task :=
  files.mapIdx mapTask ++ (List.range nReduce).map (reduceTask files.length)

/-- No task of the type is left, as the loop of `UpdateTask` computes it for both types. -/
def allDone (tType : TaskType) (tasks : List Task) : Bool :=
  tasks.all (fun t => ¬ (t.tType = tType ∧ t.status ≠ .done))

namespace Coordinator

/-- `MakeCoordinator` up to the start of the server. -/
def make (files : List String) (nReduce : ℕ) : Coordinator :=
  ⟨.unset, createTasks files nReduce, nReduce, files.length + nReduce⟩

variable (c : Coordinator)

def ping (workerId : String) (now : ℤ) : Coordinator :=
  { c with
    tasks := c.tasks.map (fun t =>
      if t.workerId = workerId then { t with lastPing := now } else t) }

/-- The first pending task of the phase, with its index. -/
def findPendingTask : Option (Task × ℕ) :=
  let tType := if c.phase = .reduce then TaskType.reduce else .map
  c.tasks.zipIdx.find? (fun p => p.1.tType = tType ∧ p.1.status = .pending)

/-- The coordinator after the call, the reply and the task for which it starts a checker. -/
def getTask (workerId : String) (now : ℤ) : Coordinator × GetTaskOut × Option ℕ :=
  let id := toString (c.taskCounter + 1)
  if c.phase = .done then
    ({ c with taskCounter := c.taskCounter + 1 }, { GetTaskOut.zero with id, type := .exit }, none)
  else
    match c.findPendingTask with
    | none =>
        ({ c with taskCounter := c.taskCounter + 1 },
          { GetTaskOut.zero with id, type := .wait }, none)
    | some (t, i) =>
        ({ c with
            tasks := c.tasks.set i { t with status := .onGoing, workerId, lastPing := now } },
          ⟨t.id, t.input, t.tType, c.nReduce, t.idx⟩, some i)

def checkTask (i : ℕ) (now : ℤ) : Coordinator :=
  { c with
    tasks := c.tasks.modify i (fun t =>
      if t.status = .onGoing ∧ now - t.lastPing > 10000 then
        { t with status := .pending, workerId := "" }
      else t) }

def updateTask (args : UpdateTaskIn) : Coordinator :=
  let tasks := c.tasks.map (fun t =>
    if t.id = args.taskId then { t with status := args.status } else t)
  let mapDone := allDone .map tasks
  let reduceDone := allDone .reduce tasks
  { c with
    tasks
    phase :=
      if mapDone = true ∧ reduceDone = false then .reduce
      else if mapDone = true ∧ reduceDone = true then .done
      else c.phase }

/-- `Done`. -/
def isDone : Bool := c.phase = .done

end Coordinator

/-! ### Task ids

The model counts the ids with a natural number, in `createTasks` by the position of the task.  These
are the ids of `TaskId.get` as long as its counter does not overflow. -/

/-- The ids of the next `n` calls of `get`, and the generator after them. -/
def TaskId.gets : ℕ → TaskId → List String × TaskId
  | 0, t => ([], t)
  | n + 1, t => (t.get.1 :: (gets n t.get.2).1, (gets n t.get.2).2)

theorem TaskId.gets_ofNat : ∀ {n c : ℕ}, c + n < 2 ^ 63 → TaskId.gets n ⟨Int64.ofNat c⟩ =
    ((List.range n).map (fun k => toString (c + k + 1)), ⟨Int64.ofNat (c + n)⟩)
  | 0, _, _ => rfl
  | n + 1, c, h => by
      have ih := @TaskId.gets_ofNat n (c + 1) (by omega)
      have hids : (List.range n).map (fun k => toString (c + 1 + k + 1)) =
          (List.range n).map ((fun k => toString (c + k + 1)) ∘ Nat.succ) := by
        refine List.map_congr_left ?_
        intro k _
        rw [Function.comp_apply, show c + 1 + k + 1 = c + k.succ + 1 by omega]
      rw [TaskId.gets, TaskId.get_ofNat (by omega), ih, hids, List.range_succ_eq_map, List.map_cons,
        List.map_map, show c + 1 + n = c + (n + 1) by omega]

theorem createTasks_getElem? {files : List String} {nReduce i : ℕ} {t : Task}
    (h : (createTasks files nReduce)[i]? = some t) :
    t.id = toString (i + 1) ∧ t.status = .pending := by
  unfold createTasks at h
  rw [List.getElem?_append, List.length_mapIdx] at h
  split_ifs at h with hi
  · rw [List.getElem?_mapIdx, Option.map_eq_some_iff] at h
    obtain ⟨f, -, rfl⟩ := h
    exact ⟨rfl, rfl⟩
  · rw [List.getElem?_map, Option.map_eq_some_iff] at h
    obtain ⟨r, hr, rfl⟩ := h
    obtain ⟨hlt, rfl⟩ := List.getElem?_eq_some_iff.mp hr
    refine ⟨?_, rfl⟩
    have he : files.length + (i - files.length) + 1 = i + 1 := by omega
    simp only [reduceTask, List.getElem_range, he]

/-- The tasks have the ids that `TaskId.get` gives one after the other, and `MakeCoordinator` leaves
its counter behind them. -/
theorem gets_createTasks {files : List String} {nReduce : ℕ}
    (h : files.length + nReduce < 2 ^ 63) : TaskId.gets (files.length + nReduce) ⟨0⟩ =
      ((createTasks files nReduce).map Task.id,
        ⟨Int64.ofNat (Coordinator.make files nReduce).taskCounter⟩) := by
  have hids : (createTasks files nReduce).map Task.id =
      (List.range (files.length + nReduce)).map (fun k => toString (k + 1)) := by
    refine List.ext_getElem (by simp [createTasks]) ?_
    intro i hi _
    rw [List.getElem_map, List.getElem_map, List.getElem_range]
    exact (createTasks_getElem? (List.getElem?_eq_getElem _)).1
  have hgets := TaskId.gets_ofNat (n := files.length + nReduce) (c := 0) (by omega)
  rw [Nat.zero_add] at hgets
  rw [hids]
  refine Eq.trans hgets (congrArg (fun ids => (ids, _)) (List.map_congr_left ?_))
  intro k _
  rw [Nat.zero_add]

/-! ### The coordinator's process -/

inductive Msg where
  | ping (workerId : String)
  | getTask (workerId : String)
  | updateTask (args : UpdateTaskIn)
deriving DecidableEq, Repr

inductive Reply where
  | ping
  | getTask (out : GetTaskOut)
  | updateTask (success : Bool)
deriving DecidableEq, Repr

/-- The coordinator, the time, the tasks of the checker goroutines that `GetTask` has started, and
whether `MakeCoordinator` has set the first phase. -/
structure Process where
  coord : Coordinator
  now : ℤ
  checkers : List ℕ
  returned : Bool
deriving DecidableEq, Repr

namespace Process

/-- `ready`: `MakeCoordinator` sets the phase.  `serve`: a handler runs.  `check`: a checker
goroutine runs `checkTask`. -/
inductive Action where
  | clock (now : ℤ)
  | ready
  | serve (msg : Msg)
  | check (k : ℕ)
deriving DecidableEq, Repr

def init (files : List String) (nReduce : ℕ) : Process := ⟨.make files nReduce, 0, [], false⟩

variable (p : Process)

def serve : Msg → Process × Reply
  | .ping workerId => ({ p with coord := p.coord.ping workerId p.now }, .ping)
  | .getTask workerId =>
      let r := p.coord.getTask workerId p.now
      ({ p with coord := r.1, checkers := p.checkers ++ r.2.2.toList }, .getTask r.2.1)
  | .updateTask args => ({ p with coord := p.coord.updateTask args }, .updateTask true)

def step (p : Process) : Action → Option Process
  | .clock now => some { p with now }
  | .ready =>
      if p.returned then none
      else some { p with coord := { p.coord with phase := .map }, returned := true }
  | .serve msg => some (p.serve msg).1
  | .check k => do
      let i ← p.checkers[k]?
      some { p with coord := p.coord.checkTask i p.now }

end Process

/-- The coordinator of a job as a transition system. -/
def coordinator (files : List String) (nReduce : ℕ) : Lts Process Process.Action :=
  ⟨.init files nReduce, Process.step⟩

/-! ### What a call of `GetTask` does -/

/-- The three cases of `GetTask`. -/
inductive GotTask (c : Coordinator) (workerId : String) (now : ℤ) :
    Coordinator × GetTaskOut × Option ℕ → Prop
  | exit (h : c.phase = .done) : GotTask c workerId now
      ({ c with taskCounter := c.taskCounter + 1 },
        { GetTaskOut.zero with id := toString (c.taskCounter + 1), type := .exit }, none)
  | wait (h : c.phase ≠ .done) (hnone : c.findPendingTask = none) : GotTask c workerId now
      ({ c with taskCounter := c.taskCounter + 1 },
        { GetTaskOut.zero with id := toString (c.taskCounter + 1), type := .wait }, none)
  | task {i : ℕ} {t : Task} (h : c.phase ≠ .done) (ht : c.tasks[i]? = some t)
      (htype : t.tType = if c.phase = .reduce then .reduce else .map) (hs : t.status = .pending) :
      GotTask c workerId now
        ({ c with
            tasks := c.tasks.set i { t with status := .onGoing, workerId, lastPing := now } },
          ⟨t.id, t.input, t.tType, c.nReduce, t.idx⟩, some i)

theorem findPendingTask_some {c : Coordinator} {t : Task} {i : ℕ}
    (h : c.findPendingTask = some (t, i)) : c.tasks[i]? = some t ∧
      t.tType = (if c.phase = .reduce then .reduce else .map) ∧ t.status = .pending := by
  unfold Coordinator.findPendingTask at h
  have hmem := List.mem_of_find?_eq_some h
  have hp := List.find?_some h
  rw [List.mem_zipIdx_iff_getElem?] at hmem
  exact ⟨hmem, of_decide_eq_true hp⟩

theorem gotTask (c : Coordinator) (workerId : String) (now : ℤ) :
    GotTask c workerId now (c.getTask workerId now) := by
  unfold Coordinator.getTask
  by_cases hphase : c.phase = .done
  · rw [if_pos hphase]
    exact .exit hphase
  · rw [if_neg hphase]
    cases hf : c.findPendingTask with
    | none => exact .wait hphase hf
    | some p =>
        obtain ⟨ht, htype, hs⟩ := findPendingTask_some hf
        exact .task hphase ht htype hs

/-! ### Tasks -/

/-- What `createTasks` puts into a task and nothing changes. -/
structure Task.Same (t t' : Task) : Prop where
  id : t'.id = t.id
  input : t'.input = t.input
  tType : t'.tType = t.tType
  idx : t'.idx = t.idx

/-- What a step can do to a task, when it reports the task `reported` as done. -/
structure Task.Evolves (reported : Option String) (t t' : Task) : Prop where
  same : t.Same t'
  done : t.status = .done → t'.status = .done
  of_done : t'.status = .done → t.status = .done ∨ reported = some t.id

theorem Task.Evolves.refl (reported : Option String) (t : Task) : t.Evolves reported t :=
  ⟨⟨rfl, rfl, rfl, rfl⟩, fun h => h, Or.inl⟩

theorem forall₂_modify {α : Type} {R : α → α → Prop} (hR : ∀ a, R a a) {f : α → α} :
    ∀ {l : List α} {i : ℕ}, (∀ a, l[i]? = some a → R a (f a)) → List.Forall₂ R l (l.modify i f)
  | [], i, _ => by simp
  | a :: l, 0, h => .cons (h a rfl) (List.forall₂_same.mpr (fun a _ => hR a))
  | a :: l, i + 1, h => .cons (hR a) (forall₂_modify hR (fun b hb => h b (by simpa using hb)))

namespace Process

/-- The task that a step reports as done. -/
def Action.reported : Action → Option String
  | .serve (.updateTask args) => some args.taskId
  | _ => none

/-- The workers report no other status than done. -/
def Action.ReportsDone : Action → Prop
  | .serve (.updateTask args) => args.status = .done
  | _ => True

/-- Only the handler of `UpdateTask` reports. -/
theorem Action.reported_of_ne_serve {a : Action} (h : ∀ msg, a ≠ .serve msg) :
    a.ReportsDone ∧ a.reported = none := by
  cases a with
  | serve msg => exact absurd rfl (h msg)
  | clock now => exact ⟨trivial, rfl⟩
  | ready => exact ⟨trivial, rfl⟩
  | check k => exact ⟨trivial, rfl⟩

end Process

theorem evolves_getTask (c : Coordinator) (workerId : String) (now : ℤ) :
    List.Forall₂ (Task.Evolves none) c.tasks (c.getTask workerId now).1.tasks := by
  have hrefl : List.Forall₂ (Task.Evolves none) c.tasks c.tasks :=
    List.forall₂_same.mpr (fun t _ => .refl none t)
  have h := gotTask c workerId now
  generalize c.getTask workerId now = r at h ⊢
  cases h with
  | exit _ => exact hrefl
  | wait _ _ => exact hrefl
  | @task i t _ ht _ hs =>
      dsimp only
      rw [List.set_eq_modify]
      refine forall₂_modify (Task.Evolves.refl none) ?_
      intro a ha
      rw [ht, Option.some.injEq] at ha
      subst ha
      refine ⟨⟨rfl, rfl, rfl, rfl⟩, ?_, ?_⟩
      · intro h
        rw [hs] at h
        cases h
      · intro h
        cases h

theorem evolves_checkTask (c : Coordinator) (i : ℕ) (now : ℤ) :
    List.Forall₂ (Task.Evolves none) c.tasks (c.checkTask i now).tasks := by
  refine forall₂_modify (Task.Evolves.refl none) ?_
  intro t _
  split_ifs with h
  · refine ⟨⟨rfl, rfl, rfl, rfl⟩, ?_, ?_⟩
    · intro hd
      rw [h.1] at hd
      cases hd
    · intro hd
      cases hd
  · exact .refl none t

theorem evolves_ping (c : Coordinator) (workerId : String) (now : ℤ) :
    List.Forall₂ (Task.Evolves none) c.tasks (c.ping workerId now).tasks := by
  unfold Coordinator.ping
  rw [List.forall₂_map_right_iff]
  refine List.forall₂_same.mpr ?_
  intro t _
  split_ifs
  · exact ⟨⟨rfl, rfl, rfl, rfl⟩, fun h => h, Or.inl⟩
  · exact .refl none t

theorem evolves_updateTask (c : Coordinator) {args : UpdateTaskIn} (h : args.status = .done) :
    List.Forall₂ (Task.Evolves (some args.taskId)) c.tasks (c.updateTask args).tasks := by
  unfold Coordinator.updateTask
  dsimp only
  rw [List.forall₂_map_right_iff]
  refine List.forall₂_same.mpr ?_
  intro t _
  split_ifs with hid
  · exact ⟨⟨rfl, rfl, rfl, rfl⟩, fun _ => h, fun _ => Or.inr (congrArg some hid.symm)⟩
  · exact .refl _ t

theorem getTask_phase (c : Coordinator) (workerId : String) (now : ℤ) :
    (c.getTask workerId now).1.phase = c.phase ∧
      (c.getTask workerId now).1.nReduce = c.nReduce := by
  have h := gotTask c workerId now
  generalize c.getTask workerId now = r at h ⊢
  cases h <;> exact ⟨rfl, rfl⟩

/-- What a step of the process does to the coordinator. -/
structure Process.Effect (reported : Option String) (c c' : Coordinator) : Prop where
  tasks : List.Forall₂ (Task.Evolves reported) c.tasks c'.tasks
  nReduce : c'.nReduce = c.nReduce
  phase : c'.phase = c.phase ∨ c'.phase = .map ∨
    ∃ args : UpdateTaskIn, args.status = .done ∧ c' = c.updateTask args

theorem Process.step_effect {p p' : Process} {a : Process.Action} (ha : a.ReportsDone)
    (h : p.step a = some p') : Process.Effect a.reported p.coord p'.coord := by
  have hrefl : List.Forall₂ (Task.Evolves none) p.coord.tasks p.coord.tasks :=
    List.forall₂_same.mpr (fun t _ => .refl none t)
  cases a with
  | clock now =>
      cases h
      exact ⟨hrefl, rfl, Or.inl rfl⟩
  | ready =>
      simp only [step] at h
      split_ifs at h
      cases h
      exact ⟨hrefl, rfl, Or.inr (Or.inl rfl)⟩
  | serve msg =>
      cases h
      cases msg with
      | ping workerId => exact ⟨evolves_ping p.coord workerId p.now, rfl, Or.inl rfl⟩
      | getTask workerId =>
          obtain ⟨hphase, hn⟩ := getTask_phase p.coord workerId p.now
          exact ⟨evolves_getTask p.coord workerId p.now, hn, Or.inl hphase⟩
      | updateTask args =>
          exact ⟨evolves_updateTask p.coord ha, rfl, Or.inr (Or.inr ⟨args, ha, rfl⟩)⟩
  | check k =>
      simp only [step] at h
      obtain ⟨i, -, h⟩ := Option.bind_eq_some_iff.mp h
      cases h
      exact ⟨evolves_checkTask p.coord i p.now, rfl, Or.inl rfl⟩

/-! ### Invariants of the coordinator -/

/-- The phase is not ahead of the tasks. -/
structure PhaseOk (c : Coordinator) : Prop where
  maps : c.phase = .reduce ∨ c.phase = .done → ∀ t ∈ c.tasks, t.tType = .map → t.status = .done
  reduces : c.phase = .done → ∀ t ∈ c.tasks, t.tType = .reduce → t.status = .done

structure CoordinatorOk (files : List String) (nReduce : ℕ) (c : Coordinator) : Prop where
  tasks : List.Forall₂ Task.Same (createTasks files nReduce) c.tasks
  nReduce : c.nReduce = nReduce
  phase : PhaseOk c

theorem exists_of_forall₂ {α β : Type} {R : α → β → Prop} {l : List α} {l' : List β}
    (h : List.Forall₂ R l l') {b : β} (hb : b ∈ l') : ∃ a ∈ l, R a b := by
  obtain ⟨i, hi, rfl⟩ := List.mem_iff_getElem.mp hb
  exact ⟨_, List.getElem_mem (h.length_eq ▸ hi), h.get _ _⟩

theorem getElem?_of_forall₂ {α β : Type} {R : α → β → Prop} {l : List α} {l' : List β}
    (h : List.Forall₂ R l l') {i : ℕ} {a : α} (ha : l[i]? = some a) :
    ∃ b, l'[i]? = some b ∧ R a b := by
  obtain ⟨hi, rfl⟩ := List.getElem?_eq_some_iff.mp ha
  exact ⟨_, List.getElem?_eq_getElem (h.length_eq ▸ hi), h.get _ _⟩

/-- Tasks that are done stay done, so the phase stays behind them. -/
theorem PhaseOk.evolves {c c' : Coordinator} {reported : Option String} (h : PhaseOk c)
    (hphase : c'.phase = c.phase) (ht : List.Forall₂ (Task.Evolves reported) c.tasks c'.tasks) :
    PhaseOk c' := by
  constructor
  · intro hp t' ht' htype
    obtain ⟨t, hmem, hev⟩ := exists_of_forall₂ ht ht'
    exact hev.done (h.maps (hphase ▸ hp) t hmem (hev.same.tType.symm.trans htype))
  · intro hp t' ht' htype
    obtain ⟨t, hmem, hev⟩ := exists_of_forall₂ ht ht'
    exact hev.done (h.reduces (hphase ▸ hp) t hmem (hev.same.tType.symm.trans htype))

theorem allDone_iff {tType : TaskType} {tasks : List Task} :
    allDone tType tasks = true ↔ ∀ t ∈ tasks, t.tType = tType → t.status = .done := by
  simp [allDone, imp_iff_not_or]

theorem updateTask_phase (c : Coordinator) (args : UpdateTaskIn) : (c.updateTask args).phase =
    if allDone .map (c.updateTask args).tasks = true ∧
      allDone .reduce (c.updateTask args).tasks = false then .reduce
    else if allDone .map (c.updateTask args).tasks = true ∧
      allDone .reduce (c.updateTask args).tasks = true then .done
    else c.phase :=
  rfl

theorem PhaseOk.updateTask {c : Coordinator} {args : UpdateTaskIn} (h : PhaseOk c)
    (hs : args.status = .done) : PhaseOk (c.updateTask args) := by
  have hev := evolves_updateTask c hs
  have hphase := updateTask_phase c args
  cases hmap : allDone .map (c.updateTask args).tasks with
  | false =>
      rw [hmap, if_neg (by simp), if_neg (by simp)] at hphase
      exact h.evolves hphase hev
  | true =>
      refine ⟨fun _ => allDone_iff.mp hmap, ?_⟩
      intro hp
      cases hreduce : allDone .reduce (c.updateTask args).tasks with
      | true => exact allDone_iff.mp hreduce
      | false =>
          rw [hmap, hreduce, if_pos ⟨rfl, rfl⟩] at hphase
          rw [hphase] at hp
          cases hp

theorem PhaseOk.of_effect {c c' : Coordinator} {reported : Option String} (h : PhaseOk c)
    (heff : Process.Effect reported c c') : PhaseOk c' := by
  rcases heff.phase with hphase | hphase | ⟨args, hs, rfl⟩
  · exact h.evolves hphase heff.tasks
  · constructor
    · rw [hphase]
      rintro (hp | hp) <;> cases hp
    · rw [hphase]
      intro hp
      cases hp
  · exact h.updateTask hs

theorem Task.Same.trans {t t' t'' : Task} (h : t.Same t') (h' : t'.Same t'') : t.Same t'' :=
  ⟨h'.id.trans h.id, h'.input.trans h.input, h'.tType.trans h.tType, h'.idx.trans h.idx⟩

theorem forall₂_same_evolves {reported : Option String} {l l' l'' : List Task}
    (h : List.Forall₂ Task.Same l l') (h' : List.Forall₂ (Task.Evolves reported) l' l'') :
    List.Forall₂ Task.Same l l'' := by
  induction h generalizing l'' with
  | nil =>
      cases h'
      exact .nil
  | cons hs _ ih =>
      cases h' with
      | cons he he' => exact .cons (hs.trans he.same) (ih he')

theorem coordinatorOk_init (files : List String) (nReduce : ℕ) :
    CoordinatorOk files nReduce (Coordinator.make files nReduce) where
  tasks := List.forall₂_same.mpr (fun _ _ => ⟨rfl, rfl, rfl, rfl⟩)
  nReduce := rfl
  phase := by
    refine ⟨?_, ?_⟩
    · rintro (hp | hp) <;> cases hp
    · intro hp
      cases hp

theorem CoordinatorOk.of_effect {files : List String} {nReduce : ℕ} {c c' : Coordinator}
    {reported : Option String} (h : CoordinatorOk files nReduce c)
    (heff : Process.Effect reported c c') : CoordinatorOk files nReduce c' where
  tasks := forall₂_same_evolves h.tasks heff.tasks
  nReduce := heff.nReduce.trans h.nReduce
  phase := h.phase.of_effect heff

/-- The invariants, in every run in which the workers report nothing but done. -/
theorem reachable_coordinatorOk {files : List String} {nReduce : ℕ} {p : Process}
    (h : (coordinator files nReduce).ReachableBy (fun _ a => a.ReportsDone) p) :
    CoordinatorOk files nReduce p.coord := by
  refine h.invariant (I := fun p => CoordinatorOk files nReduce p.coord)
    (coordinatorOk_init files nReduce) ?_
  intro p a p' _ ih ha hstep
  exact ih.of_effect (Process.step_effect ha hstep)

end DistributedSystems.MapReduce
