import DistributedSystems.MapReduceSystem

/-! # What the workers put into the directory

In every run, with crashes, failing system calls and several workers on one task, the files that
look like intermediate files are complete: each holds the sorted bucket of a map task (`DirOk`).
The reason is that a file gets such a name only by the rename of a temporary file, and that a
temporary file belongs to one writer.

The output files are only as good as what the reduce tasks have read.  So the invariant has a
parameter `out`, what is known of their content, and is preserved as long as the outputs
that the workers begin to write have it. -/

namespace DistributedSystems.MapReduce

/-- The text of an input file. -/
def Job.content (job : Job) (f : String) : Str :=
  ((job.disk.lookup f).map Content.string).getD []

/-- The bucket `r` of the map task for the `k`-th file. -/
def Job.bucket (job : Job) (k r : ℕ) : Option (List KeyValue) := do
  let f ← job.files[k]?
  (splitIntoBuckets (job.mapf f (job.content f)) job.nReduce)[r]?

theorem Job.bucket_eq {job : Job} {k : ℕ} {f : String} (hf : job.files[k]? = some f) (r : ℕ) :
    job.bucket k r = (splitIntoBuckets (job.mapf f (job.content f)) job.nReduce)[r]? := by
  rw [Job.bucket, hf]
  rfl

theorem Job.lt_of_bucket {job : Job} {k r : ℕ} {bucket : List KeyValue}
    (h : job.bucket k r = some bucket) : k < job.files.length := by
  obtain ⟨f, hf, -⟩ := Option.bind_eq_some_iff.mp h
  exact (List.getElem?_eq_some_iff.mp hf).1

/-! ### The tasks of the workers -/

/-- The reply that hands out a map task. -/
def MapIssued (job : Job) (task : GetTaskOut) : Prop :=
  ∃ k f, job.files[k]? = some f ∧ task = ⟨toString (k + 1), f, .map, job.nReduce, 0⟩

/-- The reply that hands out the reduce task `r`. -/
def ReduceIssued (job : Job) (r : ℕ) (task : GetTaskOut) : Prop :=
  r < job.nReduce ∧
    task = ⟨toString (job.files.length + r + 1), bucketPattern r, .reduce, job.nReduce, r⟩

/-- All names are matched by the pattern of the reduce task `r`. -/
def Matches (r : ℕ) (names : List String) : Prop :=
  ∀ name ∈ names, globMatch (bucketPattern r).toList name.toList = true

def PcOk (job : Job) : Pc → Prop
  | .mapRead task | .mapWrite task => MapIssued job task
  | .glob task => ∃ r, ReduceIssued job r task
  | .reduceRead task filenames todo _ =>
      ∃ r, ReduceIssued job r task ∧ Matches r filenames ∧ Matches r todo
  | .reduceWrite task filenames => ∃ r, ReduceIssued job r task ∧ Matches r filenames
  | .delete task todo => ∃ r, ReduceIssued job r task ∧ Matches r todo
  | _ => True

structure TasksOk (job : Job) (s : State) : Prop where
  replies : ∀ p ∈ s.replies, ∀ task, p.reply = .getTask task →
    MapIssued job task ∨ (∃ r, ReduceIssued job r task) ∨ task.type = .wait ∨ task.type = .exit
  pcs : ∀ wk ∈ s.workers, PcOk job wk.pc

theorem mem_createTasks {files : List String} {nReduce : ℕ} {t : Task}
    (h : t ∈ createTasks files nReduce) : (∃ k f, files[k]? = some f ∧ t = mapTask k f) ∨
      ∃ r < nReduce, t = reduceTask files.length r := by
  rcases List.mem_append.mp h with h | h
  · obtain ⟨k, hk, rfl⟩ := List.mem_mapIdx.mp h
    exact Or.inl ⟨k, files[k], List.getElem?_eq_getElem hk, rfl⟩
  · obtain ⟨r, hr, rfl⟩ := List.mem_map.mp h
    exact Or.inr ⟨r, List.mem_range.mp hr, rfl⟩

/-- Every task that is handed out is one that was created. -/
theorem issued_of_task {job : Job} {c : Coordinator}
    (hc : CoordinatorOk job.files job.nReduce c) {t : Task} (ht : t ∈ c.tasks) :
    MapIssued job ⟨t.id, t.input, t.tType, c.nReduce, t.idx⟩ ∨
      ∃ r, ReduceIssued job r ⟨t.id, t.input, t.tType, c.nReduce, t.idx⟩ := by
  obtain ⟨t₀, hmem, hsame⟩ := exists_of_forall₂ hc.tasks ht
  rw [hsame.id, hsame.input, hsame.tType, hsame.idx, hc.nReduce]
  obtain ⟨k, f, hf, rfl⟩ | ⟨r, hr, rfl⟩ := mem_createTasks hmem
  · exact Or.inl ⟨k, f, hf, rfl⟩
  · exact Or.inr ⟨r, hr, rfl⟩

theorem pcOk_dispatch {job : Job} {wk : Worker} {task : GetTaskOut}
    (h : MapIssued job task ∨ (∃ r, ReduceIssued job r task) ∨ task.type = .wait ∨
      task.type = .exit) : PcOk job (wk.dispatch task).pc := by
  rcases h with h | ⟨r, h⟩ | h | h
  · have htype : task.type = .map := by
      obtain ⟨k, f, -, rfl⟩ := h
      rfl
    simp only [Worker.dispatch_pc, Worker.dispatchTo, htype]
    exact h
  · have htype : task.type = .reduce := by
      rw [h.2]
    simp only [Worker.dispatch_pc, Worker.dispatchTo, htype]
    exact ⟨r, h⟩
  · simp only [Worker.dispatch_pc, Worker.dispatchTo, h]
    trivial
  · simp only [Worker.dispatch_pc, Worker.dispatchTo, h]
    trivial

theorem PcOk.of_stepped {job : Job} {disk : Disk} {wk wk' : Worker} {a : Worker.Action}
    {op : DiskOp} (h : PcOk job wk.pc) (hstep : Worker.Stepped job disk wk a wk' op) :
    PcOk job wk'.pc := by
  cases hstep with
  | mapMissing hpc hl => trivial
  | mapRead hpc hl =>
      rw [hpc] at h
      exact h
  | mapDone hpc hj => trivial
  | @glob task hpc =>
      rw [hpc] at h
      obtain ⟨r, hr⟩ := h
      have hmatch : Matches r (glob task.input disk.keys) := by
        intro name hname
        have hmem := (glob_perm _ _).mem_iff.mp hname
        rw [hr.2] at hmem
        exact (List.mem_filter.mp hmem).2
      exact ⟨r, hr, hmatch, hmatch⟩
  | readMissing hpc hl => trivial
  | read hpc hl =>
      rw [hpc] at h
      obtain ⟨r, hr, hf, ht⟩ := h
      exact ⟨r, hr, hf, fun name hname => ht name (List.mem_cons_of_mem _ hname)⟩
  | reduce hpc horder =>
      rw [hpc] at h
      obtain ⟨r, hr, hf, -⟩ := h
      exact ⟨r, hr, hf⟩
  | reduceDone hpc hj =>
      rw [hpc] at h
      exact h
  | remove hpc =>
      rw [hpc] at h
      obtain ⟨r, hr, ht⟩ := h
      exact ⟨r, hr, fun name hname => ht name (List.mem_cons_of_mem _ hname)⟩
  | deleted hpc => trivial
  | failRemove hpc =>
      rw [hpc] at h
      obtain ⟨r, hr, ht⟩ := h
      exact ⟨r, hr, fun name hname => ht name (List.mem_cons_of_mem _ hname)⟩
  | failMap hpc => trivial
  | failReduce hpc => trivial
  | crash => trivial
  | sort hw hstage hs => exact h
  | create hw hstage hn => exact h
  | part s hw hstage => exact h
  | write hw hstage => exact h
  | close hw hstage => exact h
  | rename hw hstage => exact h
  | fail hw hdone hrename => exact h
  | failRename hw hstage => exact h

theorem TasksOk.step {job : Job} {s s' : State} {a : Action} (h : TasksOk job s)
    (hc : CoordinatorOk job.files job.nReduce s.proc.coord) (hstep : Stepped job s a s') :
    TasksOk job s' := by
  cases hstep with
  | coord ha hp => exact ⟨h.replies, h.pcs⟩
  | start workerId =>
      refine ⟨h.replies, ?_⟩
      intro wk hwk
      rcases List.mem_append.mp hwk with hwk | hwk
      · exact h.pcs wk hwk
      · rw [List.mem_singleton.mp hwk]
        trivial
  | ping hw hpc => exact ⟨h.replies, h.pcs⟩
  | call hw hreq =>
      refine ⟨h.replies, forall_mem_set h.pcs ?_⟩
      obtain ⟨-, -, rfl⟩ | ⟨taskId, -, -, rfl⟩ := Worker.request_cases hreq <;> trivial
  | @serve k q hq =>
      refine ⟨?_, h.pcs⟩
      intro p hp task htask
      rcases List.mem_append.mp hp with hp | hp
      · exact h.replies p hp task htask
      · rw [List.mem_singleton] at hp
        subst hp
        obtain ⟨call, msg⟩ := q
        cases msg with
        | ping workerId => cases htask
        | updateTask args => cases htask
        | getTask workerId =>
            have hgot := gotTask s.proc.coord workerId s.proc.now
            simp only [Process.serve, Reply.getTask.injEq] at htask
            generalize s.proc.coord.getTask workerId s.proc.now = r at hgot htask
            subst htask
            cases hgot with
            | exit hphase => exact Or.inr (Or.inr (Or.inr rfl))
            | wait hphase hnone => exact Or.inr (Or.inr (Or.inl rfl))
            | task hphase ht htype hs =>
                rcases issued_of_task hc (List.mem_of_getElem? ht) with hi | hi
                · exact Or.inl hi
                · exact Or.inr (Or.inl hi)
  | callTrue hw hp hrec =>
      refine ⟨h.replies, forall_mem_set h.pcs ?_⟩
      obtain ⟨task, -, htask, rfl⟩ | ⟨-, rfl⟩ := Worker.receive_cases hrec
      · exact pcOk_dispatch (h.replies _ (List.mem_of_getElem? hp) task htask)
      · trivial
  | callFalse hw hf =>
      refine ⟨h.replies, forall_mem_set h.pcs ?_⟩
      obtain ⟨call, -, rfl⟩ | ⟨call, -, rfl⟩ := Worker.callFailed_cases hf <;> trivial
  | work hw hwork =>
      exact ⟨h.replies, forall_mem_set h.pcs ((h.pcs _ (List.mem_of_getElem? hw)).of_stepped hwork)⟩

theorem reachable_tasksOk {job : Job} {C : State → Action → Prop} {s : State}
    (h : (system job).ReachableBy C s) : TasksOk job s := by
  refine h.invariant (I := TasksOk job) ?_ ?_
  · exact ⟨by simp [system, State.init], by simp [system, State.init]⟩
  · intro s a s' hr ih _ hstep
    exact ih.step (reachable_coordinatorOk (reachable_proc hr)) (State.step_cases hstep)

/-! ### Files and writers -/

section

variable (job : Job) (out : ℕ → Content → Prop)

/-- What the workers write: sorted buckets, and outputs with the property `out`. -/
inductive Product : String → Content → Prop
  | bucket {k r : ℕ} {bucket kvs : List KeyValue} (hb : job.bucket k r = some bucket)
      (hs : SortsTo bucket kvs) : Product (bucketName (toString (k + 1)) r) (.json kvs)
  | output {r : ℕ} {c : Content} (hr : r < job.nReduce) (h : out r c) : Product (outName r) c

/-- The temporary file `n` is no input and has a content with the property `P`. -/
def TempOk (disk : Disk) (n : ℕ) (P : Content → Prop) : Prop :=
  tmpName n ∉ job.files ∧ ∃ c, disk.lookup (tmpName n) = some c ∧ P c

def StageOk (disk : Disk) (name : String) : Stage → Prop
  | .sort bucket =>
      ∃ k r, name = bucketName (toString (k + 1)) r ∧ job.bucket k r = some bucket
  | .create c => Product job out name c
  | .write n c => TempOk job disk n (fun _ => True) ∧ Product job out name c
  | .close n | .rename n => TempOk job disk n (Product job out name)
  | .done => True

/-- The temporary file of a stage. -/
def Stage.temp : Stage → Option ℕ
  | .write n _ | .close n | .rename n => some n
  | _ => none

/-- The writer `i` of the worker has the temporary file `n`. -/
def Worker.Holds (wk : Worker) (i n : ℕ) : Prop :=
  ∃ wr, wk.writers[i]? = some wr ∧ wr.stage.temp = some n

structure DirOk (s : State) : Prop where
  inputs : ∀ f ∈ job.files, s.disk.lookup f = job.disk.lookup f
  buckets : ∀ name c, s.disk.lookup name = some c →
    ∀ r, globMatch (bucketPattern r).toList name.toList = true → Product job out name c
  outputs : ∀ r, (.renamed (outName r) ∉ s.log ∧
      s.disk.lookup (outName r) = job.disk.lookup (outName r)) ∨
    ∃ c, s.disk.lookup (outName r) = some c ∧ out r c
  writers : ∀ (w : ℕ) (wk : Worker), s.workers[w]? = some wk →
    ∀ wr ∈ wk.writers, StageOk job out s.disk wr.filename wr.stage
  temps : ∀ (w w' : ℕ) (wk wk' : Worker) (i i' n : ℕ), s.workers[w]? = some wk →
    s.workers[w']? = some wk' → wk.Holds i n → wk'.Holds i' n → w = w' ∧ i = i'

/-- What a worker does to its writers and to the directory in one step of the writer `wr`. -/
inductive WriterMoved (disk : Disk) (wr : Writer) : Stage → DiskOp → Prop
  | keep {stage : Stage} (hok : StageOk job out disk wr.filename stage)
      (ht : ∀ n, stage.temp = some n → wr.stage.temp = some n) : WriterMoved disk wr stage .keep
  | create {n : ℕ} {c content : Content} (hn : tmpName n ∉ disk)
      (hp : Product job out wr.filename content) :
      WriterMoved disk wr (.write n content) (.write (tmpName n) c)
  | write {n : ℕ} {c : Content} {stage : Stage} (ht : wr.stage.temp = some n)
      (hstage : stage.temp = some n)
      (hok : ∀ disk' : Disk, disk'.lookup (tmpName n) = some c →
        StageOk job out disk' wr.filename stage) :
      WriterMoved disk wr stage (.write (tmpName n) c)
  | rename {n : ℕ} {c : Content} (ht : wr.stage.temp = some n)
      (hl : disk.lookup (tmpName n) = some c) (hp : Product job out wr.filename c) :
      WriterMoved disk wr .done (.rename (tmpName n) wr.filename)
  | discard {n : ℕ} (ht : wr.stage.temp = some n) :
      WriterMoved disk wr .done (.remove (tmpName n))

/-- What a step of a worker does to its writers and to the directory. -/
inductive Moved (disk : Disk) (wk : Worker) : Worker → DiskOp → Prop
  | fresh {wk' : Worker} (h : ∀ wr ∈ wk'.writers, StageOk job out disk wr.filename wr.stage)
      (ht : ∀ wr ∈ wk'.writers, wr.stage.temp = none) : Moved disk wk wk' .keep
  | same {wk' : Worker} (h : wk'.writers = wk.writers) : Moved disk wk wk' .keep
  | remove {wk' : Worker} {name : String} {r : ℕ} (h : wk'.writers = wk.writers)
      (hm : globMatch (bucketPattern r).toList name.toList = true) :
      Moved disk wk wk' (.remove name)
  | writer {i : ℕ} {wr : Writer} {stage : Stage} {op : DiskOp} (hw : wk.writers[i]? = some wr)
      (hm : WriterMoved job out disk wr stage op) : Moved disk wk (wk.setStage i stage) op

end

section

variable {job : Job} {out : ℕ → Content → Prop}

theorem Product.ne_tmpName {name : String} {c : Content} (h : Product job out name c) (n : ℕ) :
    tmpName n ≠ name := by
  cases h with
  | bucket hb hs => exact tmpName_ne_bucketName n _ _
  | output hr h => exact tmpName_ne_outName n _

/-- No input file matches the pattern of a reduce task. -/
theorem Job.not_mem_files_of_match {name : String} {r : ℕ}
    (h : globMatch (bucketPattern r).toList name.toList = true) : name ∉ job.files := by
  intro hmem
  obtain ⟨t, ht⟩ := job.inputs _ hmem
  rw [job.clean _ (mem_disk_iff.mpr ⟨_, ht⟩) r] at h
  cases h

theorem Product.not_mem_files {name : String} {c : Content} (h : Product job out name c) :
    name ∉ job.files := by
  cases h with
  | bucket hb hs => exact Job.not_mem_files_of_match (bucketPattern_bucketName.mpr rfl)
  | output hr h => exact fun hmem => job.distinct _ hmem _ hr rfl

theorem Product.of_outName {r : ℕ} {c : Content} (h : Product job out (outName r) c) : out r c := by
  generalize hname : outName r = name at h
  cases h with
  | bucket hb hs => exact absurd hname (outName_ne_bucketName _ _ _)
  | output hr h => exact outName_inj hname ▸ h

theorem StageOk.temp {disk : Disk} {name : String} {stage : Stage} {n : ℕ}
    (h : StageOk job out disk name stage) (hn : stage.temp = some n) :
    TempOk job disk n (fun _ => True) := by
  cases stage with
  | sort bucket => cases hn
  | create c => cases hn
  | done => cases hn
  | write m c =>
      cases hn
      exact h.1
  | close m =>
      cases hn
      obtain ⟨hf, c, hc, -⟩ := h
      exact ⟨hf, c, hc, trivial⟩
  | rename m =>
      cases hn
      obtain ⟨hf, c, hc, -⟩ := h
      exact ⟨hf, c, hc, trivial⟩

/-- A stage depends on the directory only by its temporary file. -/
theorem StageOk.of_lookup {disk disk' : Disk} {name : String} {stage : Stage}
    (h : StageOk job out disk name stage)
    (hl : ∀ n, stage.temp = some n → disk'.lookup (tmpName n) = disk.lookup (tmpName n)) :
    StageOk job out disk' name stage := by
  cases stage with
  | sort bucket => exact h
  | create c => exact h
  | done => exact h
  | write m c =>
      obtain ⟨⟨hf, c', hc, -⟩, hp⟩ := h
      exact ⟨⟨hf, c', (hl m rfl).trans hc, trivial⟩, hp⟩
  | close m =>
      obtain ⟨hf, c, hc, hp⟩ := h
      exact ⟨hf, c, (hl m rfl).trans hc, hp⟩
  | rename m =>
      obtain ⟨hf, c, hc, hp⟩ := h
      exact ⟨hf, c, (hl m rfl).trans hc, hp⟩

/-! ### What is known of the outputs may be forgotten -/

section

variable {out' : ℕ → Content → Prop}

theorem Product.mono (hout : ∀ r c, out r c → out' r c) {name : String} {c : Content}
    (h : Product job out name c) : Product job out' name c := by
  cases h with
  | bucket hb hs => exact .bucket hb hs
  | output hr ho => exact .output hr (hout _ _ ho)

theorem StageOk.mono (hout : ∀ r c, out r c → out' r c) {disk : Disk} {name : String}
    {stage : Stage} (h : StageOk job out disk name stage) : StageOk job out' disk name stage := by
  cases stage with
  | sort bucket => exact h
  | create c => exact Product.mono hout h
  | write n c => exact ⟨h.1, h.2.mono hout⟩
  | close n =>
      obtain ⟨hf, c, hl, hp⟩ := h
      exact ⟨hf, c, hl, hp.mono hout⟩
  | rename n =>
      obtain ⟨hf, c, hl, hp⟩ := h
      exact ⟨hf, c, hl, hp.mono hout⟩
  | done => trivial

theorem DirOk.mono {s : State} (hout : ∀ r c, out r c → out' r c) (h : DirOk job out s) :
    DirOk job out' s where
  inputs := h.inputs
  buckets := fun name c hl r hm => (h.buckets name c hl r hm).mono hout
  outputs := by
    intro r
    exact (h.outputs r).imp_right (fun ⟨c, hl, hc⟩ => ⟨c, hl, hout r c hc⟩)
  writers := fun w wk hw wr hwr => (h.writers w wk hw wr hwr).mono hout
  temps := h.temps

end

/-! ### A step of a worker keeps the directory in order -/

theorem DirOk.holds {s : State} (h : DirOk job out s) {w i n : ℕ} {wk : Worker}
    (hw : s.workers[w]? = some wk) (hh : wk.Holds i n) : TempOk job s.disk n (fun _ => True) := by
  obtain ⟨wr, hwr, hn⟩ := hh
  exact (h.writers w wk hw wr (List.mem_of_getElem? hwr)).temp hn

/-- An output file that has got its name is complete. -/
theorem DirOk.output_of_renamed {s : State} (h : DirOk job out s) {r : ℕ}
    (hr : .renamed (outName r) ∈ s.log) : ∃ c, s.disk.lookup (outName r) = some c ∧ out r c := by
  rcases h.outputs r with ⟨hn, -⟩ | hout
  · exact absurd hr hn
  · exact hout

/-- So is one that was not there at the start. -/
theorem DirOk.output_of_new {s : State} (h : DirOk job out s) {r : ℕ} {c : Content}
    (hnew : outName r ∉ job.disk) (hl : s.disk.lookup (outName r) = some c) : out r c := by
  rcases h.outputs r with ⟨-, hold⟩ | ⟨c', hl', hc⟩
  · exact absurd (mem_disk_iff.mpr ⟨c, hold.symm.trans hl⟩) hnew
  · cases hl.symm.trans hl'
    exact hc

/-- The input files stay where they are. -/
theorem DirOk.mem_of_input {s : State} (h : DirOk job out s) {f : String} (hf : f ∈ job.files) :
    f ∈ s.disk := by
  obtain ⟨t, ht⟩ := job.inputs f hf
  exact mem_disk_iff.mpr ⟨_, (h.inputs f hf).trans ht⟩

/-- The pattern of the reduce task `r` matches nothing but complete buckets. -/
theorem DirOk.bucket_of_match {s : State} (h : DirOk job out s) {name : String} {c : Content}
    {r : ℕ} (hl : s.disk.lookup name = some c)
    (hm : globMatch (bucketPattern r).toList name.toList = true) :
    ∃ k bucket kvs, name = bucketName (toString (k + 1)) r ∧ job.bucket k r = some bucket ∧
      SortsTo bucket kvs ∧ c = .json kvs := by
  cases h.buckets name c hl r hm with
  | bucket hb hs =>
      obtain rfl := bucketPattern_bucketName.mp hm
      exact ⟨_, _, _, rfl, hb, hs, rfl⟩
  | output hr ho => exact absurd rfl (ne_outName_of_match hm _)

theorem DirOk.mem_glob {s : State} (h : DirOk job out s) {name : String} {r : ℕ}
    (hname : name ∈ glob (bucketPattern r) s.disk.keys) :
    ∃ k bucket, name = bucketName (toString (k + 1)) r ∧ job.bucket k r = some bucket := by
  obtain ⟨hkey, hm⟩ := List.mem_filter.mp ((glob_perm _ _).mem_iff.mp hname)
  obtain ⟨c, hc⟩ := mem_disk_iff.mp (AList.mem_keys.mpr hkey)
  obtain ⟨k, bucket, kvs, hk, hb, -, -⟩ := h.bucket_of_match hc hm
  exact ⟨k, bucket, hk, hb⟩

/-- What is to be checked of an operation on the directory. -/
theorem DirOk.frame {s : State} {w : ℕ} {wk wk' : Worker} {op : DiskOp} (h : DirOk job out s)
    (hw : s.workers[w]? = some wk) (hinputs : ∀ f ∈ job.files, ¬ op.Touches f)
    (hbuckets : ∀ name c, op.Touches name → (op.apply s.disk).lookup name = some c →
      ∀ r, globMatch (bucketPattern r).toList name.toList = true → Product job out name c)
    (houtputs : ∀ r, op.Touches (outName r) →
      ∃ c, (op.apply s.disk).lookup (outName r) = some c ∧ out r c)
    (hwriters : ∀ wr ∈ wk'.writers, StageOk job out (op.apply s.disk) wr.filename wr.stage)
    (hothers : ∀ (w' : ℕ) (wk₁ : Worker) (i n : ℕ), w' ≠ w → s.workers[w']? = some wk₁ →
      wk₁.Holds i n → ¬ op.Touches (tmpName n))
    (htemps : ∀ i n, wk'.Holds i n → wk.Holds i n ∨
      (tmpName n ∉ s.disk ∧ ∀ i', wk'.Holds i' n → i' = i)) :
    DirOk job out ((s.become w wk').perform op) where
  inputs := by
    intro f hf
    exact (DiskOp.lookup_apply (hinputs f hf)).trans (h.inputs f hf)
  buckets := by
    intro name c hl r hm
    by_cases ht : op.Touches name
    · exact hbuckets name c ht hl r hm
    · exact h.buckets name c ((DiskOp.lookup_apply ht).symm.trans hl) r hm
  outputs := by
    intro r
    by_cases ht : op.Touches (outName r)
    · exact Or.inr (houtputs r ht)
    · rcases h.outputs r with ⟨hn, hl⟩ | ⟨c, hl, hc⟩
      · refine Or.inl ⟨?_, (DiskOp.lookup_apply ht).trans hl⟩
        intro hr
        rcases List.mem_append.mp hr with hr | hr
        · exact hn hr
        · exact ht (DiskOp.touches_of_renamed hr)
      · exact Or.inr ⟨c, (DiskOp.lookup_apply ht).trans hl, hc⟩
  writers := by
    intro w' wk₁ hw₁ wr hwr
    rcases getElem?_set_cases hw₁ with ⟨rfl, rfl⟩ | ⟨hne, hw₁⟩
    · exact hwriters wr hwr
    · refine (h.writers w' wk₁ hw₁ wr hwr).of_lookup ?_
      intro n hn
      obtain ⟨i, hi⟩ := List.mem_iff_getElem?.mp hwr
      exact DiskOp.lookup_apply (hothers w' wk₁ i n hne hw₁ ⟨wr, hi, hn⟩)
  temps := by
    have hcross : ∀ (w' : ℕ) (wk₁ : Worker) (i i' n : ℕ), s.workers[w']? = some wk₁ →
        wk'.Holds i n → wk₁.Holds i' n → w = w' ∧ i = i' := by
      intro w' wk₁ i i' n hw₁ hi hi'
      rcases htemps i n hi with hold | ⟨hnew, -⟩
      · exact h.temps w w' wk wk₁ i i' n hw hw₁ hold hi'
      · obtain ⟨-, c, hc, -⟩ := h.holds hw₁ hi'
        exact absurd (mem_disk_iff.mpr ⟨c, hc⟩) hnew
    intro w₁ w₂ wk₁ wk₂ i i' n hw₁ hw₂ hi hi'
    rcases getElem?_set_cases hw₁ with ⟨rfl, rfl⟩ | ⟨-, hold₁⟩ <;>
      rcases getElem?_set_cases hw₂ with ⟨rfl, rfl⟩ | ⟨-, hold₂⟩
    · refine ⟨rfl, ?_⟩
      rcases htemps i n hi with hold | ⟨-, hu⟩
      · exact (hcross _ wk i' i n hw hi' hold).2.symm
      · exact (hu i' hi').symm
    · exact hcross w₂ wk₂ i i' n hold₂ hi hi'
    · obtain ⟨h1, h2⟩ := hcross w₁ wk₁ i' i n hold₁ hi' hi
      exact ⟨h1.symm, h2.symm⟩
    · exact h.temps w₁ w₂ wk₁ wk₂ i i' n hold₁ hold₂ hi hi'

theorem getElem?_setStage {wk : Worker} {i j : ℕ} {wr x : Writer} {stage : Stage}
    (hw : wk.writers[i]? = some wr) (hx : (wk.setStage i stage).writers[j]? = some x) :
    (j = i ∧ x = { wr with stage }) ∨ (j ≠ i ∧ wk.writers[j]? = some x) := by
  rw [Worker.setStage_writers] at hx
  by_cases hij : i = j
  · subst hij
    rw [List.getElem?_modify_eq, hw] at hx
    exact Or.inl ⟨rfl, (Option.some.inj hx).symm⟩
  · rw [List.getElem?_modify_ne _ _ hij] at hx
    exact Or.inr ⟨fun he => hij he.symm, hx⟩

section

variable {s : State} {w i : ℕ} {wk : Worker} {wr : Writer} {stage : Stage} {op : DiskOp}

/-- A temporary file that is new or that the writer has is no input. -/
theorem DirOk.tmpName_not_mem_files (h : DirOk job out s) (hw : s.workers[w]? = some wk)
    (hi : wk.writers[i]? = some wr) {n : ℕ}
    (hn : tmpName n ∉ s.disk ∨ wr.stage.temp = some n) : tmpName n ∉ job.files := by
  rcases hn with hn | hn
  · exact fun hf => hn (h.mem_of_input hf)
  · exact ((h.writers w wk hw wr (List.mem_of_getElem? hi)).temp hn).1

/-- The other writers, of any worker, have other temporary files. -/
theorem DirOk.not_touches_other (h : DirOk job out s) (hw : s.workers[w]? = some wk)
    (hi : wk.writers[i]? = some wr) (hm : WriterMoved job out s.disk wr stage op) {w' j n : ℕ}
    {wk₁ : Worker} (hne : ¬ (w' = w ∧ j = i)) (hw₁ : s.workers[w']? = some wk₁)
    (hh : wk₁.Holds j n) : ¬ op.Touches (tmpName n) := by
  intro ht
  have hown : wr.stage.temp ≠ some n := by
    intro hn
    obtain ⟨h1, h2⟩ := h.temps w' w wk₁ wk j i n hw₁ hw hh ⟨wr, hi, hn⟩
    exact hne ⟨h1, h2⟩
  cases hm with
  | keep hok ht' => exact ht
  | create hn hp =>
      obtain ⟨-, c, hc, -⟩ := h.holds hw₁ hh
      exact hn (ht ▸ mem_disk_iff.mpr ⟨c, hc⟩)
  | write ht' hstage hok => exact hown (tmpName_inj ht ▸ ht')
  | rename ht' hl hp =>
      rcases ht with ht | ht
      · exact hown (tmpName_inj ht ▸ ht')
      · exact hp.ne_tmpName n ht
  | discard ht' => exact hown (tmpName_inj ht ▸ ht')

theorem DirOk.stageOk_setStage (h : DirOk job out s) (hw : s.workers[w]? = some wk)
    (hi : wk.writers[i]? = some wr) (hm : WriterMoved job out s.disk wr stage op) :
    StageOk job out (op.apply s.disk) wr.filename stage := by
  cases hm with
  | keep hok ht => exact hok
  | create hn hp =>
      have hfile := h.tmpName_not_mem_files hw hi (Or.inl hn)
      exact ⟨⟨hfile, _, AList.lookup_insert _, trivial⟩, hp⟩
  | write ht hstage hok => exact hok _ (AList.lookup_insert _)
  | rename ht hl hp => trivial
  | discard ht => trivial

/-- A writer touches its temporary file and gives a complete file its name. -/
theorem DirOk.touched (h : DirOk job out s) (hw : s.workers[w]? = some wk)
    (hi : wk.writers[i]? = some wr) (hm : WriterMoved job out s.disk wr stage op) {x : String}
    (hx : op.Touches x) : (∃ n, x = tmpName n ∧ x ∉ job.files) ∨
      ∃ c, (op.apply s.disk).lookup x = some c ∧ Product job out x c := by
  cases hm with
  | keep hok ht => cases hx
  | create hn hp => exact Or.inl ⟨_, hx, hx ▸ h.tmpName_not_mem_files hw hi (Or.inl hn)⟩
  | write ht hstage hok => exact Or.inl ⟨_, hx, hx ▸ h.tmpName_not_mem_files hw hi (Or.inr ht)⟩
  | rename ht hl hp =>
      rcases hx with hx | hx
      · exact Or.inl ⟨_, hx, hx ▸ h.tmpName_not_mem_files hw hi (Or.inr ht)⟩
      · exact Or.inr ⟨_, hx ▸ DiskOp.lookup_rename hl, hx ▸ hp⟩
  | discard ht => exact Or.inl ⟨_, hx, hx ▸ h.tmpName_not_mem_files hw hi (Or.inr ht)⟩

/-- A temporary file that a writer has after the step is one it had, or it is new. -/
theorem DirOk.holds_setStage (h : DirOk job out s) (hw : s.workers[w]? = some wk)
    (hi : wk.writers[i]? = some wr) (hm : WriterMoved job out s.disk wr stage op) {j n : ℕ}
    (hh : (wk.setStage i stage).Holds j n) : wk.Holds j n ∨
      (tmpName n ∉ s.disk ∧ ∀ j', (wk.setStage i stage).Holds j' n → j' = j) := by
  obtain ⟨x, hj, hn⟩ := hh
  obtain ⟨rfl, rfl⟩ | ⟨hne, hj⟩ := getElem?_setStage hi hj
  · cases hm with
    | keep hok ht => exact Or.inl ⟨wr, hi, ht n hn⟩
    | create hfresh hp =>
        cases hn
        refine Or.inr ⟨hfresh, ?_⟩
        rintro j' ⟨x', hj', hn'⟩
        obtain ⟨rfl, -⟩ | ⟨-, hj'⟩ := getElem?_setStage hi hj'
        · rfl
        · obtain ⟨-, c, hc, -⟩ := h.holds hw ⟨x', hj', hn'⟩
          exact absurd (mem_disk_iff.mpr ⟨c, hc⟩) hfresh
    | write ht hstage hok =>
        rw [hstage, Option.some.injEq] at hn
        exact Or.inl ⟨wr, hi, hn ▸ ht⟩
    | rename ht hl hp => cases hn
    | discard ht => cases hn
  · exact Or.inl ⟨x, hj, hn⟩

theorem DirOk.writer (h : DirOk job out s) (hw : s.workers[w]? = some wk)
    (hi : wk.writers[i]? = some wr) (hm : WriterMoved job out s.disk wr stage op) :
    DirOk job out ((s.become w (wk.setStage i stage)).perform op) := by
  have hnew := h.stageOk_setStage hw hi hm
  refine h.frame hw ?_ ?_ ?_ ?_ ?_ (fun j n hh => h.holds_setStage hw hi hm hh)
  · intro f hf ht
    obtain ⟨n, -, hn⟩ | ⟨c, -, hp⟩ := h.touched hw hi hm ht
    · exact hn hf
    · exact hp.not_mem_files hf
  · intro name c ht hl r hr
    obtain ⟨n, hn, -⟩ | ⟨c', hl', hp⟩ := h.touched hw hi hm ht
    · exact absurd hn (ne_tmpName_of_match hr n)
    · rw [hl', Option.some.injEq] at hl
      exact hl ▸ hp
  · intro r ht
    obtain ⟨n, hn, -⟩ | ⟨c, hl, hp⟩ := h.touched hw hi hm ht
    · exact absurd hn.symm (tmpName_ne_outName n r)
    · exact ⟨c, hl, hp.of_outName⟩
  · intro x hx
    obtain ⟨j, hj⟩ := List.mem_iff_getElem?.mp hx
    obtain ⟨rfl, rfl⟩ | ⟨hne, hj⟩ := getElem?_setStage hi hj
    · exact hnew
    · refine (h.writers w wk hw x (List.mem_of_getElem? hj)).of_lookup ?_
      intro n hn
      refine DiskOp.lookup_apply (h.not_touches_other hw hi hm ?_ hw ⟨x, hj, hn⟩)
      exact fun he => hne he.2
  · intro w' wk₁ j n hne hw₁ hh
    exact h.not_touches_other hw hi hm (fun he => hne he.1) hw₁ hh

end

section

variable {s : State} {w : ℕ} {wk wk' : Worker}

/-- A worker that does not touch the directory. -/
theorem DirOk.keep (h : DirOk job out s) (hw : s.workers[w]? = some wk)
    (hok : ∀ wr ∈ wk'.writers, StageOk job out s.disk wr.filename wr.stage)
    (htemps : ∀ i n, wk'.Holds i n → wk.Holds i n) :
    DirOk job out ((s.become w wk').perform .keep) := by
  refine h.frame hw ?_ ?_ ?_ hok ?_ (fun i n hh => Or.inl (htemps i n hh))
  · exact fun f _ ht => ht
  · exact fun name c ht => ht.elim
  · exact fun r ht => ht.elim
  · exact fun _ _ _ _ _ _ _ ht => ht

/-- A worker that removes an intermediate file. -/
theorem DirOk.remove (h : DirOk job out s) (hw : s.workers[w]? = some wk)
    (hwr : wk'.writers = wk.writers) {name : String} {r : ℕ}
    (hname : globMatch (bucketPattern r).toList name.toList = true) :
    DirOk job out ((s.become w wk').perform (.remove name)) := by
  have htouched : ∀ {x : String}, (DiskOp.remove name).Touches x → x = name := fun hx => hx
  have htmp : ∀ n, ¬ (DiskOp.remove name).Touches (tmpName n) := by
    intro n hn
    exact ne_tmpName_of_match hname n (htouched hn).symm
  refine h.frame hw ?_ ?_ ?_ ?_ (fun _ _ _ n _ _ _ => htmp n) ?_
  · intro f hf hx
    exact Job.not_mem_files_of_match hname (htouched hx ▸ hf)
  · intro x c hx hl
    rw [htouched hx, DiskOp.apply, AList.lookup_erase] at hl
    cases hl
  · intro i hi
    exact absurd (htouched hi).symm (ne_outName_of_match hname i)
  · intro wr hmem
    rw [hwr] at hmem
    exact (h.writers w wk hw wr hmem).of_lookup (fun n _ => DiskOp.lookup_apply (htmp n))
  · rintro i n ⟨wr, hi, hn⟩
    exact Or.inl ⟨wr, hwr ▸ hi, hn⟩

theorem DirOk.moved {op : DiskOp} (h : DirOk job out s) (hw : s.workers[w]? = some wk)
    (hm : Moved job out s.disk wk wk' op) : DirOk job out ((s.become w wk').perform op) := by
  cases hm with
  | fresh hok ht =>
      refine h.keep hw hok ?_
      rintro i n ⟨wr, hwr, hn⟩
      rw [ht wr (List.mem_of_getElem? hwr)] at hn
      cases hn
  | same hwr =>
      refine h.keep hw ?_ ?_
      · rw [hwr]
        exact h.writers w wk hw
      · rintro i n ⟨wr, hi, hn⟩
        exact ⟨wr, hwr ▸ hi, hn⟩
  | remove hwr hname => exact h.remove hw hwr hname
  | writer hi hm => exact h.writer hw hi hm

end

/-- The operations of the workers. -/
theorem Moved.op_cases {disk : Disk} {wk wk' : Worker} {op : DiskOp}
    (h : Moved job out disk wk wk' op) :
    op = .keep ∨ (∃ n c, op = .write (tmpName n) c) ∨
      (∃ n name c, op = .rename (tmpName n) name ∧ disk.lookup (tmpName n) = some c) ∨
      ∃ name, op = .remove name := by
  cases h with
  | fresh h ht => exact Or.inl rfl
  | same h => exact Or.inl rfl
  | remove h hm => exact Or.inr (Or.inr (Or.inr ⟨_, rfl⟩))
  | writer hw hm =>
      cases hm with
      | keep hok ht => exact Or.inl rfl
      | create hn hp => exact Or.inr (Or.inl ⟨_, _, rfl⟩)
      | write ht hstage hok => exact Or.inr (Or.inl ⟨_, _, rfl⟩)
      | rename ht hl hp => exact Or.inr (Or.inr (Or.inl ⟨_, _, _, rfl, hl⟩))
      | discard ht => exact Or.inr (Or.inr (Or.inr ⟨_, rfl⟩))

/-- The outputs that a worker begins to write have the property `out`. -/
def Outputs (job : Job) (out : ℕ → Content → Prop) (wk : Worker) : Prop :=
  ∀ task filenames kvs order, wk.pc = .reduceRead task filenames [] kvs →
    order.Perm (groupValuesByKey kvs) →
    out task.idx (.text (reduceValuesByKey job.reducef order))

theorem stageOk_writeBucketsToDisk {disk : Disk} {task : GetTaskOut} {content : Content}
    (hinputs : ∀ f ∈ job.files, disk.lookup f = job.disk.lookup f) (htask : MapIssued job task)
    (hl : disk.lookup task.input = some content) :
    ∀ wr ∈ writeBucketsToDisk task.id
      (splitIntoBuckets (job.mapf task.input content.string) task.nReduce),
      StageOk job out disk wr.filename wr.stage := by
  intro wr hwr
  obtain ⟨k, f, hf, rfl⟩ := htask
  obtain ⟨i, hi, rfl⟩ := List.mem_mapIdx.mp hwr
  rw [hinputs f (List.mem_of_getElem? hf)] at hl
  have hcontent : job.content f = content.string := by
    simp only [Job.content, hl, Option.map_some, Option.getD_some]
  refine ⟨k, i, rfl, ?_⟩
  rw [Job.bucket_eq hf, hcontent]
  exact List.getElem?_eq_getElem hi

theorem stageOk_of_getElem? {disk : Disk} {wk : Worker} {i : ℕ} {wr : Writer} {stage : Stage}
    (hok : ∀ wr ∈ wk.writers, StageOk job out disk wr.filename wr.stage)
    (hi : wk.writers[i]? = some wr) (hstage : wr.stage = stage) :
    StageOk job out disk wr.filename stage :=
  hstage ▸ hok wr (List.mem_of_getElem? hi)

theorem Worker.Stepped.moved {disk : Disk} {wk wk' : Worker} {a : Worker.Action} {op : DiskOp}
    (hinputs : ∀ f ∈ job.files, disk.lookup f = job.disk.lookup f) (hpc : PcOk job wk.pc)
    (hok : ∀ wr ∈ wk.writers, StageOk job out disk wr.filename wr.stage)
    (hout : Outputs job out wk) (hstep : Worker.Stepped job disk wk a wk' op) :
    Moved job out disk wk wk' op := by
  cases hstep with
  | mapMissing hpc' hl => exact .same rfl
  | mapRead hpc' hl =>
      rw [hpc'] at hpc
      refine .fresh (stageOk_writeBucketsToDisk hinputs hpc hl) ?_
      intro wr hwr
      obtain ⟨i, hi, rfl⟩ := List.mem_mapIdx.mp hwr
      rfl
  | mapDone hpc' hj => exact .fresh (by simp) (by simp)
  | glob hpc' => exact .same rfl
  | readMissing hpc' hl => exact .same rfl
  | read hpc' hl => exact .same rfl
  | reduce hpc' horder =>
      have hout := hout _ _ _ _ hpc' horder
      rw [hpc'] at hpc
      obtain ⟨r, ⟨hr, rfl⟩, -⟩ := hpc
      refine .fresh ?_ ?_
      · intro wr hwr
        rw [List.mem_singleton] at hwr
        subst hwr
        exact .output hr hout
      · intro wr hwr
        rw [List.mem_singleton] at hwr
        subst hwr
        rfl
  | reduceDone hpc' hj => exact .fresh (by simp) (by simp)
  | remove hpc' =>
      rw [hpc'] at hpc
      obtain ⟨r, -, hm⟩ := hpc
      exact .remove rfl (hm _ List.mem_cons_self)
  | deleted hpc' => exact .same rfl
  | sort hw hstage hs =>
      have hwr := stageOk_of_getElem? hok hw hstage
      obtain ⟨k, r, hname, hb⟩ := hwr
      refine .writer hw (.keep ?_ ?_)
      · rw [hname]
        exact .bucket hb hs
      · intro n hn
        cases hn
  | create hw hstage hn =>
      have hwr := stageOk_of_getElem? hok hw hstage
      exact .writer hw (.create hn hwr)
  | part s hw hstage =>
      have hwr := stageOk_of_getElem? hok hw hstage
      refine .writer hw (.write (by rw [hstage]; rfl) rfl ?_)
      intro disk' hl
      exact ⟨⟨hwr.1.1, _, hl, trivial⟩, hwr.2⟩
  | write hw hstage =>
      have hwr := stageOk_of_getElem? hok hw hstage
      refine .writer hw (.write (by rw [hstage]; rfl) rfl ?_)
      intro disk' hl
      exact ⟨hwr.1.1, _, hl, hwr.2⟩
  | close hw hstage =>
      have hwr := stageOk_of_getElem? hok hw hstage
      refine .writer hw (.keep hwr ?_)
      intro n hn
      rw [hstage]
      exact hn
  | rename hw hstage =>
      have hwr := stageOk_of_getElem? hok hw hstage
      obtain ⟨-, c, hl, hp⟩ := hwr
      exact .writer hw (.rename (by rw [hstage]; rfl) hl hp)
  | crash => exact .fresh (by simp) (by simp)
  | fail hw hdone hrename =>
      refine .writer hw (.keep trivial ?_)
      intro n hn
      cases hn
  | failRename hw hstage => exact .writer hw (.discard (by rw [hstage]; rfl))
  | failMap hpc' => exact .same rfl
  | failReduce hpc' => exact .same rfl
  | failRemove hpc' => exact .same rfl

theorem DirOk.congr {s s' : State} (h : DirOk job out s) (hdisk : s'.disk = s.disk)
    (hlog : s'.log = s.log) (hworkers : s'.workers = s.workers) : DirOk job out s' := by
  obtain ⟨h1, h2, h3, h4, h5⟩ := h
  constructor
  · rwa [hdisk]
  · rwa [hdisk]
  · rwa [hdisk, hlog]
  · rwa [hdisk, hworkers]
  · rwa [hworkers]

/-- A worker that only changes its place in `run`. -/
theorem DirOk.become {s : State} {w : ℕ} {wk wk' : Worker} (h : DirOk job out s)
    (hw : s.workers[w]? = some wk) (hwr : wk'.writers = wk.writers) :
    DirOk job out (s.become w wk') := by
  refine (h.moved hw (.same hwr)).congr rfl ?_ rfl
  simp [DiskOp.events]

theorem DirOk.spawn {s : State} (h : DirOk job out s) (workerId : String) :
    DirOk job out (s.spawn workerId) := by
  have hold : ∀ {w : ℕ} {wk : Worker}, (s.spawn workerId).workers[w]? = some wk →
      s.workers[w]? = some wk ∨ wk.writers = [] := by
    intro w wk hw
    rw [State.spawn_workers, List.getElem?_append] at hw
    split_ifs at hw
    · exact Or.inl hw
    · rw [List.getElem?_singleton] at hw
      split_ifs at hw
      cases hw
      exact Or.inr rfl
  have hheld : ∀ {w i n : ℕ} {wk : Worker}, (s.spawn workerId).workers[w]? = some wk →
      wk.Holds i n → s.workers[w]? = some wk := by
    rintro w i n wk hw ⟨wr, hwr, -⟩
    rcases hold hw with hw | hnil
    · exact hw
    · rw [hnil] at hwr
      cases hwr
  refine ⟨h.inputs, h.buckets, h.outputs, ?_, ?_⟩
  · intro w wk hw wr hwr
    rcases hold hw with hw | hnil
    · exact h.writers w wk hw wr hwr
    · rw [hnil] at hwr
      cases hwr
  · intro w w' wk wk' i i' n hw hw' hi hi'
    exact h.temps w w' wk wk' i i' n (hheld hw hi) (hheld hw' hi') hi hi'

theorem DirOk.step {s s' : State} {a : Action} (h : DirOk job out s) (ht : TasksOk job s)
    (hout : ∀ wk ∈ s.workers, Outputs job out wk) (hstep : Stepped job s a s') :
    DirOk job out s' := by
  cases hstep with
  | coord ha hp => exact h.congr rfl rfl rfl
  | start workerId => exact h.spawn workerId
  | ping hw hpc => exact h.congr rfl rfl rfl
  | @call w wk wk' msg hw hreq =>
      have hwr : wk'.writers = wk.writers := by
        obtain ⟨-, -, rfl⟩ | ⟨taskId, -, -, rfl⟩ := Worker.request_cases hreq <;> rfl
      exact (h.become hw hwr).congr rfl rfl rfl
  | serve hq => exact h.congr rfl rfl rfl
  | callTrue hw hp hrec =>
      obtain ⟨task, -, -, rfl⟩ | ⟨-, rfl⟩ := Worker.receive_cases hrec <;> exact h.become hw rfl
  | callFalse hw hf =>
      obtain ⟨call, -, rfl⟩ | ⟨call, -, rfl⟩ := Worker.callFailed_cases hf <;> exact h.become hw rfl
  | @work w wk wk' a op hw hwork =>
      have hmem := List.mem_of_getElem? hw
      exact h.moved hw (hwork.moved h.inputs (ht.pcs wk hmem) (h.writers w wk hw) (hout wk hmem))

theorem dirOk_init : DirOk job out (State.init job) where
  inputs := fun _ _ => rfl
  buckets := by
    intro name c hl r hr
    rw [job.clean name (mem_disk_iff.mpr ⟨c, hl⟩)] at hr
    cases hr
  outputs := fun r => Or.inl ⟨by simp [State.init], rfl⟩
  writers := by
    intro w wk hw
    cases hw
  temps := by
    intro w w' wk wk' i i' n hw
    cases hw

/-- The directory is in order in every run in which the outputs have the property `out`. -/
theorem reachable_dirOk {C : State → Action → Prop} {s : State}
    (h : (system job).ReachableBy C s)
    (hout : ∀ s, (system job).ReachableBy C s → ∀ wk ∈ s.workers, Outputs job out wk) :
    DirOk job out s := by
  refine h.invariant (I := DirOk job out) dirOk_init ?_
  intro s a s' hr ih _ hstep
  exact ih.step (reachable_tasksOk hr) (hout s hr) (State.step_cases hstep)

end

end DistributedSystems.MapReduce
