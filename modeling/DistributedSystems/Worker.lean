import DistributedSystems.Coordinator
import DistributedSystems.MapReduceData
import DistributedSystems.MapReduceLogger

/-! # The MapReduce worker

The code of `mr/worker.go` as the steps of one worker over a directory that all workers share
(`Disk`).  A step ends before the next system call that another worker can notice: each file that
is read, the glob, each of the four system calls of `writeFile`, each file that is removed and
each RPC is a step of its own.  The goroutines of `writeBucketsToDisk` are the `writers` of the
worker; `execReduce` has one for the output file.

A step reads the directory and changes it by at most one operation (`DiskOp`).  The system calls
may fail (`fail`, `failRead`, `failRemove`), the worker may stop for good before any step
(`crash`), which is also what `call` does when it cannot reach the coordinator.  `filepath.Glob`
ignores the errors of the directory, and the model has none there: the names of the files are
always read.

The lines that a worker logs go to `app.log`.  They are not in the model, so an input file of that
name would not change here as it does in the source. -/

namespace DistributedSystems.MapReduce

/-! ### The directory -/

/-- What a file holds: a text, or the pairs that `json.Marshal` has encoded. -/
inductive Content where
  | text (s : Str)
  | json (kvs : List KeyValue)
deriving DecidableEq, Repr

/-- `string(content)`, for the texts that the map function is given. -/
def Content.string : Content → Str
  | .text s => s
  | .json _ => []

/-- The pair after `json.Marshal` and `json.Unmarshal`.  The encoder writes the replacement
character for every byte that is not part of a character. -/
def KeyValue.recoded (kv : KeyValue) : KeyValue := ⟨kv.key.toValid, kv.value.toValid⟩

/-- `json.Unmarshal`, whose error is ignored. -/
def Content.unmarshal : Content → List KeyValue
  | .text _ => []
  | .json kvs => kvs.map KeyValue.recoded

abbrev Disk := AList (fun _ : String => Content)

theorem mem_disk_iff {disk : Disk} {name : String} :
    name ∈ disk ↔ ∃ content, disk.lookup name = some content := by
  rw [← AList.lookup_isSome, Option.isSome_iff_exists]

/-- One operation on the directory. -/
inductive DiskOp where
  | keep
  | write (name : String) (content : Content)
  | rename (old new : String)
  | remove (name : String)
deriving DecidableEq, Repr

/-- Files that have got their name by a rename, and files that have been removed. -/
inductive FileEvent where
  | renamed (name : String)
  | removed (name : String)
deriving DecidableEq, Repr

def DiskOp.apply (disk : Disk) : DiskOp → Disk
  | .keep => disk
  | .write name content => disk.insert name content
  | .rename old new =>
      match disk.lookup old with
      | some content => (disk.erase old).insert new content
      | none => disk
  | .remove name => disk.erase name

def DiskOp.events (disk : Disk) : DiskOp → List FileEvent
  | .keep => []
  | .write _ _ => []
  | .rename old new => if old ∈ disk then [.renamed new] else []
  | .remove name => if name ∈ disk then [.removed name] else []

/-- The operation may change what the name stands for. -/
def DiskOp.Touches : DiskOp → String → Prop
  | .keep, _ => False
  | .write name _, x => x = name
  | .rename old new, x => x = old ∨ x = new
  | .remove name, x => x = name

theorem DiskOp.lookup_apply {op : DiskOp} {disk : Disk} {x : String} (h : ¬ op.Touches x) :
    (op.apply disk).lookup x = disk.lookup x := by
  cases op with
  | keep => rfl
  | write name content => exact AList.lookup_insert_ne h
  | rename old new =>
      simp only [Touches, not_or] at h
      simp only [apply]
      split
      · rw [AList.lookup_insert_ne h.2, AList.lookup_erase_ne h.1]
      · rfl
  | remove name => exact AList.lookup_erase_ne h

theorem DiskOp.touches_of_renamed {op : DiskOp} {disk : Disk} {name : String}
    (h : .renamed name ∈ op.events disk) : op.Touches name := by
  cases op with
  | keep => cases h
  | write x content => cases h
  | rename old new =>
      simp only [events] at h
      split_ifs at h
      · rw [List.mem_singleton, FileEvent.renamed.injEq] at h
        exact Or.inr h
      · cases h
  | remove x =>
      simp only [events] at h
      split_ifs at h
      · rw [List.mem_singleton] at h
        cases h
      · cases h

theorem DiskOp.remove_of_removed {op : DiskOp} {disk : Disk} {name : String}
    (h : .removed name ∈ op.events disk) : op = .remove name ∧ name ∈ disk := by
  cases op with
  | keep => cases h
  | write x content => cases h
  | rename old new =>
      simp only [events] at h
      split_ifs at h
      · rw [List.mem_singleton] at h
        cases h
      · cases h
  | remove x =>
      simp only [events] at h
      split_ifs at h with hx
      · rw [List.mem_singleton, FileEvent.removed.injEq] at h
        exact ⟨by rw [h], h ▸ hx⟩
      · cases h

theorem DiskOp.lookup_rename {disk : Disk} {old new : String} {content : Content}
    (h : disk.lookup old = some content) :
    ((DiskOp.rename old new).apply disk).lookup new = some content := by
  simp only [apply, h, AList.lookup_insert]

theorem DiskOp.mem_of_renamed {op : DiskOp} {disk : Disk} {name : String}
    (h : .renamed name ∈ op.events disk) : name ∈ op.apply disk := by
  cases op with
  | keep => cases h
  | write x content => cases h
  | rename old new =>
      simp only [events] at h
      split_ifs at h with hold
      · obtain ⟨content, hl⟩ := mem_disk_iff.mp hold
        rw [List.mem_singleton, FileEvent.renamed.injEq] at h
        subst h
        exact mem_disk_iff.mpr ⟨content, lookup_rename hl⟩
      · cases h
  | remove x =>
      simp only [events] at h
      split_ifs at h
      · rw [List.mem_singleton] at h
        cases h
      · cases h

/-- A job: the functions, the input files and the directory at the start, in which the input files
are texts and no file looks like an intermediate file.  No input file has the name of an output
file, which would overwrite it. -/
structure Job where
  mapf : String → Str → List KeyValue
  reducef : Str → List Str → Str
  files : List String
  nReduce : ℕ
  disk : Disk
  inputs : ∀ f ∈ files, ∃ s, disk.lookup f = some (.text s)
  clean : ∀ name ∈ disk, ∀ r, globMatch (bucketPattern r).toList name.toList = false
  distinct : ∀ f ∈ files, ∀ r < nReduce, f ≠ outName r

/-! ### The state of a worker -/

/-- Where a `writeFile` is.  For a bucket it begins with `sort.Sort` and `json.Marshal`. -/
inductive Stage where
  | sort (kvs : List KeyValue)
  | create (content : Content)
  | write (tmp : ℕ) (content : Content)
  | close (tmp : ℕ)
  | rename (tmp : ℕ)
  | done
deriving DecidableEq, Repr

structure Writer where
  filename : String
  stage : Stage
deriving DecidableEq, Repr

/-- Where `run` is. -/
inductive Pc where
  /-- Before the call of `getTask`. -/
  | getTask
  | waitTask (call : ℕ)
  /-- `execMap` before `readFile`. -/
  | mapRead (task : GetTaskOut)
  /-- At the `wg.Wait` of `writeBucketsToDisk`. -/
  | mapWrite (task : GetTaskOut)
  /-- `execReduce` before `filepath.Glob`. -/
  | glob (task : GetTaskOut)
  /-- In the loop of `readReduceInputFiles`. -/
  | reduceRead (task : GetTaskOut) (filenames todo : List String) (kvs : List KeyValue)
  /-- In the `writeFile` of the output. -/
  | reduceWrite (task : GetTaskOut) (filenames : List String)
  /-- In the loop of `deleteIntermediateFiles`. -/
  | delete (task : GetTaskOut) (todo : List String)
  /-- Before the call of `markAsDone`. -/
  | markDone (taskId : String)
  | waitDone (call : ℕ)
  | exited
deriving DecidableEq, Repr

structure Worker where
  workerId : String
  pc : Pc
  writers : List Writer
  logger : Logger
deriving DecidableEq, Repr

def writeBucketsToDisk (taskId : String) (buckets : List (List KeyValue)) : List Writer :=
  buckets.mapIdx (fun i bucket => ⟨bucketName taskId i, .sort bucket⟩)

/-- `sort`: `sort.Sort` has the given result.  `create`: `os.CreateTemp` makes the temporary file
`n`.  `part`: a part of the content is written.  `advance`: the `Write`, `Close` or `os.Rename` is
done. -/
inductive Writer.Action where
  | sort (sorted : List KeyValue)
  | create (n : ℕ)
  | part (s : Str)
  | advance
  | fail
deriving DecidableEq, Repr

namespace Worker

/-- `run`: the next step of `run`.  `reduce`: the map of the groups is iterated in the given order.
`write`: a step of the writer `i`. -/
inductive Action where
  | run
  | reduce (order : List (Str × List Str))
  | write (i : ℕ) (a : Writer.Action)
  | crash
  | failRead
  | failRemove
deriving DecidableEq, Repr

variable (wk : Worker)

@[simps] def goto (pc : Pc) : Worker := { wk with pc }

@[simps] def setStage (i : ℕ) (stage : Stage) : Worker :=
  { wk with writers := wk.writers.modify i (fun wr => { wr with stage }) }

/-- All writers are done. -/
def joined : Bool := wk.writers.all (·.stage = .done)

/-! ### Calls -/

/-- The switch of `run`. -/
def dispatchTo (task : GetTaskOut) : Pc :=
  match task.type with
  | .exit => .exited
  | .wait => .getTask
  | .map => .mapRead task
  | .reduce => .glob task
  | .unset => .markDone task.id

/-- `run` from the `AddDefault`s to the switch. -/
@[simps] def dispatch (task : GetTaskOut) : Worker :=
  { wk with pc := dispatchTo task, logger := wk.logger.logTask task }

/-- The request of the next call and the worker waiting for it. -/
def request (call : ℕ) : Option (Msg × Worker) :=
  match wk.pc with
  | .getTask => some (.getTask wk.workerId, wk.goto (.waitTask call))
  | .markDone taskId => some (.updateTask ⟨wk.workerId, taskId, .done⟩, wk.goto (.waitDone call))
  | _ => none

/-- The call returns `true`. -/
def receive (call : ℕ) (reply : Reply) : Option Worker :=
  match wk.pc, reply with
  | .waitTask c, .getTask out => if c = call then some (wk.dispatch out) else none
  | .waitDone c, .updateTask _ => if c = call then some (wk.goto .getTask) else none
  | _, _ => none

/-- The call returns `false`. -/
def callFailed : Option Worker :=
  match wk.pc with
  | .waitTask _ => some (wk.dispatch .zero)
  | .waitDone _ => some (wk.goto .getTask)
  | _ => none

/-! ### Steps on files -/

def run (job : Job) (disk : Disk) : Option (Worker × DiskOp) :=
  match wk.pc with
  | .mapRead task =>
      match disk.lookup task.input with
      | none => some (wk.goto (.markDone task.id), .keep)
      | some content =>
          let intermediate := job.mapf task.input content.string
          let buckets := splitIntoBuckets intermediate task.nReduce
          some ({ wk with
            pc := .mapWrite task
            writers := writeBucketsToDisk task.id buckets }, .keep)
  | .mapWrite task =>
      if wk.joined then some ({ wk with pc := .markDone task.id, writers := [] }, .keep) else none
  | .glob task =>
      let filenames := MapReduce.glob task.input disk.keys
      some (wk.goto (.reduceRead task filenames filenames []), .keep)
  | .reduceRead task filenames (filename :: todo) kvs =>
      match disk.lookup filename with
      | none => some (wk.goto (.markDone task.id), .keep)
      | some content =>
          some (wk.goto (.reduceRead task filenames todo (kvs ++ content.unmarshal)), .keep)
  | .reduceWrite task filenames =>
      if wk.joined then some ({ wk with pc := .delete task filenames, writers := [] }, .keep)
      else none
  | .delete task (filename :: todo) => some (wk.goto (.delete task todo), .remove filename)
  | .delete task [] => some (wk.goto (.markDone task.id), .keep)
  | _ => none

/-- The groups are reduced and the `writeFile` of the output begins. -/
def reduce (job : Job) (order : List (Str × List Str)) : Option Worker :=
  match wk.pc with
  | .reduceRead task filenames [] kvs =>
      if order.Perm (groupValuesByKey kvs) then
        let output := reduceValuesByKey job.reducef order
        some { wk with
          pc := .reduceWrite task filenames
          writers := [⟨outName task.idx, .create (.text output)⟩] }
      else none
  | _ => none

/-- A step of the writer `i`. -/
def write (disk : Disk) (i : ℕ) (wr : Writer) : Writer.Action → Option (Worker × DiskOp)
  | .sort sorted =>
      match wr.stage with
      | .sort kvs =>
          if SortsTo kvs sorted then some (wk.setStage i (.create (.json sorted)), .keep) else none
      | _ => none
  | .create n =>
      match wr.stage with
      | .create content =>
          if tmpName n ∈ disk then none
          else some (wk.setStage i (.write n content), .write (tmpName n) (.text []))
      | _ => none
  | .part s =>
      match wr.stage with
      | .write n content => some (wk.setStage i (.write n content), .write (tmpName n) (.text s))
      | _ => none
  | .advance =>
      match wr.stage with
      | .write n content => some (wk.setStage i (.close n), .write (tmpName n) content)
      | .close n => some (wk.setStage i (.rename n), .keep)
      | .rename n => some (wk.setStage i .done, .rename (tmpName n) wr.filename)
      | _ => none
  | .fail =>
      match wr.stage with
      | .rename n => some (wk.setStage i .done, .remove (tmpName n))
      | .done => none
      | _ => some (wk.setStage i .done, .keep)

def step (job : Job) (disk : Disk) (wk : Worker) (a : Action) : Option (Worker × DiskOp) :=
  match a with
  | .run => wk.run job disk
  | .reduce order => (wk.reduce job order).map (·, .keep)
  | .write i a => do
      let wr ← wk.writers[i]?
      wk.write disk i wr a
  | .crash => some ({ wk with pc := .exited, writers := [] }, .keep)
  | .failRead =>
      match wk.pc with
      | .mapRead task => some (wk.goto (.markDone task.id), .keep)
      | .reduceRead task _ (_ :: _) _ => some (wk.goto (.markDone task.id), .keep)
      | _ => none
  | .failRemove =>
      match wk.pc with
      | .delete task (_ :: todo) => some (wk.goto (.delete task todo), .keep)
      | _ => none

/-! ### What a step can do -/

/-- The inversion of `Worker.step`. -/
inductive Stepped (job : Job) (disk : Disk) (wk : Worker) : Action → Worker → DiskOp → Prop
  | mapMissing {task : GetTaskOut} (hpc : wk.pc = .mapRead task)
      (hl : disk.lookup task.input = none) :
      Stepped job disk wk .run (wk.goto (.markDone task.id)) .keep
  | mapRead {task : GetTaskOut} {content : Content} (hpc : wk.pc = .mapRead task)
      (hl : disk.lookup task.input = some content) :
      Stepped job disk wk .run
        { wk with
          pc := .mapWrite task
          writers := writeBucketsToDisk task.id
            (splitIntoBuckets (job.mapf task.input content.string) task.nReduce) } .keep
  | mapDone {task : GetTaskOut} (hpc : wk.pc = .mapWrite task) (hj : wk.joined = true) :
      Stepped job disk wk .run { wk with pc := .markDone task.id, writers := [] } .keep
  | glob {task : GetTaskOut} (hpc : wk.pc = .glob task) :
      Stepped job disk wk .run
        (wk.goto (.reduceRead task (MapReduce.glob task.input disk.keys)
          (MapReduce.glob task.input disk.keys) [])) .keep
  | readMissing {task : GetTaskOut} {filenames todo : List String} {filename : String}
      {kvs : List KeyValue} (hpc : wk.pc = .reduceRead task filenames (filename :: todo) kvs)
      (hl : disk.lookup filename = none) :
      Stepped job disk wk .run (wk.goto (.markDone task.id)) .keep
  | read {task : GetTaskOut} {filenames todo : List String} {filename : String}
      {kvs : List KeyValue} {content : Content}
      (hpc : wk.pc = .reduceRead task filenames (filename :: todo) kvs)
      (hl : disk.lookup filename = some content) :
      Stepped job disk wk .run
        (wk.goto (.reduceRead task filenames todo (kvs ++ content.unmarshal))) .keep
  | reduce {task : GetTaskOut} {filenames : List String} {kvs : List KeyValue}
      {order : List (Str × List Str)} (hpc : wk.pc = .reduceRead task filenames [] kvs)
      (horder : order.Perm (groupValuesByKey kvs)) :
      Stepped job disk wk (.reduce order)
        { wk with
          pc := .reduceWrite task filenames
          writers := [⟨outName task.idx,
            .create (.text (reduceValuesByKey job.reducef order))⟩] } .keep
  | reduceDone {task : GetTaskOut} {filenames : List String}
      (hpc : wk.pc = .reduceWrite task filenames) (hj : wk.joined = true) :
      Stepped job disk wk .run { wk with pc := .delete task filenames, writers := [] } .keep
  | remove {task : GetTaskOut} {todo : List String} {filename : String}
      (hpc : wk.pc = .delete task (filename :: todo)) :
      Stepped job disk wk .run (wk.goto (.delete task todo)) (.remove filename)
  | deleted {task : GetTaskOut} (hpc : wk.pc = .delete task []) :
      Stepped job disk wk .run (wk.goto (.markDone task.id)) .keep
  | sort {i : ℕ} {wr : Writer} {kvs sorted : List KeyValue} (hw : wk.writers[i]? = some wr)
      (hstage : wr.stage = .sort kvs) (hs : SortsTo kvs sorted) :
      Stepped job disk wk (.write i (.sort sorted)) (wk.setStage i (.create (.json sorted))) .keep
  | create {i n : ℕ} {wr : Writer} {content : Content} (hw : wk.writers[i]? = some wr)
      (hstage : wr.stage = .create content) (hn : tmpName n ∉ disk) :
      Stepped job disk wk (.write i (.create n)) (wk.setStage i (.write n content))
        (.write (tmpName n) (.text []))
  | part {i n : ℕ} {wr : Writer} {content : Content} (s : Str) (hw : wk.writers[i]? = some wr)
      (hstage : wr.stage = .write n content) :
      Stepped job disk wk (.write i (.part s)) (wk.setStage i (.write n content))
        (.write (tmpName n) (.text s))
  | write {i n : ℕ} {wr : Writer} {content : Content} (hw : wk.writers[i]? = some wr)
      (hstage : wr.stage = .write n content) :
      Stepped job disk wk (.write i .advance) (wk.setStage i (.close n))
        (.write (tmpName n) content)
  | close {i n : ℕ} {wr : Writer} (hw : wk.writers[i]? = some wr) (hstage : wr.stage = .close n) :
      Stepped job disk wk (.write i .advance) (wk.setStage i (.rename n)) .keep
  | rename {i n : ℕ} {wr : Writer} (hw : wk.writers[i]? = some wr)
      (hstage : wr.stage = .rename n) :
      Stepped job disk wk (.write i .advance) (wk.setStage i .done)
        (.rename (tmpName n) wr.filename)
  | crash : Stepped job disk wk .crash { wk with pc := .exited, writers := [] } .keep
  | fail {i : ℕ} {wr : Writer} (hw : wk.writers[i]? = some wr) (hdone : wr.stage ≠ .done)
      (hrename : ∀ n, wr.stage ≠ .rename n) :
      Stepped job disk wk (.write i .fail) (wk.setStage i .done) .keep
  | failRename {i n : ℕ} {wr : Writer} (hw : wk.writers[i]? = some wr)
      (hstage : wr.stage = .rename n) :
      Stepped job disk wk (.write i .fail) (wk.setStage i .done) (.remove (tmpName n))
  | failMap {task : GetTaskOut} (hpc : wk.pc = .mapRead task) :
      Stepped job disk wk .failRead (wk.goto (.markDone task.id)) .keep
  | failReduce {task : GetTaskOut} {filenames todo : List String} {filename : String}
      {kvs : List KeyValue} (hpc : wk.pc = .reduceRead task filenames (filename :: todo) kvs) :
      Stepped job disk wk .failRead (wk.goto (.markDone task.id)) .keep
  | failRemove {task : GetTaskOut} {todo : List String} {filename : String}
      (hpc : wk.pc = .delete task (filename :: todo)) :
      Stepped job disk wk .failRemove (wk.goto (.delete task todo)) .keep

theorem run_cases {job : Job} {disk : Disk} {wk wk' : Worker} {op : DiskOp}
    (h : wk.run job disk = some (wk', op)) : Stepped job disk wk .run wk' op := by
  unfold run at h
  split at h
  · rename_i task hpc
    split at h
    · rename_i hl
      cases h
      exact .mapMissing hpc hl
    · rename_i content hl
      cases h
      exact .mapRead hpc hl
  · rename_i task hpc
    split_ifs at h with hj
    cases h
    exact .mapDone hpc hj
  · rename_i task hpc
    cases h
    exact .glob hpc
  · rename_i task filenames filename todo kvs hpc
    split at h
    · rename_i hl
      cases h
      exact .readMissing hpc hl
    · rename_i content hl
      cases h
      exact .read hpc hl
  · rename_i task filenames hpc
    split_ifs at h with hj
    cases h
    exact .reduceDone hpc hj
  · rename_i task filename todo hpc
    cases h
    exact .remove hpc
  · rename_i task hpc
    cases h
    exact .deleted hpc
  · cases h

theorem reduce_cases {job : Job} {disk : Disk} {wk wk' : Worker}
    {order : List (Str × List Str)} (h : wk.reduce job order = some wk') :
    Stepped job disk wk (.reduce order) wk' .keep := by
  unfold reduce at h
  split at h
  · rename_i task filenames kvs hpc
    split_ifs at h with horder
    cases h
    exact .reduce hpc horder
  · cases h

theorem write_cases {job : Job} {disk : Disk} {wk wk' : Worker} {op : DiskOp} {i : ℕ} {wr : Writer}
    {a : Writer.Action} (hw : wk.writers[i]? = some wr)
    (h : wk.write disk i wr a = some (wk', op)) : Stepped job disk wk (.write i a) wk' op := by
  cases a with
  | sort sorted =>
      simp only [write] at h
      split at h
      · rename_i kvs hstage
        split_ifs at h with hs
        cases h
        exact .sort hw hstage hs
      · cases h
  | create n =>
      simp only [write] at h
      split at h
      · rename_i content hstage
        split_ifs at h with hn
        cases h
        exact .create hw hstage hn
      · cases h
  | part s =>
      simp only [write] at h
      split at h
      · rename_i n content hstage
        cases h
        exact .part s hw hstage
      · cases h
  | advance =>
      simp only [write] at h
      split at h
      · rename_i n content hstage
        cases h
        exact .write hw hstage
      · rename_i n hstage
        cases h
        exact .close hw hstage
      · rename_i n hstage
        cases h
        exact .rename hw hstage
      · cases h
  | fail =>
      simp only [write] at h
      split at h
      · rename_i n hstage
        cases h
        exact .failRename hw hstage
      · cases h
      · rename_i hrename hdone
        cases h
        exact .fail hw hdone hrename

theorem step_cases {job : Job} {disk : Disk} {wk wk' : Worker} {a : Action} {op : DiskOp}
    (h : wk.step job disk a = some (wk', op)) : Stepped job disk wk a wk' op := by
  cases a with
  | run => exact run_cases h
  | reduce order =>
      obtain ⟨wk₁, hr, he⟩ := Option.map_eq_some_iff.mp h
      cases he
      exact reduce_cases hr
  | write i a =>
      obtain ⟨wr, hw, h⟩ := Option.bind_eq_some_iff.mp h
      exact write_cases hw h
  | crash =>
      cases h
      exact .crash
  | failRead =>
      simp only [step] at h
      split at h
      · rename_i task hpc
        cases h
        exact .failMap hpc
      · rename_i task filenames filename todo kvs hpc
        cases h
        exact .failReduce hpc
      · cases h
  | failRemove =>
      simp only [step] at h
      split at h
      · rename_i task filename todo hpc
        cases h
        exact .failRemove hpc
      · cases h

/-- A step on files does not change the logger of the worker. -/
theorem Stepped.logger_eq {job : Job} {disk : Disk} {wk wk' : Worker} {a : Action} {op : DiskOp}
    (h : Stepped job disk wk a wk' op) : wk'.logger = wk.logger := by
  cases h <;> rfl

end Worker

end DistributedSystems.MapReduce
