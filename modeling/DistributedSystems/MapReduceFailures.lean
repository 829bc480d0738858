import DistributedSystems.MapReduceOutput

/-! # Failing system calls

What a failing system call cannot do is to leave a part of an intermediate file or of an output
file behind: a file gets such a name only by a rename, when it is complete
(`bucket_files_complete`).

But the errors end in the log of the worker.  `execMap` and `execReduce` log theirs and return
nothing, so `run` calls `markAsDone` all the same, and the error that `writeFile` returns is dropped
by its callers.  So a task is reported that has written nothing (`reported_without_files`).  As long
as a failing call only keeps a worker from writing what has been written before (`Harmless`), every
task that is reported has its files (`reported_tasks_written`): each bucket was in the directory,
and so was the output for the buckets of all map tasks.  A later execution of the reduce task may
have replaced it; the first output is complete, since until it is there nothing is removed
(`EarlyOk`). -/

namespace DistributedSystems.MapReduce

open Lts (Recorded)

variable {job : Job}

/-! ### Complete files -/

/-- The content is the output of the reduce task `r` for the buckets of the files. -/
def OutputFor (job : Job) (r : ℕ) (files : List (String × ℕ)) (c : Content) : Prop :=
  ∃ parts order, List.Forall₂ (Part job r) files parts ∧
    order.Perm (groupValuesByKey (parts.flatten.map KeyValue.recoded)) ∧
    c = .text (reduceValuesByKey job.reducef order)

theorem reachable_outputFor {C : State → Action → Prop} {s : State}
    (h : (system job).ReachableBy C s) : ∀ wk ∈ s.workers,
      Outputs job
        (fun r c => ∃ files, files.Subperm job.files.zipIdx ∧ OutputFor job r files c) wk := by
  intro wk hwk task filenames kvs order hpc horder
  obtain ⟨found, hsub, done, rest, parts, rfl, htodo, hparts, rfl⟩ :=
    reachable_readSome h wk hwk _ _ _ _ hpc
  obtain rfl : rest = [] := List.map_eq_nil_iff.mp htodo.symm
  rw [List.append_nil] at hsub
  exact ⟨done, hsub, parts, order, hparts, horder, rfl⟩

/-- In every run, whatever crashes and fails, a file that the pattern of the reduce task `r` matches
is the complete bucket `r` of a map task, and no temporary file.  An output file that was not there
at the start is the complete output for the buckets that an execution of the reduce task has
found. -/
theorem bucket_files_complete {s : State} (h : (system job).Reachable s) {name : String}
    {c : Content} {r : ℕ} (hl : s.disk.lookup name = some c) :
    (globMatch (bucketPattern r).toList name.toList = true →
      (∃ k f kvs, job.files[k]? = some f ∧ name = bucketName (toString (k + 1)) r ∧
        Part job r (f, k) kvs ∧ c = .json kvs) ∧ ∀ n, name ≠ tmpName n) ∧
    (name = outName r → name ∉ job.disk →
      ∃ files, files.Subperm job.files.zipIdx ∧ OutputFor job r files c) := by
  refine ⟨?_, ?_⟩
  · intro hm
    refine ⟨?_, ne_tmpName_of_match hm⟩
    obtain ⟨k, bucket, kvs, hname, hb, hs, hc⟩ := (reachable_dirOk_any h).bucket_of_match hl hm
    obtain ⟨f, hf, hbucket⟩ := Option.bind_eq_some_iff.mp hb
    exact ⟨k, f, kvs, hf, hname, ⟨bucket, hbucket, hs⟩, hc⟩
  · rintro rfl hnew
    exact (reachable_dirOk h (fun _ ht => reachable_outputFor ht)).output_of_new hnew hl

/-- Worker `0` has left a part of the bucket in a temporary file, worker `1` has written it, and has
then written the output. -/
theorem bucket_files_complete_oneWord : ∃ s c c', (system oneWordJob).Reachable s ∧
    s.disk.lookup (tmpName 0) = some (.text (.ofText "[")) ∧
    (s.disk.lookup (bucketName "1" 0) = some c ∧
      ∃ k f kvs, oneWordJob.files[k]? = some f ∧
        bucketName "1" 0 = bucketName (toString (k + 1)) 0 ∧ Part oneWordJob 0 (f, k) kvs ∧
        c = .json kvs) ∧
    s.disk.lookup (outName 0) = some c' ∧
      ∃ files, files.Subperm oneWordJob.files.zipIdx ∧ OutputFor oneWordJob 0 files c' := by
  obtain ⟨s, hr, hs⟩ := Lts.exists_of_exec (L := system oneWordJob) (C := fun _ _ => True)
    (p := fun s => decide (s.disk.lookup (tmpName 0) = some (.text (.ofText "[")) ∧
      s.disk.lookup (bucketName "1" 0) = some (.json [oneWord]) ∧
      s.disk.lookup (outName 0) = some (.text (.ofText "a 1\n"))))
    (mapRun ++ reduceRun.dropLast) (by decide)
  obtain ⟨htmp, hl, hout⟩ := of_decide_eq_true hs
  exact ⟨s, _, _, hr, htmp, ⟨hl, ((bucket_files_complete hr hl).1 (by decide)).1⟩, hout,
    (bucket_files_complete hr hout).2 rfl (by decide)⟩

/-! ### The first output -/

/-- The content is the output of the reduce task `r` for the buckets of all map tasks. -/
def FullOutput (job : Job) (r : ℕ) (c : Content) : Prop :=
  ∃ kvs order, ReduceInput job.mapf job.inputFiles job.nReduce r kvs ∧
    order.Perm (groupValuesByKey (kvs.map KeyValue.recoded)) ∧
    c = .text (reduceValuesByKey job.reducef order)

/-- What is known of an output that is written: it is complete or not the first. -/
def EarlyOutput (job : Job) (log : List FileEvent) (r : ℕ) (c : Content) : Prop :=
  .renamed (outName r) ∈ log ∨ FullOutput job r c

/-- Until the first output is there, the workers find the buckets of all map tasks. -/
structure EarlyOk (job : Job) (s : State) : Prop where
  reading : ∀ wk ∈ s.workers, ∀ task filenames todo kvs,
    wk.pc = .reduceRead task filenames todo kvs → .renamed (outName task.idx) ∉ s.log →
    ReadOk job task.idx todo kvs
  dir : DirOk job (EarlyOutput job s.log) s

theorem EarlyOk.outputs {s : State} (h : EarlyOk job s) :
    ∀ wk ∈ s.workers, Outputs job (EarlyOutput job s.log) wk := by
  intro wk hwk task filenames kvs order hpc horder
  by_cases hren : .renamed (outName task.idx) ∈ s.log
  · exact Or.inl hren
  · obtain ⟨kvs₀, hread, rfl⟩ := (h.reading wk hwk _ _ _ _ hpc hren).reduceInput
    exact Or.inr ⟨kvs₀, order, hread, horder, rfl⟩

/-- The first output that appears is complete. -/
theorem EarlyOk.fullOutput {s s' : State} {a : Action} (h : EarlyOk job s) (ht : TasksOk job s)
    (hstep : Stepped job s a s') {r : ℕ} (hold : .renamed (outName r) ∉ s.log)
    (hnew : .renamed (outName r) ∈ s'.log) :
    ∃ c, s'.disk.lookup (outName r) = some c ∧ FullOutput job r c := by
  obtain ⟨c, hl, hren | hfull⟩ := (h.dir.step ht h.outputs hstep).output_of_renamed hnew
  · exact absurd hren hold
  · exact ⟨c, hl, hfull⟩

theorem EarlyOk.step {s s' : State} {a : Action} (h : EarlyOk job s) (ht : TasksOk job s)
    (hrep : ReportsOk job s) (hstep : Stepped job s a s') : EarlyOk job s' := by
  constructor
  · intro wk' hwk' task filenames todo kvs hpc' hren'
    have hren : .renamed (outName task.idx) ∉ s.log := fun hr => hren' (hstep.log_subset hr)
    rcases hstep.reading_cases hwk' hpc' with hwk' | ⟨w, wk, b, op, rfl, hw, hwork⟩
    · exact h.reading wk' hwk' _ _ _ _ hpc' hren
    · have hmem := List.mem_of_getElem? hw
      have hpc := ht.pcs wk hmem
      refine ReadOk.step h.dir hrep hpc hw hwork hpc'
        (fun todo kvs hp => h.reading wk hmem _ _ _ _ hp hren) ?_
      intro _ hglob name hname hmatch
      rw [hglob] at hpc
      obtain ⟨r, hr, rfl⟩ := hpc
      obtain ⟨e, he, hremoved⟩ := List.mem_filterMap.mp hname
      have hrem : .removed name ∈ s.log := by
        cases e with
        | renamed x => cases hremoved
        | removed x =>
            cases hremoved
            exact he
      exact absurd (hrep.removed name r hmatch hrem) hren
  · refine (h.dir.step ht h.outputs hstep).mono ?_
    exact fun r c => Or.imp_left (fun hr => hstep.log_subset hr)

theorem reachable_earlyOk {C : State → Action → Prop} (hC : ∀ s a, C s a → Harmless s a) {s : State}
    (h : (system job).ReachableBy C s) : EarlyOk job s := by
  refine h.invariant (I := EarlyOk job) ⟨?_, dirOk_init⟩ ?_
  · intro wk hwk
    cases hwk
  · intro s a s' hr ih _ hstep
    exact ih.step (reachable_tasksOk hr) (reachable_reportsOk hC hr) (State.step_cases hstep)

/-! ### Reported tasks -/

/-- What has been in the directory when a file has got its name. -/
structure WrittenOnce (job : Job) (x : Recorded State Action) : Prop where
  buckets : ∀ k f r, job.files[k]? = some f →
    .renamed (bucketName (toString (k + 1)) r) ∈ x.now.log →
    x.Once (fun s => ∃ kvs, Part job r (f, k) kvs ∧
      s.disk.lookup (bucketName (toString (k + 1)) r) = some (.json kvs))
  outputs : ∀ r, .renamed (outName r) ∈ x.now.log →
    x.Once (fun s => ∃ c, s.disk.lookup (outName r) = some c ∧ FullOutput job r c)

theorem Stepped.mem_of_renamed {s s' : State} {a : Action} (h : Stepped job s a s') {name : String}
    (hren : .renamed name ∈ s'.log) : .renamed name ∈ s.log ∨ name ∈ s'.disk := by
  cases h with
  | work hw hwork =>
      rcases List.mem_append.mp hren with hren | hren
      · exact Or.inl hren
      · exact Or.inr (DiskOp.mem_of_renamed hren)
  | coord ha hp => exact Or.inl hren
  | start workerId => exact Or.inl hren
  | ping hw hpc => exact Or.inl hren
  | call hw hreq => exact Or.inl hren
  | serve hq => exact Or.inl hren
  | callTrue hw hp hrec => exact Or.inl hren
  | callFalse hw hf => exact Or.inl hren

theorem reachable_writtenOnce {x : Recorded State Action}
    (h : (system job).recorded.ReachableBy (fun x a => Harmless x.now a) x) :
    WrittenOnce job x := by
  refine h.recorded_invariant (I := WrittenOnce job) ⟨?_, ?_⟩ ?_
  · intro k f r _ hren
    cases hren
  · intro r hren
    cases hren
  · intro x a s' hr ih hfail hstep
    have hrun : (system job).ReachableBy Harmless x.now := hr.of_recorded (fun _ _ hc => hc)
    have hstepped := State.step_cases hstep
    constructor
    · intro k f r hf hren
      rcases hstepped.mem_of_renamed hren with hren | hin
      · exact (ih.buckets k f r hf hren).next a s'
      · obtain ⟨c, hl⟩ := mem_disk_iff.mp hin
        obtain ⟨k', bucket, kvs, hname, hb, hs, rfl⟩ :=
          (reachable_dirOk_any (hrun.step hfail hstep)).bucket_of_match hl
            (bucketPattern_bucketName.mpr rfl)
        obtain rfl : k = k' := Nat.succ_injective (bucketName_inj hname).1
        rw [Job.bucket_eq hf] at hb
        exact Or.inl ⟨kvs, ⟨bucket, hb, hs⟩, hl⟩
    · intro r hren
      by_cases hold : .renamed (outName r) ∈ x.now.log
      · exact (ih.outputs r hold).next a s'
      · exact Or.inl ((reachable_earlyOk (fun _ _ hc => hc) hrun).fullOutput
          (reachable_tasksOk hrun) hstepped hold hren)

/-- The files of the task have been written completely. -/
structure HasOutput (job : Job) (x : Recorded State Action) (taskId : String) : Prop where
  maps : ∀ k f, job.files[k]? = some f → taskId = toString (k + 1) → ∀ r < job.nReduce,
    x.Once (fun s => ∃ kvs, Part job r (f, k) kvs ∧
      s.disk.lookup (bucketName taskId r) = some (.json kvs))
  reduces : ∀ r < job.nReduce, taskId = toString (job.files.length + r + 1) →
    x.Once (fun s => ∃ c, s.disk.lookup (outName r) = some c ∧ FullOutput job r c)

/-- A worker is about to send the report. -/
def State.Reports (s : State) (args : UpdateTaskIn) : Prop :=
  ∃ wk ∈ s.workers, (wk.request s.calls).map Prod.fst = some (.updateTask args)

instance (s : State) (args : UpdateTaskIn) : Decidable (s.Reports args) :=
  inferInstanceAs (Decidable (∃ wk ∈ s.workers, _))

theorem State.Reports.markDone {s : State} {args : UpdateTaskIn} (h : s.Reports args) :
    ∃ wk ∈ s.workers, wk.pc = .markDone args.taskId := by
  obtain ⟨wk, hwk, hreq⟩ := h
  obtain ⟨⟨msg, wk'⟩, hreq, rfl⟩ := Option.map_eq_some_iff.mp hreq
  obtain ⟨-, hmsg, -⟩ | ⟨taskId, hpc, hmsg, -⟩ := Worker.request_cases hreq
  · cases hmsg
  · cases hmsg
    exact ⟨wk, hwk, hpc⟩

/-- In every run in which no failing call keeps a worker from writing a file that has not been
written before, the files of a task that is reported have been written. -/
theorem reported_tasks_written {x : Recorded State Action}
    (h : (system job).recorded.ReachableBy (fun x a => Harmless x.now a) x) {args : UpdateTaskIn}
    (hreport : x.now.Reports args) : HasOutput job x args.taskId := by
  have hrun : (system job).ReachableBy Harmless x.now := h.of_recorded (fun _ _ hc => hc)
  have hwritten := reachable_writtenOnce h
  obtain ⟨wk, hwk, hpc⟩ := hreport.markDone
  have hrep := ((reachable_reportsOk (fun _ _ hc => hc) hrun).workers wk hwk).pc
  unfold PcReports at hrep
  rw [hpc] at hrep
  constructor
  · intro k f hf hid r hr
    have hren := hrep.maps k (List.getElem?_eq_some_iff.mp hf).1 hid r hr
    rw [hid] at hren ⊢
    exact hwritten.buckets k f r hf hren
  · intro r hr hid
    exact hwritten.outputs r (hrep.reduces r hr hid)

/-- Worker `1` cannot remove the intermediate file and reports the reduce task. -/
theorem reported_tasks_written_kept : ∃ x : Recorded State Action,
    (system oneWordJob).recorded.ReachableBy (fun x a => Harmless x.now a) x ∧
      x.now.Reports ⟨"w1", "2", .done⟩ ∧ HasOutput oneWordJob x "2" := by
  obtain ⟨x, hr, hx⟩ := Lts.exists_of_exec (L := (system oneWordJob).recorded)
    (C := fun x a => Harmless x.now a)
    (p := fun x => decide (x.now.Reports ⟨"w1", "2", .done⟩))
    (mapRun ++ reduceRun.dropLast ++ [.work 1 .failRemove, .work 1 .run]) (by decide)
  have hreport := of_decide_eq_true hx
  exact ⟨x, hr, hreport, reported_tasks_written hr hreport⟩

/-- Worker `0` cannot read the input file. -/
def failedMapRun : List Action :=
  [.coord .ready, .start "w0", .call 0, .serve 0, .callTrue 0 0, .work 0 .failRead]

/-- Worker `0` reports the map task, finds nothing to reduce and cannot create a temporary file. -/
def failedReduceRun : List Action :=
  [.call 0, .serve 0, .callTrue 0 1, .call 0, .serve 0, .callTrue 0 2, .work 0 .run,
    .work 0 (.reduce []), .work 0 (.write 0 .fail), .work 0 .run, .work 0 .run]

/-- Both tasks are reported done, and neither of their files has ever been there. -/
theorem reported_without_files :
    (∃ x : Recorded State Action, (system oneWordJob).recorded.Reachable x ∧
      x.now.Reports ⟨"w0", "1", .done⟩ ∧ ¬ HasOutput oneWordJob x "1") ∧
    ∃ x : Recorded State Action, (system oneWordJob).recorded.Reachable x ∧
      x.now.Reports ⟨"w0", "2", .done⟩ ∧ ¬ HasOutput oneWordJob x "2" := by
  constructor
  · obtain ⟨x, hr, hx⟩ := Lts.exists_of_exec (L := (system oneWordJob).recorded)
      (C := fun _ _ => True)
      (p := fun x => decide (x.now.Reports ⟨"w0", "1", .done⟩ ∧
        bucketName "1" 0 ∉ x.now.disk ∧ ∀ e ∈ x.past, bucketName "1" 0 ∉ e.1.disk))
      failedMapRun (by decide)
    obtain ⟨hreport, hnow, hpast⟩ := of_decide_eq_true hx
    refine ⟨x, hr, hreport, ?_⟩
    intro hout
    rcases hout.maps 0 "in" rfl rfl 0 (by decide) with ⟨kvs, -, hl⟩ | ⟨e, he, kvs, -, hl⟩
    · exact hnow (mem_disk_iff.mpr ⟨_, hl⟩)
    · exact hpast e he (mem_disk_iff.mpr ⟨_, hl⟩)
  · obtain ⟨x, hr, hx⟩ := Lts.exists_of_exec (L := (system oneWordJob).recorded)
      (C := fun _ _ => True)
      (p := fun x => decide (x.now.Reports ⟨"w0", "2", .done⟩ ∧
        outName 0 ∉ x.now.disk ∧ ∀ e ∈ x.past, outName 0 ∉ e.1.disk))
      (failedMapRun ++ failedReduceRun) (by decide)
    obtain ⟨hreport, hnow, hpast⟩ := of_decide_eq_true hx
    refine ⟨x, hr, hreport, ?_⟩
    intro hout
    rcases hout.reduces 0 (by decide) rfl with ⟨c, hl, -⟩ | ⟨e, he, c, hl, -⟩
    · exact hnow (mem_disk_iff.mpr ⟨_, hl⟩)
    · exact hpast e he (mem_disk_iff.mpr ⟨_, hl⟩)

end DistributedSystems.MapReduce
