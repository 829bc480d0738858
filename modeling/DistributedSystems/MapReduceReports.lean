import DistributedSystems.MapReduceDirectory

/-! # Reported tasks have written their files

In a run without failing system calls a worker reports a map task only after the renames of all
its buckets, and a reduce task only after the rename of an output file (`Reported`).  So the
reduce tasks are handed out after all buckets have been written, and when the coordinator is done
every output file has been written.  The same is true when system calls fail, as long as what they
keep a worker from writing has been written before (`Harmless`).

A file that a reduce task has found may be gone when the task comes to read it.  Then the worker
returns from `execReduce` and reports the task all the same; but the file has been removed by a
worker that had written the output before. -/

namespace DistributedSystems.MapReduce

/-- No system call fails. -/
def NoFailure (_ : State) : Action → Prop
  | .work _ (.write _ .fail) | .work _ .failRead | .work _ .failRemove => False
  | _ => True

instance (s : State) : (a : Action) → Decidable (NoFailure s a)
  | .work _ (.write _ .fail) | .work _ .failRead | .work _ .failRemove => isFalse (fun h => h)
  | .work _ (.write _ (.sort _)) | .work _ (.write _ (.create _)) | .work _ (.write _ (.part _))
  | .work _ (.write _ .advance) | .work _ .run | .work _ (.reduce _) | .work _ .crash
  | .coord _ | .start _ | .ping _ | .call _ | .serve _ | .callTrue _ _ | .callFalse _ =>
      isTrue trivial

/-- The files that the worker has to write when it has read its input. -/
def Worker.products (wk : Worker) : List String :=
  match wk.pc with
  | .mapRead task => (List.range task.nReduce).map (bucketName task.id)
  | .reduceRead task _ _ _ => [outName task.idx]
  | _ => []

/-- No system call fails that keeps a worker from writing a file, unless the file has been written
before. -/
def Harmless (s : State) : Action → Prop
  | .work w (.write i .fail) =>
      ∀ wr ∈ s.workers[w]?.bind (fun wk => wk.writers[i]?), .renamed wr.filename ∈ s.log
  | .work w .failRead => ∀ wk ∈ s.workers[w]?, ∀ name ∈ wk.products, .renamed name ∈ s.log
  | _ => True

instance (s : State) : (a : Action) → Decidable (Harmless s a)
  | .work w (.write i .fail) =>
      inferInstanceAs (Decidable (∀ wr ∈ s.workers[w]?.bind (fun wk => wk.writers[i]?), _))
  | .work w .failRead =>
      inferInstanceAs (Decidable (∀ wk ∈ s.workers[w]?, ∀ name ∈ wk.products, _))
  | .work _ (.write _ (.sort _)) | .work _ (.write _ (.create _)) | .work _ (.write _ (.part _))
  | .work _ (.write _ .advance) | .work _ .run | .work _ (.reduce _) | .work _ .crash
  | .work _ .failRemove | .coord _ | .start _ | .ping _ | .call _ | .serve _ | .callTrue _ _
  | .callFalse _ => isTrue trivial

/-- The buckets of all map tasks have been written. -/
def MapsWritten (job : Job) (log : List FileEvent) : Prop :=
  ∀ k < job.files.length, ∀ r < job.nReduce, .renamed (bucketName (toString (k + 1)) r) ∈ log

/-- The files of the task have been written. -/
structure Reported (job : Job) (log : List FileEvent) (taskId : String) : Prop where
  maps : ∀ k < job.files.length, taskId = toString (k + 1) →
    ∀ r < job.nReduce, .renamed (bucketName taskId r) ∈ log
  reduces : ∀ r < job.nReduce, taskId = toString (job.files.length + r + 1) →
    .renamed (outName r) ∈ log

def PcReports (job : Job) (log : List FileEvent) (wk : Worker) : Prop :=
  match wk.pc with
  | .mapWrite task => ∀ r < job.nReduce, ∃ wr ∈ wk.writers, wr.filename = bucketName task.id r
  | .glob _ => MapsWritten job log
  | .reduceRead _ _ todo _ => ∀ name ∈ todo, .renamed name ∈ log
  | .reduceWrite task _ => ∃ wr ∈ wk.writers, wr.filename = outName task.idx
  | .delete task _ => .renamed (outName task.idx) ∈ log
  | .markDone taskId => Reported job log taskId
  | _ => True

structure WorkerReports (job : Job) (log : List FileEvent) (wk : Worker) : Prop where
  writers : ∀ wr ∈ wk.writers, wr.stage = .done → .renamed wr.filename ∈ log
  pc : PcReports job log wk

structure ReportsOk (job : Job) (s : State) : Prop where
  workers : ∀ wk ∈ s.workers, WorkerReports job s.log wk
  requests : ∀ q ∈ s.requests, ∀ args, q.msg = .updateTask args →
    Reported job s.log args.taskId
  replies : ∀ p ∈ s.replies, ∀ task, p.reply = .getTask task → task.type = .reduce →
    MapsWritten job s.log
  done : ∀ t ∈ s.proc.coord.tasks, t.status = .done → Reported job s.log t.id
  present : ∀ name r, globMatch (bucketPattern r).toList name.toList = true →
    .renamed name ∈ s.log → name ∈ s.disk ∨ .removed name ∈ s.log
  removed : ∀ name r, globMatch (bucketPattern r).toList name.toList = true →
    .removed name ∈ s.log → .renamed (outName r) ∈ s.log

section

variable {job : Job} {log log' : List FileEvent}

theorem Reported.mono (hsub : log ⊆ log') {taskId : String} (h : Reported job log taskId) :
    Reported job log' taskId :=
  ⟨fun k hk he r hr => hsub (h.maps k hk he r hr), fun r hr he => hsub (h.reduces r hr he)⟩

theorem MapsWritten.mono (hsub : log ⊆ log') (h : MapsWritten job log) : MapsWritten job log' :=
  fun k hk r hr => hsub (h k hk r hr)

theorem PcReports.mono (hsub : log ⊆ log') {wk : Worker} (h : PcReports job log wk) :
    PcReports job log' wk := by
  unfold PcReports at h ⊢
  split at h
  · exact h
  · exact h.mono hsub
  · exact fun name hname => hsub (h name hname)
  · exact h
  · exact hsub h
  · exact h.mono hsub
  · trivial

theorem WorkerReports.mono (hsub : log ⊆ log') {wk : Worker} (h : WorkerReports job log wk) :
    WorkerReports job log' wk :=
  ⟨fun wr hwr hd => hsub (h.writers wr hwr hd), h.pc.mono hsub⟩

/-- The id of an empty task is no task. -/
theorem reported_empty : Reported job log "" := by
  constructor
  · intro k _ he
    exact absurd he.symm (toString_ne_empty (k + 1))
  · intro r _ he
    exact absurd he.symm (toString_ne_empty (job.files.length + r + 1))

theorem reported_map {task : GetTaskOut} (ht : MapIssued job task)
    (h : ∀ r < job.nReduce, .renamed (bucketName task.id r) ∈ log) : Reported job log task.id := by
  refine ⟨fun k _ _ => h, ?_⟩
  intro r _ he
  obtain ⟨k, f, hf, rfl⟩ := ht
  have hk := (List.getElem?_eq_some_iff.mp hf).1
  have he := toString_injective he
  omega

theorem reported_reduce {r : ℕ} {task : GetTaskOut} (ht : ReduceIssued job r task)
    (h : .renamed (outName r) ∈ log) : Reported job log task.id := by
  obtain ⟨hr, rfl⟩ := ht
  constructor
  · intro k hk he
    have he := toString_injective he
    omega
  · intro r' _ he
    have he := toString_injective he
    have hrr : r' = r := by omega
    exact hrr ▸ h

/-- When all map tasks are reported, the buckets have been written. -/
theorem mapsWritten_of_done {c : Coordinator} (hc : CoordinatorOk job.files job.nReduce c)
    (hdone : ∀ t ∈ c.tasks, t.status = .done → Reported job log t.id)
    (hmaps : ∀ t ∈ c.tasks, t.tType = .map → t.status = .done) : MapsWritten job log := by
  intro k hk r hr
  have hmem : mapTask k job.files[k] ∈ createTasks job.files job.nReduce :=
    List.mem_append_left _ (List.mem_mapIdx.mpr ⟨k, hk, rfl⟩)
  obtain ⟨t, ht, hsame⟩ := exists_of_forall₂ hc.tasks.flip hmem
  have hrep := hdone t ht (hmaps t ht hsame.tType)
  have hid : t.id = toString (k + 1) := hsame.id
  exact hid ▸ hrep.maps k hk hid r hr

/-! ### The writers -/

theorem exists_filename_setStage {wk : Worker} {i : ℕ} {stage : Stage} {name : String}
    (h : ∃ wr ∈ wk.writers, wr.filename = name) :
    ∃ wr ∈ (wk.setStage i stage).writers, wr.filename = name := by
  obtain ⟨wr, hwr, hname⟩ := h
  obtain ⟨j, hj⟩ := List.mem_iff_getElem?.mp hwr
  by_cases hij : i = j
  · subst hij
    refine ⟨{ wr with stage }, List.mem_of_getElem? (i := i) ?_, hname⟩
    rw [Worker.setStage_writers, List.getElem?_modify_eq, hj]
    rfl
  · refine ⟨wr, List.mem_of_getElem? (i := j) ?_, hname⟩
    rw [Worker.setStage_writers, List.getElem?_modify_ne _ _ hij, hj]

theorem PcReports.setStage {wk : Worker} {i : ℕ} {stage : Stage} (h : PcReports job log wk) :
    PcReports job log (wk.setStage i stage) := by
  unfold PcReports at h ⊢
  rw [Worker.setStage_pc]
  split at h
  · exact fun r hr => exists_filename_setStage (h r hr)
  · exact h
  · exact h
  · exact exists_filename_setStage h
  · exact h
  · exact h
  · trivial

theorem WorkerReports.setStage {wk : Worker} {i : ℕ} {wr : Writer} {stage : Stage}
    (h : WorkerReports job log wk) (hi : wk.writers[i]? = some wr)
    (hdone : stage = .done → .renamed wr.filename ∈ log) :
    WorkerReports job log (wk.setStage i stage) := by
  refine ⟨?_, h.pc.setStage⟩
  intro x hx hd
  obtain ⟨j, hj⟩ := List.mem_iff_getElem?.mp hx
  obtain ⟨-, rfl⟩ | ⟨-, hj⟩ := getElem?_setStage hi hj
  · exact hdone hd
  · exact h.writers x (List.mem_of_getElem? hj) hd

/-- When all writers are done, all files have been written. -/
theorem WorkerReports.joined {wk : Worker} (h : WorkerReports job log wk) (hj : wk.joined = true)
    {name : String} (hname : ∃ wr ∈ wk.writers, wr.filename = name) : .renamed name ∈ log := by
  obtain ⟨wr, hwr, rfl⟩ := hname
  exact h.writers wr hwr (of_decide_eq_true (List.all_eq_true.mp hj wr hwr))

theorem exists_writeBucketsToDisk (taskId : String) (kvs : List KeyValue) {n r : ℕ} (hr : r < n) :
    ∃ wr ∈ writeBucketsToDisk taskId (splitIntoBuckets kvs n),
      wr.filename = bucketName taskId r := by
  obtain ⟨hlen, -⟩ := List.getElem?_eq_some_iff.mp (splitIntoBuckets_getElem? kvs hr)
  exact ⟨_, List.mem_mapIdx.mpr ⟨r, hlen, rfl⟩, rfl⟩

/-- An intermediate file that has been written and is gone was removed, so the output is written. -/
theorem ReportsOk.output_of_missing {s : State} (h : ReportsOk job s) {name : String} {r : ℕ}
    (hm : globMatch (bucketPattern r).toList name.toList = true) (hren : .renamed name ∈ s.log)
    (hl : s.disk.lookup name = none) : .renamed (outName r) ∈ s.log := by
  rcases h.present name r hm hren with hin | hrem
  · obtain ⟨c, hc⟩ := mem_disk_iff.mp hin
    cases hl.symm.trans hc
  · exact h.removed name r hm hrem

/-- The worker returns from `execReduce` since a file that it has found is gone. -/
theorem ReportsOk.reported_of_missing {s : State} {wk : Worker} {task : GetTaskOut}
    {filenames todo : List String} {name : String} {kvs : List KeyValue} (h : ReportsOk job s)
    (hwk : wk ∈ s.workers) (hok : PcOk job wk.pc)
    (hpc : wk.pc = .reduceRead task filenames (name :: todo) kvs)
    (hl : s.disk.lookup name = none) : Reported job s.log task.id := by
  have hold := (h.workers wk hwk).pc
  unfold PcReports at hold
  rw [hpc] at hok hold
  obtain ⟨r, hr, -, htodo⟩ := hok
  refine reported_reduce hr ?_
  exact h.output_of_missing (htodo _ List.mem_cons_self) (hold _ List.mem_cons_self) hl

/-! ### Failures that do no harm -/

section

variable {s : State} {w : ℕ} {wk : Worker}

theorem Harmless.renamed {i : ℕ} {wr : Writer} (h : Harmless s (.work w (.write i .fail)))
    (hw : s.workers[w]? = some wk) (hi : wk.writers[i]? = some wr) :
    .renamed wr.filename ∈ s.log := by
  refine h wr ?_
  rw [hw]
  exact hi

theorem Harmless.reported_map {task : GetTaskOut} (h : Harmless s (.work w .failRead))
    (hw : s.workers[w]? = some wk) (hpc : wk.pc = .mapRead task) (ht : MapIssued job task) :
    Reported job s.log task.id := by
  have hout := h wk hw
  rw [Worker.products, hpc] at hout
  refine MapReduce.reported_map ht ?_
  intro r hr
  obtain ⟨k, f, hf, rfl⟩ := ht
  exact hout _ (List.mem_map_of_mem (List.mem_range.mpr hr))

theorem Harmless.reported_reduce {task : GetTaskOut} {filenames todo : List String}
    {kvs : List KeyValue} {r : ℕ} (h : Harmless s (.work w .failRead))
    (hw : s.workers[w]? = some wk) (hpc : wk.pc = .reduceRead task filenames todo kvs)
    (ht : ReduceIssued job r task) : Reported job s.log task.id := by
  have hout := h wk hw
  rw [Worker.products, hpc, ht.2] at hout
  exact MapReduce.reported_reduce ht (hout _ (List.mem_singleton_self _))

end

/-! ### A step of a worker -/

theorem WorkerReports.step {out : ℕ → Content → Prop} {s : State} {w : ℕ} {wk wk' : Worker}
    {a : Worker.Action} {op : DiskOp} (h : ReportsOk job s) (hdir : DirOk job out s)
    (hpc : PcOk job wk.pc) (hw : s.workers[w]? = some wk) (hfail : Harmless s (.work w a))
    (hstep : Worker.Stepped job s.disk wk a wk' op) :
    WorkerReports job (s.log ++ op.events s.disk) wk' := by
  have hsub : s.log ⊆ s.log ++ op.events s.disk := List.subset_append_left _ _
  have hwk := (h.workers wk (List.mem_of_getElem? hw)).mono hsub
  have hpcr := hwk.pc
  unfold PcReports at hpcr
  cases hstep with
  | mapMissing hpc' hl =>
      rw [hpc'] at hpc
      obtain ⟨k, f, hf, rfl⟩ := hpc
      obtain ⟨c, hc⟩ := mem_disk_iff.mp (hdir.mem_of_input (List.mem_of_getElem? hf))
      cases hl.symm.trans hc
  | mapRead hpc' hl =>
      rw [hpc'] at hpc
      obtain ⟨k, f, hf, rfl⟩ := hpc
      refine ⟨?_, fun r hr => exists_writeBucketsToDisk _ _ hr⟩
      intro wr hwr hd
      obtain ⟨i, hi, rfl⟩ := List.mem_mapIdx.mp hwr
      cases hd
  | mapDone hpc' hj =>
      rw [hpc'] at hpc hpcr
      exact ⟨by simp, reported_map hpc (fun r hr => hwk.joined hj (hpcr r hr))⟩
  | @glob task hpc' =>
      rw [hpc'] at hpc hpcr
      obtain ⟨r, hr, rfl⟩ := hpc
      refine ⟨hwk.writers, ?_⟩
      intro name hname
      obtain ⟨k, bucket, rfl, hb⟩ := hdir.mem_glob hname
      exact hpcr k (Job.lt_of_bucket hb) r hr
  | readMissing hpc' hl =>
      have hrep := h.reported_of_missing (List.mem_of_getElem? hw) hpc hpc' hl
      exact ⟨hwk.writers, hrep.mono hsub⟩
  | read hpc' hl =>
      rw [hpc'] at hpcr
      exact ⟨hwk.writers, fun name hname => hpcr name (List.mem_cons_of_mem _ hname)⟩
  | reduce hpc' horder =>
      refine ⟨?_, _, List.mem_cons_self, rfl⟩
      intro wr hwr hd
      rw [List.mem_singleton.mp hwr] at hd
      cases hd
  | reduceDone hpc' hj =>
      rw [hpc'] at hpcr
      exact ⟨by simp, hwk.joined hj hpcr⟩
  | remove hpc' =>
      rw [hpc'] at hpcr
      exact ⟨hwk.writers, hpcr⟩
  | deleted hpc' =>
      rw [hpc'] at hpc hpcr
      obtain ⟨r, hr, -⟩ := hpc
      refine ⟨hwk.writers, reported_reduce hr ?_⟩
      rw [hr.2] at hpcr
      exact hpcr
  | sort hi hstage hs => exact hwk.setStage hi (by simp)
  | create hi hstage hn => exact hwk.setStage hi (by simp)
  | part t hi hstage => exact hwk.setStage hi (by simp)
  | write hi hstage => exact hwk.setStage hi (by simp)
  | close hi hstage => exact hwk.setStage hi (by simp)
  | rename hi hstage =>
      refine hwk.setStage hi (fun _ => List.mem_append_right _ ?_)
      obtain ⟨-, c, hc, -⟩ := stageOk_of_getElem? (hdir.writers w wk hw) hi hstage
      rw [DiskOp.events, if_pos (mem_disk_iff.mpr ⟨c, hc⟩)]
      exact List.mem_singleton_self _
  | crash => exact ⟨by simp, trivial⟩
  | fail hi hdone hrename => exact hwk.setStage hi (fun _ => hsub (hfail.renamed hw hi))
  | failRename hi hstage => exact hwk.setStage hi (fun _ => hsub (hfail.renamed hw hi))
  | failMap hpc' =>
      rw [hpc'] at hpc
      exact ⟨hwk.writers, (hfail.reported_map hw hpc' hpc).mono hsub⟩
  | failReduce hpc' =>
      rw [hpc'] at hpc
      obtain ⟨r, hr, -⟩ := hpc
      exact ⟨hwk.writers, (hfail.reported_reduce hw hpc' hr).mono hsub⟩
  | failRemove hpc' =>
      rw [hpc'] at hpcr
      exact ⟨hwk.writers, hpcr⟩

/-! ### Files that are there, and files that are gone -/

theorem ReportsOk.present_step {out : ℕ → Content → Prop} {s : State} {wk wk' : Worker}
    {op : DiskOp} (h : ReportsOk job s) (hm : Moved job out s.disk wk wk' op) {name : String}
    {r : ℕ} (hname : globMatch (bucketPattern r).toList name.toList = true)
    (hren : .renamed name ∈ s.log ++ op.events s.disk) :
    name ∈ op.apply s.disk ∨ .removed name ∈ s.log ++ op.events s.disk := by
  have htmp := ne_tmpName_of_match hname
  by_cases ht : op.Touches name
  · obtain rfl | ⟨n, c, rfl⟩ | ⟨n, new, c, rfl, hl⟩ | ⟨x, rfl⟩ := hm.op_cases
    · cases ht
    · exact absurd ht (htmp n)
    · rcases ht with ht | ht
      · exact absurd ht (htmp n)
      · exact Or.inl (mem_disk_iff.mpr ⟨c, ht ▸ DiskOp.lookup_rename hl⟩)
    · obtain rfl : name = x := ht
      by_cases hin : name ∈ s.disk
      · refine Or.inr (List.mem_append_right _ ?_)
        rw [DiskOp.events, if_pos hin]
        exact List.mem_singleton_self _
      · rw [DiskOp.events, if_neg hin, List.append_nil] at hren ⊢
        rcases h.present name r hname hren with hin' | hrem
        · exact absurd hin' hin
        · exact Or.inr hrem
  · have hold : .renamed name ∈ s.log := by
      rcases List.mem_append.mp hren with hren | hren
      · exact hren
      · exact absurd (DiskOp.touches_of_renamed hren) ht
    rcases h.present name r hname hold with hin | hrem
    · obtain ⟨c, hc⟩ := mem_disk_iff.mp hin
      exact Or.inl (mem_disk_iff.mpr ⟨c, (DiskOp.lookup_apply ht).trans hc⟩)
    · exact Or.inr (List.mem_append_left _ hrem)

theorem Worker.Stepped.remove_cases {disk : Disk} {wk wk' : Worker} {a : Worker.Action}
    {name : String} (h : Worker.Stepped job disk wk a wk' (.remove name)) :
    (∃ task todo, wk.pc = .delete task (name :: todo)) ∨ ∃ n, name = tmpName n := by
  cases h with
  | remove hpc => exact Or.inl ⟨_, _, hpc⟩
  | failRename hw hstage => exact Or.inr ⟨_, rfl⟩

/-- A worker removes the files of a reduce task after the output has been written. -/
theorem ReportsOk.removed_step {out : ℕ → Content → Prop} {s : State} {w : ℕ} {wk wk' : Worker}
    {a : Worker.Action} {op : DiskOp} (h : ReportsOk job s) (hdir : DirOk job out s)
    (hpc : PcOk job wk.pc) (hw : s.workers[w]? = some wk)
    (hstep : Worker.Stepped job s.disk wk a wk' op) {name : String} {r : ℕ}
    (hname : globMatch (bucketPattern r).toList name.toList = true)
    (hrem : .removed name ∈ op.events s.disk) : .renamed (outName r) ∈ s.log := by
  obtain ⟨rfl, hin⟩ := DiskOp.remove_of_removed hrem
  obtain ⟨task, todo, hdel⟩ | ⟨n, rfl⟩ := hstep.remove_cases
  · have hold := (h.workers wk (List.mem_of_getElem? hw)).pc
    unfold PcReports at hold
    rw [hdel] at hpc hold
    obtain ⟨r', ⟨-, rfl⟩, hmatch⟩ := hpc
    obtain ⟨c, hc⟩ := mem_disk_iff.mp hin
    obtain ⟨k, _, _, hk, -⟩ := hdir.bucket_of_match hc hname
    have hm := hmatch name List.mem_cons_self
    rw [hk] at hm
    exact bucketPattern_bucketName.mp hm ▸ hold
  · exact absurd rfl (ne_tmpName_of_match hname n)

/-! ### A step of the system -/

theorem done_of_effect {reported : Option String} {c c' : Coordinator} {P : String → Prop}
    (heff : Process.Effect reported c c') (hold : ∀ t ∈ c.tasks, t.status = .done → P t.id)
    (hrep : ∀ id, reported = some id → P id) : ∀ t ∈ c'.tasks, t.status = .done → P t.id := by
  intro t' ht' hd
  obtain ⟨t, ht, hev⟩ := exists_of_forall₂ heff.tasks ht'
  rw [hev.same.id]
  rcases hev.of_done hd with hd | hr
  · exact hold t ht hd
  · exact hrep t.id hr

/-- A worker goes on without touching a file. -/
theorem ReportsOk.become {s : State} {w : ℕ} {wk : Worker} (h : ReportsOk job s)
    (hwk : WorkerReports job s.log wk) : ReportsOk job (s.become w wk) := by
  exact ⟨forall_mem_set h.workers hwk, h.requests, h.replies, h.done, h.present, h.removed⟩

theorem ReportsOk.send {s : State} {msg : Msg} (h : ReportsOk job s)
    (hmsg : ∀ args, msg = .updateTask args → Reported job s.log args.taskId) :
    ReportsOk job (s.send msg) := by
  refine ⟨h.workers, ?_, h.replies, h.done, h.present, h.removed⟩
  intro q hq args hargs
  rcases List.mem_append.mp hq with hq | hq
  · exact h.requests q hq args hargs
  · rw [List.mem_singleton.mp hq] at hargs
    exact hmsg args hargs

/-- A reduce task is handed out when all map tasks are done. -/
theorem mapsWritten_of_getTask {c : Coordinator} (hc : CoordinatorOk job.files job.nReduce c)
    (hdone : ∀ t ∈ c.tasks, t.status = .done → Reported job log t.id) (workerId : String)
    (now : ℤ) (htype : (c.getTask workerId now).2.1.type = .reduce) : MapsWritten job log := by
  have hgot := gotTask c workerId now
  generalize c.getTask workerId now = res at hgot htype
  cases hgot with
  | exit hphase => cases htype
  | wait hphase hnone => cases htype
  | task hphase ht htype' hs =>
      refine mapsWritten_of_done hc hdone (hc.phase.maps (Or.inl ?_))
      by_contra hne
      rw [if_neg hne] at htype'
      rw [htype'] at htype
      cases htype

theorem ReportsOk.serve {s : State} {k : ℕ} {q : Request} (h : ReportsOk job s)
    (hc : CoordinatorOk job.files job.nReduce s.proc.coord) (hq : q ∈ s.requests)
    (hdone : (Process.Action.serve q.msg).ReportsDone) : ReportsOk job (s.serve k q) := by
  refine ⟨h.workers, ?_, ?_, ?_, h.present, h.removed⟩
  · intro q' hq' args hargs
    exact h.requests q' (List.mem_of_mem_eraseIdx hq') args hargs
  · intro p hp task htask htype
    rcases List.mem_append.mp hp with hp | hp
    · exact h.replies p hp task htask htype
    · rw [List.mem_singleton] at hp
      subst hp
      obtain ⟨call, msg⟩ := q
      cases msg with
      | ping workerId => cases htask
      | updateTask args => cases htask
      | getTask workerId =>
          simp only [Process.serve, Reply.getTask.injEq] at htask
          rw [← htask] at htype
          exact mapsWritten_of_getTask hc h.done workerId s.proc.now htype
  · have hstep : s.proc.step (.serve q.msg) = some (s.proc.serve q.msg).1 := rfl
    refine done_of_effect (Process.step_effect hdone hstep) h.done ?_
    intro id hid
    obtain ⟨call, msg⟩ := q
    cases msg with
    | ping workerId => cases hid
    | getTask workerId => cases hid
    | updateTask args =>
        cases hid
        exact h.requests _ hq args rfl

theorem WorkerReports.dispatch {wk : Worker} {task : GetTaskOut} (h : WorkerReports job log wk)
    (ht : MapIssued job task ∨ (∃ r, ReduceIssued job r task) ∨ task.type = .wait ∨
      task.type = .exit) (hmaps : task.type = .reduce → MapsWritten job log) :
    WorkerReports job log (wk.dispatch task) := by
  refine ⟨h.writers, ?_⟩
  unfold PcReports
  rw [Worker.dispatch_pc, Worker.dispatchTo]
  cases htype : task.type with
  | exit => trivial
  | wait => trivial
  | map => trivial
  | reduce => exact hmaps htype
  | unset =>
      rcases ht with ⟨k, f, -, rfl⟩ | ⟨r, -, rfl⟩ | ht | ht
      · cases htype
      · cases htype
      · rw [ht] at htype
        cases htype
      · rw [ht] at htype
        cases htype

/-- A worker sends what it has to say; of `markAsDone` it says only what is true. -/
theorem ReportsOk.call {s : State} {w : ℕ} {wk wk' : Worker} {msg : Msg} (h : ReportsOk job s)
    (hw : s.workers[w]? = some wk) (hreq : wk.request s.calls = some (msg, wk')) :
    ReportsOk job ((s.send msg).become w wk') := by
  have hwk := h.workers wk (List.mem_of_getElem? hw)
  obtain ⟨-, rfl, rfl⟩ | ⟨taskId, hpc, rfl, rfl⟩ := Worker.request_cases hreq
  · refine (h.send ?_).become ⟨hwk.writers, trivial⟩
    intro args hargs
    cases hargs
  · refine (h.send ?_).become ⟨hwk.writers, trivial⟩
    intro args hargs
    cases hargs
    have hold := hwk.pc
    unfold PcReports at hold
    rw [hpc] at hold
    exact hold

theorem ReportsOk.work {out : ℕ → Content → Prop} {s : State} {w : ℕ} {wk wk' : Worker}
    {a : Worker.Action} {op : DiskOp} (h : ReportsOk job s) (hdir : DirOk job out s)
    (hpc : PcOk job wk.pc) (hout : Outputs job out wk) (hw : s.workers[w]? = some wk)
    (hfail : Harmless s (.work w a)) (hstep : Worker.Stepped job s.disk wk a wk' op) :
    ReportsOk job ((s.become w wk').perform op) := by
  have hsub : s.log ⊆ s.log ++ op.events s.disk := List.subset_append_left _ _
  have hown := WorkerReports.step h hdir hpc hw hfail hstep
  have hmoved := hstep.moved hdir.inputs hpc (hdir.writers w wk hw) hout
  refine ⟨?_, ?_, ?_, ?_, ?_, ?_⟩
  · exact forall_mem_set (fun x hx => (h.workers x hx).mono hsub) hown
  · intro q hq args hargs
    exact (h.requests q hq args hargs).mono hsub
  · intro p hp task htask htype
    exact (h.replies p hp task htask htype).mono hsub
  · intro t ht hd
    exact (h.done t ht hd).mono hsub
  · intro name r hname hren
    exact h.present_step hmoved hname hren
  · intro name r hname hrem
    refine hsub ?_
    rcases List.mem_append.mp hrem with hrem | hrem
    · exact h.removed name r hname hrem
    · exact h.removed_step hdir hpc hw hstep hname hrem

theorem ReportsOk.step {out : ℕ → Content → Prop} {s s' : State} {a : Action}
    (h : ReportsOk job s) (hdir : DirOk job out s) (htasks : TasksOk job s)
    (hc : CoordinatorOk job.files job.nReduce s.proc.coord)
    (hdone : ∀ q ∈ s.requests, (Process.Action.serve q.msg).ReportsDone)
    (hout : ∀ wk ∈ s.workers, Outputs job out wk) (hfail : Harmless s a)
    (hstep : Stepped job s a s') : ReportsOk job s' := by
  cases hstep with
  | @coord a p ha hp =>
      obtain ⟨hrep, hnone⟩ := Process.Action.reported_of_ne_serve ha
      refine ⟨h.workers, h.requests, h.replies, ?_, h.present, h.removed⟩
      refine done_of_effect (Process.step_effect hrep hp) h.done ?_
      intro id hid
      rw [hnone] at hid
      cases hid
  | start workerId =>
      refine ⟨?_, h.requests, h.replies, h.done, h.present, h.removed⟩
      intro wk hwk
      rcases List.mem_append.mp hwk with hwk | hwk
      · exact h.workers wk hwk
      · rw [List.mem_singleton.mp hwk]
        exact ⟨by simp, trivial⟩
  | ping hw hpc =>
      refine h.send ?_
      intro args hargs
      cases hargs
  | call hw hreq => exact h.call hw hreq
  | serve hq =>
      have hmem := List.mem_of_getElem? hq
      exact h.serve hc hmem (hdone _ hmem)
  | callTrue hw hp hrec =>
      have hwk := h.workers _ (List.mem_of_getElem? hw)
      have hmem := List.mem_of_getElem? hp
      obtain ⟨task, -, htask, rfl⟩ | ⟨-, rfl⟩ := Worker.receive_cases hrec
      · exact h.become
          (hwk.dispatch (htasks.replies _ hmem task htask) (h.replies _ hmem task htask))
      · exact h.become ⟨hwk.writers, trivial⟩
  | callFalse hw hf =>
      have hwk := h.workers _ (List.mem_of_getElem? hw)
      obtain ⟨call, -, rfl⟩ | ⟨call, -, rfl⟩ := Worker.callFailed_cases hf
      · exact h.become ⟨hwk.writers, reported_empty⟩
      · exact h.become ⟨hwk.writers, trivial⟩
  | work hw hwork =>
      have hmem := List.mem_of_getElem? hw
      exact h.work hdir (htasks.pcs _ hmem) (hout _ hmem) hw hfail hwork

theorem reportsOk_init : ReportsOk job (State.init job) where
  workers := by
    intro wk hwk
    cases hwk
  requests := by
    intro q hq
    cases hq
  replies := by
    intro p hp
    cases hp
  done := by
    intro t ht hd
    obtain ⟨k, f, -, rfl⟩ | ⟨r, -, rfl⟩ := mem_createTasks ht
    · cases hd
    · cases hd
  present := by
    intro name r _ hren
    cases hren
  removed := by
    intro name r _ hrem
    cases hrem

/-- In every run the files that match a pattern are complete buckets, whatever the outputs are. -/
theorem reachable_dirOk_any {C : State → Action → Prop} {s : State}
    (h : (system job).ReachableBy C s) : DirOk job (fun _ _ => True) s :=
  reachable_dirOk h (fun _ _ _ _ _ _ _ _ _ _ => trivial)

theorem reachable_reportsOk {C : State → Action → Prop} (hC : ∀ s a, C s a → Harmless s a)
    {s : State} (h : (system job).ReachableBy C s) : ReportsOk job s := by
  refine h.invariant (I := ReportsOk job) reportsOk_init ?_
  intro s a s' hr ih hca hstep
  exact ih.step (reachable_dirOk_any hr) (reachable_tasksOk hr)
    (reachable_coordinatorOk (reachable_proc hr)) (reachable_reportsDone hr)
    (fun _ _ _ _ _ _ _ _ => trivial) (hC s a hca) (State.step_cases hstep)

end

end DistributedSystems.MapReduce
