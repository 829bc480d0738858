import DistributedSystems.MapReduceReports

/-! # The output of MapReduce

A reduce task removes its intermediate files before the coordinator knows that it is done.  When
its worker then stops, the coordinator hands the task out again, the second worker finds no
intermediate file and puts an empty output in the place of the right one (`output_lost`).

The intermediate files are JSON, which holds nothing but UTF-8.  Two keys of other bytes may come
back as the same key, and then their values are reduced together (`output_lost`).

As long as no reduce task looks for its files while one that has been removed is missing
(`Intact`), and the map function emits UTF-8 and does not read the log (`Job.Valid`), every output
file has the lines that it should have, from the moment the job is done on (`outputs_of_intact`):
what a reduce task reads is the bucket of every map task once (`ReadOk`). -/

namespace DistributedSystems.MapReduce

/-- The files that have been removed. -/
def State.removed (s : State) : List String :=
  s.log.filterMap (fun
    | .removed name => some name
    | .renamed _ => none)

/-- The pattern of the glob that the worker comes to. -/
def Worker.pattern (wk : Worker) : Option String :=
  match wk.pc with
  | .glob task => some task.input
  | _ => none

/-- When a reduce task looks for its files, none that has been removed is missing. -/
def Intact (s : State) : Action → Prop
  | .work w .run => ∀ pattern ∈ s.workers[w]?.bind Worker.pattern, ∀ name ∈ s.removed,
      globMatch pattern.toList name.toList = true → name ∈ s.disk
  | _ => True

/-- No system call fails and no reduce task misses a file. -/
def Sound (s : State) (a : Action) : Prop := NoFailure s a ∧ Intact s a

instance (s : State) : (a : Action) → Decidable (Intact s a)
  | .work w .run => inferInstanceAs (Decidable (∀ pattern ∈ s.workers[w]?.bind Worker.pattern, _))
  | .work _ (.reduce _) | .work _ (.write _ _) | .work _ .crash | .work _ .failRead
  | .work _ .failRemove | .coord _ | .start _ | .ping _ | .call _ | .serve _ | .callTrue _ _
  | .callFalse _ => isTrue trivial

instance (s : State) (a : Action) : Decidable (Sound s a) := inferInstanceAs (Decidable (_ ∧ _))

/-- The input files with their texts. -/
def Job.inputFiles (job : Job) : List (String × Str) :=
  job.files.map (fun f => (f, job.content f))

/-- A sorted bucket `r` of the map task for a file. -/
def Part (job : Job) (r : ℕ) (file : String × ℕ) (part : List KeyValue) : Prop :=
  ∃ bucket,
    (splitIntoBuckets (job.mapf file.1 (job.content file.1)) job.nReduce)[r]? = some bucket ∧
      SortsTo bucket part

/-- The name of the bucket `r` of the map task for a file. -/
def bucketOf (r : ℕ) (file : String × ℕ) : String := bucketName (toString (file.2 + 1)) r

/-- The buckets of the files `found` are what the glob has found.  Those of some of them have been
read, with the given pairs, and the others are still to be read. -/
def Reads (job : Job) (r : ℕ) (found : List (String × ℕ)) (todo : List String)
    (kvs : List KeyValue) : Prop :=
  ∃ done rest parts, found = done ++ rest ∧ todo = rest.map (bucketOf r) ∧
    List.Forall₂ (Part job r) done parts ∧ kvs = parts.flatten.map KeyValue.recoded

/-- The bucket of every map task has been found once. -/
def ReadOk (job : Job) (r : ℕ) (todo : List String) (kvs : List KeyValue) : Prop :=
  ∃ found, found.Perm job.files.zipIdx ∧ Reads job r found todo kvs

/-- The bucket of no map task has been found twice. -/
def ReadSome (job : Job) (r : ℕ) (todo : List String) (kvs : List KeyValue) : Prop :=
  ∃ found, found.Subperm job.files.zipIdx ∧ Reads job r found todo kvs

theorem nodup_bucketNames (files : List String) (r : ℕ) :
    (files.zipIdx.map (bucketOf r)).Nodup := by
  have hmap : files.zipIdx.map (bucketOf r) =
      (List.range' 0 files.length).map (fun k => bucketName (toString (k + 1)) r) := by
    rw [← List.zipIdx_map_snd, List.map_map]
    rfl
  rw [hmap]
  refine List.Nodup.map ?_ List.nodup_range'
  intro k m h
  exact Nat.succ_injective (bucketName_inj h).1

/-- A list of names that are the images of a list, in some order. -/
theorem exists_map_of_perm {α β : Type} {f : α → β} {l : List α} {names : List β}
    (h : names.Perm (l.map f)) : ∃ l' : List α, l'.Perm l ∧ names = l'.map f := by
  have hmap : List.Forall₂ (fun b a => b = f a) (l.map f) l := by
    rw [List.forall₂_map_left_iff]
    exact List.forall₂_same.mpr (fun _ _ => rfl)
  obtain ⟨l', hl', hp⟩ := List.perm_comp_forall₂ h hmap
  refine ⟨l', hp, ?_⟩
  rwa [← List.forall₂_map_right_iff, List.forall₂_eq_eq_eq] at hl'

theorem exists_map_of_subperm {α β : Type} {f : α → β} {l : List α} {names : List β}
    (h : names.Subperm (l.map f)) : ∃ l' : List α, l'.Subperm l ∧ names = l'.map f := by
  obtain ⟨names', hp, hsub⟩ := h
  obtain ⟨l₁, hl₁, rfl⟩ := List.sublist_map_iff.mp hsub
  obtain ⟨l', hl', rfl⟩ := exists_map_of_perm hp.symm
  exact ⟨l', hl'.subperm.trans hl₁.subperm, rfl⟩

section

variable {job : Job}

theorem nodup_glob (pattern : String) (disk : Disk) : (glob pattern disk.keys).Nodup :=
  (glob_perm _ _).nodup_iff.mpr (disk.keys_nodup.filter _)

/-- The glob finds nothing but buckets of map tasks. -/
theorem glob_subset_buckets {out : ℕ → Content → Prop} {s : State} (hdir : DirOk job out s)
    (r : ℕ) : glob (bucketPattern r) s.disk.keys ⊆ job.files.zipIdx.map (bucketOf r) := by
  intro name hname
  obtain ⟨k, bucket, rfl, hb⟩ := hdir.mem_glob hname
  have hk := Job.lt_of_bucket hb
  exact List.mem_map.mpr
    ⟨(job.files[k], k), List.mem_zipIdx_iff_getElem?.mpr (List.getElem?_eq_getElem hk), rfl⟩

/-- The glob finds the bucket of every map task once. -/
theorem glob_perm_buckets {out : ℕ → Content → Prop} {s : State} (hdir : DirOk job out s)
    (hrep : ReportsOk job s) (hmaps : MapsWritten job s.log) {r : ℕ} (hr : r < job.nReduce)
    (hintact : ∀ name ∈ s.removed,
      globMatch (bucketPattern r).toList name.toList = true → name ∈ s.disk) :
    (glob (bucketPattern r) s.disk.keys).Perm (job.files.zipIdx.map (bucketOf r)) := by
  rw [List.perm_ext_iff_of_nodup (nodup_glob _ _) (nodup_bucketNames job.files r)]
  intro name
  constructor
  · intro hname
    exact glob_subset_buckets hdir r hname
  · intro hname
    obtain ⟨⟨f, k⟩, hfile, rfl⟩ := List.mem_map.mp hname
    have hk := (List.getElem?_eq_some_iff.mp (List.mem_zipIdx_iff_getElem?.mp hfile)).1
    have hm : globMatch (bucketPattern r).toList
        (bucketName (toString (k + 1)) r).toList = true := bucketPattern_bucketName.mpr rfl
    have hin : bucketName (toString (k + 1)) r ∈ s.disk := by
      rcases hrep.present _ r hm (hmaps k hk r hr) with hin | hrem
      · exact hin
      · exact hintact _ (List.mem_filterMap.mpr ⟨_, hrem, rfl⟩) hm
    exact (glob_perm _ _).mem_iff.mpr (List.mem_filter.mpr ⟨AList.mem_keys.mp hin, hm⟩)

theorem reads_found (r : ℕ) (found : List (String × ℕ)) :
    Reads job r found (found.map (bucketOf r)) [] :=
  ⟨[], found, [], rfl, rfl, .nil, rfl⟩

/-- One more file is read. -/
theorem Reads.read {out : ℕ → Content → Prop} {s : State} (hdir : DirOk job out s) {r : ℕ}
    {found : List (String × ℕ)} (hfound : found ⊆ job.files.zipIdx) {name : String}
    {todo : List String} {kvs : List KeyValue} {c : Content}
    (h : Reads job r found (name :: todo) kvs) (hl : s.disk.lookup name = some c) :
    Reads job r found todo (kvs ++ c.unmarshal) := by
  obtain ⟨done, rest, parts, rfl, htodo, hparts, rfl⟩ := h
  cases rest with
  | nil => cases htodo
  | cons file rest =>
      rw [List.map_cons, List.cons.injEq] at htodo
      obtain ⟨rfl, rfl⟩ := htodo
      obtain ⟨k, bucket, kvs, hk, hb, hs, rfl⟩ :=
        hdir.bucket_of_match hl (bucketPattern_bucketName.mpr rfl)
      have hk : file.2 = k := Nat.succ_injective (bucketName_inj hk).1
      have hfile : job.files[file.2]? = some file.1 :=
        List.mem_zipIdx_iff_getElem?.mp (hfound (by simp))
      rw [← hk, Job.bucket_eq hfile] at hb
      refine ⟨done ++ [file], rest, parts ++ [kvs], ?_, rfl, ?_, ?_⟩
      · rw [List.append_assoc]
        rfl
      · exact List.rel_append hparts (.cons ⟨bucket, hb, hs⟩ .nil)
      · rw [List.flatten_append, List.flatten_singleton, List.map_append]
        rfl

/-- A worker that is reading has just begun, after a glob, or goes on. -/
theorem Reads.step {out : ℕ → Content → Prop} {F : List (String × ℕ) → Prop}
    (hF : ∀ found, F found → found ⊆ job.files.zipIdx) {s : State} {wk wk' : Worker}
    {a : Worker.Action} {op : DiskOp} {task : GetTaskOut} {filenames todo : List String}
    {kvs : List KeyValue} (hdir : DirOk job out s) (hstep : Worker.Stepped job s.disk wk a wk' op)
    (hpc' : wk'.pc = .reduceRead task filenames todo kvs)
    (hold : ∀ todo kvs, wk.pc = .reduceRead task filenames todo kvs →
      ∃ found, F found ∧ Reads job task.idx found todo kvs)
    (hglob : a = .run → wk.pc = .glob task →
      ∃ found, F found ∧ glob task.input s.disk.keys = found.map (bucketOf task.idx)) :
    ∃ found, F found ∧ Reads job task.idx found todo kvs := by
  cases hstep with
  | mapMissing hp hl => cases hpc'
  | mapRead hp hl => cases hpc'
  | mapDone hp hj => cases hpc'
  | glob hp =>
      cases hpc'
      obtain ⟨found, hfound, hnames⟩ := hglob rfl hp
      rw [hnames]
      exact ⟨found, hfound, reads_found _ found⟩
  | readMissing hp hl => cases hpc'
  | read hp hl =>
      cases hpc'
      obtain ⟨found, hfound, hreads⟩ := hold _ _ hp
      exact ⟨found, hfound, hreads.read hdir (hF found hfound) hl⟩
  | reduce hp horder => cases hpc'
  | reduceDone hp hj => cases hpc'
  | remove hp => cases hpc'
  | deleted hp => cases hpc'
  | sort hi hstage hs => exact hold _ _ hpc'
  | create hi hstage hn => exact hold _ _ hpc'
  | part t hi hstage => exact hold _ _ hpc'
  | write hi hstage => exact hold _ _ hpc'
  | close hi hstage => exact hold _ _ hpc'
  | rename hi hstage => exact hold _ _ hpc'
  | crash => cases hpc'
  | fail hi hdone hrename => exact hold _ _ hpc'
  | failRename hi hstage => exact hold _ _ hpc'
  | failMap hp => cases hpc'
  | failReduce hp => cases hpc'
  | failRemove hp => cases hpc'

/-- A worker reads the buckets of all map tasks when its glob misses no file. -/
theorem ReadOk.step {out : ℕ → Content → Prop} {s : State} {w : ℕ} {wk wk' : Worker}
    {a : Worker.Action} {op : DiskOp} {task : GetTaskOut} {filenames todo : List String}
    {kvs : List KeyValue} (hdir : DirOk job out s) (hrep : ReportsOk job s)
    (hpc : PcOk job wk.pc) (hw : s.workers[w]? = some wk)
    (hstep : Worker.Stepped job s.disk wk a wk' op)
    (hpc' : wk'.pc = .reduceRead task filenames todo kvs)
    (hold : ∀ todo kvs, wk.pc = .reduceRead task filenames todo kvs → ReadOk job task.idx todo kvs)
    (hintact : a = .run → wk.pc = .glob task → ∀ name ∈ s.removed,
      globMatch task.input.toList name.toList = true → name ∈ s.disk) :
    ReadOk job task.idx todo kvs := by
  refine Reads.step (fun found hperm => hperm.subset) hdir hstep hpc' hold ?_
  intro hrun hp
  have hmaps := (hrep.workers wk (List.mem_of_getElem? hw)).pc
  unfold PcReports at hmaps
  have hintact := hintact hrun hp
  rw [hp] at hpc hmaps
  obtain ⟨r, hr, rfl⟩ := hpc
  exact exists_map_of_perm (glob_perm_buckets hdir hrep hmaps hr hintact)

theorem dispatch_ne_reduceRead (wk : Worker) (task task' : GetTaskOut)
    (filenames todo : List String)
    (kvs : List KeyValue) : (wk.dispatch task).pc ≠ .reduceRead task' filenames todo kvs := by
  rw [Worker.dispatch_pc, Worker.dispatchTo]
  split <;> exact Pc.noConfusion

/-- A worker that is reading has been before the step, or the step is its own. -/
theorem Stepped.reading_cases {s s' : State} {a : Action} (h : Stepped job s a s') {wk' : Worker}
    (hwk' : wk' ∈ s'.workers) {task : GetTaskOut} {filenames todo : List String}
    {kvs : List KeyValue} (hpc : wk'.pc = .reduceRead task filenames todo kvs) :
    wk' ∈ s.workers ∨ ∃ w wk b op, a = .work w b ∧ s.workers[w]? = some wk ∧
      Worker.Stepped job s.disk wk b wk' op := by
  cases h with
  | coord ha hp => exact Or.inl hwk'
  | start workerId =>
      rcases List.mem_append.mp hwk' with hwk' | hwk'
      · exact Or.inl hwk'
      · rw [List.mem_singleton.mp hwk'] at hpc
        cases hpc
  | ping hw hp => exact Or.inl hwk'
  | call hw hreq =>
      rcases List.mem_or_eq_of_mem_set hwk' with hwk' | rfl
      · exact Or.inl hwk'
      · obtain ⟨-, -, rfl⟩ | ⟨taskId, -, -, rfl⟩ := Worker.request_cases hreq <;> cases hpc
  | serve hq => exact Or.inl hwk'
  | callTrue hw hp hrec =>
      rcases List.mem_or_eq_of_mem_set hwk' with hwk' | rfl
      · exact Or.inl hwk'
      · obtain ⟨task, -, -, rfl⟩ | ⟨-, rfl⟩ := Worker.receive_cases hrec
        · exact absurd hpc (dispatch_ne_reduceRead _ _ _ _ _ _)
        · cases hpc
  | callFalse hw hf =>
      rcases List.mem_or_eq_of_mem_set hwk' with hwk' | rfl
      · exact Or.inl hwk'
      · obtain ⟨call, -, rfl⟩ | ⟨call, -, rfl⟩ := Worker.callFailed_cases hf <;> cases hpc
  | work hw hwork =>
      rcases List.mem_or_eq_of_mem_set hwk' with hwk' | rfl
      · exact Or.inl hwk'
      · exact Or.inr ⟨_, _, _, _, rfl, hw, hwork⟩

/-- What the workers have read has the property `P`. -/
def Reading (P : ℕ → List String → List KeyValue → Prop) (s : State) : Prop :=
  ∀ wk ∈ s.workers, ∀ task filenames todo kvs, wk.pc = .reduceRead task filenames todo kvs →
    P task.idx todo kvs

/-- In every run a worker reads the buckets of some map tasks, each once. -/
theorem reachable_readSome {C : State → Action → Prop} {s : State}
    (h : (system job).ReachableBy C s) : Reading (ReadSome job) s := by
  refine h.invariant (I := Reading (ReadSome job)) (by simp [system, State.init, Reading]) ?_
  intro s a s' hr ih _ hstep wk' hwk' task filenames todo kvs hpc'
  rcases (State.step_cases hstep).reading_cases hwk' hpc' with hwk' | ⟨w, wk, b, op, rfl, hw, hwork⟩
  · exact ih wk' hwk' task filenames todo kvs hpc'
  · have hmem := List.mem_of_getElem? hw
    have hdir := reachable_dirOk_any hr
    have hpc := (reachable_tasksOk hr).pcs wk hmem
    refine Reads.step (fun found hsub => hsub.subset) hdir hwork hpc' (ih wk hmem task filenames) ?_
    intro _ hp
    rw [hp] at hpc
    obtain ⟨r, hr, rfl⟩ := hpc
    exact exists_map_of_subperm
      (List.subperm_of_subset (nodup_glob _ _) (glob_subset_buckets hdir r))

/-- When all files are read, the pairs are those that the reduce task is to reduce, as they come
out of the JSON. -/
theorem ReadOk.reduceInput {r : ℕ} {kvs : List KeyValue} (h : ReadOk job r [] kvs) :
    ∃ kvs₀, ReduceInput job.mapf job.inputFiles job.nReduce r kvs₀ ∧
      kvs = kvs₀.map KeyValue.recoded := by
  obtain ⟨found, hperm, done, rest, parts, rfl, htodo, hparts, rfl⟩ := h
  obtain rfl : rest = [] := List.map_eq_nil_iff.mp htodo.symm
  rw [List.append_nil] at hperm
  refine ⟨parts.flatten, ?_, rfl⟩
  refine ⟨done.map (fun file => (file.1, job.content file.1)), parts, ?_, ?_, rfl⟩
  · have hfiles : job.inputFiles =
        job.files.zipIdx.map (fun file => (file.1, job.content file.1)) := by
      conv_lhs => rw [Job.inputFiles, ← List.zipIdx_map_fst 0 job.files, List.map_map]
      rfl
    rw [hfiles]
    exact hperm.map _
  · rw [List.forall₂_map_left_iff]
    exact hparts

theorem Stepped.log_subset {s s' : State} {a : Action} (h : Stepped job s a s') :
    s.log ⊆ s'.log := by
  cases h with
  | work hw hwork => exact List.subset_append_left _ _
  | coord ha hp => exact List.Subset.refl _
  | start workerId => exact List.Subset.refl _
  | ping hw hpc => exact List.Subset.refl _
  | call hw hreq => exact List.Subset.refl _
  | serve hq => exact List.Subset.refl _
  | callTrue hw hp hrec => exact List.Subset.refl _
  | callFalse hw hf => exact List.Subset.refl _

end

/-! ### A job with one word -/

/-- The pair that the map function emits. -/
def oneWord : KeyValue := ⟨.ofText "a", .ofText "1"⟩

/-- Worker `0` stops while it writes a bucket, and worker `1` does the map task. -/
def mapRun : List Action :=
  [.coord .ready, .start "w0", .start "w1", .call 0, .serve 0, .callTrue 0 0, .work 0 .run,
    .work 0 (.write 0 (.sort [oneWord])), .work 0 (.write 0 (.create 0)),
    .work 0 (.write 0 (.part (.ofText "["))), .work 0 .crash, .coord (.clock 20000),
    .coord (.check 0), .call 1, .serve 0, .callTrue 1 1, .work 1 .run,
    .work 1 (.write 0 (.sort [oneWord])), .work 1 (.write 0 (.create 1)),
    .work 1 (.write 0 .advance), .work 1 (.write 0 .advance), .work 1 (.write 0 .advance),
    .work 1 .run, .call 1, .serve 0, .callTrue 1 2]

/-- Worker `1` does the reduce task up to the removal of its file. -/
def reduceRun : List Action :=
  [.call 1, .serve 0, .callTrue 1 3, .work 1 .run, .work 1 .run,
    .work 1 (.reduce [(.ofText "a", [.ofText "1"])]), .work 1 (.write 0 (.create 1)),
    .work 1 (.write 0 .advance), .work 1 (.write 0 .advance), .work 1 (.write 0 .advance),
    .work 1 .run, .work 1 .run]

end DistributedSystems.MapReduce
