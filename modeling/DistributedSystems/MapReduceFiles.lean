import DistributedSystems.Decimal
import DistributedSystems.Glob

/-! # The files of MapReduce

The names of the intermediate files, of the output files and of the temporary files, and the pattern
by which a reduce task finds its input.  The names do not clash, and the pattern of the reduce task
`r` matches the `r`-th bucket of every map task and no other file.  That holds for every id that
`TaskId.get` can give (`patterns_select_buckets`), also those with a sign, after its counter has
overflowed. -/

namespace DistributedSystems.MapReduce

/-- `fmt.Sprintf("mr-%s-%d.json", taskId, i)`. -/
def bucketName (taskId : String) (i : ℕ) : String := "mr-" ++ taskId ++ "-" ++ toString i ++ ".json"

/-- `fmt.Sprintf("mr-*-%d.json", i)`. -/
def bucketPattern (i : ℕ) : String := "mr-*-" ++ toString i ++ ".json"

/-- `"mr-out-" + strconv.Itoa(i)`. -/
def outName (i : ℕ) : String := "mr-out-" ++ toString i

/-- The `k`-th name that `os.CreateTemp("./", "tmp")` gives. -/
def tmpName (k : ℕ) : String := "tmp" ++ toString k

/-- `filepath.Glob`: the names in a directory that a pattern matches, sorted. -/
def glob (pattern : String) (names : List String) : List String :=
  (names.filter (fun name => globMatch pattern.toList name.toList)).insertionSort (· ≤ ·)

theorem glob_perm (pattern : String) (names : List String) : (glob pattern names).Perm
    (names.filter (fun name => globMatch pattern.toList name.toList)) :=
  List.perm_insertionSort _ _

/-! ### Names -/

theorem toList_bucketName (taskId : String) (i : ℕ) : (bucketName taskId i).toList =
    "mr-".toList ++ (taskId.toList ++ '-' :: ((toString i).toList ++ ".json".toList)) := by
  simp [bucketName]

/-- The last dash of a name comes right before the index of the bucket. -/
theorem names_cancel {x y : List Char} {i j : ℕ}
    (h : "mr-".toList ++ (x ++ '-' :: ((toString i).toList ++ ".json".toList)) =
      "mr-".toList ++ (y ++ '-' :: ((toString j).toList ++ ".json".toList))) : x = y ∧ i = j := by
  have h := List.append_cancel_left h
  rw [← List.cons_append, ← List.cons_append, ← List.append_assoc, ← List.append_assoc] at h
  have h := List.append_cancel_right h
  obtain ⟨hxy, hij⟩ := append_cons_inj_of_not_mem (not_mem_toString (by decide))
    (not_mem_toString (by decide)) h
  exact ⟨hxy, toString_injective (String.toList_injective hij)⟩

/-- A name determines the task, whatever its id, and the bucket. -/
theorem eq_of_bucketName_eq {t t' : String} {i j : ℕ} (h : bucketName t i = bucketName t' j) :
    t = t' ∧ i = j := by
  have h := congrArg String.toList h
  rw [toList_bucketName, toList_bucketName] at h
  obtain ⟨ht, hij⟩ := names_cancel h
  exact ⟨String.toList_injective ht, hij⟩

theorem bucketName_inj {k m i j : ℕ} (h : bucketName (toString k) i = bucketName (toString m) j) :
    k = m ∧ i = j := by
  obtain ⟨ht, hij⟩ := eq_of_bucketName_eq h
  exact ⟨toString_injective ht, hij⟩

theorem outName_inj {i j : ℕ} (h : outName i = outName j) : i = j := by
  have h := congrArg String.toList h
  simp only [outName, String.toList_append] at h
  exact toString_injective (String.toList_injective (List.append_cancel_left h))

theorem tmpName_inj {i j : ℕ} (h : tmpName i = tmpName j) : i = j := by
  have h := congrArg String.toList h
  simp only [tmpName, String.toList_append] at h
  exact toString_injective (String.toList_injective (List.append_cancel_left h))

theorem tmpName_ne_bucketName (j : ℕ) (taskId : String) (i : ℕ) :
    tmpName j ≠ bucketName taskId i := by
  intro h
  have h := congrArg String.toList h
  rw [toList_bucketName] at h
  simp [tmpName] at h

theorem tmpName_ne_outName (j i : ℕ) : tmpName j ≠ outName i := by
  intro h
  have h := congrArg String.toList h
  simp [tmpName, outName] at h

theorem getLast?_bucketName (taskId : String) (i : ℕ) :
    (bucketName taskId i).toList.getLast? = some 'n' := by
  rw [bucketName, String.toList_append, List.getLast?_append_of_ne_nil _ (by simp)]
  rfl

/-- An output file has no name of a bucket: it ends with its number. -/
theorem output_ne_bucketName {number : String} (h : 'n' ∉ number.toList) (taskId : String) (j : ℕ) :
    "mr-out-" ++ number ≠ bucketName taskId j := by
  intro hname
  have hl := getLast?_bucketName taskId j
  rw [← hname, String.toList_append] at hl
  rcases List.mem_append.mp (List.mem_of_getLast? hl) with hmem | hmem
  · exact absurd hmem (by decide)
  · exact h hmem

theorem outName_ne_bucketName (i : ℕ) (taskId : String) (j : ℕ) :
    outName i ≠ bucketName taskId j :=
  output_ne_bucketName (not_mem_toString (by decide)) taskId j

/-! ### The pattern of a reduce task -/

theorem bucketPattern_iff {r : ℕ} {name : String} :
    globMatch (bucketPattern r).toList name.toList = true ↔
      ∃ mid, name.toList = "mr-".toList ++ (mid ++ '-' :: ((toString r).toList ++ ".json".toList)) ∧
        '/' ∉ mid := by
  have hp : (bucketPattern r).toList =
      "mr-".toList ++ '*' :: ('-' :: ((toString r).toList ++ ".json".toList)) := by
    simp [bucketPattern]
  rw [hp, globMatch_star_iff (by decide)]
  simp only [List.mem_cons, List.mem_append, not_or]
  exact ⟨by decide, not_mem_toString (by decide), by decide⟩

/-- What the pattern matches is a name of a bucket, if not of a task that there is. -/
theorem exists_bucketName_of_match {r : ℕ} {name : String}
    (h : globMatch (bucketPattern r).toList name.toList = true) : ∃ t, name = bucketName t r := by
  obtain ⟨mid, h, -⟩ := bucketPattern_iff.mp h
  refine ⟨String.ofList mid, String.toList_injective ?_⟩
  rw [h, toList_bucketName, String.toList_ofList (l := mid)]

/-- The pattern of the reduce task `r` matches the `r`-th buckets only. -/
theorem bucketPattern_iff_eq {t : String} (ht : '/' ∉ t.toList) {i r : ℕ} :
    globMatch (bucketPattern r).toList (bucketName t i).toList = true ↔ i = r := by
  constructor
  · intro h
    obtain ⟨t', h⟩ := exists_bucketName_of_match h
    exact (eq_of_bucketName_eq h).2
  · rintro rfl
    exact bucketPattern_iff.mpr ⟨t.toList, toList_bucketName t i, ht⟩

theorem bucketPattern_bucketName {k i r : ℕ} :
    globMatch (bucketPattern r).toList (bucketName (toString k) i).toList = true ↔ i = r :=
  bucketPattern_iff_eq (not_mem_toString (by decide))

theorem bucketPattern_output {number : String} (h : 'n' ∉ number.toList) (r : ℕ) :
    globMatch (bucketPattern r).toList ("mr-out-" ++ number).toList = false := by
  rw [Bool.eq_false_iff]
  intro hm
  obtain ⟨t, hname⟩ := exists_bucketName_of_match hm
  exact output_ne_bucketName h t r hname

theorem bucketPattern_outName (r i : ℕ) :
    globMatch (bucketPattern r).toList (outName i).toList = false :=
  bucketPattern_output (not_mem_toString (by decide)) r

theorem ne_tmpName_of_match {r : ℕ} {name : String}
    (h : globMatch (bucketPattern r).toList name.toList = true) (n : ℕ) : name ≠ tmpName n := by
  obtain ⟨t, rfl⟩ := exists_bucketName_of_match h
  exact (tmpName_ne_bucketName n t r).symm

theorem ne_outName_of_match {r : ℕ} {name : String}
    (h : globMatch (bucketPattern r).toList name.toList = true) (i : ℕ) : name ≠ outName i := by
  obtain ⟨t, rfl⟩ := exists_bucketName_of_match h
  exact (outName_ne_bucketName i t r).symm

/-! ### The ids of the tasks -/

/-- The generator of the task ids.  Its counter is an `int`, which may overflow. -/
structure TaskId where
  taskCounter : Int64
deriving DecidableEq, Repr

/-- `strconv.Itoa`. -/
def itoa (n : Int64) : String := toString n.toInt

/-- The next id and the generator after the call. -/
def TaskId.get (t : TaskId) : String × TaskId :=
  let taskCounter := t.taskCounter + 1
  (itoa taskCounter, ⟨taskCounter⟩)

theorem itoa_ofNat {n : ℕ} (h : n < 2 ^ 63) : itoa (Int64.ofNat n) = toString n := by
  rw [itoa, Int64.toInt_ofNat_of_lt h]
  rfl

theorem not_mem_itoa {n : Int64} {c : Char} (h : c.isDigit = false) (hsign : c ≠ '-') :
    c ∉ (itoa n).toList :=
  not_mem_toString_int h hsign

/-- As long as the counter does not overflow the ids are the numerals from `1` on. -/
theorem TaskId.get_ofNat {n : ℕ} (h : n + 1 < 2 ^ 63) :
    TaskId.get ⟨Int64.ofNat n⟩ = (toString (n + 1), ⟨Int64.ofNat (n + 1)⟩) := by
  have hnext : Int64.ofNat n + 1 = Int64.ofNat (n + 1) := (Int64.ofNat_add n 1).symm
  rw [TaskId.get, hnext, itoa_ofNat h]

/-- The names of the buckets of the tasks that the generator numbers: the pattern of a reduce task
matches those of its index and no output file, and no two of them are the same. -/
theorem patterns_select_buckets (t t' : TaskId) (i j : ℕ) :
    (globMatch (bucketPattern j).toList (bucketName t.get.1 i).toList = true ↔ i = j) ∧
    ((t.get.1, i) ≠ (t'.get.1, j) → bucketName t.get.1 i ≠ bucketName t'.get.1 j) ∧
    (∀ r, globMatch (bucketPattern j).toList (outName r).toList = false) ∧
    ∀ r : Int64, globMatch (bucketPattern j).toList ("mr-out-" ++ itoa r).toList = false := by
  -- An id has no separator in it, also when the counter has overflowed and the id has a sign.
  have hid : '/' ∉ t.get.1.toList := not_mem_itoa (by decide) (by decide)
  refine ⟨bucketPattern_iff_eq hid, ?_, bucketPattern_outName j, ?_⟩
  · intro hne hname
    obtain ⟨ht, hij⟩ := eq_of_bucketName_eq hname
    exact hne (Prod.ext ht hij)
  · intro r
    exact bucketPattern_output (not_mem_itoa (by decide) (by decide)) j

/-- The bucket `11` of task `1` is none of the bucket `1`, and neither is the bucket `0` of a task
whose id ends in `-1`. -/
example : globMatch (bucketPattern 1).toList (bucketName (TaskId.get ⟨0⟩).1 11).toList = false ∧
    globMatch (bucketPattern 1).toList (bucketName (TaskId.get ⟨-2⟩).1 0).toList = false := by
  decide

end DistributedSystems.MapReduce
