import DistributedSystems.ByteString
import DistributedSystems.Grouping

/-! # The data path of MapReduce

What the workers of `mr/worker.go` compute from the pairs of the map function (hash partition into
buckets, grouping by a map, one record for every key) and what `main/mrsequential.go` computes
(one sort, then a scan over the runs of equal keys).

A Go string is any list of bytes.  `sort.Sort` gives any sorted permutation (`SortsTo`), and a Go
map is a list of entries with distinct keys that is iterated in any order.  Both programs print the
records of a grouping of the same pairs (`Groups`), so they print the same lines
(`data_path_eq_sequential`). -/

namespace DistributedSystems.MapReduce

structure KeyValue where
  key : Str
  value : Str
deriving DecidableEq, Repr

/-! ### The worker's functions -/

def space : UInt8 := 32

def newline : UInt8 := 10

/-- The hash of `fnv.New32a`. -/
def fnv32a (bytes : List UInt8) : UInt32 :=
  bytes.foldl (fun h b => (h ^^^ b.toUInt32) * 16777619) 2166136261

def ihash (key : Str) : ℕ := (fnv32a key &&& 0x7fffffff).toNat

/-- The pairs by the hash of their key.  With no buckets the first pair is a division by zero, and
the worker ends; here the result is empty. -/
def splitIntoBuckets (kvs : List KeyValue) (nBuckets : ℕ) : List (List KeyValue) :=
  kvs.foldl (fun buckets kv => buckets.modify (ihash kv.key % nBuckets) (· ++ [kv]))
    (List.replicate nBuckets [])

/-- `sorted` is a result of `sort.Sort(ByKey(kvs))`. -/
def SortsTo (kvs sorted : List KeyValue) : Prop :=
  sorted.Perm kvs ∧ sorted.Pairwise (fun a b => a.key ≤ b.key)

instance (kvs sorted : List KeyValue) : Decidable (SortsTo kvs sorted) :=
  inferInstanceAs (Decidable (_ ∧ _))

/-- One iteration of the loop of `groupValuesByKey`. -/
def addValue : List (Str × List Str) → KeyValue → List (Str × List Str)
  | [], kv => [(kv.key, [kv.value])]
  | g :: groups, kv =>
      if g.1 = kv.key then (g.1, g.2 ++ [kv.value]) :: groups else g :: addValue groups kv

def groupValuesByKey (kvs : List KeyValue) : List (Str × List Str) := kvs.foldl addValue []

/-- `fmt.Sprintf("%v %v\\n", key, result)`. -/
def record (key result : Str) : Str := key ++ [space] ++ result ++ [newline]

/-- `reduceValuesByKey` for a map that is iterated in the order of the list. -/
def reduceValuesByKey (reducef : Str → List Str → Str)
    (byKey : List (Str × List Str)) : Str :=
  byKey.foldl (fun output g => output ++ record g.1 (reducef g.1 g.2)) []

/-! ### The sequential program -/

/-- The loop of `mrsequential.go` over the sorted pairs. -/
def scan (reducef : Str → List Str → Str) : List KeyValue → Str
  | [] => []
  | kv :: rest =>
      record kv.key
        (reducef kv.key (kv.value :: (rest.takeWhile (·.key = kv.key)).map KeyValue.value)) ++
        scan reducef (rest.dropWhile (·.key = kv.key))
termination_by l => l.length
decreasing_by
  have := List.length_dropWhile_le (fun x => decide (x.key = kv.key)) rest
  simp only [List.length_cons]
  omega

/-- The pairs of all input files. -/
def emitted (mapf : String → Str → List KeyValue) (files : List (String × Str)) :
    List KeyValue :=
  files.flatMap (fun file => mapf file.1 file.2)

/-- The lines of a text. -/
def lines (text : Str) : List Str :=
  let pieces := text.splitOn newline
  if pieces.getLast? = some [] then pieces.dropLast else pieces

/-! ### Lines of records -/

theorem lines_append (a b : Str) :
    lines (a ++ [newline] ++ b) = lines (a ++ [newline]) ++ lines b := by
  have hsplit : ∀ xs : Str, (a ++ [newline] ++ xs).splitOn newline =
      a.splitOn newline ++ xs.splitOn newline := by
    intro xs
    rw [List.append_assoc, List.singleton_append]
    exact List.splitOnP_append_cons _ _ (by simp)
  have hend := hsplit []
  have hb : b.splitOn newline ≠ [] := List.splitOnP_ne_nil _ _
  rw [List.append_nil] at hend
  unfold lines
  rw [hsplit, hend]
  dsimp only
  rw [List.getLast?_append_of_ne_nil _ hb, List.splitOn_nil, List.getLast?_concat, if_pos rfl,
    List.dropLast_concat]
  split_ifs
  · exact List.dropLast_append_of_ne_nil hb
  · rfl

theorem lines_nil : lines [] = [] := by
  simp [lines]

theorem lines_flatten : ∀ {records : List Str}, (∀ r ∈ records, ∃ a, r = a ++ [newline]) →
    lines records.flatten = records.flatMap lines
  | [], _ => by simp [lines_nil]
  | r :: records, h => by
      obtain ⟨a, rfl⟩ := h r List.mem_cons_self
      have ih := lines_flatten (fun x hx => h x (List.mem_cons_of_mem _ hx))
      rw [List.flatten_cons, lines_append, ih, List.flatMap_cons]

theorem reduceValuesByKey_eq (reducef : Str → List Str → Str) (byKey : List (Str × List Str)) :
    reduceValuesByKey reducef byKey =
      (byKey.map (fun g => record g.1 (reducef g.1 g.2))).flatten := by
  have h : ∀ (l : List (Str × List Str)) (out : Str),
      l.foldl (fun output g => output ++ record g.1 (reducef g.1 g.2)) out =
        out ++ (l.map (fun g => record g.1 (reducef g.1 g.2))).flatten := by
    intro l
    induction l with
    | nil => simp
    | cons g l ih =>
        intro out
        rw [List.foldl_cons, ih, List.map_cons, List.flatten_cons, List.append_assoc]
  rw [reduceValuesByKey, h, List.nil_append]

theorem lines_reduceValuesByKey (reducef : Str → List Str → Str)
    (byKey : List (Str × List Str)) :
    lines (reduceValuesByKey reducef byKey) =
      (byKey.map (fun g => record g.1 (reducef g.1 g.2))).flatMap lines := by
  rw [reduceValuesByKey_eq, lines_flatten]
  intro r hr
  obtain ⟨g, -, rfl⟩ := List.mem_map.mp hr
  exact ⟨_, rfl⟩

/-! ### Both programs group the pairs -/

theorem map_fst_addValue (kv : KeyValue) : ∀ groups : List (Str × List Str),
    (addValue groups kv).map Prod.fst =
      if kv.key ∈ groups.map Prod.fst then groups.map Prod.fst
      else groups.map Prod.fst ++ [kv.key]
  | [] => by simp [addValue]
  | g :: groups => by
      have ih := map_fst_addValue kv groups
      by_cases hg : g.1 = kv.key
      · simp [addValue, hg]
      · rw [addValue, if_neg hg, List.map_cons, ih]
        by_cases hk : kv.key ∈ groups.map Prod.fst
        · rw [if_pos hk, if_pos (by simp only [List.map_cons, List.mem_cons, hk, or_true])]
          rfl
        · rw [if_neg hk, if_neg]
          · rfl
          · simp only [List.map_cons, List.mem_cons, not_or]
            exact ⟨Ne.symm hg, hk⟩

theorem mem_addValue {kv : KeyValue} : ∀ {groups : List (Str × List Str)},
    (groups.map Prod.fst).Nodup → ∀ {g : Str × List Str}, g ∈ addValue groups kv →
      (g.1 ≠ kv.key ∧ g ∈ groups) ∨
      (g.1 = kv.key ∧ ((kv.key ∉ groups.map Prod.fst ∧ g.2 = [kv.value]) ∨
        ∃ vs, (kv.key, vs) ∈ groups ∧ g.2 = vs ++ [kv.value]))
  | [], _, g, hg => by
      rw [addValue, List.mem_singleton] at hg
      subst hg
      exact Or.inr ⟨rfl, Or.inl ⟨by simp, rfl⟩⟩
  | g₀ :: groups, hn, g, hg => by
      rw [List.map_cons, List.nodup_cons] at hn
      rw [addValue] at hg
      split_ifs at hg with hk
      · rcases List.mem_cons.mp hg with rfl | hg
        · exact Or.inr ⟨hk, Or.inr ⟨g₀.2, by simp [← hk], rfl⟩⟩
        · refine Or.inl ⟨?_, List.mem_cons_of_mem _ hg⟩
          intro he
          exact hn.1 (List.mem_map.mpr ⟨g, hg, he.trans hk.symm⟩)
      · rcases List.mem_cons.mp hg with rfl | hg
        · exact Or.inl ⟨hk, List.mem_cons_self⟩
        · rcases mem_addValue hn.2 hg with ⟨hne, hmem⟩ | ⟨he, ⟨hnew, hv⟩ | ⟨vs, hvs, hv⟩⟩
          · exact Or.inl ⟨hne, List.mem_cons_of_mem _ hmem⟩
          · refine Or.inr ⟨he, Or.inl ⟨?_, hv⟩⟩
            rw [List.map_cons, List.mem_cons, not_or]
            exact ⟨Ne.symm hk, hnew⟩
          · exact Or.inr ⟨he, Or.inr ⟨vs, List.mem_cons_of_mem _ hvs, hv⟩⟩

theorem valuesOf_concat (l : List KeyValue) (kv : KeyValue) (k : Str) :
    valuesOf KeyValue.key KeyValue.value (l ++ [kv]) k =
      valuesOf KeyValue.key KeyValue.value l k ++ if kv.key = k then [kv.value] else [] := by
  rw [valuesOf, List.filter_append, List.map_append, valuesOf]
  by_cases hk : kv.key = k <;> simp [hk]

theorem valuesOf_eq_nil {l : List KeyValue} {k : Str} (h : k ∉ l.map KeyValue.key) :
    valuesOf KeyValue.key KeyValue.value l k = [] := by
  rw [valuesOf, List.map_eq_nil_iff, List.filter_eq_nil_iff]
  intro kv hkv he
  exact h (List.mem_map.mpr ⟨kv, hkv, by simpa using he⟩)

/-- One more pair, grouped. -/
theorem groups_addValue {l : List KeyValue} {groups : List (Str × List Str)}
    (h : Groups KeyValue.key KeyValue.value l groups) (kv : KeyValue) :
    Groups KeyValue.key KeyValue.value (l ++ [kv]) (addValue groups kv) where
  distinct := by
    rw [map_fst_addValue]
    split_ifs with hk
    · exact h.distinct
    · rw [List.nodup_append]
      refine ⟨h.distinct, List.nodup_singleton _, ?_⟩
      rintro a ha b hb rfl
      exact hk (List.mem_singleton.mp hb ▸ ha)
  keys := by
    intro k
    rw [map_fst_addValue, List.map_append, List.mem_append, List.map_singleton,
      List.mem_singleton, ← h.keys]
    split_ifs with hk
    · constructor
      · exact Or.inl
      · rintro (hm | rfl)
        · exact hm
        · exact hk
    · rw [List.mem_append, List.mem_singleton]
  values := by
    intro g hg
    rw [valuesOf_concat]
    rcases mem_addValue h.distinct hg with ⟨hne, hmem⟩ | ⟨he, ⟨hnew, hv⟩ | ⟨vs, hvs, hv⟩⟩
    · rw [if_neg (Ne.symm hne), List.append_nil]
      exact h.values g hmem
    · rw [if_pos he.symm, hv, he, valuesOf_eq_nil (mt (h.keys _).mpr hnew), List.nil_append]
    · rw [if_pos he.symm, hv, he]
      exact (h.values _ hvs).append_right _

theorem groups_groupValuesByKey (kvs : List KeyValue) :
    Groups KeyValue.key KeyValue.value kvs (groupValuesByKey kvs) := by
  induction kvs using List.reverseRecOn with
  | nil =>
      exact ⟨by simp [groupValuesByKey], by simp [groupValuesByKey], by simp [groupValuesByKey]⟩
  | append_singleton kvs kv ih =>
      rw [groupValuesByKey, List.foldl_append]
      exact groups_addValue ih kv

/-- The groups that the scan of the sequential program goes through. -/
def runs : List KeyValue → List (Str × List Str)
  | [] => []
  | kv :: rest =>
      (kv.key, kv.value :: (rest.takeWhile (·.key = kv.key)).map KeyValue.value) ::
        runs (rest.dropWhile (·.key = kv.key))
termination_by l => l.length
decreasing_by
  have := List.length_dropWhile_le (fun x => decide (x.key = kv.key)) rest
  simp only [List.length_cons]
  omega

theorem scan_eq (reducef : Str → List Str → Str) (l : List KeyValue) :
    scan reducef l = ((runs l).map (fun g => record g.1 (reducef g.1 g.2))).flatten := by
  fun_induction runs l with
  | case1 => rw [scan]; rfl
  | case2 kv rest ih => rw [scan, ih, List.map_cons, List.flatten_cons]

/-- In a sorted list the run of the first key has all pairs of that key. -/
theorem key_ne_of_mem_dropWhile {kv : KeyValue} {rest : List KeyValue}
    (h : (kv :: rest).Pairwise (fun a b => a.key ≤ b.key)) :
    ∀ x ∈ rest.dropWhile (·.key = kv.key), x.key ≠ kv.key := by
  obtain ⟨hle, hrest⟩ := List.pairwise_cons.mp h
  intro x hx he
  cases hd : rest.dropWhile (·.key = kv.key) with
  | nil =>
      rw [hd] at hx
      cases hx
  | cons y ys =>
      have hy : ¬ y.key = kv.key := by
        have := List.head?_dropWhile_not (fun x => decide (x.key = kv.key)) rest
        rw [hd] at this
        simpa using this
      have hsub : (y :: ys).Sublist rest := hd ▸ List.dropWhile_sublist _
      have hpw := List.pairwise_cons.mp (hrest.sublist hsub)
      have hyk : kv.key ≤ y.key := hle y (hsub.subset List.mem_cons_self)
      rw [hd] at hx
      rcases List.mem_cons.mp hx with rfl | hx
      · exact hy he
      · exact hy (le_antisymm ((hpw.1 x hx).trans he.le) hyk)

theorem groups_runs {l : List KeyValue} (h : l.Pairwise (fun a b => a.key ≤ b.key)) :
    Groups KeyValue.key KeyValue.value l (runs l) := by
  fun_induction runs l with
  | case1 => exact ⟨by simp, by simp, by simp⟩
  | case2 kv rest ih =>
      have hne := key_ne_of_mem_dropWhile h
      have ih := ih ((List.pairwise_cons.mp h).2.sublist (List.dropWhile_sublist _))
      have hsplit := List.takeWhile_append_dropWhile (p := fun x => decide (x.key = kv.key))
        (l := rest)
      have htake : ∀ x ∈ rest.takeWhile (·.key = kv.key), x.key = kv.key := by
        intro x hx
        simpa using List.mem_takeWhile_imp hx
      have hkey : kv.key ∉ (runs (rest.dropWhile (·.key = kv.key))).map Prod.fst := by
        rw [ih.keys, List.mem_map]
        rintro ⟨x, hx, he⟩
        exact hne x hx he
      refine ⟨List.nodup_cons.mpr ⟨hkey, ih.distinct⟩, ?_, ?_⟩
      · intro k
        rw [List.map_cons, List.mem_cons, ih.keys, List.map_cons, List.mem_cons]
        refine or_congr_right' ?_
        intro hk
        conv_rhs => rw [← hsplit, List.map_append, List.mem_append]
        refine ⟨Or.inr, ?_⟩
        rintro (hm | hm)
        · obtain ⟨x, hx, he⟩ := List.mem_map.mp hm
          exact absurd (he.symm.trans (htake x hx)) hk
        · exact hm
      · intro g hg
        rcases List.mem_cons.mp hg with rfl | hg
        · refine List.Perm.of_eq ?_
          dsimp only
          rw [valuesOf, ← hsplit]
          simp only [List.filter_cons, decide_true, if_true, List.map_cons, List.filter_append]
          rw [List.filter_eq_self.mpr (by simpa using htake),
            List.filter_eq_nil_iff.mpr (by simpa using hne), List.append_nil]
          simp
        · have hgk : g.1 ≠ kv.key := by
            intro he
            exact hkey (List.mem_map.mpr ⟨g, hg, he⟩)
          refine (ih.values g hg).trans (List.Perm.of_eq ?_)
          conv_rhs => rw [valuesOf, ← hsplit]
          rw [List.filter_cons_of_neg (by simpa using Ne.symm hgk), List.filter_append,
            List.filter_eq_nil_iff.mpr, List.nil_append, valuesOf]
          intro x hx he
          exact hgk ((of_decide_eq_true he).symm.trans (htake x hx))

/-! ### Buckets -/

theorem splitIntoBuckets_getElem? (kvs : List KeyValue) {n r : ℕ} (hr : r < n) :
    (splitIntoBuckets kvs n)[r]? = some (kvs.filter (fun kv => ihash kv.key % n = r)) := by
  induction kvs using List.reverseRecOn with
  | nil => simp [splitIntoBuckets, hr]
  | append_singleton kvs kv ih =>
      rw [splitIntoBuckets, List.foldl_append, List.foldl_cons, List.foldl_nil,
        ← splitIntoBuckets, List.getElem?_modify, ih, List.filter_append]
      by_cases hk : ihash kv.key % n = r <;> simp [hk]

/-- The input of the reduce task `r`: the `r`-th buckets of all files, each sorted, in any order.
The intermediate files are taken to give back the pairs that were written, which they do for UTF-8;
for other bytes see `KeyValue.recoded`. -/
def ReduceInput (mapf : String → Str → List KeyValue) (files : List (String × Str))
    (n r : ℕ) (kvs : List KeyValue) : Prop :=
  ∃ order parts, order.Perm files ∧
    List.Forall₂ (fun file part => ∃ bucket,
      (splitIntoBuckets (mapf file.1 file.2) n)[r]? = some bucket ∧ SortsTo bucket part)
      order parts ∧ kvs = parts.flatten

theorem flatten_perm_of_buckets {mapf : String → Str → List KeyValue} {n r : ℕ} (hr : r < n)
    {order : List (String × Str)} {parts : List (List KeyValue)}
    (h : List.Forall₂ (fun file part => ∃ bucket,
      (splitIntoBuckets (mapf file.1 file.2) n)[r]? = some bucket ∧ SortsTo bucket part)
      order parts) :
    parts.flatten.Perm ((emitted mapf order).filter (fun kv => ihash kv.key % n = r)) := by
  induction h with
  | nil => simp [emitted]
  | cons hpart _ ih =>
      obtain ⟨bucket, hb, hsort, -⟩ := hpart
      rw [splitIntoBuckets_getElem? _ hr, Option.some.injEq] at hb
      subst hb
      rw [List.flatten_cons, emitted, List.flatMap_cons, List.filter_append]
      exact hsort.append ih

/-- The reduce task `r` gets all pairs whose key it is responsible for, and no others. -/
theorem ReduceInput.perm {mapf : String → Str → List KeyValue} {files : List (String × Str)}
    {n r : ℕ} (hr : r < n) {kvs : List KeyValue} (h : ReduceInput mapf files n r kvs) :
    kvs.Perm ((emitted mapf files).filter (fun kv => ihash kv.key % n = r)) := by
  obtain ⟨order, parts, horder, hparts, rfl⟩ := h
  exact (flatten_perm_of_buckets hr hparts).trans ((horder.flatMap_right _).filter _)

/-! ### The two programs agree -/

/-- The records of a list of pairs. -/
def records (reducef : Str → List Str → Str) (kvs : List KeyValue) : List Str :=
  summary KeyValue.key KeyValue.value (fun k vs => record k (reducef k vs)) kvs

theorem insensitive_record {reducef : Str → List Str → Str} (h : Insensitive reducef) :
    Insensitive (fun k vs => record k (reducef k vs)) := by
  intro k vs vs' hp
  dsimp only
  rw [h k vs vs' hp]

/-- What a reduce task prints, whatever the order of its pairs and of the map's iteration. -/
theorem lines_reduce_perm {reducef : Str → List Str → Str} (h : Insensitive reducef)
    {kvs kvs' : List KeyValue} (hkvs : kvs.Perm kvs') {order : List (Str × List Str)}
    (horder : order.Perm (groupValuesByKey kvs)) :
    (lines (reduceValuesByKey reducef order)).Perm ((records reducef kvs').flatMap lines) := by
  have hg := ((groups_groupValuesByKey kvs).perm hkvs).perm_groups horder
  rw [lines_reduceValuesByKey]
  exact (hg.map_perm (insensitive_record h)).flatMap_right _

/-- What the sequential program prints, whatever its sort does to equal keys. -/
theorem lines_scan_perm {reducef : Str → List Str → Str} (h : Insensitive reducef)
    {kvs sorted : List KeyValue} (hs : SortsTo kvs sorted) :
    (lines (scan reducef sorted)).Perm ((records reducef kvs).flatMap lines) := by
  have hg := (groups_runs hs.2).perm hs.1
  rw [scan_eq, lines_flatten]
  · exact (hg.map_perm (insensitive_record h)).flatMap_right _
  · intro r hr
    obtain ⟨g, -, rfl⟩ := List.mem_map.mp hr
    exact ⟨_, rfl⟩

/-- The lines of all reduce tasks together are the lines that the sequential program prints, for
any order of the buckets, of equal keys and of the maps. -/
theorem data_path_eq_sequential {mapf : String → Str → List KeyValue}
    {reducef : Str → List Str → Str} (hreduce : Insensitive reducef)
    (files : List (String × Str)) {n : ℕ} (hn : 1 ≤ n) {inputs : ℕ → List KeyValue}
    (hinputs : ∀ r < n, ReduceInput mapf files n r (inputs r))
    {orders : ℕ → List (Str × List Str)}
    (horders : ∀ r < n, (orders r).Perm (groupValuesByKey (inputs r))) {sorted : List KeyValue}
    (hsorted : SortsTo (emitted mapf files) sorted) :
    ((List.range n).flatMap (fun r => lines (reduceValuesByKey reducef (orders r)))).Perm
      (lines (scan reducef sorted)) := by
  have hparts :
      ((List.range n).flatMap (fun r => lines (reduceValuesByKey reducef (orders r)))).Perm
      ((List.range n).flatMap (fun r => (records reducef ((emitted mapf files).filter
        (fun kv => ihash kv.key % n = r))).flatMap lines)) := by
    refine List.Perm.flatMap_left _ ?_
    intro r hr
    rw [List.mem_range] at hr
    exact lines_reduce_perm hreduce ((hinputs r hr).perm hr) (horders r hr)
  refine hparts.trans (List.Perm.trans ?_ (lines_scan_perm hreduce hsorted).symm)
  rw [← List.flatMap_assoc]
  refine List.Perm.flatMap_right _ ?_
  refine summary_partition _ (fun k => ihash k % n) n _ ?_
  intro kv _
  exact Nat.mod_lt _ hn

/-- The words of a file, each with the value `"1"`. -/
def wordMap (_ : String) (content : Str) : List KeyValue :=
  (content.splitOn space).map (fun w => ⟨w, .ofText "1"⟩)

/-- The number of values. -/
def wordCount (_ : Str) (values : List Str) : Str := .ofText (toString values.length)

theorem insensitive_wordCount : Insensitive wordCount := by
  intro k vs vs' h
  rw [wordCount, wordCount, h.length_eq]

theorem data_path_eq_sequential_wordCount :
    ((List.range 2).flatMap (fun r => lines (reduceValuesByKey wordCount
      (if r = 0 then [(.ofText "a", [.ofText "1", .ofText "1"])]
        else [(.ofText "b", [.ofText "1"])])))).Perm
      (lines (scan wordCount [⟨.ofText "a", .ofText "1"⟩, ⟨.ofText "a", .ofText "1"⟩,
        ⟨.ofText "b", .ofText "1"⟩])) := by
  have hfiles : [("y", Str.ofText "a"), ("x", .ofText "b a")].Perm
      [("x", .ofText "b a"), ("y", .ofText "a")] := by decide
  have hinputs : ∀ r < 2, ReduceInput wordMap [("x", .ofText "b a"), ("y", .ofText "a")] 2 r
      (if r = 0 then [⟨.ofText "a", .ofText "1"⟩, ⟨.ofText "a", .ofText "1"⟩]
        else [⟨.ofText "b", .ofText "1"⟩]) := by
    intro r hr
    interval_cases r
    · refine ⟨_, [[⟨.ofText "a", .ofText "1"⟩], [⟨.ofText "a", .ofText "1"⟩]], hfiles, ?_, rfl⟩
      exact .cons ⟨[⟨.ofText "a", .ofText "1"⟩], by decide, by decide⟩
        (.cons ⟨[⟨.ofText "a", .ofText "1"⟩], by decide, by decide⟩ .nil)
    · refine ⟨_, [[], [⟨.ofText "b", .ofText "1"⟩]], hfiles, ?_, rfl⟩
      exact .cons ⟨[], by decide, by decide⟩
        (.cons ⟨[⟨.ofText "b", .ofText "1"⟩], by decide, by decide⟩ .nil)
  refine data_path_eq_sequential insensitive_wordCount _ (by decide) hinputs ?_ (by decide)
  intro r hr
  interval_cases r
  · decide
  · decide

end DistributedSystems.MapReduce
