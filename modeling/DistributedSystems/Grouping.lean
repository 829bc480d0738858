import Mathlib

/-! # Grouping by key

Elements with a key and a value, grouped by key in any way: a list of groups represents a list of
elements when every key stands in exactly one group, with all its values in some order (`Groups`).
A function of the key and of the values in any order then gives the same results for every way of
grouping (`Groups.map_perm`), and splitting the elements by a function of the key first changes
nothing (`summary_partition`).

Elements collected in a map, one after the other, stand under their key in the order of the list
(`lookup_collect`). -/

namespace DistributedSystems

section

variable {α κ ν ρ : Type} [DecidableEq κ] (key : α → κ) (val : α → ν)

/-- The values of one key, in the order of the elements. -/
def valuesOf (l : List α) (k : κ) : List ν := (l.filter (key · = k)).map val

/-- The result of `f` for every key. -/
def summary (f : κ → List ν → ρ) (l : List α) : List ρ :=
  (l.map key).dedup.map (fun k => f k (valuesOf key val l k))

/-- The groups represent the elements. -/
structure Groups (l : List α) (groups : List (κ × List ν)) : Prop where
  distinct : (groups.map Prod.fst).Nodup
  keys : ∀ k, k ∈ groups.map Prod.fst ↔ k ∈ l.map key
  values : ∀ g ∈ groups, g.2.Perm (valuesOf key val l g.1)

variable {key val}

theorem valuesOf_perm {l l' : List α} (h : l.Perm l') (k : κ) :
    (valuesOf key val l k).Perm (valuesOf key val l' k) :=
  (h.filter _).map _

theorem Groups.perm_groups {l : List α} {groups groups' : List (κ × List ν)}
    (h : Groups key val l groups) (hp : groups'.Perm groups) : Groups key val l groups' where
  distinct := (hp.map _).nodup_iff.mpr h.distinct
  keys := by
    intro k
    rw [(hp.map Prod.fst).mem_iff]
    exact h.keys k
  values := fun g hg => h.values g (hp.mem_iff.mp hg)

theorem Groups.perm {l l' : List α} {groups : List (κ × List ν)} (h : Groups key val l groups)
    (hp : l.Perm l') : Groups key val l' groups where
  distinct := h.distinct
  keys := by
    intro k
    rw [h.keys, (hp.map key).mem_iff]
  values := fun g hg => (h.values g hg).trans (valuesOf_perm hp g.1)

/-- A function that does not depend on the order of the values. -/
def Insensitive (f : κ → List ν → ρ) : Prop := ∀ k vs vs', vs.Perm vs' → f k vs = f k vs'

variable {f : κ → List ν → ρ}

theorem Groups.map_perm {l : List α} {groups : List (κ × List ν)} (h : Groups key val l groups)
    (hf : Insensitive f) : (groups.map (fun g => f g.1 g.2)).Perm (summary key val f l) := by
  have hmap : groups.map (fun g => f g.1 g.2) =
      (groups.map Prod.fst).map (fun k => f k (valuesOf key val l k)) := by
    rw [List.map_map]
    refine List.map_congr_left ?_
    intro g hg
    exact hf g.1 _ _ (h.values g hg)
  rw [hmap]
  refine List.Perm.map _ ((List.perm_ext_iff_of_nodup h.distinct (List.nodup_dedup _)).mpr ?_)
  intro k
  rw [h.keys, List.mem_dedup]

/-! ### Splitting by a function of the key -/

theorem flatMap_filter_perm_filter {β : Type} (g : β → ℕ) (l : List β) :
    ∀ n, ((List.range n).flatMap (fun r => l.filter (g · = r))).Perm (l.filter (g · < n))
  | 0 => by simp
  | n + 1 => by
      have ih := flatMap_filter_perm_filter g l n
      have hlt : l.filter (g · < n) = (l.filter (g · < n + 1)).filter (g · < n) := by
        rw [List.filter_filter]
        refine List.filter_congr ?_
        intro x _
        by_cases hx : g x < n
        · simp [hx, show g x < n + 1 by omega]
        · simp [hx]
      have heq : l.filter (g · = n) = (l.filter (g · < n + 1)).filter (fun x => !(g x < n)) := by
        rw [List.filter_filter]
        refine List.filter_congr ?_
        intro x _
        by_cases hx : g x = n
        · simp [hx]
        · simp only [hx, decide_false]
          by_cases hx' : g x < n
          · simp [hx']
          · simp [show ¬ g x < n + 1 by omega]
      rw [List.range_succ, List.flatMap_append, List.flatMap_singleton, heq]
      refine (ih.append_right _).trans ?_
      rw [hlt]
      exact List.filter_append_perm _ _

/-- The parts of a list put together again. -/
theorem flatMap_filter_perm {β : Type} (g : β → ℕ) (n : ℕ) {l : List β} (h : ∀ x ∈ l, g x < n) :
    ((List.range n).flatMap (fun r => l.filter (g · = r))).Perm l := by
  have := flatMap_filter_perm_filter g l n
  rwa [List.filter_eq_self.mpr (by simpa using h)] at this

/-- The results of one part are those of the keys of that part. -/
theorem summary_filter (f : κ → List ν → ρ) (g : κ → ℕ) (l : List α) (r : ℕ) :
    (summary key val f (l.filter (fun x => g (key x) = r))).Perm
      (((l.map key).dedup.filter (g · = r)).map (fun k => f k (valuesOf key val l k))) := by
  have hkeys : (((l.filter (fun x => g (key x) = r)).map key).dedup).Perm
      ((l.map key).dedup.filter (g · = r)) := by
    refine (List.perm_ext_iff_of_nodup (List.nodup_dedup _) ((List.nodup_dedup _).filter _)).mpr ?_
    intro k
    simp only [List.mem_dedup, List.mem_map, List.mem_filter, decide_eq_true_eq]
    constructor
    · rintro ⟨x, ⟨hx, hg⟩, rfl⟩
      exact ⟨⟨x, hx, rfl⟩, hg⟩
    · rintro ⟨⟨x, hx, rfl⟩, hg⟩
      exact ⟨x, ⟨hx, hg⟩, rfl⟩
  have hvals : ∀ k ∈ (l.map key).dedup.filter (g · = r),
      valuesOf key val (l.filter (fun x => g (key x) = r)) k = valuesOf key val l k := by
    intro k hk
    have hg : g k = r := by simpa using (List.mem_filter.mp hk).2
    rw [valuesOf, valuesOf, List.filter_filter]
    congr 1
    refine List.filter_congr ?_
    intro x _
    by_cases hx : key x = k
    · simp [hx, hg]
    · simp [hx]
  refine (hkeys.map _).trans (List.Perm.of_eq (List.map_congr_left ?_))
  intro k hk
  rw [hvals k hk]

/-- The results of all parts together are the results of the whole. -/
theorem summary_partition (f : κ → List ν → ρ) (g : κ → ℕ) (n : ℕ) (l : List α)
    (h : ∀ x ∈ l, g (key x) < n) :
    ((List.range n).flatMap (fun r => summary key val f (l.filter (fun x => g (key x) = r)))).Perm
      (summary key val f l) := by
  refine (List.Perm.flatMap_left _ (fun r _ => summary_filter f g l r)).trans ?_
  rw [← List.map_flatMap]
  refine List.Perm.map _ (flatMap_filter_perm g n ?_)
  intro k hk
  obtain ⟨x, hx, rfl⟩ := List.mem_map.mp (List.mem_dedup.mp hk)
  exact h x hx

/-! ### Collecting in a map -/

/-- The map that a loop over the list with `m[key v] = append(m[key v], v)` builds. -/
def collect (key : α → κ) (l : List α) : AList (fun _ : κ => List α) :=
  l.foldl (fun m v => m.insert (key v) ((m.lookup (key v)).getD [] ++ [v])) ∅

theorem collect_concat (key : α → κ) (l : List α) (v : α) : collect key (l ++ [v]) =
    (collect key l).insert (key v) (((collect key l).lookup (key v)).getD [] ++ [v]) := by
  rw [collect, List.foldl_append]
  rfl

theorem lookup_collect (key : α → κ) (l : List α) (k : κ) :
    ((collect key l).lookup k).getD [] = l.filter (key · = k) := by
  induction l using List.reverseRecOn with
  | nil => rfl
  | append_singleton l v ih =>
      rw [collect_concat, List.filter_append, ← ih]
      by_cases hk : key v = k
      · subst hk
        simp
      · simp [hk, AList.lookup_insert_ne (Ne.symm hk)]

theorem mem_collect_keys (key : α → κ) (l : List α) (k : κ) :
    k ∈ (collect key l).keys ↔ k ∈ l.map key := by
  induction l using List.reverseRecOn with
  | nil => simp [collect]
  | append_singleton l v ih =>
      rw [collect_concat, ← AList.mem_keys, AList.mem_insert, AList.mem_keys, ih]
      simp [or_comm]

end

end DistributedSystems
