import Mathlib

/-! # Lists of parties

The parties of a system (its servers, clients, goroutines, open calls) are a list in its state, and
a step changes one of them by `List.set`.  These are the rules for reading such a list after the
step: one party (`getElem?_set_cases`, `getElem?_concat_cases`), a property of all of them
(`forall_mem_set`), how many of them are in a given state (`count_le_count_set`), and what a partial
reading `f` collects from them when the changed party reads as before or not any more
(`filterMap_set_of_eq`, `filterMap_perm_set`). -/

namespace DistributedSystems

variable {α β : Type} {l : List α}

theorem getElem?_set_cases {i j : ℕ} {a b : α} (h : (l.set i a)[j]? = some b) :
    (j = i ∧ b = a) ∨ (j ≠ i ∧ l[j]? = some b) := by
  rw [List.getElem?_set] at h
  split_ifs at h with hij hi
  · exact Or.inl ⟨hij.symm, (Option.some.inj h).symm⟩
  · exact Or.inr ⟨fun he => hij he.symm, h⟩

/-- A party after another one has joined. -/
theorem getElem?_concat_cases {j : ℕ} {a b : α} (h : (l ++ [a])[j]? = some b) :
    (j = l.length ∧ b = a) ∨ l[j]? = some b := by
  rcases lt_trichotomy j l.length with hj | rfl | hj
  · exact Or.inr (List.getElem?_append_left hj ▸ h)
  · rw [List.getElem?_concat_length, Option.some.injEq] at h
    exact Or.inl ⟨rfl, h.symm⟩
  · rw [List.getElem?_eq_none (by simpa using hj)] at h
    cases h

theorem forall_mem_set {P : α → Prop} {i : ℕ} {a : α} (hl : ∀ x ∈ l, P x) (ha : P a) :
    ∀ x ∈ l.set i a, P x := by
  intro x hx
  obtain hx | rfl := List.mem_or_eq_of_mem_set hx
  · exact hl x hx
  · exact ha

/-- The other parties stay. -/
theorem eq_or_mem_set {i : ℕ} {a b c : α} (hi : l[i]? = some a) (hc : c ∈ l) :
    c = a ∨ c ∈ l.set i b := by
  obtain ⟨j, hj⟩ := List.mem_iff_getElem?.mp hc
  by_cases hij : i = j
  · subst hij
    exact Or.inl (Option.some.inj (hj.symm.trans hi))
  · exact Or.inr (List.mem_of_getElem? ((List.getElem?_set_ne hij).trans hj))

/-- A party that was not in the state `x` does not leave it. -/
theorem count_le_count_set [DecidableEq α] {i : ℕ} {a b x : α} (hi : l[i]? = some a)
    (ha : a ≠ x) : l.count x ≤ (l.set i b).count x := by
  obtain ⟨hlt, rfl⟩ := List.getElem?_eq_some_iff.mp hi
  rw [List.count_set hlt, if_neg (by simpa using ha)]
  omega

/-- Another message than the one taken out stays in the network. -/
theorem mem_eraseIdx_of_ne {i : ℕ} {a b : α} (hi : l[i]? = some a) (hb : b ∈ l) (h : b ≠ a) :
    b ∈ l.eraseIdx i := by
  obtain ⟨j, hj⟩ := List.mem_iff_getElem?.mp hb
  rw [List.mem_eraseIdx_iff_getElem?]
  refine ⟨j, ?_, hj⟩
  rintro rfl
  exact h (Option.some.inj (hj.symm.trans hi))

/-- A party that reads as before changes no list of readings. -/
theorem map_set_of_eq {f : α → β} {i : ℕ} {a b : α} (hi : l[i]? = some a) (h : f b = f a) :
    (l.set i b).map f = l.map f := by
  obtain ⟨hlt, rfl⟩ := List.getElem?_eq_some_iff.mp hi
  rw [List.map_set, h, ← List.getElem_map (f := f) (h := by simpa using hlt), List.set_getElem_self]

/-- A number summed up over the parties after one of them has changed. -/
theorem sum_map_set {f : α → ℕ} {i : ℕ} {a : α} (hi : l[i]? = some a) (b : α) :
    ((l.set i b).map f).sum + f a = (l.map f).sum + f b := by
  obtain ⟨hlt, rfl⟩ := List.getElem?_eq_some_iff.mp hi
  rw [List.set_eq_take_append_cons_drop, if_pos hlt]
  conv_rhs => rw [← List.take_append_drop i l, List.drop_eq_getElem_cons hlt]
  simp only [List.map_append, List.map_cons, List.sum_append, List.sum_cons]
  omega

/-- A party that has less left leaves less in all. -/
theorem sum_map_set_lt {f : α → ℕ} {i : ℕ} {a b : α} (hi : l[i]? = some a) (h : f b < f a) :
    ((l.set i b).map f).sum < (l.map f).sum := by
  have := sum_map_set (f := f) hi b
  omega

section reading

variable {f : α → Option β} {i : ℕ} {a b : α}

theorem filterMap_set_of_eq (hi : l[i]? = some a) (h : f b = f a) :
    (l.set i b).filterMap f = l.filterMap f := by
  obtain ⟨hlt, rfl⟩ := List.getElem?_eq_some_iff.mp hi
  rw [List.set_eq_take_append_cons_drop, if_pos hlt]
  conv_rhs => rw [← List.take_append_drop i l, List.drop_eq_getElem_cons hlt]
  simp only [List.filterMap_append, List.filterMap_cons, h]

theorem filterMap_perm_set (hi : l[i]? = some a) (hb : f b = none) :
    (l.filterMap f).Perm ((f a).toList ++ (l.set i b).filterMap f) := by
  obtain ⟨hlt, rfl⟩ := List.getElem?_eq_some_iff.mp hi
  rw [List.set_eq_take_append_cons_drop, if_pos hlt]
  conv_lhs => rw [← List.take_append_drop i l, List.drop_eq_getElem_cons hlt]
  cases ha : f l[i] with
  | none =>
      simp only [List.filterMap_append, List.filterMap_cons, ha, hb, Option.toList_none,
        List.nil_append]
      exact List.Perm.refl _
  | some x =>
      simp only [List.filterMap_append, List.filterMap_cons, ha, hb, Option.toList_some,
        List.singleton_append]
      exact List.perm_middle

end reading

end DistributedSystems
