import Mathlib

/-! # Balancing by single moves

Finitely many items are placed on bins by a function `f : ι → γ`; the bins in use are a finite set
`G`.  An item on a bin that is not in use is homeless.  Two kinds of moves bring a placement into
balance: a homeless item goes to a bin with the least load (`Filling.place`), and an item of a bin
with the greatest load goes to a bin with the least load when the two loads differ by at least two
(`Frugal.shift`).

`Frugal G f₀ f` is what such moves keep of the placement `f₀` they began with.  A bin has only lost
items or only gained items; one that has lost items is still within one of the greatest load, one
that has gained items is within one of the least, and no bin that has gained carries more than one
that has lost.  A frugal placement has moved as few items as any balanced one
(`Frugal.moved_le`), and no item has been moved twice, so every shift is one more moved item
(`Frugal.moved_shift`) and the shifts come to an end. -/

namespace DistributedSystems

variable {ι γ : Type}

section loads

variable [Fintype ι] [DecidableEq γ]

/-! ### Loads -/

/-- The items on the bin `g`. -/
def itemsOn (f : ι → γ) (g : γ) : Finset ι := Finset.univ.filter (fun i => f i = g)

def load (f : ι → γ) (g : γ) : ℕ := (itemsOn f g).card

/-- Every item is on a bin in use. -/
def Placed (G : Finset γ) (f : ι → γ) : Prop := ∀ i, f i ∈ G

/-- The loads of any two bins in use differ by at most one. -/
def Balanced (G : Finset γ) (f : ι → γ) : Prop := ∀ g ∈ G, ∀ h ∈ G, load f g ≤ load f h + 1

/-- How many items that were on a bin in use are on another bin. -/
def moved (G : Finset γ) (f₀ f : ι → γ) : ℕ :=
  (Finset.univ.filter (fun i => f₀ i ∈ G ∧ f i ≠ f₀ i)).card

instance (G : Finset γ) (f : ι → γ) : Decidable (Placed G f) :=
  inferInstanceAs (Decidable (∀ i, f i ∈ G))

instance (G : Finset γ) (f : ι → γ) : Decidable (Balanced G f) :=
  inferInstanceAs (Decidable (∀ g ∈ G, ∀ h ∈ G, load f g ≤ load f h + 1))

@[simp] theorem mem_itemsOn {f : ι → γ} {g : γ} {i : ι} : i ∈ itemsOn f g ↔ f i = g := by
  simp [itemsOn]

theorem load_le_card (f : ι → γ) (g : γ) : load f g ≤ Fintype.card ι :=
  Finset.card_le_univ _

theorem sum_load {G : Finset γ} {f : ι → γ} (h : Placed G f) :
    ∑ g ∈ G, load f g = Fintype.card ι :=
  (Finset.card_eq_sum_card_fiberwise (fun i _ => h i)).symm

theorem exists_of_load_pos {f : ι → γ} {g : γ} (h : 0 < load f g) : ∃ i, f i = g := by
  obtain ⟨i, hi⟩ := Finset.card_pos.mp h
  exact ⟨i, mem_itemsOn.mp hi⟩

/-! ### Moving one item -/

section update

variable [DecidableEq ι] {f : ι → γ} {i : ι} {g l : γ}

theorem itemsOn_update_of_ne (hi : f i ≠ g) (hl : l ≠ g) :
    itemsOn (Function.update f i l) g = itemsOn f g := by
  ext j
  by_cases hj : j = i
  · subst hj
    simp [hi, hl]
  · simp [hj]

theorem itemsOn_update_target (f : ι → γ) (i : ι) (l : γ) :
    itemsOn (Function.update f i l) l = insert i (itemsOn f l) := by
  ext j
  by_cases hj : j = i
  · subst hj
    simp
  · simp [hj]

theorem itemsOn_update_source (hl : l ≠ f i) :
    itemsOn (Function.update f i l) (f i) = (itemsOn f (f i)).erase i := by
  ext j
  by_cases hj : j = i
  · subst hj
    simp [hl]
  · simp [hj]

theorem load_update_of_ne (hi : f i ≠ g) (hl : l ≠ g) :
    load (Function.update f i l) g = load f g :=
  congrArg Finset.card (itemsOn_update_of_ne hi hl)

theorem load_update_target (hl : l ≠ f i) :
    load (Function.update f i l) l = load f l + 1 := by
  unfold load
  rw [itemsOn_update_target, Finset.card_insert_of_notMem]
  rw [mem_itemsOn]
  exact hl.symm

theorem load_update_source (hl : l ≠ f i) :
    load (Function.update f i l) (f i) + 1 = load f (f i) := by
  unfold load
  rw [itemsOn_update_source hl]
  exact Finset.card_erase_add_one (mem_itemsOn.mpr rfl)

end update

end loads

/-! ### Items lost and gained -/

/-- An item has left the bin `g`. -/
def Lost (f₀ f : ι → γ) (g : γ) : Prop := ∃ i, f₀ i = g ∧ f i ≠ g

/-- An item has come to the bin `g`. -/
def Gained (f₀ f : ι → γ) (g : γ) : Prop := ∃ i, f i = g ∧ f₀ i ≠ g

/-- Only the bin an item leaves loses something. -/
theorem lost_of_update [DecidableEq ι] {f₀ f : ι → γ} {i : ι} {g l : γ} (hg : g ≠ f i)
    (h : Lost f₀ (Function.update f i l) g) : Lost f₀ f g := by
  obtain ⟨j, hj, hne⟩ := h
  refine ⟨j, hj, ?_⟩
  by_cases hji : j = i
  · subst hji
    exact hg.symm
  · rwa [Function.update_of_ne hji] at hne

/-- Only the bin an item goes to gains something. -/
theorem gained_of_update [DecidableEq ι] {f₀ f : ι → γ} {i : ι} {g l : γ} (hg : g ≠ l)
    (h : Gained f₀ (Function.update f i l) g) : Gained f₀ f g := by
  obtain ⟨j, hj, hne⟩ := h
  refine ⟨j, ?_, hne⟩
  by_cases hji : j = i
  · subst hji
    rw [Function.update_self] at hj
    exact absurd hj.symm hg
  · rwa [Function.update_of_ne hji] at hj

variable [Fintype ι] [DecidableEq γ]

theorem itemsOn_subset_of_not_lost {f₀ f : ι → γ} {g : γ} (h : ¬ Lost f₀ f g) :
    itemsOn f₀ g ⊆ itemsOn f g := by
  intro i hi
  rw [mem_itemsOn] at hi ⊢
  by_contra hne
  exact h ⟨i, hi, hne⟩

theorem itemsOn_subset_of_not_gained {f₀ f : ι → γ} {g : γ} (h : ¬ Gained f₀ f g) :
    itemsOn f g ⊆ itemsOn f₀ g := by
  intro i hi
  rw [mem_itemsOn] at hi ⊢
  by_contra hne
  exact h ⟨i, hi, hne⟩

theorem lost_of_load_lt {f₀ f : ι → γ} {g : γ} (h : load f g < load f₀ g) : Lost f₀ f g := by
  by_contra hn
  exact absurd (Finset.card_le_card (itemsOn_subset_of_not_lost hn)) (Nat.not_le.mpr h)

theorem gained_of_load_lt {f₀ f : ι → γ} {g : γ} (h : load f₀ g < load f g) : Gained f₀ f g := by
  by_contra hn
  exact absurd (Finset.card_le_card (itemsOn_subset_of_not_gained hn)) (Nat.not_le.mpr h)

/-! ### Placing the homeless items -/

/-- No bin in use has lost an item, and those that have gained one are within one of the least
load. -/
structure Filling (G : Finset γ) (f₀ f : ι → γ) : Prop where
  kept : ∀ g ∈ G, ¬ Lost f₀ f g
  gained : ∀ g ∈ G, Gained f₀ f g → ∀ h ∈ G, load f g ≤ load f h + 1

theorem Filling.refl (G : Finset γ) (f : ι → γ) : Filling G f f where
  kept := by
    rintro g - ⟨i, hi, hne⟩
    exact hne hi
  gained := by
    rintro g - ⟨i, hi, hne⟩
    exact absurd hi hne

/-- A homeless item goes to a bin with the least load. -/
theorem Filling.place [DecidableEq ι] {G : Finset γ} {f₀ f : ι → γ} (h : Filling G f₀ f) {i : ι}
    {l : γ} (hi : f i ∉ G) (hl : l ∈ G) (hleast : ∀ g ∈ G, load f l ≤ load f g) :
    Filling G f₀ (Function.update f i l) := by
  have hsrc : ∀ g ∈ G, f i ≠ g := fun g hg he => hi (he ▸ hg)
  have htarget := load_update_target (hsrc l hl).symm
  -- no load goes down
  have hmono : ∀ g ∈ G, load f g ≤ load (Function.update f i l) g := by
    intro g hg
    by_cases hgl : l = g
    · subst hgl
      omega
    · exact (load_update_of_ne (hsrc g hg) hgl).ge
  constructor
  · intro g hg hlost
    exact h.kept g hg (lost_of_update (hsrc g hg).symm hlost)
  · intro g hg hgain x hx
    have hx' := hmono x hx
    by_cases hgl : l = g
    · subst hgl
      have := hleast x hx
      omega
    · have := h.gained g hg (gained_of_update (Ne.symm hgl) hgain) x hx
      rw [load_update_of_ne (hsrc g hg) hgl]
      omega

/-! ### Shifting items from the greatest to the least load -/

structure Frugal (G : Finset γ) (f₀ f : ι → γ) : Prop where
  lost : ∀ g ∈ G, Lost f₀ f g → ∀ h ∈ G, load f h ≤ load f g + 1
  gained : ∀ g ∈ G, Gained f₀ f g → ∀ h ∈ G, load f g ≤ load f h + 1
  oneWay : ∀ g ∈ G, Lost f₀ f g → ¬ Gained f₀ f g
  ordered : ∀ g ∈ G, ∀ h ∈ G, Lost f₀ f g → Gained f₀ f h → load f h ≤ load f g

theorem Filling.frugal {G : Finset γ} {f₀ f : ι → γ} (h : Filling G f₀ f) : Frugal G f₀ f where
  lost := fun g hg hl => absurd hl (h.kept g hg)
  gained := h.gained
  oneWay := fun g hg hl => absurd hl (h.kept g hg)
  ordered := fun g hg _ _ hl => absurd hl (h.kept g hg)

section shift

variable {G : Finset γ} {f₀ f : ι → γ} {i : ι} {l : γ}

/-- The bin with the greatest load has not gained an item. -/
theorem Frugal.not_gained_source (h : Frugal G f₀ f) (hi : f i ∈ G) (hl : l ∈ G)
    (hgap : load f l + 2 ≤ load f (f i)) : ¬ Gained f₀ f (f i) := by
  intro hg
  have := h.gained (f i) hi hg l hl
  omega

/-- The bin with the least load has not lost an item. -/
theorem Frugal.not_lost_target (h : Frugal G f₀ f) (hi : f i ∈ G) (hl : l ∈ G)
    (hgap : load f l + 2 ≤ load f (f i)) : ¬ Lost f₀ f l := by
  intro hlost
  have := h.lost l hl hlost (f i) hi
  omega

theorem ne_of_gap (hgap : load f l + 2 ≤ load f (f i)) : l ≠ f i := by
  rintro rfl
  omega

variable [DecidableEq ι]

/-- The loads after a shift lie between those of the target and of the source before it. -/
theorem load_shift_bounds (hmost : ∀ g ∈ G, load f g ≤ load f (f i))
    (hleast : ∀ g ∈ G, load f l ≤ load f g) (hgap : load f l + 2 ≤ load f (f i)) {g : γ}
    (hg : g ∈ G) : load f l ≤ load (Function.update f i l) g ∧
      load (Function.update f i l) g ≤ load f (f i) := by
  have hne := ne_of_gap hgap
  by_cases hgi : f i = g
  · subst hgi
    have := load_update_source hne
    omega
  · by_cases hgl : l = g
    · subst hgl
      have := load_update_target hne
      omega
    · rw [load_update_of_ne hgi hgl]
      exact ⟨hleast g hg, hmost g hg⟩

/-- A bin that has lost an item after a shift is within one of the source before it. -/
theorem Frugal.load_of_lost_shift (h : Frugal G f₀ f) (hi : f i ∈ G) (hl : l ∈ G)
    (hgap : load f l + 2 ≤ load f (f i)) {g : γ} (hg : g ∈ G)
    (hlost : Lost f₀ (Function.update f i l) g) :
    load f (f i) ≤ load (Function.update f i l) g + 1 := by
  by_cases hgi : f i = g
  · subst hgi
    exact (load_update_source (ne_of_gap hgap)).ge
  · have hlost := lost_of_update (Ne.symm hgi) hlost
    have hgl : l ≠ g := by
      rintro rfl
      exact h.not_lost_target hi hl hgap hlost
    rw [load_update_of_ne hgi hgl]
    exact h.lost g hg hlost (f i) hi

/-- A bin that has gained an item after a shift is within one of the target before it. -/
theorem Frugal.load_of_gained_shift (h : Frugal G f₀ f) (hi : f i ∈ G) (hl : l ∈ G)
    (hgap : load f l + 2 ≤ load f (f i)) {g : γ} (hg : g ∈ G)
    (hgained : Gained f₀ (Function.update f i l) g) :
    load (Function.update f i l) g ≤ load f l + 1 := by
  by_cases hgl : l = g
  · subst hgl
    exact (load_update_target (ne_of_gap hgap)).le
  · have hgained := gained_of_update (Ne.symm hgl) hgained
    have hgi : f i ≠ g := by
      rintro rfl
      exact h.not_gained_source hi hl hgap hgained
    rw [load_update_of_ne hgi hgl]
    exact h.gained g hg hgained l hl

theorem Frugal.shift (h : Frugal G f₀ f) (hi : f i ∈ G) (hl : l ∈ G)
    (hmost : ∀ g ∈ G, load f g ≤ load f (f i)) (hleast : ∀ g ∈ G, load f l ≤ load f g)
    (hgap : load f l + 2 ≤ load f (f i)) : Frugal G f₀ (Function.update f i l) := by
  have hne := ne_of_gap hgap
  refine ⟨?_, ?_, ?_, ?_⟩
  · intro g hg hlost x hx
    have h1 := h.load_of_lost_shift hi hl hgap hg hlost
    have h2 := (load_shift_bounds hmost hleast hgap hx).2
    omega
  · intro g hg hgained x hx
    have h1 := h.load_of_gained_shift hi hl hgap hg hgained
    have h2 := (load_shift_bounds hmost hleast hgap hx).1
    omega
  · intro g hg hlost hgained
    by_cases hgi : g = f i
    · subst hgi
      exact h.not_gained_source hi hl hgap (gained_of_update hne.symm hgained)
    · have hlost := lost_of_update hgi hlost
      by_cases hgl : g = l
      · exact h.not_lost_target hi hl hgap (hgl ▸ hlost)
      · exact h.oneWay g hg hlost (gained_of_update hgl hgained)
  · intro g hg x hx hlost hgained
    have h1 := h.load_of_lost_shift hi hl hgap hg hlost
    have h2 := h.load_of_gained_shift hi hl hgap hx hgained
    omega

/-- Every shift moves an item that has not been moved before. -/
theorem Frugal.moved_shift (h : Frugal G f₀ f) (hi : f i ∈ G) (hl : l ∈ G)
    (hgap : load f l + 2 ≤ load f (f i)) :
    moved G f₀ (Function.update f i l) = moved G f₀ f + 1 := by
  have hne := ne_of_gap hgap
  have hhome : f₀ i = f i := by
    by_contra hn
    exact h.not_gained_source hi hl hgap ⟨i, rfl, hn⟩
  unfold moved
  rw [← Finset.card_insert_of_notMem (a := i) (by simp [hhome])]
  congr 1
  ext j
  by_cases hj : j = i
  · subst hj
    simp [hhome, hi, hne]
  · simp [hj]

end shift

/-! ### As few moves as possible -/

/-- What is taken off and what is put on differ by the difference of the totals. -/
theorem sum_sub_add_sum {κ : Type} (G : Finset κ) (a b : κ → ℕ) :
    ∑ g ∈ G, (a g - b g) + ∑ g ∈ G, b g = ∑ g ∈ G, (b g - a g) + ∑ g ∈ G, a g := by
  rw [← Finset.sum_add_distrib, ← Finset.sum_add_distrib]
  refine Finset.sum_congr rfl ?_
  intro g _
  omega

variable [DecidableEq ι]

theorem moved_eq_sum (G : Finset γ) (f₀ f : ι → γ) :
    moved G f₀ f = ∑ g ∈ G, (itemsOn f₀ g \ itemsOn f g).card := by
  unfold moved
  rw [Finset.card_eq_sum_card_fiberwise (f := f₀) (t := G)]
  · refine Finset.sum_congr rfl ?_
    intro g hg
    congr 1
    ext i
    simp only [Finset.mem_filter, Finset.mem_univ, true_and, Finset.mem_sdiff, mem_itemsOn]
    constructor
    · rintro ⟨⟨-, hne⟩, he⟩
      exact ⟨he, fun hf => hne (hf.trans he.symm)⟩
    · rintro ⟨he, hne⟩
      exact ⟨⟨he ▸ hg, fun hf => hne (hf.trans he)⟩, he⟩
  · intro i hi
    exact (Finset.mem_filter.mp (Finset.mem_coe.mp hi)).2.1

theorem sum_sub_le_moved (G : Finset γ) (f₀ f : ι → γ) :
    ∑ g ∈ G, (load f₀ g - load f g) ≤ moved G f₀ f := by
  rw [moved_eq_sum]
  exact Finset.sum_le_sum (fun g _ => Finset.le_card_sdiff _ _)

/-- Where a bin has only lost or only gained, the loads tell how many items have left it. -/
theorem Frugal.moved_eq {G : Finset γ} {f₀ f : ι → γ} (h : Frugal G f₀ f) :
    moved G f₀ f = ∑ g ∈ G, (load f₀ g - load f g) := by
  rw [moved_eq_sum]
  refine Finset.sum_congr rfl ?_
  intro g hg
  by_cases hl : Lost f₀ f g
  · exact Finset.card_sdiff_of_subset (itemsOn_subset_of_not_gained (h.oneWay g hg hl))
  · have hsub := itemsOn_subset_of_not_lost hl
    have hle : load f₀ g ≤ load f g := Finset.card_le_card hsub
    rw [Finset.sdiff_eq_empty_iff_subset.mpr hsub, Finset.card_empty]
    omega

theorem Frugal.moved_le {G : Finset γ} {f₀ f f' : ι → γ} (h : Frugal G f₀ f) (hf : Placed G f)
    (hf' : Placed G f') (hb : Balanced G f') : moved G f₀ f ≤ moved G f₀ f' := by
  rw [h.moved_eq]
  refine le_trans ?_ (sum_sub_le_moved G f₀ f')
  -- a balanced placement cannot keep more on a bin that has lost and less on one that has gained
  by_cases hlow : ∀ g ∈ G, Lost f₀ f g → ∀ x ∈ G, load f' x ≤ load f g
  · refine Finset.sum_le_sum ?_
    intro g hg
    by_cases hlt : load f g < load f₀ g
    · have := hlow g hg (lost_of_load_lt hlt) g hg
      omega
    · omega
  · push Not at hlow
    obtain ⟨g, hg, hlost, x, hx, hxg⟩ := hlow
    have hup : ∑ y ∈ G, (load f y - load f₀ y) ≤ ∑ y ∈ G, (load f' y - load f₀ y) := by
      refine Finset.sum_le_sum ?_
      intro y hy
      by_cases hlt : load f₀ y < load f y
      · have h1 := h.ordered g hg y hy hlost (gained_of_load_lt hlt)
        have h2 := hb x hx y hy
        omega
      · omega
    have h1 := sum_sub_add_sum G (load f₀) (load f)
    have h2 := sum_sub_add_sum G (load f₀) (load f')
    rw [sum_load hf] at h1
    rw [sum_load hf'] at h2
    omega

end DistributedSystems
