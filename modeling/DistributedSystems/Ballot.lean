import Mathlib

/-! # Voters and majorities

A voter moves through rounds and has at most one choice in the round it is in.  It may vote only in
its own or a later round, and in its own round only for the choice it already has (`Voter.Step`).
Then its rounds never go back and a choice stays within a round (`Voter.Later`), all votes it has
ever cast in one round are for the same candidate (`Voter.Records`), and at most one candidate of a
round has the votes of a majority (`Elected.unique`). -/

namespace DistributedSystems

/-- The round a voter is in and its choice. -/
structure Voter (ι : Type*) where
  round : ℕ
  choice : Option ι

namespace Voter

variable {ι : Type*} {v v' : Voter ι}

/-- A step of a voter, with the vote it casts in the round it is in afterwards. -/
inductive Step (v v' : Voter ι) : Option ι → Prop
  | keep (hr : v'.round = v.round) (hc : v'.choice = v.choice) : Step v v' none
  | advance (hr : v.round < v'.round) : Step v v' none
  | cast {c : ι} (hr : v.round ≤ v'.round)
      (hfree : v'.round = v.round → v.choice = none ∨ v.choice = some c)
      (hc : v'.choice = some c) : Step v v' (some c)

theorem Step.round_le {o : Option ι} (h : Step v v' o) : v.round ≤ v'.round := by
  cases h with
  | keep hr hc => omega
  | advance hr => omega
  | cast hr hfree hc => exact hr

/-- What later states of a voter have in common with `v`: the round has not gone back, and within
the round a choice that was made stays. -/
structure Later (v v' : Voter ι) : Prop where
  round_le : v.round ≤ v'.round
  choice : v'.round = v.round → v.choice = none ∨ v'.choice = v.choice

theorem Later.refl (v : Voter ι) : Later v v := ⟨le_rfl, fun _ => Or.inr rfl⟩

theorem Later.trans {v'' : Voter ι} (h : Later v v') (h' : Later v' v'') : Later v v'' := by
  refine ⟨h.round_le.trans h'.round_le, ?_⟩
  intro he
  have h1 := h.round_le
  have h2 := h'.round_le
  rcases h.choice (by omega) with hc | hc
  · exact Or.inl hc
  · rcases h'.choice (by omega) with hc' | hc'
    · exact Or.inl (hc.symm.trans hc')
    · exact Or.inr (hc'.trans hc)

theorem Step.later {o : Option ι} (h : Step v v' o) : Later v v' := by
  refine ⟨h.round_le, ?_⟩
  intro he
  cases h with
  | keep hr hc => exact Or.inr hc
  | advance hr => omega
  | cast hr hfree hc =>
      rcases hfree he with hn | hn
      · exact Or.inl hn
      · exact Or.inr (hc.trans hn.symm)

/-- The votes a voter has cast: none in a later round, those of its round are its choice, and all of
one round are the same. -/
structure Records (v : Voter ι) (cast : ℕ → ι → Prop) : Prop where
  past : ∀ t c, cast t c → t ≤ v.round
  present : ∀ c, cast v.round c → v.choice = some c
  unique : ∀ t c c', cast t c → cast t c' → c = c'

theorem Records.step {cast cast' : ℕ → ι → Prop} {o : Option ι} (h : Records v cast)
    (hs : Step v v' o) (hcast : ∀ t c, cast' t c ↔ cast t c ∨ (t = v'.round ∧ o = some c)) :
    Records v' cast' := by
  have old : ∀ c, cast v'.round c → v'.round = v.round ∧ v.choice = some c := by
    intro c hc
    have he : v'.round = v.round := by
      have := h.past _ _ hc
      have := hs.round_le
      omega
    exact ⟨he, h.present c (he ▸ hc)⟩
  have same : ∀ c d, cast v'.round c → o = some d → c = d := by
    intro c d hc hd
    obtain ⟨he, hch⟩ := old c hc
    cases hs with
    | keep hr hc => cases hd
    | advance hr => cases hd
    | cast hr hfree hc =>
        cases hd
        rcases hfree he with hn | hn
        · cases hn.symm.trans hch
        · exact Option.some.inj (hch.symm.trans hn)
  refine ⟨?_, ?_, ?_⟩
  · intro t c hc
    rcases (hcast t c).mp hc with hc | ⟨rfl, -⟩
    · exact (h.past t c hc).trans hs.round_le
    · exact le_rfl
  · intro c hc
    rcases (hcast _ c).mp hc with hc | ⟨-, ho⟩
    · obtain ⟨he, hch⟩ := old c hc
      cases hs with
      | keep hr hc => exact hc.trans hch
      | advance hr => omega
      | cast hr hfree hd => rw [hd, same c _ hc rfl]
    · subst ho
      cases hs with
      | cast hr hfree hc => exact hc
  · intro t c c' hc hc'
    rcases (hcast t c).mp hc with hc | ⟨rfl, ho⟩
    · rcases (hcast t c').mp hc' with hc' | ⟨rfl, ho'⟩
      · exact h.unique t c c' hc hc'
      · exact same c c' hc ho'
    · rcases (hcast _ c').mp hc' with hc' | ⟨-, ho'⟩
      · exact (same c' c hc' ho).symm
      · exact Option.some.inj (ho.symm.trans ho')

end Voter

section majority

variable {α ι : Type*} (E : Finset α) (vote : α → ι → Prop) [∀ c, DecidablePred (vote · c)]

/-- More than half of the electorate voted for `c`. -/
def Elected (c : ι) : Prop := E.card / 2 < (E.filter (vote · c)).card

instance (c : ι) : Decidable (Elected E vote c) :=
  inferInstanceAs (Decidable (E.card / 2 < (E.filter (vote · c)).card))

variable {E vote}

/-- Where every voter votes for at most one candidate, at most one is elected. -/
theorem Elected.unique (huniq : ∀ i ∈ E, ∀ c c', vote i c → vote i c' → c = c') {c c' : ι}
    (h : Elected E vote c) (h' : Elected E vote c') : c = c' := by
  classical
  by_contra hne
  have hdisj : Disjoint (E.filter (vote · c)) (E.filter (vote · c')) := by
    rw [Finset.disjoint_filter]
    intro i hi hc hc'
    exact hne (huniq i hi c c' hc hc')
  have hle : (E.filter (vote · c) ∪ E.filter (vote · c')).card ≤ E.card :=
    Finset.card_le_card (Finset.union_subset (Finset.filter_subset _ _) (Finset.filter_subset _ _))
  rw [Finset.card_union_of_disjoint hdisj] at hle
  unfold Elected at h h'
  omega

theorem Elected.mono {vote' : α → ι → Prop} [∀ c, DecidablePred (vote' · c)] {c : ι}
    (h : Elected E vote c) (hv : ∀ i ∈ E, vote i c → vote' i c) : Elected E vote' c := by
  refine lt_of_lt_of_le h (Finset.card_le_card ?_)
  intro i hi
  rw [Finset.mem_filter] at hi ⊢
  exact ⟨hi.1, hv i hi.1 hi.2⟩

/-- A list of different voters that is longer than half of the electorate elects. -/
theorem Elected.of_nodup [DecidableEq α] {c : ι} {voters : List α} (hn : voters.Nodup)
    (hv : ∀ i ∈ voters, i ∈ E ∧ vote i c) (h : E.card / 2 < voters.length) : Elected E vote c := by
  rw [← List.toFinset_card_of_nodup hn] at h
  refine h.trans_le (Finset.card_le_card ?_)
  intro i hi
  rw [Finset.mem_filter]
  exact hv i (List.mem_toFinset.mp hi)

end majority

end DistributedSystems
