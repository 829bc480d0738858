import Mathlib

/-! # File name patterns

Patterns in which `*` stands for any sequence of characters other than the separator `/` and every
other character for itself.  A pattern with one `*` matches the names that start with the part
before it and end with the part after it (`globMatch_star_iff`). -/

namespace DistributedSystems

/-- `f` matches what is left after some characters that are not separators. -/
def matchStar (f : List Char → Bool) : List Char → Bool
  | [] => f []
  | c :: s => f (c :: s) || (c != '/' && matchStar f s)

def globMatch : List Char → List Char → Bool
  | [], s => s.isEmpty
  | c :: p, s =>
      if c = '*' then matchStar (globMatch p) s
      else match s with
        | [] => false
        | d :: s => c == d && globMatch p s

theorem matchStar_iff {f : List Char → Bool} : ∀ {s : List Char},
    matchStar f s = true ↔ ∃ mid rest, s = mid ++ rest ∧ '/' ∉ mid ∧ f rest = true
  | [] => by
      constructor
      · intro h
        exact ⟨[], [], rfl, List.not_mem_nil, h⟩
      · rintro ⟨mid, rest, he, -, hf⟩
        obtain ⟨rfl, rfl⟩ := List.append_eq_nil_iff.mp he.symm
        exact hf
  | c :: s => by
      have ih := @matchStar_iff f s
      simp only [matchStar, Bool.or_eq_true, Bool.and_eq_true, bne_iff_ne, ih]
      constructor
      · rintro (h | ⟨hc, mid, rest, rfl, hmid, hf⟩)
        · exact ⟨[], c :: s, rfl, List.not_mem_nil, h⟩
        · refine ⟨c :: mid, rest, rfl, ?_, hf⟩
          rw [List.mem_cons, not_or]
          exact ⟨Ne.symm hc, hmid⟩
      · rintro ⟨mid, rest, he, hmid, hf⟩
        cases mid with
        | nil =>
            rw [List.nil_append] at he
            exact Or.inl (he ▸ hf)
        | cons d mid =>
            rw [List.cons_append, List.cons.injEq] at he
            obtain ⟨rfl, rfl⟩ := he
            rw [List.mem_cons, not_or] at hmid
            exact Or.inr ⟨Ne.symm hmid.1, mid, rest, rfl, hmid.2, hf⟩

theorem globMatch_literal : ∀ {p s : List Char}, '*' ∉ p → (globMatch p s = true ↔ s = p)
  | [], s, _ => by simp [globMatch]
  | c :: p, s, hp => by
      rw [List.mem_cons, not_or] at hp
      cases s with
      | nil => simp [globMatch, Ne.symm hp.1]
      | cons d s =>
          simp only [globMatch, if_neg (Ne.symm hp.1), Bool.and_eq_true, beq_iff_eq,
            globMatch_literal hp.2, List.cons.injEq]
          exact and_congr_left' eq_comm

theorem globMatch_append : ∀ {p q s : List Char}, '*' ∉ p →
    (globMatch (p ++ q) s = true ↔ ∃ t, s = p ++ t ∧ globMatch q t = true)
  | [], q, s, _ => by simp
  | c :: p, q, s, hp => by
      rw [List.mem_cons, not_or] at hp
      cases s with
      | nil => simp [globMatch, Ne.symm hp.1]
      | cons d s =>
          simp only [List.cons_append, globMatch, if_neg (Ne.symm hp.1), Bool.and_eq_true,
            beq_iff_eq, globMatch_append hp.2, List.cons.injEq]
          constructor
          · rintro ⟨rfl, t, rfl, ht⟩
            exact ⟨t, ⟨rfl, rfl⟩, ht⟩
          · rintro ⟨t, ⟨rfl, rfl⟩, ht⟩
            exact ⟨rfl, t, rfl, ht⟩

/-- A pattern with one `*`. -/
theorem globMatch_star_iff {p q s : List Char} (hp : '*' ∉ p) (hq : '*' ∉ q) :
    globMatch (p ++ '*' :: q) s = true ↔ ∃ mid, s = p ++ (mid ++ q) ∧ '/' ∉ mid := by
  rw [globMatch_append hp]
  constructor
  · rintro ⟨t, rfl, ht⟩
    obtain ⟨mid, rest, rfl, hmid, hrest⟩ := matchStar_iff.mp ht
    rw [(globMatch_literal hq).mp hrest]
    exact ⟨mid, rfl, hmid⟩
  · rintro ⟨mid, rfl, hmid⟩
    exact ⟨mid ++ q, rfl, matchStar_iff.mpr ⟨mid, q, rfl, hmid, (globMatch_literal hq).mpr rfl⟩⟩

end DistributedSystems
