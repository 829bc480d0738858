import Mathlib

/-! # Decimal numerals

Facts about the decimal notation of numbers that names built from counters rest on: the numerals of
natural numbers are nonempty strings of digits and determine the number, and those of integers have
no other character than digits and the sign. -/

namespace DistributedSystems

theorem isDigit_of_mem_toString {k : ℕ} {c : Char} (h : c ∈ (toString k).toList) :
    c.isDigit = true := by
  rw [show toString k = k.repr from rfl, Nat.toList_repr] at h
  exact Nat.isDigit_of_mem_toDigits (by decide) (by decide) h

theorem not_mem_toString {k : ℕ} {c : Char} (h : c.isDigit = false) : c ∉ (toString k).toList := by
  intro hc
  cases h.symm.trans (isDigit_of_mem_toString hc)

theorem not_mem_toString_int {z : ℤ} {c : Char} (h : c.isDigit = false) (hsign : c ≠ '-') :
    c ∉ (toString z).toList := by
  cases z with
  | ofNat k => exact not_mem_toString h
  | negSucc k =>
      have hlist : (toString (Int.negSucc k)).toList = '-' :: (toString (k + 1)).toList := by
        rw [show toString (Int.negSucc k) = "-" ++ toString (k + 1) from rfl, String.toList_append]
        rfl
      rw [hlist, List.mem_cons, not_or]
      exact ⟨hsign, not_mem_toString h⟩

theorem toString_toList_ne_nil (k : ℕ) : (toString k).toList ≠ [] := by
  rw [show toString k = k.repr from rfl, Nat.toList_repr]
  exact Nat.toDigits_ne_nil

theorem toString_ne_empty (k : ℕ) : toString k ≠ "" := by
  intro h
  exact toString_toList_ne_nil k (congrArg String.toList h)

theorem toString_injective {k m : ℕ} (h : toString k = toString m) : k = m := Nat.repr_injective h

/-- The last separator splits a list in only one way. -/
theorem append_cons_inj_of_not_mem {α : Type} {a : α} {x y x' y' : List α} (hy : a ∉ y)
    (hy' : a ∉ y') (h : x ++ a :: y = x' ++ a :: y') : x = x' ∧ y = y' := by
  rcases List.append_eq_append_iff.mp h with ⟨z, rfl, hz⟩ | ⟨z, rfl, hz⟩
  · cases z with
    | nil => simpa using hz
    | cons b z =>
        rw [List.cons_append, List.cons.injEq] at hz
        exact absurd (by simp [hz.2]) hy
  · cases z with
    | nil => simpa [eq_comm] using hz
    | cons b z =>
        rw [List.cons_append, List.cons.injEq] at hz
        exact absurd (by simp [hz.2]) hy'

end DistributedSystems
