import Mathlib

/-! Rounding to so many decimals, a half to the even neighbour. -/
namespace NetCoreNoc.Rounding

/-- The nearest whole number, the even one of two. -/
def half_even (q : ℚ) : ℤ :=
  if q - ⌊q⌋ < 1 / 2 ∨ q - ⌊q⌋ = 1 / 2 ∧ Even ⌊q⌋ then ⌊q⌋ else ⌊q⌋ + 1

theorem half_even_mono : Monotone half_even := by
  intro p q hle
  have hp : ⌊p⌋ ≤ half_even p ∧ half_even p ≤ ⌊p⌋ + 1 := by
    unfold half_even
    split <;> omega
  have hq : ⌊q⌋ ≤ half_even q ∧ half_even q ≤ ⌊q⌋ + 1 := by
    unfold half_even
    split <;> omega
  rcases (Int.floor_mono hle).lt_or_eq with hlt | heq
  · omega
  · -- between the same two whole numbers, only a greater one is rounded up
    unfold half_even
    rw [heq]
    split
    · split <;> omega
    · next hup =>
      rw [not_or, not_and_or] at hup
      rw [if_neg]
      rintro (hdown | ⟨hhalf, heven⟩)
      · exact hup.1 (by linarith)
      · rcases hup.2 with hne | hodd
        · exact hup.1 (lt_of_le_of_ne (by linarith) hne)
        · exact hodd heven

/-- `round(q, digits)` -/
def round_to (digits : ℕ) (q : ℚ) : ℚ := half_even (q * 10 ^ digits) / 10 ^ digits

theorem round_to_mono (digits : ℕ) : Monotone (round_to digits) := by
  intro p q hle
  have hscaled : p * 10 ^ digits ≤ q * 10 ^ digits := mul_le_mul_of_nonneg_right hle (by positivity)
  have h : (half_even (p * 10 ^ digits) : ℚ) ≤ half_even (q * 10 ^ digits) :=
    Int.cast_le.mpr (half_even_mono hscaled)
  exact div_le_div_of_nonneg_right h (by positivity)

end NetCoreNoc.Rounding
