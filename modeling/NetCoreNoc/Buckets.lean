import Mathlib

/-! Token buckets: what a bucket holds while it fills at a steady rate, up to a capacity. -/
namespace NetCoreNoc.Buckets

/-- What a bucket held when it was last touched. -/
structure Bucket (R : Type*) where
  tokens : R
  last : R
  deriving DecidableEq

variable {R : Type*} [Field R] [LinearOrder R]

/-- What it holds by now. -/
def level (capacity refill : R) (b : Bucket R) (now : R) : R := min capacity (b.tokens + (now - b.last) * refill)

variable {capacity refill : R} {b : Bucket R} {s t : R}

theorem level_le (capacity refill : R) (b : Bucket R) (now : R) : level capacity refill b now ≤ capacity := min_le_left _ _

theorem level_touched (tokens now : R) : level capacity refill ⟨tokens, now⟩ now = min capacity tokens := by
  rw [level, sub_self, zero_mul, add_zero]

variable [IsStrictOrderedRing R]

/-- In a span of time no more comes in than the rate gives. -/
theorem level_later (hrefill : 0 ≤ refill) (h : s ≤ t) :
    level capacity refill b t ≤ level capacity refill b s + refill * (t - s) := by
  have hfilled : 0 ≤ refill * (t - s) := mul_nonneg hrefill (sub_nonneg.mpr h)
  have hsplit : b.tokens + (t - b.last) * refill = b.tokens + (s - b.last) * refill + refill * (t - s) := by ring
  rw [level, level, hsplit, ← min_add_add_right]
  exact min_le_min_right _ (le_add_of_nonneg_right hfilled)

theorem level_nonneg (hcapacity : 0 ≤ capacity) (hrefill : 0 ≤ refill) (htokens : 0 ≤ b.tokens) (h : b.last ≤ t) :
    0 ≤ level capacity refill b t :=
  le_min hcapacity (add_nonneg htokens (mul_nonneg (sub_nonneg.mpr h) hrefill))

/-- Whoever waits as long as a token takes to come in finds one. -/
theorem one_le_level (hcapacity : 1 ≤ capacity) (hrefill : 0 < refill) (htokens : 0 ≤ b.tokens)
    (h : b.last + 1 / refill ≤ t) : 1 ≤ level capacity refill b t := by
  have hwaited : 1 ≤ (t - b.last) * refill := by
    rw [← div_le_iff₀ hrefill]
    linarith
  exact le_min hcapacity (by linarith)

end NetCoreNoc.Buckets
