import Mathlib

/-! Quantities that decay by a constant factor each epoch, stored with the epoch in which they were written. -/
namespace NetCoreNoc.Decay
variable {K : Type*} [Field K] (q : K)

/-- What a stored quantity is worth in an epoch. -/
def worth (now : ℤ) (m : K × ℤ) : K := m.1 * q ^ (now - m.2)

/-- A quantity is worth what it is in the epoch in which it is written. -/
@[simp] theorem worth_fresh (now : ℤ) (x : K) : worth q now (x, now) = x := by simp [worth]

@[simp] theorem worth_zero (now epoch : ℤ) : worth q now (0, epoch) = 0 := zero_mul _

variable {q}

/-- Epochs later, a quantity has decayed that many times. -/
theorem worth_later (hq : q ≠ 0) (now later : ℤ) (m : K × ℤ) : worth q later m = worth q now m * q ^ (later - now) := by
  unfold worth
  rw [mul_assoc, ← zpow_add₀ hq]
  congr 2
  ring

/-- A shift of the clock and of what was written keeps every age. -/
theorem worth_shift (now shift : ℤ) (m : K × ℤ) : worth q (now + shift) (m.1, m.2 + shift) = worth q now m := by
  unfold worth
  congr 2
  ring

theorem worth_scale (now : ℤ) (factor : K) (m : K × ℤ) : worth q now (m.1 * factor, m.2) = worth q now m * factor := by
  unfold worth
  ring

/-- A factor applied once for each epoch that has passed. -/
theorem iterate_decay (n : Nat) (x : K) : (· * q)^[n] x = x * q ^ n := by
  induction n with
  | zero => simp
  | succ n ih =>
    rw [Function.iterate_succ_apply', ih, pow_succ]
    exact mul_assoc ..

end NetCoreNoc.Decay
