import Mathlib
import NetCoreNoc.Json.Whole

/-! Floats with a fraction of a half or none: the laws of a Python's floats hold of them, and they compute. -/
namespace NetCoreNoc.Json

/-- Halves, and the three floats that are not finite; up to sixteen digits they print so. -/
inductive Half where
  | half (n : ℤ)
  | nan
  | infinity
  | neg_infinity
  deriving DecidableEq, Repr

namespace Half

def fraction (n : ℕ) : Str := if n % 2 = 0 then lit ".0" else lit ".5"

def magnitude (n : ℕ) : Str := natText (n / 2) ++ fraction n

def text : Half → Str
  | .half (.ofNat n) => magnitude n
  | .half (.negSucc n) => chr '-' :: magnitude (n + 1)
  | .nan => lit "NaN"
  | .infinity => lit "Infinity"
  | .neg_infinity => lit "-Infinity"

def read (s : Str) : ℕ :=
  2 * toNat (s.takeWhile (· ≠ chr '.')) + if s.dropWhile (· ≠ chr '.') = lit ".5" then 1 else 0

/-- `float` of a literal of a half. -/
def float (s : Str) : Half :=
  .half (if (scanSign s).1 = [] then (read (scanSign s).2 : ℤ) else -(read (scanSign s).2 : ℤ))

instance : PyFloat Half where
  isfinite x := x matches .half _
  nan := .nan
  infinity := .infinity
  neg_infinity := .neg_infinity
  text := text
  float := float

theorem fraction_cases (n : ℕ) : n % 2 = 0 ∧ fraction n = lit ".0" ∨ n % 2 = 1 ∧ fraction n = lit ".5" := by
  rcases Nat.mod_two_eq_zero_or_one n with h | h
  · exact .inl ⟨h, if_pos h⟩
  · exact .inr ⟨h, if_neg (by omega)⟩

theorem scanSign_magnitude (n : ℕ) : scanSign (magnitude n) = ([], magnitude n) := by
  rw [magnitude]
  rcases natText_cases (n / 2) with ⟨-, h⟩ | ⟨c, r, h, hc, -⟩
  · rw [h]
    rfl
  · have hne : c ≠ chr '-' := by
      rintro rfl
      exact absurd hc (by decide)
    rw [h, List.cons_append, scanSign, if_neg hne]

theorem scanSign_minus (r : Str) : scanSign (chr '-' :: r) = ([chr '-'], r) := by
  rw [scanSign, if_pos rfl]

/-- The integer part of a half's literal, and its fraction. -/
theorem scanNumber_magnitude {s : Str} {n : ℕ} {sign : Str} (h : scanSign s = (sign, magnitude n)) :
    scanNumber s = some ((sign ++ natText (n / 2), fraction n), []) := by
  have hwhole : scanWhole (magnitude n) = some (natText (n / 2), fraction n) := by
    rcases fraction_cases n with ⟨-, hf⟩ | ⟨-, hf⟩ <;> rw [magnitude, hf]
    · exact scanWhole_point _ _
    · exact scanWhole_point _ _
  have htail : scanFrac (fraction n) = (fraction n, []) := by
    rcases fraction_cases n with ⟨-, hf⟩ | ⟨-, hf⟩ <;> rw [hf] <;> decide
  have hend : scanExp [] = ([], []) := rfl
  rw [scanNumber, h]
  simp only [hwhole, Option.map_some, htail, hend, List.append_nil]

theorem read_magnitude (n : ℕ) : read (magnitude n) = n := by
  have hall : ∀ c ∈ natText (n / 2), (decide (c ≠ chr '.')) = true := fun c hc => by simpa using natText_point _ c hc
  rw [read, magnitude, List.takeWhile_append_of_pos hall, List.dropWhile_append_of_pos hall]
  rcases fraction_cases n with ⟨hmod, hf⟩ | ⟨hmod, hf⟩ <;> rw [hf]
  · have htake : (lit ".0").takeWhile (· ≠ chr '.') = [] := by decide
    rw [htake, List.append_nil, toNat_natText, if_neg (by decide)]
    omega
  · have htake : (lit ".5").takeWhile (· ≠ chr '.') = [] := by decide
    rw [htake, List.append_nil, toNat_natText, if_pos (by decide)]
    omega

instance : LawfulPyFloat Half where
  literal
    | .half (.ofNat n), _ => by
      refine ⟨_, _, scanNumber_magnitude (scanSign_magnitude n), ?_, rfl⟩
      rcases fraction_cases n with ⟨-, hf⟩ | ⟨-, hf⟩ <;> rw [hf] <;> decide
    | .half (.negSucc n), _ => by
      refine ⟨_, _, scanNumber_magnitude (scanSign_minus (magnitude (n + 1))), ?_, rfl⟩
      rcases fraction_cases (n + 1) with ⟨-, hf⟩ | ⟨-, hf⟩ <;> rw [hf] <;> decide
  float_text
    | .half (.ofNat n), _ => by
      show float (magnitude n) = _
      rw [float, scanSign_magnitude, if_pos rfl, read_magnitude]
      rfl
    | .half (.negSucc n), _ => by
      show float (chr '-' :: magnitude (n + 1)) = _
      rw [float, scanSign_minus, if_neg (List.cons_ne_nil _ _), read_magnitude]
      rfl
  special
    | .nan, _ => .inl ⟨rfl, rfl⟩
    | .infinity, _ => .inr (.inl ⟨rfl, rfl⟩)
    | .neg_infinity, _ => .inr (.inr ⟨rfl, rfl⟩)

def lt : Half → Half → Bool
  | .half m, .half n => m < n
  | .half _, .infinity => true
  | .neg_infinity, .half _ => true
  | .neg_infinity, .infinity => true
  | _, _ => false

instance : PyOrder Half where
  lt := lt
  lt_int x n := x.lt (.half (2 * n))
  int_lt n x := lt (.half (2 * n)) x

end Half
end NetCoreNoc.Json
