import Mathlib
import NetCoreNoc.Json.Dumps

/-! Floats with no fraction: the laws of a Python's floats hold of them, and they compute. -/
namespace NetCoreNoc.Json

/-- Floats with no fraction, and the three that are not finite; up to sixteen digits they print so. -/
inductive Whole where
  | whole (n : ℤ)
  | nan
  | infinity
  | neg_infinity
  deriving DecidableEq, Repr

def Whole.text : Whole → Str
  | .whole n => intText n ++ lit ".0"
  | .nan => lit "NaN"
  | .infinity => lit "Infinity"
  | .neg_infinity => lit "-Infinity"

instance : PyFloat Whole where
  isfinite x := x matches .whole _
  nan := .nan
  infinity := .infinity
  neg_infinity := .neg_infinity
  text := Whole.text
  float s := .whole (toInt (s.takeWhile (· ≠ chr '.')))

theorem scanWhole_point (n : ℕ) (r : Str) : scanWhole (natText n ++ chr '.' :: r) = some (natText n, chr '.' :: r) := by
  rcases natText_cases n with ⟨-, h⟩ | ⟨c, l, h, hc, hne, hall⟩
  · rw [h]
    rfl
  · have hd : digits (l ++ chr '.' :: r) = (l, chr '.' :: r) := by
      rw [digits, List.takeWhile_append_of_pos hall, List.dropWhile_append_of_pos hall,
        List.takeWhile_cons_of_neg (by decide), List.dropWhile_cons_of_neg (by decide), List.append_nil]
    rw [h, List.cons_append, scanWhole, if_neg hne, if_pos hc, hd]

theorem scanNumber_whole (n : ℤ) : scanNumber (Whole.text (.whole n)) = some ((intText n, lit ".0"), []) := by
  cases n with
  | ofNat n =>
    have hsign : scanSign (natText n ++ lit ".0") = ([], natText n ++ lit ".0") := by
      rcases natText_cases n with ⟨-, h⟩ | ⟨c, r, h, hc, -⟩
      · rw [h]
        rfl
      · have hne : c ≠ chr '-' := by
          rintro rfl
          exact absurd hc (by decide)
        rw [h, List.cons_append, scanSign, if_neg hne]
    have hwhole : scanWhole (natText n ++ lit ".0") = some (natText n, lit ".0") := scanWhole_point n _
    rw [Whole.text, intText, scanNumber, hsign, hwhole]
    rfl
  | negSucc n =>
    have hsign : scanSign (chr '-' :: natText (n + 1) ++ lit ".0") = ([chr '-'], natText (n + 1) ++ lit ".0") := rfl
    have hwhole : scanWhole (natText (n + 1) ++ lit ".0") = some (natText (n + 1), lit ".0") := scanWhole_point _ _
    rw [Whole.text, intText, scanNumber, hsign, hwhole]
    rfl

theorem natText_point (n : ℕ) : ∀ c ∈ natText n, c ≠ chr '.' := by
  intro c hc
  rw [← filter_natText, List.mem_filter] at hc
  rintro rfl
  exact absurd hc.2 (by decide)

theorem takeWhile_intText (n : ℤ) : (Whole.text (.whole n)).takeWhile (· ≠ chr '.') = intText n := by
  have hall : ∀ c ∈ intText n, (decide (c ≠ chr '.')) = true := by
    intro c hc
    cases n with
    | ofNat n => simpa using natText_point n c hc
    | negSucc n =>
      rcases List.mem_cons.mp hc with rfl | hc
      · decide
      · simpa using natText_point _ c hc
  rw [Whole.text, List.takeWhile_append_of_pos hall]
  exact List.append_nil _

instance : LawfulPyFloat Whole where
  literal
    | .whole n, _ => ⟨_, _, scanNumber_whole n, by decide, rfl⟩
  float_text
    | .whole n, _ => by
      show Whole.whole (toInt ((Whole.text (.whole n)).takeWhile (· ≠ chr '.'))) = .whole n
      rw [takeWhile_intText, toInt_intText]
  special
    | .nan, _ => .inl ⟨rfl, rfl⟩
    | .infinity, _ => .inr (.inl ⟨rfl, rfl⟩)
    | .neg_infinity, _ => .inr (.inr ⟨rfl, rfl⟩)

def Whole.lt : Whole → Whole → Bool
  | .whole m, .whole n => m < n
  | .whole _, .infinity => true
  | .neg_infinity, .whole _ => true
  | .neg_infinity, .infinity => true
  | _, _ => false

instance : PyOrder Whole where
  lt := Whole.lt
  lt_int x n := x.lt (.whole n)
  int_lt n x := Whole.lt (.whole n) x

end NetCoreNoc.Json
