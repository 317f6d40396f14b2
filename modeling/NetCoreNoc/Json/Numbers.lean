import Mathlib
import NetCoreNoc.Json.Strings

/-! Number literals of JSON: integers as Python prints and reads them, and floats through their literals. -/
namespace NetCoreNoc.Json

def isDigit (c : CodePoint) : Bool := 48 ≤ c.val ∧ c.val ≤ 57

/-- The characters a number literal goes on with. -/
def isNumeric (c : CodePoint) : Bool :=
  isDigit c ∨ c = chr '.' ∨ c = chr 'e' ∨ c = chr 'E' ∨ c = chr '+' ∨ c = chr '-'

/-- What follows a number does not go on with it. -/
def Ends (r : Str) : Prop := ∀ c ∈ r.head?, ¬ isNumeric c

/-- A run of digits. -/
def digits (s : Str) : Str × Str := (s.takeWhile isDigit, s.dropWhile isDigit)

def scanSign (s : Str) : Str × Str :=
  match s with
  | [] => ([], [])
  | c :: r => if c = chr '-' then ([c], r) else ([], c :: r)

/-- `0`, or digits that start with no zero. -/
def scanWhole (s : Str) : Option (Str × Str) :=
  match s with
  | [] => none
  | c :: r =>
    if c = chr '0' then some ([c], r)
    else if isDigit c then some (c :: (digits r).1, (digits r).2)
    else none

def scanFrac (s : Str) : Str × Str :=
  match s with
  | [] => ([], [])
  | c :: r => if c = chr '.' ∧ (digits r).1 ≠ [] then (c :: (digits r).1, (digits r).2) else ([], c :: r)

/-- The sign of an exponent. -/
def scanExpSign (s : Str) : Str × Str :=
  match s with
  | [] => ([], [])
  | c :: r => if c = chr '+' ∨ c = chr '-' then ([c], r) else ([], c :: r)

def scanExp (s : Str) : Str × Str :=
  match s with
  | [] => ([], [])
  | c :: r =>
    if (c = chr 'e' ∨ c = chr 'E') ∧ (digits (scanExpSign r).2).1 ≠ [] then
      (c :: (scanExpSign r).1 ++ (digits (scanExpSign r).2).1, (digits (scanExpSign r).2).2)
    else ([], c :: r)

/-- `_match_number_unicode`: the integer part and the rest of a literal, and what follows it. -/
def scanNumber (s : Str) : Option ((Str × Str) × Str) :=
  (scanWhole (scanSign s).2).map fun (whole, q) =>
    (((scanSign s).1 ++ whole, (scanFrac q).1 ++ (scanExp (scanFrac q).2).1), (scanExp (scanFrac q).2).2)

/-- The digits of `int`s that are read from text: `sys.int_info.default_max_str_digits` -/
def MAX_STR_DIGITS : ℕ := 4300

def natText (n : ℕ) : Str := (Nat.toDigits 10 n).map chr

/-- `int.__repr__` -/
def intText : ℤ → Str
  | .ofNat n => natText n
  | .negSucc n => chr '-' :: natText (n + 1)

def toNat (s : Str) : ℕ := Nat.ofDigitChars 10 (s.map fun c => Char.ofNat c.val) 0

/-- `int` of a literal. -/
def toInt (s : Str) : ℤ :=
  match s with
  | [] => 0
  | c :: r => if c = chr '-' then -(toNat r : ℤ) else toNat (c :: r)

theorem digits_append (s : Str) {r : Str} (h : Ends r) : digits (s ++ r) = ((digits s).1, (digits s).2 ++ r) := by
  have hr : r.takeWhile isDigit = [] ∧ r.dropWhile isDigit = r := by
    cases r with
    | nil => exact ⟨rfl, rfl⟩
    | cons c r =>
      have hc : ¬ isDigit c := fun hd => h c rfl (by simp [isNumeric, hd])
      exact ⟨List.takeWhile_cons_of_neg hc, List.dropWhile_cons_of_neg hc⟩
  induction s with
  | nil => simp [digits, hr]
  | cons c s ih =>
    simp only [digits, Prod.mk.injEq] at ih ⊢
    by_cases hc : isDigit c
    · simp [hc, ih]
    · simp [hc]

theorem Ends.ne {r : Str} {c : CodePoint} (h : Ends (c :: r)) :
    c ≠ chr '.' ∧ c ≠ chr 'e' ∧ c ≠ chr 'E' ∧ c ≠ chr '+' ∧ c ≠ chr '-' := by
  have hc := h c rfl
  simp only [isNumeric, decide_eq_true_eq, not_or] at hc
  tauto

theorem scanFrac_append (s : Str) {r : Str} (h : Ends r) :
    scanFrac (s ++ r) = ((scanFrac s).1, (scanFrac s).2 ++ r) := by
  cases s with
  | nil =>
    cases r with
    | nil => rfl
    | cons c r => simp [scanFrac, h.ne.1]
  | cons c s =>
    simp only [List.cons_append, scanFrac, digits_append s h]
    split_ifs <;> simp

theorem scanExpSign_append (s : Str) {r : Str} (h : Ends r) :
    scanExpSign (s ++ r) = ((scanExpSign s).1, (scanExpSign s).2 ++ r) := by
  cases s with
  | nil =>
    cases r with
    | nil => rfl
    | cons c r => simp [scanExpSign, h.ne.2.2.2.1, h.ne.2.2.2.2]
  | cons c s =>
    simp only [List.cons_append, scanExpSign]
    split_ifs <;> simp

theorem scanExp_append (s : Str) {r : Str} (h : Ends r) :
    scanExp (s ++ r) = ((scanExp s).1, (scanExp s).2 ++ r) := by
  cases s with
  | nil =>
    cases r with
    | nil => rfl
    | cons c r => simp [scanExp, h.ne.2.1, h.ne.2.2.1]
  | cons c s =>
    simp only [List.cons_append, scanExp, scanExpSign_append s h, digits_append _ h]
    split_ifs <;> simp

theorem scanWhole_append {s w q : Str} (hs : scanWhole s = some (w, q)) {r : Str} (h : Ends r) :
    scanWhole (s ++ r) = some (w, q ++ r) := by
  cases s with
  | nil => simp [scanWhole] at hs
  | cons c s =>
    simp only [List.cons_append, scanWhole, digits_append s h] at hs ⊢
    split_ifs at hs ⊢ <;> simp_all

/-- A literal is read up to its end. -/
theorem scanNumber_append {s w f q : Str} (hs : scanNumber s = some ((w, f), q)) {r : Str} (h : Ends r) :
    scanNumber (s ++ r) = some ((w, f), q ++ r) := by
  obtain ⟨⟨whole, q'⟩, hw, hq⟩ := Option.map_eq_some_iff.mp hs
  have hne : (scanSign s).2 ≠ [] := by
    intro hnil
    rw [hnil] at hw
    simp [scanWhole] at hw
  have hsign : scanSign (s ++ r) = ((scanSign s).1, (scanSign s).2 ++ r) := by
    cases s with
    | nil => exact absurd rfl hne
    | cons c s =>
      simp only [List.cons_append, scanSign]
      split_ifs <;> simp
  rw [scanNumber, hsign]
  simp only [scanWhole_append hw h, Option.map_some, scanFrac_append _ h, scanExp_append _ h]
  simp only [Prod.mk.injEq] at hq
  obtain ⟨⟨rfl, rfl⟩, rfl⟩ := hq
  rfl

theorem chr_digitChar {d : ℕ} (h : d < 10) : (chr d.digitChar).val = 48 + d := by
  interval_cases d <;> rfl

theorem isDigit_digitChar {d : ℕ} (h : d < 10) : isDigit (chr d.digitChar) := by
  rw [isDigit, chr_digitChar h]
  exact decide_eq_true ⟨by omega, by omega⟩

/-- The digits of a number: `0` alone, or the first is none. -/
theorem natText_cases (n : ℕ) : n = 0 ∧ natText n = [chr '0'] ∨
    ∃ c r, natText n = c :: r ∧ isDigit c ∧ c ≠ chr '0' ∧ ∀ d ∈ r, isDigit d := by
  induction n using Nat.strong_induction_on with
  | _ n ih =>
    rw [natText, Nat.toDigits_eq_if (by decide)]
    split
    · next h =>
      by_cases h0 : n = 0
      · subst h0
        exact .inl ⟨rfl, rfl⟩
      · refine .inr ⟨_, [], rfl, isDigit_digitChar h, fun he => ?_, nofun⟩
        have hv := congrArg Fin.val he
        have hzero : (chr '0').val = 48 := rfl
        rw [chr_digitChar h, hzero] at hv
        exact h0 (by omega)
    · next h =>
      have hlast := isDigit_digitChar (Nat.mod_lt n (by decide : 10 > 0))
      rw [List.map_append]
      rcases ih (n / 10) (Nat.div_lt_self (by omega) (by decide)) with ⟨h0, -⟩ | ⟨c, r, hr, hc, hne, hall⟩
      · exact absurd h0 (by omega)
      · rw [natText] at hr
        refine .inr ⟨c, r ++ [chr (n % 10).digitChar], by rw [hr]; rfl, hc, hne, fun d hd => ?_⟩
        rcases List.mem_append.mp hd with hd | hd
        · exact hall d hd
        · exact List.mem_singleton.mp hd ▸ hlast

theorem scanWhole_natText (n : ℕ) : scanWhole (natText n) = some (natText n, []) := by
  rcases natText_cases n with ⟨-, h⟩ | ⟨c, r, h, hc, hne, hall⟩
  · rw [h]
    rfl
  · have hd : digits r = (r, []) := by
      rw [digits, List.takeWhile_eq_self_iff.mpr hall, List.dropWhile_eq_nil_iff.mpr hall]
    rw [h, scanWhole, if_neg hne, if_pos hc, hd]

theorem scanSign_natText (n : ℕ) : scanSign (natText n) = ([], natText n) := by
  rcases natText_cases n with ⟨-, h⟩ | ⟨c, r, h, hc, -⟩
  · rw [h]
    rfl
  · have hne : c ≠ chr '-' := by
      rintro rfl
      exact absurd hc (by decide)
    rw [h, scanSign, if_neg hne]

theorem scanNumber_intText (n : ℤ) : scanNumber (intText n) = some ((intText n, []), []) := by
  cases n with
  | ofNat n =>
    rw [intText, scanNumber, scanSign_natText, scanWhole_natText]
    rfl
  | negSucc n =>
    have hsign : scanSign (chr '-' :: natText (n + 1)) = ([chr '-'], natText (n + 1)) := rfl
    rw [intText, scanNumber, hsign, scanWhole_natText]
    rfl

theorem toNat_natText (n : ℕ) : toNat (natText n) = n := by
  have hc : ∀ c ∈ Nat.toDigits 10 n, Char.ofNat (chr c).val = c := by
    intro c hc
    have hd := Nat.isDigit_of_mem_toDigits (by decide) (by decide) hc
    have hlt : c.toNat < 0x110000 := by
      simp only [Char.isDigit, Bool.and_eq_true, decide_eq_true_eq] at hd
      have := UInt32.le_iff_toNat_le.mp hd.2
      exact lt_of_le_of_lt this (by decide)
    have hv : (chr c).val = c.toNat := Nat.mod_eq_of_lt hlt
    rw [hv, Char.ofNat_toNat]
  rw [toNat, natText, List.map_map, List.map_congr_left (g := id) (by simpa using hc), List.map_id]
  exact Nat.ofDigitChars_ten_toDigits

theorem toInt_intText (n : ℤ) : toInt (intText n) = n := by
  cases n with
  | ofNat n =>
    have hn := toNat_natText n
    have hsign := scanSign_natText n
    rw [intText]
    rcases natText_cases n with ⟨-, h⟩ | ⟨c, r, h, hc, -⟩
    · rw [h] at hn ⊢
      rw [← hn]
      rfl
    · have hne : c ≠ chr '-' := by
        rintro rfl
        exact absurd hc (by decide)
      rw [h] at hn ⊢
      rw [toInt, if_neg hne, hn]
      rfl
  | negSucc n =>
    rw [intText, toInt, if_pos rfl, toNat_natText]
    rfl

/-- The floats of a Python, as far as JSON reads and prints them. -/
class PyFloat (F : Type) where
  isfinite : F → Bool
  nan : F
  infinity : F
  neg_infinity : F
  /-- `floatstr`: the `repr` of a finite one, and a word of the others -/
  text : F → Str
  /-- `float` of a literal -/
  float : Str → F

/-- What Python documents of them: a finite one prints as a literal with a fraction or an exponent, that reads as
itself, and the others are three. -/
class LawfulPyFloat (F : Type) [PyFloat F] : Prop where
  literal : ∀ x : F, PyFloat.isfinite x = true →
    ∃ w f : Str, scanNumber (PyFloat.text x) = some ((w, f), []) ∧ f ≠ [] ∧ w ++ f = PyFloat.text x
  float_text : ∀ x : F, PyFloat.isfinite x = true → PyFloat.float (PyFloat.text x) = x
  special : ∀ x : F, PyFloat.isfinite x = false → x = PyFloat.nan ∧ PyFloat.text x = lit "NaN" ∨
    x = PyFloat.infinity ∧ PyFloat.text x = lit "Infinity" ∨
    x = PyFloat.neg_infinity ∧ PyFloat.text x = lit "-Infinity"

end NetCoreNoc.Json
