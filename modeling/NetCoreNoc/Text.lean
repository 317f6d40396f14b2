import Mathlib
import NetCoreNoc.Json.Numbers

/-! Python's `str`: white space and decimal digits, `strip`, `split`, and the words and numbers of a text. -/
namespace NetCoreNoc.Text

open Json

/-- The ranges of `str.isspace`. -/
def SPACES : List (ℕ × ℕ) :=
  [(0x9, 0xd), (0x1c, 0x20), (0x85, 0x85), (0xa0, 0xa0), (0x1680, 0x1680), (0x2000, 0x200a), (0x2028, 0x2029),
    (0x202f, 0x202f), (0x205f, 0x205f), (0x3000, 0x3000)]

def isWhite (c : CodePoint) : Bool := SPACES.any fun r => r.1 ≤ c.val ∧ c.val ≤ r.2

/-- The zeros of the runs of ten decimal digits, general category Nd. -/
def ZEROS : List ℕ :=
  [0x30, 0x660, 0x6f0, 0x7c0, 0x966, 0x9e6, 0xa66, 0xae6, 0xb66, 0xbe6, 0xc66, 0xce6, 0xd66, 0xde6, 0xe50, 0xed0,
    0xf20, 0x1040, 0x1090, 0x17e0, 0x1810, 0x1946, 0x19d0, 0x1a80, 0x1a90, 0x1b50, 0x1bb0, 0x1c40, 0x1c50, 0xa620, 0xa8d0,
    0xa900, 0xa9d0, 0xa9f0, 0xaa50, 0xabf0, 0xff10, 0x104a0, 0x10d30, 0x11066, 0x110f0, 0x11136, 0x111d0, 0x112f0,
    0x11450, 0x114d0, 0x11650, 0x116c0, 0x11730, 0x118e0, 0x11950, 0x11c50, 0x11d50, 0x11da0, 0x11f50, 0x16a60, 0x16ac0,
    0x16b50, 0x1d7ce, 0x1d7d8, 0x1d7e2, 0x1d7ec, 0x1d7f6, 0x1e140, 0x1e2f0, 0x1e4f0, 0x1e950, 0x1fbf0]

/-- `\d` -/
def isDecimal (c : CodePoint) : Bool := ZEROS.any fun z => z ≤ c.val ∧ c.val ≤ z + 9

/-- The ranges of the digits that are not decimal, such as superscripts. -/
def NUMERALS : List (ℕ × ℕ) :=
  [(0xb2, 0xb3), (0xb9, 0xb9), (0x1369, 0x1371), (0x19da, 0x19da), (0x2070, 0x2070), (0x2074, 0x2079), (0x2080, 0x2089),
    (0x2460, 0x2468), (0x2474, 0x247c), (0x2488, 0x2490), (0x24ea, 0x24ea), (0x24f5, 0x24fd), (0x24ff, 0x24ff),
    (0x2776, 0x277e), (0x2780, 0x2788), (0x278a, 0x2792), (0x10a40, 0x10a43), (0x10e60, 0x10e68), (0x11052, 0x1105a),
    (0x1f100, 0x1f10a)]

/-- `str.isdigit` -/
def isdigit (s : Str) : Bool :=
  s ≠ [] && s.all fun c => isDecimal c || NUMERALS.any fun r => r.1 ≤ c.val ∧ c.val ≤ r.2

/-- `unicodedata.decimal` -/
def decimal (c : CodePoint) : ℕ := ((ZEROS.find? fun z => z ≤ c.val ∧ c.val ≤ z + 9).map (c.val - ·)).getD 0

/-- `int`, of a text that is digits; the literal that it refuses with a `ValueError`. -/
def intOf (s : Str) : Except Str ℕ :=
  if s.all isDecimal then .ok (s.foldl (fun n c => 10 * n + decimal c) 0) else .error s

def strip (s : Str) : Str := (s.dropWhile isWhite).rdropWhile isWhite

/-- `s.split()[0]`, where there is one -/
def firstWord (s : Str) : Option Str :=
  match s.dropWhile isWhite with
  | [] => none
  | c :: r => some ((c :: r).takeWhile fun c => !isWhite c)

def isLetter (c : CodePoint) : Bool := (65 ≤ c.val ∧ c.val ≤ 90) ∨ (97 ≤ c.val ∧ c.val ≤ 122)

def isWordly (c : CodePoint) : Bool := isLetter c ∨ isDigit c ∨ c = chr '_' ∨ c = chr '-'

/-- `[A-Za-z][A-Za-z0-9_-]*`, from inside a word or from between two. -/
def wordsFrom : Option Str → Str → List Str
  | none, [] => []
  | some w, [] => [w]
  | none, c :: s => if isLetter c then wordsFrom (some [c]) s else wordsFrom none s
  | some w, c :: s => if isWordly c then wordsFrom (some (w ++ [c])) s else w :: wordsFrom none s

def words (s : Str) : List Str := wordsFrom none s

/-- `[-+]?\d+(?:\.\d+)?` at the start of a text. -/
def numberAt (s : Str) : Option Str :=
  let sign := s.take (if s.head? = some (chr '-') ∨ s.head? = some (chr '+') then 1 else 0)
  let whole := (s.drop sign.length).takeWhile isDecimal
  let rest := (s.drop sign.length).dropWhile isDecimal
  let fraction := (rest.drop 1).takeWhile isDecimal
  if whole = [] then none
  else if rest.head? = some (chr '.') ∧ fraction ≠ [] then some (sign ++ whole ++ chr '.' :: fraction)
  else some (sign ++ whole)

/-- The first number of a text. -/
def firstNumber (s : Str) : Option Str := s.tails.findSome? numberAt

/-- The text behind the first occurrence of another, as `find` places it. -/
def behind (word s : Str) : Option Str := (s.tails.find? fun t => word.isPrefixOf t).map (·.drop word.length)

/-- Without the dot that an OID may start with. -/
def undotted (s : Str) : Str := if s.head? = some (chr '.') then s.drop 1 else s

/-- The number of groups of `\.?\d+(\.\d+)*`, where a text is one: an OID in numbers. -/
def dotted (s : Str) : Option ℕ :=
  let parts := (undotted s).splitOn (chr '.')
  if ∀ p ∈ parts, p ≠ [] ∧ p.all isDecimal then some (parts.length - 1) else none

theorem strip_strip (s : Str) : strip (strip s) = strip s := by
  have hhead : (strip s).dropWhile isWhite = strip s := by
    refine List.dropWhile_eq_self_iff.mpr fun hpos => ?_
    have hstart : strip s <+: s.dropWhile isWhite := List.rdropWhile_prefix isWhite _
    rw [hstart.getElem hpos]
    simpa using List.dropWhile_get_zero_not isWhite s (hpos.trans_le hstart.length_le)
  rw [strip, hhead]
  exact List.rdropWhile_idempotent isWhite _

theorem mem_strip {c : CodePoint} {s : Str} (h : c ∈ strip s) : c ∈ s :=
  (List.dropWhile_suffix isWhite).subset ((List.rdropWhile_prefix isWhite _).subset h)

/-- Only white space is stripped. -/
theorem mem_strip_or {c : CodePoint} {s : Str} (h : c ∈ s) : c ∈ strip s ∨ isWhite c := by
  have hdrop {l : Str} (h : c ∈ l) : c ∈ l.dropWhile isWhite ∨ isWhite c := by
    rw [← List.takeWhile_append_dropWhile (p := isWhite) (l := l)] at h
    exact (List.mem_append.mp h).symm.imp_right fun h => List.mem_takeWhile_imp h
  rcases hdrop h with h | h
  · rw [strip, List.rdropWhile, List.mem_reverse]
    exact hdrop (List.mem_reverse.mpr h)
  · exact .inr h

theorem strip_white {s : Str} (h : ∀ c ∈ s, isWhite c) : strip s = [] := by
  rw [strip, List.dropWhile_eq_nil_iff.mpr h]
  rfl

theorem firstWord_none {s : Str} (h : firstWord s = none) : ∀ c ∈ s, isWhite c := by
  unfold firstWord at h
  split at h
  · next hnil => exact List.dropWhile_eq_nil_iff.mp hnil
  · cases h

theorem firstWord_isSome {s : Str} (h : strip s ≠ []) : (firstWord s).isSome := by
  rcases hword : firstWord s with - | w
  · exact absurd (strip_white (firstWord_none hword)) h
  · rfl

theorem mem_intercalate {c : CodePoint} {sep : Str} {l : List Str} (h : c ∈ sep.intercalate l) :
    c ∈ sep ∨ ∃ s ∈ l, c ∈ s := by
  have hinter {t : Str} {l : List Str} (ht : t ∈ l.intersperse sep) : t = sep ∨ t ∈ l := by
    induction l with
    | nil => exact .inr ht
    | cons x l ih =>
      cases l with
      | nil => exact .inr ht
      | cons y l =>
        rw [List.intersperse_cons_cons, List.mem_cons, List.mem_cons] at ht
        rcases ht with rfl | rfl | ht
        · exact .inr List.mem_cons_self
        · exact .inl rfl
        · exact (ih ht).imp_right (List.mem_cons_of_mem x)
  obtain ⟨t, ht, hc⟩ := List.mem_flatten.mp h
  rcases hinter ht with rfl | ht
  · exact .inl hc
  · exact .inr ⟨t, ht, hc⟩

theorem dotted_chars {s : Str} {n : ℕ} (h : dotted s = some n) : ∀ c ∈ s, c = chr '.' ∨ isDecimal c := by
  unfold dotted at h
  dsimp only at h
  split at h
  · next hparts =>
    have hrest : ∀ c ∈ undotted s, c = chr '.' ∨ isDecimal c := by
      intro c hc
      have hjoin : undotted s = [chr '.'].intercalate ((undotted s).splitOn (chr '.')) :=
        (List.intercalate_splitOn (chr '.')).symm
      rw [hjoin] at hc
      rcases mem_intercalate hc with hc | ⟨p, hp, hc⟩
      · exact .inl (List.mem_singleton.mp hc)
      · exact .inr (List.all_eq_true.mp (hparts p hp).2 c hc)
    intro c hc
    unfold undotted at hrest
    split at hrest
    · next hhead =>
      cases s with
      | nil => cases hc
      | cons d s =>
        rcases List.mem_cons.mp hc with rfl | hc
        · exact .inl (Option.some.inj hhead)
        · exact hrest c hc
    · exact hrest c hc
  · cases h

end NetCoreNoc.Text
