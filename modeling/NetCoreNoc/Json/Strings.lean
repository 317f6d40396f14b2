import Mathlib

/-! String literals of JSON as Python's `json` writes and reads them: ASCII out, and an escaped surrogate pair in is one
code point. -/
namespace NetCoreNoc.Json

/-- A code point, surrogates among them. -/
abbrev CodePoint := Fin 0x110000

/-- A Python `str`. -/
abbrev Str := List CodePoint

instance codePoints_ne_zero : NeZero 0x110000 := ⟨by decide⟩

instance codePoint_lawfulBEq : LawfulBEq CodePoint := inferInstance

instance str_lawfulBEq : LawfulBEq Str := inferInstance

def chr (c : Char) : CodePoint := Fin.ofNat _ c.toNat

def lit (s : String) : Str := s.toList.map chr

def quote : CodePoint := 34
def backslash : CodePoint := 92

/-- The escapes of one letter that are written: `ESCAPE_DCT`. -/
def ESCAPES : List (CodePoint × CodePoint) :=
  [(92, 92), (34, 34), (8, 98), (12, 102), (10, 110), (13, 114), (9, 116)]

/-- The escapes of one letter that are read: `BACKSLASH`. -/
def BACKSLASH : List (CodePoint × CodePoint) :=
  [(34, 34), (92, 92), (47, 47), (98, 8), (102, 12), (110, 10), (114, 13), (116, 9)]

def hexDigit (n : ℕ) : CodePoint := Fin.ofNat _ (if n < 10 then 48 + n else 87 + n)

/-- `\uXXXX` -/
def unit (n : ℕ) : Str :=
  [backslash, 117, hexDigit (n / 4096 % 16), hexDigit (n / 256 % 16), hexDigit (n / 16 % 16), hexDigit (n % 16)]

def high (c : CodePoint) : ℕ := 0xd800 + (c.val - 0x10000) / 0x400
def low (c : CodePoint) : ℕ := 0xdc00 + (c.val - 0x10000) % 0x400

def escape (c : CodePoint) : Str :=
  match ESCAPES.lookup c with
  | some e => [backslash, e]
  | none =>
    if 32 ≤ c.val ∧ c.val ≤ 126 then [c]
    else if c.val < 0x10000 then unit c.val
    else unit (high c) ++ unit (low c)

/-- `py_encode_basestring_ascii` -/
def dumpStr (s : Str) : Str := quote :: s.flatMap escape ++ [quote]

def hexVal (c : CodePoint) : Option ℕ :=
  if 48 ≤ c.val ∧ c.val ≤ 57 then some (c.val - 48)
  else if 97 ≤ c.val ∧ c.val ≤ 102 then some (c.val - 87)
  else if 65 ≤ c.val ∧ c.val ≤ 70 then some (c.val - 55)
  else none

def hexVals (a b c d : CodePoint) : Option ℕ := do
  let a ← hexVal a
  let b ← hexVal b
  let c ← hexVal c
  let d ← hexVal d
  some (a * 4096 + b * 256 + c * 16 + d)

/-- A code point of a literal, and whether `\u` wrote it. -/
structure Piece where
  c : CodePoint
  escaped : Bool
  deriving DecidableEq, Repr

/-- A literal up to its closing quote. A control character in it is an error. -/
def pieces : Str → Option (List Piece × Str)
  | [] => none
  | c :: r =>
    if c = quote then some ([], r)
    else if c = backslash then
      match r with
      | [] => none
      | e :: r =>
        if e = 117 then
          match r with
          | a :: b :: c :: d :: r =>
            match hexVals a b c d, pieces r with
            | some n, some (l, r) => some (⟨Fin.ofNat _ n, true⟩ :: l, r)
            | _, _ => none
          | _ => none
        else match BACKSLASH.lookup e, pieces r with
          | some c, some (l, r) => some (⟨c, false⟩ :: l, r)
          | _, _ => none
    else if c.val < 32 then none
    else match pieces r with
      | some (l, r) => some (⟨c, false⟩ :: l, r)
      | none => none
termination_by structural s => s

def isHigh (c : CodePoint) : Bool := 0xd800 ≤ c.val ∧ c.val ≤ 0xdbff
def isLow (c : CodePoint) : Bool := 0xdc00 ≤ c.val ∧ c.val ≤ 0xdfff

/-- The code point of a surrogate pair. -/
def pair (h l : CodePoint) : CodePoint := Fin.ofNat _ (0x10000 + (h.val - 0xd800) * 0x400 + (l.val - 0xdc00))

/-- Two escapes that are a surrogate pair are one code point. -/
def join : List Piece → Str
  | [] => []
  | [p] => [p.c]
  | p :: q :: r =>
    if p.escaped ∧ q.escaped ∧ isHigh p.c ∧ isLow q.c then pair p.c q.c :: join r else p.c :: join (q :: r)

/-- `scanstring`, past the opening quote. -/
def scanstring (s : Str) : Option (Str × Str) := (pieces s).map fun (l, r) => (join l, r)

/-- A string as its literal reads: surrogates that meet are one code point. -/
def joined : Str → Str
  | [] => []
  | [c] => [c]
  | c :: d :: r => if isHigh c ∧ isLow d then pair c d :: joined r else c :: joined (d :: r)

/-- The pieces that a code point is written as. -/
def written (c : CodePoint) : List Piece :=
  if (ESCAPES.lookup c).isSome ∨ 32 ≤ c.val ∧ c.val ≤ 126 then [⟨c, false⟩]
  else if c.val < 0x10000 then [⟨c, true⟩]
  else [⟨Fin.ofNat _ (high c), true⟩, ⟨Fin.ofNat _ (low c), true⟩]

-- what is written is read back one turn of `pieces` at a time
attribute [local simp] pieces hexVals

theorem hexVal_hexDigit {n : ℕ} (h : n < 16) : hexVal (hexDigit n) = some n := by
  interval_cases n <;> rfl

theorem hexVals_digits {n : ℕ} (h : n < 0x10000) :
    hexVals (hexDigit (n / 4096 % 16)) (hexDigit (n / 256 % 16)) (hexDigit (n / 16 % 16)) (hexDigit (n % 16)) =
      some n := by
  simp only [hexVals, hexVal_hexDigit (Nat.mod_lt _ (by decide : 0 < 16)), Option.bind_eq_bind, Option.bind_some]
  congr 1
  omega

theorem pieces_quote (r : Str) : pieces (quote :: r) = some ([], r) := by
  rw [pieces.eq_def]
  exact if_pos rfl

theorem pieces_plain {c : CodePoint} (hq : c ≠ quote) (hb : c ≠ backslash) (h : 32 ≤ c.val) (r : Str) :
    pieces (c :: r) = (pieces r).map fun (l, q) => (⟨c, false⟩ :: l, q) := by
  rw [pieces.eq_def]
  simp only [hq, hb, if_false, not_lt.mpr h]
  cases pieces r <;> rfl

theorem pieces_short {e c : CodePoint} (he : e ≠ 117) (h : BACKSLASH.lookup e = some c) (r : Str) :
    pieces (backslash :: e :: r) = (pieces r).map fun (l, q) => (⟨c, false⟩ :: l, q) := by
  rw [pieces.eq_def]
  simp only [show backslash ≠ quote by decide, he, if_false, if_true, h]
  cases pieces r <;> rfl

theorem pieces_unit {n : ℕ} (h : n < 0x10000) (r : Str) :
    pieces (unit n ++ r) = (pieces r).map fun (l, q) => (⟨Fin.ofNat _ n, true⟩ :: l, q) := by
  rw [unit, pieces.eq_def]
  simp only [List.cons_append, List.nil_append, show backslash ≠ quote by decide, if_false, if_true, hexVals_digits h]
  cases pieces r <;> rfl

theorem escapes_cases {c e : CodePoint} (h : ESCAPES.lookup c = some e) :
    BACKSLASH.lookup e = some c ∧ e ≠ 117 := by
  obtain ⟨l, r, hl, -⟩ := List.lookup_eq_some_iff.mp h
  have hin : (c, e) ∈ ESCAPES := by rw [hl]; simp
  simp only [ESCAPES, List.mem_cons, Prod.mk.injEq, List.not_mem_nil, or_false] at hin
  rcases hin with ⟨rfl, rfl⟩ | ⟨rfl, rfl⟩ | ⟨rfl, rfl⟩ | ⟨rfl, rfl⟩ | ⟨rfl, rfl⟩ | ⟨rfl, rfl⟩ | ⟨rfl, rfl⟩ <;>
    exact ⟨rfl, by decide⟩

theorem pieces_escape (c : CodePoint) (r : Str) :
    pieces (escape c ++ r) = (pieces r).map fun (l, q) => (written c ++ l, q) := by
  unfold escape written
  split
  · next e he =>
    obtain ⟨hb, hu⟩ := escapes_cases he
    simp only [he, Option.isSome_some, true_or, if_true]
    exact pieces_short hu hb r
  · next he =>
    have hq : c ≠ quote := by rintro rfl; exact absurd he (by decide)
    have hb : c ≠ backslash := by rintro rfl; exact absurd he (by decide)
    simp only [he, Option.isSome_none, Bool.false_eq_true, false_or]
    split_ifs with hp hc
    · exact pieces_plain hq hb hp.1 r
    · rw [pieces_unit hc]
      simp
    · have hc' := c.isLt
      rw [List.append_assoc, pieces_unit (by unfold high; omega), pieces_unit (by unfold low; omega)]
      cases pieces r <;> rfl

theorem pieces_escapes (s r : Str) :
    pieces (s.flatMap escape ++ quote :: r) = some (s.flatMap written, r) := by
  induction s with
  | nil => exact pieces_quote r
  | cons c s ih =>
    rw [List.flatMap_cons, List.append_assoc, pieces_escape, ih]
    rfl

/-- A surrogate is written as an escape. -/
theorem written_surrogate {c : CodePoint} (h : 0xd800 ≤ c.val) (h' : c.val ≤ 0xdfff) : written c = [⟨c, true⟩] := by
  have he : ESCAPES.lookup c = none := by
    rw [List.lookup_eq_none_iff]
    intro p hp
    simp only [ESCAPES, List.mem_cons, List.not_mem_nil, or_false] at hp
    have hne : p.1.val < 0xd800 := by rcases hp with rfl | rfl | rfl | rfl | rfl | rfl | rfl <;> decide
    simpa using fun hc : c = p.1 => absurd (hc ▸ h) (by omega)
  simp [written, he, show ¬ c.val ≤ 126 by omega, show c.val < 0x10000 by omega]

/-- What the first piece of a code point is, and the rest. -/
theorem written_cases (c : CodePoint) :
    (∃ e, written c = [⟨c, e⟩] ∧ (isHigh c ∨ isLow c → e = true) ∧ c.val < 0x10000) ∨
      ∃ h l : CodePoint, written c = [⟨h, true⟩, ⟨l, true⟩] ∧ isHigh h ∧ isLow l ∧ pair h l = c ∧ 0x10000 ≤ c.val := by
  by_cases hs : 0xd800 ≤ c.val ∧ c.val ≤ 0xdfff
  · exact .inl ⟨true, written_surrogate hs.1 hs.2, fun _ => rfl, by omega⟩
  have hnone : ¬ (isHigh c ∨ isLow c) := by simp [isHigh, isLow]; omega
  unfold written
  split_ifs with hp hc
  · refine .inl ⟨false, rfl, fun h => absurd h hnone, ?_⟩
    rcases hp with hp | hp
    · obtain ⟨e, he⟩ := Option.isSome_iff_exists.mp hp
      obtain ⟨l, r, hl, -⟩ := List.lookup_eq_some_iff.mp he
      have hin : (c, e) ∈ ESCAPES := by rw [hl]; simp
      simp only [ESCAPES, List.mem_cons, Prod.mk.injEq, List.not_mem_nil, or_false] at hin
      rcases hin with ⟨rfl, -⟩ | ⟨rfl, -⟩ | ⟨rfl, -⟩ | ⟨rfl, -⟩ | ⟨rfl, -⟩ | ⟨rfl, -⟩ | ⟨rfl, -⟩ <;> decide
    · omega
  · exact .inl ⟨true, rfl, fun _ => rfl, hc⟩
  · have hc' := c.isLt
    have hhigh : (Fin.ofNat 0x110000 (high c)).val = high c := Nat.mod_eq_of_lt (by unfold high; omega)
    have hlow : (Fin.ofNat 0x110000 (low c)).val = low c := Nat.mod_eq_of_lt (by unfold low; omega)
    refine .inr ⟨_, _, rfl, ?_, ?_, ?_, not_lt.mp hc⟩
    · simp only [isHigh, hhigh, decide_eq_true_eq]
      unfold high
      omega
    · simp only [isLow, hlow, decide_eq_true_eq]
      unfold low
      omega
    · apply Fin.ext
      rw [pair, hhigh, hlow]
      show (0x10000 + (high c - 0xd800) * 0x400 + (low c - 0xdc00)) % 0x110000 = c.val
      unfold high low
      omega

theorem join_pair {h l : CodePoint} (hh : isHigh h) (hl : isLow l) (r : List Piece) :
    join (⟨h, true⟩ :: ⟨l, true⟩ :: r) = pair h l :: join r := by
  rw [join, if_pos ⟨rfl, rfl, hh, hl⟩]

theorem join_apart {p q : Piece} (h : ¬ (isHigh p.c ∧ isLow q.c)) (r : List Piece) :
    join (p :: q :: r) = p.c :: join (q :: r) := by
  rw [join, if_neg fun hc => h hc.2.2]

theorem not_low_of_high {c : CodePoint} (h : isHigh c) : ¬ isLow c := by
  simp only [isHigh, isLow, decide_eq_true_eq] at h ⊢
  omega

/-- The first piece of a string that starts with `d`: nothing pairs with it that does not with `d`. -/
theorem written_head (d : CodePoint) (r : List Piece) :
    ∃ q r', written d ++ r = q :: r' ∧ (isLow q.c → isLow d) := by
  rcases written_cases d with ⟨e, hw, -⟩ | ⟨h, l, hw, hh, -⟩
  · exact ⟨_, r, by rw [hw]; rfl, id⟩
  · exact ⟨_, ⟨l, true⟩ :: r, by rw [hw]; rfl, fun hl => absurd hl (not_low_of_high hh)⟩

theorem join_written (s : Str) : join (s.flatMap written) = joined s := by
  induction s using joined.induct with
  | case1 => rfl
  | case2 c =>
    rw [List.flatMap_singleton, joined]
    rcases written_cases c with ⟨e, hw, -⟩ | ⟨h, l, hw, hh, hl, hp, -⟩
    · rw [hw]
      rfl
    · rw [hw, join_pair hh hl, hp]
      rfl
  | case3 c d r hpair ih =>
    obtain ⟨hc, hd⟩ := hpair
    rw [joined, if_pos ⟨hc, hd⟩, ← ih, List.flatMap_cons, List.flatMap_cons]
    simp only [isHigh, isLow, decide_eq_true_eq] at hc hd
    rw [written_surrogate (by omega) (by omega), written_surrogate (by omega) (by omega)]
    exact join_pair (by simp [isHigh]; omega) (by simp [isLow]; omega) _
  | case4 c d r hapart ih =>
    rw [joined, if_neg hapart, ← ih, List.flatMap_cons]
    rcases written_cases c with ⟨e, hw, -⟩ | ⟨h, l, hw, hh, hl, hp, -⟩
    · obtain ⟨q, r', hq, hlow⟩ := written_head d (r.flatMap written)
      rw [hw, List.flatMap_cons, hq]
      exact join_apart (fun hc => hapart ⟨hc.1, hlow hc.2⟩) r'
    · rw [hw, ← hp]
      exact join_pair hh hl _

/-- A string literal reads as the string with its surrogates joined. -/
theorem scanstring_dump (s r : Str) : scanstring (s.flatMap escape ++ quote :: r) = some (joined s, r) := by
  rw [scanstring, pieces_escapes]
  exact congrArg (fun t => some (t, r)) (join_written s)

theorem escape_eq_units {c : CodePoint} (h : ∀ p ∈ ESCAPES, p.1 ≠ c) (hp : ¬ (32 ≤ c.val ∧ c.val ≤ 126)) :
    escape c = if c.val < 0x10000 then unit c.val else unit (high c) ++ unit (low c) := by
  have hnone : ESCAPES.lookup c = none := List.lookup_eq_none_iff.mpr fun p hp => by simpa using (h p hp).symm
  rw [escape, hnone]
  exact if_neg hp

theorem ne_of_mem_escapes {c : CodePoint} (h : 126 < c.val) : ∀ p ∈ ESCAPES, p.1 ≠ c := by
  rintro p hp rfl
  simp only [ESCAPES, List.mem_cons, List.not_mem_nil, or_false] at hp
  rcases hp with rfl | rfl | rfl | rfl | rfl | rfl | rfl <;> exact absurd h (by decide)

/-- A surrogate pair and its code point are written alike. -/
theorem escape_pair {h l : CodePoint} (hh : isHigh h) (hl : isLow l) : escape (pair h l) = escape h ++ escape l := by
  simp only [isHigh, isLow, decide_eq_true_eq] at hh hl
  have hval : (pair h l).val = 0x10000 + (h.val - 0xd800) * 0x400 + (l.val - 0xdc00) :=
    Nat.mod_eq_of_lt (by omega)
  have hhigh : high (pair h l) = h.val := by
    unfold high
    omega
  have hlow : low (pair h l) = l.val := by
    unfold low
    omega
  rw [escape_eq_units (ne_of_mem_escapes (by omega)) (by omega), if_neg (by omega), hhigh, hlow,
    escape_eq_units (ne_of_mem_escapes (by omega)) (by omega), if_pos (by omega),
    escape_eq_units (ne_of_mem_escapes (by omega)) (by omega), if_pos (by omega)]

theorem dumpStr_joined (s : Str) : dumpStr (joined s) = dumpStr s := by
  have h : (joined s).flatMap escape = s.flatMap escape := by
    induction s using joined.induct with
    | case1 => rfl
    | case2 c => rfl
    | case3 c d r hpair ih =>
      rw [joined, if_pos hpair, List.flatMap_cons, ih, escape_pair hpair.1 hpair.2, List.append_assoc]
      rfl
    | case4 c d r hapart ih =>
      rw [joined, if_neg hapart, List.flatMap_cons, ih]
      rfl
  rw [dumpStr, dumpStr, h]

/-- No high surrogate stands before a low one. -/
def Apart (s : Str) : Prop := s.IsChain fun c d => ¬ (isHigh c ∧ isLow d)

instance : DecidablePred Apart := fun s => inferInstanceAs (Decidable (s.IsChain fun c d => ¬ (isHigh c ∧ isLow d)))

theorem joined_eq_iff (s : Str) : joined s = s ↔ Apart s := by
  induction s using joined.induct with
  | case1 => exact iff_of_true rfl .nil
  | case2 c => exact iff_of_true rfl (.singleton c)
  | case3 c d r hpair ih =>
    refine iff_of_false (fun h => ?_) fun h => (List.isChain_cons_cons.mp h).1 hpair
    rw [joined, if_pos hpair] at h
    have hc : isHigh (pair c d) := by
      have := (List.cons.inj h).1
      rw [this]
      exact hpair.1
    simp only [isHigh, isLow, decide_eq_true_eq] at hpair hc
    have hval : (pair c d).val = 0x10000 + (c.val - 0xd800) * 0x400 + (d.val - 0xdc00) :=
      Nat.mod_eq_of_lt (by omega)
    omega
  | case4 c d r hapart ih =>
    rw [joined, if_neg hapart, Apart, List.isChain_cons_cons]
    simp only [List.cons.injEq, true_and, ih, hapart, not_false_eq_true]
    rfl

end NetCoreNoc.Json
