import Mathlib
import NetCoreNoc.Json.Nesting

/-! JSON in bytes: how `json.loads` finds the encoding of a byte string, and that what `json.dumps` wrote is ASCII. -/
namespace NetCoreNoc.Json

/-- The UTF-8 bytes of a code point. -/
def utf8 (c : CodePoint) : List ℕ :=
  if c.val < 0x80 then [c.val]
  else if c.val < 0x800 then [192 + c.val / 64, 128 + c.val % 64]
  else if c.val < 0x10000 then [224 + c.val / 4096, 128 + c.val / 64 % 64, 128 + c.val % 64]
  else [240 + c.val / 0x40000, 128 + c.val / 4096 % 64, 128 + c.val / 64 % 64, 128 + c.val % 64]

/-- `str.encode`, of a string without surrogates. -/
def encodeStr (s : Str) : List UInt8 := (s.flatMap utf8).map UInt8.ofNat

inductive Encoding where
  | utf8
  | utf16 (big : Bool)
  | utf32 (big : Bool)
  deriving DecidableEq, Repr

/-- The marks that a byte string may start with, a longer one before those that start it. -/
def MARKS : List (List UInt8 × Encoding) :=
  [([0, 0, 0xfe, 0xff], .utf32 true), ([0xff, 0xfe, 0, 0], .utf32 false), ([0xfe, 0xff], .utf16 true),
    ([0xff, 0xfe], .utf16 false), ([0xef, 0xbb, 0xbf], .utf8)]

/-- `detect_encoding`, where no mark stands. -/
def detect : List UInt8 → Encoding
  | a :: b :: c :: d :: _ =>
    if a = 0 then if b ≠ 0 then .utf16 true else .utf32 true
    else if b = 0 then if c ≠ 0 ∨ d ≠ 0 then .utf16 false else .utf32 false
    else .utf8
  | [a, b] => if a = 0 then .utf16 true else if b = 0 then .utf16 false else .utf8
  | _ => .utf8

/-- `detect_encoding`, and the bytes after the mark. -/
def detect_encoding (b : List UInt8) : Encoding × List UInt8 :=
  match MARKS.find? fun e => e.1.isPrefixOf b with
  | some e => (e.2, b.drop e.1.length)
  | none => (detect b, b)

/-- The six bits of a byte that goes on with a code point. -/
def sixBits (b : UInt8) : Option ℕ := if 0x80 ≤ b ∧ b < 0xc0 then some (b.toNat - 0x80) else none

/-- A code point of two bytes or more, where it needs so many. Surrogates pass. -/
def point (least n : ℕ) : Option CodePoint := if h : least ≤ n ∧ n < 0x110000 then some ⟨n, h.2⟩ else none

def readUtf8 : List UInt8 → Option Str
  | [] => some []
  | a :: r =>
    if a < 0x80 then (readUtf8 r).map (Fin.ofNat _ a.toNat :: ·)
    else match r with
    | [] => none
    | b :: r =>
      if 0xc0 ≤ a ∧ a < 0xe0 then do
        let b ← sixBits b
        let c ← point 0x80 ((a.toNat - 0xc0) * 64 + b)
        (readUtf8 r).map (c :: ·)
      else match r with
      | [] => none
      | c :: r =>
        if 0xe0 ≤ a ∧ a < 0xf0 then do
          let b ← sixBits b
          let c ← sixBits c
          let p ← point 0x800 ((a.toNat - 0xe0) * 4096 + b * 64 + c)
          (readUtf8 r).map (p :: ·)
        else match r with
        | [] => none
        | d :: r =>
          if 0xf0 ≤ a ∧ a < 0xf8 then do
            let b ← sixBits b
            let c ← sixBits c
            let d ← sixBits d
            let p ← point 0x10000 ((a.toNat - 0xf0) * 0x40000 + b * 4096 + c * 64 + d)
            (readUtf8 r).map (p :: ·)
          else none
termination_by structural s => s

def ordered (big : Bool) (l : List UInt8) : List UInt8 := if big then l else l.reverse

def ofBytes (l : List UInt8) : ℕ := l.foldl (fun n b => n * 256 + b.toNat) 0

/-- The units of UTF-16. -/
def units (big : Bool) : List UInt8 → Option Str
  | [] => some []
  | a :: b :: r => (units big r).map (Fin.ofNat _ (ofBytes (ordered big [a, b])) :: ·)
  | [_] => none

def readUtf32 (big : Bool) : List UInt8 → Option Str
  | [] => some []
  | a :: b :: c :: d :: r => do
    let p ← point 0 (ofBytes (ordered big [a, b, c, d]))
    (readUtf32 big r).map (p :: ·)
  | _ => none

/-- `b.decode(detect_encoding(b), "surrogatepass")` -/
def decodeBytes (b : List UInt8) : Option Str :=
  match detect_encoding b with
  | (.utf8, r) => readUtf8 r
  | (.utf16 big, r) => (units big r).map joined
  | (.utf32 big, r) => readUtf32 big r

variable {F : Type} [PyFloat F]

/-- `json.loads` of `bytes`. A text that goes on with a second mark is no JSON either way. -/
def loadsBytes (b : List UInt8) : Option (Doc F) := (decodeBytes b).bind loads

/-- ASCII, but for the null character. -/
def Ascii (c : CodePoint) : Prop := 0 < c.val ∧ c.val < 0x80

instance (c : CodePoint) : Decidable (Ascii c) := inferInstanceAs (Decidable (_ ∧ _))

theorem encodeStr_ascii {s : Str} (h : ∀ c ∈ s, Ascii c) : encodeStr s = s.map fun c => UInt8.ofNat c.val := by
  induction s with
  | nil => rfl
  | cons c s ih =>
    obtain ⟨hc, hs⟩ := List.forall_mem_cons.mp h
    have hhead : utf8 c = [c.val] := if_pos hc.2
    rw [encodeStr, List.flatMap_cons, hhead, List.map_append, List.map_cons]
    exact congrArg (UInt8.ofNat c.val :: ·) (ih hs)

theorem readUtf8_ascii {s : Str} (h : ∀ c ∈ s, Ascii c) : readUtf8 (s.map fun c => UInt8.ofNat c.val) = some s := by
  induction s with
  | nil => rfl
  | cons c s ih =>
    obtain ⟨hc, hs⟩ := List.forall_mem_cons.mp h
    have hval : (UInt8.ofNat c.val).toNat = c.val := by
      rw [UInt8.toNat_ofNat']
      exact Nat.mod_eq_of_lt (by have := hc.2; omega)
    have hlt : UInt8.ofNat c.val < 0x80 := by
      rw [UInt8.lt_iff_toNat_lt, hval]
      exact hc.2
    rw [List.map_cons, readUtf8.eq_def]
    simp only [hlt, if_true, ih hs, hval, Option.map_some, Fin.ofNat_val_eq_self]

theorem ascii_byte {c : CodePoint} (h : Ascii c) : UInt8.ofNat c.val ≠ 0 ∧ UInt8.ofNat c.val < 0x80 := by
  have hval : (UInt8.ofNat c.val).toNat = c.val := by
    rw [UInt8.toNat_ofNat']
    exact Nat.mod_eq_of_lt (by have := h.2; omega)
  constructor
  · intro h0
    rw [h0] at hval
    exact absurd hval.symm (Nat.pos_iff_ne_zero.mp h.1)
  · rw [UInt8.lt_iff_toNat_lt, hval]
    exact h.2

/-- Bytes of ASCII are UTF-8. -/
theorem detect_ascii {b : List UInt8} (h : ∀ x ∈ b, x ≠ 0 ∧ x < 0x80) : detect_encoding b = (.utf8, b) := by
  have hmark : MARKS.find? (fun e => e.1.isPrefixOf b) = none := by
    rw [List.find?_eq_none]
    intro e he hp
    cases b with
    | nil =>
      simp only [MARKS, List.mem_cons, List.not_mem_nil, or_false] at he
      rcases he with rfl | rfl | rfl | rfl | rfl <;> exact absurd hp (by decide)
    | cons x b =>
      obtain ⟨h0, hlt⟩ := h x List.mem_cons_self
      simp only [MARKS, List.mem_cons, List.not_mem_nil, or_false] at he
      rcases he with rfl | rfl | rfl | rfl | rfl <;>
        simp only [List.isPrefixOf, Bool.and_eq_true, beq_iff_eq] at hp <;>
        obtain ⟨rfl, -⟩ := hp
      · exact h0 rfl
      all_goals exact absurd hlt (by decide)
  have hdetect : detect b = .utf8 := by
    match b, h with
    | [], _ => rfl
    | [a], _ => rfl
    | [a, b], h =>
      obtain ⟨ha, hb⟩ := List.forall_mem_cons.mp h
      rw [detect, if_neg ha.1, if_neg (hb b (by simp)).1]
    | [a, b, c], _ => rfl
    | a :: b :: c :: d :: r, h =>
      obtain ⟨ha, hr⟩ := List.forall_mem_cons.mp h
      rw [detect, if_neg ha.1, if_neg (hr b (by simp)).1]
  rw [detect_encoding, hmark, hdetect]

theorem decodeBytes_ascii {s : Str} (h : ∀ c ∈ s, Ascii c) : decodeBytes (encodeStr s) = some s := by
  have hbytes : ∀ x ∈ s.map fun c => UInt8.ofNat c.val, x ≠ 0 ∧ x < 0x80 := by
    intro x hx
    obtain ⟨c, hc, rfl⟩ := List.mem_map.mp hx
    exact ascii_byte (h c hc)
  rw [encodeStr_ascii h, decodeBytes, detect_ascii hbytes]
  exact readUtf8_ascii h

theorem ascii_numeric {c : CodePoint} (h : isNumeric c) : Ascii c := by
  simp only [isNumeric, isDigit, decide_eq_true_eq] at h
  rcases h with h | rfl | rfl | rfl | rfl | rfl
  · exact ⟨by omega, by omega⟩
  all_goals decide

theorem ascii_escape (c : CodePoint) : ∀ x ∈ escape c, Ascii x := by
  have hdigit (n : ℕ) : Ascii (hexDigit (n % 16)) := by
    have hn := Nat.mod_lt n (by decide : 0 < 16)
    generalize n % 16 = m at hn
    interval_cases m <;> decide
  have hunit (n : ℕ) : ∀ x ∈ unit n, Ascii x := by
    simp only [unit, List.forall_mem_cons]
    exact ⟨by decide, by decide, hdigit _, hdigit _, hdigit _, hdigit _, List.forall_mem_nil _⟩
  unfold escape
  split
  · next e he =>
    obtain ⟨l, r, hl, -⟩ := List.lookup_eq_some_iff.mp he
    have hin : (c, e) ∈ ESCAPES := by rw [hl]; simp
    simp only [ESCAPES, List.mem_cons, Prod.mk.injEq, List.not_mem_nil, or_false] at hin
    simp only [List.forall_mem_cons]
    refine ⟨by decide, ?_, List.forall_mem_nil _⟩
    rcases hin with ⟨-, rfl⟩ | ⟨-, rfl⟩ | ⟨-, rfl⟩ | ⟨-, rfl⟩ | ⟨-, rfl⟩ | ⟨-, rfl⟩ | ⟨-, rfl⟩ <;> decide
  · split_ifs with hp
    · exact List.forall_mem_singleton.mpr ⟨by omega, by omega⟩
    · exact hunit _
    · exact List.forall_mem_append.mpr ⟨hunit _, hunit _⟩

theorem ascii_dumpStr (s : Str) : ∀ x ∈ dumpStr s, Ascii x := by
  have hbody : ∀ x ∈ s.flatMap escape, Ascii x := fun x hx => by
    obtain ⟨c, -, hc⟩ := List.mem_flatMap.mp hx
    exact ascii_escape c x hc
  rw [dumpStr, List.forall_mem_append, List.forall_mem_cons, List.forall_mem_singleton]
  exact ⟨⟨by decide, hbody⟩, by decide⟩

theorem ascii_int (n : ℤ) : ∀ c ∈ intText n, Ascii c := fun c hc =>
  ascii_numeric (numeric_scanNumber (scanNumber_intText n) c (by simpa using hc))

theorem ascii_word {w : Str} (h : (w.all fun c => Ascii c) = true) : ∀ c ∈ w, Ascii c := by
  simpa using h

theorem ascii_float [LawfulPyFloat F] (x : F) : ∀ c ∈ PyFloat.text x, Ascii c := by
  cases hx : PyFloat.isfinite x with
  | true =>
    obtain ⟨w, f, hs, -, ht⟩ := LawfulPyFloat.literal x hx
    exact fun c hc => ascii_numeric (numeric_scanNumber hs c (ht ▸ hc))
  | false =>
    rcases LawfulPyFloat.special x hx with ⟨-, ht⟩ | ⟨-, ht⟩ | ⟨-, ht⟩ <;> rw [ht] <;> exact ascii_word rfl

mutual

/-- What is written is ASCII. -/
theorem ascii_text [LawfulPyFloat F] : (j : Doc F) → ∀ c ∈ text j, Ascii c
  | .null => ascii_word rfl
  | .bool true => ascii_word rfl
  | .bool false => ascii_word rfl
  | .int n => ascii_int n
  | .float x => ascii_float x
  | .str s => ascii_dumpStr s
  | .list [] => ascii_word rfl
  | .list (j :: l) => by
    rw [text, List.forall_mem_append, List.forall_mem_cons]
    exact ⟨⟨by decide, ascii_text j⟩, ascii_items l⟩
  | .obj [] => ascii_word rfl
  | .obj ((k, j) :: l) => by
    rw [text, List.forall_mem_append, List.forall_mem_append, List.forall_mem_cons, List.forall_mem_cons]
    exact ⟨⟨⟨by decide, ascii_dumpStr k⟩, by decide, ascii_text j⟩, ascii_entries l⟩

theorem ascii_items [LawfulPyFloat F] : (l : List (Doc F)) → ∀ c ∈ itemsText l, Ascii c
  | [] => ascii_word rfl
  | j :: l => by
    rw [itemsText, List.forall_mem_append, List.forall_mem_cons]
    exact ⟨⟨by decide, ascii_text j⟩, ascii_items l⟩

theorem ascii_entries [LawfulPyFloat F] : (l : List (Str × Doc F)) → ∀ c ∈ entriesText l, Ascii c
  | [] => ascii_word rfl
  | (k, j) :: l => by
    rw [entriesText, List.forall_mem_append, List.forall_mem_append, List.forall_mem_cons, List.forall_mem_cons]
    exact ⟨⟨⟨by decide, ascii_dumpStr k⟩, by decide, ascii_text j⟩, ascii_entries l⟩

end

variable [LawfulPyFloat F]

/-- What is written and encoded reads as it does as text. -/
theorem loadsBytes_text {j : Doc F} (h : Fits MAX_STR_DIGITS j) : loadsBytes (encodeStr (text j)) = some (back j) := by
  rw [loadsBytes, decodeBytes_ascii (ascii_text j)]
  exact loads_text h

end NetCoreNoc.Json
