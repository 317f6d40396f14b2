import Mathlib
import NetCoreNoc.Json.Encoding

/-! `json.dumps` with its keys sorted and its text not escaped to ASCII, and the UTF-8 of such a text. -/
namespace NetCoreNoc.Json

/-- `ESCAPE_DCT`, over the characters that `ESCAPE` finds -/
def escapeRaw (c : CodePoint) : Str :=
  match ESCAPES.lookup c with
  | some e => [backslash, e]
  | none => if c.val < 32 then unit c.val else [c]

/-- `py_encode_basestring` -/
def rawStr (s : Str) : Str := quote :: s.flatMap escapeRaw ++ [quote]

variable {F : Type}

mutual

/-- A document whose objects' keys are in their order. -/
def sorted : Doc F → Doc F
  | .list l => .list (sortedItems l)
  | .obj l => .obj ((sortedEntries l).insertionSort fun e f => e.1 ≤ f.1)
  | .null => .null
  | .bool b => .bool b
  | .int n => .int n
  | .float x => .float x
  | .str s => .str s

def sortedItems : List (Doc F) → List (Doc F)
  | [] => []
  | j :: l => sorted j :: sortedItems l

def sortedEntries : List (Str × Doc F) → List (Str × Doc F)
  | [] => []
  | (k, j) :: l => (k, sorted j) :: sortedEntries l

end

mutual

/-- The lists and objects around the innermost value. -/
def nesting : Doc F → ℕ
  | .list l => itemsNesting l + 1
  | .obj l => entriesNesting l + 1
  | _ => 0

def itemsNesting : List (Doc F) → ℕ
  | [] => 0
  | j :: l => max (nesting j) (itemsNesting l)

def entriesNesting : List (Str × Doc F) → ℕ
  | [] => 0
  | (_, j) :: l => max (nesting j) (entriesNesting l)

end

mutual

def decideFits (limit : ℕ) : (j : Doc F) → Decidable (Fits limit j)
  | .int n => inferInstanceAs (Decidable (limit = 0 ∨ digitCount n ≤ limit))
  | .list l => decideFitsAll limit l
  | .obj l => decideFitsEntries limit l
  | .null | .bool _ | .float _ | .str _ => .isTrue trivial

def decideFitsAll (limit : ℕ) : (l : List (Doc F)) → Decidable (FitsAll limit l)
  | [] => .isTrue trivial
  | j :: l => @instDecidableAnd _ _ (decideFits limit j) (decideFitsAll limit l)

def decideFitsEntries (limit : ℕ) : (l : List (Str × Doc F)) → Decidable (FitsEntries limit l)
  | [] => .isTrue trivial
  | (_, j) :: l => @instDecidableAnd _ _ (decideFits limit j) (decideFitsEntries limit l)

end

instance (limit : ℕ) : DecidablePred (Fits limit (F := F)) := decideFits limit

section
variable (P : CodePoint → Prop)

mutual

/-- Every character of a document's strings and keys is such. -/
def Chars : Doc F → Prop
  | .str s => ∀ c ∈ s, P c
  | .list l => ItemsChars l
  | .obj l => EntriesChars l
  | .null | .bool _ | .int _ | .float _ => True

def ItemsChars : List (Doc F) → Prop
  | [] => True
  | j :: l => Chars j ∧ ItemsChars l

def EntriesChars : List (Str × Doc F) → Prop
  | [] => True
  | (k, j) :: l => (∀ c ∈ k, P c) ∧ Chars j ∧ EntriesChars l

end

end

variable {P : CodePoint → Prop}

theorem itemsChars_iff {l : List (Doc F)} : ItemsChars P l ↔ ∀ j ∈ l, Chars P j := by
  induction l with
  | nil => exact iff_of_true trivial nofun
  | cons j l ih => rw [ItemsChars, ih, List.forall_mem_cons]

theorem entriesChars_iff {l : List (Str × Doc F)} : EntriesChars P l ↔ ∀ e ∈ l, (∀ c ∈ e.1, P c) ∧ Chars P e.2 := by
  induction l with
  | nil => exact iff_of_true trivial nofun
  | cons e l ih => rw [EntriesChars, ih, List.forall_mem_cons, and_assoc]

mutual

theorem chars_sorted : (j : Doc F) → Chars P (sorted j) → Chars P j
  | .list l => fun h => chars_sortedItems l h
  | .obj l => fun h => by
    refine chars_sortedEntries l (entriesChars_iff.mpr fun e he => ?_)
    exact entriesChars_iff.mp h e ((List.perm_insertionSort _ _).mem_iff.mpr he)
  | .null | .bool _ | .int _ | .float _ => fun _ => trivial
  | .str _ => id

theorem chars_sortedItems : (l : List (Doc F)) → ItemsChars P (sortedItems l) → ItemsChars P l
  | [] => fun _ => trivial
  | j :: l => fun h => ⟨chars_sorted j h.1, chars_sortedItems l h.2⟩

theorem chars_sortedEntries : (l : List (Str × Doc F)) → EntriesChars P (sortedEntries l) → EntriesChars P l
  | [] => fun _ => trivial
  | (_, j) :: l => fun h => ⟨h.1, chars_sorted j h.2.1, chars_sortedEntries l h.2.2⟩

end

variable [PyFloat F]

mutual

/-- `json.dumps(j, separators=(",", ":"), ensure_ascii=False)` -/
def rawText : Doc F → Str
  | .null => lit "null"
  | .bool true => lit "true"
  | .bool false => lit "false"
  | .int n => intText n
  | .float x => PyFloat.text x
  | .str s => rawStr s
  | .list [] => [bracket, unbracket]
  | .list (j :: l) => bracket :: rawText j ++ rawItems l
  | .obj [] => [brace, unbrace]
  | .obj ((k, j) :: l) => brace :: rawStr k ++ colon :: rawText j ++ rawEntries l

/-- A list from its second item on. -/
def rawItems : List (Doc F) → Str
  | [] => [unbracket]
  | j :: l => comma :: rawText j ++ rawItems l

def rawEntries : List (Str × Doc F) → Str
  | [] => [unbrace]
  | (k, j) :: l => comma :: rawStr k ++ colon :: rawText j ++ rawEntries l

end

def isSurrogate (c : CodePoint) : Bool := isHigh c ∨ isLow c

/-- `s.encode()`: no surrogate has a UTF-8. -/
def encodeUtf8 (s : Str) : Option (List UInt8) := if s.any isSurrogate then none else some (encodeStr s)

/-- What is not escaped stands in the text. -/
theorem mem_rawStr {c : CodePoint} {s : Str} (hc : isSurrogate c) (h : c ∈ s) : c ∈ rawStr s := by
  have hkeep : escapeRaw c = [c] := by
    have hval : 0xd800 ≤ c.val := by
      simp only [isSurrogate, isHigh, isLow, decide_eq_true_eq] at hc
      omega
    have hnone : ESCAPES.lookup c = none := by
      refine List.lookup_eq_none_iff.mpr fun e he => bne_iff_ne.mpr ?_
      have hsmall : ∀ e ∈ ESCAPES, e.1.val < 0xd800 := by simp [ESCAPES]
      rintro rfl
      exact absurd hval (hsmall e he).not_ge
    rw [escapeRaw, hnone]
    exact if_neg (by omega)
  refine List.mem_cons_of_mem _ (List.mem_append_left _ (List.mem_flatMap.mpr ⟨c, h, ?_⟩))
  rw [hkeep]
  exact List.mem_singleton_self c

private theorem plain_of_rawStr {s : Str} (h : ∀ c ∈ rawStr s, ¬ isSurrogate c) : ∀ c ∈ s, ¬ isSurrogate c :=
  fun c hc hs => h c (mem_rawStr hs hc) hs

mutual

/-- A text without surrogates is one of strings without surrogates. -/
theorem chars_rawText : (j : Doc F) → (∀ c ∈ rawText j, ¬ isSurrogate c) → Chars (fun c => ¬ isSurrogate c) j
  | .str s => fun h => plain_of_rawStr h
  | .list [] => fun _ => trivial
  | .list (j :: l) => fun h => by
    rw [rawText] at h
    obtain ⟨hj, hl⟩ := List.forall_mem_append.mp h
    exact ⟨chars_rawText j (List.forall_mem_cons.mp hj).2, chars_rawItems l hl⟩
  | .obj [] => fun _ => trivial
  | .obj ((k, j) :: l) => fun h => by
    rw [rawText] at h
    obtain ⟨hkj, hl⟩ := List.forall_mem_append.mp h
    obtain ⟨hk, hj⟩ := List.forall_mem_append.mp hkj
    exact ⟨plain_of_rawStr (List.forall_mem_cons.mp hk).2, chars_rawText j (List.forall_mem_cons.mp hj).2,
      chars_rawEntries l hl⟩
  | .null | .bool _ | .int _ | .float _ => fun _ => trivial

theorem chars_rawItems : (l : List (Doc F)) → (∀ c ∈ rawItems l, ¬ isSurrogate c) →
    ItemsChars (fun c => ¬ isSurrogate c) l
  | [] => fun _ => trivial
  | j :: l => fun h => by
    rw [rawItems] at h
    obtain ⟨hj, hl⟩ := List.forall_mem_append.mp h
    exact ⟨chars_rawText j (List.forall_mem_cons.mp hj).2, chars_rawItems l hl⟩

theorem chars_rawEntries : (l : List (Str × Doc F)) → (∀ c ∈ rawEntries l, ¬ isSurrogate c) →
    EntriesChars (fun c => ¬ isSurrogate c) l
  | [] => fun _ => trivial
  | (k, j) :: l => fun h => by
    rw [rawEntries] at h
    obtain ⟨hkj, hl⟩ := List.forall_mem_append.mp h
    obtain ⟨hk, hj⟩ := List.forall_mem_append.mp hkj
    exact ⟨plain_of_rawStr (List.forall_mem_cons.mp hk).2, chars_rawText j (List.forall_mem_cons.mp hj).2,
      chars_rawEntries l hl⟩

end

end NetCoreNoc.Json
