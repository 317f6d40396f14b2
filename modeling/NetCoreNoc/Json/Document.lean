import Mathlib
import NetCoreNoc.Json.Numbers

/-! JSON documents, their text, and `json.loads`. -/
namespace NetCoreNoc.Json

/-- What `json.loads` returns. An object's keys are in the order of its text. -/
inductive Doc (F : Type) where
  | null
  | bool (b : Bool)
  | int (n : ℤ)
  | float (x : F)
  | str (s : Str)
  | list (items : List (Doc F))
  | obj (items : List (Str × Doc F))
  deriving Repr

/-- Setting a key of a dictionary: one that is there keeps its place. -/
def put {α : Type} (d : List (Str × α)) (k : Str) (v : α) : List (Str × α) :=
  if d.any fun e => e.1 = k then d.map fun e => if e.1 = k then (k, v) else e else d ++ [(k, v)]

/-- A dictionary from its pairs: of two values under one key the later stands. -/
def dict {α : Type} (items : List (Str × α)) : List (Str × α) := items.foldl (fun d e => put d e.1 e.2) []

def isSpace (c : CodePoint) : Bool := c = 32 ∨ c = 9 ∨ c = 10 ∨ c = 13

def skip (s : Str) : Str := s.dropWhile isSpace

def expect (word s : Str) : Option Str := if word.isPrefixOf s then some (s.drop word.length) else none

def bracket : CodePoint := chr '['
def unbracket : CodePoint := chr ']'
def brace : CodePoint := chr '{'
def unbrace : CodePoint := chr '}'
def comma : CodePoint := chr ','
def colon : CodePoint := chr ':'

variable {F : Type}

def digitCount (n : ℤ) : ℕ := (natText n.natAbs).length

section
variable (limit : ℕ)

mutual

/-- Every integer of a document is within a limit of digits. -/
def Fits : Doc F → Prop
  | .int n => limit = 0 ∨ digitCount n ≤ limit
  | .list l => FitsAll l
  | .obj l => FitsEntries l
  | _ => True

def FitsAll : List (Doc F) → Prop
  | [] => True
  | j :: l => Fits j ∧ FitsAll l

def FitsEntries : List (Str × Doc F) → Prop
  | [] => True
  | (_, j) :: l => Fits j ∧ FitsEntries l

end

end

mutual

theorem fits_zero : (j : Doc F) → Fits 0 j
  | .int _ => .inl rfl
  | .list l => fitsAll_zero l
  | .obj l => fitsEntries_zero l
  | .null | .bool _ | .float _ | .str _ => trivial

theorem fitsAll_zero : (l : List (Doc F)) → FitsAll 0 l
  | [] => trivial
  | j :: l => ⟨fits_zero j, fitsAll_zero l⟩

theorem fitsEntries_zero : (l : List (Str × Doc F)) → FitsEntries 0 l
  | [] => trivial
  | (_, j) :: l => ⟨fits_zero j, fitsEntries_zero l⟩

end

mutual

/-- A document as its text reads: strings joined, and of two values under one key the later. -/
def back : Doc F → Doc F
  | .str s => .str (joined s)
  | .list l => .list (backItems l)
  | .obj l => .obj (dict (backEntries l))
  | .null => .null
  | .bool b => .bool b
  | .int n => .int n
  | .float x => .float x

def backItems : List (Doc F) → List (Doc F)
  | [] => []
  | j :: l => back j :: backItems l

def backEntries : List (Str × Doc F) → List (Str × Doc F)
  | [] => []
  | (k, j) :: l => (joined k, back j) :: backEntries l

end

variable [PyFloat F]

mutual

/-- `json.dumps(j, separators=(",", ":"))` -/
def text : Doc F → Str
  | .null => lit "null"
  | .bool true => lit "true"
  | .bool false => lit "false"
  | .int n => intText n
  | .float x => PyFloat.text x
  | .str s => dumpStr s
  | .list [] => [bracket, unbracket]
  | .list (j :: l) => bracket :: text j ++ itemsText l
  | .obj [] => [brace, unbrace]
  | .obj ((k, j) :: l) => brace :: dumpStr k ++ colon :: text j ++ entriesText l

/-- A list from its second item on. -/
def itemsText : List (Doc F) → Str
  | [] => [unbracket]
  | j :: l => comma :: text j ++ itemsText l

def entriesText : List (Str × Doc F) → Str
  | [] => [unbrace]
  | (k, j) :: l => comma :: dumpStr k ++ colon :: text j ++ entriesText l

end

/-- The constants that `scan_once` knows. -/
def constants : List (Str × Doc F) :=
  [(lit "null", .null), (lit "true", .bool true), (lit "false", .bool false), (lit "NaN", .float PyFloat.nan),
    (lit "Infinity", .float PyFloat.infinity), (lit "-Infinity", .float PyFloat.neg_infinity)]

def constant (s : Str) : Option (Doc F × Str) :=
  constants.findSome? fun e => (expect e.1 s).map fun r => (e.2, r)

/-- A number; an integer of more digits than `limit` is a `ValueError`, and a limit of 0 is none. -/
def number (limit : ℕ) (s : Str) : Option (Doc F × Str) :=
  match scanNumber s with
  | none => none
  | some ((w, []), r) => if limit = 0 ∨ (w.filter isDigit).length ≤ limit then some (.int (toInt w), r) else none
  | some ((w, f), r) => some (.float (PyFloat.float (w ++ f)), r)

/-- The key of an object's entry, up to its value. -/
def key (s : Str) : Option (Str × Str) :=
  match s with
  | [] => none
  | c :: r =>
    if c = quote then
      match scanstring r with
      | none => none
      | some (k, r) =>
        match skip r with
        | [] => none
        | c :: r => if c = colon then some (k, skip r) else none
    else none

mutual

/-- `scan_once`. The fuel bounds the calls, and does not run out on a text shorter than it. -/
def value (limit : ℕ) : ℕ → Str → Option (Doc F × Str)
  | 0, _ => none
  | _ + 1, [] => none
  | n + 1, c :: r =>
    if c = quote then (scanstring r).map fun (s, r) => (.str s, r)
    else if c = bracket then
      if (skip r).head? = some unbracket then some (.list [], (skip r).tail)
      else match value limit n (skip r) with
        | none => none
        | some (j, q) => (items limit n (skip q)).map fun (l, q) => (.list (j :: l), q)
    else if c = brace then
      if (skip r).head? = some unbrace then some (.obj [], (skip r).tail)
      else match key (skip r) with
        | none => none
        | some (k, q) =>
          match value limit n q with
          | none => none
          | some (j, q) => (entries limit n (skip q)).map fun (l, q) => (.obj (dict ((k, j) :: l)), q)
    else match constant (c :: r) with
      | some e => some e
      | none => number limit (c :: r)

/-- A list after one of its items. -/
def items (limit : ℕ) : ℕ → Str → Option (List (Doc F) × Str)
  | 0, _ => none
  | _ + 1, [] => none
  | n + 1, c :: r =>
    if c = unbracket then some ([], r)
    else if c = comma then
      match value limit n (skip r) with
      | none => none
      | some (j, q) => (items limit n (skip q)).map fun (l, q) => (j :: l, q)
    else none

def entries (limit : ℕ) : ℕ → Str → Option (List (Str × Doc F) × Str)
  | 0, _ => none
  | _ + 1, [] => none
  | n + 1, c :: r =>
    if c = unbrace then some ([], r)
    else if c = comma then
      match key (skip r) with
      | none => none
      | some (k, q) =>
        match value limit n q with
        | none => none
        | some (j, q) => (entries limit n (skip q)).map fun (l, q) => ((k, j) :: l, q)
    else none

end

def BOM : CodePoint := 0xfeff

/-- `json.loads` of a `str` -/
def loads (s : Str) : Option (Doc F) :=
  if s.head? = some BOM then none
  else match value MAX_STR_DIGITS (s.length + 1) (skip s) with
    | none => none
    | some (j, r) => if skip r = [] then some j else none

end NetCoreNoc.Json
