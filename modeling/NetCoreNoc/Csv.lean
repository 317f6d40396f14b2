import Mathlib
import NetCoreNoc.Checks
import NetCoreNoc.Json.Strings

/-! `csv.reader` over the lines of a text: cells between delimiters, quoted ones over several lines, and which
texts it reads. -/
namespace NetCoreNoc.Csv
open Json Checks

inductive Mode where
  | start_record
  | start_field
  | in_field
  | in_quoted_field
  | quote_in_quoted_field
  | eat_crnl
  deriving DecidableEq, Repr

/-- The two texts of `csv.Error`. -/
inductive Error where
  | new_line_in_unquoted_field
  | field_larger_than_limit
  deriving DecidableEq, Repr

structure Reader where
  mode : Mode
  field : Str
  fields : List Str
  rows : List (List Str)
  deriving DecidableEq, Repr

/-- `csv.field_size_limit()` -/
def FIELD_LIMIT : ℕ := 131072

def newline : CodePoint := 10
def isBreak (c : CodePoint) : Bool := c = newline ∨ c = 13

namespace Reader

def fresh : Reader := ⟨.start_record, [], [], []⟩

/-- `parse_add_char` -/
def add (s : Reader) (c : CodePoint) (mode : Mode) : Except Error Reader :=
  if FIELD_LIMIT ≤ s.field.length then .error .field_larger_than_limit
  else .ok { s with field := s.field ++ [c], mode := mode }

/-- `parse_save_field` -/
def save (s : Reader) (mode : Mode) : Reader := { s with field := [], fields := s.fields ++ [s.field], mode := mode }

variable (delimiter : CodePoint)

/-- `parse_process_char`, of a character that stands where a field may. -/
def begin_field (s : Reader) (c : CodePoint) : Except Error Reader :=
  if isBreak c then .ok (s.save .eat_crnl)
  else if c = quote then .ok { s with mode := .in_quoted_field }
  else if c = delimiter then .ok (s.save .start_field)
  else s.add c .in_field

/-- `parse_process_char` -/
def process (s : Reader) (c : CodePoint) : Except Error Reader :=
  match s.mode with
  | .start_record => if isBreak c then .ok { s with mode := .eat_crnl } else s.begin_field delimiter c
  | .start_field => s.begin_field delimiter c
  | .in_field =>
    if isBreak c then .ok (s.save .eat_crnl)
    else if c = delimiter then .ok (s.save .start_field)
    else s.add c .in_field
  | .in_quoted_field => if c = quote then .ok { s with mode := .quote_in_quoted_field } else s.add c .in_quoted_field
  | .quote_in_quoted_field =>
    if c = quote then s.add c .in_quoted_field
    else if c = delimiter then .ok (s.save .start_field)
    else if isBreak c then .ok (s.save .eat_crnl)
    else s.add c .in_field
  | .eat_crnl => if isBreak c then .ok s else .error .new_line_in_unquoted_field

/-- `parse_process_char` of the end of a line. -/
def end_line (s : Reader) : Reader :=
  match s.mode with
  | .start_record => s
  | .start_field => s.save .start_record
  | .in_field => s.save .start_record
  | .in_quoted_field => s
  | .quote_in_quoted_field => s.save .start_record
  | .eat_crnl => { s with mode := .start_record }

/-- A record that is over is a row. -/
def emit (s : Reader) : Reader := if s.mode = .start_record then { s with fields := [], rows := s.rows ++ [s.fields] } else s

/-- Character by character; a line ends behind its newline, and the last where the text does. -/
def read (s : Reader) : Str → Except Error Reader
  | [] => .ok s
  | c :: r => do
    let s ← s.process delimiter c
    read (if c = newline ∨ r = [] then s.end_line.emit else s) r

/-- A quoted field that nothing closes ends with the text. -/
def finish (s : Reader) : List (List Str) :=
  if s.field ≠ [] ∨ s.mode = .in_quoted_field then s.rows ++ [s.fields ++ [s.field]] else s.rows

end Reader

/-- `list(csv.reader(io.StringIO(text), delimiter=delimiter))` -/
def reader (delimiter : CodePoint) (text : Str) : Except Error (List (List Str)) := do
  let s ← Reader.fresh.read delimiter text
  .ok s.finish

/-! Which texts it reads: of a field only its length tells. -/

/-- One more character in a field. -/
def more (mode : Mode) (n : ℕ) : Option (Mode × ℕ) := if n < FIELD_LIMIT then some (mode, n + 1) else none

/-- Behind a break. -/
def ended (c : CodePoint) : Mode := if c = newline then .start_record else .eat_crnl

/-- The mode and the length of the field behind a character, unless the reader raises. -/
def look (delimiter : CodePoint) (mode : Mode) (n : ℕ) (c : CodePoint) : Option (Mode × ℕ) :=
  match mode with
  | .start_record | .start_field =>
    if isBreak c then some (ended c, 0)
    else if c = quote then some (.in_quoted_field, n)
    else if c = delimiter then some (.start_field, 0)
    else more .in_field n
  | .in_field => if isBreak c then some (ended c, 0) else if c = delimiter then some (.start_field, 0) else more .in_field n
  | .in_quoted_field => if c = quote then some (.quote_in_quoted_field, n) else more .in_quoted_field n
  | .quote_in_quoted_field =>
    if c = quote then more .in_quoted_field n
    else if c = delimiter then some (.start_field, 0)
    else if isBreak c then some (ended c, 0)
    else more .in_field n
  | .eat_crnl => if isBreak c then some (ended c, 0) else none

/-- No record goes on behind a carriage return, and no field is longer than it may be. -/
def clear (delimiter : CodePoint) : Mode → ℕ → Str → Bool
  | _, _, [] => true
  | mode, n, c :: r =>
    match look delimiter mode n c with
    | some (mode, n) => clear delimiter mode n r
    | none => false

namespace Reader
variable {delimiter : CodePoint}

/-- What is looked at of a reader; between two lines there is nothing in its field. -/
structure Looks (s : Reader) (mode : Mode) (n : ℕ) : Prop where
  stands : s.mode = mode
  length : s.field.length = n
  idle : mode = Mode.start_record ∨ mode = .eat_crnl → n = 0

/-- The reader behind a character, and behind the line where the character ends it. -/
def stepped (s : Reader) (c : CodePoint) : Reader := if c = newline then s.end_line.emit else s

/-- A step and what is looked at of it. -/
def Agrees (c : CodePoint) (x : Except Error Reader) (o : Option (Mode × ℕ)) : Prop :=
  (∃ t mode n, x = .ok t ∧ o = some (mode, n) ∧ (t.stepped c).Looks mode n) ∨ (∃ e, x = .error e) ∧ o = none

variable {s : Reader} {c : CodePoint}

theorem agrees_stay {t : Reader} {mode : Mode} {n : ℕ} (hc : c ≠ newline) (h : t.Looks mode n) :
    Agrees c (.ok t) (some (mode, n)) := by
  refine .inl ⟨t, mode, n, rfl, rfl, ?_⟩
  rwa [stepped, if_neg hc]

theorem agrees_save {mode : Mode} (hc : c ≠ newline) : Agrees c (.ok (s.save mode)) (some (mode, 0)) :=
  agrees_stay hc ⟨rfl, rfl, fun _ => rfl⟩

theorem agrees_break {t : Reader} (hmode : t.mode = .eat_crnl) (hfield : t.field = []) :
    Agrees c (.ok t) (some (ended c, 0)) := by
  unfold ended
  split_ifs with hc
  · refine .inl ⟨t, .start_record, 0, rfl, rfl, ?_⟩
    rw [stepped, if_pos hc]
    simp only [end_line, hmode, emit, if_true]
    exact ⟨rfl, by rw [hfield]; rfl, fun _ => rfl⟩
  · exact agrees_stay hc ⟨hmode, by rw [hfield]; rfl, fun _ => rfl⟩

theorem agrees_add {mode : Mode} (h : c ≠ newline ∧ mode = .in_field ∨ mode = .in_quoted_field) :
    Agrees c (s.add c mode) (more mode s.field.length) := by
  unfold add more
  by_cases hroom : s.field.length < FIELD_LIMIT
  · rw [if_pos hroom, if_neg (not_le.mpr hroom)]
    have hlooks : ({ s with field := s.field ++ [c], mode := mode } : Reader).Looks mode (s.field.length + 1) :=
      ⟨rfl, by simp, by rcases h with ⟨-, rfl⟩ | rfl <;> simp⟩
    refine .inl ⟨_, mode, _, rfl, rfl, ?_⟩
    rcases h with ⟨hc, -⟩ | rfl
    · rwa [stepped, if_neg hc]
    · -- in quotes a line goes on
      unfold stepped
      split
      · exact hlooks
      · exact hlooks
  · rw [if_neg hroom, if_pos (not_lt.mp hroom)]
    exact .inr ⟨⟨_, rfl⟩, rfl⟩

theorem not_newline (h : ¬ isBreak c) : c ≠ newline := fun heq => h (by rw [heq]; rfl)

variable {delimiter : CodePoint} {mode : Mode} {n : ℕ}

theorem begin_look : Agrees c (s.begin_field delimiter c) (look delimiter .start_field s.field.length c) := by
  simp only [begin_field, look]
  split_ifs with hbreak hquote hdelimiter
  · exact agrees_break rfl rfl
  · exact agrees_stay (not_newline hbreak) ⟨rfl, rfl, by simp⟩
  · exact agrees_save (not_newline hbreak)
  · exact agrees_add (.inl ⟨not_newline hbreak, rfl⟩)

/-- What is looked at of a reader decides what it does next. -/
theorem process_look (hdelimiter : ¬ isBreak delimiter) (h : s.Looks mode n) :
    Agrees c (s.process delimiter c) (look delimiter mode n c) := by
  obtain ⟨hmode, rfl, hidle⟩ := h
  have hempty (h : mode = .start_record ∨ mode = .eat_crnl) : s.field = [] :=
    List.length_eq_zero_iff.mp (hidle h)
  simp only [process, hmode]
  cases mode with
  | start_record =>
    dsimp only
    split_ifs with hbreak
    · rw [look, if_pos hbreak]
      exact agrees_break rfl (hempty (.inl rfl))
    · exact begin_look
  | start_field => exact begin_look
  | in_field =>
    simp only [look]
    split_ifs with hbreak hsplit
    · exact agrees_break rfl rfl
    · exact agrees_save (not_newline hbreak)
    · exact agrees_add (.inl ⟨not_newline hbreak, rfl⟩)
  | in_quoted_field =>
    simp only [look]
    split_ifs with hquote
    · exact agrees_stay (by rw [hquote]; decide) ⟨rfl, rfl, by simp⟩
    · exact agrees_add (.inr rfl)
  | quote_in_quoted_field =>
    simp only [look]
    split_ifs with hquote hsplit hbreak
    · exact agrees_add (.inr rfl)
    · exact agrees_save (not_newline (hsplit ▸ hdelimiter))
    · exact agrees_break rfl rfl
    · exact agrees_add (.inl ⟨not_newline hbreak, rfl⟩)
  | eat_crnl =>
    simp only [look]
    split_ifs with hbreak
    · exact agrees_break hmode (hempty (.inr rfl))
    · exact .inr ⟨⟨_, rfl⟩, rfl⟩

theorem read_look (hdelimiter : ¬ isBreak delimiter) (text : Str) {s : Reader} {mode : Mode} {n : ℕ} (h : s.Looks mode n) :
    (∃ t, s.read delimiter text = .ok t) ↔ clear delimiter mode n text := by
  induction text generalizing s mode n with
  | nil => exact ⟨fun _ => rfl, fun _ => ⟨s, rfl⟩⟩
  | cons c r ih =>
    rw [read, clear]
    rcases process_look (c := c) hdelimiter h with ⟨t, mode, n, ht, hlook, hlooks⟩ | ⟨⟨e, he⟩, hlook⟩
    · rw [ht, ok_bind, hlook]
      cases r with
      | nil => exact ⟨fun _ => rfl, fun _ => ⟨_, rfl⟩⟩
      | cons d r =>
        have hstep : (if c = newline ∨ d :: r = [] then t.end_line.emit else t) = t.stepped c :=
          if_congr (or_iff_left (List.cons_ne_nil d r)) rfl rfl
        rw [hstep]
        exact ih hlooks
    · rw [he, hlook]
      exact ⟨nofun, nofun⟩

end Reader

theorem reader_iff {delimiter : CodePoint} (hdelimiter : ¬ isBreak delimiter) (text : Str) :
    (∃ rows, reader delimiter text = .ok rows) ↔ clear delimiter .start_record 0 text := by
  have hfresh : Reader.fresh.Looks .start_record 0 := ⟨rfl, rfl, fun _ => rfl⟩
  rw [← Reader.read_look hdelimiter text hfresh]
  simp only [reader, bind_ok]
  constructor
  · rintro ⟨rows, t, ht, -⟩
    exact ⟨t, ht⟩
  · rintro ⟨t, ht⟩
    exact ⟨t.finish, t, ht, rfl⟩

end NetCoreNoc.Csv
