import Mathlib
import NetCoreNoc.Csv
import NetCoreNoc.Json.Halves
import NetCoreNoc.Json.Reading
import NetCoreNoc.Text

/-! Circuits from a customer's sheet (`engine/noc/circuits.py`): the header and its bands, where each cell goes, and what
is kept of a circuit. -/
namespace NetCoreNoc.Noc.Circuits
open Json Text Checks

/-- `str.lower` -/
class Python where
  lower : Str → Str

inductive Field where
  | designation
  | a_end
  | z_end
  | bandwidth
  | service
  | status
  | owner
  | provider
  | rfs_date
  | cease_date
  deriving DecidableEq, Repr

/-- The fields with their names and how long they may be: `FIELDS`. -/
def FIELDS : List (Field × Str × ℕ) :=
  [(.designation, lit "designation", 200), (.a_end, lit "a_end", 120), (.z_end, lit "z_end", 120),
    (.bandwidth, lit "bandwidth", 40), (.service, lit "service", 80), (.status, lit "status", 40),
    (.owner, lit "owner", 120), (.provider, lit "provider", 120), (.rfs_date, lit "rfs_date", 40),
    (.cease_date, lit "cease_date", 40)]

def ALIASES : List (Field × List Str) :=
  [(.designation, [lit "circuit designation", lit "circuit name", lit "circuit id", lit "circuit", lit "service id"]),
    (.a_end, [lit "terminal a", lit "a end", lit "a-end", lit "site a", lit "a side", lit "end a"]),
    (.z_end, [lit "terminal b", lit "z end", lit "z-end", lit "b end", lit "b-end", lit "site b", lit "z side",
      lit "end b"]),
    (.bandwidth, [lit "bw", lit "bandwidth", lit "speed"]),
    (.service, [lit "capacity type", lit "service type", lit "service", lit "interface type"]),
    (.status, [lit "status"]),
    (.owner, [lit "circuit owner/operational owner", lit "circuit owner", lit "operational owner", lit "owner"]),
    (.provider, [lit "front ending party", lit "provider", lit "carrier", lit "vendor"]),
    (.rfs_date, [lit "rfs date", lit "rfs", lit "ready for service"]),
    (.cease_date, [lit "cease date", lit "cease"])]

def SERIAL : List Str := [lit "sr", lit "sr.", lit "s.no", lit "s.no.", lit "no", lit "no.", lit "#", lit "item"]
def EMPTY : List Str := [[], lit "na", lit "n/a", lit "-", lit "--", lit "none", lit "null"]
def MAX_CIRCUITS : ℕ := 5000
def MAX_HOPS : ℕ := 60
def MAX_TABLE : ℕ := 4 * 1024 * 1024

/-- The names of a column that a header has. -/
def HEADERS : List Str := [lit "circuit designation", lit "circuit name", lit "circuit id", lit "circuit"]

inductive Raised where
  | CircuitError (message : Str)
  | csv_Error (e : Csv.Error)
  deriving DecidableEq, Repr

/-! Texts -/

def space : CodePoint := 32

/-- `re.sub` of each run of some characters by one space. -/
def squeezeFrom (p : CodePoint → Bool) : Bool → Str → Str
  | _, [] => []
  | inside, c :: s =>
    if p c then if inside then squeezeFrom p true s else space :: squeezeFrom p true s
    else c :: squeezeFrom p false s

def squeeze (p : CodePoint → Bool) (s : Str) : Str := squeezeFrom p false s

/-- `str.split`, from inside a word or from between two. -/
def splitFrom : Option Str → Str → List Str
  | none, [] => []
  | some w, [] => [w]
  | none, c :: s => if isWhite c then splitFrom none s else splitFrom (some [c]) s
  | some w, c :: s => if isWhite c then w :: splitFrom none s else splitFrom (some (w ++ [c])) s

/-- `" ".join(s.split())` -/
def joined (s : Str) : Str := [space].intercalate (splitFrom none s)

section
variable [Python]

def norm (text : Str) : Str := Python.lower (strip (squeeze isWhite text))

def value (text : Str) : Str :=
  let v := strip (squeeze (fun c => c = space ∨ c = 9) text)
  if Python.lower v ∈ EMPTY then [] else v

end

/-- `\d{5}(\.0+)?` as a number. -/
def serial (value : Str) : Option ℕ :=
  let whole := value.take 5
  let rest := value.drop 5
  if whole.length = 5 ∧ whole.all isDecimal ∧
      (rest = [] ∨ rest.head? = some (chr '.') ∧ rest.tail ≠ [] ∧ rest.tail.all (· = chr '0')) then
    some (whole.foldl (fun n c => 10 * n + decimal c) 0)
  else none

/-- Digits behind zeros. -/
def padded (width n : ℕ) : Str := List.replicate (width - (natText n).length) (chr '0') ++ natText n

/-- `(date(1899, 12, 30) + timedelta(days)).isoformat()`: the year starts in March, in eras of 400 years. -/
def isoformat (days : ℕ) : Str :=
  let day := days + 693899
  let era := day / 146097
  let of_era := day % 146097
  let year := (of_era - of_era / 1460 + of_era / 36524 - of_era / 146096) / 365
  let of_year := of_era - (365 * year + year / 4 - year / 100)
  let month := (5 * of_year + 2) / 153
  padded 4 (year + era * 400 + if month < 10 then 0 else 1) ++
    chr '-' :: padded 2 (if month < 10 then month + 3 else month - 9) ++ chr '-' :: padded 2 (of_year - (153 * month + 2) / 5 + 1)

def date (value : Str) : Str :=
  match serial value with
  | none => value
  | some days => if 20000 < days ∧ days < 80000 then isoformat days else value

example : date (lit "43723") = lit "2019-09-15" := by decide

/-! The sheet -/

/-- Tabs where there are any, else commas. -/
def delimiter (text : Str) : CodePoint := if 9 ∈ text then 9 else chr ','

def read_text_table (text : Str) : Except Raised (List (List Str)) :=
  if MAX_TABLE < text.length then .error (.CircuitError (lit "the table is larger than 4 MiB"))
  else (Csv.reader (delimiter text) text).mapError .csv_Error

variable [Python]

def header_row (rows : List (List Str)) : Except Raised ℕ :=
  match (rows.take 50).findIdx? fun row => row.any fun c => norm c ∈ HEADERS with
  | some index => .ok index
  | none => .error (.CircuitError (lit ("no header row: one row must name the circuit " ++
      "(Circuit Designation, Circuit ID or Circuit)")))

omit [Python] in
/-- Each cell that is empty is filled from the left. -/
def carried (current : Str) : List Str → List Str
  | [] => []
  | cell :: row => (if cell = [] then current else cell) :: carried (if cell = [] then current else cell) row

/-- The two rows above the header, from below, that name more than one thing. -/
def bands (rows : List (List Str)) (header width : ℕ) : List (List Str) :=
  let above := ((rows.take header).reverse.map fun row => row.map joined).filter fun row => 1 < (row.filter (· ≠ [])).length
  (above.take 2).reverse.map fun row => carried [] ((List.range width).map fun col => row.getD col [])

/-- The first column of a name that no field has taken. -/
def column (names : List Str) (taken : List (Field × ℕ)) (name : Str) : Option ℕ :=
  (List.range names.length).find? fun col => names.getD col [] = name ∧ col ∉ taken.map Prod.snd

/-- A field takes a column of one of its names. -/
def recognised (header : List Str) (taken : List (Field × ℕ)) (e : Field × List Str) : List (Field × ℕ) :=
  match e.2.findSome? (column (header.map norm) taken) with
  | some col => taken ++ [(e.1, col)]
  | none => taken

def columns (header : List Str) : List (Field × ℕ) := ALIASES.foldl (recognised header) []

/-- Neighbouring columns under one site and segment that name different fields. -/
structure Group where
  site : Str
  segment : Str
  cols : List ℕ

/-- What the header and its bands say of the columns. -/
structure Sheet where
  header : List Str
  sites : List Str
  segments : List Str
  fields : List (Field × ℕ)
  deriving DecidableEq, Repr

namespace Sheet
variable (sheet : Sheet)

def name (col : ℕ) : Str := sheet.header.getD col []
def site (col : ℕ) : Str := sheet.sites.getD col []
def segment (col : ℕ) : Str := sheet.segments.getD col []

/-- A column with a name, that neither is a field nor numbers the rows. -/
def plain (col : ℕ) : Bool :=
  !(col ∈ sheet.fields.map Prod.snd ∨ sheet.name col = [] ∨ norm (sheet.name col) ∈ SERIAL : Bool)

def joins (last : Group) (col : ℕ) : Bool :=
  last.site = sheet.site col ∧ last.segment = sheet.segment col ∧ sheet.name col ∉ last.cols.map sheet.name

/-- Into the last group, or a new one. -/
def grouped (groups : List Group) (col : ℕ) : List Group :=
  match groups.getLast? with
  | some last =>
    if sheet.joins last col then groups.dropLast ++ [{ last with cols := last.cols ++ [col] }]
    else groups ++ [⟨sheet.site col, sheet.segment col, [col]⟩]
  | none => [⟨sheet.site col, sheet.segment col, [col]⟩]

/-- One more column, among the groups or the attributes. -/
def place (s : List Group × List ℕ) (col : ℕ) : List Group × List ℕ :=
  if sheet.plain col then if sheet.segment col = [] then (s.1, s.2 ++ [col]) else (sheet.grouped s.1 col, s.2)
  else s

/-- The groups and the attributes. -/
def layout : List Group × List ℕ := (List.range sheet.header.length).foldl sheet.place ([], [])

end Sheet

/-- The sheet of some rows, and the rows below its header. -/
def sheet_of (rows : List (List Str)) : Except Raised (Sheet × List (List Str)) := do
  let header_at ← header_row rows
  let header := (rows.getD header_at []).map joined
  let width := (rows.drop (header_at + 1)).foldl (fun width row => max width row.length) header.length
  let header := header ++ List.replicate (width - header.length) []
  let bands := bands rows header_at width
  let fields := columns header
  if .designation ∈ fields.map Prod.fst then
    .ok (⟨header, if 1 < bands.length then bands.headD [] else List.replicate width [],
      bands.getLastD (List.replicate width []), fields⟩, rows.drop (header_at + 1))
  else .error (.CircuitError (lit "no column names the circuit"))

/-! A row -/

structure Hop where
  site : Str
  segment : Str
  fields : List (Str × Str)
  deriving DecidableEq, Repr

/-- A circuit as its row has it. -/
structure Parsed where
  fields : List (Field × Str)
  attributes : List (Str × Str)
  path : List Hop
  deriving DecidableEq, Repr

def cell (row : List Str) (col : ℕ) : Str := (row[col]?).elim [] value

omit [Python] in
def again (name : Str) (n : ℕ) : Str := name ++ space :: natText n

omit [Python] in
/-- The name, or the name with the first number from 2 on, that is not taken yet. -/
def unused (taken : List Str) (name : Str) : Str :=
  ((name :: (List.range taken.length).map fun n => again name (n + 2)).find? fun key => key ∉ taken).getD name

omit [Python] in
/-- Values under their names: one that is repeated is numbered. -/
def numbered (entries : List (Str × Str)) : List (Str × Str) :=
  entries.foldl (fun d e => d ++ [(unused (d.map Prod.fst) e.1, e.2)]) []

/-- The cells of some columns that hold something, under their names. -/
def Sheet.filled (sheet : Sheet) (row : List Str) (cols : List ℕ) : List (Str × Str) :=
  (cols.map fun col => (sheet.name col, cell row col)).filter fun e => e.2 ≠ []

def Sheet.designation (sheet : Sheet) (row : List Str) : Str := (sheet.fields.lookup .designation).elim [] (cell row)

/-- What a field is written as. -/
def written (field : Field) (v : Str) : Str := if field = .rfs_date ∨ field = .cease_date then date v else v

def Sheet.hops (sheet : Sheet) (row : List Str) : List Hop :=
  (sheet.layout.1.map fun g => ⟨g.site, g.segment, numbered (sheet.filled row g.cols)⟩).filter fun hop => hop.fields ≠ []

def Sheet.circuit (sheet : Sheet) (row : List Str) : Parsed where
  fields := sheet.fields.map fun e => (e.1, written e.1 (cell row e.2))
  attributes := numbered (sheet.filled row sheet.layout.2)
  path := sheet.hops row

/-- The rows below the header, each circuit from its first. -/
def Sheet.collect (sheet : Sheet) : List Str → List Parsed → List (List Str) → Except Raised (List Parsed)
  | _, circuits, [] => .ok circuits
  | seen, circuits, row :: rows =>
    if sheet.designation row = [] ∨ sheet.designation row ∈ seen then sheet.collect seen circuits rows
    else if MAX_CIRCUITS < (circuits ++ [sheet.circuit row]).length then
      .error (.CircuitError (lit "more than 5000 circuits in one sheet"))
    else sheet.collect (sheet.designation row :: seen) (circuits ++ [sheet.circuit row]) rows

/-! What is kept -/

structure Circuit where
  fields : List (Field × Str)
  attributes : List (Str × Str)
  path : List Hop
  notes : Str
  deriving DecidableEq, Repr

section
omit [Python]

def short (text : Str) (cap : ℕ) : Str := (strip text).take cap

/-- The entries of a dictionary, cut. -/
def cut (name value : ℕ) (e : Str × Str) : Str × Str := (short e.1 name, short e.2 value)

def cleanHop (hop : Hop) : Hop where
  site := short hop.site 120
  segment := short hop.segment 120
  fields := dict (((hop.fields.take 30).filter fun e => short e.2 300 ≠ []).map (cut 60 300))

def Circuit.document (c : Circuit) : Doc Half :=
  .obj (FIELDS.map (fun e => (e.2.1, .str ((c.fields.lookup e.1).getD []))) ++
    [(lit "attributes", .obj (c.attributes.map fun e => (e.1, .str e.2))),
      (lit "path", .list (c.path.map fun hop => .obj [(lit "site", .str hop.site), (lit "segment", .str hop.segment),
        (lit "fields", .obj (hop.fields.map fun e => (e.1, .str e.2)))])),
      (lit "notes", .str c.notes)])

/-- What `clean` keeps of a circuit. -/
def kept (c : Parsed) : Circuit where
  fields := FIELDS.map fun e => (e.1, short ((c.fields.lookup e.1).getD []) e.2.2)
  attributes := dict (((c.attributes.take 60).filter fun e => short e.1 80 ≠ []).map (cut 80 500))
  path := (c.path.map cleanHop).filter fun hop => hop.fields ≠ [] ∨ hop.site ≠ [] ∨ hop.segment ≠ []
  notes := []

def clean (c : Parsed) : Except Raised Circuit :=
  if ((kept c).fields.lookup .designation).getD [] = [] then .error (.CircuitError (lit "designation: required"))
  else if MAX_HOPS < c.path.length then .error (.CircuitError (lit "path: a list of at most 60 hops"))
  else if 96000 < (spaced [space] (kept c).document).length then
    .error (.CircuitError (lit "the circuit is larger than this appliance keeps"))
  else .ok (kept c)

end

def parse_table (rows : List (List Str)) : Except Raised (List Circuit) := do
  let sheet ← sheet_of rows
  let circuits ← sheet.1.collect [] [] sheet.2
  if circuits = [] then .error (.CircuitError (lit "the sheet names no circuit below its header"))
  else Checks.each clean circuits

end NetCoreNoc.Noc.Circuits
