import Mathlib
import NetCoreNoc.Acyclic
import NetCoreNoc.Json.Canonical
import NetCoreNoc.Noc.CaseActs
import NetCoreNoc.Noc.Commands
import NetCoreNoc.Templates

/-! Playbooks, and the one check of them (`engine/noc/playbook.py`): what it raises, and what a stored one is. -/
namespace NetCoreNoc.Noc.Playbook

open Json Text Checks Templates

def MAX_DOCUMENT : ℕ := 64 * 1024
def MAX_STEPS : ℕ := 32
def TIMEOUT_RANGE : ℤ × ℤ := (30, 1800)
def ACTIONS : List Str := [lit "reach", lit "ssh", lit "snmp_get"]
def ENDS : List Str := [lit "resolve", lit "pending", lit "queue"]
def SLOTS : List Str := [lit "ip", lit "entity"]
def CONDITIONS : List Str :=
  [lit "ok", lit "contains", lit "not_contains", lit "number_after", lit "above", lit "below", lit "vendor"]
def SEVERITIES : List Str := [lit "critical", lit "major", lit "minor", lit "warning", lit "indeterminate"]

/-- `cases.PENDING`, sorted -/
def WAITING : List Str := PENDING.map fun p => lit "pending_" ++ lit p.word

/-- `cases.FIELD_LIMITS` -/
def FIELD_LIMITS : List (Str × ℕ) := TextField.all.map fun f => (lit f.word, f.limit)

def isLower (c : CodePoint) : Bool := 97 ≤ c.val ∧ c.val ≤ 122

/-- Without the newline that a `$` lets stand at the end. -/
def chomp (s : Str) : Str := if s.getLast? = some (chr '\n') then s.dropLast else s

/-- `^[a-z][a-z0-9_]{0,39}$` -/
def NAME (s : Str) : Bool :=
  match chomp s with
  | [] => false
  | c :: r => isLower c ∧ r.length ≤ 39 ∧ r.all fun c => isLower c ∨ isDigit c ∨ c = chr '_'

/-- `^[A-Za-z0-9./:_-]{1,64}$` -/
def PLAIN (s : Str) : Bool :=
  0 < (chomp s).length ∧ (chomp s).length ≤ 64 ∧ (chomp s).all fun c => isLetter c ∨ isDigit c ∨ c ∈ lit "./:_-"

def Raised.IsPlaybookError : Raised → Prop
  | .PlaybookError _ => True
  | _ => False

def invalid (place message : Str) : Raised := .PlaybookError (place ++ lit ": " ++ message)

/-- A path, one key further. -/
def under (place key : Str) : Str := place ++ chr '.' :: key

variable {F : Type}

abbrev Entries (F : Type) := List (Str × Doc F)

def get (o : Entries F) (key : String) : Option (Doc F) := o.lookup (lit key)

/-- `o[key]` -/
def item (o : Entries F) (key : String) : Except Raised (Doc F) :=
  match get o key with
  | some v => .ok v
  | none => .error .KeyError

/-- A value that is used as a `str`. -/
def asText : Doc F → Except Raised Str
  | .str s => .ok s
  | _ => .error .TypeError

def isBool : Doc F → Bool
  | .bool _ => true
  | _ => false

/-- A text that is not empty, within so many characters. -/
def isText (longest : ℕ) : Doc F → Bool
  | .str s => 0 < s.length ∧ s.length ≤ longest
  | _ => false

def isWithin (longest : ℕ) : Doc F → Bool
  | .str s => s.length ≤ longest
  | _ => false

/-- `isinstance(v, int | float)`: a `bool` is an `int`. -/
def isNumber : Doc F → Bool
  | .bool _ | .int _ | .float _ => true
  | _ => false

def asInt : Doc F → Option ℤ
  | .bool b => some b.toNat
  | .int n => some n
  | _ => none

/-- `v in texts`, where no hash is taken -/
def isOneOf (texts : List Str) : Doc F → Bool
  | .str s => s ∈ texts
  | _ => false

def texts (l : List (Doc F)) : List Str := l.filterMap fun | .str s => some s | _ => none

/-- `{slot}` -/
def token (slot : Str) : Str := brace :: slot ++ [unbrace]

section
variable [Python]

/-- `_keys` -/
def keys (place : Str) (value : Doc F) (allowed required : List Str) : Except Raised (Entries F) :=
  match value with
  | .obj o => do
    noneOf ((o.map Prod.fst).filter (· ∉ allowed)) fun k => invalid place (lit "unknown key " ++ Python.repr k)
    noneOf (required.filter (· ∉ o.map Prod.fst)) fun k => invalid place (Python.repr k ++ lit " is required")
    .ok o
  | _ => .error (invalid place (lit "an object"))

/-- `_strings` -/
def strings (place : Str) (value : Doc F) (most longest : ℕ) : Except Raised (List (Doc F)) :=
  match value with
  | .list l => do
    ensure (l.length ≤ most) (invalid place (lit "a list of at most " ++ natText most))
    ensure (∀ v ∈ l, isText longest v)
      (invalid place (lit "each a non-empty text of at most " ++ natText longest ++ lit " characters"))
    .ok l
  | _ => .error (invalid place (lit "a list of at most " ++ natText most))

/-- `_slots` -/
def slots (place text : Str) : Except Raised Str := do
  let probe := SLOTS.foldl (fun probe slot => replace (token slot) (lit "x") probe) text
  ensure (brace ∉ probe ∧ unbrace ∉ probe)
    (invalid place (lit "the only placeholders are \x7bip\x7d and \x7bentity\x7d"))
  .ok probe

/-- `_condition` -/
def condition (place : Str) (cond : Doc F) : Except Raised Unit := do
  let cond ← keys place cond CONDITIONS []
  ensure (∀ v ∈ get cond "ok", isBool v) (invalid (under place (lit "ok")) (lit "true or false"))
  let _ ← Checks.each (fun key => ensure (∀ v ∈ get cond key, isText 200 v)
    (invalid (under place (lit key)) (lit "a text of at most 200 characters")))
    ["contains", "not_contains", "number_after", "vendor"]
  let _ ← Checks.each (fun key => match get cond key with
    | none => .ok []
    | some v => do slots (under place (lit key)) (← asText v)) ["contains", "not_contains", "number_after"]
  let _ ← Checks.each (fun key => ensure (∀ v ∈ get cond key, isNumber v)
    (invalid (under place (lit key)) (lit "a number")))
    ["above", "below"]
  ensure (((get cond "above").isSome ∨ (get cond "below").isSome) ↔ (get cond "number_after").isSome)
    (invalid place (lit "number_after goes with above or below"))

/-- `_command` -/
def command (place : Str) (command : Doc F) : Except Raised Unit :=
  match command with
  | .str s => do
    let probe ← slots place s
    match check probe (lit "root") with
    | .ok _ => .ok ()
    | .error (.CommandError message) => .error (invalid place message)
    | .error e => .error e
  | _ => .error (invalid place (lit "a text"))

/-- What a step does. -/
def action (place : Str) (step : Entries F) : Except Raised Unit :=
  match get step "do" with
  | none => .ok ()
  | some v => do
    let place := under place (lit "do")
    let work ← keys place v ACTIONS []
    ensure (work.length = 1) (invalid place (lit "exactly one of " ++ listed ACTIONS))
    match work with
    | [] => .error .StopIteration
    | (name, args) :: _ =>
      if name = lit "reach" then do
        let _ ← keys (under place name) args [] []
        .ok ()
      else if name = lit "ssh" then do
        let args ← keys (under place name) args [lit "command", lit "mode"] [lit "command"]
        command (under (under place name) (lit "command")) (← item args "command")
        ensure (isOneOf [lit "exec", lit "shell"] ((get args "mode").getD (.str (lit "exec"))))
          (invalid (under (under place name) (lit "mode")) (lit "exec or shell"))
      else do
        let place := under place (lit "snmp_get")
        let args ← keys place args [lit "oids"] [lit "oids"]
        let oids ← strings (under place (lit "oids")) (← item args "oids") 20 200
        ensure (oids ≠ [] ∧ ∀ o ∈ texts oids, ∃ n ∈ dotted o, 1 ≤ n ∧ n ≤ 127)
          (invalid (under place (lit "oids")) (lit "numeric OIDs"))

/-- `repr` of a value that has a hash -/
def shown [PyFloat F] : Doc F → Except Raised Str
  | .null => .ok (lit "None")
  | .bool true => .ok (lit "True")
  | .bool false => .ok (lit "False")
  | .int n => if digitCount n ≤ MAX_STR_DIGITS then .ok (intText n) else .error .ValueError
  | .float x => .ok (([(lit "NaN", lit "nan"), (lit "Infinity", lit "inf"), (lit "-Infinity", lit "-inf")].lookup
      (PyFloat.text x)).getD (PyFloat.text x))
  | .str s => .ok (Python.repr s)
  | .list _ | .obj _ => .error .TypeError

/-- `v in names`, and the name. A list or an object has no hash. -/
def member (names : List Str) : Doc F → Except Raised (Option Str)
  | .str s => .ok (if s ∈ names then some s else none)
  | .list _ | .obj _ => .error .TypeError
  | _ => .ok none

def among (names : List Str) (v : Doc F) (e : Except Raised Raised) : Except Raised Str := do
  match ← member names v with
  | some s => .ok s
  | none => .error (← e)

/-- No step has this name. -/
def noStep [PyFloat F] (place : Str) (v : Doc F) : Except Raised Raised := do
  .ok (invalid place (lit "no step " ++ (← shown v)))

/-- The test of a branch. -/
def tested (place : Str) (last i : ℕ) (b : Entries F) : Except Raised Unit :=
  match get b "if" with
  | some cond => condition (under place (lit "if")) cond
  | none => ensure (i = last) (invalid place (lit "only the last branch may have no \x60if\x60"))

/-- One branch, with its place among the branches. -/
def branch [PyFloat F] (place : Str) (names : List Str) (last : ℕ) (branch : Doc F × ℕ) : Except Raised Str := do
  let place := place ++ lit ".next[" ++ natText branch.2 ++ lit "]"
  let b ← keys place branch.1 [lit "if", lit "go"] [lit "go"]
  tested place last branch.2 b
  let go ← item b "go"
  among names go (noStep (under place (lit "go")) go)

/-- `key in v`, of an object -/
def within (key : String) : Doc F → Except Raised Bool
  | .obj o => .ok (get o key).isSome
  | _ => .error .TypeError

def branches [PyFloat F] (place : Str) (names : List Str) (step : Entries F) : Except Raised (List Str) := do
  match ← item step "next" with
  | .list bs =>
    ensure (1 ≤ bs.length ∧ bs.length ≤ 8) (invalid (under place (lit "next")) (lit "one to eight branches"))
    let targets ← Checks.each (branch place names (bs.length - 1)) bs.zipIdx
    match bs.getLast? with
    | none => .error .IndexError
    | some b =>
      let tested ← within "if" b
      ensure (tested = false)
        (invalid (under place (lit "next")) (lit "the last branch is the default, with no \x60if\x60"))
      .ok targets
  | _ => .error (invalid (under place (lit "next")) (lit "one to eight branches"))

/-- A text of an `update`. -/
def updated (place : Str) (e : Str × Doc F) : Except Raised Unit := do
  match FIELD_LIMITS.lookup e.1 with
  | none => .error .KeyError
  | some limit =>
    ensure (isWithin limit e.2)
      (invalid (under (under place (lit "update")) e.1) (lit "a text of at most " ++ natText limit))
    let _ ← slots (under (under place (lit "update")) e.1) (← asText e.2)
    .ok ()

/-- A `note` or a `solution`. -/
def remark (place : Str) (step : Entries F) (key : String) : Except Raised Unit := do
  match get step key with
  | none => .ok ()
  | some v =>
    ensure (isWithin 2000 v) (invalid (under place (lit key)) (lit "a text of at most 2000 characters"))
    let _ ← slots (under place (lit key)) (← asText v)
    .ok ()

/-- How the case ends at a leaf of this kind. -/
def ending (place : Str) (step : Entries F) (kind : Doc F) : Except Raised Unit := do
  if isOneOf [lit "resolve"] kind then
    let _ ← keys place (.obj step) [lit "end", lit "cause", lit "solution", lit "clear_alarms", lit "note"]
      [lit "cause", lit "solution"]
    let _ ← among (CAUSES.map lit) (← item step "cause")
      (.ok (invalid (under place (lit "cause")) (lit "one of " ++ listed (CAUSES.map lit))))
    ensure (isBool ((get step "clear_alarms").getD (.bool false)))
      (invalid (under place (lit "clear_alarms")) (lit "true or false"))
  else if isOneOf [lit "pending"] kind then
    let _ ← keys place (.obj step) [lit "end", lit "status", lit "next_update_in_s", lit "update", lit "note"]
      [lit "status", lit "update"]
    let _ ← among WAITING (← item step "status")
      (.ok (invalid (under place (lit "status")) (lit "one of " ++ listed WAITING)))
    ensure (∃ n ∈ asInt ((get step "next_update_in_s").getD (.int 3600)), 300 ≤ n ∧ n ≤ 7 * 86400)
      (invalid (under place (lit "next_update_in_s")) (lit "300 to 604800"))
    let update ← keys (under place (lit "update")) (← item step "update")
      ((FIELD_LIMITS.map Prod.fst).filter (· ≠ lit "solution")) []
    let _ ← Checks.each (updated place) update
    .ok ()
  else if isOneOf [lit "queue"] kind then
    let _ ← keys place (.obj step) [lit "end", lit "note"] []
    .ok ()
  else .error (invalid (under place (lit "end")) (lit "one of " ++ listed ENDS))

/-- `_end` -/
def end_ (place : Str) (step : Entries F) : Except Raised (List Str) := do
  ending place step (← item step "end")
  let _ ← Checks.each (remark place step) ["note", "solution"]
  .ok []

/-- `_step` -/
def step [PyFloat F] (name : Str) (step : Doc F) (names : List Str) : Except Raised (List Str) :=
  let place := under (lit "steps") name
  match step with
  | .obj o =>
    if (get o "end").isSome then end_ place o
    else do
      let step ← keys place (.obj o) [lit "do", lit "next", lit "note"] [lit "next"]
      action place step
      branches place names step
  | _ => .error (invalid place (lit "an object"))

/-- `_acyclic` -/
def acyclic (graph : List (Str × List Str)) (start : Str) : Except Raised Unit :=
  match Acyclic.visit (graph.lookup ·) (graph.length + 1) start ⟨[], []⟩ with
  | .error (.cycle node) =>
    .error (invalid (under (lit "steps") node) (lit "a cycle — every path must reach an end"))
  | .error (.missing _) => .error .KeyError
  | .error .deep => .error .RecursionError
  | .ok state => noneOf ((graph.map Prod.fst).filter (· ∉ state.done)) fun node =>
      invalid (under (lit "steps") node) (lit "not reachable from start")

def canonical [PyFloat F] (document : Doc F) : Except Raised Str := do
  ensure (nesting document ≤ Python.depth) .RecursionError
  ensure (Fits MAX_STR_DIGITS document) .ValueError
  .ok (rawText (sorted document))

/-- `document.encode()` -/
def encoded (text : Str) : Except Raised (List UInt8) :=
  match encodeUtf8 text with
  | some b => .ok b
  | none => .error .UnicodeEncodeError

def matching (v : Doc F) : Except Raised Unit := do
  let m ← keys (lit "match") v [lit "vendors", lit "trap_oids", lit "severities"] []
  ensure (m ≠ []) (invalid (lit "match") (lit "at least one of vendors, trap_oids, severities"))
  let _ ← strings (lit "match.vendors") ((get m "vendors").getD (.list [])) 20 64
  let oids ← strings (lit "match.trap_oids") ((get m "trap_oids").getD (.list [])) 50 200
  ensure (∀ o ∈ texts oids, (dotted o).isSome)
    (invalid (lit "match.trap_oids") (lit "numeric OIDs (a prefix matches its subtree)"))
  let severities ← strings (lit "match.severities") ((get m "severities").getD (.list [])) 5 16
  ensure (∀ s ∈ texts severities, s ∈ SEVERITIES)
    (invalid (lit "match.severities") (listed SEVERITIES))

def stripped : Doc F → ℕ
  | .str s => (strip s).length
  | _ => 0

def validate [PyFloat F] (document : Doc F) : Except Raised (Doc F) := do
  let doc ← keys (lit "playbook") document
    [lit "name", lit "description", lit "match", lit "timeout_s", lit "start", lit "steps"]
    [lit "name", lit "match", lit "start", lit "steps"]
  let name ← item doc "name"
  ensure (0 < stripped name ∧ stripped name ≤ 80) (invalid (lit "name") (lit "1 to 80 characters"))
  ensure (isWithin 2000 ((get doc "description").getD (.str [])))
    (invalid (lit "description") (lit "at most 2000 characters"))
  matching (← item doc "match")
  ensure (∃ n ∈ asInt ((get doc "timeout_s").getD (.int 300)), TIMEOUT_RANGE.1 ≤ n ∧ n ≤ TIMEOUT_RANGE.2)
    (invalid (lit "timeout_s") (intText TIMEOUT_RANGE.1 ++ lit " to " ++ intText TIMEOUT_RANGE.2 ++ lit " seconds"))
  match ← item doc "steps" with
  | .obj steps =>
    ensure (1 ≤ steps.length ∧ steps.length ≤ MAX_STEPS) (invalid (lit "steps") (lit "one to " ++ natText MAX_STEPS))
    let names := steps.map Prod.fst
    noneOf (names.filter fun n => !NAME n) fun n =>
      invalid (lit "steps") (Python.repr n ++ lit " — lower-case letters, digits and _")
    let start ← item doc "start"
    let start ← among names start (noStep (lit "start") start)
    let graph ← Checks.each (fun e => do
      let targets ← step e.1 e.2 names
      .ok (e.1, targets)) steps
    acyclic graph start
    let text ← canonical document
    let b ← encoded text
    ensure (b.length ≤ MAX_DOCUMENT) (invalid (lit "playbook") (lit "at most 64 KiB"))
    .ok document
  | _ => .error (invalid (lit "steps") (lit "one to " ++ natText MAX_STEPS))

end

end NetCoreNoc.Noc.Playbook
