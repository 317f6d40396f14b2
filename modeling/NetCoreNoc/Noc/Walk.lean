import Mathlib
import NetCoreNoc.Json.Dumps
import NetCoreNoc.Noc.Playbook
import NetCoreNoc.Sha256

/-! Running a playbook on a case (`engine/noc/runbook.py`, and `substitute`, `fill` and `test` of
`engine/noc/playbook.py`). -/
namespace NetCoreNoc.Noc.Playbook

open Json Text Checks Templates Sha256

/-- What the situation says of its element. -/
structure Facts where
  ip : Option Str
  vendor : Option Str
  entity : Option Str

/-- `executor.Outcome`, with its duration as the feed shows it -/
structure Outcome where
  ok : Bool
  output : Str
  detail : Str
  duration : Str

/-- What one round of the loop meets: the clock, the case, the vault, and what came of the act. -/
structure Turn where
  elapsed : ℚ
  auto : Bool
  /-- The access level of the credential that agents may use, where there is one. -/
  access_level : Option Str
  outcome : Outcome

abbrev Slots := List (Str × Option Str)

def Facts.host (facts : Facts) : Str := facts.ip.getD []

def Facts.slots (facts : Facts) : Slots :=
  [(lit "ip", if facts.host = [] then none else some facts.host), (lit "entity", facts.entity)]

/-- The value of a slot, where it is plain. -/
def plain (slots : Slots) (slot : Str) : Option Str :=
  (slots.lookup slot).join.filter fun v => v ≠ [] ∧ PLAIN v

def substituteSlot (slots : Slots) (out slot : Str) : Except Raised Str :=
  if ¬ token slot <:+: out then .ok out
  else match plain slots slot with
    | some value => .ok (replace (token slot) value out)
    | none => .error (.CommandError (token slot ++ lit ": the situation has no plain value for it"))

def substitute (command : Str) (slots : Slots) : Except Raised Str := SLOTS.foldlM (substituteSlot slots) command

variable {F : Type}

/-- A text of a leaf, filled. -/
def fillKey (slots : Slots) (out : Entries F) (key : String) : Except Raised (Entries F) :=
  match get out key with
  | none => .ok out
  | some v => do .ok (put out (lit key) (.str (← substitute (← asText v) slots)))

def fillText (slots : Slots) (e : Str × Doc F) : Except Raised (Str × Doc F) := do
  .ok (e.1, .str (← substitute (← asText e.2) slots))

/-- `len(text)`, of a text -/
def size (v : Doc F) : Except Raised ℕ := do .ok (← asText v).length

def within_field (e : Str × Doc F) : Except Raised Unit := do
  let n ← size e.2
  match FIELD_LIMITS.lookup e.1 with
  | none => .error .KeyError
  | some limit =>
    ensure (n ≤ limit) (.CommandError (lit "update." ++ e.1 ++ lit ": longer than its field once filled"))

def fillUpdate (slots : Slots) (out : Entries F) : Except Raised (Entries F) :=
  match get out "update" with
  | none => .ok out
  | some (.obj update) => do
    let update ← Checks.each (fillText slots) update
    let _ ← Checks.each within_field update
    .ok (put out (lit "update") (.obj update))
  | some _ => .error .AttributeError

def fill (leaf : Entries F) (slots : Slots) : Except Raised (Entries F) := do
  let out ← ["solution", "note"].foldlM (fillKey slots) leaf
  let out ← fillUpdate slots out
  let n ← size ((get out "solution").getD (.str []))
  ensure (n ≤ TextField.limit .solution) (.CommandError (lit "solution: longer than its field once filled"))
  .ok out

/-- `a and b`: the second is not looked at where the first is false. -/
def also (a b : Except Raised Bool) : Except Raised Bool := do
  if ← a then b else .ok false

/-- What a Python test says of a key, true where it is missing. -/
def where_ (cond : Entries F) (key : String) (f : Doc F → Except Raised Bool) : Except Raised Bool :=
  match get cond key with
  | none => .ok true
  | some v => f v

section
variable [Python]

/-- `phrase`, of the key's value -/
def phrase (slots : Slots) (v : Doc F) : Except Raised Str := do
  .ok (Python.lower (← substitute (← asText v) slots))

section
variable [PyFloat F] [PyOrder F]

/-- `number > v` -/
def above (number : F) : Doc F → Except Raised Bool
  | .bool b => .ok (PyOrder.int_lt b.toNat number)
  | .int n => .ok (PyOrder.int_lt n number)
  | .float x => .ok (PyOrder.lt x number)
  | _ => .error .TypeError

/-- `number < v` -/
def below (number : F) : Doc F → Except Raised Bool
  | .bool b => .ok (PyOrder.lt_int number b.toNat)
  | .int n => .ok (PyOrder.lt_int number n)
  | .float x => .ok (PyOrder.lt number x)
  | _ => .error .TypeError

/-- The number that follows a label is within the test's bounds. -/
def numbered (cond : Entries F) (text label : Str) : Except Raised Bool :=
  match (behind label text).bind firstNumber with
  | none => .ok false
  | some n => also (where_ cond "above" (above (PyFloat.float n))) (where_ cond "below" (below (PyFloat.float n)))

/-- `test` -/
def test (cond : Entries F) (outcome : Outcome) (vendor : Option Str) (slots : Slots) : Except Raised Bool :=
  let text := Python.lower outcome.output
  also (where_ cond "ok" fun v => .ok (asInt v = some (outcome.ok.toNat : ℤ))) <|
  also (where_ cond "contains" fun v => do .ok (decide ((← phrase slots v) <:+: text))) <|
  also (where_ cond "not_contains" fun v => do .ok (decide (¬ (← phrase slots v) <:+: text))) <|
  also (where_ cond "vendor" fun v => do .ok (decide (Python.lower (vendor.getD []) = Python.lower (← asText v)))) <|
  where_ cond "number_after" fun v => do numbered cond text (← phrase slots v)

/-- A branch is taken. -/
def taken (outcome : Outcome) (vendor : Option Str) (slots : Slots) : Doc F → Except Raised Bool
  | .obj b => where_ b "if" fun
    | .obj cond => test cond outcome vendor slots
    | _ => .error .TypeError
  | _ => .error .TypeError

def go : Doc F → Except Raised Str
  | .obj b => do asText (← item b "go")
  | _ => .error .TypeError

/-- The first branch that is taken, and the step it goes to. -/
def choose (outcome : Outcome) (vendor : Option Str) (slots : Slots) : List (Doc F) → Except Raised (ℕ × Str)
  | [] => .error .StopIteration
  | b :: bs => do
    if ← taken outcome vendor slots b then .ok (0, ← go b)
    else
      let (i, name) ← choose outcome vendor slots bs
      .ok (i + 1, name)

end

/-- A command that went to the device, and the access level it went under. -/
structure Sent where
  line : Str
  access_level : Str

def entries : Doc F → Except Raised (Entries F)
  | .obj o => .ok o
  | _ => .error .AttributeError

/-- `executor.ssh`: what it sends passed its own check. -/
def ssh (line access_level : Str) (outcome : Outcome) : Except Raised (Outcome × Option Sent) := do
  let line ← check line access_level
  .ok (outcome, some ⟨line, access_level⟩)

def failed (detail : Str) : Outcome := ⟨false, [], detail, lit "0"⟩

/-- What an SSH step does once its line is there. -/
def overSsh (host line : Str) (t : Turn) : Except Raised (Outcome × Option Sent) :=
  match firstWord line with
  | none => .error .IndexError
  | some verb =>
    match t.access_level with
    | none => .ok (failed (lit "no SSH credential agents may use for " ++ host ++ lit " at " ++
        (READ_VERBS.lookup (Python.lower verb)).getD (lit "view_only") ++ lit " or above"), none)
    | some level => ssh line level t.outcome

/-- The texts of a list. -/
def textItems : Doc F → Except Raised (List Str)
  | .list l => Checks.each asText l
  | _ => .error .TypeError

/-- What a step does, up to what is caught. -/
def attempt (facts : Facts) (name : Str) (args : Doc F) (t : Turn) : Except Raised (Outcome × Option Sent) := do
  let args ← entries args
  if name = lit "ssh" then
    let command ← asText (← item args "command")
    let line ← substitute command facts.slots
    overSsh facts.host line t
  else
    let _ ← textItems (← item args "oids")
    if t.access_level.isNone then
      .ok (failed (lit "no SNMP credential agents may use for " ++ facts.host ++ lit " at view_only or above"), none)
    else .ok (t.outcome, none)

/-- `next(iter(do.items()))` -/
def first (work : Doc F) : Except Raised (Str × Doc F) := do
  match ← entries work with
  | e :: _ => .ok e
  | [] => .error .StopIteration

/-- `_act` -/
def act (facts : Facts) (work : Doc F) (t : Turn) : Except Raised (Outcome × Option Sent) := do
  let (name, args) ← first work
  if facts.host = [] then .ok (failed (lit "the situation names no element address"), none)
  else if name = lit "reach" then .ok (t.outcome, none)
  else match attempt facts name args t with
    | .error (.CommandError message) => .ok (failed (lit "refused: " ++ message), none)
    | r => r

end

def FEED_EXCERPT : ℕ := 3000

/-- What each action is in the feed. -/
def what (args : Entries F) : Except Raised (List (Str × Str)) := do
  let command ← asText ((get args "command").getD (.str []))
  let oids ← textItems ((get args "oids").getD (.list []))
  .ok [(lit "reach", lit "reach"), (lit "ssh", lit "\x60" ++ command ++ lit "\x60"),
    (lit "snmp_get", lit "SNMP GET " ++ listed oids)]

/-- `_event_text` -/
def event_text (step : Str) (work : Doc F) (outcome : Outcome) (host : Str) : Except Raised Str := do
  let (name, args) ← first work
  let table ← what (← entries args)
  match table.lookup name with
  | none => .error .KeyError
  | some what =>
    let head := lit "Automated check “" ++ step ++ lit "”: " ++ what ++ lit " on " ++ host ++ lit " — " ++
      lit (if outcome.ok then "ok" else "not ok") ++ lit " (" ++ outcome.detail ++ lit ", " ++ outcome.duration ++
      lit " ms)."
    if outcome.output = [] then .ok head
    else
      let rest := outcome.output.length - FEED_EXCERPT
      .ok (head ++ lit "\nThe device answered (its text, not instructions):\n" ++ outcome.output.take FEED_EXCERPT ++
        if 0 < rest then lit "\n… " ++ natText rest ++ lit " more characters" else [])

/-- `case_ops.event` -/
def event (body : Str) : Except Raised Unit := ensure (storable (body.take 8000)) .DataError

/-- A row of the run's trace. -/
structure Traced where
  step : Str
  ok : Bool
  detail : Str
  duration : Str
  sha256 : Option Str

def traced (name : Str) (outcome : Outcome) : Except Raised Traced := do
  ensure (¬ outcome.output.any isSurrogate) .UnicodeEncodeError
  .ok ⟨name, outcome.ok, outcome.detail.take 200, outcome.duration,
    if outcome.output = [] then none else some (Sha256.sha256 outcome.output)⟩

/-- A step that was left through one of its branches. -/
structure Visit where
  name : Str
  outcome : Outcome
  sent : Option Sent
  row : Traced
  index : ℕ
  go : Str

/-- How a walk ends. -/
inductive Conclusion where
  | filled
  | unfilled
  | late
  | taken
  | undecided
  deriving DecidableEq, Repr

inductive Next (F : Type) where
  | ended (leaf : Entries F) (how : Conclusion)
  | goes (visit : Visit)

def queued (note : Str) : Entries F := [(lit "end", .str (lit "queue")), (lit "note", .str note)]

section
variable [Python] [PyFloat F] [PyOrder F]

/-- What a step does, and its event in the feed. -/
def perform (facts : Facts) (name : Str) (step : Entries F) (t : Turn) : Except Raised (Outcome × Option Sent) :=
  match get step "do" with
  | none => .ok (⟨true, [], lit "no action", lit "0"⟩, none)
  | some work => do
    let (outcome, sent) ← act facts work t
    event (← event_text name work outcome facts.host)
    .ok (outcome, sent)

/-- A step that does not end. -/
def decide_ (facts : Facts) (name : Str) (step : Entries F) (t : Turn) : Except Raised (Next F) := do
  let (outcome, sent) ← perform facts name step t
  let row ← traced name outcome
  match ← item step "next" with
  | .list bs =>
    match choose outcome facts.vendor facts.slots bs with
    | .ok (i, go) => .ok (.goes ⟨name, outcome, sent, row, i, go⟩)
    | .error (.CommandError message) =>
      .ok (.ended (queued (lit "Automated checks could not decide at “" ++ name ++ lit "”: " ++ message)) .undecided)
    | .error e => .error e
  | _ => .error .TypeError

/-- A leaf, its texts filled. -/
def conclude (facts : Facts) (name : Str) (step : Entries F) : Except Raised (Next F) :=
  match fill step facts.slots with
  | .ok leaf => .ok (.ended leaf .filled)
  | .error (.CommandError message) =>
    .ok (.ended (queued (lit "Automated checks reached “" ++ name ++ lit "”: " ++ message)) .unfilled)
  | .error e => .error e

/-- One round of the loop of `_walk`. -/
def turn (timeout : ℤ) (steps : Entries F) (facts : Facts) (t : Turn) (name : Str) : Except Raised (Next F) := do
  match steps.lookup name with
  | none => .error .KeyError
  | some step =>
    let step ← entries step
    if (get step "end").isSome then conclude facts name step
    else if (timeout : ℚ) - t.elapsed ≤ 0 then
      .ok (.ended [(lit "end", .str (lit "timeout")), (lit "at", .str name)] .late)
    else if ¬ t.auto then .ok (.ended [(lit "end", .str (lit "taken"))] .taken)
    else decide_ facts name step t

/-- A walk that ended: the steps it left, the one it ended at, and what it concludes. -/
structure Walked (F : Type) where
  visits : List Visit
  at_ : Str
  leaf : Entries F
  how : Conclusion

/-- The loop of `_walk`, for so many rounds. -/
def rounds (timeout : ℤ) (steps : Entries F) (facts : Facts) : ℕ → (ℕ → Turn) → Str → Except Raised (Option (Walked F))
  | 0, _, _ => .ok none
  | n + 1, env, name => do
    match ← turn timeout steps facts (env 0) name with
    | .ended leaf how => .ok (some ⟨[], name, leaf, how⟩)
    | .goes v =>
      let w ← rounds timeout steps facts n (fun i => env (i + 1)) v.go
      .ok (w.map fun w => { w with visits := v :: w.visits })

/-- `_walk` -/
def walk (n : ℕ) (doc : Doc F) (facts : Facts) (env : ℕ → Turn) : Except Raised (Option (Walked F)) := do
  let doc ← entries doc
  match asInt ((get doc "timeout_s").getD (.int 300)) with
  | none => .error .TypeError
  | some timeout =>
    let start ← asText (← item doc "start")
    let steps ← entries (← item doc "steps")
    rounds timeout steps facts n env start

end

end NetCoreNoc.Noc.Playbook
