import Mathlib
import NetCoreNoc.Json.Dumps
import NetCoreNoc.Runs

/-! The audit log (`crosscutting/audit.py`, `store/audit_log.py`): its hash chain, how it grows, how it is pruned and
how it is verified. -/
namespace NetCoreNoc.Audit
open Json

/-- A text column: code points that UTF-8 has, so no surrogates. -/
structure Column where
  text : Str
  scalar : text.all fun c => ¬ isHigh c ∧ ¬ isLow c
  deriving DecidableEq

/-- `OUTCOMES` -/
inductive Outcome where
  | ok
  | denied
  | error
  deriving DecidableEq, Repr

def Outcome.text : Outcome → Str
  | .ok => lit "ok"
  | .denied => lit "denied"
  | .error => lit "error"

def GENESIS_HASH : Str := List.replicate 64 (chr '0')

/-- A row of `audit_log`, its details as text. -/
structure Row (F : Type) where
  id : ℤ
  ts : F
  actor : Column
  role : Option Column
  source_ip : Option Column
  action : Column
  object_type : Option Column
  object_id : Option Column
  outcome : Outcome
  details : Str
  prev_hash : Str
  entry_hash : Str
  mac : Option Str
  deriving DecidableEq

/-- The fields that the hash of a row commits to, its details as a value. -/
structure Entry (F : Type) where
  id : ℤ
  ts : F
  actor : Column
  role : Option Column
  source_ip : Option Column
  action : Column
  object_type : Option Column
  object_id : Option Column
  outcome : Outcome
  details : Value F

/-- The arguments of `write_event`; `action` is in its catalogue by an assertion. -/
structure Event (F : Type) where
  ts : F
  actor : Column
  role : Option Column
  source_ip : Option Column
  action : Column
  outcome : Outcome
  object_type : Option Column
  object_id : Option Column
  details : Option (List (Key F × Value F))

/-- `_FORBIDDEN_DETAIL_KEYS` -/
def FORBIDDEN_DETAIL_KEYS : List Str :=
  ["password", "new_password", "old_password", "session", "session_id", "token", "token_value", "secret", "community",
    "authorization", "cookie", "lease", "private_key", "passphrase"].map lit

/-- `str.lower`, as far as it gives ASCII: capitals, and the Kelvin sign. -/
def lower (c : CodePoint) : CodePoint :=
  if 65 ≤ c.val ∧ c.val ≤ 90 then c + 32 else if c.val = 0x212a then chr 'k' else c

variable {F : Type}

/-- A key that is no string has no `lower`. -/
def redact : List (Key F × Value F) → Option (List (Key F × Value F))
  | [] => some []
  | (.str k, v) :: l => (redact l).map fun r => if k.map lower ∈ FORBIDDEN_DETAIL_KEYS then r else (.str k, v) :: r
  | _ :: _ => none

def redact_details (details : Option (List (Key F × Value F))) : Option (List (Key F × Value F)) :=
  redact (details.getD [])

def optional (c : Option Column) : Value F := (c.map fun c => .str c.text).getD .null

def Entry.payload (e : Entry F) : List (Key F × Value F) :=
  [(.str (lit "id"), .int e.id), (.str (lit "ts"), .float e.ts), (.str (lit "actor"), .str e.actor.text),
    (.str (lit "role"), optional e.role), (.str (lit "source_ip"), optional e.source_ip),
    (.str (lit "action"), .str e.action.text), (.str (lit "object_type"), optional e.object_type),
    (.str (lit "object_id"), optional e.object_id), (.str (lit "outcome"), .str e.outcome.text),
    (.str (lit "details"), e.details)]

def Row.entry (row : Row F) (details : Value F) : Entry F where
  id := row.id
  ts := row.ts
  actor := row.actor
  role := row.role
  source_ip := row.source_ip
  action := row.action
  object_type := row.object_type
  object_id := row.object_id
  outcome := row.outcome
  details

structure VerifyResult where
  ok : Bool
  checked : ℕ
  first_broken_id : Option ℤ
  reason : Option String
  final_hash : Str

section
variable [PyFloat F] [PyOrder F]

def canonical (e : Entry F) : Option Str := dumps (.dict e.payload)

/-- The details that a row's text says, as `json.loads` reads it. -/
def row_entry (row : Row F) : Option (Entry F) := (loads row.details).map fun j => row.entry j.value

end

/-- The newest row's hash; the rows are in the order of their ids. -/
def audit_last_hash (rows : List (Row F)) : Str := (rows.getLast?.map Row.entry_hash).getD GENESIS_HASH

def audit_next_id (rows : List (Row F)) : ℤ := (rows.getLast?.map Row.id).getD 0 + 1

section
variable [PyFloat F] [PyOrder F] (sha256 entry_mac : Str → Str)

/-- The row that `write_event` appends to the rows it finds, where it raises nothing. -/
def write_event (rows : List (Row F)) (event : Event F) : Option (Row F) := do
  let details ← redact_details event.details
  let entry : Entry F := { event with id := audit_next_id rows, details := .dict details }
  let c ← canonical entry
  let stored ← dumps entry.details
  let entry_hash := sha256 (audit_last_hash rows ++ c)
  some { event with
    id := entry.id
    details := stored
    prev_hash := audit_last_hash rows
    entry_hash
    mac := some (entry_mac entry_hash) }

/-- `verify_rows` on its way: rows checked, the hash to link to, the hash of the last row, and whether a seal has
come. -/
structure Walk where
  checked : ℕ := 0
  prev_hash : Str := GENESIS_HASH
  final_hash : Str := GENESIS_HASH
  sealed : Bool := false

def Walk.broken (w : Walk) (row : Row F) (reason : String) : VerifyResult :=
  ⟨false, w.checked, some row.id, some reason, w.final_hash⟩

def Walk.next (w : Walk) (row : Row F) (sealed : Bool) : Walk where
  checked := w.checked + 1
  prev_hash := row.entry_hash
  final_hash := row.entry_hash
  sealed

/-- A row must carry a seal: it has one, one has come, or its id is from the first sealed one on. -/
def Walk.due (w : Walk) (sealed_from : Option ℤ) (row : Row F) : Bool :=
  row.mac.isSome ∨ w.sealed ∨ sealed_from.any (· ≤ row.id)

def Walk.verify (sealed_from : Option ℤ) (w : Walk) : List (Row F) → Option VerifyResult
  | [] => some ⟨true, w.checked, none, none, w.final_hash⟩
  | row :: rows =>
    match row_entry row with
    | none => none
    | some entry =>
      if w.checked = 0 ∧ row.id = 1 ∧ row.prev_hash ≠ GENESIS_HASH then some (w.broken row "genesis prev_hash not zero")
      else if w.checked ≠ 0 ∧ row.prev_hash ≠ w.prev_hash then
        some (w.broken row "prev_hash does not match previous entry_hash")
      else match canonical entry with
        | none => none
        | some c =>
          if sha256 (row.prev_hash ++ c) ≠ row.entry_hash then
            some (w.broken row "entry_hash mismatch (row tampered)")
          else if w.due sealed_from row ∧ row.mac ≠ some (entry_mac row.entry_hash) then
            some (w.broken row "seal missing or wrong (row written without the secret key)")
          else (w.next row (w.due sealed_from row)).verify sealed_from rows

def verify_rows (rows : List (Row F)) (sealed_from : Option ℤ) : Option VerifyResult :=
  ({} : Walk).verify sha256 entry_mac sealed_from rows

/-- A row's hash is of what it says, on the hash it says. -/
def Row.Checks (row : Row F) : Prop :=
  ∃ entry c, row_entry row = some entry ∧ canonical entry = some c ∧ sha256 (row.prev_hash ++ c) = row.entry_hash

/-- The rows that are accepted on the way. -/
def Walk.Accepts (sealed_from : Option ℤ) (w : Walk) : List (Row F) → Prop
  | [] => True
  | row :: rows =>
    (w.checked = 0 → row.id = 1 → row.prev_hash = GENESIS_HASH) ∧ (w.checked ≠ 0 → row.prev_hash = w.prev_hash) ∧
      row.Checks sha256 ∧ (w.due sealed_from row → row.mac = some (entry_mac row.entry_hash)) ∧
      (w.next row (w.due sealed_from row)).Accepts sealed_from rows

theorem Walk.verify_ok_iff (sealed_from : Option ℤ) (w : Walk) (rows : List (Row F)) :
    (∃ r ∈ w.verify sha256 entry_mac sealed_from rows, r.ok) ↔ w.Accepts sha256 entry_mac sealed_from rows := by
  induction rows generalizing w with
  | nil => exact iff_of_true ⟨_, rfl, rfl⟩ trivial
  | cons row rows ih =>
    rw [Walk.Accepts, ← ih]
    constructor
    · rintro ⟨r, hr, hok⟩
      rw [Walk.verify] at hr
      split at hr
      · cases hr
      · next entry hentry =>
        have hbroken (reason : String) : ¬ some (w.broken row reason) = some r := fun he =>
          Bool.false_ne_true ((congrArg VerifyResult.ok (Option.some.inj he)).trans hok)
        by_cases hgenesis : w.checked = 0 ∧ row.id = 1 ∧ row.prev_hash ≠ GENESIS_HASH
        · rw [if_pos hgenesis] at hr
          exact absurd hr (hbroken _)
        rw [if_neg hgenesis] at hr
        by_cases hlink : w.checked ≠ 0 ∧ row.prev_hash ≠ w.prev_hash
        · rw [if_pos hlink] at hr
          exact absurd hr (hbroken _)
        rw [if_neg hlink] at hr
        split at hr
        · cases hr
        · next c hc =>
          split_ifs at hr with hhash hseal
          · exact absurd hr (hbroken _)
          · exact absurd hr (hbroken _)
          · refine ⟨fun h0 h1 => ?_, fun h0 => ?_, ⟨entry, c, hentry, hc, not_not.mp hhash⟩, fun hd => ?_, r, hr, hok⟩
            · by_contra hne
              exact hgenesis ⟨h0, h1, hne⟩
            · by_contra hne
              exact hlink ⟨h0, hne⟩
            · by_contra hne
              exact hseal ⟨hd, hne⟩
    · rintro ⟨hgenesis, hlink, ⟨entry, c, hentry, hc, hhash⟩, hseal, r, hr, hok⟩
      refine ⟨r, ?_, hok⟩
      rw [Walk.verify, hentry]
      simp only
      rw [if_neg fun h => h.2.2 (hgenesis h.1 h.2.1), if_neg fun h => h.2 (hlink h.1), hc]
      simp only
      rw [if_neg (not_not.mpr hhash), if_neg fun h => h.2 (hseal h.1)]
      exact hr

end

end NetCoreNoc.Audit
