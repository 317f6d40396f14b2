import Mathlib
import NetCoreNoc.Maintenance.Rules

/-! The maintenance windows in the database: what the operators and the clock do to them
(`store/maintenance_windows.py`, `store/mw_compile.py`, `api/mw_shape.py` and the routes). -/
namespace NetCoreNoc.Maintenance

inductive Status where
  | pending_confirmation
  | scheduled
  | active
  | ended
  | cancelled
  | expired
  deriving DecidableEq, Repr

/-- `LIVE_STATUSES`: the statuses that a window can still act from. -/
def Status.live : Status → Bool
  | .pending_confirmation | .scheduled | .active => true
  | .ended | .cancelled | .expired => false

/-- The statuses that the index is compiled from. -/
def Status.in_force : Status → Bool
  | .scheduled | .active => true
  | _ => false

structure WindowRow where
  id : Nat
  status : Status
  starts_at : ℚ
  ends_at : ℚ
  patch_s : ℚ
  ledger_enabled : Bool
  confirmed : Bool := false
  targets : List Nat
  /-- each with the target that it is on -/
  rules : List (Nat × Rule)
  deriving DecidableEq

def CONFIRMATION_THRESHOLD_S : ℚ := 6 * 3600
def INDEX_LOOKAHEAD_S : ℚ := 3600
def INDEX_LOOKBEHIND_S : ℚ := 60

namespace WindowRow
variable (r : WindowRow)

def effective_starts_at : ℚ := r.starts_at - r.patch_s

def effective_ends_at : ℚ := r.ends_at + r.patch_s

/-- `build`, of a row with its targets and rules. -/
def build : CompiledWindow where
  window_id := r.id
  effective_starts_at := r.starts_at - max 0 r.patch_s
  effective_ends_at := r.ends_at + max 0 r.patch_s
  targets ne_id :=
    if ne_id ∈ r.targets then some (compile_rules ((r.rules.filter (·.1 = ne_id)).map (·.2))) else none
  ledger_enabled := r.ledger_enabled

end WindowRow

/-- What a request says of a window, as the API admits it. -/
structure WindowBody where
  starts_at : ℚ
  ends_at : ℚ
  patch_s : ℚ := 60
  ledger_enabled : Bool := false
  targets : List Nat := []
  rules : List (Nat × Rule) := []

def MIN_WINDOW_S : ℚ := 60
def MAX_WINDOW_S : ℚ := 30 * 86400

def WindowBody.valid (body : WindowBody) : Bool :=
  0 ≤ body.patch_s && body.patch_s ≤ 86400 &&
  MIN_WINDOW_S ≤ body.ends_at - body.starts_at && body.ends_at - body.starts_at ≤ MAX_WINDOW_S &&
  body.rules.all (·.1 ∈ body.targets)

def needs_confirmation (starts_at ends_at : ℚ) : Bool := CONFIRMATION_THRESHOLD_S < ends_at - starts_at

def initial_status (starts_at now : ℚ) : Status := if starts_at ≤ now then .active else .scheduled

/-- The status of a window after an edit: one that is longer than what was confirmed waits again. -/
def restatus (r : WindowRow) (needs : Bool) (starts_at now ends_at : ℚ) : Status :=
  let lengthened : Bool := r.ends_at - r.starts_at < ends_at - starts_at
  if needs && (!r.confirmed || lengthened) then .pending_confirmation else initial_status starts_at now

/-- A window that runs keeps its start, its patch band, its ledger, its targets and its rules. -/
def frozen_while_active (r : WindowRow) (body : WindowBody) : Bool :=
  r.status = .active && (1 / 2 < |r.starts_at - body.starts_at| || 1 / 2 < |r.patch_s - body.patch_s| ||
    r.ledger_enabled != body.ledger_enabled || !r.targets.isPerm body.targets || !r.rules.isPerm body.rules)

abbrev WindowTable := List WindowRow

namespace WindowTable
variable (table : WindowTable)

/-- The row of one window is replaced. -/
def set (wid : Nat) (f : WindowRow → WindowRow) : WindowTable :=
  table.map fun r => if r.id = wid then f r else r

/-- `create_window`: the id is the next one. Where a window must be confirmed, its creator may do it. -/
def create (now : ℚ) (confirm : Bool) (body : WindowBody) : WindowTable :=
  let needs := needs_confirmation body.starts_at body.ends_at
  let status := if needs && !confirm then .pending_confirmation else initial_status body.starts_at now
  if body.valid then table ++ [{
    id := table.length + 1
    status := status
    starts_at := body.starts_at
    ends_at := body.ends_at
    patch_s := body.patch_s
    ledger_enabled := body.ledger_enabled
    confirmed := needs && confirm
    targets := body.targets.dedup
    rules := body.rules }]
  else table

def confirm_window (wid : Nat) : WindowTable := table.set wid fun r =>
  if r.status = .pending_confirmation then { r with status := .scheduled, confirmed := true } else r

def cancel_window (wid : Nat) : WindowTable := table.set wid fun r =>
  if r.status.live then { r with status := .cancelled } else r

def end_window_now (wid : Nat) : WindowTable := table.set wid fun r =>
  if r.status.live then { r with status := .ended } else r

/-- `update_window_schedule`: a window that waits again has lost its confirmation. -/
def update_window_schedule (wid : Nat) (starts_at ends_at patch_s : ℚ) (status : Status) : WindowTable :=
  table.set wid fun r => { r with
    starts_at := starts_at
    ends_at := ends_at
    patch_s := patch_s
    status := status
    confirmed := r.confirmed && status ≠ .pending_confirmation }

def extend_window (now : ℚ) (wid : Nat) (ends_at : ℚ) : WindowTable :=
  match table.find? (·.id = wid) with
  | some r =>
    if r.status.live && r.ends_at < ends_at then
      let status := restatus r (needs_confirmation r.starts_at ends_at) r.starts_at now ends_at
      table.update_window_schedule wid r.starts_at ends_at r.patch_s status
    else table
  | none => table

def update_window (now : ℚ) (wid : Nat) (body : WindowBody) : WindowTable :=
  match table.find? (·.id = wid) with
  | some r =>
    let past : Bool := r.status = .active && body.ends_at ≤ now && 1 / 2 < |body.ends_at - r.ends_at|
    if r.status.live && body.valid && !frozen_while_active r body && !past then
      let status := restatus r (needs_confirmation body.starts_at body.ends_at) body.starts_at now body.ends_at
      (table.update_window_schedule wid body.starts_at body.ends_at body.patch_s status).set wid fun r =>
        { r with ledger_enabled := body.ledger_enabled, targets := body.targets.dedup, rules := body.rules }
    else table
  | none => table

/-- `advance_statuses`: a window that nobody confirmed expires, one whose start has come is active, and
one whose end has come is over. -/
def advance_statuses (now : ℚ) : WindowTable :=
  let expired : WindowTable := table.map fun r =>
    if r.status = .pending_confirmation && r.effective_starts_at ≤ now then { r with status := .expired } else r
  let activated := expired.map fun r =>
    if r.status = .scheduled && r.effective_starts_at ≤ now && now < r.effective_ends_at then
      { r with status := .active }
    else r
  activated.map fun r =>
    if r.status.in_force && r.effective_ends_at ≤ now then { r with status := .ended } else r

/-- The windows that `advance_statuses` ends, which it returns. -/
def just_ended (now : ℚ) : List Nat :=
  (table.filter fun r => r.status.in_force && r.effective_ends_at ≤ now).map (·.id)

/-- The rows that the index is compiled from. -/
def window_index_rows (now : ℚ) : WindowTable := table.filter fun r =>
  r.status.in_force && r.effective_starts_at ≤ now + INDEX_LOOKAHEAD_S &&
    now - INDEX_LOOKBEHIND_S ≤ r.effective_ends_at

/-- `from_rows`. -/
def compile : WindowIndex := compile_windows (table.map (·.build))

end WindowTable

end NetCoreNoc.Maintenance
