import Mathlib

/-! What still gets through a maintenance window (`engine/mw/rules.py`), and the check that every trap
takes (`engine/mw/index.py`, `engine/mw/compile.py`). -/
namespace NetCoreNoc.Maintenance

/-- An element or a descendant of it: whole arcs, not a prefix of the text. -/
def under_subtree (oid root : String) : Bool := oid == root || oid.startsWith (root ++ ".")

inductive MatchOn where
  | trap
  | varbind
  deriving DecidableEq, Repr

/-- What the check reads of a trap. A rank that is smaller is more severe. -/
structure Trap where
  ne_id : Nat
  ts : ℚ
  trap_oid : String := ""
  varbind_oids : List String := []
  severity_rank : Option Nat := none

/-- A rule of one of the three kinds. -/
inductive Rule where
  | severity (at_or_above_rank : Nat)
  | oid (root : String) (match_on : MatchOn)
  | slot (starts_at ends_at : ℚ)
  deriving DecidableEq

namespace Rule

def admits (t : Trap) : Rule → Bool
  | .severity at_or_above_rank => t.severity_rank.any (· ≤ at_or_above_rank)
  | .oid root .trap => under_subtree t.trap_oid root
  | .oid root .varbind => t.varbind_oids.any (under_subtree · root)
  | .slot starts_at ends_at => starts_at ≤ t.ts && t.ts < ends_at

end Rule

/-- The rules on one target of a window, by kind. -/
structure TargetRules where
  severity : List Rule := []
  oid : List Rule := []
  slot : List Rule := []

namespace TargetRules

/-- Kinds are joined by AND, the rules of one kind by OR; without a rule nothing is collected. -/
def admits (rules : TargetRules) (t : Trap) : Bool :=
  if rules.severity.isEmpty && rules.oid.isEmpty && rules.slot.isEmpty then false
  else (rules.slot.isEmpty || rules.slot.any (·.admits t)) &&
    (rules.severity.isEmpty || rules.severity.any (·.admits t)) &&
    (rules.oid.isEmpty || rules.oid.any (·.admits t))

end TargetRules

def COLLECT_NOTHING : TargetRules := {}

def compile_rules (rows : List Rule) : TargetRules where
  severity := rows.filter fun r => r matches .severity _
  oid := rows.filter fun r => r matches .oid _ _
  slot := rows.filter fun r => r matches .slot _ _

structure CompiledWindow where
  window_id : Nat
  effective_starts_at : ℚ
  effective_ends_at : ℚ
  targets : Nat → Option TargetRules
  ledger_enabled : Bool

def CompiledWindow.covers (w : CompiledWindow) (ts : ℚ) : Bool :=
  w.effective_starts_at ≤ ts && ts < w.effective_ends_at

structure Decision where
  collect : Bool
  window_id : Option Nat := none
  deriving DecidableEq, Repr

namespace Decision

def suppressed (d : Decision) : Bool := d.window_id.isSome && !d.collect

def under_window (d : Decision) : Bool := d.window_id.isSome

end Decision

def COLLECT : Decision := { collect := true }

structure WindowIndex where
  by_ne : Nat → List CompiledWindow

namespace WindowIndex

/-- A trap that a rule of any covering window admits is collected; otherwise the first window that
covers it suppresses it. -/
def decide (index : WindowIndex) (t : Trap) : Decision :=
  let covering := (index.by_ne t.ne_id).filter (·.covers t.ts)
  match covering with
  | [] => COLLECT
  | first :: _ =>
    match covering.find? fun w => ((w.targets t.ne_id).getD COLLECT_NOTHING).admits t with
    | some w => { collect := true, window_id := some w.window_id }
    | none => { collect := false, window_id := some first.window_id }

end WindowIndex

def EMPTY : WindowIndex := { by_ne := fun _ => [] }

/-- The windows of each element, in the order of the list. -/
def compile_windows (windows : List CompiledWindow) : WindowIndex where
  by_ne ne_id := windows.filter fun w => (w.targets ne_id).isSome

end NetCoreNoc.Maintenance
