import Mathlib
import NetCoreNoc.Writeback
import NetCoreNoc.Maintenance.Table

/-! The state ledger (`engine/mw/ledger.py`, `store/mw_ledger.py`): what happens to a trap that a window
suppresses, and what surfaces when the window is over (`engine/operate/window_sweep.py`). -/
namespace NetCoreNoc.Maintenance
open Writeback

/-- The identity of an alarm. -/
structure Fault where
  ne_id : Nat
  class_id : Nat
  inst : String
  deriving DecidableEq, Repr

/-- What the engine takes a trap for: a raise, the clear of the class that its own class clears, or the
clear of its own class, by a learned value or by its severity. -/
inductive Transition where
  | raise
  | pair_clear (raise_class : Nat)
  | state_clear
  deriving DecidableEq, Repr

structure Signal where
  trap : Trap
  class_id : Nat
  inst : String
  kind : Transition

namespace Signal
variable (sig : Signal)

/-- The fault that the trap itself names. -/
def own : Fault := ⟨sig.trap.ne_id, sig.class_id, sig.inst⟩

/-- The fault that it raises or clears. -/
def fault : Fault := match sig.kind with
  | .pair_clear raise_class => { sig.own with class_id := raise_class }
  | .raise | .state_clear => sig.own

end Signal

structure LedgerEntry where
  raised_at : Option ℚ := none
  cleared_at : Option ℚ := none
  surfaced_at : Option ℚ := none
  deriving DecidableEq

/-- Raised inside the window, never cleared inside it, and not yet surfaced. -/
def LedgerEntry.unresolved (e : LedgerEntry) : Bool :=
  e.raised_at.isSome && e.cleared_at.isNone && e.surfaced_at.isNone

/-- The `ON CONFLICT` of `flush_ledger`. -/
def LedgerEntry.coalesce (e old : LedgerEntry) : LedgerEntry where
  raised_at := e.raised_at.or old.raised_at
  cleared_at := e.cleared_at
  surfaced_at := e.surfaced_at.or old.surfaced_at

/-- By window and fault. -/
abbrev LedgerKey := Nat × Fault

abbrev StateLedger := Table LedgerKey LedgerEntry

namespace StateLedger
variable (l : StateLedger)

/-- A fault that is raised already keeps its first instant. -/
def observe_raise (key : LedgerKey) (ts : ℚ) : StateLedger :=
  let entry := (l.held.get key).getD {}
  l.put key (if entry.raised_at.isNone || entry.cleared_at.isSome then { raised_at := some ts } else entry)

def observe_clear (key : LedgerKey) (ts : ℚ) : StateLedger :=
  l.put key { (l.held.get key).getD {} with cleared_at := some ts }

def forget_window (wid : Nat) : StateLedger :=
  ⟨l.held.filter fun k _ => k.1 ≠ wid, l.dirty.filter (·.1 ≠ wid)⟩

end StateLedger

structure AlarmRow where
  active : Bool := true
  surfaced_from : Option Nat := none
  deriving DecidableEq

/-- The windows, the ledger in memory and in the database, and the alarms. -/
structure Station where
  table : WindowTable := []
  index : WindowIndex := EMPTY
  ledger : StateLedger := {}
  rows : Entries LedgerKey LedgerEntry := .empty
  alarms : Fault → Option AlarmRow := fun _ => none

/-- Where a sweep fails. -/
inductive SweepFailure where
  | early
  /-- in the rows of the ledger, which it has taken -/
  | flush
  /-- after so many of the windows that ended -/
  | surfaced (windows : Nat)
  | rebuilt
  deriving DecidableEq

inductive StationOp where
  | signal (sig : Signal)
  | create (now : ℚ) (confirm : Bool) (body : WindowBody)
  | confirm (wid : Nat)
  | cancel (wid : Nat)
  | end_now (now : ℚ) (wid : Nat)
  | extend (now : ℚ) (wid : Nat) (ends_at : ℚ)
  | update (now : ℚ) (wid : Nat) (body : WindowBody)
  | sweep (now : ℚ)
  | sweep_fails (now : ℚ) (failure : SweepFailure)
  /-- the sweep ends an alarm of a notification that has no clear -/
  | end_occurrence (fault : Fault)
  | restart

namespace Station
variable (s : Station)

def active (f : Fault) : Bool := (s.alarms f).any (·.active)

/-- `clear_alarm` -/
def clear_alarm (f : Fault) : Station :=
  { s with alarms := Function.update s.alarms f ((s.alarms f).map ({ · with active := false })) }

/-- `ingest` -/
def ingest (f : Fault) : Station :=
  { s with alarms := Function.update s.alarms f (some { (s.alarms f).getD {} with active := true }) }

/-- What is done to the alarm of a trap that is collected. A clear of a pair also ends an alarm that its
own class raised before the pair was known. -/
def collect (sig : Signal) : Station := match sig.kind with
  | .raise => s.ingest sig.fault
  | .pair_clear _ => (s.clear_alarm sig.fault).clear_alarm sig.own
  | .state_clear => s.clear_alarm sig.fault

/-- `observe_suppressed`: the ledger of the window that suppresses the trap, unless it keeps none. -/
def observe_suppressed (wid : Nat) (sig : Signal) : Station :=
  let window := (s.index.by_ne sig.trap.ne_id).find? (·.window_id = wid)
  if window.any fun w => !w.ledger_enabled then s
  else match sig.kind with
    | .raise => { s with ledger := s.ledger.observe_raise (wid, sig.fault) sig.trap.ts }
    | .pair_clear _ | .state_clear => { s with ledger := s.ledger.observe_clear (wid, sig.fault) sig.trap.ts }

/-- The check, and the two ways on. -/
def process (sig : Signal) : Station :=
  match s.index.decide sig.trap with
  | { collect := false, window_id := some wid } => s.observe_suppressed wid sig
  | _ => s.collect sig

/-- `flush_ledger(take_dirty())` -/
def flush : Station := { s with
  rows := s.rows.merge (s.ledger.rows id) LedgerEntry.coalesce
  ledger := s.ledger.clean }

def unresolved (wid : Nat) (f : Fault) : Bool := (s.rows.get (wid, f)).any (·.unresolved)

/-- `surface_ledger_entry` and `mark_ledger_surfaced`, for each row of the window that is unresolved. An
alarm that is active is left as it is. -/
def surface (now : ℚ) (wid : Nat) : Station := { s with
  alarms := fun f =>
    if s.unresolved wid f && !s.active f then some { active := true, surfaced_from := some wid } else s.alarms f
  rows := s.rows.map fun k e => if k.1 = wid && e.unresolved then { e with surfaced_at := some now } else e }

def forget (wid : Nat) : Station := { s with ledger := s.ledger.forget_window wid }

/-- `_maintenance_windows`, where it commits. -/
def sweep (now : ℚ) : Station :=
  let ended := s.table.just_ended now
  let s₁ := { s with table := s.table.advance_statuses now }.flush
  let s₂ := ended.foldl (fun s wid => (s.surface now wid).forget wid) s₁
  { s₂ with index := (s₂.table.window_index_rows now).compile }

/-- What a sweep that is rolled back leaves in memory. -/
def sweep_fails (now : ℚ) : SweepFailure → Station
  | .early => s
  | .flush => { s with ledger := s.ledger.clean }
  | .surfaced windows =>
    { s with ledger := ((s.table.just_ended now).take windows).foldl (·.forget_window ·) s.ledger.clean }
  | .rebuilt => { s with
      ledger := (s.table.just_ended now).foldl (·.forget_window ·) s.ledger.clean
      index := ((s.table.advance_statuses now).window_index_rows now).compile }

/-- *End now*: the rows of the window that are in the database surface at once. -/
def end_now (now : ℚ) (wid : Nat) : Station :=
  if s.table.any fun r => r.id = wid && r.status.live then
    ({ s with table := s.table.end_window_now wid }.surface now wid).forget wid
  else s

def step (occurrence_only : Nat → Bool) : Station → StationOp → Station
  | s, .signal sig => s.process sig
  | s, .create now confirm body => { s with table := s.table.create now confirm body }
  | s, .confirm wid => { s with table := s.table.confirm_window wid }
  | s, .cancel wid => { s with table := s.table.cancel_window wid }
  | s, .end_now now wid => s.end_now now wid
  | s, .extend now wid ends_at => { s with table := s.table.extend_window now wid ends_at }
  | s, .update now wid body => { s with table := s.table.update_window now wid body }
  | s, .sweep now => s.sweep now
  | s, .sweep_fails now failure => s.sweep_fails now failure
  | s, .end_occurrence f => if occurrence_only f.class_id then s.clear_alarm f else s
  | s, .restart => { s with ledger := {}, index := EMPTY }

/-- What the next sweep would find of a fault in the ledger of a window. -/
def record (k : LedgerKey) : Option LedgerEntry := s.flush.rows.get k

end Station
end NetCoreNoc.Maintenance
