import Mathlib
import NetCoreNoc.Runs
import NetCoreNoc.Maintenance.Surfacing

/-! What the state ledger keeps of one fault, over any flushes and restarts. -/
namespace NetCoreNoc.Maintenance
open Writeback Runs

/-- What a window took down of a fault. -/
inductive Noted where
  | raise (ts : ℚ)
  | clear (ts : ℚ)
  deriving DecidableEq

namespace Noted

def isRaise : Noted → Bool
  | .raise _ => true
  | .clear _ => false

def ts : Noted → ℚ
  | .raise ts | .clear ts => ts

end Noted

/-! A history is read with its latest note first. -/

/-- The first of the latest raises that no clear lies between -/
def first_raise (h : List Noted) : Option ℚ :=
  ((h.dropWhile (!·.isRaise)).takeWhile (·.isRaise)).getLast?.map Noted.ts

/-- The last clear, if no raise followed it -/
def last_clear (h : List Noted) : Option ℚ := (h.head?.filter (!·.isRaise)).map Noted.ts

def entry_of (h : List Noted) : Option LedgerEntry :=
  if h = [] then none else some { raised_at := first_raise h, cleared_at := last_clear h }

/-- The latest note is a raise. -/
def Up (h : List Noted) : Prop := h.head?.any (·.isRaise) = true

theorem first_raise_down {h : List Noted} (hdown : ¬ Up h) (ts : ℚ) : first_raise (.raise ts :: h) = some ts := by
  cases h with
  | nil => rfl
  | cons n h => cases n with
    | raise _ => exact absurd rfl hdown
    | clear _ => rfl

theorem first_raise_up {h : List Noted} (hup : Up h) (ts : ℚ) : first_raise (.raise ts :: h) = first_raise h := by
  cases h with
  | nil => exact absurd hup Bool.false_ne_true
  | cons n h => cases n with
    | raise _ => exact congrArg (Option.map Noted.ts) List.getLast?_cons_cons
    | clear _ => exact absurd hup Bool.false_ne_true

theorem first_raise_isSome {h : List Noted} (hup : Up h) : (first_raise h).isSome := by
  cases h with
  | nil => exact absurd hup Bool.false_ne_true
  | cons n h => cases n with
    | raise ts =>
      by_cases hnext : Up h
      · rw [first_raise_up hnext]
        exact first_raise_isSome hnext
      · rw [first_raise_down hnext]
        rfl
    | clear _ => exact absurd hup Bool.false_ne_true

theorem last_clear_up {h : List Noted} (hup : Up h) : last_clear h = none := by
  cases h with
  | nil => rfl
  | cons n h => cases n with
    | raise _ => rfl
    | clear _ => exact absurd hup Bool.false_ne_true

theorem last_clear_down {h : List Noted} (hne : h ≠ []) (hdown : ¬ Up h) : (last_clear h).isSome := by
  cases h with
  | nil => exact absurd rfl hne
  | cons n h => cases n with
    | raise _ => exact absurd rfl hdown
    | clear _ => rfl

/-- The ledger alone: a trap that a window suppresses, the windows compiled anew, a flush and a restart. -/
inductive LedgerOp where
  | suppressed (wid : Nat) (sig : Signal)
  | compiled (index : WindowIndex)
  | flush
  | restart

/-- A station with what it noted of one fault: what was flushed, and what was not yet. -/
structure Account where
  station : Station := {}
  stored : List Noted := []
  fresh : List Noted := []

/-- What a suppressed trap notes of a fault -/
def Station.noted (s : Station) (k : LedgerKey) (wid : Nat) (sig : Signal) : Option Noted :=
  if (wid, sig.fault) = k ∧ s.discards sig wid = false then
    some (match sig.kind with
      | .raise => .raise sig.trap.ts
      | .pair_clear _ | .state_clear => .clear sig.trap.ts)
  else none

namespace Account
variable (k : LedgerKey)

def step (a : Account) : LedgerOp → Account
  | .suppressed wid sig => { a with
      station := a.station.observe_suppressed wid sig
      fresh := (a.station.noted k wid sig).toList ++ a.fresh }
  | .compiled index => { a with station := { a.station with index } }
  | .flush => { station := a.station.flush, stored := a.fresh ++ a.stored }
  | .restart => { a with station := { a.station with ledger := {}, index := EMPTY }, fresh := [] }

/-- A raise of a fault that the memory has lost meets no row that is raised and not cleared. -/
def Recalls (a : Account) : LedgerOp → Prop
  | .suppressed wid sig => (a.station.noted k wid sig).any (·.isRaise) →
      (a.station.ledger.held.get k).isSome ∨ (a.station.rows.get k).any (·.unresolved) = false
  | .compiled _ | .flush | .restart => True

/-- An entry in memory, between what is stored and what was noted -/
structure Holds (stored h : List Noted) (e : LedgerEntry) : Prop where
  noted : h ≠ []
  surfaced : e.surfaced_at = none
  cleared : e.cleared_at = last_clear h
  raised : e.raised_at.or (first_raise stored) = first_raise h
  up : Up h → e.raised_at.isSome

structure Tells (a : Account) : Prop where
  rows : a.station.rows.get k = entry_of a.stored
  dirty : k ∈ a.station.ledger.dirty ↔ a.fresh ≠ []
  unheld : a.station.ledger.held.get k = none → a.fresh = []
  held : ∀ e, a.station.ledger.held.get k = some e → Holds a.stored (a.fresh ++ a.stored) e

variable {k} {stored h : List Noted} {e : LedgerEntry}

theorem Holds.clear (hold : Holds stored h e) (ts : ℚ) :
    Holds stored (.clear ts :: h) { e with cleared_at := some ts } :=
  ⟨List.cons_ne_nil _ _, hold.surfaced, rfl, hold.raised, fun hup => absurd hup Bool.false_ne_true⟩

theorem Holds.raise (hold : Holds stored h e) (ts : ℚ) : Holds stored (.raise ts :: h)
    (if e.raised_at.isNone || e.cleared_at.isSome then { raised_at := some ts } else e) := by
  by_cases hup : Up h
  · have hsome := hold.up hup
    have hnone := hold.cleared.trans (last_clear_up hup)
    rw [if_neg (by rw [hnone, Option.isNone_eq_false_iff.mpr hsome]; exact Bool.false_ne_true)]
    refine ⟨List.cons_ne_nil _ _, hold.surfaced, hnone, ?_, fun _ => hsome⟩
    rw [first_raise_up hup]
    exact hold.raised
  · have hcleared := hold.cleared ▸ last_clear_down hold.noted hup
    rw [if_pos (by rw [hcleared, Bool.or_true])]
    refine ⟨List.cons_ne_nil _ _, rfl, rfl, ?_, fun _ => rfl⟩
    rw [first_raise_down hup]
    rfl

/-- The first raise or clear since the memory was lost -/
theorem holds_clear (stored : List Noted) (ts : ℚ) : Holds stored (.clear ts :: stored) { cleared_at := some ts } :=
  ⟨List.cons_ne_nil _ _, rfl, rfl, rfl, fun hup => absurd hup Bool.false_ne_true⟩

theorem holds_raise (hdown : ¬ Up stored) (ts : ℚ) : Holds stored (.raise ts :: stored) { raised_at := some ts } :=
  ⟨List.cons_ne_nil _ _, rfl, rfl, (first_raise_down hdown ts).symm, fun _ => rfl⟩

/-- What a flush makes of the stored row -/
theorem Holds.coalesce (hold : Holds stored h e) : some ((entry_of stored).elim e e.coalesce) = entry_of h := by
  have hentry : entry_of h = some { raised_at := first_raise h, cleared_at := last_clear h } := if_neg hold.noted
  obtain ⟨raised_at, cleared_at, surfaced_at⟩ := e
  have hraised := hold.raised
  obtain rfl : surfaced_at = none := hold.surfaced
  obtain rfl : cleared_at = last_clear h := hold.cleared
  dsimp only at hraised
  rw [hentry, entry_of]
  split
  · rename_i hnil
    rw [hnil] at hraised
    rw [← hraised]
    cases raised_at <;> rfl
  · rw [← hraised]
    rfl

variable {a : Account}

/-- The entry that a note leaves in memory -/
def noting (e : LedgerEntry) : Noted → LedgerEntry
  | .raise ts => if e.raised_at.isNone || e.cleared_at.isSome then { raised_at := some ts } else e
  | .clear ts => { e with cleared_at := some ts }

theorem observe_noted {s : Station} {wid : Nat} {sig : Signal} {n : Noted} (h : s.noted k wid sig = some n) :
    s.observe_suppressed wid sig =
      { s with ledger := s.ledger.put k (noting ((s.ledger.held.get k).getD {}) n) } := by
  unfold Station.noted at h
  split at h
  · rename_i hin
    obtain ⟨rfl, hkeeps⟩ := hin
    obtain rfl := Option.some.inj h
    unfold Station.discards at hkeeps
    unfold Station.observe_suppressed
    dsimp only
    rw [if_neg (by rw [hkeeps]; exact Bool.false_ne_true)]
    cases sig.kind <;> rfl
  · exact absurd h nofun

theorem observe_unnoted {s : Station} {wid : Nat} {sig : Signal} (h : s.noted k wid sig = none) :
    (s.observe_suppressed wid sig).rows = s.rows ∧
      (s.observe_suppressed wid sig).ledger.held.get k = s.ledger.held.get k ∧
      (k ∈ (s.observe_suppressed wid sig).ledger.dirty ↔ k ∈ s.ledger.dirty) := by
  by_cases hkeeps : s.discards sig wid = false
  · have hne : k ≠ (wid, sig.fault) := fun hk => absurd (h.symm.trans (if_pos ⟨hk.symm, hkeeps⟩)) nofun
    obtain ⟨n, hn⟩ : ∃ n, s.noted (wid, sig.fault) wid sig = some n := ⟨_, if_pos ⟨rfl, hkeeps⟩⟩
    rw [observe_noted hn]
    exact ⟨rfl, Entries.get_set_ne hne _, Finset.mem_insert.trans (or_iff_right hne)⟩
  · have hdiscards := Bool.not_eq_false _ ▸ hkeeps
    unfold Station.discards at hdiscards
    unfold Station.observe_suppressed
    dsimp only
    rw [if_pos hdiscards]
    exact ⟨rfl, rfl, Iff.rfl⟩

theorem entry_of_unresolved {h : List Noted} (hup : Up h) : (entry_of h).any (·.unresolved) = true := by
  have hne : h ≠ [] := by
    rintro rfl
    exact Bool.false_ne_true hup
  rw [entry_of, if_neg hne, Option.any_some, LedgerEntry.unresolved, last_clear_up hup, first_raise_isSome hup]
  rfl

/-- What the next flush would store -/
theorem Tells.record (h : Tells k a) : a.station.record k = entry_of (a.fresh ++ a.stored) := by
  by_cases hdirty : k ∈ a.station.ledger.dirty
  · cases hheld : a.station.ledger.held.get k with
    | none => exact absurd (h.unheld hheld) (h.dirty.mp hdirty)
    | some e =>
      have hrow : (a.station.ledger.rows id).get k = some e := (if_pos hdirty).trans (congrArg (Option.map id) hheld)
      refine (Entries.merge_some hrow).trans ?_
      rw [h.rows]
      exact (h.held e hheld).coalesce
  · have hfresh : a.fresh = [] := not_not.mp fun hne => hdirty (h.dirty.mpr hne)
    rw [Station.record_clean hdirty, h.rows, hfresh, List.nil_append]

/-- An entry in memory once it is flushed -/
theorem Holds.flushed (hold : Holds stored h e) : Holds h h e := by
  refine ⟨hold.noted, hold.surfaced, hold.cleared, ?_, hold.up⟩
  have hraised := hold.raised
  cases hr : e.raised_at with
  | none => rfl
  | some ts =>
    rw [hr] at hraised
    exact hraised

theorem Tells.noted (h : Tells k a) {wid : Nat} {sig : Signal} {n : Noted}
    (hnoted : a.station.noted k wid sig = some n) (hr : a.Recalls k (.suppressed wid sig)) :
    Holds a.stored (n :: (a.fresh ++ a.stored)) (noting ((a.station.ledger.held.get k).getD {}) n) := by
  cases hheld : a.station.ledger.held.get k with
  | some e =>
    cases n with
    | raise ts => exact (h.held e hheld).raise ts
    | clear ts => exact (h.held e hheld).clear ts
  | none =>
    rw [h.unheld hheld, List.nil_append, Option.getD_none]
    cases n with
    | raise ts =>
      refine holds_raise (fun hup => ?_) ts
      have hrow := (hr (by rw [hnoted]; rfl)).resolve_left (by rw [hheld]; exact Bool.false_ne_true)
      rw [h.rows, entry_of_unresolved hup] at hrow
      exact Bool.false_ne_true hrow.symm
    | clear ts => exact holds_clear a.stored ts

theorem Tells.step (h : Tells k a) (op : LedgerOp) (hr : a.Recalls k op) : Tells k (a.step k op) := by
  cases op with
  | suppressed wid sig =>
    have hfresh : (a.step k (.suppressed wid sig)).fresh = (a.station.noted k wid sig).toList ++ a.fresh := rfl
    cases hnoted : a.station.noted k wid sig with
    | none =>
      obtain ⟨hrows, hheld, hdirty⟩ := observe_unnoted hnoted
      rw [hnoted, Option.toList_none, List.nil_append] at hfresh
      constructor
      · exact (congrArg (·.get k) hrows).trans h.rows
      · rw [hfresh]
        exact hdirty.trans h.dirty
      · rw [hfresh]
        exact fun hno => h.unheld (hheld ▸ hno)
      · rw [hfresh]
        exact fun e he => h.held e (hheld ▸ he)
    | some n =>
      rw [hnoted, Option.toList_some, List.singleton_append] at hfresh
      have hstation : (a.step k (.suppressed wid sig)).station = _ := observe_noted hnoted
      constructor
      · rw [hstation]
        exact h.rows
      · rw [hstation, hfresh]
        exact iff_of_true (Finset.mem_insert_self k _) (List.cons_ne_nil _ _)
      · rw [hstation]
        exact fun hno => absurd ((Entries.get_set _).symm.trans hno) nofun
      · rw [hstation, hfresh]
        intro e he
        obtain rfl := Option.some.inj ((Entries.get_set _).symm.trans he)
        exact h.noted hnoted hr
  | compiled index => exact ⟨h.rows, h.dirty, h.unheld, h.held⟩
  | flush =>
    exact ⟨h.record, iff_of_false (Finset.notMem_empty k) fun hne => hne rfl, fun _ => rfl,
      fun e he => (h.held e he).flushed⟩
  | restart =>
    exact ⟨h.rows, iff_of_false (Finset.notMem_empty k) fun hne => hne rfl, fun _ => rfl, fun e he => absurd he nofun⟩

theorem tells_start (k : LedgerKey) : Tells k {} :=
  ⟨rfl, iff_of_false (Finset.notMem_empty k) fun hne => hne rfl, fun _ => rfl, fun _ he => absurd he nofun⟩

instance (a : Account) : ∀ op, Decidable (a.Recalls k op)
  | .suppressed wid sig => inferInstanceAs (Decidable ((a.station.noted k wid sig).any (·.isRaise) →
      (a.station.ledger.held.get k).isSome ∨ (a.station.rows.get k).any (·.unresolved) = false))
  | .compiled _ | .flush | .restart => .isTrue trivial

/-- Wherever the flushes and the restarts fall, the stored row of a fault has the first raise since the last clear, or
before a last clear the first raise of what it cleared, and the last clear if no raise followed it, of what was noted
and not lost with the memory; a flush adds what was noted since. -/
theorem first_raise_kept (k : LedgerKey) (ops : List LedgerOp) (h : Meets (step k) (Recalls k) {} ops) :
    (run (step k) {} ops).station.rows.get k = entry_of (run (step k) {} ops).stored ∧
      (run (step k) {} ops).station.record k =
        entry_of ((run (step k) {} ops).fresh ++ (run (step k) {} ops).stored) := by
  have htells : Tells k (run (step k) {} ops) :=
    run_invariant (I := Tells k) (fun _ op ha hr => ha.step op hr) _ ops (tells_start k) h
  exact ⟨htells.rows, htells.record⟩

/-- A fault that is raised twice, cleared, and raised again. -/
def sounded (kind : Transition) (ts : ℚ) : LedgerOp :=
  .suppressed 1 { trap := { ne_id := 1, ts := ts }, class_id := 7, inst := "", kind := kind }

theorem first_raise_kept_sounded : (run (step (1, ⟨1, 7, ""⟩)) {} [sounded .raise 100, .flush, sounded .raise 110,
      sounded .state_clear 120, .flush, .restart, sounded .raise 130, .flush]).station.rows.get (1, ⟨1, 7, ""⟩) =
    some { raised_at := some 130 } :=
  (first_raise_kept (1, ⟨1, 7, ""⟩) _ (by decide +kernel)).1.trans (by decide +kernel)

/-- Where a restart falls decides whether a raise is stored, and a clear leaves the raise before it in its row. -/
theorem restart_decides :
    (run (step (1, ⟨1, 7, ""⟩)) {} [sounded .raise 100, .flush]).station.rows.get (1, ⟨1, 7, ""⟩) ≠
      (run (step (1, ⟨1, 7, ""⟩)) {} [sounded .raise 100, .restart, .flush]).station.rows.get (1, ⟨1, 7, ""⟩) ∧
    (run (step (1, ⟨1, 7, ""⟩)) {} [sounded .raise 100, sounded .state_clear 120, .flush]).station.rows.get
      (1, ⟨1, 7, ""⟩) = some { raised_at := some 100, cleared_at := some 120 } := by
  decide +kernel

end Account

end NetCoreNoc.Maintenance
