import Mathlib
import NetCoreNoc.Runs
import NetCoreNoc.Maintenance.Surfacing

/-! The check of a trap that waited: the index is compiled from the windows as they stand when the sweep
runs (`engine/operate/window_sweep.py`), the trap carries the instant at which it was received. -/
namespace NetCoreNoc.Maintenance

namespace WindowRow
variable (r : WindowRow) (t : Trap)

/-- A window in force that has the trap's element for a target, and its instant within its bounds. -/
def covers : Bool := r.status.in_force && t.ne_id ∈ r.targets && r.build.covers t.ts

def admits : Bool := ((r.build.targets t.ne_id).getD COLLECT_NOTHING).admits t

/-- At an instant it is not over yet, and starts within the look-ahead. -/
def lasts (now : ℚ) : Bool := now < r.effective_ends_at && r.effective_starts_at ≤ now + INDEX_LOOKAHEAD_S

end WindowRow

namespace WindowTable

/-- What some covering windows decide: the first that admits the trap, or else the first. -/
def decided (covering : WindowTable) (t : Trap) : Option (Nat × Bool) :=
  ((covering.find? (·.admits t)).or covering.head?).map fun r => (r.id, r.admits t)

/-- The window that decides a trap, and whether a rule of it admits the trap. -/
def deciding (table : WindowTable) (t : Trap) : Option (Nat × Bool) := decided (table.filter (·.covers t)) t

/-- A window decides a trap: of those that cover it none of the same answer was created before it, and none admits the
trap where it does not. -/
structure Decides (table : WindowTable) (t : Trap) (r : WindowRow) : Prop where
  mem : r ∈ table
  covers : r.covers t
  first : ∀ r' ∈ table, r'.covers t → r'.admits t = r.admits t → r.id ≤ r'.id
  alone : ∀ r' ∈ table, r'.covers t → r'.admits t → r.admits t

end WindowTable

/-- The windows as the database, the engine and the record of the past have them. -/
structure Desk where
  table : WindowTable := []
  index : WindowIndex := EMPTY
  /-- the table as the last rebuild of the index found it, and when -/
  found : WindowTable := []
  rebuilt : ℚ := 0
  /-- the table as it was at each instant -/
  as_of : ℚ → WindowTable := fun _ => []

inductive DeskOp where
  | create (confirm : Bool) (body : WindowBody)
  | confirm (wid : Nat)
  | cancel (wid : Nat)
  | end_now (wid : Nat)
  | extend (wid : Nat) (ends_at : ℚ)
  | update (wid : Nat) (body : WindowBody)
  /-- a maintenance pass, which may fail once it has rebuilt the index -/
  | sweep (fails : Bool)
  /-- the engine starts again, with an index that holds nothing -/
  | restart

namespace Desk
variable (s : Desk)

def write (now : ℚ) (table : WindowTable) : Desk :=
  { s with table := table, as_of := fun ts => if ts < now then s.as_of ts else table }

/-- The index is swapped in before the pass commits, and stays when the pass is rolled back. -/
def sweep (now : ℚ) (fails : Bool) : Desk :=
  let swept := s.table.advance_statuses now
  { (if fails then s else s.write now swept) with
    index := (swept.window_index_rows now).compile
    found := s.table
    rebuilt := now }

def step : Desk → ℚ × DeskOp → Desk
  | s, (now, .create confirm body) => s.write now (s.table.create now confirm body)
  | s, (now, .confirm wid) => s.write now (s.table.confirm_window wid)
  | s, (now, .cancel wid) => s.write now (s.table.cancel_window wid)
  | s, (now, .end_now wid) => s.write now (s.table.end_window_now wid)
  | s, (now, .extend wid ends_at) => s.write now (s.table.extend_window now wid ends_at)
  | s, (now, .update wid body) => s.write now (s.table.update_window now wid body)
  | s, (now, .sweep fails) => s.sweep now fails
  | s, (_, .restart) => { s with index := EMPTY, found := [] }

/-- The decision that the windows make as they covered the trap's own instant. -/
def expected (t : Trap) : Decision :=
  WindowTable.compile ((s.as_of t.ts).filter (·.status.in_force)) |>.decide t

/-- The window that decides a trap at its own instant is in force yet when the index is rebuilt, covers the trap with the
same answer, and none that lasts goes before it; where no window covers the trap, none that lasts does. -/
structure Stays (t : Trap) : Prop where
  window : ∀ r, (s.as_of t.ts).Decides t r → ∃ r' ∈ s.found, r'.id = r.id ∧ r'.lasts s.rebuilt ∧ r'.covers t ∧
    r'.admits t = r.admits t ∧ ∀ other ∈ s.found, other.lasts s.rebuilt → other.covers t →
      (other.admits t = r.admits t → r.id ≤ other.id) ∧ (other.admits t → r.admits t)
  none : (∀ r ∈ s.as_of t.ts, ¬ r.covers t) → ∀ r ∈ s.found, r.lasts s.rebuilt → ¬ r.covers t

end Desk

/-- The decision that a window makes. -/
def Decision.of : Option (Nat × Bool) → Decision
  | none => COLLECT
  | some (wid, collect) => { collect := collect, window_id := some wid }

theorem Decision.of_injective : Function.Injective Decision.of := by
  intro a b h
  cases a with
  | none =>
    cases b with
    | none => rfl
    | some b => exact absurd (congrArg Decision.window_id h) (by simp [of, COLLECT])
  | some a =>
    cases b with
    | none => exact absurd (congrArg Decision.window_id h) (by simp [of, COLLECT])
    | some b =>
      have hid : a.1 = b.1 := Option.some.inj (congrArg Decision.window_id h)
      have hcollect : a.2 = b.2 := congrArg Decision.collect h
      rw [Prod.ext hid hcollect]

namespace WindowTable
variable {table : WindowTable}

/-- The compiled index decides as the table's own windows do. -/
theorem compile_decide (hforce : ∀ r ∈ table, r.status.in_force) (t : Trap) :
    table.compile.decide t = Decision.of (table.deciding t) := by
  have hcovering : (table.compile.by_ne t.ne_id).filter (·.covers t.ts) =
      (table.filter (·.covers t)).map (·.build) := by
    show ((table.map (·.build)).filter _).filter _ = _
    rw [List.filter_filter, List.filter_map]
    refine congrArg _ (List.filter_congr fun r hr => ?_)
    have htarget : (r.build.targets t.ne_id).isSome = decide (t.ne_id ∈ r.targets) := by
      unfold WindowRow.build
      by_cases h : t.ne_id ∈ r.targets <;> simp [h]
    simp only [Function.comp_apply, WindowRow.covers, hforce r hr, htarget, Bool.true_and]
    exact Bool.and_comm ..
  unfold WindowIndex.decide deciding decided
  rw [hcovering]
  cases table.filter (·.covers t) with
  | nil => rfl
  | cons first rest =>
    simp only [List.map_cons]
    rw [← List.map_cons, List.find?_map]
    cases h : (first :: rest).find? (·.admits t) with
    | none =>
      have hfirst : first.admits t = false := by
        simpa using List.find?_eq_none.mp h first List.mem_cons_self
      have h : (first :: rest).find? ((fun w : CompiledWindow =>
          ((w.targets t.ne_id).getD COLLECT_NOTHING).admits t) ∘ (·.build)) = none := h
      rw [h]
      simp only [Option.map_none, List.head?_cons, Option.none_or, Option.map_some, hfirst, Decision.of]
      rfl
    | some w =>
      have hw : w.admits t = true := List.find?_some (p := fun r : WindowRow => r.admits t) h
      have h : (first :: rest).find? ((fun w : CompiledWindow =>
          ((w.targets t.ne_id).getD COLLECT_NOTHING).admits t) ∘ (·.build)) = some w := h
      rw [h]
      simp only [Option.map_some, Option.some_or, hw, Decision.of]
      rfl

theorem decided_map {f : WindowRow → WindowRow} {t : Trap} (hid : ∀ r, (f r).id = r.id)
    (hadmits : ∀ r, (f r).admits t = r.admits t) (covering : WindowTable) :
    decided (covering.map f) t = covering.decided t := by
  have hanswer : (fun r => (r.id, r.admits t)) ∘ f = fun r : WindowRow => (r.id, r.admits t) :=
    funext fun r => Prod.ext (hid r) (hadmits r)
  have hsame : (fun r : WindowRow => r.admits t) ∘ f = fun r => r.admits t := funext hadmits
  unfold decided
  rw [List.find?_map, hsame, List.head?_map, ← Option.map_or, Option.map_map, hanswer]

theorem deciding_filter {p : WindowRow → Bool} {t : Trap} (h : ∀ r ∈ table, r.covers t → p r) :
    deciding (table.filter p) t = table.deciding t := by
  unfold deciding
  rw [List.filter_filter]
  refine congrArg (decided · t) (List.filter_congr fun r hr => ?_)
  cases hc : r.covers t with
  | false => rfl
  | true => exact h r hr hc

/-- Windows in the order of their numbers, as the table has them. -/
def Sorted (table : WindowTable) : Prop := table.Pairwise (·.id < ·.id)

theorem Numbered.sorted (h : table.Numbered) : table.Sorted := by
  have hids : (table.map (·.id)).Pairwise (· < ·) := (show table.map (·.id) = _ from h) ▸ List.pairwise_lt_range'
  exact List.pairwise_map.mp hids

theorem Sorted.filter (h : table.Sorted) (p : WindowRow → Bool) : Sorted (table.filter p) := List.Pairwise.filter p h

theorem Sorted.before (h : table.Sorted) {l m : WindowTable} {r r' : WindowRow} (htable : table = l ++ r :: m)
    (hr' : r' ∈ table) (hid : r'.id < r.id) : r' ∈ l := by
  subst htable
  rcases List.mem_append.mp hr' with hl | hm
  · exact hl
  · have hfrom := (List.pairwise_cons.mp (List.pairwise_append.mp h).2.1).1
    rcases List.mem_cons.mp hm with rfl | hm
    · exact absurd hid (lt_irrefl _)
    · exact absurd (hfrom r' hm) (not_lt.mpr hid.le)

theorem deciding_none {t : Trap} : table.deciding t = none ↔ ∀ r ∈ table, ¬ r.covers t := by
  unfold deciding decided
  rw [Option.map_eq_none_iff, Option.or_eq_none_iff, List.head?_eq_none_iff, List.filter_eq_nil_iff]
  refine and_iff_right_of_imp fun h => List.find?_eq_none.mpr fun r hr => ?_
  obtain ⟨hr, hc⟩ := List.mem_filter.mp hr
  exact absurd hc (h r hr)

theorem Decides.deciding (hsorted : table.Sorted) {t : Trap} {r : WindowRow} (h : table.Decides t r) :
    table.deciding t = some (r.id, r.admits t) := by
  have hcovering : r ∈ table.filter (·.covers t) := List.mem_filter.mpr ⟨h.mem, h.covers⟩
  have hsub := hsorted.filter (·.covers t)
  obtain ⟨l, m, hl⟩ := List.append_of_mem hcovering
  have hbefore : ∀ r' ∈ l, r'.id < r.id := fun r' hr' => by
    rw [hl] at hsub
    exact (List.pairwise_append.mp hsub).2.2 r' hr' r List.mem_cons_self
  have hold : ∀ r' ∈ l, r'.admits t ≠ r.admits t := fun r' hr' heq => by
    obtain ⟨hmem, hc⟩ := List.mem_filter.mp (hl ▸ List.mem_append_left _ hr' : r' ∈ table.filter (·.covers t))
    exact absurd (h.first r' hmem hc heq) (not_le.mpr (hbefore r' hr'))
  unfold WindowTable.deciding decided
  cases hadmits : r.admits t with
  | true =>
    have hfind : (table.filter (·.covers t)).find? (·.admits t) = some r :=
      List.find?_eq_some_iff_append.mpr ⟨hadmits, l, m, hl, fun r' hr' => by simpa [hadmits] using hold r' hr'⟩
    rw [hfind, Option.some_or, Option.map_some, hadmits]
  | false =>
    have hnone : (table.filter (·.covers t)).find? (·.admits t) = none := by
      refine List.find?_eq_none.mpr fun r' hr' hr'a => ?_
      obtain ⟨hmem, hc⟩ := List.mem_filter.mp hr'
      exact Bool.false_ne_true (hadmits.symm.trans (h.alone r' hmem hc hr'a))
    have hnil : l = [] := by
      refine List.eq_nil_iff_forall_not_mem.mpr fun r' hr' => ?_
      have hmem : r' ∈ table.filter (·.covers t) := hl ▸ List.mem_append_left _ hr'
      have : r'.admits t = false := by simpa using List.find?_eq_none.mp hnone r' hmem
      exact hold r' hr' (this.trans hadmits.symm)
    rw [hnone, Option.none_or, hl, hnil, List.nil_append, List.head?_cons, Option.map_some, hadmits]

/-- Where some window covers a trap, one decides it. -/
theorem exists_decides (hsorted : table.Sorted) {t : Trap} {d : Nat × Bool} (h : table.deciding t = some d) :
    ∃ r, table.Decides t r := by
  obtain ⟨r, hr, -⟩ := Option.map_eq_some_iff.mp h
  rcases Option.or_eq_some_iff.mp hr with hfind | ⟨hnone, hhead⟩
  · obtain ⟨hadmits, l, m, hl, hbefore⟩ := List.find?_eq_some_iff_append.mp hfind
    obtain ⟨hmem, hc⟩ := List.mem_filter.mp (List.mem_of_find?_eq_some hfind)
    refine ⟨r, hmem, hc, fun r' hr' hc' heq => ?_, fun _ _ _ _ => hadmits⟩
    by_contra hlt
    have hin := (hsorted.filter _).before hl (List.mem_filter.mpr ⟨hr', hc'⟩) (not_le.mp hlt)
    exact absurd (heq.trans hadmits) (by simpa using hbefore r' hin)
  · have hnever (r' : WindowRow) (hr' : r' ∈ table) (hc' : r'.covers t) : r'.admits t = false := by
      simpa using List.find?_eq_none.mp hnone r' (List.mem_filter.mpr ⟨hr', hc'⟩)
    obtain ⟨m, hm⟩ := List.head?_eq_some_iff.mp hhead
    obtain ⟨hmem, hc⟩ := List.mem_filter.mp (List.mem_of_mem_head? hhead)
    refine ⟨r, hmem, hc, fun r' hr' hc' _ => ?_, fun r' hr' hc' ha => absurd ((hnever r' hr' hc').symm.trans ha) (by simp)⟩
    by_contra hlt
    exact absurd ((hsorted.filter _).before (hm.trans (List.nil_append _).symm) (List.mem_filter.mpr ⟨hr', hc'⟩)
      (not_le.mp hlt)) List.not_mem_nil

/-- Two tables agree on a trap exactly when the window that decides it in the one decides it, with the same answer, in
the other. -/
theorem deciding_eq_iff {table table' : WindowTable} (h : table.Sorted) (h' : table'.Sorted) (t : Trap) :
    table'.deciding t = table.deciding t ↔
      (∀ r, table.Decides t r → ∃ r', table'.Decides t r' ∧ r'.id = r.id ∧ r'.admits t = r.admits t) ∧
      ((∀ r ∈ table, ¬ r.covers t) → ∀ r ∈ table', ¬ r.covers t) := by
  constructor
  · intro heq
    refine ⟨fun r hr => ?_, fun hnone => ?_⟩
    · have hdeciding := heq.trans (hr.deciding h)
      obtain ⟨r', hr'⟩ := exists_decides h' hdeciding
      have := Option.some.inj ((hr'.deciding h').symm.trans hdeciding)
      exact ⟨r', hr', congrArg Prod.fst this, congrArg Prod.snd this⟩
    · exact deciding_none.mp (heq.trans (deciding_none.mpr hnone))
  · rintro ⟨hsome, hnone⟩
    cases hd : table.deciding t with
    | none => exact deciding_none.mpr (hnone (deciding_none.mp hd))
    | some d =>
      obtain ⟨r, hr⟩ := exists_decides h hd
      obtain ⟨r', hr', hid, hadmits⟩ := hsome r hr
      rw [hr'.deciding h', ← hd, hr.deciding h, hid, hadmits]

/-- A sweep changes a window's status and nothing else, and ends those in force whose end has come. -/
theorem advance_status (table : WindowTable) (now : ℚ) : ∃ f : WindowRow → WindowRow,
    table.advance_statuses now = table.map f ∧ ∀ r : WindowRow, ∃ status, f r = { r with status } ∧
      status.in_force = (r.status.in_force && now < r.effective_ends_at) := by
  refine ⟨_, (congrArg _ List.map_map).trans List.map_map, fun r => ?_⟩
  obtain ⟨id, status, starts_at, ends_at, patch_s, ledger_enabled, confirmed, targets, rules⟩ := r
  simp only [Function.comp_apply, WindowRow.effective_starts_at, WindowRow.effective_ends_at]
  cases status <;> simp only [Status.in_force] <;> split_ifs <;> exact ⟨_, rfl, by simp_all [← not_lt]⟩

/-- The rows that the index is compiled from decide as those that the sweep found and that last. -/
theorem rows_deciding (table : WindowTable) (now : ℚ) (t : Trap) :
    ((table.advance_statuses now).window_index_rows now).deciding t = deciding (table.filter (·.lasts now)) t := by
  obtain ⟨f, hmap, hf⟩ := table.advance_status now
  have hid (r : WindowRow) : (f r).id = r.id := by
    obtain ⟨status, hr, -⟩ := hf r
    rw [hr]
  have hadmits (r : WindowRow) : (f r).admits t = r.admits t := by
    obtain ⟨status, hr, -⟩ := hf r
    rw [hr]
    rfl
  unfold deciding window_index_rows
  rw [hmap, List.filter_map, List.filter_map, decided_map hid hadmits, List.filter_filter, List.filter_filter]
  refine congrArg (decided · t) (List.filter_congr fun r _ => ?_)
  obtain ⟨status, hr, hforce⟩ := hf r
  have hcovers : (f r).covers t = (status.in_force && t.ne_id ∈ r.targets && r.build.covers t.ts) := by rw [hr]; rfl
  have hstatus : (f r).status = status := by rw [hr]
  have hstarts : (f r).effective_starts_at = r.effective_starts_at := by rw [hr]; rfl
  have hends : (f r).effective_ends_at = r.effective_ends_at := by rw [hr]; rfl
  simp only [Function.comp_apply, hcovers, hstatus, hstarts, hends, hforce]
  -- what has not ended is within the trailing bound, which so leaves nothing out
  have htrailing : now < r.effective_ends_at → now - INDEX_LOOKBEHIND_S ≤ r.effective_ends_at := by
    unfold INDEX_LOOKBEHIND_S
    intro
    linarith
  rw [Bool.eq_iff_iff, WindowRow.covers, WindowRow.lasts]
  simp only [Bool.and_eq_true, decide_eq_true_eq]
  tauto

end WindowTable

namespace Desk
variable {s : Desk}

/-- The index is what the last sweep compiled of what it found, and windows are numbered as they are created. -/
structure Compiled (s : Desk) : Prop where
  index : s.index = WindowTable.compile ((s.found.advance_statuses s.rebuilt).window_index_rows s.rebuilt)
  numbered : s.table.Numbered
  found : s.found.Numbered
  as_of : ∀ ts, (s.as_of ts).Numbered

theorem Compiled.write (h : s.Compiled) (now : ℚ) {table : WindowTable} (ht : table.Numbered) :
    (s.write now table).Compiled := by
  refine ⟨h.index, ht, h.found, fun ts => ?_⟩
  show (if ts < now then s.as_of ts else table).Numbered
  split
  · exact h.as_of ts
  · exact ht

theorem compiled_step (h : s.Compiled) (op : ℚ × DeskOp) : (s.step op).Compiled := by
  obtain ⟨now, op⟩ := op
  cases op with
  | create confirm body => exact h.write now (WindowTable.follows_create h.numbered body confirm).numbered
  | confirm wid => exact h.write now (WindowTable.follows_confirm h.numbered).numbered
  | cancel wid => exact h.write now (WindowTable.follows_cancel h.numbered).numbered
  | end_now wid => exact h.write now (WindowTable.follows_end h.numbered).numbered
  | extend wid ends_at => exact h.write now (WindowTable.follows_extend h.numbered ends_at).numbered
  | update wid body => exact h.write now (WindowTable.follows_update h.numbered body).numbered
  | sweep fails =>
    have hswept := h.write now (@WindowTable.follows_advance _ now h.numbered).numbered
    cases fails with
    | true => exact ⟨rfl, h.numbered, h.numbered, h.as_of⟩
    | false => exact ⟨rfl, hswept.numbered, h.numbered, hswept.as_of⟩
  | restart => exact ⟨rfl, h.numbered, rfl, h.as_of⟩

theorem run_compiled (ops : List (ℚ × DeskOp)) : (Runs.run step {} ops).Compiled := by
  have hstart : ({} : Desk).Compiled := ⟨rfl, rfl, rfl, fun _ => rfl⟩
  induction ops using List.reverseRecOn with
  | nil => exact hstart
  | append_singleton ops op ih =>
    rw [Runs.run_append]
    exact compiled_step ih op

/-- A trap is decided by the windows that the last sweep found in force, and that last. -/
theorem Compiled.decide_found (h : s.Compiled) (t : Trap) :
    s.index.decide t = Decision.of (WindowTable.deciding (s.found.filter (·.lasts s.rebuilt)) t) := by
  rw [h.index, WindowTable.compile_decide, WindowTable.rows_deciding]
  intro r hr
  have := (List.mem_filter.mp hr).2
  simp only [Bool.and_eq_true] at this
  exact this.1.1

theorem expected_eq (t : Trap) : s.expected t = Decision.of ((s.as_of t.ts).deciding t) := by
  unfold expected
  rw [WindowTable.compile_decide (fun r hr => (List.mem_filter.mp hr).2), WindowTable.deciding_filter]
  intro r _ hc
  simp only [WindowRow.covers, Bool.and_eq_true] at hc
  exact hc.1.1

theorem Compiled.decides_iff (h : s.Compiled) (t : Trap) : s.index.decide t = s.expected t ↔ s.Stays t := by
  have hlasting (r : WindowRow) : r ∈ s.found.filter (·.lasts s.rebuilt) ↔ r ∈ s.found ∧ r.lasts s.rebuilt :=
    List.mem_filter
  have hsorted := h.found.sorted.filter (·.lasts s.rebuilt)
  rw [h.decide_found, expected_eq, Decision.of_injective.eq_iff,
    WindowTable.deciding_eq_iff (h.as_of t.ts).sorted hsorted]
  constructor
  · rintro ⟨hsome, hnone⟩
    refine ⟨fun r hr => ?_, fun hno r hr hl => hnone hno r ((hlasting r).mpr ⟨hr, hl⟩)⟩
    obtain ⟨r', hr', hid, hadmits⟩ := hsome r hr
    obtain ⟨hmem, hl⟩ := (hlasting r').mp hr'.mem
    refine ⟨r', hmem, hid, hl, hr'.covers, hadmits, fun other ho hol hoc => ?_⟩
    rw [← hid, ← hadmits]
    have hother := (hlasting other).mpr ⟨ho, hol⟩
    exact ⟨hr'.first other hother hoc, hr'.alone other hother hoc⟩
  · rintro ⟨hsome, hnone⟩
    refine ⟨fun r hr => ?_, fun hno r hr => hnone hno r ((hlasting r).mp hr).1 ((hlasting r).mp hr).2⟩
    obtain ⟨r', hmem, hid, hl, hc, hadmits, hothers⟩ := hsome r hr
    refine ⟨r', ⟨(hlasting r').mpr ⟨hmem, hl⟩, hc, fun other ho hoc => ?_, fun other ho hoc => ?_⟩, hid, hadmits⟩
    · rw [hid, hadmits]
      exact (hothers other ((hlasting other).mp ho).1 ((hlasting other).mp ho).2 hoc).1
    · rw [hadmits]
      exact (hothers other ((hlasting other).mp ho).1 ((hlasting other).mp ho).2 hoc).2

/-- In every run, a trap is decided by the windows as they covered its instant exactly when the window that decides it
then was in force at the last rebuild of the index, not over yet, with the same answer, and none went before it. -/
theorem run_decides (ops : List (ℚ × DeskOp)) (t : Trap) :
    let s := Runs.run step {} ops
    s.index.decide t = s.expected t ↔ s.Stays t :=
  (run_compiled ops).decides_iff t

/-- A window on an element, a trap inside it, and the sweep that comes between the two. -/
def late : List (ℚ × DeskOp) := [
  (0, .create false { starts_at := 0, ends_at := 600, patch_s := 0, targets := [1] }),
  (5, .sweep false), (600, .sweep false)]

theorem late_collected : ¬ ∀ (ops : List (ℚ × DeskOp)) (t : Trap),
    (Runs.run step {} ops).index.decide t = (Runs.run step {} ops).expected t := by
  intro h
  have hcollect : (Runs.run step {} late).index.decide { ne_id := 1, ts := 599 } = COLLECT := by decide +kernel
  have hsuppress : (Runs.run step {} late).expected { ne_id := 1, ts := 599 } =
      { collect := false, window_id := some 1 } := by decide +kernel
  exact absurd (hcollect.symm.trans ((h late _).trans hsuppress)) (by decide)

end Desk

end NetCoreNoc.Maintenance
