import Mathlib
import NetCoreNoc.Noc.Cases
import NetCoreNoc.Rounding
import NetCoreNoc.Runs

/-! The restore clock of a case: the columns that two triggers keep (`migrations/0036_noc_case_clocks.sql`,
`0042_noc_case_pause.sql`), and what is reported of them (`engine/noc/kpi.py`). -/
namespace NetCoreNoc.Noc
open Rounding Runs

/-- The columns of `noc_case` that the clock counts by. -/
structure ClockRow where
  status : Status := .new
  status_at : ℚ
  opened_at : ℚ
  priority : Priority
  restored_at : Option ℚ := none
  paused_s : ℚ := 0
  paused_at : Option ℚ := none
  deriving DecidableEq

/-- Restored, as far as the NOC can tell. -/
def Status.over : Status → Bool
  | .validate | .resolved | .closed => true
  | _ => false

/-- `noc_case_pause_clock`, of the row before an update and the row that it writes. -/
def noc_case_pause_clock (old new : ClockRow) : ClockRow :=
  let new := match old.paused_at with
    | none => new
    | some since => { new with
        paused_s := old.paused_s + max 0 (new.status_at - since)
        paused_at := none }
  if new.status.pends then { new with paused_at := some new.status_at } else new

/-- `noc_case_restore_clock` -/
def noc_case_restore_clock (new : ClockRow) : ClockRow :=
  if new.status.over then { new with restored_at := some (new.restored_at.getD new.status_at) }
  else { new with restored_at := none }

/-- A change of a case's status, or an update that sets it to what it was. -/
structure Change where
  status : Status
  at_ : ℚ
  deriving DecidableEq

namespace ClockRow

/-- The row that a case opens with. -/
def opened (priority : Priority) (at_ : ℚ) : ClockRow := { status_at := at_, opened_at := at_, priority := priority }

/-- An update of the status: the triggers run in the order of their names, where the status is another. -/
def update (row : ClockRow) (c : Change) : ClockRow :=
  let new := { row with status := c.status, status_at := c.at_ }
  if row.status = c.status then new else noc_case_restore_clock (noc_case_pause_clock row new)

end ClockRow

def RESTORE_TARGET_S : Priority → ℚ
  | .critical => 4 * 3600
  | .major => 24 * 3600
  | .minor => 72 * 3600

inductive ClockState where
  | running
  | late
  | met
  | missed
  | paused
  deriving DecidableEq, Repr

structure Clock where
  target_s : ℚ
  due_at : ℚ
  elapsed_s : ℚ
  overrun_s : ℚ
  state : ClockState
  paused_s : ℚ := 0
  deriving DecidableEq

/-- `_clock` -/
def clock (start : ℚ) (stop : Option ℚ) (now target : ℚ) : Clock :=
  let elapsed := stop.getD now - start
  { target_s := target
    due_at := start + target
    elapsed_s := round_to 3 (max 0 elapsed)
    overrun_s := round_to 3 (max 0 (elapsed - target))
    state := match stop with
      | none => if elapsed > target then .late else .running
      | some _ => if elapsed ≤ target then .met else .missed }

def restore (row : ClockRow) (now : ℚ) : Clock :=
  let ongoing := match row.paused_at, row.restored_at with
    | some since, none => some (max 0 (now - since))
    | _, _ => none
  let paused := row.paused_s + ongoing.getD 0
  let out := clock (row.opened_at + paused) row.restored_at now (RESTORE_TARGET_S row.priority)
  { out with
    paused_s := round_to 3 paused
    state := if ongoing.isSome then .paused else out.state }

/-- What stands in its history of the time that a case spent pending, from an instant on in a status. -/
def waited : Status → ℚ → List Change → ℚ → ℚ
  | status, since, [], now => if status.pends then now - since else 0
  | status, since, c :: changes, now =>
    (if status.pends then c.at_ - since else 0) + waited c.status c.at_ changes now

/-- The case has been validated, resolved or closed without a break since an instant. -/
def RestoredSince (changes : List Change) (at_ : ℚ) : Prop :=
  ∃ before status after, changes = before ++ ⟨status, at_⟩ :: after ∧ status.over = true ∧
    (∀ c ∈ after, c.status.over = true) ∧ ((before.map Change.status).getLastD .new).over = false

theorem waited_append (status : Status) (since : ℚ) (changes : List Change) (c : Change) (now : ℚ) :
    waited status since (changes ++ [c]) now =
      waited status since changes c.at_ + if c.status.pends then now - c.at_ else 0 := by
  induction changes generalizing status since with
  | nil => rfl
  | cons d changes ih =>
    rw [List.cons_append, waited, waited, ih, add_assoc]

variable {changes : List Change}

/-- A case waits no longer than it is open. -/
theorem waited_le {status : Status} {since now : ℚ}
    (h : (since :: changes.map Change.at_).Pairwise (· ≤ ·)) (hnow : ∀ t ∈ since :: changes.map Change.at_, t ≤ now) :
    waited status since changes now ≤ now - since := by
  induction changes generalizing status since with
  | nil =>
    have : since ≤ now := hnow since List.mem_cons_self
    unfold waited
    split <;> linarith
  | cons c changes ih =>
    obtain ⟨hle, h⟩ := List.pairwise_cons.mp h
    have hrest : waited c.status c.at_ changes now ≤ now - c.at_ :=
      ih h fun t ht => hnow t (List.mem_cons_of_mem _ ht)
    have : since ≤ c.at_ := hle c.at_ List.mem_cons_self
    unfold waited
    split <;> linarith

theorem Status.over_pends {s : Status} (h : s.over = true) : s.pends = false := by
  cases s <;> first | rfl | cases h

theorem waited_over {status : Status} {since now : ℚ} (h : status.over = true)
    (hall : ∀ c ∈ changes, c.status.over = true) : waited status since changes now = 0 := by
  induction changes generalizing status since with
  | nil => rw [waited, Status.over_pends h, if_neg Bool.false_ne_true]
  | cons c changes ih =>
    obtain ⟨hc, hall⟩ := List.forall_mem_cons.mp hall
    rw [waited, Status.over_pends h, if_neg Bool.false_ne_true, ih hc hall, add_zero]

/-- What a restored case waited, it waited before it came to be restored. -/
theorem waited_restored {status ended : Status} {since at_ now : ℚ} {before after : List Change}
    (h : ended.over = true) (hall : ∀ c ∈ after, c.status.over = true) :
    waited status since (before ++ ⟨ended, at_⟩ :: after) now = waited status since before at_ := by
  induction before generalizing status since with
  | nil =>
    have hrest : waited ended at_ after now = 0 := waited_over h hall
    rw [List.nil_append, waited, waited, hrest, add_zero]
  | cons c before ih => rw [List.cons_append, waited, waited, ih]

theorem restoredSince_append {c : Change} {at_ : ℚ} :
    RestoredSince (changes ++ [c]) at_ ↔ c.status.over = true ∧
      (RestoredSince changes at_ ∨ ((changes.map Change.status).getLastD .new).over = false ∧ c.at_ = at_) := by
  constructor
  · rintro ⟨before, status, after, heq, hover, hafter, hlast⟩
    rcases List.eq_nil_or_concat after with rfl | ⟨rest, d, rfl⟩
    · obtain ⟨rfl, hc⟩ := List.append_inj' heq rfl
      obtain rfl := (List.cons.inj hc).1
      exact ⟨hover, .inr ⟨hlast, rfl⟩⟩
    · rw [List.concat_eq_append, ← List.cons_append, ← List.append_assoc] at heq
      obtain ⟨rfl, hc⟩ := List.append_inj' heq rfl
      obtain rfl := (List.cons.inj hc).1
      rw [List.concat_eq_append] at hafter
      exact ⟨hafter c (by simp), .inl ⟨before, status, rest, rfl, hover, fun d hd => hafter d (by simp [hd]), hlast⟩⟩
  · rintro ⟨hc, ⟨before, status, after, rfl, hover, hafter, hlast⟩ | ⟨hlast, rfl⟩⟩
    · refine ⟨before, status, after ++ [c], by simp, hover, fun d hd => ?_, hlast⟩
      rcases List.mem_append.mp hd with hd | hd
      · exact hafter d hd
      · exact List.mem_singleton.mp hd ▸ hc
    · exact ⟨changes, c.status, [], rfl, hc, fun d hd => absurd hd List.not_mem_nil, hlast⟩

section
variable {row : ClockRow} {c : Change}

theorem update_same (h : row.status = c.status) :
    row.update c = { row with status := c.status, status_at := c.at_ } := if_pos h

/-- What the triggers make of the row where its status is another. -/
theorem update_other (h : row.status ≠ c.status) : row.update c =
    { row with
      status := c.status
      status_at := c.at_
      restored_at := if c.status.over then some (row.restored_at.getD c.at_) else none
      paused_s := row.paused_s + (row.paused_at.map fun since => max 0 (c.at_ - since)).getD 0
      paused_at := if c.status.pends then some c.at_ else none } := by
  obtain ⟨status, status_at, opened_at, priority, restored_at, paused_s, paused_at⟩ := row
  refine (if_neg h).trans ?_
  unfold noc_case_restore_clock noc_case_pause_clock
  cases paused_at <;> cases hp : c.status.pends <;> cases ho : c.status.over <;> simp [hp, ho]

end

/-- The row holds what its history tells. -/
structure Counts (opened_at : ℚ) (changes : List Change) (row : ClockRow) : Prop where
  opened : row.opened_at = opened_at
  last : (changes.map Change.status).getLastD .new = row.status
  pausing : row.paused_at.isSome = row.status.pends
  begun : ∀ since ∈ row.paused_at, ∀ now, (∀ t ∈ opened_at :: changes.map Change.at_, t ≤ now) → since ≤ now
  paused : ∀ now, waited .new opened_at changes now = row.paused_s + (row.paused_at.map (now - ·)).getD 0
  restoring : row.restored_at.isSome = row.status.over
  restored : ∀ at_, row.restored_at = some at_ ↔ RestoredSince changes at_

theorem counts_opened (priority : Priority) (opened_at : ℚ) : Counts opened_at [] (.opened priority opened_at) where
  opened := rfl
  last := rfl
  pausing := rfl
  begun since hs := absurd hs (Option.not_mem_none since)
  paused now := (add_zero 0).symm
  restoring := rfl
  restored at_ := by
    refine iff_of_false (Option.some_ne_none at_).symm ?_
    rintro ⟨before, status, after, h, -⟩
    exact List.append_ne_nil_of_right_ne_nil before (List.cons_ne_nil _ after) h.symm

theorem Counts.update {opened_at : ℚ} {row : ClockRow} (h : Counts opened_at changes row)
    (c : Change) (hc : ∀ t ∈ opened_at :: changes.map Change.at_, t ≤ c.at_) :
    Counts opened_at (changes ++ [c]) (row.update c) := by
  have hlast : ((changes ++ [c]).map Change.status).getLastD .new = c.status := by simp
  have hbegun : ∀ since ∈ row.paused_at, since ≤ c.at_ := fun since hs => h.begun since hs c.at_ hc
  have hlater {now : ℚ} (hnow : ∀ t ∈ opened_at :: (changes ++ [c]).map Change.at_, t ≤ now) :
      ∀ t ∈ opened_at :: changes.map Change.at_, t ≤ now := fun t ht => hnow t (by
    rw [List.map_append, ← List.cons_append]
    exact List.mem_append_left _ ht)
  by_cases hsame : row.status = c.status
  · rw [update_same hsame]
    refine ⟨h.opened, hlast, hsame ▸ h.pausing, fun since hs now hnow => h.begun since hs now (hlater hnow),
      fun now => ?_, hsame ▸ h.restoring, fun at_ => ?_⟩
    · -- the wait that is under way goes on
      rw [waited_append, h.paused, ← hsame, ← h.pausing]
      cases row.paused_at with
      | none => simp
      | some since =>
        rw [Option.isSome_some, if_pos rfl, Option.map_some, Option.map_some, Option.getD_some, Option.getD_some]
        ring
    · rw [restoredSince_append, ← h.restored, h.last, ← hsame, ← h.restoring]
      cases row.restored_at with
      | none => simp
      | some _ => simp
  · rw [update_other hsame]
    refine ⟨h.opened, hlast, ?_, fun since hs now hnow => ?_, fun now => ?_, ?_, fun at_ => ?_⟩
    · dsimp only
      split <;> simp_all
    · dsimp only at hs
      split at hs
      · cases hs
        exact hnow _ (by simp)
      · cases hs
    · have hpaused : (row.paused_at.map (c.at_ - ·)).getD 0 =
          (row.paused_at.map fun since => max 0 (c.at_ - since)).getD 0 := by
        cases hs : row.paused_at with
        | none => rfl
        | some since => exact (max_eq_right (sub_nonneg.mpr (hbegun since hs))).symm
      rw [waited_append, h.paused, hpaused]
      dsimp only
      split <;> simp
    · dsimp only
      split <;> simp_all
    · rw [restoredSince_append, ← h.restored, h.last, ← h.restoring]
      dsimp only
      split
      · next hover =>
        cases row.restored_at with
        | none => simp [hover]
        | some _ => simp [hover]
      · next hover => simp [hover]

theorem counts_run (priority : Priority) {opened_at : ℚ}
    (h : (opened_at :: changes.map Change.at_).Pairwise (· ≤ ·)) :
    Counts opened_at changes (run ClockRow.update (.opened priority opened_at) changes) := by
  induction changes using List.reverseRecOn with
  | nil => exact counts_opened priority opened_at
  | append_singleton changes c ih =>
    rw [List.map_append, ← List.cons_append] at h
    obtain ⟨h, -, hc⟩ := List.pairwise_append.mp h
    rw [run_append]
    exact (ih h).update c fun t ht => hc t ht c.at_ (List.mem_singleton_self _)

theorem restore_elapsed (row : ClockRow) (now : ℚ) : (restore row now).elapsed_s =
    round_to 3 (max 0 (row.restored_at.getD now - (row.opened_at + (row.paused_s +
      (if row.restored_at.isSome then 0 else (row.paused_at.map fun since => max 0 (now - since)).getD 0))))) := by
  unfold restore clock
  cases row.paused_at <;> cases row.restored_at <;> rfl

/-- The clock never goes back, whatever the row. -/
theorem restore_mono (row : ClockRow) : Monotone fun now => (restore row now).elapsed_s := by
  intro now later hle
  simp only [restore_elapsed]
  refine round_to_mono 3 (max_le_max le_rfl ?_)
  cases row.restored_at with
  | some at_ => exact le_rfl
  | none =>
    simp only [Option.getD_none, Option.isSome_none, Bool.false_eq_true, if_false]
    cases row.paused_at with
    | none => exact sub_le_sub_right hle _
    | some since =>
      simp only [Option.map_some, Option.getD_some]
      -- while the case waits, what passes is what it has waited more
      rcases le_total later since with hbefore | hafter
      · rw [max_eq_left (by linarith), max_eq_left (by linarith)]
        linarith
      · rw [max_eq_right (by linarith : 0 ≤ later - since)]
        rcases le_total now since with hnow | hnow
        · rw [max_eq_left (by linarith)]
          linarith
        · rw [max_eq_right (by linarith)]
          linarith

/-- After any status changes in the order of time, the elapsed time is that from the opening to when the case came to
be restored, or to now where it is not, less the time it was pending; to the millisecond. And it never goes back. -/
theorem restore_charges (priority : Priority) (opened_at : ℚ) (changes : List Change)
    (h : (opened_at :: changes.map Change.at_).Pairwise (· ≤ ·)) :
    (∀ now, (∀ t ∈ opened_at :: changes.map Change.at_, t ≤ now) →
      let elapsed := (restore (run ClockRow.update (.opened priority opened_at) changes) now).elapsed_s
      (∀ at_, RestoredSince changes at_ →
        elapsed = round_to 3 (at_ - opened_at - waited .new opened_at changes now)) ∧
      ((∀ at_, ¬ RestoredSince changes at_) →
        elapsed = round_to 3 (now - opened_at - waited .new opened_at changes now))) ∧
    ∀ now later, now ≤ later →
      (restore (run ClockRow.update (.opened priority opened_at) changes) now).elapsed_s ≤
        (restore (run ClockRow.update (.opened priority opened_at) changes) later).elapsed_s := by
  refine ⟨fun now hnow => ?_, fun now later hle => restore_mono _ hle⟩
  have hcounts := counts_run priority h
  generalize run ClockRow.update (.opened priority opened_at) changes = row at hcounts
  dsimp only
  rw [restore_elapsed, hcounts.opened]
  constructor
  · intro at_ hsince
    have hat := (hcounts.restored at_).mpr hsince
    have hpends : row.paused_at = none := by
      rw [← Option.not_isSome_iff_eq_none, hcounts.pausing, Status.over_pends]
      · exact Bool.false_ne_true
      · rw [← hcounts.restoring, hat]
        rfl
    have hwaited : waited .new opened_at changes now = row.paused_s := by
      rw [hcounts.paused, hpends]
      exact add_zero _
    obtain ⟨before, status, after, rfl, hover, hafter, -⟩ := hsince
    rw [List.map_append, List.map_cons, ← List.cons_append] at h
    obtain ⟨hbefore, -, hle⟩ := List.pairwise_append.mp h
    have hnonneg : waited .new opened_at before at_ ≤ at_ - opened_at :=
      waited_le hbefore fun t ht => hle t ht at_ List.mem_cons_self
    rw [waited_restored hover hafter] at hwaited ⊢
    rw [hwaited] at hnonneg
    rw [hwaited, hat, Option.isSome_some, if_pos rfl, Option.getD_some, add_zero, max_eq_right (by linarith)]
    congr 1
    ring
  · intro hno
    have hnone : row.restored_at = none := Option.eq_none_iff_forall_ne_some.mpr fun at_ hat =>
      hno at_ ((hcounts.restored at_).mp hat)
    have hpaused : (row.paused_at.map fun since => max 0 (now - since)).getD 0 =
        (row.paused_at.map (now - ·)).getD 0 := by
      cases hs : row.paused_at with
      | none => rfl
      | some since => exact max_eq_right (sub_nonneg.mpr (hcounts.begun since hs now hnow))
    have hle : waited .new opened_at changes now ≤ now - opened_at := waited_le h hnow
    rw [hnone, Option.isSome_none, if_neg Bool.false_ne_true, Option.getD_none, hpaused, ← hcounts.paused,
      max_eq_right (by linarith)]
    congr 1
    ring

/-- Back from a field technician and validated, taken back, and validated again. -/
theorem restore_charges_twice :
    let changes : List Change := [⟨.queue, 1⟩, ⟨.working, 2⟩, ⟨.pending .field_tech, 5⟩, ⟨.pending .vendor, 8⟩,
      ⟨.validate, 9⟩, ⟨.working, 10⟩, ⟨.pending .vendor, 11⟩, ⟨.validate, 15⟩, ⟨.resolved, 20⟩]
    (restore (run ClockRow.update (.opened .major 0) changes) 30).elapsed_s = round_to 3 (15 - 0 - 8) := by
  intro changes
  have hwaited : waited .new 0 changes 30 = 8 := by decide +kernel
  have hsince : RestoredSince changes 15 :=
    ⟨changes.take 7, .validate, changes.drop 8, rfl, rfl, by decide +kernel, rfl⟩
  rw [← hwaited]
  exact ((restore_charges .major 0 changes (by decide +kernel)).1 30 (by decide +kernel)).1 15 hsince

/-- A 2048th of a second after the opening nothing has passed. -/
theorem restore_rounds : ¬ ∀ (priority : Priority) (opened_at now : ℚ), opened_at ≤ now →
    (restore (run ClockRow.update (.opened priority opened_at) []) now).elapsed_s = now - opened_at := by
  intro h
  exact absurd (h .major 0 (1 / 2048) (by decide +kernel)) (by decide +kernel)

end NetCoreNoc.Noc
