import Mathlib
import NetCoreNoc.Runs
import NetCoreNoc.Maintenance.Surfacing

/-! What is left of the raises and the clears of a fault, some of which reached its alarm and some only the
ledger of a window, once the windows are over. -/
namespace NetCoreNoc.Maintenance
open Writeback

namespace WindowTable
variable {table : WindowTable} {wid : Nat} {now : ℚ}

/-- Every window keeps a ledger. -/
def AllKeep (table : WindowTable) : Prop := ∀ r ∈ table, r.ledger_enabled

theorem keep_set (h : table.AllKeep) {f : WindowRow → WindowRow}
    (hledger : ∀ r : WindowRow, r.ledger_enabled → (f r).ledger_enabled) : (table.set wid f).AllKeep := by
  intro r hr
  obtain ⟨r₀, hr₀, rfl⟩ := List.mem_map.mp hr
  split
  · exact hledger r₀ (h r₀ hr₀)
  · exact h r₀ hr₀

theorem keep_create (h : table.AllKeep) {body : WindowBody} (hledger : body.ledger_enabled) (confirm : Bool) :
    (table.create now confirm body).AllKeep := by
  unfold create
  dsimp only
  split
  · intro r hr
    rcases List.mem_append.mp hr with hr | hr
    · exact h r hr
    · obtain rfl := List.mem_singleton.mp hr
      exact hledger
  · exact h

theorem keep_extend (h : table.AllKeep) (ends_at : ℚ) : (table.extend_window now wid ends_at).AllKeep := by
  unfold extend_window
  cases table.find? (·.id = wid) with
  | none => exact h
  | some r =>
    dsimp only
    split
    · exact keep_set h fun _ hr => hr
    · exact h

theorem keep_update (h : table.AllKeep) {body : WindowBody} (hledger : body.ledger_enabled) :
    (table.update_window now wid body).AllKeep := by
  unfold update_window
  cases table.find? (·.id = wid) with
  | none => exact h
  | some r =>
    dsimp only
    split
    · refine keep_set ?_ fun _ _ => hledger
      exact keep_set h fun _ hr => hr
    · exact h

theorem keep_advance (h : table.AllKeep) : (table.advance_statuses now).AllKeep := by
  obtain ⟨f, hmap, hf⟩ := advance_map table now
  intro r hr
  rw [hmap] at hr
  obtain ⟨r₀, hr₀, rfl⟩ := List.mem_map.mp hr
  exact (hf r₀).2.1.trans (h r₀ hr₀)

/-- What is compiled comes from the table. -/
theorem mem_compile {ne : Nat} {w : CompiledWindow} (hw : w ∈ (table.window_index_rows now).compile.by_ne ne) :
    ∃ r ∈ table, w = r.build := by
  obtain ⟨hw, -⟩ := List.mem_filter.mp hw
  obtain ⟨r, hr, rfl⟩ := List.mem_map.mp hw
  exact ⟨r, List.mem_of_mem_filter hr, rfl⟩

end WindowTable

namespace Station
variable (s : Station)

/-- The alarm of a fault is active, or a window has the fault raised. -/
def Outstanding (f : Fault) : Prop := s.active f ∨ ∃ wid, s.raised wid f

/-- A window that has a fault raised. -/
def Holds (wid : Nat) : Prop := ∃ f, s.raised wid f

/-- The step takes nothing that a window holds: every window keeps a ledger, none suppresses a trap once it is out of
force, an operator cancels or edits out of force only a window that has no fault raised, or ends one whose ledger is
written, and a sweep fails or the engine stops only when there is nothing to write. -/
def Orderly : StationOp → Prop
  | .signal sig => ∀ wid, s.suppressed_by sig wid → s.table.in_force wid
  | .confirm _ | .sweep _ | .end_occurrence _ | .sweep_fails _ .early => True
  | .create _ _ body => body.ledger_enabled
  | .cancel wid => s.Holds wid → (s.table.cancel_window wid).in_force wid
  | .extend now wid ends_at => s.Holds wid → (s.table.extend_window now wid ends_at).in_force wid
  | .update now wid body =>
    body.ledger_enabled ∧ (s.Holds wid → (s.table.update_window now wid body).in_force wid)
  | .end_now _ wid => ∀ k ∈ s.ledger.dirty, k.1 ≠ wid
  | .sweep_fails _ _ | .restart => s.ledger.dirty = ∅

/-- A clear meets the fault where it is: no window has the fault raised but the one that takes the clear
down, and a clear that is taken down finds no active alarm. -/
def Answers (sig : Signal) (f : Fault) : Prop :=
  (∀ wid, s.raised wid f → sig.fault = f ∧ s.suppressed_by sig wid) ∧ ∀ wid, s.suppressed_by sig wid → ¬ s.active f

/-- The windows that have a fault raised are in force. -/
structure Kept : Prop where
  marked : s.Marked
  ledgers : s.table.AllKeep
  index : ∀ ne, ∀ w ∈ s.index.by_ne ne, w.ledger_enabled
  raised : ∀ wid f, s.raised wid f → s.table.in_force wid

variable {s} {wid : Nat} {f : Fault} {now : ℚ} {sig : Signal}

theorem Kept.in_force (h : s.Kept) (hholds : s.Holds wid) : s.table.in_force wid := by
  obtain ⟨f, hraised⟩ := hholds
  exact h.raised wid f hraised

/-- A change of the table that takes out of force only what holds nothing. -/
theorem Kept.edit (h : s.Kept) {table : WindowTable} (hfollows : s.table.Follows table) (hkeep : table.AllKeep)
    (hstay : ∀ wid, s.Holds wid → table.in_force wid) : ({ s with table := table } : Station).Kept :=
  ⟨h.marked.edit hfollows, hkeep, h.index, fun wid f hraised => hstay wid ⟨f, hraised⟩⟩

theorem outstanding_sweep : (s.sweep now).Outstanding f ↔ s.Outstanding f := by
  unfold Outstanding
  rw [active_sweep, or_assoc]
  refine or_congr_right ⟨?_, fun ⟨wid, hraised⟩ => ?_⟩
  · rintro (⟨wid, -, hraised⟩ | ⟨wid, hraised⟩)
    · exact ⟨wid, hraised⟩
    · rw [raised_sweep, Bool.and_eq_true] at hraised
      exact ⟨wid, hraised.2⟩
  · by_cases hended : wid ∈ s.table.just_ended now
    · exact .inl ⟨wid, hended, hraised⟩
    · exact .inr ⟨wid, by rw [raised_sweep, hraised, decide_eq_true hended]; rfl⟩

theorem kept_sweep (h : s.Kept) : (s.sweep now).Kept := by
  have htable : (s.sweep now).table = s.table.advance_statuses now := (surfaced_sweep s now).table
  have hkeep : (s.table.advance_statuses now).AllKeep := WindowTable.keep_advance h.ledgers
  refine ⟨marked_sweep h.marked, htable ▸ hkeep, fun ne w hw => ?_, fun wid f hraised => ?_⟩
  · obtain ⟨r, hr, rfl⟩ := WindowTable.mem_compile hw
    exact (htable ▸ hkeep) r hr
  · rw [raised_sweep, Bool.and_eq_true, decide_eq_true_eq] at hraised
    exact htable ▸ WindowTable.in_force_advance (h.raised wid f hraised.2) hraised.1



theorem Kept.keeps (h : s.Kept) (sig : Signal) (wid : Nat) : s.discards sig wid = false := by
  unfold discards
  cases hw : (s.index.by_ne sig.trap.ne_id).find? (·.window_id = wid) with
  | none => rfl
  | some w => simp [h.index _ w (List.mem_of_find?_eq_some hw)]

theorem active_ingest {f' : Fault} : (s.ingest f').active f = (decide (f = f') || s.active f) := by
  unfold ingest active
  rcases eq_or_ne f f' with rfl | hne
  · simp
  · simp [hne]

theorem active_clear {f' : Fault} : (s.clear_alarm f').active f = (decide (f ≠ f') && s.active f) := by
  unfold clear_alarm active
  rcases eq_or_ne f f' with rfl | hne
  · cases s.alarms f <;> simp
  · simp [hne]

instance (table : WindowTable) (wid : Nat) : Decidable (table.in_force wid) :=
  inferInstanceAs (Decidable (∃ r ∈ table, r.id = wid ∧ r.status.in_force))

theorem orderly_signal (h : ∀ wid ∈ (s.index.decide sig.trap).window_id, s.table.in_force wid) :
    s.Orderly (.signal sig) := fun wid hsup => h wid (congrArg Decision.window_id hsup)

/-- Alarms do not matter to what the windows hold. -/
theorem Kept.frame (h : s.Kept) {t : Station} (hframe : t.table = s.table ∧ t.index = s.index ∧ t.ledger = s.ledger ∧
    t.rows = s.rows) : t.Kept := by
  obtain ⟨table, index, ledger, rows, alarms⟩ := t
  obtain ⟨rfl, rfl, rfl, rfl⟩ := hframe
  exact ⟨h.marked.frame rfl (fun _ _ hk => hk) rfl, h.ledgers, h.index, h.raised⟩

theorem active_collect : (s.collect sig).active f =
    if sig.kind = .raise then decide (f = sig.fault) || s.active f
    else decide (f ≠ sig.fault) && decide (f ≠ sig.own) && s.active f := by
  unfold collect
  cases hkind : sig.kind with
  | raise => simp [active_ingest]
  | pair_clear raise_class =>
    simp only [active_clear]
    rw [← Bool.and_assoc, Bool.and_comm (decide (f ≠ sig.own))]
    simp
  | state_clear =>
    have hfault : sig.fault = sig.own := by simp only [Signal.fault, hkind]
    simp [active_clear, hfault]

theorem raised_process_raise (h : s.Kept) (horderly : s.Orderly (.signal sig)) (hsup : s.suppressed_by sig wid)
    (hkind : sig.kind = .raise) {wid' : Nat} :
    (s.process sig).raised wid' f = (decide ((wid', f) = (wid, sig.fault)) || s.raised wid' f) := by
  rcases process_suppressed hsup (h.keeps sig wid) with ⟨-, hprocess⟩ | ⟨hnot, -⟩
  · rw [hprocess]
    rcases eq_or_ne (wid', f) (wid, sig.fault) with heq | hne
    · obtain ⟨rfl, rfl⟩ := Prod.mk.inj heq
      rw [raised_observe_raise h.marked (horderly wid' hsup)]
      simp
    · rw [decide_eq_false hne, Bool.false_or]
      exact congrArg _ (record_put_ne hne)
  · exact absurd hkind hnot

theorem raised_process_clear (h : s.Kept) (hsup : s.suppressed_by sig wid) (hkind : sig.kind ≠ .raise) {wid' : Nat} :
    (s.process sig).raised wid' f = (decide ((wid', f) ≠ (wid, sig.fault)) && s.raised wid' f) := by
  rcases process_suppressed hsup (h.keeps sig wid) with ⟨hraise, -⟩ | ⟨-, hprocess⟩
  · exact absurd hraise hkind
  · rw [hprocess]
    rcases eq_or_ne (wid', f) (wid, sig.fault) with heq | hne
    · obtain ⟨rfl, rfl⟩ := Prod.mk.inj heq
      rw [raised_observe_clear]
      simp
    · rw [decide_eq_true hne, Bool.true_and]
      exact congrArg _ (record_put_ne hne)

/-- A suppressed trap changes no alarm. -/
theorem active_suppressed (h : s.Kept) (hsup : s.suppressed_by sig wid) : (s.process sig).active f = s.active f := by
  rcases process_suppressed hsup (h.keeps sig wid) with ⟨-, hprocess⟩ | ⟨-, hprocess⟩ <;> rw [hprocess] <;> rfl

theorem raised_collected (hcollect : ∀ wid, ¬ s.suppressed_by sig wid) :
    (s.process sig).raised wid f = s.raised wid f := by
  rw [process_collected hcollect]
  exact raised_frame collect_frame.2.2.1 collect_frame.2.2.2

theorem kept_process (h : s.Kept) {sig : Signal} (horderly : s.Orderly (.signal sig)) : (s.process sig).Kept := by
  by_cases hsup : ∃ wid, s.suppressed_by sig wid
  · obtain ⟨wid, hsup⟩ := hsup
    have hraised : ∀ wid' f, (s.process sig).raised wid' f → s.table.in_force wid' := by
      intro wid' f hraised
      by_cases hkind : sig.kind = .raise
      · rw [raised_process_raise h horderly hsup hkind, Bool.or_eq_true, decide_eq_true_eq] at hraised
        rcases hraised with heq | hraised
        · obtain rfl : wid' = wid := congrArg Prod.fst heq
          exact horderly wid' hsup
        · exact h.raised wid' f hraised
      · rw [raised_process_clear h hsup hkind, Bool.and_eq_true] at hraised
        exact h.raised wid' f hraised.2
    have hmarked := marked_process h.marked sig
    rcases process_suppressed hsup (h.keeps sig wid) with ⟨-, hprocess⟩ | ⟨-, hprocess⟩
    · rw [hprocess] at hmarked hraised ⊢
      exact ⟨hmarked, h.ledgers, h.index, hraised⟩
    · rw [hprocess] at hmarked hraised ⊢
      exact ⟨hmarked, h.ledgers, h.index, hraised⟩
  · rw [process_collected (not_exists.mp hsup)]
    exact h.frame collect_frame

end Station

namespace Signal
variable {sig : Signal} {f : Fault}

theorem tells_none (htells : sig.tells f = none) : f ≠ sig.fault ∧ f ≠ sig.own := by
  unfold tells fault at *
  cases hkind : sig.kind <;> simp_all [eq_comm]

theorem tells_raise (htells : sig.tells f = some true) : sig.kind = .raise ∧ sig.fault = f := by
  unfold tells fault at *
  cases hkind : sig.kind <;> simp_all

theorem tells_clear (htells : sig.tells f = some false) : sig.kind ≠ .raise ∧ (f = sig.fault ∨ f = sig.own) := by
  unfold tells fault at *
  cases hkind : sig.kind with
  | raise => simp_all
  | pair_clear raise_class =>
    simp only [hkind] at htells
    split at htells
    · rename_i hf
      exact ⟨by simp, hf.imp Eq.symm Eq.symm⟩
    · exact absurd htells (by simp)
  | state_clear =>
    simp only [hkind] at htells
    split at htells
    · rename_i hf
      exact ⟨by simp, .inl hf.symm⟩
    · exact absurd htells (by simp)

end Signal

namespace Station
variable {s : Station} {f : Fault} {sig : Signal}

theorem outstanding_silent (h : s.Kept) (horderly : s.Orderly (.signal sig)) (htells : sig.tells f = none) :
    (s.process sig).Outstanding f ↔ s.Outstanding f := by
  obtain ⟨hfault, hown⟩ := Signal.tells_none htells
  unfold Outstanding
  by_cases hsup : ∃ wid, s.suppressed_by sig wid
  · obtain ⟨wid, hsup⟩ := hsup
    have hother (wid' : Nat) : (wid', f) ≠ (wid, sig.fault) := fun heq => hfault (congrArg Prod.snd heq)
    have hraised (wid' : Nat) : (s.process sig).raised wid' f = s.raised wid' f := by
      by_cases hkind : sig.kind = .raise
      · rw [raised_process_raise h horderly hsup hkind, decide_eq_false (hother wid'), Bool.false_or]
      · rw [raised_process_clear h hsup hkind, decide_eq_true (hother wid'), Bool.true_and]
    rw [active_suppressed h hsup]
    simp only [hraised]
  · have hcollect := not_exists.mp hsup
    have hactive : (s.process sig).active f = s.active f := by
      rw [process_collected hcollect, active_collect]
      simp [hfault, hown]
    rw [hactive]
    simp only [raised_collected hcollect]

theorem outstanding_raise (h : s.Kept) (horderly : s.Orderly (.signal sig)) (htells : sig.tells f = some true) :
    (s.process sig).Outstanding f := by
  obtain ⟨hkind, rfl⟩ := Signal.tells_raise htells
  by_cases hsup : ∃ wid, s.suppressed_by sig wid
  · obtain ⟨wid, hsup⟩ := hsup
    refine .inr ⟨wid, ?_⟩
    rw [raised_process_raise h horderly hsup hkind]
    simp
  · refine .inl ?_
    rw [process_collected (not_exists.mp hsup), active_collect, if_pos hkind]
    simp

/-- A fault is over once it is cleared, exactly where the clear meets it. -/
theorem outstanding_clear (h : s.Kept) (htells : sig.tells f = some false) :
    (s.process sig).Outstanding f ↔ ¬ s.Answers sig f := by
  obtain ⟨hkind, hf⟩ := Signal.tells_clear htells
  unfold Outstanding Answers
  by_cases hsup : ∃ wid, s.suppressed_by sig wid
  · obtain ⟨wid, hsup⟩ := hsup
    have honly : ∀ wid', s.suppressed_by sig wid' ↔ wid' = wid := by
      intro wid'
      constructor
      · intro hsup'
        exact Option.some.inj (congrArg Decision.window_id (hsup'.symm.trans hsup))
      · rintro rfl
        exact hsup
    rw [active_suppressed h hsup]
    simp only [raised_process_clear h hsup hkind, honly, forall_eq, not_and_or, not_not, not_forall]
    rw [or_comm]
    refine or_congr_left (exists_congr fun wid' => ?_)
    rw [Bool.and_eq_true, decide_eq_true_eq]
    constructor
    · rintro ⟨hne, hraised⟩
      exact ⟨hraised, not_and_or.mp fun hboth => hne (Prod.ext hboth.2 hboth.1.symm)⟩
    · rintro ⟨hraised, hnot⟩
      exact ⟨fun heq => hnot.elim (· (congrArg Prod.snd heq).symm) (· (congrArg Prod.fst heq)), hraised⟩
  · have hcollect := not_exists.mp hsup
    have hcleared : (s.process sig).active f = false := by
      rw [process_collected hcollect, active_collect, if_neg hkind]
      rcases hf with rfl | rfl <;> simp
    simp only [hcleared, raised_collected hcollect, hcollect]
    simp

variable {wid : Nat} {now : ℚ}

/-- A window whose ledger is written surfaces what it has raised when it is ended. -/
theorem end_now_spec (h : s.Kept) (horderly : s.Orderly (.end_now now wid)) :
    (s.end_now now wid).Kept ∧ ∀ f, (s.end_now now wid).Outstanding f ↔ s.Outstanding f := by
  by_cases hlive : s.table.any fun r => r.id = wid && r.status.live
  · have hwritten (f : Fault) : s.unresolved wid f = s.raised wid f :=
      (congrArg (Option.any _) (record_clean fun hmem => horderly _ hmem rfl)).symm
    have hraised (wid' : Nat) (f : Fault) :
        (s.end_now now wid).raised wid' f = (decide (wid' ≠ wid) && s.raised wid' f) := by
      rcases eq_or_ne wid' wid with rfl | hne
      · rw [raised_end_now hlive]
        simp
      · rw [decide_eq_true hne, Bool.true_and]
        exact congrArg (Option.any _) (record_end_now hne)
    have hstay : ∀ wid', s.table.in_force wid' → wid' ≠ wid → (s.end_now now wid).table.in_force wid' := by
      intro wid' hforce hne
      rw [end_now_eq hlive]
      exact WindowTable.in_force_set hforce hne
    refine ⟨⟨marked_end_now h.marked, ?_, fun ne w hw => ?_, fun wid' f hr => ?_⟩, fun f => ?_⟩
    · rw [end_now_eq hlive]
      refine WindowTable.keep_set h.ledgers fun r hr => ?_
      split <;> exact hr
    · rw [end_now_eq hlive] at hw
      exact h.index ne w hw
    · rw [hraised, Bool.and_eq_true, decide_eq_true_eq] at hr
      exact hstay wid' (h.raised wid' f hr.2) hr.1
    · unfold Outstanding
      rw [active_end_now hlive, hwritten, Bool.or_eq_true, or_assoc]
      refine or_congr_right ⟨?_, fun ⟨wid', hr⟩ => ?_⟩
      · rintro (hr | ⟨wid', hr⟩)
        · exact ⟨wid, hr⟩
        · rw [hraised, Bool.and_eq_true] at hr
          exact ⟨wid', hr.2⟩
      · rcases eq_or_ne wid' wid with rfl | hne
        · exact .inl hr
        · exact .inr ⟨wid', by rw [hraised, decide_eq_true hne, hr]; rfl⟩
  · have hsame : s.end_now now wid = s := if_neg hlive
    rw [hsame]
    exact ⟨h, fun _ => Iff.rfl⟩

theorem sweep_fails_spec (h : s.Kept) (failure : SweepFailure) (horderly : s.Orderly (.sweep_fails now failure)) :
    (s.sweep_fails now failure).Kept ∧ ∀ f, (s.sweep_fails now failure).Outstanding f ↔ s.Outstanding f := by
  have hwritten (k : LedgerKey) : failure = .early ∨ k ∉ s.ledger.dirty := by
    cases failure with
    | early => exact .inl rfl
    | flush | surfaced | rebuilt => exact .inr ((show s.ledger.dirty = ∅ from horderly) ▸ Finset.notMem_empty k)
  have hraised (wid : Nat) (f : Fault) : (s.sweep_fails now failure).raised wid f = s.raised wid f :=
    congrArg (Option.any _) (record_sweep_fails (hwritten (wid, f)))
  have htable : (s.sweep_fails now failure).table = s.table := by cases failure <;> rfl
  have hactive (f : Fault) : (s.sweep_fails now failure).active f = s.active f := by cases failure <;> rfl
  have hmarked : (s.step (fun _ => false) (.sweep_fails now failure)).Marked := marked_step h.marked _
  refine ⟨⟨hmarked, htable ▸ h.ledgers, ?_,
    fun wid f hr => htable ▸ h.raised wid f (hraised wid f ▸ hr)⟩, fun f => ?_⟩
  · intro ne w hw
    cases failure with
    | early | flush | surfaced => exact h.index ne w hw
    | rebuilt =>
      obtain ⟨r, hr, rfl⟩ := WindowTable.mem_compile hw
      exact WindowTable.keep_advance h.ledgers r hr
  · unfold Outstanding
    simp only [hactive, hraised]

theorem restart_spec (h : s.Kept) (hdirty : s.ledger.dirty = ∅) :
    ({ s with ledger := {}, index := EMPTY } : Station).Kept ∧
      ∀ f, ({ s with ledger := {}, index := EMPTY } : Station).Outstanding f ↔ s.Outstanding f := by
  have hraised (wid : Nat) (f : Fault) :
      ({ s with ledger := {}, index := EMPTY } : Station).raised wid f = s.raised wid f := by
    unfold raised
    rw [record_clean (Finset.notMem_empty _), record_clean (hdirty ▸ Finset.notMem_empty _)]
  refine ⟨⟨h.marked.frame rfl (fun _ _ hk => absurd hk (Option.some_ne_none _).symm) rfl, h.ledgers,
    fun ne w hw => absurd hw List.not_mem_nil, fun wid f hr => h.raised wid f (hraised wid f ▸ hr)⟩, fun f => ?_⟩
  unfold Outstanding
  simp only [hraised]
  exact Iff.rfl

theorem outstanding_clear_alarm {f' : Fault} (hne : f ≠ f') : (s.clear_alarm f').Outstanding f ↔ s.Outstanding f := by
  unfold Outstanding
  rw [active_clear, decide_eq_true hne, Bool.true_and]
  exact Iff.rfl

variable {occurrence_only : Nat → Bool}

theorem kept_step (h : s.Kept) (op : StationOp) (horderly : s.Orderly op) : (s.step occurrence_only op).Kept := by
  cases op with
  | signal sig => exact kept_process h horderly
  | create now confirm body =>
    exact h.edit (WindowTable.follows_create h.marked.table body confirm) (WindowTable.keep_create h.ledgers horderly confirm)
      fun wid hholds => WindowTable.in_force_create (h.in_force hholds)
  | confirm wid =>
    refine h.edit (WindowTable.follows_confirm h.marked.table) (WindowTable.keep_set h.ledgers fun r hr => ?_)
      fun wid hholds => WindowTable.in_force_confirm (h.in_force hholds)
    split <;> exact hr
  | cancel wid =>
    refine h.edit (WindowTable.follows_cancel h.marked.table) (WindowTable.keep_set h.ledgers fun r hr => ?_)
      fun wid' hholds => ?_
    · split <;> exact hr
    · rcases eq_or_ne wid' wid with rfl | hne
      · exact horderly hholds
      · exact WindowTable.in_force_set (h.in_force hholds) hne
  | end_now now wid => exact (end_now_spec h horderly).1
  | extend now wid ends_at =>
    refine h.edit (WindowTable.follows_extend h.marked.table ends_at) (WindowTable.keep_extend h.ledgers ends_at)
      fun wid' hholds => ?_
    rcases eq_or_ne wid' wid with rfl | hne
    · exact horderly hholds
    · exact WindowTable.in_force_extend (h.in_force hholds) hne
  | update now wid body =>
    refine h.edit (WindowTable.follows_update h.marked.table body) (WindowTable.keep_update h.ledgers horderly.1)
      fun wid' hholds => ?_
    rcases eq_or_ne wid' wid with rfl | hne
    · exact horderly.2 hholds
    · exact WindowTable.in_force_update (h.in_force hholds) hne
  | sweep now => exact kept_sweep h
  | sweep_fails now failure => exact (sweep_fails_spec h failure horderly).1
  | end_occurrence f =>
    show (if occurrence_only f.class_id then s.clear_alarm f else s).Kept
    split
    · exact h.frame ⟨rfl, rfl, rfl, rfl⟩
    · exact h
  | restart => exact (restart_spec h horderly).1

/-- Only a trap that tells of the fault changes whether it is outstanding. -/
theorem outstanding_step (h : s.Kept) (hpaired : occurrence_only f.class_id = false) (op : StationOp)
    (horderly : s.Orderly op) (htells : op.tells f = none) :
    (s.step occurrence_only op).Outstanding f ↔ s.Outstanding f := by
  cases op with
  | signal sig => exact outstanding_silent h horderly htells
  | create | confirm | cancel | extend | update => exact Iff.rfl
  | end_now now wid => exact (end_now_spec h horderly).2 f
  | sweep now => exact outstanding_sweep
  | sweep_fails now failure => exact (sweep_fails_spec h failure horderly).2 f
  | end_occurrence f' =>
    show (if occurrence_only f'.class_id then s.clear_alarm f' else s).Outstanding f ↔ _
    split
    · rename_i honly
      refine outstanding_clear_alarm fun heq => ?_
      exact absurd (honly.symm.trans (heq ▸ hpaired)) (by simp)
    · exact Iff.rfl
  | restart => exact (restart_spec h horderly).2 f

/-- What holds of the runs in which nothing tells of the fault. -/
theorem run_outstanding (h : s.Kept) (hpaired : occurrence_only f.class_id = false) (ops : List StationOp)
    (hops : Runs.Meets (step occurrence_only) Orderly s ops) (htells : ∀ op ∈ ops, op.tells f = none) :
    (Runs.run (step occurrence_only) s ops).Kept ∧
      ((Runs.run (step occurrence_only) s ops).Outstanding f ↔ s.Outstanding f) := by
  induction ops generalizing s with
  | nil => exact ⟨h, Iff.rfl⟩
  | cons op ops ih =>
    have hstep := outstanding_step h hpaired op hops.1 (htells op List.mem_cons_self)
    obtain ⟨hkept, hrest⟩ := ih (kept_step h op hops.1) hops.2 fun op' hop' => htells op' (List.mem_cons_of_mem _ hop')
    exact ⟨hkept, hrest.trans hstep⟩

/-- Once no window is in force, what is outstanding is what is active. -/
theorem Kept.outstanding (h : s.Kept) (hended : ∀ r ∈ s.table, r.status.in_force = false) :
    s.Outstanding f ↔ s.active f := by
  refine ⟨fun hout => hout.resolve_right ?_, .inl⟩
  rintro ⟨wid, hraised⟩
  obtain ⟨r, hr, -, hforce⟩ := h.raised wid f hraised
  exact absurd (hforce.symm.trans (hended r hr)) (by simp)

private theorem kept_start : ({} : Station).Kept :=
  ⟨marked_start, fun _ hr => absurd hr List.not_mem_nil, fun _ _ hw => absurd hw List.not_mem_nil,
    fun _ _ hr => absurd hr (by simp [raised, record_clean, Entries.empty])⟩

/-- Once every window is over, the alarm of a fault is active if the last trap about the fault raised it. If
the last one cleared it, the alarm is over where the clear met the fault, and stays active where the clear was
suppressed while the alarm was active. -/
theorem run_reflects (occurrence_only : Nat → Bool) (ops : List StationOp) (f : Fault)
    (hpaired : occurrence_only f.class_id = false) (hops : Runs.Meets (step occurrence_only) Orderly {} ops)
    (hended : ∀ r ∈ (Runs.run (step occurrence_only) {} ops).table, r.status.in_force = false) :
    let s := Runs.run (step occurrence_only) {} ops
    ((∀ op ∈ ops, op.tells f = none) → ¬ s.active f) ∧
    ∀ before sig after, ops = before ++ .signal sig :: after → (∀ op ∈ after, op.tells f = none) →
      let t := Runs.run (step occurrence_only) {} before
      (sig.tells f = some true → s.active f) ∧
      (sig.tells f = some false → t.Answers sig f → ¬ s.active f) ∧
      (sig.tells f = some false → (∃ wid, t.suppressed_by sig wid) → t.active f → s.active f) := by
  intro s
  refine ⟨fun hnone => ?_, fun before sig after hsplit hafter => ?_⟩
  · obtain ⟨hkept, hout⟩ := run_outstanding kept_start hpaired ops hops hnone
    have hstart : ¬ ({} : Station).Outstanding f := by
      rintro (hactive | ⟨wid, hraised⟩)
      · exact absurd hactive (by simp [active])
      · obtain ⟨r, hr, -⟩ := kept_start.raised wid f hraised
        exact absurd hr List.not_mem_nil
    exact fun hactive => hstart (hout.mp ((hkept.outstanding hended).mpr hactive))
  · intro t
    subst hsplit
    obtain ⟨hbefore, hsig, hafter_meets⟩ := (Runs.meets_append ..).mp hops
    have hstep (s : Station) (op : StationOp) (hs : s.Kept) (hop : s.Orderly op) : (s.step occurrence_only op).Kept :=
      kept_step hs op hop
    have ht : t.Kept := Runs.run_invariant hstep {} before kept_start hbefore
    have hs : s = Runs.run (step occurrence_only) (t.process sig) after := Runs.run_append ..
    obtain ⟨hkept, hout⟩ := run_outstanding (kept_process ht hsig) hpaired after hafter_meets hafter
    rw [← hs] at hkept hout
    have hfinal : s.active f ↔ (t.process sig).Outstanding f := (hkept.outstanding hended).symm.trans hout
    rw [hfinal]
    refine ⟨fun htells => outstanding_raise ht hsig htells, fun htells hans => ?_, fun htells ⟨wid, hsup⟩ hactive => ?_⟩
    · exact (outstanding_clear ht htells).not_left.mpr hans
    · exact (outstanding_clear ht htells).mpr fun hans => hans.2 wid hsup hactive

/-- An alarm raised before a window, and its clear inside. -/
def late_clear : List StationOp := [
  .signal { trap := { ne_id := 1, ts := 50 }, class_id := 7, inst := "", kind := .raise },
  .create 60 false { starts_at := 100, ends_at := 700, patch_s := 0, ledger_enabled := true, targets := [1] },
  .sweep 100,
  .signal { trap := { ne_id := 1, ts := 200 }, class_id := 7, inst := "", kind := .state_clear },
  .sweep 700]

theorem late_clear_lost : ¬ ∀ (occurrence_only : Nat → Bool) (ops : List StationOp) (f : Fault),
    occurrence_only f.class_id = false → Runs.Meets (step occurrence_only) Orderly {} ops →
    (∀ r ∈ (Runs.run (step occurrence_only) {} ops).table, r.status.in_force = false) →
    ((Runs.run (step occurrence_only) {} ops).active f ↔
      (ops.filterMap (·.tells f)).getLast? = some true) := by
  intro h
  have hended : ∀ r ∈ (Runs.run (step fun _ => false) {} late_clear).table, r.status.in_force = false := by
    decide +kernel
  have hactive : (Runs.run (step fun _ => false) {} late_clear).active ⟨1, 7, ""⟩ := by decide +kernel
  have hmeets : Runs.Meets (step fun _ => false) Orderly {} late_clear :=
    ⟨orderly_signal (by decide +kernel), rfl, trivial, orderly_signal (by decide +kernel), trivial, trivial⟩
  have hlast := (h (fun _ => false) late_clear ⟨1, 7, ""⟩ rfl hmeets hended).mp hactive
  exact absurd hlast (by decide +kernel)

/-- A fault that is raised inside a window, and not cleared, is active once the window is ended. -/
theorem run_reflects_raise : (Runs.run (step fun _ => false) {} [
    .create 60 false { starts_at := 100, ends_at := 700, patch_s := 0, ledger_enabled := true, targets := [1] },
    .sweep 100,
    .signal { trap := { ne_id := 1, ts := 200 }, class_id := 7, inst := "", kind := .raise },
    .sweep 205, .end_now 300 1]).active ⟨1, 7, ""⟩ := by
  refine ((run_reflects (fun _ => false) _ _ rfl ?_ ?_).2 [_, _] _ [_, _] rfl ?_).1 ?_
  · refine ⟨rfl, trivial, orderly_signal (by decide +kernel), trivial, ?_, trivial⟩
    exact fun k hk => absurd ((surfaced_sweep _ 205).clean ▸ hk) (Finset.notMem_empty k)
  · decide +kernel
  · decide +kernel
  · decide +kernel

end Station
end NetCoreNoc.Maintenance
