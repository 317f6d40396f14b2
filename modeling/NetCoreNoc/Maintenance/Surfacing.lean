import Mathlib
import NetCoreNoc.Runs
import NetCoreNoc.Maintenance.Ledger

/-! What a window took down of the faults that it suppressed, until it surfaces: the numbering of the windows,
the record of a fault that is written and not yet written, and how often a run surfaces it. -/
namespace NetCoreNoc.Maintenance
open Writeback

namespace WindowTable
variable (table : WindowTable)

def in_force (wid : Nat) : Prop := ∃ r ∈ table, r.id = wid ∧ r.status.in_force

/-- A window that can no longer act. -/
def finished (wid : Nat) : Prop := ∃ r ∈ table, r.id = wid ∧ r.status.live = false

/-- Windows are numbered as they are created. -/
def Numbered : Prop := table.map (·.id) = List.range' 1 table.length

variable {table} {wid wid' : Nat} {now : ℚ}

theorem Numbered.unique (h : table.Numbered) {r r' : WindowRow} (hr : r ∈ table) (hr' : r' ∈ table) (hid : r.id = r'.id) :
    r = r' := by
  have hids : table.map (·.id) = _ := h
  have hnodup : (table.map (·.id)).Nodup := hids ▸ List.nodup_range'
  exact List.inj_on_of_nodup_map hnodup hr hr' hid

theorem Numbered.not_finished (h : table.Numbered) (hforce : table.in_force wid) : ¬ table.finished wid := by
  rintro ⟨r', hr', hid', hdead⟩
  obtain ⟨r, hr, hid, hlive⟩ := hforce
  obtain rfl := h.unique hr hr' (hid.trans hid'.symm)
  cases hs : r.status <;> simp [hs, Status.live, Status.in_force] at hdead hlive

theorem Numbered.found (h : table.Numbered) {r r' : WindowRow} (hr : table.find? (·.id = wid) = some r) (hr' : r' ∈ table)
    (hid : r'.id = wid) : r' = r := by
  have hrid : r.id = wid := by simpa using List.find?_some hr
  exact h.unique hr' (List.mem_of_find?_eq_some hr) (hid.trans hrid.symm)

/-- What every change of the table keeps. -/
structure Follows (table table' : WindowTable) : Prop where
  numbered : table'.Numbered
  finished : ∀ wid, table.finished wid → table'.finished wid

theorem in_force_set {f : WindowRow → WindowRow} (hforce : table.in_force wid') (hne : wid' ≠ wid) :
    (table.set wid f).in_force wid' := by
  obtain ⟨r, hr, hid, hlive⟩ := hforce
  have hother : r.id ≠ wid := hid ▸ hne
  exact ⟨r, List.mem_map.mpr ⟨r, hr, if_neg hother⟩, hid, hlive⟩

theorem follows_set (h : table.Numbered) {f : WindowRow → WindowRow} (hid : ∀ r, (f r).id = r.id)
    (hdead : ∀ r ∈ table, r.id = wid → r.status.live = false → (f r).status.live = false) :
    table.Follows (table.set wid f) := by
  have hids : (table.set wid f).map (·.id) = table.map (·.id) := by
    unfold set
    rw [List.map_map]
    refine List.map_congr_left fun r _ => ?_
    show (if r.id = wid then f r else r).id = r.id
    split
    · exact hid r
    · rfl
  refine ⟨hids.trans (h.trans (by simp [set])), ?_⟩
  rintro wid' ⟨r, hr, hrid, hfinished⟩
  refine ⟨_, List.mem_map.mpr ⟨r, hr, rfl⟩, ?_⟩
  split
  · rename_i hwid
    exact ⟨(hid r).trans hrid, hdead r hr hwid hfinished⟩
  · exact ⟨hrid, hfinished⟩

theorem Follows.trans {table₁ table₂ : WindowTable} (h₁ : table.Follows table₁) (h₂ : table₁.Follows table₂) :
    table.Follows table₂ :=
  ⟨h₂.numbered, fun wid hfinished => h₂.finished wid (h₁.finished wid hfinished)⟩

theorem follows_refl (h : table.Numbered) : table.Follows table := ⟨h, fun _ hfinished => hfinished⟩

theorem follows_create (h : table.Numbered) (body : WindowBody) (confirm : Bool) :
    table.Follows (table.create now confirm body) := by
  unfold create
  dsimp only
  split
  · refine ⟨?_, fun wid hfinished => ?_⟩
    · unfold Numbered at h ⊢
      rw [List.length_append, List.length_singleton, List.range'_concat, ← h, Nat.one_mul, Nat.add_comm]
      exact List.map_append
    · obtain ⟨r, hr, hfinished⟩ := hfinished
      exact ⟨r, List.mem_append_left _ hr, hfinished⟩
  · exact follows_refl h

theorem in_force_create {body : WindowBody} {confirm : Bool} (hforce : table.in_force wid) :
    (table.create now confirm body).in_force wid := by
  obtain ⟨r, hr, hlive⟩ := hforce
  unfold create
  dsimp only
  split
  · exact ⟨r, List.mem_append_left _ hr, hlive⟩
  · exact ⟨r, hr, hlive⟩

theorem follows_confirm (h : table.Numbered) : table.Follows (table.confirm_window wid) := by
  refine follows_set h (fun r => ?_) (fun r _ _ hdead => ?_)
  · split <;> rfl
  · split
    · rename_i hs
      exact absurd (hs ▸ hdead) (by simp [Status.live])
    · exact hdead

theorem in_force_confirm (hforce : table.in_force wid') : (table.confirm_window wid).in_force wid' := by
  obtain ⟨r, hr, hid, hlive⟩ := hforce
  have hstatus : r.status ≠ .pending_confirmation := fun hs => absurd (hs ▸ hlive) (by simp [Status.in_force])
  refine ⟨r, List.mem_map.mpr ⟨r, hr, ?_⟩, hid, hlive⟩
  dsimp only
  rw [if_neg hstatus]
  exact ite_self r

theorem follows_cancel (h : table.Numbered) : table.Follows (table.cancel_window wid) := by
  refine follows_set h (fun r => ?_) (fun r _ _ hdead => ?_)
  · split <;> rfl
  · rw [if_neg (by simp [hdead])]
    exact hdead

theorem follows_end (h : table.Numbered) : table.Follows (table.end_window_now wid) := by
  refine follows_set h (fun r => ?_) (fun r _ _ hdead => ?_)
  · split <;> rfl
  · rw [if_neg (by simp [hdead])]
    exact hdead

theorem finished_end (hlive : table.any fun r => r.id = wid && r.status.live) :
    (table.end_window_now wid).finished wid := by
  obtain ⟨r, hr, hr'⟩ := List.any_eq_true.mp hlive
  simp only [Bool.and_eq_true, decide_eq_true_eq] at hr'
  refine ⟨_, List.mem_map_of_mem hr, ?_⟩
  rw [if_pos hr'.1]
  dsimp only
  rw [if_pos hr'.2]
  exact ⟨hr'.1, rfl⟩

/-- Only a window that can still act gets another schedule. -/
theorem follows_schedule (h : table.Numbered) {r : WindowRow} (hr : table.find? (·.id = wid) = some r)
    (hlive : r.status.live) (starts_at ends_at patch_s : ℚ) (status : Status) :
    table.Follows (table.update_window_schedule wid starts_at ends_at patch_s status) := by
  refine follows_set h (fun _ => rfl) fun r' hr' hid hdead => ?_
  obtain rfl := h.found hr hr' hid
  exact absurd (hlive.symm.trans hdead) (by simp)

theorem follows_extend (h : table.Numbered) (ends_at : ℚ) : table.Follows (table.extend_window now wid ends_at) := by
  unfold extend_window
  cases hr : table.find? (·.id = wid) with
  | none => exact follows_refl h
  | some r =>
    dsimp only
    split
    · rename_i hlive
      exact follows_schedule h hr (Bool.and_eq_true_iff.mp hlive).1 ..
    · exact follows_refl h

theorem follows_update (h : table.Numbered) (body : WindowBody) : table.Follows (table.update_window now wid body) := by
  unfold update_window
  cases hr : table.find? (·.id = wid) with
  | none => exact follows_refl h
  | some r =>
    dsimp only
    split
    · rename_i hlive
      simp only [Bool.and_eq_true] at hlive
      have hschedule := follows_schedule h hr hlive.1.1.1 body.starts_at body.ends_at body.patch_s
        (restatus r (needs_confirmation body.starts_at body.ends_at) body.starts_at now body.ends_at)
      exact hschedule.trans (follows_set hschedule.numbered (fun _ => rfl) fun _ _ _ hdead => hdead)
    · exact follows_refl h

theorem in_force_schedule (hforce : table.in_force wid') (hne : wid' ≠ wid) {starts_at ends_at patch_s : ℚ}
    {status : Status} : (table.update_window_schedule wid starts_at ends_at patch_s status).in_force wid' :=
  in_force_set hforce hne

theorem in_force_extend {ends_at : ℚ} (hforce : table.in_force wid') (hne : wid' ≠ wid) :
    (table.extend_window now wid ends_at).in_force wid' := by
  unfold extend_window
  cases table.find? (·.id = wid) with
  | none => exact hforce
  | some r =>
    dsimp only
    split
    · exact in_force_schedule hforce hne
    · exact hforce

theorem in_force_update {body : WindowBody} (hforce : table.in_force wid') (hne : wid' ≠ wid) :
    (table.update_window now wid body).in_force wid' := by
  unfold update_window
  cases table.find? (·.id = wid) with
  | none => exact hforce
  | some r =>
    dsimp only
    split
    · exact in_force_set (in_force_schedule hforce hne) hne
    · exact hforce

/-- The clock changes the status of a window and nothing else: one whose end has come is over. -/
theorem advance_map (table : WindowTable) (now : ℚ) : ∃ f : WindowRow → WindowRow,
    table.advance_statuses now = table.map f ∧ ∀ r : WindowRow, (f r).id = r.id ∧
      (f r).ledger_enabled = r.ledger_enabled ∧
      ((f r).status.in_force ↔ r.status.in_force ∧ ¬ r.effective_ends_at ≤ now) ∧
      (r.status.live = false ∨ (r.status.in_force ∧ r.effective_ends_at ≤ now) → (f r).status.live = false) := by
  refine ⟨_, (congrArg _ List.map_map).trans List.map_map, fun r => ?_⟩
  obtain ⟨id, status, starts_at, ends_at, patch_s, ledger_enabled, confirmed, targets, rules⟩ := r
  simp only [Function.comp_apply, WindowRow.effective_starts_at, WindowRow.effective_ends_at]
  cases status <;> simp only [Status.in_force, Status.live] <;> split_ifs <;> simp_all

theorem follows_advance (h : table.Numbered) : table.Follows (table.advance_statuses now) := by
  obtain ⟨f, hmap, hf⟩ := advance_map table now
  rw [hmap]
  refine ⟨?_, fun wid hfinished => ?_⟩
  · unfold Numbered at h ⊢
    rw [List.map_map, List.length_map, ← h]
    exact List.map_congr_left fun r _ => (hf r).1
  · obtain ⟨r, hr, hid, hdead⟩ := hfinished
    exact ⟨f r, List.mem_map_of_mem hr, (hf r).1.trans hid, (hf r).2.2.2 (.inl hdead)⟩

/-- A window in force that the clock does not end stays in force. -/
theorem in_force_advance (hforce : table.in_force wid) (hends : wid ∉ table.just_ended now) :
    (table.advance_statuses now).in_force wid := by
  obtain ⟨f, hmap, hf⟩ := advance_map table now
  obtain ⟨r, hr, rfl, hlive⟩ := hforce
  rw [hmap]
  refine ⟨f r, List.mem_map_of_mem hr, (hf r).1, (hf r).2.2.1.mpr ⟨hlive, fun hend => hends ?_⟩⟩
  exact List.mem_map_of_mem (List.mem_filter.mpr ⟨hr, by simp [hlive, hend]⟩)

theorem finished_advance (hends : wid ∈ table.just_ended now) : (table.advance_statuses now).finished wid := by
  obtain ⟨f, hmap, hf⟩ := advance_map table now
  obtain ⟨r, hr, rfl⟩ := List.mem_map.mp hends
  obtain ⟨hr, hend⟩ := List.mem_filter.mp hr
  rw [hmap]
  refine ⟨f r, List.mem_map_of_mem hr, (hf r).1, (hf r).2.2.2 (.inr ?_)⟩
  simpa using hend

end WindowTable

/-- What a trap says of a fault: that it is raised, or that it is over. A clear of a pair ends what its own
class raised as well. -/
def Signal.tells (sig : Signal) (f : Fault) : Option Bool := match sig.kind with
  | .raise => if sig.own = f then some true else none
  | .pair_clear _ => if sig.fault = f ∨ sig.own = f then some false else none
  | .state_clear => if sig.own = f then some false else none

def StationOp.tells (f : Fault) : StationOp → Option Bool
  | .signal sig => sig.tells f
  | _ => none

/-- A trap that is no raise clears its fault. -/
theorem Signal.tells_fault {sig : Signal} (hkind : sig.kind ≠ .raise) : sig.tells sig.fault = some false := by
  unfold tells fault
  cases h : sig.kind with
  | raise => exact absurd h hkind
  | pair_clear raise_class => simp
  | state_clear => simp

namespace Station
variable (s : Station)

/-- The ledger of a window has a fault raised and not cleared. -/
def raised (wid : Nat) (f : Fault) : Bool := (s.record (wid, f)).any (·.unresolved)

def suppressed_by (sig : Signal) (wid : Nat) : Prop :=
  s.index.decide sig.trap = { collect := false, window_id := some wid }

/-- A window without a ledger takes nothing down of what it suppresses. -/
def discards (sig : Signal) (wid : Nat) : Bool :=
  ((s.index.by_ne sig.trap.ne_id).find? (·.window_id = wid)).any fun w => !w.ledger_enabled

/-- Only what a finished window took down has surfaced. -/
structure Marked : Prop where
  table : s.table.Numbered
  held : ∀ k e, s.ledger.held.get k = some e → e.surfaced_at = none
  surfaced : ∀ k e, s.rows.get k = some e → e.surfaced_at.isSome → s.table.finished k.1

variable {s} {wid : Nat} {f : Fault} {now : ℚ} {sig : Signal} {k : LedgerKey}

theorem record_clean (hk : k ∉ s.ledger.dirty) : s.record k = s.rows.get k :=
  Entries.merge_none (Table.rows_clean hk)

variable {e : LedgerEntry}

theorem record_put :
    ({ s with ledger := s.ledger.put k e } : Station).record k = some ((s.rows.get k).elim e e.coalesce) :=
  Entries.merge_some Table.rows_put

theorem record_put_ne {k k' : LedgerKey} (hne : k' ≠ k) :
    ({ s with ledger := s.ledger.put k e } : Station).record k' = s.record k' := by
  have hrows : ((s.ledger.put k e).rows id).get k' = (s.ledger.rows id).get k' := Table.rows_put_ne hne
  show (s.rows.merge _ _).get k' = (s.rows.merge _ _).get k'
  cases hk : (s.ledger.rows id).get k' with
  | none => rw [Entries.merge_none hk, Entries.merge_none (hrows.trans hk)]
  | some v => rw [Entries.merge_some hk, Entries.merge_some (hrows.trans hk)]

theorem Marked.record_surfaced (h : s.Marked) (hk : s.record k = some e)
    (hsome : e.surfaced_at.isSome) : s.table.finished k.1 := by
  cases hrow : (s.ledger.rows id).get k with
  | none => exact h.surfaced k e ((Entries.merge_none hrow).symm.trans hk) hsome
  | some v =>
    have hnone : v.surfaced_at = none := h.held k v (by simpa using Table.rows_held hrow)
    have he : some ((s.rows.get k).elim v v.coalesce) = some e := (Entries.merge_some hrow).symm.trans hk
    obtain rfl := Option.some.inj he
    cases hold : s.rows.get k with
    | none => simp [hold, hnone] at hsome
    | some old =>
      rw [hold] at hsome
      have hsome : (v.surfaced_at.or old.surfaced_at).isSome := hsome
      rw [hnone, Option.none_or] at hsome
      exact h.surfaced k old hold hsome

/-- A raise that a window takes down stands in its record. -/
theorem raised_observe_raise (h : s.Marked) (hforce : s.table.in_force wid) (ts : ℚ) :
    ({ s with ledger := s.ledger.observe_raise (wid, f) ts } : Station).raised wid f := by
  have hold : ∀ old, s.rows.get (wid, f) = some old → old.surfaced_at = none := by
    intro old hget
    cases hsome : old.surfaced_at with
    | none => rfl
    | some ts => exact absurd (h.surfaced _ old hget (hsome ▸ rfl)) (h.table.not_finished hforce)
  have hentry : ∀ e : LedgerEntry, e.raised_at.isSome → e.cleared_at = none → e.surfaced_at = none →
      ((s.rows.get (wid, f)).elim e e.coalesce).unresolved := by
    intro e hraised hcleared hsurfaced
    cases hget : s.rows.get (wid, f) with
    | none => simp [LedgerEntry.unresolved, hraised, hcleared, hsurfaced]
    | some old => simp [LedgerEntry.unresolved, LedgerEntry.coalesce, hraised, hcleared, hsurfaced, hold old hget]
  unfold StateLedger.observe_raise raised
  rw [record_put]
  refine hentry _ ?_ ?_ ?_ <;> split
  · rfl
  · rename_i hkeep
    simp only [Bool.or_eq_true, not_or, Option.isNone_iff_eq_none, Option.isSome_iff_ne_none] at hkeep ⊢
    exact hkeep.1
  · rfl
  · rename_i hkeep
    simp only [Bool.or_eq_true, not_or, Option.not_isSome_iff_eq_none] at hkeep
    exact hkeep.2
  · rfl
  · cases hget : s.ledger.held.get (wid, f) with
    | none => rfl
    | some e => exact h.held _ e hget

theorem raised_observe_clear (ts : ℚ) :
    ({ s with ledger := s.ledger.observe_clear (wid, f) ts } : Station).raised wid f = false := by
  unfold StateLedger.observe_clear raised
  rw [record_put]
  cases s.rows.get (wid, f) <;> simp [LedgerEntry.unresolved, LedgerEntry.coalesce]

/-- What surfacing windows one after the other comes to. -/
structure Surfaced (s t : Station) (wids : List Nat) (now : ℚ) : Prop where
  table : t.table = s.table
  index : t.index = s.index
  clean : t.ledger.dirty = ∅
  held : ∀ k e, t.ledger.held.get k = some e → s.ledger.held.get k = some e
  active : ∀ f, t.active f ↔ s.active f ∨ ∃ wid ∈ wids, s.unresolved wid f
  rows : ∀ k, t.rows.get k = (s.rows.get k).map fun e =>
    if k.1 ∈ wids ∧ e.unresolved then { e with surfaced_at := some now } else e

theorem active_surface (now : ℚ) : (s.surface now wid).active f = (s.active f || s.unresolved wid f) := by
  show Option.any _ (if _ then _ else _) = _
  cases ha : s.active f <;> cases hu : s.unresolved wid f
  · exact ha
  · rfl
  · exact ha
  · exact ha

theorem unresolved_marked (e : LedgerEntry) (now : ℚ) :
    ({ e with surfaced_at := some now } : LedgerEntry).unresolved = false := Bool.and_false _

/-- What surfaces is marked, so it is read once. -/
theorem unresolved_surface {wid' : Nat} :
    (s.surface now wid).unresolved wid' f = (decide (wid' ≠ wid) && s.unresolved wid' f) := by
  unfold unresolved surface
  show ((s.rows.get (wid', f)).map _).any _ = _
  cases s.rows.get (wid', f) with
  | none => simp
  | some e =>
    simp only [Option.map_some, Option.any_some]
    rcases eq_or_ne wid' wid with rfl | hne
    · cases he : e.unresolved <;> simp [he, unresolved_marked]
    · simp [hne]

theorem surfaced_all (wids : List Nat) (hclean : s.ledger.dirty = ∅) :
    s.Surfaced (wids.foldl (fun s wid => (s.surface now wid).forget wid) s) wids now := by
  induction wids generalizing s with
  | nil =>
    refine ⟨rfl, rfl, hclean, fun _ _ hk => hk, fun f => by simp, fun k => ?_⟩
    simp
  | cons wid wids ih =>
    have hforgotten : ((s.surface now wid).forget wid).ledger.dirty = ∅ := by
      show s.ledger.dirty.filter _ = ∅
      rw [hclean]
      rfl
    have hrows : ∀ k, ((s.surface now wid).forget wid).rows.get k = (s.rows.get k).map fun e =>
        if k.1 = wid && e.unresolved then { e with surfaced_at := some now } else e := fun _ => rfl
    obtain ⟨htable, hindex, hclean', hheld, hactive, hall⟩ := ih hforgotten
    refine ⟨htable, hindex, hclean', fun k e hk => ?_, fun f => ?_, fun k => ?_⟩
    · have hkept : (s.ledger.held.filter _).get k = some e := hheld k e hk
      exact (Option.filter_eq_some_iff.mp hkept).1
    · have hfirst : ((s.surface now wid).forget wid).active f = (s.active f || s.unresolved wid f) :=
        active_surface now
      have hothers : ∀ wid', ((s.surface now wid).forget wid).unresolved wid' f =
          (decide (wid' ≠ wid) && s.unresolved wid' f) := fun _ => unresolved_surface
      refine (hactive f).trans ?_
      rw [hfirst, Bool.or_eq_true, or_assoc]
      refine or_congr_right ⟨?_, ?_⟩
      · rintro (hu | ⟨wid', hmem, hu⟩)
        · exact ⟨wid, List.mem_cons_self, hu⟩
        · rw [hothers, Bool.and_eq_true] at hu
          exact ⟨wid', List.mem_cons_of_mem _ hmem, hu.2⟩
      · rintro ⟨wid', hmem, hu⟩
        rcases eq_or_ne wid' wid with rfl | hne
        · exact .inl hu
        · have hmem := (List.mem_cons.mp hmem).resolve_left hne
          exact .inr ⟨wid', hmem, by rw [hothers, decide_eq_true hne, hu]; rfl⟩
    · refine (hall k).trans ?_
      rw [hrows, Option.map_map]
      refine congrArg (Option.map · _) (funext fun e => ?_)
      rcases eq_or_ne k.1 wid with rfl | hne
      · cases he : e.unresolved <;> simp [he, unresolved_marked]
      · simp [hne]

theorem surfaced_sweep (s : Station) (now : ℚ) :
    ({ s with table := s.table.advance_statuses now } : Station).flush.Surfaced
      { s.sweep now with index := s.index } (s.table.just_ended now) now := by
  obtain ⟨htable, hindex, hclean, hheld, hactive, hrows⟩ :=
    surfaced_all (s := ({ s with table := s.table.advance_statuses now } : Station).flush)
      (s.table.just_ended now) rfl
  exact ⟨htable, rfl, hclean, hheld, hactive, hrows⟩

/-- After a sweep a window has raised what it had before, unless the window has ended. -/
theorem raised_sweep : (s.sweep now).raised wid f = (decide (wid ∉ s.table.just_ended now) && s.raised wid f) := by
  have hswept := surfaced_sweep s now
  have hrecord : (s.sweep now).record (wid, f) = (s.sweep now).rows.get (wid, f) :=
    record_clean (hswept.clean ▸ Finset.notMem_empty _)
  have hrows : (s.sweep now).rows.get (wid, f) = (s.record (wid, f)).map _ := hswept.rows (wid, f)
  unfold raised
  rw [hrecord, hrows]
  cases s.record (wid, f) with
  | none => simp
  | some e =>
    by_cases hended : wid ∈ s.table.just_ended now
    · cases he : e.unresolved <;> simp [hended, he, unresolved_marked]
    · simp [hended]

theorem active_sweep : (s.sweep now).active f ↔ s.active f ∨ ∃ wid ∈ s.table.just_ended now, s.raised wid f :=
  (surfaced_sweep s now).active f

theorem rows_forget (hk : k.1 ≠ wid) :
    ((s.ledger.forget_window wid).rows id).get k = (s.ledger.rows id).get k := by
  have hdirty : k ∈ (s.ledger.forget_window wid).dirty ↔ k ∈ s.ledger.dirty := by
    simp [StateLedger.forget_window, hk]
  have hheld : (s.ledger.forget_window wid).held.get k = s.ledger.held.get k := by
    show (s.ledger.held.get k).filter _ = _
    cases s.ledger.held.get k <;> simp [hk]
  show (if _ then _ else none) = if _ then _ else none
  simp only [hdirty, hheld]

theorem record_forget {t : Station} (hk : k.1 ≠ wid) (hledger : t.ledger = s.ledger.forget_window wid)
    (hrows : t.rows.get k = s.rows.get k) : t.record k = s.record k := by
  have hwritten : (t.ledger.rows id).get k = (s.ledger.rows id).get k := hledger ▸ rows_forget hk
  show (t.rows.merge _ _).get k = (s.rows.merge _ _).get k
  cases hrow : (s.ledger.rows id).get k with
  | none => rw [Entries.merge_none hrow, Entries.merge_none (hwritten.trans hrow), hrows]
  | some e => rw [Entries.merge_some hrow, Entries.merge_some (hwritten.trans hrow), hrows]

/-- *End now* surfaces the rows of the window that are written, and forgets the rest. -/
theorem end_now_eq (hlive : s.table.any fun r => r.id = wid && r.status.live) : s.end_now now wid =
    ({ s with table := s.table.end_window_now wid }.surface now wid).forget wid := if_pos hlive

theorem active_end_now (hlive : s.table.any fun r => r.id = wid && r.status.live) :
    (s.end_now now wid).active f = (s.active f || s.unresolved wid f) := by
  rw [end_now_eq hlive]
  exact active_surface now

theorem rows_end_now (hlive : s.table.any fun r => r.id = wid && r.status.live) (k : LedgerKey) :
    (s.end_now now wid).rows.get k = (s.rows.get k).map fun e =>
      if k.1 = wid && e.unresolved then { e with surfaced_at := some now } else e := by
  rw [end_now_eq hlive]
  rfl

theorem record_end_now (hk : k.1 ≠ wid) : (s.end_now now wid).record k = s.record k := by
  by_cases hlive : s.table.any fun r => r.id = wid && r.status.live
  · have hsame : (s.end_now now wid).rows.get k = s.rows.get k := by
      rw [rows_end_now hlive]
      simp [hk]
    exact record_forget hk (by rw [end_now_eq hlive]; rfl) hsame
  · exact congrArg (record · k) (if_neg hlive)

theorem raised_end_now (hlive : s.table.any fun r => r.id = wid && r.status.live) :
    (s.end_now now wid).raised wid f = false := by
  have hclean : (wid, f) ∉ (s.end_now now wid).ledger.dirty := by
    rw [end_now_eq hlive]
    exact fun hmem => (Finset.mem_filter.mp hmem).2 rfl
  have hmarked : (({ s with table := s.table.end_window_now wid }.surface now wid).forget wid).unresolved wid f = _ :=
    unresolved_surface
  unfold raised
  rw [record_clean hclean, end_now_eq hlive]
  exact hmarked.trans (by simp)

/-- A sweep that fails leaves the record of what was written before it. -/
theorem record_sweep_fails {failure : SweepFailure} (hk : failure = .early ∨ k ∉ s.ledger.dirty) :
    (s.sweep_fails now failure).record k = s.record k := by
  have hforget (wids : List Nat) : (wids.foldl StateLedger.forget_window s.ledger.clean).dirty = ∅ := by
    induction wids using List.reverseRecOn with
    | nil => rfl
    | append_singleton wids wid ih =>
      rw [List.foldl_append]
      show Finset.filter _ _ = ∅
      rw [ih]
      rfl
  rcases hk with rfl | hk
  · rfl
  · rw [record_clean hk]
    cases failure with
    | early => exact record_clean hk
    | flush => exact record_clean (Finset.notMem_empty k)
    | surfaced windows => exact record_clean (hforget _ ▸ Finset.notMem_empty k)
    | rebuilt => exact record_clean (hforget _ ▸ Finset.notMem_empty k)

theorem process_discarded (hsup : s.suppressed_by sig wid) (hdiscards : s.discards sig wid) : s.process sig = s := by
  unfold process
  rw [hsup]
  exact if_pos hdiscards

/-- A suppressed trap reaches the ledger of the window, and nothing else. -/
theorem process_suppressed (hsup : s.suppressed_by sig wid) (hkeeps : s.discards sig wid = false) :
    (sig.kind = .raise ∧ s.process sig = { s with ledger := s.ledger.observe_raise (wid, sig.fault) sig.trap.ts }) ∨
    (sig.kind ≠ .raise ∧ s.process sig = { s with ledger := s.ledger.observe_clear (wid, sig.fault) sig.trap.ts }) := by
  have hprocess : s.process sig = s.observe_suppressed wid sig := by
    unfold process
    rw [hsup]
  have hkept : ¬ s.discards sig wid = true := by simp [hkeeps]
  unfold discards at hkept
  rw [hprocess]
  unfold observe_suppressed
  dsimp only
  rw [if_neg hkept]
  cases sig.kind <;> simp

theorem process_collected (hcollect : ∀ wid, ¬ s.suppressed_by sig wid) : s.process sig = s.collect sig := by
  unfold process
  split
  · rename_i wid hdecide
    exact absurd hdecide (hcollect wid)
  · rfl

/-- A trap that is collected changes alarms only. -/
theorem collect_frame : (s.collect sig).table = s.table ∧ (s.collect sig).index = s.index ∧
    (s.collect sig).ledger = s.ledger ∧ (s.collect sig).rows = s.rows := by
  unfold collect
  cases sig.kind <;> exact ⟨rfl, rfl, rfl, rfl⟩

theorem raised_frame {t : Station} (hledger : t.ledger = s.ledger) (hrows : t.rows = s.rows) :
    t.raised wid f = s.raised wid f := by
  unfold raised record flush
  rw [hledger, hrows]

theorem Marked.entry (h : s.Marked) (k : LedgerKey) : ((s.ledger.held.get k).getD {}).surfaced_at = none := by
  cases hk : s.ledger.held.get k with
  | none => rfl
  | some e => exact h.held k e hk

theorem Marked.observe (h : s.Marked) (he : e.surfaced_at = none) :
    ({ s with ledger := s.ledger.put (wid, f) e } : Station).Marked := by
  refine ⟨h.table, fun k e' hk => ?_, h.surfaced⟩
  rcases eq_or_ne k (wid, f) with rfl | hne
  · obtain rfl : e = e' := Option.some.inj ((Entries.get_set e).symm.trans hk)
    exact he
  · exact h.held k e' ((Entries.get_set_ne hne e).symm.trans hk)

theorem Marked.edit (h : s.Marked) {table : WindowTable} (hfollows : s.table.Follows table) :
    ({ s with table := table } : Station).Marked :=
  ⟨hfollows.numbered, h.held, fun k e hk hsome => hfollows.finished _ (h.surfaced k e hk hsome)⟩

/-- Alarms and the index do not matter to what is marked. -/
theorem Marked.frame (h : s.Marked) {t : Station} (htable : t.table = s.table)
    (hheld : ∀ k e, t.ledger.held.get k = some e → s.ledger.held.get k = some e) (hrows : t.rows = s.rows) : t.Marked :=
  ⟨htable ▸ h.table, fun k e hk => h.held k e (hheld k e hk), fun k e hk hsome =>
    htable ▸ h.surfaced k e (hrows ▸ hk) hsome⟩

theorem marked_process (h : s.Marked) (sig : Signal) : (s.process sig).Marked := by
  by_cases hsup : ∃ wid, s.suppressed_by sig wid
  · obtain ⟨wid, hsup⟩ := hsup
    cases hkeeps : s.discards sig wid with
    | true => exact (process_discarded hsup hkeeps).symm ▸ h
    | false =>
      have hentry := h.entry (wid, sig.fault)
      rcases process_suppressed hsup hkeeps with ⟨-, hprocess⟩ | ⟨-, hprocess⟩
      · rw [hprocess]
        refine h.observe ?_
        split
        · rfl
        · exact hentry
      · rw [hprocess]
        exact h.observe hentry
  · rw [process_collected (not_exists.mp hsup)]
    obtain ⟨htable, -, hledger, hrows⟩ : (s.collect sig).table = s.table ∧ _ ∧ _ ∧ _ := collect_frame
    exact h.frame htable (fun k e hk => hledger ▸ hk) hrows

theorem marked_sweep (h : s.Marked) : (s.sweep now).Marked := by
  have hswept := surfaced_sweep s now
  have htable : (s.sweep now).table = s.table.advance_statuses now := hswept.table
  have hfollows : s.table.Follows (s.table.advance_statuses now) := WindowTable.follows_advance h.table
  refine ⟨htable ▸ hfollows.numbered, fun k e hk => h.held k e (hswept.held k e hk), fun k e hk hsome => ?_⟩
  have hk : (s.record k).map _ = some e := (hswept.rows k).symm.trans hk
  obtain ⟨e₀, hrecord, rfl⟩ := Option.map_eq_some_iff.mp hk
  rw [htable]
  by_cases hended : k.1 ∈ s.table.just_ended now
  · exact WindowTable.finished_advance hended
  · rw [if_neg fun hboth => hended hboth.1] at hsome
    exact hfollows.finished _ (h.record_surfaced hrecord hsome)

theorem marked_end_now (h : s.Marked) : (s.end_now now wid).Marked := by
  by_cases hlive : s.table.any fun r => r.id = wid && r.status.live
  · have hfollows : s.table.Follows (s.table.end_window_now wid) := WindowTable.follows_end h.table
    have htable : (s.end_now now wid).table = s.table.end_window_now wid := by
      rw [end_now_eq hlive]
      rfl
    refine ⟨htable ▸ hfollows.numbered, fun k e hk => ?_, fun k e hk hsome => ?_⟩
    · rw [end_now_eq hlive] at hk
      exact h.held k e (Option.filter_eq_some_iff.mp hk).1
    · rw [rows_end_now hlive] at hk
      obtain ⟨e₀, hget, rfl⟩ := Option.map_eq_some_iff.mp hk
      rw [htable]
      by_cases hwid : k.1 = wid
      · rw [hwid]
        exact WindowTable.finished_end hlive
      · rw [decide_eq_false hwid] at hsome
        exact hfollows.finished _ (h.surfaced k e₀ hget hsome)
  · have hsame : s.end_now now wid = s := if_neg hlive
    rw [hsame]
    exact h

theorem held_forget {wids : List Nat} {l : StateLedger}
    (hk : (wids.foldl StateLedger.forget_window l).held.get k = some e) : l.held.get k = some e := by
  induction wids generalizing l with
  | nil => exact hk
  | cons wid wids ih => exact (Option.filter_eq_some_iff.mp (ih hk)).1

variable {occurrence_only : Nat → Bool}

theorem marked_step (h : s.Marked) (op : StationOp) : (s.step occurrence_only op).Marked := by
  cases op with
  | signal sig => exact marked_process h sig
  | create now confirm body => exact h.edit (WindowTable.follows_create h.table body confirm)
  | confirm wid => exact h.edit (WindowTable.follows_confirm h.table)
  | cancel wid => exact h.edit (WindowTable.follows_cancel h.table)
  | end_now now wid => exact marked_end_now h
  | extend now wid ends_at => exact h.edit (WindowTable.follows_extend h.table ends_at)
  | update now wid body => exact h.edit (WindowTable.follows_update h.table body)
  | sweep now => exact marked_sweep h
  | sweep_fails now failure =>
    cases failure with
    | early => exact h
    | flush => exact h.frame rfl (fun _ _ hk => hk) rfl
    | surfaced windows => exact h.frame rfl (fun _ _ hk => held_forget (l := s.ledger.clean) hk) rfl
    | rebuilt => exact h.frame rfl (fun _ _ hk => held_forget (l := s.ledger.clean) hk) rfl
  | end_occurrence f =>
    show (if occurrence_only f.class_id then s.clear_alarm f else s).Marked
    split
    · exact h.frame rfl (fun _ _ hk => hk) rfl
    · exact h
  | restart => exact h.frame rfl (fun _ _ hk => absurd hk (Option.some_ne_none _).symm) rfl

theorem marked_start : ({} : Station).Marked :=
  ⟨rfl, fun _ _ hk => absurd hk (Option.some_ne_none _).symm, fun _ _ hk => absurd hk (Option.some_ne_none _).symm⟩

theorem marked_run (ops : List StationOp) : (Runs.run (step occurrence_only) {} ops).Marked := by
  induction ops using List.reverseRecOn with
  | nil => exact marked_start
  | append_singleton ops op ih =>
    rw [Runs.run_append]
    exact marked_step ih op

theorem process_table (sig : Signal) : (s.process sig).table = s.table := by
  by_cases hsup : ∃ wid, s.suppressed_by sig wid
  · obtain ⟨wid, hsup⟩ := hsup
    cases hkeeps : s.discards sig wid with
    | true => rw [process_discarded hsup hkeeps]
    | false => rcases process_suppressed hsup hkeeps with ⟨-, hprocess⟩ | ⟨-, hprocess⟩ <;> rw [hprocess]
  · rw [process_collected (not_exists.mp hsup)]
    exact collect_frame.1

theorem follows_step (h : s.table.Numbered) (op : StationOp) : s.table.Follows (s.step occurrence_only op).table := by
  cases op with
  | signal sig =>
    show s.table.Follows (s.process sig).table
    rw [process_table]
    exact WindowTable.follows_refl h
  | create now confirm body => exact WindowTable.follows_create h body confirm
  | confirm => exact WindowTable.follows_confirm h
  | cancel => exact WindowTable.follows_cancel h
  | end_now now wid =>
    show s.table.Follows (s.end_now now wid).table
    by_cases hlive : s.table.any fun r => r.id = wid && r.status.live
    · rw [end_now_eq hlive]
      exact WindowTable.follows_end h
    · have hsame : s.end_now now wid = s := if_neg hlive
      rw [hsame]
      exact WindowTable.follows_refl h
  | extend now wid ends_at => exact WindowTable.follows_extend h ends_at
  | update now wid body => exact WindowTable.follows_update h body
  | sweep now =>
    have htable : (s.sweep now).table = s.table.advance_statuses now := (surfaced_sweep s now).table
    exact htable ▸ WindowTable.follows_advance h
  | sweep_fails now failure => cases failure <;> exact WindowTable.follows_refl h
  | end_occurrence f =>
    show s.table.Follows (if occurrence_only f.class_id then s.clear_alarm f else s).table
    split <;> exact WindowTable.follows_refl h
  | restart => exact WindowTable.follows_refl h

/-- A step surfaces a fault of a window where it reads the fault unresolved among the rows of the window. -/
def surfaces (s : Station) (wid : Nat) (f : Fault) : StationOp → Bool
  | .sweep now => wid ∈ s.table.just_ended now && s.raised wid f
  | .end_now _ wid' => wid' = wid && (s.table.any fun r => r.id = wid && r.status.live) && s.unresolved wid f
  | _ => false

/-- How often a run surfaces a fault of a window. -/
def surfacings (occurrence_only : Nat → Bool) (wid : Nat) (f : Fault) : Station → List StationOp → Nat
  | _, [] => 0
  | s, op :: ops => (s.surfaces wid f op).toNat + surfacings occurrence_only wid f (s.step occurrence_only op) ops

theorem surfacings_append (s : Station) (ops ops' : List StationOp) :
    surfacings occurrence_only wid f s (ops ++ ops') = surfacings occurrence_only wid f s ops +
      surfacings occurrence_only wid f (Runs.run (step occurrence_only) s ops) ops' := by
  induction ops generalizing s with
  | nil => exact (Nat.zero_add _).symm
  | cons op ops ih =>
    show _ + surfacings _ _ _ _ (ops ++ ops') = _
    rw [ih, ← Nat.add_assoc]
    rfl

theorem active_surfaces {op : StationOp} (hsurfaces : s.surfaces wid f op) : (s.step occurrence_only op).active f := by
  cases op with
  | sweep now =>
    obtain ⟨hended, hraised⟩ := Bool.and_eq_true_iff.mp hsurfaces
    exact active_sweep.mpr (.inr ⟨wid, by simpa using hended, hraised⟩)
  | end_now now wid' =>
    obtain ⟨hlive, hunresolved⟩ := Bool.and_eq_true_iff.mp hsurfaces
    obtain ⟨hwid, hlive⟩ := Bool.and_eq_true_iff.mp hlive
    obtain rfl : wid' = wid := by simpa using hwid
    show (s.end_now now wid').active f
    rw [active_end_now hlive, hunresolved, Bool.or_true]
  | _ => exact absurd hsurfaces (by simp [surfaces])

/-- What surfaces is over. -/
theorem finished_surfaces {op : StationOp} (hsurfaces : s.surfaces wid f op) :
    (s.step occurrence_only op).table.finished wid := by
  cases op with
  | sweep now =>
    obtain ⟨hended, -⟩ := Bool.and_eq_true_iff.mp hsurfaces
    have htable : (s.sweep now).table = s.table.advance_statuses now := (surfaced_sweep s now).table
    show (s.sweep now).table.finished wid
    rw [htable]
    exact WindowTable.finished_advance (by simpa using hended)
  | end_now now wid' =>
    obtain ⟨hlive, -⟩ := Bool.and_eq_true_iff.mp hsurfaces
    obtain ⟨hwid, hlive⟩ := Bool.and_eq_true_iff.mp hlive
    obtain rfl : wid' = wid := by simpa using hwid
    show (s.end_now now wid').table.finished wid'
    rw [end_now_eq hlive]
    exact WindowTable.finished_end hlive
  | _ => exact absurd hsurfaces (by simp [surfaces])

/-- A window that is over surfaces nothing more. -/
theorem surfaces_finished (h : s.table.Numbered) (hfinished : s.table.finished wid) (op : StationOp) :
    s.surfaces wid f op = false := by
  obtain ⟨r', hr', hid', hdead⟩ := hfinished
  cases op with
  | sweep now =>
    have hended : wid ∉ s.table.just_ended now := by
      intro hended
      obtain ⟨r, hr, hid⟩ := List.mem_map.mp hended
      obtain ⟨hr, hforce⟩ := List.mem_filter.mp hr
      rw [Bool.and_eq_true] at hforce
      exact h.not_finished ⟨r, hr, hid, hforce.1⟩ ⟨r', hr', hid', hdead⟩
    simp [surfaces, hended]
  | end_now now wid' =>
    have hlive : (s.table.any fun r => r.id = wid && r.status.live) = false := by
      refine Bool.eq_false_iff.mpr fun hlive => ?_
      obtain ⟨r, hr, hlive⟩ := List.any_eq_true.mp hlive
      simp only [Bool.and_eq_true, decide_eq_true_eq] at hlive
      obtain rfl := h.unique hr hr' (hlive.1.trans hid'.symm)
      exact absurd (hlive.2.symm.trans hdead) (by simp)
    simp [surfaces, hlive]
  | _ => rfl

theorem finished_run (h : s.table.Numbered) (hfinished : s.table.finished wid) (ops : List StationOp) :
    (Runs.run (step occurrence_only) s ops).table.finished wid := by
  induction ops generalizing s with
  | nil => exact hfinished
  | cons op ops ih =>
    have hfollows : s.table.Follows (s.step occurrence_only op).table := follows_step h op
    exact ih hfollows.numbered (hfollows.finished wid hfinished)

theorem surfacings_finished (h : s.table.Numbered) (hfinished : s.table.finished wid) (ops : List StationOp) :
    surfacings occurrence_only wid f s ops = 0 := by
  induction ops generalizing s with
  | nil => rfl
  | cons op ops ih =>
    have hfollows : s.table.Follows (s.step occurrence_only op).table := follows_step h op
    show (s.surfaces wid f op).toNat + _ = 0
    rw [surfaces_finished h hfinished, ih hfollows.numbered (hfollows.finished wid hfinished)]
    rfl

/-- A run that leaves a window unfinished has surfaced nothing of it. -/
theorem surfacings_unfinished (h : s.table.Numbered) (ops : List StationOp)
    (hopen : ¬ (Runs.run (step occurrence_only) s ops).table.finished wid) :
    surfacings occurrence_only wid f s ops = 0 ∧ ¬ s.table.finished wid := by
  induction ops generalizing s with
  | nil => exact ⟨rfl, hopen⟩
  | cons op ops ih =>
    have hfollows : s.table.Follows (s.step occurrence_only op).table := follows_step h op
    obtain ⟨hrest, hnext⟩ := ih hfollows.numbered hopen
    refine ⟨?_, fun hfinished => hnext (hfollows.finished wid hfinished)⟩
    show (s.surfaces wid f op).toNat + _ = 0
    cases hsurfaces : s.surfaces wid f op with
    | true => exact absurd (finished_surfaces hsurfaces) hnext
    | false => exact (Nat.zero_add _).trans hrest

/-- What is raised stays raised, but for a clear. -/
theorem raised_process (h : s.Marked) (hforce : s.table.in_force wid) (hraised : s.raised wid f)
    (htells : sig.tells f ≠ some false) : (s.process sig).raised wid f := by
  by_cases hsup : ∃ wid, s.suppressed_by sig wid
  · obtain ⟨wid', hsup⟩ := hsup
    cases hkeeps : s.discards sig wid' with
    | true => exact (process_discarded hsup hkeeps).symm ▸ hraised
    | false =>
      rcases process_suppressed hsup hkeeps with ⟨-, hprocess⟩ | ⟨hkind, hprocess⟩
      · rw [hprocess]
        rcases eq_or_ne (wid, f) (wid', sig.fault) with heq | hne
        · obtain ⟨rfl, rfl⟩ := Prod.mk.inj heq
          exact raised_observe_raise h hforce _
        · exact (congrArg _ (record_put_ne hne)).trans hraised
      · rw [hprocess]
        rcases eq_or_ne (wid, f) (wid', sig.fault) with heq | hne
        · obtain ⟨-, rfl⟩ := Prod.mk.inj heq
          exact absurd (Signal.tells_fault hkind) htells
        · exact (congrArg _ (record_put_ne hne)).trans hraised
  · rw [process_collected (not_exists.mp hsup)]
    obtain ⟨-, -, hledger, hrows⟩ : _ ∧ _ ∧ (s.collect sig).ledger = s.ledger ∧ _ := collect_frame
    exact (raised_frame hledger hrows).trans hraised

/-- A step takes nothing from what a window in force took down of a fault: the engine stops, a sweep fails and
*End now* surfaces only what is written, and the window stays in force until its end. -/
def Spares (wid : Nat) (f : Fault) (s : Station) : StationOp → Prop
  | .restart => (wid, f) ∉ s.ledger.dirty
  | .sweep_fails _ failure => failure = .early ∨ (wid, f) ∉ s.ledger.dirty
  | .end_now _ wid' => wid' = wid → (wid, f) ∉ s.ledger.dirty
  | .cancel wid' => wid' ≠ wid
  | .extend now wid' ends_at => (s.table.extend_window now wid' ends_at).in_force wid
  | .update now wid' body => (s.table.update_window now wid' body).in_force wid
  | _ => True

theorem live_of_in_force (hforce : s.table.in_force wid) : s.table.any fun r => r.id = wid && r.status.live := by
  obtain ⟨r, hr, hid, hforce⟩ := hforce
  refine List.any_eq_true.mpr ⟨r, hr, ?_⟩
  cases hs : r.status <;> simp [hs, Status.in_force, Status.live, hid] at hforce ⊢

/-- Either the window keeps the fault, or the step surfaces it. -/
theorem owed_step (h : s.Marked) (hforce : s.table.in_force wid) (hraised : s.raised wid f) (op : StationOp)
    (htells : op.tells f ≠ some false) (hspares : s.Spares wid f op) :
    ((s.step occurrence_only op).table.in_force wid ∧ (s.step occurrence_only op).raised wid f ∧
      s.surfaces wid f op = false) ∨
    ((s.step occurrence_only op).table.finished wid ∧ s.surfaces wid f op) := by
  cases op with
  | signal sig =>
    have htable : (s.process sig).table = s.table := process_table sig
    exact .inl ⟨htable.symm ▸ hforce, raised_process h hforce hraised htells, rfl⟩
  | create now confirm body => exact .inl ⟨WindowTable.in_force_create hforce, hraised, rfl⟩
  | confirm wid' => exact .inl ⟨WindowTable.in_force_confirm hforce, hraised, rfl⟩
  | cancel wid' => exact .inl ⟨WindowTable.in_force_set hforce hspares.symm, hraised, rfl⟩
  | extend now wid' ends_at => exact .inl ⟨hspares, hraised, rfl⟩
  | update now wid' body => exact .inl ⟨hspares, hraised, rfl⟩
  | end_now now wid' =>
    rcases eq_or_ne wid' wid with rfl | hne
    · have hlive := live_of_in_force hforce
      have hsurfaces : s.surfaces wid' f (.end_now now wid') := by
        have hunresolved : s.unresolved wid' f := (congrArg (Option.any _) (record_clean (hspares rfl))).symm.trans hraised
        simp [surfaces, hlive, hunresolved]
      exact .inr ⟨finished_surfaces hsurfaces, hsurfaces⟩
    · refine .inl ⟨?_, (congrArg (Option.any _) (record_end_now hne.symm)).trans hraised, by simp [surfaces, hne]⟩
      show (s.end_now now wid').table.in_force wid
      unfold end_now
      split
      · exact WindowTable.in_force_set hforce hne.symm
      · exact hforce
  | sweep now =>
    by_cases hended : wid ∈ s.table.just_ended now
    · have hsurfaces : s.surfaces wid f (.sweep now) := by simp [surfaces, hended, hraised]
      exact .inr ⟨finished_surfaces hsurfaces, hsurfaces⟩
    · have htable : (s.sweep now).table = s.table.advance_statuses now := (surfaced_sweep s now).table
      refine .inl ⟨htable.symm ▸ WindowTable.in_force_advance hforce hended, ?_, by simp [surfaces, hended]⟩
      show (s.sweep now).raised wid f
      rw [raised_sweep, hraised, decide_eq_true hended]
      rfl
  | sweep_fails now failure =>
    refine .inl ⟨?_, (congrArg (Option.any _) (record_sweep_fails hspares)).trans hraised, rfl⟩
    cases failure <;> exact hforce
  | end_occurrence f' =>
    refine .inl ⟨?_, ?_, rfl⟩
    · show (if occurrence_only f'.class_id then s.clear_alarm f' else s).table.in_force wid
      split <;> exact hforce
    · show (if occurrence_only f'.class_id then s.clear_alarm f' else s).raised wid f
      split <;> exact hraised
  | restart =>
    have hrecord : (s.step occurrence_only .restart).record (wid, f) = s.record (wid, f) :=
      (record_clean (Finset.notMem_empty _)).trans (record_clean hspares).symm
    exact .inl ⟨hforce, (congrArg (Option.any _) hrecord).trans hraised, rfl⟩

/-- Over a run in which nothing clears the fault, the window surfaces it once, when it ends. -/
theorem owed_run (h : s.Marked) (hforce : s.table.in_force wid) (hraised : s.raised wid f) (ops : List StationOp)
    (htells : ∀ op ∈ ops, op.tells f ≠ some false)
    (hops : Runs.Meets (step occurrence_only) (fun s op => s.table.in_force wid → s.Spares wid f op) s ops) :
    ((Runs.run (step occurrence_only) s ops).table.in_force wid ∧ surfacings occurrence_only wid f s ops = 0) ∨
    ((Runs.run (step occurrence_only) s ops).table.finished wid ∧ surfacings occurrence_only wid f s ops = 1) := by
  induction ops generalizing s with
  | nil => exact .inl ⟨hforce, rfl⟩
  | cons op ops ih =>
    have hnext : (s.step occurrence_only op).Marked := marked_step h op
    have hrest := fun op' hop' => htells op' (List.mem_cons_of_mem op hop')
    rcases owed_step h hforce hraised op (htells op List.mem_cons_self) (hops.1 hforce) with
      ⟨hforce', hraised', hsurfaces⟩ | ⟨hfinished, hsurfaces⟩
    · have hcount : surfacings occurrence_only wid f s (op :: ops) =
          surfacings occurrence_only wid f (s.step occurrence_only op) ops := by
        show (s.surfaces wid f op).toNat + _ = _
        rw [hsurfaces]
        exact Nat.zero_add _
      rw [hcount]
      exact ih hnext hforce' hraised' hrest hops.2
    · refine .inr ⟨finished_run hnext.table hfinished ops, ?_⟩
      show (s.surfaces wid f op).toNat + _ = 1
      rw [hsurfaces, surfacings_finished hnext.table hfinished]
      rfl

/-- Every raise that a window in force takes down, and that nothing clears, is surfaced once when the window
is over, and leaves its alarm active; before that, it is not surfaced. -/
theorem run_surfaces (occurrence_only : Nat → Bool) (before after : List StationOp) (sig : Signal) (wid : Nat)
    (hkind : sig.kind = .raise) (hsup : (Runs.run (step occurrence_only) {} before).suppressed_by sig wid)
    (hkeeps : (Runs.run (step occurrence_only) {} before).discards sig wid = false)
    (hforce : (Runs.run (step occurrence_only) {} before).table.in_force wid)
    (htells : ∀ op ∈ after, op.tells sig.fault ≠ some false)
    (hafter : Runs.Meets (step occurrence_only) (fun s op => s.table.in_force wid → s.Spares wid sig.fault op)
      (Runs.run (step occurrence_only) {} (before ++ [.signal sig])) after) :
    let ops := before ++ [.signal sig] ++ after
    let s := Runs.run (step occurrence_only) {} ops
    (s.table.in_force wid → surfacings occurrence_only wid sig.fault {} ops = 0) ∧
    (¬ s.table.in_force wid → surfacings occurrence_only wid sig.fault {} ops = 1) ∧
    ∀ first op rest, ops = first ++ op :: rest →
      (Runs.run (step occurrence_only) {} first).surfaces wid sig.fault op →
      (Runs.run (step occurrence_only) {} (first ++ [op])).active sig.fault := by
  intro ops s
  have ht : (Runs.run (step occurrence_only) {} before).Marked := marked_run before
  have hsplit : Runs.run (step occurrence_only) {} (before ++ [.signal sig]) =
      (Runs.run (step occurrence_only) {} before).process sig := Runs.run_append ..
  have hraised : ((Runs.run (step occurrence_only) {} before).process sig).raised wid sig.fault := by
    rcases process_suppressed hsup hkeeps with ⟨-, hprocess⟩ | ⟨hnot, -⟩
    · exact hprocess ▸ raised_observe_raise ht hforce _
    · exact absurd hkind hnot
  have hforce' : ((Runs.run (step occurrence_only) {} before).process sig).table.in_force wid :=
    (process_table sig).symm ▸ hforce
  -- nothing has surfaced of a window that is in force
  have hbefore : surfacings occurrence_only wid sig.fault {} (before ++ [.signal sig]) = 0 := by
    have hopen := hsplit ▸ (marked_process ht sig).table.not_finished hforce'
    exact (surfacings_unfinished marked_start.table _ hopen).1
  have hcount : surfacings occurrence_only wid sig.fault {} ops =
      surfacings occurrence_only wid sig.fault ((Runs.run (step occurrence_only) {} before).process sig) after := by
    rw [surfacings_append, hbefore, hsplit, Nat.zero_add]
  have hend : s = Runs.run (step occurrence_only) ((Runs.run (step occurrence_only) {} before).process sig) after :=
    (Runs.run_append ..).trans (congrArg (Runs.run _ · after) hsplit)
  have hmarked : s.Marked := marked_run ops
  have howed := owed_run (marked_process ht sig) hforce' hraised after htells (hsplit ▸ hafter)
  rw [← hend, ← hcount] at howed
  refine ⟨fun hin => ?_, fun hout => ?_, fun first op rest _ hsurfaces => ?_⟩
  · exact (howed.resolve_right fun hboth => hmarked.table.not_finished hin hboth.1).2
  · exact (howed.resolve_left fun hboth => hout hboth.1).2
  · rw [Runs.run_append]
    exact active_surfaces hsurfaces

/-- A window of ten minutes on an element, and a fault inside it. -/
def planned : List StationOp := [
  .create 60 false { starts_at := 100, ends_at := 700, patch_s := 0, ledger_enabled := true, targets := [1] },
  .sweep 100]

def cut : Signal := { trap := { ne_id := 1, ts := 200 }, class_id := 7, inst := "", kind := .raise }

/-- A restart before the next sweep. -/
theorem restarted_lost : ¬ ∀ (occurrence_only : Nat → Bool) (before after : List StationOp) (sig : Signal) (wid : Nat),
    sig.kind = .raise → (Runs.run (step occurrence_only) {} before).suppressed_by sig wid →
    (Runs.run (step occurrence_only) {} before).discards sig wid = false →
    (Runs.run (step occurrence_only) {} before).table.in_force wid →
    (∀ op ∈ after, op.tells sig.fault ≠ some false) →
    ¬ (Runs.run (step occurrence_only) {} (before ++ [.signal sig] ++ after)).table.in_force wid →
    surfacings occurrence_only wid sig.fault {} (before ++ [.signal sig] ++ after) = 1 := by
  intro h
  have hcount := h (fun _ => false) planned [.restart, .sweep 205, .sweep 700] cut 1 rfl
    (by unfold suppressed_by; decide +kernel) (by decide +kernel) (by unfold WindowTable.in_force; decide +kernel)
    (by decide +kernel) (by unfold WindowTable.in_force; decide +kernel)
  exact absurd hcount (by decide +kernel)

/-- The fault surfaces where the engine restarts after the sweep. -/
theorem run_surfaces_restart : surfacings (fun _ => false) 1 cut.fault {}
    (planned ++ [.signal cut] ++ [.sweep 205, .restart, .sweep 210, .sweep 700]) = 1 := by
  refine (run_surfaces (fun _ => false) planned _ cut 1 rfl ?_ ?_ ?_ ?_ ?_).2.1 ?_
  · unfold suppressed_by
    decide +kernel
  · decide +kernel
  · unfold WindowTable.in_force
    decide +kernel
  · decide +kernel
  · refine ⟨fun _ => trivial, fun _ => ?_, fun _ => trivial, fun _ => trivial, trivial⟩
    unfold Spares
    decide +kernel
  · unfold WindowTable.in_force
    decide +kernel

end Station
end NetCoreNoc.Maintenance
