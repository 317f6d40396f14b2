import Mathlib
import NetCoreNoc.Runs
import NetCoreNoc.Operate.Persistence

/-! The drops that the ingest gaps account for (`engine/operate/gaps.py`), from the counter of an ingest
process that may be restarted (`ingest/process.py`) to the rows of passes that may be rolled back. -/
namespace NetCoreNoc.Operate
open Correlate

/-- The drops that gaps of one reason hold. -/
def dropsOf (reason : GapReason) (gaps : List OpenGap) : ℤ :=
  ((gaps.filter (·.reason = reason)).map (·.dropped)).sum

/-- One gap is over before another begins. -/
def OpenGap.Before (g g' : OpenGap) : Prop := g.last_drop_at < g'.started_at

theorem dropsOf_append (reason : GapReason) (gaps gaps' : List OpenGap) :
    dropsOf reason (gaps ++ gaps') = dropsOf reason gaps + dropsOf reason gaps' := by
  simp [dropsOf]

namespace GapTracker
variable {gaps : GapTracker}

/-- At most one gap is open for a reason. -/
def Single (gaps : GapTracker) : Prop := (gaps.map (·.reason)).Nodup

theorem filter_eq_nil {reason : GapReason} (h : gaps.any (·.reason = reason) = false) :
    gaps.filter (·.reason = reason) = [] := by
  refine List.filter_eq_nil_iff.mpr fun g hg => ?_
  simpa using List.any_eq_false.mp h g hg

/-- The gap that is open for a reason. -/
theorem Single.filter (h : Single gaps) {g : OpenGap} (hg : g ∈ gaps) :
    gaps.filter (·.reason = g.reason) = [g] := by
  induction gaps with
  | nil => exact absurd hg List.not_mem_nil
  | cons g' gaps ih =>
    obtain ⟨hnot, hrest⟩ := List.nodup_cons.mp h
    rcases List.mem_cons.mp hg with rfl | hg
    · rw [List.filter_cons_of_pos (by simp)]
      congr 1
      refine List.filter_eq_nil_iff.mpr fun x hx => ?_
      simp only [decide_eq_true_eq]
      exact fun he => hnot (List.mem_map.mpr ⟨x, hx, he⟩)
    · rw [List.filter_cons_of_neg, ih hrest hg]
      simp only [decide_eq_true_eq]
      exact fun he => hnot (List.mem_map.mpr ⟨g, hg, he.symm⟩)

theorem Single.filter_le (h : Single gaps) (reason : GapReason) :
    gaps.filter (·.reason = reason) = [] ∨ ∃ g, gaps.filter (·.reason = reason) = [g] := by
  cases hany : gaps.any (·.reason = reason) with
  | false => exact .inl (filter_eq_nil hany)
  | true =>
    obtain ⟨g, hg, rfl⟩ : ∃ g ∈ gaps, g.reason = reason := by simpa using hany
    exact .inr ⟨g, h.filter hg⟩

/-- The gap of a reason, once it has taken more drops. -/
def extend (reason : GapReason) (count : ℤ) (now : ℚ) (g : OpenGap) : OpenGap :=
  if g.reason = reason then { g with dropped := g.dropped + count, last_drop_at := now } else g

theorem extend_reason (reason : GapReason) (count : ℤ) (now : ℚ) (g : OpenGap) :
    (extend reason count now g).reason = g.reason := by
  unfold extend
  split <;> rfl

theorem filter_extend (reason other : GapReason) (count : ℤ) (now : ℚ) (gaps : GapTracker) :
    (gaps.map (extend reason count now)).filter (·.reason = other) =
      (gaps.filter (·.reason = other)).map (extend reason count now) := by
  rw [List.filter_map]
  congr 2
  funext g
  simp only [Function.comp_apply, extend_reason]

/-- What `observe` leaves: the gap of the reason is extended, or a new one is opened. -/
theorem observe_cases (gaps : GapTracker) (reason : GapReason) (count : ℤ) (now : ℚ) :
    count ≤ 0 ∧ gaps.observe reason count now = gaps ∨
    0 < count ∧ (∃ g ∈ gaps, g.reason = reason) ∧
      gaps.observe reason count now = gaps.map (extend reason count now) ∨
    0 < count ∧ (∀ g ∈ gaps, g.reason ≠ reason) ∧
      gaps.observe reason count now = gaps ++ [⟨reason, now, now, count⟩] := by
  unfold observe
  split
  · rename_i hle
    exact .inl ⟨hle, rfl⟩
  · rename_i hlt
    split
    · rename_i hany
      exact .inr (.inl ⟨by omega, by simpa using hany, rfl⟩)
    · rename_i hany
      exact .inr (.inr ⟨by omega, by simpa using hany, rfl⟩)

theorem single_observe (h : Single gaps) (reason : GapReason) (count : ℤ) (now : ℚ) :
    Single (gaps.observe reason count now) := by
  rcases observe_cases gaps reason count now with ⟨-, he⟩ | ⟨-, -, he⟩ | ⟨-, hnone, he⟩ <;> rw [he]
  · exact h
  · have hreasons : (gaps.map (extend reason count now)).map (·.reason) = gaps.map (·.reason) := by
      rw [List.map_map]
      exact List.map_congr_left fun g _ => extend_reason reason count now g
    rwa [Single, hreasons]
  · rw [Single, List.map_append]
    refine List.nodup_append'.mpr ⟨h, List.nodup_singleton _, ?_⟩
    simpa [List.disjoint_singleton] using hnone

theorem dropsOf_observe (h : Single gaps) (reason : GapReason) {count : ℤ} (hcount : 0 ≤ count) (now : ℚ)
    (other : GapReason) : dropsOf other (gaps.observe reason count now) =
      dropsOf other gaps + if other = reason then count else 0 := by
  rcases observe_cases gaps reason count now with ⟨hle, he⟩ | ⟨-, ⟨g, hg, rfl⟩, he⟩ | ⟨-, hnone, he⟩ <;> rw [he]
  · obtain rfl : count = 0 := by omega
    simp
  · rw [dropsOf, filter_extend]
    by_cases ho : other = g.reason
    · subst ho
      simp [dropsOf, h.filter hg, extend]
    · have hsame : (gaps.filter (·.reason = other)).map (extend g.reason count now) =
          gaps.filter (·.reason = other) := by
        refine (List.map_congr_left fun g' hg' => ?_).trans (List.map_id _)
        have : g'.reason = other := by simpa using (List.mem_filter.mp hg').2
        exact if_neg fun he => ho (this.symm.trans he)
      rw [hsame, if_neg ho, add_zero, dropsOf]
  · rw [dropsOf_append]
    congr 1
    by_cases ho : other = reason
    · simp [dropsOf, ho]
    · simp [dropsOf, ho, Ne.symm ho]

/-- What is closed, and what stays open. -/
theorem close_due (h : Single gaps) (now : ℚ) :
    gaps.close (gaps.due now) = gaps.filter fun g => ¬ GAP_CLOSE_S ≤ now - g.last_drop_at := by
  refine List.filter_congr fun g hg => ?_
  have hin : g.reason ∈ (gaps.due now).map (·.reason) ↔ GAP_CLOSE_S ≤ now - g.last_drop_at := by
    constructor
    · intro hr
      obtain ⟨g', hg', he⟩ := List.mem_map.mp hr
      obtain ⟨hmem, hdue⟩ := List.mem_filter.mp hg'
      obtain rfl := List.inj_on_of_nodup_map h hmem hg he
      simpa using hdue
    · intro hdue
      exact List.mem_map.mpr ⟨g, List.mem_filter.mpr ⟨hg, by simpa using hdue⟩, rfl⟩
  simp [hin]

end GapTracker

/-- Closed gaps and open ones at a time: those of one reason follow each other, and what was closed was
idle long enough. -/
structure Placed (closed : List OpenGap) (gaps : GapTracker) (now : ℚ) : Prop where
  single : gaps.Single
  apart : ∀ reason, ((closed ++ gaps).filter (·.reason = reason)).Pairwise OpenGap.Before
  spans : ∀ g ∈ closed ++ gaps, g.started_at ≤ g.last_drop_at
  past : ∀ g ∈ gaps, g.last_drop_at ≤ now
  idle : ∀ g ∈ closed, g.last_drop_at + GAP_CLOSE_S ≤ now

namespace Placed
variable {closed : List OpenGap} {gaps : GapTracker} {now : ℚ}

theorem mono (h : Placed closed gaps now) {later : ℚ} (hl : now ≤ later) : Placed closed gaps later :=
  ⟨h.single, h.apart, h.spans, fun g hg => (h.past g hg).trans hl, fun g hg => (h.idle g hg).trans hl⟩

theorem observe (h : Placed closed gaps now) (reason : GapReason) (count : ℤ) :
    Placed closed (gaps.observe reason count now) now := by
  have hsingle := GapTracker.single_observe h.single reason count now
  rcases GapTracker.observe_cases gaps reason count now with
    ⟨-, he⟩ | ⟨-, ⟨g, hg, rfl⟩, he⟩ | ⟨-, hnone, he⟩ <;> rw [he] at hsingle ⊢
  · exact h
  · have hextend : ∀ x ∈ gaps, (GapTracker.extend g.reason count now x).started_at = x.started_at ∧
        x.last_drop_at ≤ (GapTracker.extend g.reason count now x).last_drop_at ∧
        (GapTracker.extend g.reason count now x).last_drop_at ≤ now := by
      intro x hx
      unfold GapTracker.extend
      split
      · exact ⟨rfl, h.past x hx, le_rfl⟩
      · exact ⟨rfl, le_rfl, h.past x hx⟩
    refine ⟨hsingle, fun other => ?_, fun x hx => ?_, fun x hx => ?_, h.idle⟩
    · have hold := h.apart other
      rw [List.filter_append] at hold ⊢
      rw [GapTracker.filter_extend]
      obtain ⟨hclosed, hopen, hcross⟩ := List.pairwise_append.mp hold
      refine List.pairwise_append.mpr ⟨hclosed, ?_, fun a ha b hb => ?_⟩
      · rcases h.single.filter_le other with hnil | ⟨x, hx⟩
        · simp [hnil]
        · simp [hx]
      · obtain ⟨b', hb', rfl⟩ := List.mem_map.mp hb
        have := hcross a ha b' hb'
        rwa [OpenGap.Before, (hextend b' (List.mem_of_mem_filter hb')).1]
    · rcases List.mem_append.mp hx with hx | hx
      · exact h.spans x (List.mem_append_left _ hx)
      · obtain ⟨y, hy, rfl⟩ := List.mem_map.mp hx
        rw [(hextend y hy).1]
        exact (h.spans y (List.mem_append_right _ hy)).trans (hextend y hy).2.1
    · obtain ⟨y, hy, rfl⟩ := List.mem_map.mp hx
      exact (hextend y hy).2.2
  · refine ⟨hsingle, fun other => ?_, fun x hx => ?_, fun x hx => ?_, h.idle⟩
    · rw [← List.append_assoc, List.filter_append]
      refine List.pairwise_append.mpr ⟨h.apart other, (List.pairwise_singleton _ _).filter _, fun a ha b hb => ?_⟩
      obtain ⟨hb, hreason⟩ := List.mem_filter.mp hb
      obtain rfl := List.mem_singleton.mp hb
      obtain ⟨ha, hother⟩ := List.mem_filter.mp ha
      simp only [decide_eq_true_eq] at hreason hother
      rcases List.mem_append.mp ha with ha | ha
      · have := h.idle a ha
        simp only [OpenGap.Before, GAP_CLOSE_S] at this ⊢
        linarith
      · exact absurd (hother.trans hreason.symm) (hnone a ha)
    · rw [← List.append_assoc] at hx
      rcases List.mem_append.mp hx with hx | hx
      · exact h.spans x hx
      · exact (List.mem_singleton.mp hx) ▸ le_rfl
    · rcases List.mem_append.mp hx with hx | hx
      · exact h.past x hx
      · exact (List.mem_singleton.mp hx) ▸ le_rfl

/-- Closing what is due moves the rows over, in their order. -/
theorem filter_close (h : Placed closed gaps now) (reason : GapReason) :
    (closed ++ gaps.due now ++ gaps.close (gaps.due now)).filter (·.reason = reason) =
      (closed ++ gaps).filter (·.reason = reason) := by
  have hcomm (p : OpenGap → Bool) : (gaps.filter p).filter (·.reason = reason) =
      (gaps.filter (·.reason = reason)).filter p := by
    rw [List.filter_filter, List.filter_filter]
    exact List.filter_congr fun _ _ => Bool.and_comm ..
  rw [GapTracker.close_due h.single, GapTracker.due, List.append_assoc]
  simp only [List.filter_append, hcomm]
  congr 1
  rcases h.single.filter_le reason with hnil | ⟨g, hg⟩
  · rw [hnil]
    rfl
  · rw [hg]
    by_cases hdue : GAP_CLOSE_S ≤ now - g.last_drop_at <;> simp [List.filter_cons, hdue]

theorem close (h : Placed closed gaps now) :
    Placed (closed ++ gaps.due now) (gaps.close (gaps.due now)) now := by
  have hsub : ∀ g ∈ gaps.close (gaps.due now), g ∈ gaps := fun g hg => List.mem_of_mem_filter hg
  refine ⟨h.single.sublist (List.filter_sublist.map _), fun reason => (h.filter_close reason) ▸ h.apart reason,
    fun g hg => h.spans g ?_, fun g hg => h.past g (hsub g hg), fun g hg => ?_⟩
  · rcases List.mem_append.mp hg with hg | hg
    · exact (List.mem_append.mp hg).elim (List.mem_append_left _)
        fun hg => List.mem_append_right _ (List.mem_of_mem_filter hg)
    · exact List.mem_append_right _ (hsub g hg)
  · rcases List.mem_append.mp hg with hg | hg
    · exact h.idle g hg
    · have : GAP_CLOSE_S ≤ now - g.last_drop_at := by simpa using (List.mem_filter.mp hg).2
      linarith

theorem dropsOf_close (h : Placed closed gaps now) (reason : GapReason) :
    dropsOf reason (closed ++ gaps.due now ++ gaps.close (gaps.due now)) = dropsOf reason (closed ++ gaps) :=
  congrArg (fun l : List OpenGap => (l.map OpenGap.dropped).sum) (h.filter_close reason)

end Placed

/-- The engine beside the ingest process whose drops it records. -/
structure Recorder where
  learned : Learned := {}
  /-- what the running ingest process has dropped -/
  worker : ℕ := 0
  /-- what the processes before it reported, and what it reported itself -/
  base : ℕ := 0
  child : ℕ := 0
  /-- what was reported since a pass last read the counter -/
  unread : ℕ := 0
  /-- the traps that did not fit into the correlator's window -/
  overflowed : ℕ := 0
  /-- when the last pass was -/
  clock : Option ℚ := none

inductive DropOp where
  | drop (count : ℕ)
  | report
  /-- the ingest process ends, and a new one counts from zero -/
  | exit
  | overflow (count : ℕ)
  /-- what else the engine learns, or flushes to -/
  | learn (op : LearnedOp)
  | maintenance (now : ℚ) (fails : Option Failure)

/-- Nothing but learning. -/
def LearnedOp.learns : LearnedOp → Bool
  | .overflow _ | .maintenance _ _ _ | .restart => false
  | _ => true

/-- A pass gets as far as the counter. -/
def Failure.reads : Option Failure → Bool
  | none | some (.gaps _) | some .commit => true
  | _ => false

namespace Recorder
variable (s : Recorder)

/-- `dropped_provider()` -/
def total_dropped : ℕ := s.base + s.child

def persisted : List OpenGap := s.learned.db.ingest_gap

def opened : GapTracker := s.learned.memory.gap

def step : DropOp → Recorder
  | .drop count => { s with worker := s.worker + count }
  | .report => { s with child := s.worker, unread := s.unread + (s.worker - s.child) }
  | .exit => { s with base := s.base + s.child, child := 0, worker := 0 }
  | .overflow count =>
    { s with learned := s.learned.step (.overflow count), overflowed := s.overflowed + count }
  | .learn op => if op.learns then { s with learned := s.learned.step op } else s
  | .maintenance now fails => { s with
      learned := s.learned.step (.maintenance now s.total_dropped fails)
      unread := if Failure.reads fails then 0 else s.unread
      clock := some now }

/-- Drops in closed gaps and open ones, and those that no pass has seen, are all that were dropped. -/
structure Accounted (s : Recorder) : Prop where
  reported : s.child ≤ s.worker
  baseline : s.learned.memory.dropped_baseline + s.unread = s.total_dropped
  queue_full : dropsOf .queue_full (s.persisted ++ s.opened) = s.learned.memory.dropped_baseline
  overflow : 0 ≤ s.learned.memory.overflow
  window_overflow : dropsOf .window_overflow (s.persisted ++ s.opened) + s.learned.memory.overflow = s.overflowed
  placed : ∀ now, (∀ t ∈ s.clock, t ≤ now) → Placed s.persisted s.opened now

/-- The clock does not go back from one pass to the next, and a pass that fails has closed no gap. -/
def Keeps (s : Recorder) : DropOp → Prop
  | .maintenance now fails => (∀ t ∈ s.clock, t ≤ now) ∧ match fails with
    | some (.gaps written) => (s.learned.memory.closing now s.total_dropped).take written = []
    | some .commit => s.learned.memory.closing now s.total_dropped = []
    | _ => True
  | _ => True

variable {s}

/-- What a pass has observed, before it closes anything. -/
theorem Accounted.observed (h : s.Accounted) {now : ℚ} (hnow : ∀ t ∈ s.clock, t ≤ now) :
    let gap := (s.learned.memory.saved now s.total_dropped).gap
    Placed s.persisted gap now ∧
      dropsOf .queue_full (s.persisted ++ gap) = s.total_dropped ∧
      dropsOf .window_overflow (s.persisted ++ gap) = s.overflowed := by
  intro gap
  have hplaced := h.placed now hnow
  have hcount : 0 ≤ (s.total_dropped : ℤ) - s.learned.memory.dropped_baseline := by
    have := h.baseline
    omega
  have hgap : gap = (s.opened.observe .queue_full (s.total_dropped - s.learned.memory.dropped_baseline)
    now).observe .window_overflow s.learned.memory.overflow now := rfl
  have hfirst := hplaced.observe .queue_full (s.total_dropped - s.learned.memory.dropped_baseline)
  refine ⟨hgap ▸ hfirst.observe _ _, ?_, ?_⟩
  · have := h.queue_full
    rw [dropsOf_append] at this
    rw [hgap, dropsOf_append, GapTracker.dropsOf_observe hfirst.single _ h.overflow,
      GapTracker.dropsOf_observe hplaced.single _ hcount]
    simp only [if_true, reduceCtorEq, if_false]
    omega
  · have := h.window_overflow
    rw [dropsOf_append] at this
    rw [hgap, dropsOf_append, GapTracker.dropsOf_observe hfirst.single _ h.overflow,
      GapTracker.dropsOf_observe hplaced.single _ hcount]
    simp only [if_true, reduceCtorEq, if_false]
    omega

/-- A pass that leaves the gaps of memory as observed, having closed none, or having closed those that
are due with their rows. -/
theorem Accounted.passed (h : s.Accounted) {now : ℚ} {learned : Learned}
    (hplaced : Placed learned.db.ingest_gap learned.memory.gap now)
    (hbaseline : learned.memory.dropped_baseline = s.total_dropped) (hoverflow : learned.memory.overflow = 0)
    (hqueue : dropsOf .queue_full (learned.db.ingest_gap ++ learned.memory.gap) = s.total_dropped)
    (hwindow : dropsOf .window_overflow (learned.db.ingest_gap ++ learned.memory.gap) = s.overflowed) :
    ({ s with learned := learned, unread := 0, clock := some now } : Recorder).Accounted := by
  refine ⟨h.reported, ?_, hqueue.trans hbaseline.symm, hoverflow.ge, ?_, fun later hl => ?_⟩
  · change learned.memory.dropped_baseline + ((0 : ℕ) : ℤ) = (s.total_dropped : ℤ)
    rw [hbaseline, Nat.cast_zero, add_zero]
  · change dropsOf _ _ + learned.memory.overflow = _
    rw [hoverflow, add_zero]
    exact hwindow
  · exact hplaced.mono (hl now rfl)

/-- A step that leaves gaps, rows and counters of the engine alone. -/
theorem Accounted.beside (h : s.Accounted) {learned : Learned} {clock : Option ℚ}
    (hdb : learned.db.ingest_gap = s.persisted) (hgap : learned.memory.gap = s.opened)
    (hbaseline : learned.memory.dropped_baseline = s.learned.memory.dropped_baseline)
    (hoverflow : learned.memory.overflow = s.learned.memory.overflow)
    (hclock : ∀ now, (∀ t ∈ clock, t ≤ now) → ∀ t ∈ s.clock, t ≤ now) :
    ({ s with learned := learned, clock := clock } : Recorder).Accounted := by
  refine ⟨h.reported, ?_, ?_, ?_, ?_, fun now hnow => ?_⟩
  · exact hbaseline ▸ h.baseline
  · simpa only [persisted, opened, hdb, hgap, hbaseline] using h.queue_full
  · exact hoverflow ▸ h.overflow
  · simpa only [persisted, opened, hdb, hgap, hoverflow] using h.window_overflow
  · simpa only [persisted, opened, hdb, hgap] using h.placed now (hclock now hnow)

theorem accounted_learn (h : s.Accounted) (op : LearnedOp) : (s.step (.learn op)).Accounted := by
  simp only [step]
  split
  · rename_i hl
    cases op with
    | overflow count | maintenance now total_dropped fails | restart => exact absurd hl Bool.false_ne_true
    | advance_to | activation | pairs | precedence | episode | confirm | split =>
      exact h.beside rfl rfl rfl rfl fun _ hc => hc
  · exact h

theorem accounted_maintenance (h : s.Accounted) {now : ℚ} {fails : Option Failure}
    (hk : s.Keeps (.maintenance now fails)) : (s.step (.maintenance now fails)).Accounted := by
  obtain ⟨hclock, hclosed⟩ := hk
  obtain ⟨hplaced, hqueue, hwindow⟩ := h.observed hclock
  have hlater : ∀ later, (∀ t ∈ some now, t ≤ later) → ∀ t ∈ s.clock, t ≤ later :=
    fun later hl t ht => (hclock t ht).trans (hl now rfl)
  -- a pass that fails with nothing closed leaves the gaps as observed
  have hkept (m : Memory) (hm : m = (s.learned.memory.saved now s.total_dropped).close_gaps [])
      (closed : List OpenGap) : ({ s with
        learned := { s.learned with memory := m, closed := closed }
        unread := 0, clock := some now } : Recorder).Accounted := by
    have hgap : m.gap = (s.learned.memory.saved now s.total_dropped).gap := by
      rw [hm]
      exact List.filter_eq_self.mpr fun _ _ => by simp
    have hplaced' : Placed s.persisted m.gap now := hgap ▸ hplaced
    refine h.passed hplaced' (by rw [hm]; rfl) (by rw [hm]; rfl) ?_ ?_
    · rw [hgap]
      exact hqueue
    · rw [hgap]
      exact hwindow
  cases fails with
  | none =>
    have hclose := hplaced.close
    exact h.passed hclose rfl rfl ((hplaced.dropsOf_close _).trans hqueue)
      ((hplaced.dropsOf_close _).trans hwindow)
  | some failure =>
    cases failure with
    | early | learner | precedence | profiler | episodes | pruning => exact h.beside rfl rfl rfl rfl hlater
    | gaps written =>
      exact hkept _ (congrArg (Memory.close_gaps _) hclosed) _
    | commit =>
      exact hkept _ (congrArg (Memory.close_gaps _) hclosed) _

theorem accounted_step (h : s.Accounted) (op : DropOp) (hk : s.Keeps op) : (s.step op).Accounted := by
  cases op with
  | drop count =>
    exact ⟨Nat.le_add_right_of_le h.reported, h.baseline, h.queue_full, h.overflow, h.window_overflow, h.placed⟩
  | report =>
    refine ⟨le_rfl, ?_, h.queue_full, h.overflow, h.window_overflow, h.placed⟩
    have hr := h.reported
    have hb := h.baseline
    simp only [step, total_dropped] at hb ⊢
    omega
  | exit =>
    refine ⟨le_rfl, ?_, h.queue_full, h.overflow, h.window_overflow, h.placed⟩
    simpa [step, total_dropped] using h.baseline
  | overflow count =>
    refine ⟨h.reported, h.baseline, h.queue_full, ?_, ?_, h.placed⟩
    · exact add_nonneg h.overflow (Int.natCast_nonneg count)
    · have hw := h.window_overflow
      change dropsOf _ (s.persisted ++ s.opened) + (s.learned.memory.overflow + (count : ℤ)) =
        ((s.overflowed + count : ℕ) : ℤ)
      omega
  | learn op => exact accounted_learn h op
  | maintenance now fails => exact accounted_maintenance h hk

theorem accounted_start : ({} : Recorder).Accounted := by
  refine ⟨le_rfl, rfl, rfl, le_rfl, rfl, fun now _ => ⟨List.nodup_nil, fun _ => List.Pairwise.nil, ?_, ?_, ?_⟩⟩ <;>
    exact fun _ hg => absurd hg List.not_mem_nil

end Recorder

/-- Along every run whose passes keep to the clock and fail only with no gap closed: the drops in the
rows, in the open gaps and in the reports that no pass has read yet are all that the ingest processes
reported, and likewise for the correlator's window. The gaps of a reason follow one another. -/
theorem run_accounted (ops : List DropOp) (h : Runs.Meets Recorder.step Recorder.Keeps {} ops) :
    let s := Runs.run Recorder.step {} ops
    dropsOf .queue_full s.persisted + dropsOf .queue_full s.opened + s.unread = s.base + s.child ∧
    dropsOf .window_overflow s.persisted + dropsOf .window_overflow s.opened + s.learned.memory.overflow =
      s.overflowed ∧
    ∀ reason, ((s.persisted ++ s.opened).filter (·.reason = reason)).Pairwise OpenGap.Before ∧
      ∀ g ∈ s.persisted ++ s.opened, g.started_at ≤ g.last_drop_at := by
  intro s
  have hstep : ∀ (t : Recorder) (op : DropOp), t.Accounted → t.Keeps op → (t.step op).Accounted :=
    fun t op ht hop => Recorder.accounted_step ht op hop
  have hs : s.Accounted := Runs.run_invariant hstep {} ops Recorder.accounted_start h
  have hplaced := hs.placed (s.clock.getD 0) fun t ht => by rw [Option.mem_def.mp ht]; rfl
  refine ⟨?_, ?_, fun reason => ⟨hplaced.apart reason, hplaced.spans⟩⟩
  · have hq := hs.queue_full
    have hb := hs.baseline
    rw [dropsOf_append] at hq
    simp only [Recorder.total_dropped] at hb
    omega
  · rw [← dropsOf_append]
    exact hs.window_overflow

/-- Twice the same number of drops, the second by a new process, with a gap between. -/
def restarted_ingest : List DropOp :=
  [.drop 3, .report, .maintenance 100 none, .maintenance 110 none, .exit, .drop 3, .report,
    .maintenance 120 (some .learner), .maintenance 125 none]

theorem run_accounted_restarted :
    let s := Runs.run Recorder.step {} restarted_ingest
    dropsOf .queue_full s.persisted + dropsOf .queue_full s.opened + s.unread = s.base + s.child :=
  (run_accounted restarted_ingest (by
    refine ⟨trivial, trivial, ⟨?_, trivial⟩, ⟨?_, trivial⟩, trivial, trivial, trivial, ⟨?_, trivial⟩,
      ⟨?_, trivial⟩, trivial⟩ <;> intro t ht
    · exact absurd ht (Option.not_mem_none t)
    all_goals
      obtain rfl : t = _ := (Option.mem_some_iff.mp ht).symm
      norm_num)).1

/-- The pass that closes a gap fails. -/
def failed_close : List DropOp :=
  [.drop 3, .report, .maintenance 100 none, .maintenance 110 (some .commit), .maintenance 115 none]

theorem failed_close_lost : ¬ ∀ ops : List DropOp,
    let s := Runs.run Recorder.step {} ops
    dropsOf .queue_full s.persisted + dropsOf .queue_full s.opened + s.unread = s.base + s.child := by
  intro h
  exact absurd (h failed_close) (by decide +kernel)

end NetCoreNoc.Operate
