import Mathlib
import NetCoreNoc.Correlate.Window

/-! Storm accounting: what the window's index counts, and what its overflow counter counts (`engine/correlate/
correlate.py`). -/
namespace NetCoreNoc.Correlate.Storm
open Runs Window WindowEntry

variable {α : Type} [WindowEntry α]

/-- When the last alarm arrived. -/
def clock (calls : List (Call α)) : Option ℚ := (calls.filterMap Call.ts).getLast?

def inside (window_s : ℚ) (calls : List (Call α)) (a : α) : Bool := (clock calls).all fun now => fresh window_s now a

/-- The index holds the alarms active inside the window, each once, and the counter counts those that the cap
shed; what is active inside the window stands in the history of the calls, and only the cap takes it away. -/
structure Accounted (window_s : ℚ) (max_window : Nat) (calls : List (Call α)) (c : Correlator α) : Prop where
  index : ∀ id a, c.index.lookup id = some a ↔ a ∈ (ledger window_s max_window calls).live ∧ alarm_id a = id
  once : c.index.keys.Perm ((ledger window_s max_window calls).live.map alarm_id)
  overflow : c.overflow_dropped = (ledger window_s max_window calls).shed.length
  active : ∀ a ∈ (ledger window_s max_window calls).live, a ∈ standing calls ∧ inside window_s calls a
  kept : ∀ a ∈ standing calls, inside window_s calls a →
    a ∈ (ledger window_s max_window calls).live ∨ a ∈ (ledger window_s max_window calls).shed

/-- The thresholds of a storm and of a burst count what is active when an alarm arrives, that alarm apart. -/
def Counted (window_s : ℚ) (max_window : Nat) (calls : List (Call α)) (c : Correlator α) (new : α) : Prop :=
  let others := (ledger window_s max_window (calls ++ [.process new])).live.length - 1
  (c.process new).2.burst = others ∧ (c.process new).2.storm = decide (STORM_ALARMS ≤ others)

/-- No alarm in the index has an older activation taken out of the window before its newest: not by age while
the newest is inside, and not by the cap while the newest stays. -/
def Apart (c : Correlator α) : Call α → Prop
  | .process new =>
    let aged := c.window.filter fun a => !fresh c.window_s (ts new) a
    let within := c.window.filter (fresh c.window_s (ts new))
    let excess := within.length - c.max_window
    (∀ a ∈ aged, alarm_id a ∈ c.index → ∀ b ∈ within, alarm_id b ≠ alarm_id a) ∧
    ∀ a ∈ within.take excess, alarm_id a ∈ c.index → ∀ b ∈ within.drop excess, alarm_id b ≠ alarm_id a
  | .remove _ => True

instance decidable_apart (c : Correlator α) : (call : Call α) → Decidable (Apart c call)
  | .process _ => inferInstanceAs (Decidable (_ ∧ _))
  | .remove _ => inferInstanceAs (Decidable True)

/-- The correlator against its ledger, what it has shed among it. -/
structure Numbered (window_s : ℚ) (max_window : Nat) (calls : List (Call α)) (c : Correlator α) : Prop
    extends Tracked window_s max_window calls c where
  overflow : c.overflow_dropped = (ledger window_s max_window calls).shed.length

section Track
variable {window_s : ℚ} {max_window : Nat} {calls : List (Call α)} {c : Correlator α} {new : α}

private theorem Apart.window (hc : Apart c (.process new)) : Window.Apart c (.process new) :=
  ⟨fun a ha haged hin _ => hc.1 a (List.mem_filter.mpr ⟨ha, by simp [haged]⟩) hin, fun a ha hin _ => hc.2 a ha hin⟩

private theorem newest_ids {entries : List (Entry α)} (h : Newest entries) :
    ((entries.filter (·.stands)).map (alarm_id ·.alarm)).Nodup := by
  refine List.pairwise_map.mpr ((h.filter _).imp_of_mem ?_)
  intro e f he _ hef heq
  exact hef (List.mem_filter.mp he).2 heq.symm

/-- The alarms of the index that the cap forces out are those that stand there. -/
private theorem Tracked.card_listed (h : Tracked window_s max_window calls c) (hc : Apart c (.process new)) :
    let within := (ledger window_s max_window calls).within window_s (ts new)
    let excess := within.length - max_window
    (listed (without c.index ((c.window.filter fun a => !fresh c.window_s (ts new) a).map alarm_id))
      ((within.take excess).map (alarm_id ·.alarm))).card = ((within.take excess).filter (·.stands)).length := by
  intro within excess
  obtain ⟨hold, hcap⟩ := hc
  have hexcess : (c.window.filter (fresh c.window_s (ts new))).length - c.max_window = excess := by
    rw [h.within, List.length_map, h.cap]
  rw [hexcess, h.within, ← List.map_take, ← List.map_drop] at hcap
  rw [h.within] at hold
  have hwithin : ∀ e ∈ within.take excess, e ∈ within := fun e he => List.mem_of_mem_take he
  have hparts : ∀ e, e ∈ within ↔ e ∈ within.take excess ∨ e ∈ within.drop excess := fun e => by
    rw [← List.mem_append, List.take_append_drop]
  have heq : listed (without c.index ((c.window.filter fun a => !fresh c.window_s (ts new) a).map alarm_id))
      ((within.take excess).map (alarm_id ·.alarm)) =
      (((within.take excess).filter (·.stands)).map (alarm_id ·.alarm)).toFinset := by
    ext id
    simp only [listed, Finset.mem_filter, List.mem_toFinset, mem_without]
    constructor
    · rintro ⟨hid, haged, hin⟩
      obtain ⟨e, he, rfl⟩ := List.mem_map.mp hid
      obtain ⟨f, hf, hstands, hid⟩ := (h.index.mem _).mp hin
      have hfresh : fresh window_s (ts new) f.alarm = true := by
        by_contra hnot
        refine haged (hid ▸ List.mem_map_of_mem (List.mem_filter.mpr ⟨?_, ?_⟩))
        · rw [h.window]
          exact List.mem_map_of_mem hf
        · rw [h.bound]
          simpa using hnot
      rcases (hparts f).mp (List.mem_filter.mpr ⟨hf, hfresh⟩) with hf | hf
      · exact List.mem_map.mpr ⟨f, List.mem_filter.mpr ⟨hf, hstands⟩, hid⟩
      · exact absurd hid (hcap _ (List.mem_map_of_mem he) hin _ (List.mem_map_of_mem hf))
    · intro hid
      obtain ⟨e, he, rfl⟩ := List.mem_map.mp hid
      obtain ⟨he, hstands⟩ := List.mem_filter.mp he
      have hin := (h.index.mem _).mpr ⟨e, List.mem_of_mem_filter (hwithin e he), hstands, rfl⟩
      refine ⟨List.mem_map_of_mem he, fun haged => ?_, hin⟩
      obtain ⟨a, ha, hid⟩ := List.mem_map.mp haged
      exact hold a ha (hid ▸ hin) _ (List.mem_map_of_mem (hwithin e he)) hid.symm
  have hnewest : Newest (within.take excess) := (h.newest.filter _).sublist (List.take_sublist ..)
  rw [heq, List.toFinset_card_of_nodup (newest_ids hnewest), List.length_map]

private theorem Numbered.step (h : Numbered window_s max_window calls c) {call : Call α}
    (hord : Ordered (calls ++ [call])) (hc : Apart c call) :
    Numbered window_s max_window (calls ++ [call]) (c.step call) := by
  cases call with
  | remove id => exact ⟨h.toTracked.step hord trivial, h.overflow.trans (by rw [ledger_append]; rfl)⟩
  | process new =>
    refine ⟨h.toTracked.step hord hc.window, ?_⟩
    have hsame : (c.step (.process new)).overflow_dropped = (c.evict (ts new)).overflow_dropped := rfl
    have hexcess : (c.window.filter (fresh c.window_s (ts new))).length - c.max_window =
        ((ledger window_s max_window calls).within window_s (ts new)).length - max_window := by
      rw [h.within, List.length_map, h.cap]
    rw [hsame, evict_eq c (ts new) h.sorted, ledger_append]
    dsimp only
    rw [hexcess, h.within, ← List.map_take, List.map_map]
    refine (congrArg (c.overflow_dropped + ·) (Tracked.card_listed h.toTracked hc)).trans ?_
    rw [h.overflow]
    simp [Ledger.step]

private theorem Numbered.run (calls done : List (Call α)) (c : Correlator α) (h : Numbered window_s max_window done c)
    (hord : Ordered (done ++ calls)) (hc : Meets Correlator.step Apart c calls) :
    Numbered window_s max_window (done ++ calls) (run Correlator.step c calls) := by
  induction calls generalizing done c with
  | nil => rwa [List.append_nil]
  | cons call calls ih =>
    have hcut : done ++ call :: calls = (done ++ [call]) ++ calls := by simp
    rw [hcut] at hord ⊢
    exact ih _ _ (h.step (ordered_left hord) hc.1) hord hc.2

private theorem inside_process (calls : List (Call α)) (new a : α) :
    inside window_s (calls ++ [.process new]) a = fresh window_s (ts new) a := by
  simp [inside, clock, Call.ts]

private theorem inside_remove (calls : List (Call α)) (id : Nat) (a : α) :
    inside window_s (calls ++ [.remove id]) a = inside window_s calls a := by
  simp [inside, clock, Call.ts]

/-- What is inside at an arrival was inside before it. -/
private theorem inside_earlier {a : α} (hord : Ordered (calls ++ [.process new]))
    (h : fresh window_s (ts new) a = true) : inside window_s calls a = true := by
  unfold inside
  rw [Option.all_eq_true_iff_get]
  intro hsome
  have hmem : (clock calls).get hsome ∈ calls.filterMap Call.ts :=
    List.mem_of_getLast? (Option.some_get hsome).symm
  exact fresh_earlier (ordered_past hord _ hmem) h

/-- The ledger against the history: what stands in it stands there, and what does not is too old or was shed. -/
private theorem ledger_history (h0 : 0 ≤ window_s) (calls : List (Call α)) (hord : Ordered calls) :
    (∀ e ∈ (ledger window_s max_window calls).entries, e.stands = true →
      e.alarm ∈ standing calls ∧ inside window_s calls e.alarm = true) ∧
    ∀ a ∈ standing calls, inside window_s calls a = true →
      (∃ e ∈ (ledger window_s max_window calls).entries, e.stands = true ∧ e.alarm = a) ∨
        a ∈ (ledger window_s max_window calls).shed := by
  induction calls using List.reverseRecOn with
  | nil => exact ⟨fun e he => absurd he List.not_mem_nil, fun a ha => absurd ha List.not_mem_nil⟩
  | append_singleton calls call ih =>
    obtain ⟨hstands, hkept⟩ := ih (ordered_left hord)
    rw [ledger_append, standing_append]
    cases call with
    | remove id =>
      simp only [inside_remove]
      refine ⟨fun e he hs => ?_, fun a ha hin => ?_⟩
      · obtain ⟨he, hne⟩ := (mem_ended hs).mp he
        obtain ⟨hstanding, hin⟩ := hstands e he hs
        exact ⟨List.mem_filter.mpr ⟨hstanding, by simpa using hne⟩, hin⟩
      · obtain ⟨ha, hne⟩ := List.mem_filter.mp ha
        refine (hkept a ha hin).imp_left ?_
        rintro ⟨e, he, hs, rfl⟩
        exact ⟨e, (mem_ended hs).mpr ⟨he, by simpa using hne⟩, hs, rfl⟩
    | process new =>
      simp only [inside_process]
      refine ⟨fun e he hs => ?_, fun a ha hin => ?_⟩
      · rcases List.mem_append.mp he with he | he
        · obtain ⟨he, hne⟩ := (mem_ended hs).mp he
          obtain ⟨he, hfresh⟩ := List.mem_filter.mp (List.mem_of_mem_drop he)
          have hin : e.alarm ∈ (standing calls).filter (alarm_id · ≠ alarm_id new) :=
            List.mem_filter.mpr ⟨(hstands e he hs).1, by simpa using hne⟩
          exact ⟨List.mem_append_left _ hin, hfresh⟩
        · rw [List.mem_singleton.mp he]
          exact ⟨List.mem_append_right _ List.mem_cons_self, by simpa [fresh] using h0⟩
      · rcases List.mem_append.mp ha with ha | ha
        · obtain ⟨ha, hne⟩ := List.mem_filter.mp ha
          rcases hkept a ha (inside_earlier hord hin) with ⟨e, he, hs, rfl⟩ | hshed
          · have hwithin : e ∈ (ledger window_s max_window calls).within window_s (ts new) :=
              List.mem_filter.mpr ⟨he, hin⟩
            rw [← List.take_append_drop (((ledger window_s max_window calls).within window_s (ts new)).length -
              max_window) ((ledger window_s max_window calls).within window_s (ts new))] at hwithin
            rcases List.mem_append.mp hwithin with htake | hdrop
            · refine .inr (List.mem_append_right _ (List.mem_map.mpr ⟨e, ?_, rfl⟩))
              exact List.mem_filter.mpr ⟨htake, hs⟩
            · refine .inl ⟨e, List.mem_append_left _ ?_, hs, rfl⟩
              exact (mem_ended hs).mpr ⟨hdrop, by simpa using hne⟩
          · exact .inr (List.mem_append_left _ hshed)
        · exact .inl ⟨⟨new, true⟩, by simp [Ledger.step], rfl, (List.mem_singleton.mp ha).symm⟩

omit [WindowEntry α] in
private theorem mem_live {l : Ledger α} {a : α} : a ∈ l.live ↔ ∃ e ∈ l.entries, e.stands = true ∧ e.alarm = a := by
  unfold Ledger.live
  simp [List.mem_map, List.mem_filter, and_assoc]

private theorem Numbered.once (h : Numbered window_s max_window calls c) :
    c.index.keys.Perm ((ledger window_s max_window calls).live.map alarm_id) := by
  have hids : (ledger window_s max_window calls).live.map alarm_id =
      ((ledger window_s max_window calls).entries.filter (·.stands)).map (alarm_id ·.alarm) := List.map_map
  rw [hids]
  refine (List.perm_ext_iff_of_nodup c.index.keys_nodup (newest_ids h.newest)).mpr fun x => ?_
  refine (h.index.mem x).trans ?_
  simp [List.mem_map, List.mem_filter, and_assoc]

private theorem Numbered.accounted (h0 : 0 ≤ window_s) (hord : Ordered calls) (h : Numbered window_s max_window calls c) :
    Accounted window_s max_window calls c := by
  obtain ⟨hstands, hkept⟩ := ledger_history h0 calls hord
  refine ⟨fun x a => ?_, h.once, h.overflow, fun a ha => ?_, fun a ha hin => ?_⟩
  · rw [h.index x a, mem_live]
    constructor
    · rintro ⟨e, he, hs, ha, hid⟩
      exact ⟨⟨e, he, hs, ha⟩, hid⟩
    · rintro ⟨⟨e, he, hs, ha⟩, hid⟩
      exact ⟨e, he, hs, ha, hid⟩
  · obtain ⟨e, he, hs, rfl⟩ := mem_live.mp ha
    exact hstands e he hs
  · exact (hkept a ha hin).imp_left mem_live.mpr

private theorem burst_succ (c : Correlator α) (new : α) :
    (c.process new).1.index.keys.length = (c.process new).2.burst + 1 := by
  have hkeys : (c.process new).1.index.keys = alarm_id new :: (((c.evict (ts new)).remove (alarm_id new)).index.keys).erase
      (alarm_id new) := AList.keys_insert ..
  have hnot : alarm_id new ∉ ((c.evict (ts new)).remove (alarm_id new)).index.keys := by
    intro hin
    exact (AList.mem_erase.mp (AList.mem_keys.mpr hin)).1 rfl
  rw [hkeys, List.erase_of_not_mem hnot]
  rfl

end Track

/-- A run in order that takes no older activation out before its newest accounts for every alarm, and the next
such arrival is told how many there are. -/
theorem storm_accounted (window_s : ℚ) (max_candidates max_window : Nat) (calls : List (Call α)) (h0 : 0 ≤ window_s)
    (hord : Ordered calls)
    (hapart : Meets Correlator.step Apart (Correlator.start window_s max_candidates max_window) calls) :
    let c := run Correlator.step (Correlator.start window_s max_candidates max_window) calls
    Accounted window_s max_window calls c ∧
    ∀ new, Ordered (calls ++ [.process new]) → Apart c (.process new) → Counted window_s max_window calls c new := by
  intro c
  have htracked : Numbered window_s max_window calls c := Numbered.run calls [] _ ⟨tracked_start max_candidates, rfl⟩ hord hapart
  refine ⟨htracked.accounted h0 hord, fun new hnext hc => ?_⟩
  have hthen := (htracked.step hnext hc).once.length_eq
  rw [List.length_map] at hthen
  have hburst : (c.process new).2.burst = (ledger window_s max_window (calls ++ [.process new])).live.length - 1 := by
    rw [← hthen]
    exact (Nat.sub_eq_of_eq_add (burst_succ c new)).symm
  exact ⟨hburst, congrArg (fun n => decide (STORM_ALARMS ≤ n)) hburst⟩

/-- Two alarms, of which one is removed; the window then forgets the other, and a third arrives. -/
theorem storm_accounted_removal :
    let calls : List (Call WindowAlarm) := [.process ⟨1, 1, 1, 0⟩, .process ⟨2, 1, 1, 60⟩, .remove 2, .process ⟨1, 1, 1, 130⟩]
    Accounted 120 1 calls (run Correlator.step (Correlator.start 120 100 1) calls) := by
  refine (storm_accounted 120 100 1 _ (by norm_num) ?_ ?_).1
  · unfold Ordered
    decide +kernel
  · decide +kernel

/-- An alarm that is raised again inside the window is forgotten with its first activation, though the second is
a moment old; and the cap that sheds a first activation counts the alarm, which is still there. -/
theorem reactivation_uncounted :
    (¬ ∀ calls : List (Call WindowAlarm), Ordered calls →
      Accounted 120 20000 calls (run Correlator.step (Correlator.start 120 100 20000) calls)) ∧
    ¬ ∀ calls : List (Call WindowAlarm), Ordered calls →
      (run Correlator.step (Correlator.start 120 100 2) calls).overflow_dropped = (ledger 120 2 calls).shed.length := by
  refine ⟨fun h => ?_, fun h => ?_⟩
  · have := (h [.process ⟨1, 1, 1, 0⟩, .process ⟨1, 1, 1, 119⟩, .process ⟨2, 1, 1, 121⟩] (by unfold Ordered; decide +kernel)).once
    exact absurd this.length_eq (by decide +kernel)
  · have := h [.process ⟨1, 1, 1, 0⟩, .process ⟨1, 1, 1, 1⟩, .process ⟨2, 1, 1, 2⟩, .process ⟨3, 1, 1, 3⟩]
      (by unfold Ordered; decide +kernel)
    exact absurd this (by decide +kernel)

end NetCoreNoc.Correlate.Storm
