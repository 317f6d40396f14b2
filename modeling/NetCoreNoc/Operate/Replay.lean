import Mathlib
import NetCoreNoc.Correlate.Preview
import NetCoreNoc.Operate.Arrivals

/-! The alarms of a snapshot, one after the other through the correlator and the engine, beside what the
what-if answers of them at once. -/
namespace NetCoreNoc.Operate
open Situations Correlate Correlate.Recall Components

/-- The correlator, and the engine that executes what it places. -/
structure Replay (E : Type) where
  correlator : Recall.Correlator E
  engine : Engine E

/-- The member that an activation makes. -/
def entry (a : Activation) : Member := ⟨a.alarm_id, a.class_id, a.device_id, a.ts⟩

/-- `_process`, from an activation on. The grouping is one object that both hold. -/
def Replay.activate {E : Type} [Field E] [LinearOrder E] (learner : Affinities E) (teaches : Bool)
    (s : Replay E) (a : Activation) : Replay E :=
  let answer := ({ s.correlator with grouper := s.engine.grouper } : Recall.Correlator E).process a.post_init
    learner s.engine.sit_of (s.engine.sit_of a.alarm_id) teaches
  ⟨answer.1, s.engine.assign (entry a) answer.2.placement (answer.2.evaluated.map (·.scored))⟩

/-- Alarms in the order of their timestamps, each once, with the entities of the store. -/
structure Snapshot where
  alarms : List Activation
  ordered : alarms.Pairwise (·.ts ≤ ·.ts)
  distinct : alarms.Pairwise (·.alarm_id ≠ ·.alarm_id)
  entities : ∀ a ∈ alarms, a.entity_id ≠ 0

/-- The facts that the what-if reads of an alarm. -/
def facts (a : Activation) : PreviewAlarm := ⟨a.alarm_id, a.class_id, a.device_id, a.entity_id, a.ts⟩

/-- A window without tombstones, and its index. -/
structure Indexed (window : List Activation) (index : Dict Activation) : Prop where
  distinct : window.Pairwise (·.alarm_id ≠ ·.alarm_id)
  agrees : ∀ id, id ∈ index ↔ ∃ a ∈ window, a.alarm_id = id

/-- A part of the window leaves it, and the index. -/
theorem Indexed.without {out rest : List Activation} {index : Dict Activation} (h : Indexed (out ++ rest) index) :
    Indexed rest (Window.without index (out.map WindowEntry.alarm_id)) := by
  obtain ⟨-, hrest, hapart⟩ := List.pairwise_append.mp h.distinct
  refine ⟨hrest, fun id => ?_⟩
  rw [Window.mem_without, h.agrees]
  constructor
  · rintro ⟨hout, a, ha, rfl⟩
    exact ⟨a, (List.mem_append.mp ha).resolve_left fun ha => hout (List.mem_map_of_mem ha), rfl⟩
  · rintro ⟨a, ha, rfl⟩
    refine ⟨fun hout => ?_, a, List.mem_append_right _ ha, rfl⟩
    obtain ⟨b, hb, hid⟩ := List.mem_map.mp hout
    exact hapart b hb a ha hid

section Window
variable {E : Type} {c : Recall.Correlator E}

/-- The window of a replay: of the alarms so far, only what is too old or over the cap has gone. -/
structure Replayed (c : Recall.Correlator E) (before : List Activation) (clock : ℚ) : Prop where
  window_s : c.window_s = WINDOW_S
  max_candidates : c.max_candidates = MAX_CANDIDATES
  max_window : MAX_CANDIDATES ≤ c.max_window
  additive : c.scorer.logit = none
  indexed : Indexed c.window c.index
  gone : ∃ gone, before = gone ++ c.window ∧
    ∀ t, clock ≤ t → (∃ a ∈ gone, fresh WINDOW_S t a = true) → c.max_window ≤ c.window.length

variable {before : List Activation}

theorem Replayed.evict {clock now : ℚ} (h : Replayed c before clock)
    (hsorted : before.Pairwise (·.ts ≤ ·.ts)) (hnow : clock ≤ now) :
    Replayed (c.evict now) before now ∧ (c.evict now).scorer = c.scorer ∧ (c.evict now).grouper = c.grouper := by
  obtain ⟨gone, hbefore, hgone⟩ := h.gone
  have hin := h.indexed
  obtain ⟨aged, haged⟩ : ∃ aged, aged = c.window.filter fun a => !fresh c.window_s now a := ⟨_, rfl⟩
  obtain ⟨w, hw⟩ : ∃ w, w = c.window.filter (fresh c.window_s now) := ⟨_, rfl⟩
  have hordered : c.window.Pairwise (WindowEntry.ts · ≤ WindowEntry.ts ·) := by
    rw [hbefore] at hsorted
    exact (List.pairwise_append.mp hsorted).2.1
  have hsplit : c.window = aged ++ w := by rw [haged, hw, Window.aged_append hordered]
  have hevict := Window.evict_eq c.toCorrelator now hordered
  dsimp only at hevict
  rw [← haged, ← hw] at hevict
  have hwindow : (c.evict now).window = w.drop (w.length - c.max_window) :=
    (congrArg Correlate.Correlator.window hevict).trans rfl
  have hmax : (c.evict now).max_window = c.max_window := (congrArg Correlate.Correlator.max_window hevict).trans rfl
  refine ⟨⟨(congrArg Correlate.Correlator.window_s hevict).trans h.window_s,
    (congrArg Correlate.Correlator.max_candidates hevict).trans h.max_candidates, hmax ▸ h.max_window, h.additive, ?_,
    gone ++ aged ++ w.take (w.length - c.max_window), ?_, fun t ht hfresh => ?_⟩, rfl, rfl⟩
  · rw [hwindow, show (c.evict now).index = _ from congrArg Correlate.Correlator.index hevict]
    rw [hsplit, ← List.take_append_drop (w.length - c.max_window) w] at hin
    exact hin.without.without
  · rw [hbefore, hsplit, hwindow, List.append_assoc, List.append_assoc, List.take_append_drop]
  · rw [hmax, hwindow, List.length_drop]
    by_cases hover : w.length ≤ c.max_window
    · -- nothing is over the cap: what is in the window and has gone had gone before
      have hzero : w.length - c.max_window = 0 := Nat.sub_eq_zero_of_le hover
      rw [hzero, List.take_zero, List.append_nil] at hfresh
      rw [hzero, Nat.sub_zero]
      obtain ⟨a, ha, hin'⟩ := hfresh
      have hlater : ∀ b : Activation, fresh WINDOW_S t b = true → fresh WINDOW_S now b = true := fun b =>
        Window.fresh_earlier ht
      have hold : ∀ b ∈ aged, fresh WINDOW_S now b = false := fun b hb => by
        rw [haged, h.window_s] at hb
        simpa using (List.mem_filter.mp hb).2
      rcases List.mem_append.mp ha with ha | ha
      · have hnone : aged = [] := by
          refine List.eq_nil_iff_forall_not_mem.mpr fun b hb => ?_
          have hle : a.ts ≤ b.ts := by
            rw [hbefore, hsplit] at hsorted
            exact (List.pairwise_append.mp hsorted).2.2 a ha b (List.mem_append_left _ hb)
          have hin := Window.fresh_later (α := Activation) hle (hlater a hin')
          rw [hold b hb] at hin
          exact absurd hin (by decide)
        have := hgone t (hnow.trans ht) ⟨a, ha, hin'⟩
        rwa [hsplit, hnone, List.nil_append] at this
      · exact absurd (hold a ha) (by rw [hlater a hin']; decide)
    · omega

/-- The candidates of the window that is left are those of the whole past. -/
theorem Replayed.recent_live {clock : ℚ} (h : Replayed c before clock)
    (hsorted : before.Pairwise (·.ts ≤ ·.ts)) :
    c.recent_live clock = select_candidates before clock WINDOW_S MAX_CANDIDATES none := by
  obtain ⟨gone, hbefore, hgone⟩ := h.gone
  have hwindow : c.window.Pairwise (·.ts ≤ ·.ts) := by
    rw [hbefore] at hsorted
    exact (List.pairwise_append.mp hsorted).2.1
  have hlive : (c.window.filter (fresh WINDOW_S clock)).filter (fun a => decide (a.alarm_id ∈ c.index)) =
      c.window.filter (fresh WINDOW_S clock) := by
    refine List.filter_eq_self.mpr fun a ha => decide_eq_true ?_
    exact (h.indexed.agrees _).mpr ⟨a, List.mem_of_mem_filter ha, rfl⟩
  have hall (l : List Activation) : (l.filter fun _ => true) = l := List.filter_eq_self.mpr fun _ _ => rfl
  rw [Correlate.Correlator.recent_live, h.window_s, h.max_candidates,
    select_candidates_sorted _ hwindow (by decide), select_candidates_sorted _ hsorted (by decide)]
  simp only [Option.getD_some, Option.getD_none, hall]
  change List.drop (((c.window.filter (fresh WINDOW_S clock)).filter fun a => decide (a.alarm_id ∈ c.index)).length -
    MAX_CANDIDATES) ((c.window.filter (fresh WINDOW_S clock)).filter fun a => decide (a.alarm_id ∈ c.index)) = _
  rw [hlive, hbefore, List.filter_append]
  cases hg : gone.filter (fresh WINDOW_S clock) with
  | nil => rw [List.nil_append]
  | cons a rest =>
    -- what has gone is still in the window: so is all that is left, and that is enough
    have ha : a ∈ gone.filter (fresh WINDOW_S clock) := hg ▸ List.mem_cons_self
    obtain ⟨ha, hin⟩ := List.mem_filter.mp ha
    have hfull := h.max_window.trans (hgone clock le_rfl ⟨a, ha, hin⟩)
    have hself : c.window.filter (fresh WINDOW_S clock) = c.window := by
      refine List.filter_eq_self.mpr fun b hb => ?_
      have hle : a.ts ≤ b.ts := by
        rw [hbefore] at hsorted
        exact (List.pairwise_append.mp hsorted).2.2 a ha b hb
      exact Window.fresh_later hle hin
    rw [hself, List.length_append, ← hg]
    rw [List.drop_append]
    have hover : (gone.filter (fresh WINDOW_S clock)).length ≤
        (gone.filter (fresh WINDOW_S clock)).length + c.window.length - MAX_CANDIDATES := by omega
    rw [List.drop_eq_nil_of_le hover, List.nil_append]
    congr 1
    omega

/-- To remove an alarm that has not arrived changes nothing. -/
theorem Replayed.remove {clock : ℚ} {alarm_id : Nat} (h : Replayed c before clock)
    (hnew : ∀ a ∈ before, a.alarm_id ≠ alarm_id) : Replayed (c.remove alarm_id) before clock := by
  obtain ⟨gone, hbefore, hgone⟩ := h.gone
  refine ⟨h.window_s, h.max_candidates, h.max_window, h.additive, ⟨h.indexed.distinct, fun id => ?_⟩, gone, hbefore, hgone⟩
  change id ∈ c.index.erase alarm_id ↔ ∃ a ∈ c.window, a.alarm_id = id
  rw [AList.mem_erase, h.indexed.agrees]
  refine and_iff_right_of_imp ?_
  rintro ⟨a, ha, rfl⟩
  exact hnew a (hbefore ▸ List.mem_append_right _ ha)

/-- An alarm that has not arrived enters the window. -/
theorem Replayed.enter {new : Activation} (h : Replayed c before new.ts)
    (hnew : ∀ a ∈ before, a.alarm_id ≠ new.alarm_id) (episodes : PartneredMemory) :
    Replayed (c.enter new episodes) (before ++ [new]) new.ts := by
  obtain ⟨gone, hbefore, hgone⟩ := h.gone
  have hout : ∀ a ∈ c.window, a.alarm_id ≠ new.alarm_id := fun a ha =>
    hnew a (hbefore ▸ List.mem_append_right _ ha)
  refine ⟨h.window_s, h.max_candidates, h.max_window, h.additive, ⟨?_, fun id => ?_⟩, gone, ?_, fun t ht hfresh => ?_⟩
  · refine List.pairwise_append.mpr ⟨h.indexed.distinct, List.pairwise_singleton .., fun a ha b hb => ?_⟩
    obtain rfl := List.mem_singleton.mp hb
    exact hout a ha
  · change id ∈ c.index.insert new.alarm_id new ↔ ∃ a ∈ c.window ++ [new], _
    rw [AList.mem_insert, h.indexed.agrees]
    constructor
    · rintro (rfl | ⟨a, ha, rfl⟩)
      · exact ⟨new, by simp, rfl⟩
      · exact ⟨a, List.mem_append_left _ ha, rfl⟩
    · rintro ⟨a, ha, rfl⟩
      rcases List.mem_append.mp ha with ha | ha
      · exact .inr ⟨a, ha, rfl⟩
      · obtain rfl := List.mem_singleton.mp ha
        exact .inl rfl
  · rw [hbefore, List.append_assoc]
    rfl
  · have hle := hgone t ht hfresh
    change c.max_window ≤ (c.window ++ [new]).length
    rw [List.length_append]
    exact hle.trans (Nat.le_add_right ..)

end Window

section Heard
variable {E : Type} [Field E] [LinearOrder E]

/-- What the formula says of a pair that the engine compares. -/
def evaluated (scorer : LinkScorer E) (learner : Affinities E) (new old : Activation) : EvaluatedPair E :=
  ⟨old, scorer.score (Recall.features new old learner none), none, 0, false⟩

/-- What the engine hears of the alarms of `rest`, after those of `window`. -/
def heard (scorer : LinkScorer E) (learner : Affinities E) (window : List Activation) :
    List Activation → List (Arrival E)
  | [] => []
  | new :: rest =>
    (entry new, ((select_candidates window new.ts WINDOW_S MAX_CANDIDATES none).map
      (evaluated scorer learner new)).map (·.scored)) :: heard scorer learner (window ++ [new]) rest

theorem replay_step (learner : Affinities E) (teaches : Bool) {s : Replay E} {clock : ℚ}
    {new : Activation} (h : Replayed s.correlator before clock) (hsorted : before.Pairwise (·.ts ≤ ·.ts))
    (hclock : clock ≤ new.ts) (hnew : ∀ a ∈ before, a.alarm_id ≠ new.alarm_id) (hentity : new.entity_id ≠ 0) :
    let s' := s.activate learner teaches new
    Replayed s'.correlator (before ++ [new]) new.ts ∧ s'.correlator.scorer = s.correlator.scorer ∧
      s'.engine = s.engine.arrive (entry new, ((select_candidates before new.ts WINDOW_S MAX_CANDIDATES none).map
        (evaluated s.correlator.scorer learner new)).map (·.scored)) := by
  intro s'
  have hpost : new.post_init = new := if_neg hentity
  obtain ⟨c, hc⟩ : ∃ c : Recall.Correlator E, c = { s.correlator with grouper := s.engine.grouper } := ⟨_, rfl⟩
  have hcr : Replayed c before clock := by
    rw [hc]
    exact ⟨h.window_s, h.max_candidates, h.max_window, h.additive, h.indexed, h.gone⟩
  obtain ⟨hevict, hscorer, hgrouper⟩ := hcr.evict hsorted hclock
  have hready := hevict.remove hnew
  obtain ⟨d, hd⟩ : ∃ d, d = (c.evict new.ts).remove new.alarm_id := ⟨_, rfl⟩
  rw [← hd] at hready
  have hdscorer : d.scorer = s.correlator.scorer := by
    rw [hd]
    exact hscorer.trans (by rw [hc])
  have hcandidates : d.candidates new =
      (select_candidates before new.ts WINDOW_S MAX_CANDIDATES none, []) := by
    have htwo : d.two_stage = false := by rw [Recall.Correlator.two_stage, hready.additive]; rfl
    rw [Recall.Correlator.candidates, htwo, hready.recent_live hsorted]
    rfl
  have hevaluate : ∀ burst, d.evaluate new learner burst = evaluated s.correlator.scorer learner new := by
    intro burst
    funext old
    rw [Recall.Correlator.evaluate, hready.additive, hdscorer]
    rfl
  have hplaces : d.grouper = s.engine.grouper := by
    rw [hd]
    exact hgrouper.trans (by rw [hc])
  obtain ⟨pairs, hpairs⟩ : ∃ pairs, pairs = (select_candidates before new.ts WINDOW_S MAX_CANDIDATES none).map
    (evaluated s.correlator.scorer learner new) := ⟨_, rfl⟩
  have hfound : ((d.candidates new).1 ++ (d.candidates new).2).map
      (d.evaluate new learner d.index.keys.length) = pairs := by
    rw [hcandidates, List.append_nil, hevaluate, hpairs]
  have hcorrelator : s'.correlator = d.enter new (if teaches then
      Recall.Correlator.observes new ((d.candidates new).1 ++ (d.candidates new).2) d.episodes else d.episodes) := by
    rw [hd, hc]
    simp only [s', Replay.activate, hpost, Recall.Correlator.process]
  have hengine : s'.engine = s.engine.assign (entry new)
      (d.grouper.place ((((d.candidates new).1 ++ (d.candidates new).2).map
        (d.evaluate new learner d.index.keys.length)).map (·.scored)) s.engine.sit_of (s.engine.sit_of new.alarm_id))
      ((((d.candidates new).1 ++ (d.candidates new).2).map
        (d.evaluate new learner d.index.keys.length)).map (·.scored)) := by
    rw [hd, hc]
    simp only [s', Replay.activate, hpost, Recall.Correlator.process]
  rw [hfound, hplaces] at hengine
  refine ⟨hcorrelator ▸ hready.enter hnew _, ?_, ?_⟩
  · rw [hcorrelator]
    exact hdscorer
  · rw [← hpairs]
    exact hengine

/-- A replay hears what the candidates of the whole past say. -/
theorem replay_run {learner : Affinities E} {teaches : Bool} (before rest : List Activation) (s : Replay E)
    (clock : ℚ) (h : Replayed s.correlator before clock) (hsorted : (before ++ rest).Pairwise (·.ts ≤ ·.ts))
    (hdistinct : (before ++ rest).Pairwise (·.alarm_id ≠ ·.alarm_id)) (hentity : ∀ a ∈ rest, a.entity_id ≠ 0)
    (hclock : ∀ a ∈ rest, clock ≤ a.ts) :
    (Runs.run (Replay.activate learner teaches) s rest).engine =
      Runs.run Engine.arrive s.engine (heard s.correlator.scorer learner before rest) := by
  induction rest generalizing before s clock with
  | nil => rfl
  | cons new rest ih =>
    have hcut : before ++ new :: rest = (before ++ [new]) ++ rest := by simp
    obtain ⟨hbefore, hlater, -⟩ := List.pairwise_append.mp hsorted
    have hnew : ∀ a ∈ before, a.alarm_id ≠ new.alarm_id := fun a ha =>
      (List.pairwise_append.mp hdistinct).2.2 a ha new List.mem_cons_self
    obtain ⟨h1, h2, h3⟩ := replay_step learner teaches h hbefore
      (hclock new List.mem_cons_self) hnew (hentity new List.mem_cons_self)
    rw [Runs.run_cons, ih (before ++ [new]) _ new.ts h1 (hcut ▸ hsorted) (hcut ▸ hdistinct)
      (fun a ha => hentity a (List.mem_cons_of_mem new ha)) (List.pairwise_cons.mp hlater).1, h2, h3, heard, Runs.run_cons]

end Heard
end NetCoreNoc.Operate
