import Mathlib
import NetCoreNoc.Correlate.Saturation
import NetCoreNoc.Operate.Replay

/-! The what-if beside the replay: both answer the components of their links, and the links differ
where the cross-subtree gate overrules a pair. -/
namespace NetCoreNoc.Correlate.Recall

def SAME_NE_AFFINITY {E : Type} [Field E] : E := 4 / 5
def MIN_EDGE_N : ℚ := 5

/-- The lookups of a learner: the affinities between entities are never below zero. -/
structure Lookup (E : Type) [Field E] [LinearOrder E] extends Affinities E where
  nonneg : ∀ a ne b ne', 0 ≤ entity_affinity a ne b ne'

theorem npmi_nonneg {E : Type} [Field E] [LinearOrder E] [IsStrictOrderedRing E] (log : E → E)
    (m_ab total m_a m_b : E) : 0 ≤ npmi log m_ab total m_a m_b := by
  unfold npmi
  split
  · exact le_rfl
  · rename_i hpos
    have hab : 0 < m_ab := lt_of_not_ge fun h => hpos (.inl h)
    have hdiscount : 0 ≤ m_ab / (m_ab + 1) := div_nonneg hab.le (add_nonneg hab.le zero_le_one)
    split
    · exact le_rfl
    · dsimp only
      split
      · exact hdiscount
      · exact mul_nonneg (le_max_left ..) hdiscount

/-- `Learner.class_affinity` and `Learner.entity_affinity` -/
def lookups {E : Type} [Field E] [LinearOrder E] [IsStrictOrderedRing E] (log : E → E) (l : Learner) : Lookup E where
  class_affinity a b := l.A.affinity log a b
  entity_affinity a ne b ne' :=
    if a = b then 1
    else if ne = ne' then SAME_NE_AFFINITY
    else if MIN_EDGE_N ≤ l.E.pair_mass ne ne' then l.E.affinity log ne ne' else 0
  nonneg a ne b ne' := by
    split
    · exact zero_le_one
    · split
      · exact div_nonneg (Nat.ofNat_nonneg 4) (Nat.ofNat_nonneg 5)
      · split
        · exact npmi_nonneg log _ _ _ _
        · exact le_rfl

section Validated
variable {E : Type} [Field E] [LinearOrder E]

/-- Parameters that the validator accepts. -/
abbrev Validated (E : Type) [Field E] [LinearOrder E] := { s : AdditiveScorer E // s.validate_params = .ok () }

theorem scorer_linked (exp : E → E) (s : AdditiveScorer E) (f : LinkFeatures E) : ((s.scorer exp).score f).linked =
    decide (s.threshold < s.total exp f.delta_t_s (if unrelated_elements f then 0 else f.class_affinity)
      (if cross_subtree_elements f then 0 else f.entity_affinity)) := rfl

/-- A weight that is accepted is not negative. -/
theorem Validated.w_e_nonneg (s : Validated E) : 0 ≤ s.1.w_e := by
  have hvalid := s.2
  rw [AdditiveScorer.validate_params] at hvalid
  split at hvalid
  · exact absurd hvalid (by simp)
  · rename_i hfind
    have hrange := List.find?_eq_none.mp hfind ("w_e", s.1.w_e) (by simp)
    simp only [Bool.not_eq_true', Bool.and_eq_false_iff, decide_eq_false_iff_not, not_or, not_not] at hrange
    exact hrange.1

end Validated
end NetCoreNoc.Correlate.Recall

namespace NetCoreNoc.Operate
open Situations Correlate Correlate.Recall Components Relation

section Compared
variable {α : Type} [WindowEntry α]

theorem compared_snoc (window rest : List α) (new : α) : compared window (rest ++ [new]) =
    compared window rest ++
      (select_candidates (window ++ rest) (WindowEntry.ts new) WINDOW_S MAX_CANDIDATES none).map (new, ·) := by
  induction rest generalizing window with
  | nil => simp [compared]
  | cons a rest ih =>
    have hcut : window ++ [a] ++ rest = window ++ a :: rest := by simp
    rw [List.cons_append, compared, ih, hcut, compared, List.append_assoc]

end Compared

section Links
variable {E : Type} [Field E] {scorer : LinkScorer E} {learner : Affinities E}

theorem heard_snoc (window rest : List Activation) (new : Activation) :
    heard scorer learner window (rest ++ [new]) = heard scorer learner window rest ++
      [(entry new, ((select_candidates (window ++ rest) new.ts WINDOW_S MAX_CANDIDATES none).map
        (evaluated scorer learner new)).map (·.scored))] := by
  induction rest generalizing window with
  | nil => simp [heard]
  | cons a rest ih =>
    have hcut : window ++ [a] ++ rest = window ++ a :: rest := by simp
    rw [List.cons_append, heard, ih, heard, List.cons_append, hcut]

theorem heard_arrived (window rest : List Activation) (id : Nat) :
    (∃ x ∈ heard scorer learner window rest, x.1.alarm_id = id) ↔ ∃ a ∈ rest, a.alarm_id = id := by
  induction rest generalizing window with
  | nil => simp [heard]
  | cons new rest ih => simp [heard, entry, ih]

/-- The links of the formula, among the pairs that are compared. -/
def Accepted (scorer : LinkScorer E) (learner : Affinities E) (pairs : List (Activation × Activation))
    (a b : Nat) : Prop :=
  ∃ p ∈ pairs, (scorer.score (Recall.features p.1 p.2 learner none)).linked ∧ p.1.alarm_id = a ∧ p.2.alarm_id = b

/-- What is linked in a replay is what the formula accepts. -/
theorem heard_linked (alarms : List Activation) (a b : Nat) :
    Linked (heard scorer learner [] alarms) a b ↔ Accepted scorer learner (compared [] alarms) a b := by
  induction alarms using List.reverseRecOn with
  | nil =>
    refine iff_of_false ?_ ?_
    · rintro ⟨before, x, after, hsplit, -⟩
      exact absurd hsplit (by simp [heard])
    · rintro ⟨p, hp, -⟩
      exact absurd hp (by simp [compared])
  | append_singleton alarms new ih =>
    rw [heard_snoc, linked_snoc, ih, compared_snoc, List.nil_append]
    constructor
    · rintro (⟨p, hp, hlinked, rfl, rfl⟩ | ⟨rfl, ⟨p, hp, hlinked, rfl⟩, -⟩)
      · exact ⟨p, List.mem_append_left _ hp, hlinked, rfl, rfl⟩
      · rw [List.map_map] at hp
        obtain ⟨old, hold, rfl⟩ := List.mem_map.mp hp
        exact ⟨(new, old), List.mem_append_right _ (List.mem_map.mpr ⟨old, hold, rfl⟩), hlinked, rfl, rfl⟩
    · rintro ⟨p, hp, hlinked, rfl, rfl⟩
      rcases List.mem_append.mp hp with hp | hp
      · exact .inl ⟨p, hp, hlinked, rfl, rfl⟩
      · obtain ⟨old, hold, rfl⟩ := List.mem_map.mp hp
        refine .inr ⟨rfl, ⟨(evaluated scorer learner new old).scored, ?_, hlinked, rfl⟩, ?_⟩
        · exact List.mem_map.mpr ⟨_, List.mem_map.mpr ⟨old, hold, rfl⟩, rfl⟩
        · exact (heard_arrived [] alarms _).mpr ⟨old, mem_of_mem_candidates hold, rfl⟩

end Links

section WhatIf
variable {E : Type} [Field E] [LinearOrder E] [IsStrictOrderedRing E]

/-- The gate overrules a pair: of different elements whose enterprise subtrees are known and differ, it
clears the threshold with what was learned about the two elements, and does not without. -/
def Overruled (exp : E → E) (s : AdditiveScorer E) (learner : Affinities E) (p : Activation × Activation) : Prop :=
  let f := Recall.features p.1 p.2 learner none
  let class_affinity := if unrelated_elements f then 0 else f.class_affinity
  cross_subtree_elements f ∧ s.threshold < s.total exp f.delta_t_s class_affinity f.entity_affinity ∧
    ¬ s.threshold < s.total exp f.delta_t_s class_affinity 0

omit [IsStrictOrderedRing E] in
theorem facts_related (learner : Affinities E) (p : Activation × Activation) :
    unrelated_elements (previewed learner (facts p.1) (facts p.2)) =
      unrelated_elements (Recall.features p.1 p.2 learner none) := rfl

/-- The what-if accepts what the engine accepts, and the pairs that the gate overrules. -/
theorem previewed_linked (exp : E → E) (s : Validated E) (learner : Lookup E) (p : Activation × Activation) :
    ((s.1.scorer exp).score (previewed learner.toAffinities (facts p.1) (facts p.2))).linked ↔
      ((s.1.scorer exp).score (Recall.features p.1 p.2 learner.toAffinities none)).linked ∨
        Overruled exp s.1 learner.toAffinities p := by
  obtain ⟨f, hf⟩ : ∃ f, f = Recall.features p.1 p.2 learner.toAffinities none := ⟨_, rfl⟩
  have hpreview : cross_subtree_elements (previewed learner.toAffinities (facts p.1) (facts p.2)) = false := rfl
  have hopen : ((s.1.scorer exp).score (previewed learner.toAffinities (facts p.1) (facts p.2))).linked =
      decide (s.1.threshold < s.1.total exp f.delta_t_s (if unrelated_elements f then 0 else f.class_affinity)
        f.entity_affinity) := by
    rw [scorer_linked, hpreview, facts_related, hf]
    rfl
  rw [hopen, Overruled, ← hf, scorer_linked, decide_eq_true_eq, decide_eq_true_eq]
  cases hcross : cross_subtree_elements f with
  | false => simp
  | true =>
    -- a weight and an affinity below zero would let the closed gate raise the total
    have hlower : s.1.total exp f.delta_t_s (if unrelated_elements f then 0 else f.class_affinity) 0 ≤
        s.1.total exp f.delta_t_s (if unrelated_elements f then 0 else f.class_affinity) f.entity_affinity := by
      have hterm : s.1.w_e * 0 ≤ s.1.w_e * f.entity_affinity := by
        rw [mul_zero, hf]
        exact mul_nonneg s.w_e_nonneg (learner.nonneg ..)
      exact add_le_add_right hterm _
    simp only [if_true, true_and]
    constructor
    · intro h
      exact (lt_or_ge _ _).imp id fun hle => ⟨h, not_lt.mpr hle⟩
    · rintro (h | h)
      · exact h.trans_le hlower
      · exact h.1

/-- The links of the what-if, as pairs of activations. -/
theorem previewed_pairs (exp : E → E) (s : Validated E) (learner : Lookup E) (alarms : List Activation) (a b : Nat) :
    Previewed (s.1.scorer exp) learner.toAffinities (compared [] (alarms.map facts)) a b ↔
      Accepted (s.1.scorer exp) learner.toAffinities (compared [] alarms) a b ∨
        ∃ p ∈ compared [] alarms, Overruled exp s.1 learner.toAffinities p ∧ p.1.alarm_id = a ∧ p.2.alarm_id = b := by
  have hmap : compared [] (alarms.map facts) = (compared [] alarms).map fun p => (facts p.1, facts p.2) :=
    compared_map (f := facts) (fun _ => rfl) (fun _ => rfl) [] alarms
  rw [hmap]
  constructor
  · rintro ⟨q, hq, hlinked, rfl, rfl⟩
    obtain ⟨p, hp, rfl⟩ := List.mem_map.mp hq
    rcases (previewed_linked exp s learner p).mp hlinked with h | h
    · exact .inl ⟨p, hp, h, rfl, rfl⟩
    · exact .inr ⟨p, hp, h, rfl, rfl⟩
  · rintro (⟨p, hp, h, rfl, rfl⟩ | ⟨p, hp, h, rfl, rfl⟩)
    · exact ⟨_, List.mem_map.mpr ⟨p, hp, rfl⟩, (previewed_linked exp s learner p).mpr (.inl h), rfl, rfl⟩
    · exact ⟨_, List.mem_map.mpr ⟨p, hp, rfl⟩, (previewed_linked exp s learner p).mpr (.inr h), rfl, rfl⟩

/-- A correlator as the engine builds it, and a grouping by connected components. -/
def Replay.start (exp : E → E) (s : Validated E) (t : { t : Tables // t.Sequenced }) (params : GroupingParams E)
    (cross : Cross E) : Replay E :=
  let grouper : Grouper E := ⟨.components, params, cross⟩
  ⟨{ scorer := s.1.scorer exp, grouper := grouper }, Engine.fresh t.1 grouper⟩

omit [IsStrictOrderedRing E] in
/-- The situations after a replay: every alarm is in one, and they are the components of the links. -/
theorem replay_component (exp : E → E) (s : Validated E) (t : { t : Tables // t.Sequenced })
    (params : GroupingParams E) (cross : Cross E) (learner : Affinities E) (teaches : Bool) (snapshot : Snapshot) :
    let sit_of := (Runs.run (Replay.activate learner teaches) (Replay.start exp s t params cross)
      snapshot.alarms).engine.sit_of
    (∀ a ∈ snapshot.alarms, (sit_of a.alarm_id).isSome) ∧
    ∀ a ∈ snapshot.alarms, ∀ b ∈ snapshot.alarms, sit_of a.alarm_id = sit_of b.alarm_id ↔
      (SimpleGraph.fromRel (Accepted (s.1.scorer exp) learner (compared [] snapshot.alarms))).Reachable
        a.alarm_id b.alarm_id := by
  intro sit_of
  have hstart : ∀ clock, Replayed (Replay.start exp s t params cross).correlator [] clock := fun clock =>
    ⟨rfl, rfl, (by decide : MAX_CANDIDATES ≤ 20000), rfl,
      ⟨List.Pairwise.nil, fun id => iff_of_false (AList.notMem_empty id) fun ⟨_, ha, _⟩ => List.not_mem_nil ha⟩,
      [], rfl, fun _ _ ⟨_, ha, _⟩ => absurd ha List.not_mem_nil⟩
  obtain ⟨clock, hclock⟩ : ∃ clock, ∀ a ∈ snapshot.alarms, clock ≤ a.ts := by
    cases h : snapshot.alarms with
    | nil => exact ⟨0, by simp⟩
    | cons first rest =>
      have hlater := (List.pairwise_cons.mp (h ▸ snapshot.ordered)).1
      refine ⟨first.ts, fun a ha => ?_⟩
      rcases List.mem_cons.mp ha with rfl | ha
      · exact le_rfl
      · exact hlater a ha
  have hrun : (Runs.run (Replay.activate learner teaches) (Replay.start exp s t params cross) snapshot.alarms).engine =
      Runs.run Engine.arrive (Engine.fresh t.1 ⟨.components, params, cross⟩)
        (heard (s.1.scorer exp) learner [] snapshot.alarms) :=
    replay_run [] snapshot.alarms (Replay.start exp s t params cross) clock (hstart clock) snapshot.ordered
      snapshot.distinct snapshot.entities hclock
  have hplain : (Engine.fresh t.1 ⟨.components, params, cross⟩ : Engine E).Plain :=
    ⟨⟨fun _ _ => rfl, fun _ _ => rfl, t.2⟩, rfl, fun _ _ ha => absurd ha (by simp [Engine.fresh])⟩
  obtain ⟨-, hlabels, harrived⟩ := Engine.arrivals_labelled hplain (fun _ => rfl)
    (heard (s.1.scorer exp) learner [] snapshot.alarms)
  have hsit : sit_of = (Runs.run Engine.arrive (Engine.fresh t.1 ⟨.components, params, cross⟩)
      (heard (s.1.scorer exp) learner [] snapshot.alarms)).sit_of := congrArg Engine.sit_of hrun
  have hseen : ∀ a ∈ snapshot.alarms, (sit_of a.alarm_id).isSome := fun a ha => by
    rw [hsit, harrived, heard_arrived]
    exact ⟨a, ha, rfl⟩
  refine ⟨hseen, fun a ha b hb => ?_⟩
  obtain ⟨x, hx⟩ := Option.isSome_iff_exists.mp (hseen a ha)
  obtain ⟨y, hy⟩ := Option.isSome_iff_exists.mp (hseen b hb)
  rw [hx, hy, Option.some_inj]
  rw [← hsit] at hlabels
  exact (hlabels.congr fun a b => (heard_linked snapshot.alarms a b).symm).component hx hy

/-- The what-if answers what the engine does exactly when the links of the engine connect every pair that
its gate overrules. -/
theorem partition_replays (exp : E → E) (s : Validated E) (t : { t : Tables // t.Sequenced })
    (params : GroupingParams E) (cross : Cross E) (learner : Lookup E) (teaches : Bool) (snapshot : Snapshot) :
    let answer := (partition (snapshot.alarms.map facts) (s.1.scorer exp) learner.toAffinities).1
    let sit_of := (Runs.run (Replay.activate learner.toAffinities teaches) (Replay.start exp s t params cross)
      snapshot.alarms).engine.sit_of
    (∀ a ∈ snapshot.alarms, (answer.lookup a.alarm_id).isSome ∧ (sit_of a.alarm_id).isSome) ∧
    ((∀ a ∈ snapshot.alarms, ∀ b ∈ snapshot.alarms,
        answer.lookup a.alarm_id = answer.lookup b.alarm_id ↔ sit_of a.alarm_id = sit_of b.alarm_id) ↔
      ∀ p ∈ compared [] snapshot.alarms, Overruled exp s.1 learner.toAffinities p →
        (SimpleGraph.fromRel (Accepted (s.1.scorer exp) learner.toAffinities
          (compared [] snapshot.alarms))).Reachable p.1.alarm_id p.2.alarm_id) := by
  intro answer sit_of
  obtain ⟨hseen, hreplayed⟩ := replay_component exp s t params cross learner.toAffinities teaches snapshot
  obtain ⟨hanswered, hpreviewed⟩ := @partition_component E (s.1.scorer exp) learner.toAffinities
    (snapshot.alarms.map facts)
  have hmem : ∀ a ∈ snapshot.alarms, facts a ∈ snapshot.alarms.map facts := fun a ha => List.mem_map_of_mem ha
  refine ⟨fun a ha => ⟨hanswered _ (hmem a ha), hseen a ha⟩, fun h p hp hover => ?_, fun h a ha b hb => ?_⟩
  · obtain ⟨h1, h2⟩ := mem_compared hp
    refine (hreplayed _ h1 _ h2).mp ((h _ h1 _ h2).mp ((hpreviewed _ (hmem _ h1) _ (hmem _ h2)).mpr ?_))
    exact reachable_iff.mpr (.rel _ _ ((previewed_pairs ..).mpr (.inr ⟨p, hp, hover, rfl, rfl⟩)))
  · refine (hpreviewed _ (hmem a ha) _ (hmem b hb)).trans (Iff.trans ?_ (hreplayed a ha b hb).symm)
    change (SimpleGraph.fromRel _).Reachable a.alarm_id b.alarm_id ↔ _
    constructor
    · refine Reachable.of_edges fun a b hab => ?_
      rcases (previewed_pairs ..).mp hab with hab | ⟨p, hp, hover, rfl, rfl⟩
      · exact reachable_iff.mpr (.rel _ _ hab)
      · exact h p hp hover
    · exact Reachable.of_edges fun a b hab => reachable_iff.mpr (.rel _ _ ((previewed_pairs ..).mpr (.inl hab)))

end WhatIf

/-- The parameters that are shipped. -/
def shipped : Validated ℚ := ⟨⟨3 / 10, 7 / 20, 7 / 20, 30, 1 / 2⟩, by
  norm_num [AdditiveScorer.validate_params, MIN_TAU_S, MAX_TAU_S, MIN_WEIGHT_SUM, MIN_THRESHOLD, THRESHOLD_MARGIN]⟩

/-- What was learned about two elements that have raised alarms by turns. -/
def co_occurred : Lookup ℚ := lookups (· - 1) (Runs.run Learner.step {} (.activation (1, 1) [] false ::
  (List.range 9).map fun i => if i % 2 = 0 then .activation (1, 2) [(1, 1)] false else .activation (1, 1) [(1, 2)] false))

/-- An alarm of each of those elements, of one enterprise and of another. -/
def of_one : Activation := ⟨⟨1, 3, 1, 0⟩, 1, "1.3.6.1.4.1.1271", [], -1, 0, "", ∅⟩
def of_other : Activation := ⟨⟨2, 4, 2, 0⟩, 2, "1.3.6.1.4.1.2636", [], -1, 0, "", ∅⟩

def two_enterprises : Snapshot where
  alarms := [of_one, of_other]
  ordered := by decide
  distinct := by decide
  entities := by decide

theorem partition_replays_shipped :
    let answer := (partition (two_enterprises.alarms.map facts) (shipped.1.scorer fun _ => 1) co_occurred.toAffinities).1
    let sit_of := (Runs.run (Replay.activate co_occurred.toAffinities false)
      (Replay.start (fun _ => 1) shipped Engine.empty ⟨0, 0, 1⟩ .empty) two_enterprises.alarms).engine.sit_of
    ∀ a ∈ two_enterprises.alarms, (answer.lookup a.alarm_id).isSome ∧ (sit_of a.alarm_id).isSome := by
  intro answer sit_of
  obtain ⟨hseen, -⟩ := partition_replays (fun _ => 1) shipped Engine.empty ⟨0, 0, 1⟩ .empty co_occurred false
    two_enterprises
  exact hseen

/-- The gate overrules the pair. -/
private theorem overruled_two : (of_other, of_one) ∈ compared [] two_enterprises.alarms ∧
    Overruled (fun _ => 1) shipped.1 co_occurred.toAffinities (of_other, of_one) := by
  have hcompared : compared [] two_enterprises.alarms = [(of_other, of_one)] := by
    norm_num [compared, two_enterprises, select_candidates, select, WindowEntry.ts, of_one, of_other,
      WINDOW_S, MAX_CANDIDATES]
  refine ⟨hcompared ▸ List.mem_singleton_self _, ?_⟩
  unfold Overruled
  decide +kernel

/-- The what-if groups two alarms that the engine keeps apart. -/
theorem partition_overlooks_gate : ¬ ∀ (exp : ℚ → ℚ) (s : Validated ℚ) (t : { t : Tables // t.Sequenced })
    (params : GroupingParams ℚ) (cross : Cross ℚ) (learner : Lookup ℚ) (teaches : Bool) (snapshot : Snapshot),
    let answer := (partition (snapshot.alarms.map facts) (s.1.scorer exp) learner.toAffinities).1
    let sit_of := (Runs.run (Replay.activate learner.toAffinities teaches) (Replay.start exp s t params cross)
      snapshot.alarms).engine.sit_of
    ∀ a ∈ snapshot.alarms, ∀ b ∈ snapshot.alarms,
      answer.lookup a.alarm_id = answer.lookup b.alarm_id ↔ sit_of a.alarm_id = sit_of b.alarm_id := by
  intro h
  obtain ⟨hpair, hover⟩ := overruled_two
  have hone : of_one ∈ two_enterprises.alarms := List.mem_cons_self
  have hother : of_other ∈ two_enterprises.alarms := List.mem_cons_of_mem _ List.mem_cons_self
  obtain ⟨-, hanswered⟩ := @partition_component ℚ (shipped.1.scorer fun _ => 1) co_occurred.toAffinities
    (two_enterprises.alarms.map facts)
  have htogether := (hanswered _ (List.mem_map_of_mem hother) _ (List.mem_map_of_mem hone)).mpr
    (reachable_iff.mpr (.rel _ _ ((previewed_pairs ..).mpr (.inr ⟨_, hpair, hover, rfl, rfl⟩))))
  have hapart := (h (fun _ => 1) shipped Engine.empty ⟨0, 0, 1⟩ .empty co_occurred false two_enterprises
    _ hother _ hone).mp htogether
  exact absurd hapart (by decide +kernel)

end NetCoreNoc.Operate
