import Mathlib
import NetCoreNoc.Evaluation.Rates
import NetCoreNoc.Evaluation.Corpus
import NetCoreNoc.Evaluation.Bootstrap

/-! The four named quantities of both arms, measured from the labelled corpus (`promotion_metrics.py`,
`shadow_assertions.py`). -/
namespace NetCoreNoc.Evaluation.Promotion
open Components

/-- The columns of a label that count what an operator marked; what was not recorded is 0. -/
structure Marks where
  feedback_id : ℕ
  excluded_reconciled : ℕ
  excluded_reconciled_out_of_scope : ℕ
  scope_redacted_members : ℕ
  deriving DecidableEq, Repr

/-- What is measured: the labelled corpus, and the membership and the marks that were captured with a label, each in
the order of the positions. -/
structure Dataset where
  corpus : Holdout.Corpus
  marks : List Marks := []
  feedback_member : List (ℕ × ℕ) := []
  feedback_exclusion : List (ℕ × ℕ) := []
  deriving DecidableEq, Repr

structure AssertingBag where
  feedback_id : ℕ
  incident : ℕ
  members : List ℕ
  marked : Finset ℕ
  hidden : Finset ℕ
  coverage : String

namespace AssertingBag
variable (bag : AssertingBag)

def eligible : Bool := bag.coverage ≠ "none" ∧ bag.coverage ≠ "empty" ∧ bag.marked.Nonempty

/-- The pairs that were asserted and whose ends the labeller could both see. -/
def observable_pairs : List (ℕ × ℕ) :=
  let marked_visible := bag.members.filter fun a => a ∈ bag.marked ∧ a ∉ bag.hidden
  let rest_visible := bag.members.filter fun a => a ∉ bag.marked ∧ a ∉ bag.hidden
  marked_visible.flatMap fun a => rest_visible.map fun b => (a, b)

/-- `component.get(a, a)` -/
def component_of (components : List (ℕ × ℕ)) (a : ℕ) : ℕ := (components.lookup a).getD a

/-- The rate of one bag, where it scores. -/
def respected_rate (components : List (ℕ × ℕ)) : Option ℚ :=
  if ¬ bag.eligible ∨ bag.observable_pairs = [] ∨ components = [] then none
  else
    let kept := bag.observable_pairs.countP fun p => component_of components p.1 ≠ component_of components p.2
    some ((kept : ℚ) / bag.observable_pairs.length)

end AssertingBag

/-- `_hidden` -/
def hidden_of (members : List ℕ) (marked : Finset ℕ) (hidden blind : ℕ) : Finset ℕ :=
  if hidden = 0 then ∅
  else (((members.filter (· ∈ marked)).take blind) ++ (members.filter (· ∉ marked)).take (hidden - blind)).toFinset

/-- What decides on a pair: a scorer, or the champion, whose decisions are stored. -/
abbrev Arm := Holdout.DatasetPair → Bool

def champion : Arm := (·.incumbent_linked)

/-- A dictionary from an incident to its values, in the order of the ids. -/
def grouped (values : List (ℕ × ℚ)) : List (ℕ × List ℚ) :=
  ((values.map (·.1)).toFinset.sort (· ≤ ·)).map fun i => (i, (values.filter (·.1 = i)).map (·.2))

namespace Dataset
variable (d : Dataset) (hash : ℕ × ℕ → ℤ) (arm : Arm)

def bags : List Holdout.LabelledBag := d.corpus.labelled_bags false
def rows : List Holdout.LabelledPair := d.corpus.labelled_pairs false
def incident_of (situation_id : ℕ) : ℕ := Holdout.resolve d.corpus.merged_into situation_id

/-- `feedback_members(feedback_id, "server")` -/
def members_of (feedback_id : ℕ) : List ℕ := (d.feedback_member.filter (·.1 = feedback_id)).map (·.2)

def reconciled_marks (feedback_id : ℕ) : Finset ℕ :=
  ((d.feedback_exclusion.filter (·.1 = feedback_id)).map (·.2)).toFinset ∩ (d.members_of feedback_id).toFinset

def asserting_bag (f : Holdout.Feedback) (m : Marks) : AssertingBag where
  feedback_id := f.id
  incident := d.incident_of f.situation_id
  members := d.members_of f.id
  marked := d.reconciled_marks f.id
  hidden := hidden_of (d.members_of f.id) (d.reconciled_marks f.id) m.scope_redacted_members
    m.excluded_reconciled_out_of_scope
  coverage := f.coverage.getD "unrecorded"

/-- `_asserting_bags`: every label that asserts something, and not only the one of its situation that counts. -/
def asserting_bags : List AssertingBag :=
  (d.corpus.feedback.insertionSort fun f g => f.id ≤ g.id).filterMap fun f =>
    (d.marks.find? (·.feedback_id = f.id)).bind fun m =>
      if f.verdict = "split" ∧ f.current ∧ 1 ≤ m.excluded_reconciled then some (d.asserting_bag f m) else none

def bag_of (b : Holdout.LabelledBag) : Bag := ⟨b.feedback_id, if b.verdict = "confirm" then .confirm else .split⟩

def pair_of (r : Holdout.LabelledPair) : Pair := ⟨r.pair.id, r.feedback_id, r.pair.alarm_a, r.pair.alarm_b⟩

/-- `pair_id → linked`: of two rows with one id the later counts. -/
def decisions : List (ℕ × Bool) := (d.rows.map fun r => (r.pair.id, arm r.pair)).reverse

/-- `_by_incident` of the bags and of the pairs, in the order of the incidents that have a bag. -/
def incidents : List (ℕ × List Bag × List Pair) :=
  ((d.bags.map fun b => d.incident_of b.situation_id).toFinset.sort (· ≤ ·)).map fun i =>
    (i, (d.bags.filter fun b => d.incident_of b.situation_id = i).map bag_of,
      (d.rows.filter fun r => d.incident_of r.pair.situation_id = i).map pair_of)

/-- What is scored of an incident. -/
def scored (i : ℕ × List Bag × List Pair) : Corpus := ⟨i.2.1, i.2.2, d.decisions arm⟩

/-- `_partition_rates`: a rate that cannot be computed contributes nothing. -/
def partition_rates (rate : PartitionScore → Option ℚ) : List (ℕ × List ℚ) :=
  d.incidents.filterMap fun i => (rate (evaluate hash (d.scored arm i))).map fun r => (i.1, [r])

/-- The links that an arm accepts under a label. -/
def edges_of (feedback_id : ℕ) : List (ℕ × ℕ) :=
  let whole : Corpus := ⟨[], d.rows.map pair_of, d.decisions arm⟩
  whole.edges (whole.rows feedback_id)

/-- `_components_for` -/
def components_for (bag : AssertingBag) : List (ℕ × ℕ) :=
  partition (d.edges_of arm bag.feedback_id) bag.members.toFinset

def asserted_negative_respected_rate : List (ℕ × List ℚ) :=
  grouped (d.asserting_bags.filterMap fun bag =>
    (bag.respected_rate (d.components_for arm bag)).map fun rate => (bag.incident, rate))

end Dataset

inductive Name where
  | over_merge_rate
  | under_merge_rate
  | split_bag_intact_rate
  | asserted_negative_respected_rate
  deriving DecidableEq, Repr

def HEADLINE_QUANTITIES : List Name := [.over_merge_rate, .under_merge_rate]

def LOWER_IS_BETTER : List Name := [.over_merge_rate, .under_merge_rate, .split_bag_intact_rate]

structure Quantity where
  name : Name
  challenger : Interval
  champion : Interval
  deriving DecidableEq, Repr

namespace Quantity
variable (q : Quantity)

def favours_challenger : Bool :=
  if q.name ∈ LOWER_IS_BETTER then q.challenger.rate < q.champion.rate else q.champion.rate < q.challenger.rate

def excludes_zero : Bool := ¬ (q.challenger.low ≤ q.champion.rate ∧ q.champion.rate ≤ q.challenger.high)

end Quantity

/-- The four quantities, by their names. -/
structure Metrics where
  by_name : Name → Quantity

/-- Of the labels of an incident that are hashed, two are of one predicted situation and of two bags. -/
def OverMerged (hash : ℕ × ℕ → ℤ) (c : Corpus) : Prop :=
  ∃ x ∈ c.labels (c.bagged.sort (· ≤ ·)), ∃ y ∈ c.labels (c.bagged.sort (· ≤ ·)), hash x = hash y ∧ x.1 ≠ y.1

/-- Two are of one bag and of two predicted situations. -/
def UnderMerged (hash : ℕ × ℕ → ℤ) (c : Corpus) : Prop :=
  ∃ x ∈ c.labels (c.bagged.sort (· ≤ ·)), ∃ y ∈ c.labels (c.bagged.sort (· ≤ ·)), x.1 = y.1 ∧ hash x ≠ hash y

namespace Dataset
variable (d : Dataset) (hash : ℕ × ℕ → ℤ)

/-- `arms[arm][name]` -/
def interval (arm : Arm) : Name → Interval
  | .over_merge_rate => cluster_bootstrap (d.partition_rates hash arm (·.over_merge))
  | .under_merge_rate => cluster_bootstrap (d.partition_rates hash arm (·.under_merge))
  | .split_bag_intact_rate => cluster_bootstrap (d.partition_rates hash arm (·.split_bag_intact_rate))
  | .asserted_negative_respected_rate => cluster_bootstrap (d.asserted_negative_respected_rate arm)

/-- The four quantities of both arms; `hash` is that of a label, a bag with a component. -/
def measure (scorer : Arm) : Metrics where
  by_name name :=
    if d.rows = [] then ⟨name, .empty, .empty⟩ else ⟨name, d.interval hash scorer name, d.interval hash champion name⟩

/-- The links of an arm reproduce every verdict: they leave each confirmed bag whole and apart from the others of its
incident, as predicted situations are told apart; they divide each split bag; and they join no asserted pair. -/
structure Reproduces (arm : Arm) : Prop where
  whole : ∀ i ∈ d.incidents, ∀ f ∈ (d.scored arm i).confirmBags, (d.scored arm i).Inside (Corpus.under f) f
  apart : ∀ i ∈ d.incidents, ∀ x ∈ (d.scored arm i).labels ((d.scored arm i).bagged.sort (· ≤ ·)),
    ∀ y ∈ (d.scored arm i).labels ((d.scored arm i).bagged.sort (· ≤ ·)), hash x = hash y → x.1 = y.1
  divided : ∀ i ∈ d.incidents, ∀ f ∈ (d.scored arm i).splitBags, ¬ (d.scored arm i).Inside (Corpus.under f) f
  respected : ∀ bag ∈ d.asserting_bags, bag.eligible → ∀ p ∈ bag.observable_pairs,
    ¬ (joined (d.edges_of arm bag.feedback_id) bag.members.toFinset).Reachable p.1 p.2

/-- An arm joins no pair that was asserted and observable. -/
def Respects (arm : Arm) : Prop := ∀ bag ∈ d.asserting_bags, bag.eligible → ∀ p ∈ bag.observable_pairs,
  ¬ (joined (d.edges_of arm bag.feedback_id) bag.members.toFinset).Reachable p.1 p.2

/-- Pairs were asserted, and the arms are measured. -/
def Asserts : Prop := d.rows ≠ [] ∧ ∃ bag ∈ d.asserting_bags, bag.eligible ∧ bag.observable_pairs ≠ []

/-- An arm leaves a split bag in one component. -/
def LeavesWhole (arm : Arm) : Prop :=
  ∃ i ∈ d.incidents, ∃ f ∈ (d.scored arm i).splitBags, (d.scored arm i).Inside (Corpus.under f) f

variable {d} {hash} {arm : Arm}

variable {rate : PartitionScore → Option ℚ}

theorem partition_rates_const {v : ℚ}
    (h : ∀ i ∈ d.incidents, ∀ r, rate (evaluate hash (d.scored arm i)) = some r → r = v) :
    Constant v ((d.partition_rates hash arm rate).map (·.2)) := by
  intro l hl
  obtain ⟨e, he, rfl⟩ := List.mem_map.mp hl
  obtain ⟨i, hi, hrate⟩ := List.mem_filterMap.mp he
  obtain ⟨r, hr, rfl⟩ := Option.map_eq_some_iff.mp hrate
  refine ⟨List.cons_ne_nil _ _, fun x hx => ?_⟩
  rw [List.mem_singleton.mp hx]
  exact h i hi r hr

/-- The values of a rate are its values at the incidents where it can be computed. -/
theorem mem_partition_rates {r : ℚ} :
    r ∈ ((d.partition_rates hash arm rate).map (·.2)).flatten ↔
      ∃ i ∈ d.incidents, rate (evaluate hash (d.scored arm i)) = some r := by
  rw [List.mem_flatten]
  constructor
  · rintro ⟨l, hl, hr⟩
    obtain ⟨e, he, rfl⟩ := List.mem_map.mp hl
    obtain ⟨i, hi, hrate⟩ := List.mem_filterMap.mp he
    obtain ⟨s, hs, rfl⟩ := Option.map_eq_some_iff.mp hrate
    exact ⟨i, hi, List.mem_singleton.mp hr ▸ hs⟩
  · rintro ⟨i, hi, hr⟩
    refine ⟨[r], List.mem_map.mpr ⟨(i.1, [r]), List.mem_filterMap.mpr ⟨i, hi, ?_⟩, rfl⟩, List.mem_singleton.mpr rfl⟩
    rw [hr]
    rfl

/-- A rate over the corpus is positive where it is at some incident. -/
theorem partition_rate_pos
    (h : ∀ i ∈ d.incidents, ∀ r, rate (evaluate hash (d.scored arm i)) = some r → 0 ≤ r) :
    0 ≤ (cluster_bootstrap (d.partition_rates hash arm rate)).rate ∧
      (0 < (cluster_bootstrap (d.partition_rates hash arm rate)).rate ↔
        ∃ i ∈ d.incidents, ∃ r, rate (evaluate hash (d.scored arm i)) = some r ∧ 0 < r) := by
  have hnonneg : ∀ r ∈ ((d.partition_rates hash arm rate).map (·.2)).flatten, 0 ≤ r := by
    intro r hr
    obtain ⟨i, hi, hr⟩ := mem_partition_rates.mp hr
    exact h i hi r hr
  rw [bootstrap_rate, mean_pos hnonneg]
  refine ⟨mean_nonneg hnonneg, ?_, ?_⟩
  · rintro ⟨r, hr, hpos⟩
    obtain ⟨i, hi, hr⟩ := mem_partition_rates.mp hr
    exact ⟨i, hi, r, hr, hpos⟩
  · rintro ⟨i, hi, r, hr, hpos⟩
    exact ⟨r, mem_partition_rates.mpr ⟨i, hi, hr⟩, hpos⟩

theorem over_merge_some {c : Corpus} {r : ℚ} (h : (evaluate hash c).over_merge = some r) :
    r = over_merge_rate ((c.labels (c.bagged.sort (· ≤ ·))).map hash) ((c.labels (c.bagged.sort (· ≤ ·))).map (·.1)) := by
  rw [Corpus.evaluate_labels] at h
  dsimp only at h
  split at h
  · cases h
  · exact (Option.some.inj h).symm

theorem under_merge_some {c : Corpus} {r : ℚ} (h : (evaluate hash c).under_merge = some r) :
    r = under_merge_rate ((c.labels (c.bagged.sort (· ≤ ·))).map hash) ((c.labels (c.bagged.sort (· ≤ ·))).map (·.1)) := by
  rw [Corpus.evaluate_labels] at h
  dsimp only at h
  split at h
  · cases h
  · exact (Option.some.inj h).symm

private theorem confirmed_of_label {c : Corpus} {x : ℕ × ℕ} (hx : x ∈ c.labels (c.bagged.sort (· ≤ ·))) :
    c.confirmBags ≠ ∅ :=
  Finset.ne_empty_of_mem (Corpus.mem_labels_sorted.mp hx).1

theorem over_merge_pos : 0 ≤ (d.interval hash arm .over_merge_rate).rate ∧
    (0 < (d.interval hash arm .over_merge_rate).rate ↔ ∃ i ∈ d.incidents, OverMerged hash (d.scored arm i)) := by
  obtain ⟨hnonneg, hpos⟩ := @partition_rate_pos d hash arm (·.over_merge) fun i _ r hr =>
    over_merge_some hr ▸ Corpus.over_merge_rate_nonneg _ _
  refine ⟨hnonneg, hpos.trans ⟨?_, ?_⟩⟩
  · rintro ⟨i, hi, r, hr, hpos⟩
    rw [over_merge_some hr] at hpos
    exact ⟨i, hi, Corpus.over_merge_rate_pos.mp hpos⟩
  · rintro ⟨i, hi, hover⟩
    obtain ⟨x, hx, -⟩ := id hover
    refine ⟨i, hi, _, ?_, Corpus.over_merge_rate_pos.mpr hover⟩
    rw [Corpus.evaluate_labels]
    exact if_neg (confirmed_of_label hx)

theorem under_merge_pos : 0 ≤ (d.interval hash arm .under_merge_rate).rate ∧
    (0 < (d.interval hash arm .under_merge_rate).rate ↔ ∃ i ∈ d.incidents, UnderMerged hash (d.scored arm i)) := by
  obtain ⟨hnonneg, hpos⟩ := @partition_rate_pos d hash arm (·.under_merge) fun i _ r hr =>
    under_merge_some hr ▸ Corpus.over_merge_rate_nonneg _ _
  refine ⟨hnonneg, hpos.trans ⟨?_, ?_⟩⟩
  · rintro ⟨i, hi, r, hr, hpos⟩
    rw [under_merge_some hr] at hpos
    exact ⟨i, hi, Corpus.over_merge_rate_pos.mp hpos⟩
  · rintro ⟨i, hi, hunder⟩
    obtain ⟨x, hx, -⟩ := id hunder
    refine ⟨i, hi, _, ?_, Corpus.over_merge_rate_pos.mpr hunder⟩
    rw [Corpus.evaluate_labels]
    exact if_neg (confirmed_of_label hx)

theorem split_bag_intact_rate_eq (i : ℕ × List Bag × List Pair) :
    (evaluate hash (d.scored arm i)).split_bag_intact_rate = if (d.scored arm i).splitBags.card = 0 then none else
      some ((((d.scored arm i).intact Corpus.under).card : ℚ) / (d.scored arm i).splitBags.card) := by
  rw [Corpus.evaluate_labels]
  rfl

/-- The rate of split bags left whole is 0 for an arm that leaves none. -/
theorem intact_pos : 0 ≤ (d.interval hash arm .split_bag_intact_rate).rate ∧
    (0 < (d.interval hash arm .split_bag_intact_rate).rate ↔ d.LeavesWhole arm) := by
  have hsome : ∀ i r, (evaluate hash (d.scored arm i)).split_bag_intact_rate = some r →
      r = (((d.scored arm i).intact Corpus.under).card : ℚ) / (d.scored arm i).splitBags.card := by
    intro i r hr
    rw [split_bag_intact_rate_eq] at hr
    split at hr
    · exact nomatch hr
    · exact (Option.some.inj hr).symm
  obtain ⟨hnonneg, hpos⟩ := @partition_rate_pos d hash arm (·.split_bag_intact_rate) fun i _ r hr =>
    hsome i r hr ▸ by positivity
  refine ⟨hnonneg, hpos.trans ⟨?_, ?_⟩⟩
  · rintro ⟨i, hi, r, hr, hpos⟩
    have hcard : ((d.scored arm i).intact Corpus.under).card ≠ 0 := by
      intro hzero
      rw [hsome i r hr, hzero, Nat.cast_zero, zero_div] at hpos
      exact lt_irrefl _ hpos
    obtain ⟨f, hf⟩ := Finset.card_ne_zero.mp hcard
    exact ⟨i, hi, f, Corpus.mem_intact.mp hf⟩
  · rintro ⟨i, hi, f, hf, hin⟩
    have hsplit : (d.scored arm i).splitBags.card ≠ 0 := Finset.card_ne_zero.mpr ⟨f, hf⟩
    have hintact : ((d.scored arm i).intact Corpus.under).card ≠ 0 :=
      Finset.card_ne_zero.mpr ⟨f, Corpus.mem_intact.mpr ⟨hf, hin⟩⟩
    refine ⟨i, hi, _, (split_bag_intact_rate_eq i).trans (if_neg hsplit), ?_⟩
    exact div_pos (Nat.cast_pos.mpr (Nat.pos_of_ne_zero hintact)) (Nat.cast_pos.mpr (Nat.pos_of_ne_zero hsplit))

/-- What an arm that reproduces every verdict is measured at. -/
theorem Reproduces.interval (h : d.Reproduces hash arm) (name : Name) (hn : name ∈ LOWER_IS_BETTER) :
    (d.interval hash arm name).rate = 0 ∧ (d.interval hash arm name).low = 0 ∧ (d.interval hash arm name).high = 0 := by
  have hintact : ∀ i ∈ d.incidents, ∀ r, (evaluate hash (d.scored arm i)).split_bag_intact_rate = some r → r = 0 := by
    intro i hi r hr
    have hnone : (d.scored arm i).intact Corpus.under = ∅ := by
      refine Finset.eq_empty_of_forall_notMem fun f hf => ?_
      obtain ⟨hf, hin⟩ := Corpus.mem_intact.mp hf
      exact h.divided i hi f hf hin
    rw [split_bag_intact_rate_eq, hnone, Finset.card_empty, Nat.cast_zero, zero_div] at hr
    split at hr
    · exact nomatch hr
    · exact (Option.some.inj hr).symm
  cases name with
  | over_merge_rate =>
    exact bootstrap_zero (partition_rates_const fun i hi r hr =>
      (over_merge_some hr).trans (Corpus.over_merge_rate_zero (h.apart i hi)))
  | under_merge_rate =>
    exact bootstrap_zero (partition_rates_const fun i hi r hr =>
      (under_merge_some hr).trans (Corpus.under_merge_rate_zero hash (h.whole i hi)))
  | split_bag_intact_rate => exact bootstrap_zero (partition_rates_const hintact)
  | asserted_negative_respected_rate => exact absurd hn (by decide)

theorem observable_members {bag : AssertingBag} {p : ℕ × ℕ} (hp : p ∈ bag.observable_pairs) :
    p.1 ∈ bag.members.toFinset ∧ p.2 ∈ bag.members.toFinset := by
  obtain ⟨a, ha, hp⟩ := List.mem_flatMap.mp hp
  obtain ⟨b, hb, rfl⟩ := List.mem_map.mp hp
  exact ⟨List.mem_toFinset.mpr (List.mem_filter.mp ha).1, List.mem_toFinset.mpr (List.mem_filter.mp hb).1⟩

/-- A pair is kept apart where no path of the arm's links joins it. -/
theorem kept_iff {bag : AssertingBag} {p : ℕ × ℕ} (hp : p ∈ bag.observable_pairs) :
    AssertingBag.component_of (d.components_for arm bag) p.1 ≠ AssertingBag.component_of (d.components_for arm bag) p.2 ↔
      ¬ (joined (d.edges_of arm bag.feedback_id) bag.members.toFinset).Reachable p.1 p.2 := by
  obtain ⟨ha, hb⟩ := observable_members hp
  have hspec := partition_spec (d.edges_of arm bag.feedback_id) bag.members.toFinset
  obtain ⟨x, -, hx, -⟩ := hspec.smallest p.1 ha
  obtain ⟨y, -, hy, -⟩ := hspec.smallest p.2 hb
  rw [← hspec.same p.1 ha p.2 hb, AssertingBag.component_of, AssertingBag.component_of, components_for, hx, hy,
    Option.getD_some, Option.getD_some, Ne, Option.some_inj]

/-- A bag scores where pairs of it were asserted, and it scores 1 where each of them is kept apart. -/
theorem respected_rate_some {bag : AssertingBag} {r : ℚ} : bag.respected_rate (d.components_for arm bag) = some r ↔
    bag.eligible ∧ bag.observable_pairs ≠ [] ∧ r = (bag.observable_pairs.countP fun p =>
      AssertingBag.component_of (d.components_for arm bag) p.1 ≠ AssertingBag.component_of (d.components_for arm bag) p.2 : ℚ) /
        bag.observable_pairs.length := by
  have hcomponents : bag.observable_pairs ≠ [] → d.components_for arm bag ≠ [] := by
    intro hpairs hnil
    obtain ⟨p, hp⟩ := List.exists_mem_of_ne_nil _ hpairs
    obtain ⟨x, -, hx, -⟩ := (partition_spec (d.edges_of arm bag.feedback_id) bag.members.toFinset).smallest p.1
      (observable_members hp).1
    rw [show partition (d.edges_of arm bag.feedback_id) bag.members.toFinset = [] from hnil] at hx
    exact nomatch hx
  unfold AssertingBag.respected_rate
  split
  · rename_i hnone
    refine iff_of_false (fun h => nomatch h) ?_
    rintro ⟨heligible, hpairs, -⟩
    exact hnone.elim (fun h => h heligible) fun h => h.elim hpairs (hcomponents hpairs)
  · rename_i hscored
    push Not at hscored
    rw [Option.some_inj]
    exact ⟨fun h => ⟨hscored.1, hscored.2.1, h.symm⟩, fun h => h.2.2.symm⟩

/-- It scores 1 at most, and 1 where each of its pairs is kept apart. -/
theorem respected_rate_le {bag : AssertingBag} {r : ℚ} (h : bag.respected_rate (d.components_for arm bag) = some r) :
    r ≤ 1 ∧ (r = 1 ↔ ∀ p ∈ bag.observable_pairs,
      ¬ (joined (d.edges_of arm bag.feedback_id) bag.members.toFinset).Reachable p.1 p.2) := by
  obtain ⟨-, hpairs, rfl⟩ := respected_rate_some.mp h
  have hlength : (0 : ℚ) < bag.observable_pairs.length := Nat.cast_pos.mpr (List.length_pos_of_ne_nil hpairs)
  refine ⟨(div_le_one hlength).mpr (Nat.cast_le.mpr List.countP_le_length), ?_⟩
  rw [div_eq_one_iff_eq hlength.ne', Nat.cast_inj, List.countP_eq_length]
  exact forall₂_congr fun p hp => decide_eq_true_iff.trans (kept_iff hp)

theorem mem_respected_rates {r : ℚ} : r ∈ ((d.asserted_negative_respected_rate arm).map (·.2)).flatten ↔
    ∃ bag ∈ d.asserting_bags, bag.respected_rate (d.components_for arm bag) = some r := by
  rw [asserted_negative_respected_rate, grouped, List.map_map, List.mem_flatten]
  constructor
  · rintro ⟨_, hl, hr⟩
    obtain ⟨i, -, rfl⟩ := List.mem_map.mp hl
    obtain ⟨e, he, rfl⟩ := List.mem_map.mp hr
    obtain ⟨bag, hbag, hrate⟩ := List.mem_filterMap.mp (List.mem_filter.mp he).1
    obtain ⟨s, hs, rfl⟩ := Option.map_eq_some_iff.mp hrate
    exact ⟨bag, hbag, hs⟩
  · rintro ⟨bag, hbag, hr⟩
    have hentry : (bag.incident, r) ∈ d.asserting_bags.filterMap fun bag =>
        (bag.respected_rate (d.components_for arm bag)).map fun rate => (bag.incident, rate) :=
      List.mem_filterMap.mpr ⟨bag, hbag, by rw [hr, Option.map_some]⟩
    refine ⟨_, List.mem_map.mpr ⟨bag.incident, ?_, rfl⟩,
      List.mem_map.mpr ⟨_, List.mem_filter.mpr ⟨hentry, decide_eq_true rfl⟩, rfl⟩⟩
    exact (Finset.mem_sort _).mpr (List.mem_toFinset.mpr (List.mem_map.mpr ⟨_, hentry, rfl⟩))

/-- The rate of what was asserted is 1 for an arm that joins none of it, where there is something. -/
theorem respected_one : (d.interval hash arm .asserted_negative_respected_rate).rate = 1 ↔
    (∃ bag ∈ d.asserting_bags, bag.eligible ∧ bag.observable_pairs ≠ []) ∧ d.Respects arm := by
  have hle : ∀ r ∈ ((d.asserted_negative_respected_rate arm).map (·.2)).flatten, r ≤ 1 := by
    intro r hr
    obtain ⟨bag, -, hr⟩ := mem_respected_rates.mp hr
    exact (respected_rate_le hr).1
  rw [interval, bootstrap_rate, mean_one hle]
  constructor
  · rintro ⟨hne, hall⟩
    obtain ⟨r, hr⟩ := List.exists_mem_of_ne_nil _ hne
    obtain ⟨bag, hbag, hr⟩ := mem_respected_rates.mp hr
    obtain ⟨heligible, hpairs, -⟩ := respected_rate_some.mp hr
    refine ⟨⟨bag, hbag, heligible, hpairs⟩, fun b hb hel p hp => ?_⟩
    have hb' := (@respected_rate_some d arm b _).mpr ⟨hel, List.ne_nil_of_mem hp, rfl⟩
    exact (respected_rate_le hb').2.mp (hall _ (mem_respected_rates.mpr ⟨b, hb, hb'⟩)) p hp
  · rintro ⟨⟨bag, hbag, heligible, hpairs⟩, hrespects⟩
    refine ⟨List.ne_nil_of_mem (mem_respected_rates.mpr ⟨bag, hbag, respected_rate_some.mpr ⟨heligible, hpairs, rfl⟩⟩), ?_⟩
    intro r hr
    obtain ⟨b, hb, hr⟩ := mem_respected_rates.mp hr
    exact (respected_rate_le hr).2.mpr (hrespects b hb (respected_rate_some.mp hr).1)

theorem headline_nonneg (arm : Arm) {name : Name} (h : name ∈ HEADLINE_QUANTITIES) : 0 ≤ (d.interval hash arm name).rate := by
  cases name with
  | over_merge_rate => exact over_merge_pos.1
  | under_merge_rate => exact under_merge_pos.1
  | split_bag_intact_rate => exact absurd h (by decide)
  | asserted_negative_respected_rate => exact absurd h (by decide)

end Dataset
end NetCoreNoc.Evaluation.Promotion
