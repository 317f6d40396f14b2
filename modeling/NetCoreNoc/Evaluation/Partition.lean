import Mathlib
import NetCoreNoc.Correlate.Preview

/-! How a set of link decisions is scored against the verdicts of operators (`shadow_eval.py`): the
partition of each labelled bag, the two merge rates, and the split bags left whole. -/
namespace NetCoreNoc.Evaluation
open Correlate.Recall (Forest)
open Components Relation

section Code

/-- `find` of each, one after the other: a later one walks the paths as the earlier have halved them. -/
def named (f : Forest) : List ℕ → List (ℕ × ℕ)
  | [] => []
  | a :: rest => (a, (f.find a).2) :: named (f.find a).1 rest

def unite (members : Finset ℕ) (f : Forest) (edge : ℕ × ℕ) : Forest :=
  if edge.1 ∉ members ∨ edge.2 ∉ members then f else f.union edge.1 edge.2

def partition (edges : List (ℕ × ℕ)) (members : Finset ℕ) : List (ℕ × ℕ) :=
  named (edges.foldl (unite members) Forest.single) (members.sort (· ≤ ·))

section Rates
variable {α β : Type} [DecidableEq α] [DecidableEq β]

/-- `_groups`: the distinct co-labels of a label. Its labels are the members of `labels`. -/
def groups (labels : List α) (keys : List β) (label : α) : Finset β :=
  (((labels.zip keys).filter (·.1 = label)).map (·.2)).toFinset

def over_merge_rate (pred : List α) (truth : List β) : ℚ :=
  if pred = [] then 0
  else ((pred.toFinset.filter fun label => 2 ≤ (groups pred truth label).card).card : ℚ) / pred.toFinset.card

def under_merge_rate (pred : List α) (truth : List β) : ℚ :=
  if truth = [] then 0
  else ((truth.toFinset.filter fun label => 2 ≤ (groups truth pred label).card).card : ℚ) / truth.toFinset.card

end Rates

/-- `feedback.verdict` -/
inductive Verdict where
  | confirm
  | split
  deriving DecidableEq, Repr

structure Bag where
  feedback_id : ℕ
  verdict : Verdict
  deriving DecidableEq, Repr

/-- A promoted pair: the features it was scored on are not read here. -/
structure Pair where
  pair_id : ℕ
  feedback_id : ℕ
  alarm_a : ℕ
  alarm_b : ℕ
  deriving DecidableEq, Repr

/-- The three arguments of `evaluate`. -/
structure Corpus where
  bags : List Bag
  pairs : List Pair
  accepted : List (ℕ × Bool)

def members (rows : List Pair) : Finset ℕ := (rows.map (·.alarm_a)).toFinset ∪ (rows.map (·.alarm_b)).toFinset

namespace Corpus
variable (c : Corpus)

/-- `accepted.get(int(r["pair_id"]), False)` -/
def linked (p : Pair) : Bool := (c.accepted.lookup p.pair_id).getD false

def edges (rows : List Pair) : List (ℕ × ℕ) := (rows.filter c.linked).map fun r => (r.alarm_a, r.alarm_b)

/-- `verdicts.get(feedback_id)`: of two rows with one id the later counts. -/
def verdict (feedback_id : ℕ) : Option Verdict :=
  (c.bags.reverse.find? (·.feedback_id = feedback_id)).map (·.verdict)

def rows (feedback_id : ℕ) : List Pair := c.pairs.filter (·.feedback_id = feedback_id)

/-- The bags that have a promoted pair. -/
def bagged : Finset ℕ := (c.pairs.map (·.feedback_id)).toFinset

/-- `sorted(by_bag.items())` -/
def by_bag : List (ℕ × List Pair) := (c.bagged.sort (· ≤ ·)).map fun f => (f, c.rows f)

end Corpus

structure PartitionScore where
  over_merge : Option ℚ
  under_merge : Option ℚ
  confirm_bags : ℕ
  confirm_alarms : ℕ
  split_bags : ℕ
  split_bags_intact : ℕ
  deriving DecidableEq, Repr

def PartitionScore.split_bag_intact_rate (s : PartitionScore) : Option ℚ :=
  if s.split_bags = 0 then none else some (s.split_bags_intact / s.split_bags)

/-- What the loop over the bags has gathered. -/
structure Pool where
  pred : List ℤ
  truth : List ℕ
  confirm_bags : ℕ
  confirm_alarms : ℕ
  split_bags : ℕ
  split_intact : ℕ

variable (hash : ℕ × ℕ → ℤ) (c : Corpus)

/-- `components[alarm]`: every member is there. -/
def component (components : List (ℕ × ℕ)) (alarm : ℕ) : ℕ := (components.lookup alarm).getD 0

def Pool.add (s : Pool) (bag : ℕ × List Pair) : Pool :=
  let members := members bag.2
  let components := partition (c.edges bag.2) members
  if c.verdict bag.1 = some .confirm then
    { s with
      confirm_bags := s.confirm_bags + 1
      confirm_alarms := s.confirm_alarms + members.card
      pred := s.pred ++ (members.sort (· ≤ ·)).map fun alarm => hash (bag.1, component components alarm)
      truth := s.truth ++ (members.sort (· ≤ ·)).map fun _ => bag.1 }
  else
    { s with
      split_bags := s.split_bags + 1
      split_intact := if (members.image (component components)).card = 1 then s.split_intact + 1 else s.split_intact }

def evaluate : PartitionScore :=
  let s := c.by_bag.foldl (Pool.add hash c) ⟨[], [], 0, 0, 0, 0⟩
  { over_merge := if s.pred = [] then none else some (over_merge_rate s.pred s.truth)
    under_merge := if s.pred = [] then none else some (under_merge_rate s.pred s.truth)
    confirm_bags := s.confirm_bags
    confirm_alarms := s.confirm_alarms
    split_bags := s.split_bags
    split_bags_intact := s.split_intact }

end Code

section Union
variable {members : Finset ℕ} {edges : List (ℕ × ℕ)}

/-- The accepted links between members. -/
def Joins (edges : List (ℕ × ℕ)) (members : Finset ℕ) (a b : ℕ) : Prop := (a, b) ∈ edges ∧ a ∈ members ∧ b ∈ members

theorem joins_snoc (e : ℕ × ℕ) (a b : ℕ) : Joins (edges ++ [e]) members a b ↔
    Joins edges members a b ∨ e = (a, b) ∧ a ∈ members ∧ b ∈ members := by
  simp only [Joins, List.mem_append, List.mem_singleton, or_and_right, eq_comm]

theorem unite_labels (edges : List (ℕ × ℕ)) : Labels (fun a => if decide (a ∈ members) then
    some ((edges.foldl (unite members) Forest.single).root a) else none) (Joins edges members) := by
  induction edges using List.reverseRecOn with
  | nil =>
    have hsingle : ∀ a, Forest.single.root a = a := fun a => Forest.root_self rfl
    simp only [List.foldl_nil, hsingle]
    exact (Labels.single fun a => decide (a ∈ members)).congr fun a b => iff_false_intro fun h => nomatch h.1
  | append_singleton edges e ih =>
    rw [List.foldl_append, List.foldl_cons, List.foldl_nil, unite]
    split
    · rename_i hout
      refine ih.congr fun a b => (joins_snoc e a b).trans (or_iff_left ?_)
      rintro ⟨rfl, ha, hb⟩
      exact hout.elim (fun h => h ha) fun h => h hb
    · rename_i hin
      obtain ⟨ha, hb⟩ := not_or.mp hin
      rw [not_not] at ha hb
      refine (ih.attach (Forest.union_attaches _ (decide_eq_true ha) (decide_eq_true hb))).congr fun a b => ?_
      rw [joins_snoc]
      refine or_congr Iff.rfl ⟨?_, ?_⟩
      · rintro ⟨rfl, -, -⟩
        exact ⟨rfl, rfl⟩
      · rintro ⟨rfl, rfl⟩
        exact ⟨rfl, ha, hb⟩

/-- The root of a member is a member. -/
theorem root_mem (edges : List (ℕ × ℕ)) : ∀ a ∈ members, (edges.foldl (unite members) Forest.single).root a ∈ members := by
  induction edges using List.reverseRecOn with
  | nil =>
    intro a ha
    have hself : Forest.single.root a = a := Forest.root_self rfl
    rwa [List.foldl_nil, hself]
  | append_singleton edges e ih =>
    intro a ha
    rw [List.foldl_append, List.foldl_cons, List.foldl_nil, unite]
    split
    · exact ih a ha
    · rename_i hin
      obtain ⟨hfst, hsnd⟩ := not_or.mp hin
      rw [not_not] at hfst hsnd
      rw [Forest.root_union]
      split
      · rcases min_choice ((edges.foldl (unite members) Forest.single).root e.1)
          ((edges.foldl (unite members) Forest.single).root e.2) with h | h <;> rw [h]
        · exact ih _ hfst
        · exact ih _ hsnd
      · exact ih a ha

theorem named_eq (f : Forest) (alarms : List ℕ) : named f alarms = alarms.map fun a => (a, f.root a) := by
  induction alarms generalizing f with
  | nil => rfl
  | cons a rest ih =>
    obtain ⟨hroot, hroots⟩ := Forest.find_spec f a
    rw [named, ih, hroot]
    simp only [hroots, List.map_cons]

/-- The links between members, as a graph. -/
def joined (edges : List (ℕ × ℕ)) (members : Finset ℕ) : SimpleGraph ℕ := SimpleGraph.fromRel (Joins edges members)

/-- What `partition` is for: the members have ids, the same for those that links connect, and the id of a
component is the smallest member of it. -/
structure Partitions (components : List (ℕ × ℕ)) (edges : List (ℕ × ℕ)) (members : Finset ℕ) : Prop where
  keys : components.map (·.1) = members.sort (· ≤ ·)
  same : ∀ a ∈ members, ∀ b ∈ members, components.lookup a = components.lookup b ↔ (joined edges members).Reachable a b
  smallest : ∀ a ∈ members, ∃ id ∈ members, components.lookup a = some id ∧ (joined edges members).Reachable a id ∧
    ∀ b ∈ members, (joined edges members).Reachable a b → id ≤ b

theorem lookup_partition (edges : List (ℕ × ℕ)) {a : ℕ} (ha : a ∈ members) : (partition edges members).lookup a =
    some ((edges.foldl (unite members) Forest.single).root a) := by
  rw [partition, named_eq]
  have hmem : a ∈ members.sort (· ≤ ·) := (Finset.mem_sort _).mpr ha
  generalize edges.foldl (unite members) Forest.single = f
  generalize members.sort (· ≤ ·) = alarms at hmem
  induction alarms with
  | nil => exact absurd hmem List.not_mem_nil
  | cons b rest ih =>
    rw [List.map_cons, List.lookup_cons]
    by_cases hab : a = b
    · rw [hab, beq_self_eq_true]
    · rw [beq_eq_false_iff_ne.mpr hab]
      exact ih ((List.mem_cons.mp hmem).resolve_left hab)

theorem root_same (edges : List (ℕ × ℕ)) {a b : ℕ} (ha : a ∈ members) (hb : b ∈ members) :
    (edges.foldl (unite members) Forest.single).root a = (edges.foldl (unite members) Forest.single).root b ↔
      (joined edges members).Reachable a b :=
  (unite_labels edges).component (if_pos (decide_eq_true ha)) (if_pos (decide_eq_true hb))

theorem root_le (f : Forest) (a : ℕ) : f.root a ≤ a := by
  induction a using Nat.strongRecOn with
  | ind a ih =>
    by_cases h : f.parent a = a
    · rw [Forest.root_self h]
    · rw [← Forest.root_parent]
      exact (ih _ (lt_of_le_of_ne (f.le a) h)).trans (f.le a)

theorem root_root (f : Forest) (a : ℕ) : f.root (f.root a) = f.root a := Forest.root_self (Forest.parent_root f a)

theorem partition_spec (edges : List (ℕ × ℕ)) (members : Finset ℕ) : Partitions (partition edges members) edges members where
  keys := by
    rw [partition, named_eq, List.map_map]
    exact List.map_id _
  same a ha b hb := by
    rw [lookup_partition edges ha, lookup_partition edges hb, Option.some_inj]
    exact root_same edges ha hb
  smallest a ha := by
    refine ⟨_, root_mem edges a ha, lookup_partition edges ha, ?_, fun b hb hab => ?_⟩
    · exact (root_same edges ha (root_mem edges a ha)).mp (root_root _ a).symm
    · rw [(root_same edges ha hb).mpr hab]
      exact root_le _ b

end Union
namespace Corpus
variable (c : Corpus)

/-- The alarms of a bag are those that its pairs name. -/
def alarms (feedback_id : ℕ) : Finset ℕ := members (c.rows feedback_id)

def confirmBags : Finset ℕ := c.bagged.filter fun f => c.verdict f = some .confirm
def splitBags : Finset ℕ := c.bagged.filter fun f => c.verdict f ≠ some .confirm

/-- The accepted links, of the pairs that count. -/
def Links (counts : Pair → Prop) (a b : ℕ) : Prop :=
  ∃ p ∈ c.pairs, c.linked p ∧ counts p ∧ p.alarm_a = a ∧ p.alarm_b = b

def graph (counts : Pair → Prop) : SimpleGraph ℕ := SimpleGraph.fromRel (c.Links counts)

/-- The bag is inside one component. -/
def Inside (counts : Pair → Prop) (f : ℕ) : Prop :=
  ∀ a ∈ c.alarms f, ∀ b ∈ c.alarms f, (c.graph counts).Reachable a b

/-- The links promoted under a bag. -/
def under (f : ℕ) (p : Pair) : Prop := p.feedback_id = f

def component_of (f alarm : ℕ) : ℕ := component (partition (c.edges (c.rows f)) (c.alarms f)) alarm

/-- The labels of the predicted situations of a bag, before they are hashed. -/
def labels_of (f : ℕ) : List (ℕ × ℕ) := ((c.alarms f).sort (· ≤ ·)).map fun a => (f, c.component_of f a)

def labels (fs : List ℕ) : List (ℕ × ℕ) := (fs.filter fun f => c.verdict f = some .confirm).flatMap c.labels_of

variable {c}

theorem mem_rows {f : ℕ} {p : Pair} : p ∈ c.rows f ↔ p ∈ c.pairs ∧ p.feedback_id = f := by
  simp [rows]

theorem mem_alarms {f a : ℕ} : a ∈ c.alarms f ↔ ∃ p ∈ c.pairs, p.feedback_id = f ∧ (p.alarm_a = a ∨ p.alarm_b = a) := by
  simp only [alarms, members, Finset.mem_union, List.mem_toFinset, List.mem_map, mem_rows]
  constructor
  · rintro (⟨p, ⟨hp, hf⟩, ha⟩ | ⟨p, ⟨hp, hf⟩, ha⟩)
    · exact ⟨p, hp, hf, .inl ha⟩
    · exact ⟨p, hp, hf, .inr ha⟩
  · rintro ⟨p, hp, hf, ha | ha⟩
    · exact .inl ⟨p, ⟨hp, hf⟩, ha⟩
    · exact .inr ⟨p, ⟨hp, hf⟩, ha⟩

theorem mem_bagged {f : ℕ} : f ∈ c.bagged ↔ ∃ p ∈ c.pairs, p.feedback_id = f := by
  simp [bagged]

/-- A bag that is scored has an alarm. -/
theorem alarms_nonempty {f : ℕ} (hf : f ∈ c.bagged) : ∃ a, a ∈ c.alarms f := by
  obtain ⟨p, hp, hpf⟩ := mem_bagged.mp hf
  exact ⟨p.alarm_a, mem_alarms.mpr ⟨p, hp, hpf, .inl rfl⟩⟩

/-- The edges of a bag are the accepted links promoted under it. -/
theorem joined_rows (f : ℕ) : joined (c.edges (c.rows f)) (c.alarms f) = c.graph (under f) := by
  refine congrArg SimpleGraph.fromRel (funext fun a => funext fun b => propext ?_)
  simp only [Joins, edges, List.mem_map, List.mem_filter, mem_rows, Prod.mk.injEq]
  constructor
  · rintro ⟨⟨p, ⟨⟨hp, hf⟩, hl⟩, ha, hb⟩, -, -⟩
    exact ⟨p, hp, hl, hf, ha, hb⟩
  · rintro ⟨p, hp, hl, hf, ha, hb⟩
    exact ⟨⟨p, ⟨⟨hp, hf⟩, hl⟩, ha, hb⟩, mem_alarms.mpr ⟨p, hp, hf, .inl ha⟩, mem_alarms.mpr ⟨p, hp, hf, .inr hb⟩⟩

theorem component_same {f a b : ℕ} (ha : a ∈ c.alarms f) (hb : b ∈ c.alarms f) :
    c.component_of f a = c.component_of f b ↔ (c.graph (under f)).Reachable a b := by
  obtain ⟨x, -, hx, -⟩ := (partition_spec (c.edges (c.rows f)) (c.alarms f)).smallest a ha
  obtain ⟨y, -, hy, -⟩ := (partition_spec (c.edges (c.rows f)) (c.alarms f)).smallest b hb
  rw [← joined_rows, ← (partition_spec _ _).same a ha b hb, component_of, component_of, component, component, hx, hy]
  exact Option.some_inj.symm

/-- A component has the name of its least alarm. -/
theorem component_of_eq {f a k : ℕ} (ha : a ∈ c.alarms f) (hk : k ∈ c.alarms f)
    (hak : (c.graph (under f)).Reachable a k) (hleast : ∀ b ∈ c.alarms f, (c.graph (under f)).Reachable a b → k ≤ b) :
    c.component_of f a = k := by
  obtain ⟨id, hid, hlookup, hreach, hle⟩ := (partition_spec (c.edges (c.rows f)) (c.alarms f)).smallest a ha
  rw [joined_rows] at hreach hle
  rw [component_of, component, hlookup, Option.getD_some]
  exact (hle k hk hak).antisymm (hleast id hid hreach)

/-- A label in play is of a confirmed bag and of one of its alarms. -/
theorem mem_labels {fs : List ℕ} {x : ℕ × ℕ} (hx : x ∈ c.labels fs) :
    x.1 ∈ fs ∧ c.verdict x.1 = some .confirm ∧ x.2 ∈ c.alarms x.1 := by
  obtain ⟨f, hf, hx⟩ := List.mem_flatMap.mp hx
  obtain ⟨hmem, hverdict⟩ := List.mem_filter.mp hf
  obtain ⟨a, ha, rfl⟩ := List.mem_map.mp hx
  obtain ⟨id, hid, hlookup, -⟩ := (partition_spec (c.edges (c.rows f)) (c.alarms f)).smallest a ((Finset.mem_sort _).mp ha)
  refine ⟨hmem, of_decide_eq_true hverdict, ?_⟩
  rwa [component_of, component, hlookup]

variable (c)

/-- The bags one after the other: what the loop has gathered after those of `fs`. -/
theorem pool_eq (hash : ℕ × ℕ → ℤ) (fs : List ℕ) :
    (fs.map fun f => (f, c.rows f)).foldl (Pool.add hash c) ⟨[], [], 0, 0, 0, 0⟩ =
      ⟨(c.labels fs).map hash, (c.labels fs).map (·.1), (fs.filter fun f => c.verdict f = some .confirm).length,
        ((fs.filter fun f => c.verdict f = some .confirm).map fun f => (c.alarms f).card).sum,
        (fs.filter fun f => c.verdict f ≠ some .confirm).length,
        (fs.filter fun f => c.verdict f ≠ some .confirm ∧ ((c.alarms f).image (c.component_of f)).card = 1).length⟩ := by
  induction fs using List.reverseRecOn with
  | nil => rfl
  | append_singleton fs f ih =>
    rw [List.map_append, List.foldl_append, ih, List.map_singleton, List.foldl_cons, List.foldl_nil, Pool.add]
    by_cases hf : c.verdict f = some .confirm
    · rw [if_pos hf]
      simp [labels, hf, labels_of, alarms, component_of, Function.comp_def]
    · have himage : (members (c.rows f)).image (component (partition (c.edges (c.rows f)) (members (c.rows f)))) =
          (c.alarms f).image (c.component_of f) := rfl
      rw [if_neg hf, himage]
      by_cases hone : ((c.alarms f).image (c.component_of f)).card = 1 <;> simp [labels, hf, hone]

/-- The hash tells apart the labels that it is given. Nothing promises it of a hash of 64 bits. -/
def Separates (hash : ℕ × ℕ → ℤ) : Prop :=
  ∀ x ∈ c.labels (c.bagged.sort (· ≤ ·)), ∀ y ∈ c.labels (c.bagged.sort (· ≤ ·)), hash x = hash y → x = y

/-- The confirm bags that the links which count leave in two components or more. -/
noncomputable def torn (counts : ℕ → Pair → Prop) : Finset ℕ :=
  open Classical in c.confirmBags.filter fun f => ¬ c.Inside (counts f) f

/-- The split bags that they leave whole. -/
noncomputable def intact (counts : ℕ → Pair → Prop) : Finset ℕ :=
  open Classical in c.splitBags.filter fun f => c.Inside (counts f) f

variable {c}

theorem mem_torn {counts : ℕ → Pair → Prop} {f : ℕ} :
    f ∈ c.torn counts ↔ f ∈ c.confirmBags ∧ ¬ c.Inside (counts f) f := by
  simp only [torn, Finset.mem_filter]

theorem mem_intact {counts : ℕ → Pair → Prop} {f : ℕ} :
    f ∈ c.intact counts ↔ f ∈ c.splitBags ∧ c.Inside (counts f) f := by
  simp only [intact, Finset.mem_filter]

variable {ι α β : Type} [DecidableEq α] [DecidableEq β] {l : List ι} {f : ι → α} {g : ι → β}

theorem mem_groups {a : α} {b : β} :
    b ∈ groups (l.map f) (l.map g) a ↔ ∃ x ∈ l, f x = a ∧ g x = b := by
  simp [groups, List.zip_map', and_assoc]

theorem two_le_groups {a : α} :
    2 ≤ (groups (l.map f) (l.map g) a).card ↔ ∃ x ∈ l, ∃ y ∈ l, f x = a ∧ f y = a ∧ g x ≠ g y := by
  refine Finset.one_lt_card.trans ⟨?_, ?_⟩
  · rintro ⟨b, hb, b', hb', hne⟩
    obtain ⟨x, hx, hxa, rfl⟩ := mem_groups.mp hb
    obtain ⟨y, hy, hya, rfl⟩ := mem_groups.mp hb'
    exact ⟨x, hx, y, hy, hxa, hya, hne⟩
  · rintro ⟨x, hx, y, hy, hxa, hya, hne⟩
    exact ⟨_, mem_groups.mpr ⟨x, hx, hxa, rfl⟩, _, mem_groups.mpr ⟨y, hy, hya, rfl⟩, hne⟩

theorem length_sorted (s : Finset ℕ) (p : ℕ → Prop) [DecidablePred p] :
    ((s.sort (· ≤ ·)).filter fun f => p f).length = (s.filter p).card := by
  rw [← List.toFinset_card_of_nodup ((Finset.sort_nodup ..).filter _)]
  refine congrArg Finset.card (Finset.ext fun f => ?_)
  simp

theorem sum_sorted (s : Finset ℕ) (p : ℕ → Prop) [DecidablePred p] (g : ℕ → ℕ) :
    (((s.sort (· ≤ ·)).filter fun f => p f).map g).sum = ∑ f ∈ s.filter p, g f := by
  rw [← List.sum_toFinset _ ((Finset.sort_nodup ..).filter _)]
  refine Finset.sum_congr (Finset.ext fun f => ?_) fun _ _ => rfl
  simp

theorem mem_confirmBags {f : ℕ} : f ∈ c.confirmBags ↔ f ∈ c.bagged ∧ c.verdict f = some .confirm := Finset.mem_filter

theorem mem_splitBags {f : ℕ} : f ∈ c.splitBags ↔ f ∈ c.bagged ∧ c.verdict f ≠ some .confirm := Finset.mem_filter

theorem mem_labels_sorted {f k : ℕ} : (f, k) ∈ c.labels (c.bagged.sort (· ≤ ·)) ↔
    f ∈ c.confirmBags ∧ ∃ a ∈ c.alarms f, c.component_of f a = k := by
  simp only [labels, labels_of, List.mem_flatMap, List.mem_filter, Finset.mem_sort, decide_eq_true_eq, List.mem_map,
    mem_confirmBags, Prod.mk.injEq]
  constructor
  · rintro ⟨g, hg, a, ha, rfl, hk⟩
    exact ⟨hg, a, ha, hk⟩
  · rintro ⟨hf, a, ha, hk⟩
    exact ⟨f, hf, a, ha, rfl, hk⟩

theorem labels_confirmed : ((c.labels (c.bagged.sort (· ≤ ·))).map (·.1)).toFinset = c.confirmBags := by
  ext f
  rw [List.mem_toFinset, List.mem_map]
  constructor
  · rintro ⟨⟨g, k⟩, hx, rfl⟩
    exact (mem_labels_sorted.mp hx).1
  · intro hf
    obtain ⟨a, ha⟩ := alarms_nonempty (mem_confirmBags.mp hf).1
    exact ⟨(f, _), mem_labels_sorted.mpr ⟨hf, a, ha, rfl⟩, rfl⟩

theorem labels_eq_nil : c.labels (c.bagged.sort (· ≤ ·)) = [] ↔ c.confirmBags = ∅ := by
  rw [← labels_confirmed, List.toFinset_eq_empty_iff, List.map_eq_nil_iff]

theorem over_merge_rate_nonneg {α β : Type} [DecidableEq α] [DecidableEq β] (pred : List α) (truth : List β) :
    0 ≤ over_merge_rate pred truth := by
  unfold over_merge_rate
  split
  · exact le_rfl
  · positivity

/-- There is an over-merge exactly where one label has two. The other rate is this one with the lists exchanged. -/
theorem over_merge_rate_pos :
    0 < over_merge_rate (l.map f) (l.map g) ↔ ∃ x ∈ l, ∃ y ∈ l, f x = f y ∧ g x ≠ g y := by
  constructor
  · intro hpos
    by_contra hnone
    refine hpos.ne' ?_
    unfold over_merge_rate
    split
    · rfl
    · rw [Finset.filter_false_of_mem, Finset.card_empty, Nat.cast_zero, zero_div]
      rintro _ - htwo
      obtain ⟨x, hx, y, hy, rfl, hxy, hne⟩ := two_le_groups.mp htwo
      exact hnone ⟨x, hx, y, hy, hxy.symm, hne⟩
  · rintro ⟨x, hx, y, hy, hxy, hne⟩
    have hmem : f x ∈ (l.map f).toFinset := List.mem_toFinset.mpr (List.mem_map_of_mem hx)
    rw [over_merge_rate, if_neg (List.ne_nil_of_mem (List.mem_map_of_mem hx))]
    refine div_pos (Nat.cast_pos.mpr (Finset.card_pos.mpr ⟨f x, Finset.mem_filter.mpr ⟨hmem, ?_⟩⟩))
      (Nat.cast_pos.mpr (Finset.card_pos.mpr ⟨f x, hmem⟩))
    exact two_le_groups.mpr ⟨x, hx, y, hy, rfl, hxy.symm, hne⟩

/-- Where a hash is of labels of one bag only, no predicted situation has two. -/
theorem over_merge_rate_zero {hash : ℕ × ℕ → ℤ} (h : ∀ x ∈ c.labels (c.bagged.sort (· ≤ ·)),
    ∀ y ∈ c.labels (c.bagged.sort (· ≤ ·)), hash x = hash y → x.1 = y.1) :
    over_merge_rate ((c.labels (c.bagged.sort (· ≤ ·))).map hash) ((c.labels (c.bagged.sort (· ≤ ·))).map (·.1)) = 0 := by
  refine (over_merge_rate_nonneg _ _).antisymm' (not_lt.mp fun hpos => ?_)
  obtain ⟨x, hx, y, hy, hxy, hne⟩ := over_merge_rate_pos.mp hpos
  exact hne (h x hx y hy hxy)

/-- Where each confirmed bag is whole, it has one label, whatever the hash. -/
theorem under_merge_rate_zero (hash : ℕ × ℕ → ℤ) (h : ∀ f ∈ c.confirmBags, c.Inside (under f) f) :
    under_merge_rate ((c.labels (c.bagged.sort (· ≤ ·))).map hash) ((c.labels (c.bagged.sort (· ≤ ·))).map (·.1)) = 0 := by
  refine (over_merge_rate_nonneg _ _).antisymm' (not_lt.mp fun hpos => ?_)
  obtain ⟨⟨f, k⟩, hx, ⟨g, k'⟩, hy, rfl, hne⟩ := over_merge_rate_pos.mp hpos
  obtain ⟨hf, a, ha, rfl⟩ := mem_labels_sorted.mp hx
  obtain ⟨-, b, hb, rfl⟩ := mem_labels_sorted.mp hy
  exact hne (congrArg (fun k => hash (f, k)) ((component_same ha hb).mpr (h f hf a ha b hb)))

theorem under_merge_rate_eq {hash : ℕ × ℕ → ℤ} (h : c.Separates hash) :
    under_merge_rate ((c.labels (c.bagged.sort (· ≤ ·))).map hash) ((c.labels (c.bagged.sort (· ≤ ·))).map (·.1)) =
      ((c.torn under).card : ℚ) / c.confirmBags.card := by
  have htorn : ∀ f ∈ c.confirmBags, 2 ≤ (groups ((c.labels (c.bagged.sort (· ≤ ·))).map (·.1))
      ((c.labels (c.bagged.sort (· ≤ ·))).map hash) f).card ↔ ¬ c.Inside (under f) f := by
    intro f hf
    rw [two_le_groups, Inside]
    push Not
    constructor
    · rintro ⟨⟨g, k⟩, hx, ⟨g', k'⟩, hy, rfl, hgg, hne⟩
      obtain rfl : g' = g := hgg
      obtain ⟨-, a, ha, rfl⟩ := mem_labels_sorted.mp hx
      obtain ⟨-, b, hb, rfl⟩ := mem_labels_sorted.mp hy
      refine ⟨a, ha, b, hb, fun hab => hne ?_⟩
      rw [(component_same ha hb).mpr hab]
    · rintro ⟨a, ha, b, hb, hab⟩
      refine ⟨(f, _), mem_labels_sorted.mpr ⟨hf, a, ha, rfl⟩, (f, _), mem_labels_sorted.mpr ⟨hf, b, hb, rfl⟩, rfl, rfl, ?_⟩
      intro heq
      refine hab ((component_same ha hb).mp ?_)
      exact congrArg Prod.snd (h _ (mem_labels_sorted.mpr ⟨hf, a, ha, rfl⟩) _ (mem_labels_sorted.mpr ⟨hf, b, hb, rfl⟩) heq)
  have hfilter : (c.confirmBags.filter fun f => 2 ≤ (groups ((c.labels (c.bagged.sort (· ≤ ·))).map (·.1))
      ((c.labels (c.bagged.sort (· ≤ ·))).map hash) f).card) = c.torn under := by
    ext f
    rw [Finset.mem_filter, mem_torn]
    exact and_congr_right (htorn f)
  rw [under_merge_rate, labels_confirmed, hfilter]
  split
  · rename_i hnil
    rw [← labels_confirmed, hnil, List.toFinset_nil, Finset.card_empty, Nat.cast_zero, div_zero]
  · rfl

/-- One component, as the ids say it and as the links do. -/
theorem one_component {f : ℕ} (hf : f ∈ c.bagged) :
    ((c.alarms f).image (c.component_of f)).card = 1 ↔ c.Inside (under f) f := by
  obtain ⟨a, ha⟩ := alarms_nonempty hf
  rw [Finset.card_eq_one]
  constructor
  · rintro ⟨k, hk⟩ x hx y hy
    have hone : ∀ z ∈ c.alarms f, c.component_of f z = k := fun z hz =>
      Finset.mem_singleton.mp (hk ▸ Finset.mem_image_of_mem _ hz)
    exact (component_same hx hy).mp ((hone x hx).trans (hone y hy).symm)
  · intro h
    refine ⟨c.component_of f a, Finset.ext fun k => ?_⟩
    rw [Finset.mem_image, Finset.mem_singleton]
    constructor
    · rintro ⟨b, hb, rfl⟩
      exact (component_same hb ha).mpr (h b hb a ha)
    · rintro rfl
      exact ⟨a, ha, rfl⟩

/-- What `evaluate` answers, in terms of the labels that it hashes. -/
theorem evaluate_labels (hash : ℕ × ℕ → ℤ) : evaluate hash c =
    { over_merge := if c.confirmBags = ∅ then none else
        some (over_merge_rate ((c.labels (c.bagged.sort (· ≤ ·))).map hash) ((c.labels (c.bagged.sort (· ≤ ·))).map (·.1)))
      under_merge := if c.confirmBags = ∅ then none else
        some (under_merge_rate ((c.labels (c.bagged.sort (· ≤ ·))).map hash) ((c.labels (c.bagged.sort (· ≤ ·))).map (·.1)))
      confirm_bags := c.confirmBags.card
      confirm_alarms := ∑ f ∈ c.confirmBags, (c.alarms f).card
      split_bags := c.splitBags.card
      split_bags_intact := (c.intact under).card } := by
  have hintact : (c.bagged.filter fun f => c.verdict f ≠ some .confirm ∧
      ((c.alarms f).image (c.component_of f)).card = 1) = c.intact under := by
    ext f
    simp only [mem_intact, Finset.mem_filter, mem_splitBags, ← and_assoc]
    exact and_congr_right fun hf => one_component hf.1
  simp only [evaluate, by_bag, pool_eq, List.map_eq_nil_iff, labels_eq_nil, length_sorted, sum_sorted, hintact]
  rfl

/-- What it answers in terms of the links of each bag. -/
theorem evaluate_eq {hash : ℕ × ℕ → ℤ} (h : c.Separates hash) : evaluate hash c =
    { over_merge := if c.confirmBags = ∅ then none else some 0
      under_merge := if c.confirmBags = ∅ then none else some ((c.torn under).card / c.confirmBags.card)
      confirm_bags := c.confirmBags.card
      confirm_alarms := ∑ f ∈ c.confirmBags, (c.alarms f).card
      split_bags := c.splitBags.card
      split_bags_intact := (c.intact under).card } := by
  rw [evaluate_labels, under_merge_rate_eq h,
    over_merge_rate_zero fun x hx y hy hxy => congrArg Prod.fst (h x hx y hy hxy)]

end Corpus
end NetCoreNoc.Evaluation
