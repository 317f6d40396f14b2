import Mathlib
import NetCoreNoc.Earliest
import NetCoreNoc.Greedy
import NetCoreNoc.Rounding
import NetCoreNoc.Tables
import NetCoreNoc.Evaluation.Challenger
import NetCoreNoc.Evaluation.Partition

/-! How the verdicts of humans become the weighted rows of a training (`training.py`, `confidence.py`). -/
namespace NetCoreNoc.Model
open Earliest Evaluation Greedy Rounding Tables

def MAX_PAIRS_PER_BAG : ℕ := 256
def MAX_TRAINING_ROWS : ℕ := 8000

/-- The record that a bag comes from; the two number their rows apart. -/
inductive Source where
  | feedback
  | gesture
  deriving DecidableEq, Repr

def Source.rank : Source → ℕ
  | .feedback => 0
  | .gesture => 1

theorem Source.rank_injective : Function.Injective Source.rank := by
  intro s t h
  cases s <;> cases t <;> first | rfl | cases h

/-- As their names are. -/
instance source_linearOrder : LinearOrder Source := LinearOrder.lift' Source.rank Source.rank_injective

/-- One human decision. -/
abbrev BagId : Type := Source ×ₗ ℤ

inductive Policy where
  | A
  | B
  deriving DecidableEq, Repr

structure LabelledPair (F : Type) where
  pair_id : ℤ
  feedback_id : ℤ
  verdict : Verdict
  incident : ℤ
  delta_t_s : F
  class_affinity : F
  entity_affinity : F
  incumbent_linked : Bool
  evaluated_at : ℚ
  label_at : ℚ
  source : Source := .feedback
  confidence : Option ℚ := none
  deriving DecidableEq

structure TrainingRow (F : Type) where
  y : ℚ
  weight : ℚ
  x : List F
  deriving DecidableEq

section
variable {F : Type}

def LabelledPair.bag (p : LabelledPair F) : BagId := toLex (p.source, p.feedback_id)

def LabelledPair.key (p : LabelledPair F) : BagId ×ₗ ℤ := toLex (p.bag, p.pair_id)

def FLOOR : ℚ := 1 / 2
def INTERCEPT : ℚ := 6 / 10
def SLOPE : ℚ := 4 / 10

def admits : Option ℚ → Bool
  | none => true
  | some confidence => FLOOR ≤ confidence

def multiplier : Option ℚ → ℚ
  | none => 1
  | some confidence => INTERCEPT + SLOPE * confidence

theorem multiplier_pos {confidence : Option ℚ} (h : admits confidence) : 0 < multiplier confidence := by
  cases confidence with
  | none => exact one_pos
  | some c =>
    have hc : FLOOR ≤ c := of_decide_eq_true h
    rw [FLOOR] at hc
    rw [multiplier, INTERCEPT, SLOPE]
    linarith

/-- What the pass over the pairs has made: the pairs of each bag, and how many were below the floor. -/
structure Gathered (F : Type) where
  by_bag : Table BagId (List (LabelledPair F))
  dropped_below_floor : ℕ

def gather (policy : Policy) (g : Gathered F) (pair : LabelledPair F) : Gathered F :=
  if policy = .B ∧ pair.verdict ≠ .confirm then g
  else if ¬ admits pair.confidence then ⟨g.by_bag, g.dropped_below_floor + 1⟩
  else
    ⟨g.by_bag.upsert pair.bag [] fun bucket =>
      if bucket.length < MAX_PAIRS_PER_BAG then bucket ++ [pair] else bucket, g.dropped_below_floor⟩

def gathered (pairs : List (LabelledPair F)) (policy : Policy) : Gathered F :=
  (ordered LabelledPair.key pairs).foldl (gather policy) ⟨.empty, 0⟩

/-- A bag with its pairs. -/
abbrev Bucket (F : Type) : Type := BagId × List (LabelledPair F)

/-- Of its first pair; no bag is without one. -/
def Bucket.label_at (b : Bucket F) : ℚ := (b.2.head?.map (·.label_at)).getD 0

/-- The newest first. -/
def order (by_bag : Table BagId (List (LabelledPair F))) : List (Bucket F) :=
  ordered (fun b => toLex (-Bucket.label_at b, b.1)) by_bag.entries

/-- The bags that fit into the rows of a training, in the order of their ids. -/
def kept (by_bag : Table BagId (List (LabelledPair F))) : List (Bucket F) :=
  ordered Prod.fst (fill (·.2.length) MAX_TRAINING_ROWS (order by_bag))

variable [PyArith F]

def rows_of (b : Bucket F) : List (TrainingRow F) :=
  let w_bag := 1 / (b.2.length : ℚ)
  let y := if b.2.head?.map (·.verdict) = some .confirm then 1 else 0
  b.2.map fun pair =>
    ⟨y, w_bag * multiplier pair.confidence, feature_vector pair.delta_t_s pair.class_affinity pair.entity_affinity⟩

omit [PyArith F] in
/-- The weight of the rows of a class. -/
def mass (y : ℚ) (rows : List (TrainingRow F)) : ℚ := ((rows.filter (·.y = y)).map (·.weight)).sum

omit [PyArith F] in
def balance (rows : List (TrainingRow F)) : List (TrainingRow F) :=
  let positive := mass 1 rows
  let negative := mass 0 rows
  let total := positive + negative
  rows.map fun row =>
    let mass := if row.y = 1 then positive else negative
    let scale := if 0 < mass then total / (2 * mass) else 1
    { row with weight := row.weight * scale }

structure Diagnostics where
  policy : Policy
  bags_used : ℕ
  bags_dropped_by_row_cap : ℕ
  rows : ℕ
  positive_mass : ℚ
  negative_mass : ℚ
  single_class : Bool
  bags_by_source : List (Source × ℕ)
  rows_dropped_below_confidence_floor : ℕ
  confidence_multiplier_mean : ℚ
  confidence_multiplier_min : ℚ
  deriving DecidableEq

def derive (pairs : List (LabelledPair F)) (policy : Policy) : List (TrainingRow F) × Diagnostics :=
  let g := gathered pairs policy
  let used := kept g.by_bag
  let rows := used.flatMap rows_of
  let multipliers := used.flatMap fun b => b.2.map fun pair => multiplier pair.confidence
  let positive := mass 1 rows
  let negative := mass 0 rows
  let balanced := balance rows
  let sources := ordered id (used.map fun b => (ofLex b.1).1).dedup
  (balanced,
    { policy
      bags_used := used.length
      bags_dropped_by_row_cap := g.by_bag.size - used.length
      rows := balanced.length
      positive_mass := round_to 6 positive
      negative_mass := round_to 6 negative
      single_class := positive = 0 ∨ negative = 0
      bags_by_source := sources.map fun source => (source, used.countP fun b => (ofLex b.1).1 = source)
      rows_dropped_below_confidence_floor := g.dropped_below_floor
      confidence_multiplier_mean := if multipliers = [] then 1 else round_to 6 (multipliers.sum / multipliers.length)
      confidence_multiplier_min := (multipliers.min?.map (round_to 6)).getD 1 })

end

section
variable {F : Type}

/-- The pairs of a training: a pair is one record under its bag, and a bag is one decision. -/
structure Labelled (F : Type) where
  pairs : List (LabelledPair F)
  keyed : ∀ p ∈ pairs, ∀ q ∈ pairs, p.key = q.key → p = q
  decided : ∀ p ∈ pairs, ∀ q ∈ pairs, p.bag = q.bag →
    p.verdict = q.verdict ∧ p.label_at = q.label_at ∧ p.confidence = q.confidence

theorem bag_eq {p q : LabelledPair F} : p.bag = q.bag ↔ p.source = q.source ∧ p.feedback_id = q.feedback_id := by
  rw [LabelledPair.bag, LabelledPair.bag, toLex_inj, Prod.mk.injEq]

theorem key_eq {p q : LabelledPair F} : p.key = q.key ↔ p.bag = q.bag ∧ p.pair_id = q.pair_id := by
  rw [LabelledPair.key, LabelledPair.key, toLex_inj, Prod.mk.injEq]

end

section
variable {F : Type} (pairs : List (LabelledPair F)) (policy : Policy)

/-- A row may be made of it. -/
def admitted (p : LabelledPair F) : Bool := !(policy = .B && p.verdict ≠ .confirm) && admits p.confidence

/-- The admitted pairs of a bag, in the order of their ids. -/
def members (b : BagId) : List (LabelledPair F) :=
  (ordered LabelledPair.key pairs).filter fun p => admitted policy p && p.bag = b

theorem by_bag_gather (g : Gathered F) (p : LabelledPair F) :
    (gather policy g p).by_bag = if admitted policy p then
      g.by_bag.upsert p.bag [] fun bucket => if bucket.length < MAX_PAIRS_PER_BAG then bucket ++ [p] else bucket
      else g.by_bag := by
  unfold gather admitted
  by_cases hskip : policy = .B ∧ p.verdict ≠ .confirm
  · rw [if_pos hskip, if_neg (by simp [hskip])]
  · rw [if_neg hskip]
    cases hadmits : admits p.confidence with
    | true =>
      have h : (!(decide (policy = .B) && decide (p.verdict ≠ .confirm)) && true) = true := by
        simpa only [Bool.and_true, Bool.not_eq_true', Bool.and_eq_false_iff, decide_eq_false_iff_not,
          not_and_or] using hskip
      rw [if_neg (by simp), if_pos h]
    | false => rw [if_pos (by simp), if_neg (by simp)]

/-- A bucket holds the first pairs of its bag, up to the cap. -/
theorem get_gathered (b : BagId) : (gathered pairs policy).by_bag.get b =
    if members pairs policy b = [] then none else some ((members pairs policy b).take MAX_PAIRS_PER_BAG) := by
  unfold gathered members
  induction ordered LabelledPair.key pairs using List.reverseRecOn with
  | nil => rfl
  | append_singleton l p ih =>
    rw [List.foldl_append, List.foldl_cons, List.foldl_nil, by_bag_gather, List.filter_append]
    cases hadm : admitted policy p with
    | false =>
      rw [if_neg Bool.false_ne_true, ih, List.filter_cons_of_neg (by simp [hadm]), List.filter_nil, List.append_nil]
    | true =>
      rw [if_pos rfl]
      rcases eq_or_ne b p.bag with rfl | hne
      · rw [Table.get_upsert_self, ih, List.filter_cons_of_pos (by simp [hadm]), List.filter_nil]
        generalize l.filter (fun q => admitted policy q && decide (q.bag = p.bag)) = mine
        rw [if_neg (List.append_ne_nil_of_right_ne_nil _ (List.cons_ne_nil p [])), Option.some_inj]
        have hmine : (if mine = [] then none else some (mine.take MAX_PAIRS_PER_BAG)).getD [] =
            mine.take MAX_PAIRS_PER_BAG := by
          split
          · next hnil => rw [hnil, List.take_nil, Option.getD_none]
          · rfl
        rw [hmine, List.length_take]
        rcases lt_or_ge mine.length MAX_PAIRS_PER_BAG with hlt | hge
        · rw [if_pos (by omega), List.take_of_length_le hlt.le, List.take_of_length_le (by simpa using hlt)]
        · rw [if_neg (by omega), List.take_append_of_le_length hge]
      · rw [Table.get_upsert_of_ne _ _ _ _ _ hne, ih, List.filter_cons_of_neg (by simp [hne.symm]), List.filter_nil,
          List.append_nil]

theorem mem_by_bag {e : Bucket F} : e ∈ (gathered pairs policy).by_bag.entries ↔
    e.2 = (members pairs policy e.1).take MAX_PAIRS_PER_BAG ∧ members pairs policy e.1 ≠ [] := by
  rw [← Prod.eta e, ← Table.get_eq_some, get_gathered]
  split
  · next hnil => exact ⟨fun h => (by cases h), fun h => absurd hnil h.2⟩
  · next hne => rw [Option.some_inj, and_iff_left hne, eq_comm]

/-- The bags that rows are made of, each with its pairs. -/
def used : List (Bucket F) := kept (gathered pairs policy).by_bag

theorem mem_used {e : Bucket F} (h : e ∈ used pairs policy) : e ∈ (gathered pairs policy).by_bag.entries :=
  (ordered_perm _ _).mem_iff.mp (fill_sublist.subset ((ordered_perm _ _).mem_iff.mp h))

theorem used_nodup : ((used pairs policy).map Prod.fst).Nodup := by
  have hsub : ((fill (·.2.length) MAX_TRAINING_ROWS (order (gathered pairs policy).by_bag)).map Prod.fst).Nodup :=
    (((ordered_perm _ _).map Prod.fst).nodup_iff.mpr (gathered pairs policy).by_bag.nodup).sublist
      (fill_sublist.map Prod.fst)
  exact ((ordered_perm _ _).map Prod.fst).nodup_iff.mpr hsub

theorem sum_used : ((used pairs policy).map (·.2.length)).sum ≤ MAX_TRAINING_ROWS := by
  rw [used, kept, ((ordered_perm _ _).map _).sum_eq]
  exact (Nat.le_add_right _ _).trans sum_fill.le

/-- The mean multiplier of a bag's pairs. -/
def mean_multiplier (b : Bucket F) : ℚ := (b.2.map fun pair => multiplier pair.confidence).sum / b.2.length

variable [PyArith F]

theorem sum_rows_of (b : Bucket F) : ((rows_of b).map (·.weight)).sum = mean_multiplier b := by
  rw [rows_of, mean_multiplier, List.map_map]
  change (b.2.map fun pair => 1 / (b.2.length : ℚ) * multiplier pair.confidence).sum = _
  rw [List.sum_map_mul_left, one_div, inv_mul_eq_div]

/-- The rows before the classes are balanced. -/
def weighted : List (TrainingRow F) := (used pairs policy).flatMap rows_of

theorem weighted_length : (weighted pairs policy).length ≤ MAX_TRAINING_ROWS := by
  have hlength (b : Bucket F) : (rows_of b).length = b.2.length := List.length_map _
  rw [weighted, List.length_flatMap, List.map_congr_left fun b _ => hlength b]
  exact sum_used pairs policy

/-- Every row is of one of the two classes, and weighs something. -/
theorem weighted_row {row : TrainingRow F} (h : row ∈ weighted pairs policy) :
    (row.y = 1 ∨ row.y = 0) ∧ 0 < row.weight := by
  obtain ⟨b, hb, hrow⟩ := List.mem_flatMap.mp h
  obtain ⟨pair, hpair, rfl⟩ := List.mem_map.mp hrow
  constructor
  · dsimp only
    split
    · exact Or.inl rfl
    · exact Or.inr rfl
  · have hmember : pair ∈ members pairs policy b.1 :=
      List.mem_of_mem_take (((mem_by_bag pairs policy).mp (mem_used pairs policy hb)).1 ▸ hpair)
    have hadm := (Bool.and_eq_true_iff.mp (List.mem_filter.mp hmember).2).1
    have hlength : 0 < (b.2.length : ℚ) := Nat.cast_pos.mpr (List.length_pos_of_mem hpair)
    exact mul_pos (one_div_pos.mpr hlength) (multiplier_pos (Bool.and_eq_true_iff.mp hadm).2)

end

section
variable {F : Type} {rows : List (TrainingRow F)}

theorem mass_pos (hpos : ∀ row ∈ rows, 0 < row.weight) {y : ℚ} (h : ∃ row ∈ rows, row.y = y) : 0 < mass y rows := by
  obtain ⟨row, hrow, rfl⟩ := h
  refine List.sum_pos _ (fun w hw => ?_) (List.ne_nil_of_mem (List.mem_map.mpr
    ⟨row, List.mem_filter.mpr ⟨hrow, decide_eq_true rfl⟩, rfl⟩))
  obtain ⟨other, hother, rfl⟩ := List.mem_map.mp hw
  exact hpos other (List.mem_filter.mp hother).1

theorem sum_weights (h : ∀ row ∈ rows, row.y = 1 ∨ row.y = 0) :
    (rows.map (·.weight)).sum = mass 1 rows + mass 0 rows := by
  induction rows with
  | nil => exact (add_zero 0).symm
  | cons row rows ih =>
    obtain ⟨hrow, h⟩ := List.forall_mem_cons.mp h
    have ih := ih h
    unfold mass at ih ⊢
    rcases hrow with hy | hy <;> simp [hy, ih] <;> ring

/-- The factor of a class. -/
def scaled (y : ℚ) (rows : List (TrainingRow F)) : ℚ :=
  if 0 < mass y rows then (mass 1 rows + mass 0 rows) / (2 * mass y rows) else 1

theorem balance_eq (h : ∀ row ∈ rows, row.y = 1 ∨ row.y = 0) :
    balance rows = rows.map fun row => { row with weight := row.weight * scaled row.y rows } := by
  refine List.map_congr_left fun row hrow => ?_
  rcases h row hrow with hy | hy
  · rw [scaled, hy]
    rfl
  · rw [scaled, hy]
    rfl

theorem mass_balance (h : ∀ row ∈ rows, row.y = 1 ∨ row.y = 0) (y : ℚ) :
    mass y (balance rows) = mass y rows * scaled y rows := by
  rw [balance_eq h, mass, mass, List.filter_map, List.map_map, ← List.sum_map_mul_right]
  refine congrArg List.sum (List.map_congr_left fun row hrow => ?_)
  have hy : row.y = y := of_decide_eq_true (List.mem_filter.mp hrow).2
  rw [← hy]
  rfl

/-- Each of two classes carries half of what the rows weigh together. -/
theorem halves (h : ∀ row ∈ rows, (row.y = 1 ∨ row.y = 0) ∧ 0 < row.weight)
    (hpositive : ∃ row ∈ rows, row.y = 1) (hnegative : ∃ row ∈ rows, row.y = 0) :
    mass 1 (balance rows) = ((balance rows).map (·.weight)).sum / 2 ∧
      mass 0 (balance rows) = ((balance rows).map (·.weight)).sum / 2 := by
  have hy := fun row hrow => (h row hrow).1
  have hbalanced : ∀ row ∈ balance rows, row.y = 1 ∨ row.y = 0 := by
    intro scaled hscaled
    obtain ⟨row, hrow, rfl⟩ := List.mem_map.mp hscaled
    exact hy row hrow
  have hpos := mass_pos (fun row hrow => (h row hrow).2) hpositive
  have hneg := mass_pos (fun row hrow => (h row hrow).2) hnegative
  rw [sum_weights hbalanced, mass_balance hy, mass_balance hy, scaled, scaled, if_pos hpos, if_pos hneg]
  constructor <;> field_simp <;> ring

end

/-- A decision as the row budget sees it: when it was made, and for how many rows. -/
structure Decision where
  bag : BagId
  label_at : ℚ
  rows : ℕ
  deriving DecidableEq

def Decision.newest (d : Decision) : ℚ ×ₗ BagId := toLex (-d.label_at, d.bag)

section
variable {F : Type} (pairs : List (LabelledPair F)) (policy : Policy)

def decision (p : LabelledPair F) : Decision :=
  ⟨p.bag, p.label_at, min MAX_PAIRS_PER_BAG (pairs.countP fun q => admitted policy q && q.bag = p.bag)⟩

/-- The decisions that rows may be made of, the newest first. -/
def decisions : List Decision :=
  ordered Decision.newest ((pairs.filter (admitted policy)).map (decision pairs policy)).dedup

variable {pairs policy}

theorem mem_decisions {d : Decision} :
    d ∈ decisions pairs policy ↔ ∃ p ∈ pairs, admitted policy p ∧ decision pairs policy p = d := by
  rw [decisions, (ordered_perm _ _).mem_iff, List.mem_dedup, List.mem_map]
  simp only [List.mem_filter, and_assoc]

theorem mem_members {b : BagId} {p : LabelledPair F} :
    p ∈ members pairs policy b ↔ p ∈ pairs ∧ admitted policy p ∧ p.bag = b := by
  rw [members, List.mem_filter, (ordered_perm _ _).mem_iff, Bool.and_eq_true, decide_eq_true_iff]

def Bucket.decision (e : Bucket F) : Decision := ⟨e.1, e.label_at, e.2.length⟩

/-- What a bucket is to the budget is what its decision is. -/
theorem decision_bucket (c : Labelled F) {e : Bucket F} (he : e ∈ (gathered c.pairs policy).by_bag.entries)
    {p : LabelledPair F} (hp : p ∈ c.pairs) (hadm : admitted policy p) (hbag : p.bag = e.1) :
    e.decision = decision c.pairs policy p := by
  obtain ⟨hbucket, -⟩ := (mem_by_bag c.pairs policy).mp he
  have hmem : p ∈ members c.pairs policy e.1 := mem_members.mpr ⟨hp, hadm, hbag⟩
  have hlength : (members c.pairs policy e.1).length =
      c.pairs.countP fun q => admitted policy q && q.bag = e.1 := by
    rw [members, ← List.countP_eq_length_filter, (ordered_perm _ _).countP_eq]
  have hlabel : e.label_at = p.label_at := by
    rw [Bucket.label_at, hbucket]
    cases hall : members c.pairs policy e.1 with
    | nil => rw [hall] at hmem; cases hmem
    | cons q l =>
      have hq : q ∈ members c.pairs policy e.1 := hall ▸ List.mem_cons_self
      obtain ⟨hq, -, hqbag⟩ := mem_members.mp hq
      exact (c.decided q hq p hp (hqbag.trans hbag.symm)).2.1
  rw [Bucket.decision, decision, hlabel, hbag, hbucket, List.length_take, hlength]

theorem order_decisions (c : Labelled F) :
    (order (gathered c.pairs policy).by_bag).map Bucket.decision = decisions c.pairs policy := by
  have hnodup : ((gathered c.pairs policy).by_bag.entries.map Bucket.decision).Nodup := by
    refine List.Nodup.of_map Decision.bag ?_
    rw [List.map_map]
    exact (gathered c.pairs policy).by_bag.nodup
  have hmap (entries : List (Bucket F)) :
      (ordered (fun b => toLex (-Bucket.label_at b, b.1)) entries).map Bucket.decision =
        ordered Decision.newest (entries.map Bucket.decision) := map_ordered Decision.newest Bucket.decision entries
  rw [order, hmap, decisions]
  refine ordered_eq _ (fun a ha b hb hab => ?_)
    ((List.perm_ext_iff_of_nodup hnodup (List.nodup_dedup _)).mpr fun d => ?_)
  · obtain ⟨hlabel, hbag⟩ := Prod.mk.inj (toLex.injective hab)
    exact List.inj_on_of_nodup_map (f := Decision.bag) (by
      rw [List.map_map]
      exact (gathered c.pairs policy).by_bag.nodup) ha hb hbag
  · rw [List.mem_dedup, List.mem_map, List.mem_map]
    constructor
    · rintro ⟨e, he, rfl⟩
      obtain ⟨-, hne⟩ := (mem_by_bag c.pairs policy).mp he
      obtain ⟨p, hp⟩ := List.exists_mem_of_ne_nil _ hne
      obtain ⟨hp, hadm, hbag⟩ := mem_members.mp hp
      exact ⟨p, List.mem_filter.mpr ⟨hp, hadm⟩, (decision_bucket c he hp hadm hbag).symm⟩
    · rintro ⟨p, hp, rfl⟩
      obtain ⟨hp, hadm⟩ := List.mem_filter.mp hp
      have hmem : p ∈ members c.pairs policy p.bag := mem_members.mpr ⟨hp, hadm, rfl⟩
      have he : (p.bag, (members c.pairs policy p.bag).take MAX_PAIRS_PER_BAG) ∈
          (gathered c.pairs policy).by_bag.entries :=
        (mem_by_bag c.pairs policy).mpr ⟨rfl, List.ne_nil_of_mem hmem⟩
      exact ⟨_, he, decision_bucket c he hp hadm rfl⟩

theorem decisions_nodup (c : Labelled F) : ((decisions c.pairs policy).map Decision.bag).Nodup := by
  rw [← order_decisions, List.map_map]
  exact ((ordered_perm _ _).map Prod.fst).nodup_iff.mpr (gathered c.pairs policy).by_bag.nodup

/-- The bags that are used are the decisions that the budget takes. -/
theorem used_decisions (c : Labelled F) : ((used c.pairs policy).map Prod.fst).Perm
    ((fill Decision.rows MAX_TRAINING_ROWS (decisions c.pairs policy)).map Decision.bag) := by
  rw [← order_decisions, ← map_fill, List.map_map]
  exact (ordered_perm _ _).map Prod.fst

/-- No pair of a bag that is used is older than one of a bag that is left out. -/
def Newest (pairs : List (LabelledPair F)) (policy : Policy) : Prop :=
  ∀ p ∈ pairs, ∀ q ∈ pairs, admitted policy p → admitted policy q → p.bag ∈ (used pairs policy).map Prod.fst →
    q.bag ∉ (used pairs policy).map Prod.fst → q.label_at ≤ p.label_at

/-- Where the decisions from an instant on are more than the budget holds, taken newest first, each that still fits,
they leave less than any older decision needs. -/
def Roomless (pairs : List (LabelledPair F)) (policy : Policy) : Prop :=
  ∀ t, MAX_TRAINING_ROWS < (((decisions pairs policy).filter (t ≤ ·.label_at)).map Decision.rows).sum →
    ∀ d ∈ decisions pairs policy, d.label_at < t →
      left Decision.rows MAX_TRAINING_ROWS ((decisions pairs policy).filter (t ≤ ·.label_at)) < d.rows

theorem newest_iff_roomless (c : Labelled F) : Newest c.pairs policy ↔ Roomless c.pairs policy := by
  have hsorted : (decisions c.pairs policy).Pairwise fun a b => b.label_at ≤ a.label_at := by
    refine (ordered_pairwise Decision.newest _).imp fun {a b} h => ?_
    rcases Prod.Lex.toLex_le_toLex.mp h with hlt | ⟨heq, -⟩
    · exact (neg_lt_neg_iff.mp hlt).le
    · exact (neg_injective heq).ge
  have hused {p : LabelledPair F} (hp : p ∈ c.pairs) (hadm : admitted policy p) :
      p.bag ∈ (used c.pairs policy).map Prod.fst ↔
        decision c.pairs policy p ∈ fill Decision.rows MAX_TRAINING_ROWS (decisions c.pairs policy) := by
    rw [(used_decisions c).mem_iff, List.mem_map]
    constructor
    · rintro ⟨d, hd, hbag⟩
      have hmem : decision c.pairs policy p ∈ decisions c.pairs policy := mem_decisions.mpr ⟨p, hp, hadm, rfl⟩
      rw [← List.inj_on_of_nodup_map (decisions_nodup c) (fill_sublist.subset hd) hmem hbag]
      exact hd
    · exact fun h => ⟨_, h, rfl⟩
  rw [Roomless, ← Greedy.newest_iff (decisions_nodup c).of_map hsorted]
  constructor
  · intro h a ha b hb hout
    obtain ⟨p, hp, hpadm, rfl⟩ := mem_decisions.mp (fill_sublist.subset ha)
    obtain ⟨q, hq, hqadm, rfl⟩ := mem_decisions.mp hb
    exact h p hp q hq hpadm hqadm ((hused hp hpadm).mpr ha) (mt (hused hq hqadm).mp hout)
  · intro h p hp q hq hpadm hqadm hin hout
    exact h _ ((hused hp hpadm).mp hin) _ (mem_decisions.mpr ⟨q, hq, hqadm, rfl⟩) (mt (hused hq hqadm).mpr hout)

theorem gathered_perm (c : Labelled F) {shuffled : List (LabelledPair F)} (h : shuffled.Perm c.pairs) :
    gathered shuffled policy = gathered c.pairs policy := by
  rw [gathered, gathered, ordered_eq LabelledPair.key c.keyed h.symm]

variable [PyArith F]

/-- Every human decision weighs the same. -/
structure Fair (pairs : List (LabelledPair F)) (policy : Policy) : Prop where
  order : ∀ shuffled, shuffled.Perm pairs → derive shuffled policy = derive pairs policy
  rows : (derive pairs policy).1 = balance ((used pairs policy).flatMap rows_of)
  once : ((used pairs policy).map Prod.fst).Nodup
  whole : ∀ b ∈ used pairs policy, b.2 = (members pairs policy b.1).take MAX_PAIRS_PER_BAG
  weight : ∀ b ∈ used pairs policy, ((rows_of b).map (·.weight)).sum = mean_multiplier b
  halves : (∃ row ∈ (derive pairs policy).1, row.y = 1) → (∃ row ∈ (derive pairs policy).1, row.y = 0) →
    mass 1 (derive pairs policy).1 = ((derive pairs policy).1.map (·.weight)).sum / 2 ∧
      mass 0 (derive pairs policy).1 = ((derive pairs policy).1.map (·.weight)).sum / 2
  bounded : (derive pairs policy).1.length ≤ MAX_TRAINING_ROWS
  newest : Newest pairs policy

/-- A training weighs its decisions alike just where no older one fits into what the newer ones leave. -/
theorem fair_iff_roomless (c : Labelled F) (policy : Policy) : Fair c.pairs policy ↔ Roomless c.pairs policy := by
  rw [← newest_iff_roomless]
  refine ⟨Fair.newest, fun hnewest => ?_⟩
  have hclass {y : ℚ} (h : ∃ row ∈ balance (weighted c.pairs policy), row.y = y) :
      ∃ row ∈ weighted c.pairs policy, row.y = y := by
    obtain ⟨_, hbalanced, hy⟩ := h
    obtain ⟨row, hrow, rfl⟩ := List.mem_map.mp hbalanced
    exact ⟨row, hrow, hy⟩
  have horder (shuffled : List (LabelledPair F)) (hperm : shuffled.Perm c.pairs) :
      derive shuffled policy = derive c.pairs policy := by
    rw [derive, derive, gathered_perm c hperm]
  refine ⟨horder, rfl, used_nodup c.pairs policy, fun b hb => ?_, fun b _ => sum_rows_of b, fun hpos hneg => ?_, ?_,
    hnewest⟩
  · exact ((mem_by_bag c.pairs policy).mp (mem_used c.pairs policy hb)).1
  · exact Model.halves (fun row => weighted_row c.pairs policy) (hclass hpos) (hclass hneg)
  · exact (List.length_map _).trans_le (weighted_length c.pairs policy)

end

/-- Thirty-one bags that reach the cap, an older one of a hundred pairs, and the oldest of ten. -/
def overfull_rows (i : ℕ) : ℕ := if i = 0 then 10 else if i = 1 then 100 else MAX_PAIRS_PER_BAG

def overfull_pair (i j : ℕ) : LabelledPair Json.Half where
  pair_id := MAX_PAIRS_PER_BAG * i + j
  feedback_id := i
  verdict := .confirm
  incident := i
  delta_t_s := PyArith.ofInt 0
  class_affinity := PyArith.ofInt 0
  entity_affinity := PyArith.ofInt 0
  incumbent_linked := true
  evaluated_at := i
  label_at := i

def overfull_pairs : List (LabelledPair Json.Half) :=
  (List.range 33).flatMap fun i => (List.range (overfull_rows i)).map (overfull_pair i)

theorem mem_overfull {p : LabelledPair Json.Half} (h : p ∈ overfull_pairs) :
    ∃ i < 33, ∃ j < overfull_rows i, overfull_pair i j = p := by
  obtain ⟨i, hi, hp⟩ := List.mem_flatMap.mp h
  obtain ⟨j, hj, rfl⟩ := List.mem_map.mp hp
  exact ⟨i, List.mem_range.mp hi, j, List.mem_range.mp hj, rfl⟩

def overfull : Labelled Json.Half where
  pairs := overfull_pairs
  keyed := by
    intro p hp q hq hkey
    obtain ⟨i, -, j, -, rfl⟩ := mem_overfull hp
    obtain ⟨k, -, m, -, rfl⟩ := mem_overfull hq
    obtain ⟨hbag, hpair⟩ := key_eq.mp hkey
    obtain rfl : i = k := Int.natCast_inj.mp (bag_eq.mp hbag).2
    obtain rfl : j = m := Int.natCast_inj.mp (Int.add_left_cancel hpair)
    rfl
  decided := by
    intro p hp q hq hbag
    obtain ⟨i, -, j, -, rfl⟩ := mem_overfull hp
    obtain ⟨k, -, m, -, rfl⟩ := mem_overfull hq
    obtain rfl : i = k := Int.natCast_inj.mp (bag_eq.mp hbag).2
    exact ⟨rfl, rfl, rfl⟩

def overfull_decision (i : ℕ) : Decision := ⟨toLex (.feedback, (i : ℤ)), i, overfull_rows i⟩

theorem decision_overfull {i j : ℕ} (hi : i < 33) :
    decision overfull_pairs .A (overfull_pair i j) = overfull_decision i := by
  have hcount (k : ℕ) : ((List.range (overfull_rows k)).map (overfull_pair k)).countP
      (fun q => admitted .A q && q.bag = (overfull_pair i j).bag) = if k = i then overfull_rows k else 0 := by
    rw [List.countP_map]
    split
    · next heq =>
      subst heq
      refine (List.countP_eq_length.mpr fun m _ => ?_).trans List.length_range
      exact decide_eq_true rfl
    · next hne =>
      refine List.countP_eq_zero.mpr fun m _ hbag => hne ?_
      exact Int.natCast_inj.mp (bag_eq.mp (of_decide_eq_true hbag)).2
  have hsum : ∀ i < 33,
      ((List.range 33).map fun k => if k = i then overfull_rows k else 0).sum = overfull_rows i := by
    decide +kernel
  have hcap : min MAX_PAIRS_PER_BAG (overfull_rows i) = overfull_rows i := by
    rw [overfull_rows, MAX_PAIRS_PER_BAG]
    split
    · rfl
    · split <;> rfl
  rw [decision, overfull_decision, overfull_pairs, List.countP_flatMap]
  simp only [Function.comp_def, hcount]
  rw [hsum i hi, hcap]
  rfl

theorem decisions_overfull : decisions overfull_pairs .A = (List.range 33).reverse.map overfull_decision := by
  have hinj : Function.Injective overfull_decision := by
    intro i k h
    exact Nat.cast_injective (congrArg Decision.label_at h)
  have hsorted : ((List.range 33).reverse.map overfull_decision).Pairwise fun a b => a.newest ≤ b.newest := by
    rw [List.pairwise_map, List.pairwise_reverse]
    refine List.pairwise_lt_range.imp fun {i k} h => Prod.Lex.toLex_le_toLex.mpr (Or.inl ?_)
    exact neg_lt_neg (Nat.cast_lt.mpr h)
  rw [← hsorted.insertionSort_eq, decisions]
  refine ordered_eq _ (fun a ha b hb hab => ?_) ((List.perm_ext_iff_of_nodup (List.nodup_dedup _)
    ((List.nodup_reverse.mpr List.nodup_range).map hinj)).mpr fun d => ?_)
  · obtain ⟨p, hp, rfl⟩ := List.mem_map.mp (List.mem_dedup.mp ha)
    obtain ⟨q, hq, rfl⟩ := List.mem_map.mp (List.mem_dedup.mp hb)
    obtain ⟨i, hi, j, -, rfl⟩ := mem_overfull (List.mem_filter.mp hp).1
    obtain ⟨k, hk, m, -, rfl⟩ := mem_overfull (List.mem_filter.mp hq).1
    rw [decision_overfull hi, decision_overfull hk] at hab ⊢
    exact congrArg _ (Nat.cast_injective (neg_injective (Prod.mk.inj (toLex.injective hab)).1))
  · rw [List.mem_dedup, List.mem_map, List.mem_map]
    constructor
    · rintro ⟨p, hp, rfl⟩
      obtain ⟨i, hi, j, -, rfl⟩ := mem_overfull (List.mem_filter.mp hp).1
      exact ⟨i, List.mem_reverse.mpr (List.mem_range.mpr hi), (decision_overfull hi).symm⟩
    · rintro ⟨i, hi, rfl⟩
      have hi := List.mem_range.mp (List.mem_reverse.mp hi)
      have hrows : 0 < overfull_rows i := by
        rw [overfull_rows, MAX_PAIRS_PER_BAG]
        split
        · omega
        · split <;> omega
      refine ⟨overfull_pair i 0, List.mem_filter.mpr ⟨List.mem_flatMap.mpr ⟨i, List.mem_range.mpr hi, ?_⟩, rfl⟩,
        decision_overfull hi⟩
      exact List.mem_map.mpr ⟨0, List.mem_range.mpr hrows, rfl⟩

/-- The bag of a hundred is left out, and the older one of ten kept. -/
theorem older_bag_kept : ¬ Fair overfull.pairs .A := by
  intro h
  have hroom : Roomless overfull.pairs .A := (newest_iff_roomless overfull).mp h.newest
  rw [Roomless, overfull, decisions_overfull] at hroom
  have hmem : overfull_decision 0 ∈ (List.range 33).reverse.map overfull_decision :=
    List.mem_map.mpr ⟨0, List.mem_reverse.mpr (List.mem_range.mpr (by decide)), rfl⟩
  exact absurd (hroom 1 (by decide +kernel) _ hmem (by decide +kernel)) (by decide +kernel)

end NetCoreNoc.Model
