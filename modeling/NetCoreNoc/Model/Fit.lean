import Mathlib
import NetCoreNoc.Earliest
import NetCoreNoc.Model.Cart

/-! How a tree is grown (`cart.py`): the search for the best split of some rows, and the breadth-first fit. Arithmetic is
exact, and the logarithm of the entropy is whatever it is. -/
namespace NetCoreNoc.Model.Cart

structure TrainingRow where
  y : ℚ
  weight : ℚ
  x : Point

inductive Criterion where
  | gini
  | entropy
  | variance
  deriving DecidableEq

def MAX_SPLIT_CANDIDATES : ℕ := 64

/-- `Σw`, `Σw·y`, `Σw·y²` -/
@[ext] structure Sums where
  mass : ℚ := 0
  total : ℚ := 0
  squared : ℚ := 0

namespace Sums

def add (s : Sums) (row : TrainingRow) : Sums where
  mass := s.mass + row.weight
  total := s.total + row.weight * row.y
  squared := s.squared + row.weight * row.y * row.y

def minus (s t : Sums) : Sums := ⟨s.mass - t.mass, s.total - t.total, s.squared - t.squared⟩

end Sums

/-- `_impurity` -/
def impurity (log2 : ℚ → ℚ) (s : Sums) (criterion : Criterion) : ℚ :=
  if s.mass ≤ 0 then 0
  else
    let mean := s.total / s.mass
    if criterion = .variance then max 0 (s.squared / s.mass - mean * mean)
    else if mean ≤ 0 ∨ 1 ≤ mean then 0
    else if criterion = .entropy then -(mean * log2 mean + (1 - mean) * log2 (1 - mean))
    else 2 * mean * (1 - mean)

/-- `l[::n]`, so many being left out first. -/
def strided {α : Type} (n : ℕ) : ℕ → List α → List α
  | _, [] => []
  | 0, a :: l => a :: strided n (n - 1) l
  | k + 1, _ :: l => strided n k l

/-- `_positions` -/
def positions (values : List ℚ) : List ℕ :=
  let admissible := (List.range (values.length - 1)).filter fun i => values.getD i 0 < values.getD (i + 1) 0
  if admissible.length ≤ MAX_SPLIT_CANDIDATES then admissible
  else strided (admissible.length / MAX_SPLIT_CANDIDATES + 1) 0 admissible

section
variable {n : ℕ} (rows : Fin n → TrainingRow)

structure Split (n : ℕ) where
  feature : Fin 3
  threshold : ℚ
  left : List (Fin n)
  right : List (Fin n)

def sums (subset : List (Fin n)) : Sums := subset.foldl (fun s i => s.add (rows i)) {}

/-- `sorted(subset, key=lambda i: (rows[i].x[feature], i))` -/
def order (subset : List (Fin n)) (feature : Fin 3) : List (Fin n) :=
  Earliest.ordered (fun i => toLex ((rows i).x feature, i)) subset

variable (log2 : ℚ → ℚ) (min_samples_leaf : ℕ) (criterion : Criterion)

/-- The search along one feature, with the sums of the rows before the cut. -/
def scan (whole : Sums) (feature : Fin 3) (order : List (Fin n)) (values : List ℚ) :
    List ℕ → Sums → ℕ → ℚ × Option (Split n) → ℚ × Option (Split n)
  | [], _, _, best => best
  | position :: rest, left, cut, best =>
    let left := ((order.drop cut).take (position + 1 - cut)).foldl (fun s i => s.add (rows i)) left
    let cut := max cut (position + 1)
    if cut < min_samples_leaf ∨ order.length - cut < min_samples_leaf then
      scan whole feature order values rest left cut best
    else
      let gain := impurity log2 whole criterion * whole.mass - (impurity log2 left criterion * left.mass +
        impurity log2 (whole.minus left) criterion * (whole.mass - left.mass))
      scan whole feature order values rest left cut (if best.1 < gain then
        (gain, some ⟨feature, (values.getD position 0 + values.getD (position + 1) 0) / 2, order.take (position + 1),
          order.drop (position + 1)⟩) else best)

/-- `_best_split` -/
def best_split (features : List (Fin 3)) (subset : List (Fin n)) : Option (Split n) :=
  (features.foldl (fun best feature =>
    let order := order rows subset feature
    let values := order.map fun i => (rows i).x feature
    scan rows log2 min_samples_leaf criterion (sums rows subset) feature order values (positions values) {} 0 best)
    (0, none)).2

/-- The weighted mean of the targets, where there is weight. -/
def mean (subset : List (Fin n)) : ℚ :=
  if (sums rows subset).mass ≤ 0 then 0 else (sums rows subset).total / (sums rows subset).mass

/-- `_leaf_of` -/
def leaf_of (subset : List (Fin n)) : Node := ⟨LEAF, 0, LEAF, LEAF, mean rows subset⟩

/-- A node that may be split yet: its index, its rows and its depth. -/
structure Pending (n : ℕ) where
  index : ℕ
  members : List (Fin n)
  depth : ℕ

variable (max_depth : ℕ) (features : List (Fin 3))

/-- A turn of the inner loop of `fit` -/
def fit_node (st : List Node × List (Pending n)) (item : Pending n) : List Node × List (Pending n) :=
  if max_depth ≤ item.depth ∨ item.members.length < 2 * min_samples_leaf then st
  else match best_split rows log2 min_samples_leaf criterion features item.members with
  | none => st
  | some split =>
    ((st.1 ++ [leaf_of rows split.left] ++ [leaf_of rows split.right]).set item.index
      ⟨split.feature.val, split.threshold, st.1.length, st.1.length + 1, 0⟩,
      st.2 ++ [⟨st.1.length, split.left, item.depth + 1⟩] ++ [⟨st.1.length + 1, split.right, item.depth + 1⟩])

/-- The outer loop of `fit`, a level a turn -/
def fit_levels : ℕ → List Node → List (Pending n) → Option (List Node)
  | _, nodes, [] => some nodes
  | 0, _, _ :: _ => none
  | fuel + 1, nodes, item :: level =>
    let (nodes, pending) :=
      (item :: level).foldl (fit_node rows log2 min_samples_leaf criterion max_depth features) (nodes, [])
    fit_levels fuel nodes pending

def fit (subset : List (Fin n)) : Option (List Node) :=
  fit_levels rows log2 min_samples_leaf criterion max_depth features (max_depth + 1) [leaf_of rows subset] [⟨0, subset, 0⟩]

end

/-! What the search comes to, without its running sums -/

theorem strided_sublist {α : Type} (n k : ℕ) (l : List α) : (strided n k l).Sublist l := by
  induction l generalizing k with
  | nil => exact .slnil
  | cons a l ih =>
    cases k with
    | zero => exact (ih _).cons_cons a
    | succ k => exact (ih k).cons a

theorem strided_eq {α : Type} {n k : ℕ} (hk : k < n) (s : ℕ) (hs : (s + k) % n = 0) (l : List α) :
    strided n k l = ((l.zipIdx s).filter fun e => e.2 % n = 0).map Prod.fst := by
  induction l generalizing k s with
  | nil => rfl
  | cons a l ih =>
    rw [List.zipIdx_cons, List.filter_cons]
    cases k with
    | zero =>
      have hnext : (s + 1 + (n - 1)) % n = 0 := by
        rw [show s + 1 + (n - 1) = s + 0 + n by omega, Nat.add_mod_right, hs]
      rw [strided, ih (by omega) (s + 1) hnext, if_pos (show decide (s % n = 0) = true from decide_eq_true hs), List.map_cons]
    | succ k =>
      have hskipped : ¬ s % n = 0 := by
        intro h0
        rw [Nat.add_mod, h0, zero_add, Nat.mod_mod, Nat.mod_eq_of_lt hk] at hs
        omega
      rw [strided, ih (by omega) (s + 1) (by rw [Nat.add_right_comm, Nat.add_assoc]; exact hs),
        if_neg (by rwa [decide_eq_true_eq])]

/-- The cuts between different values -/
def borders (values : List ℚ) : List ℕ :=
  (List.range (values.length - 1)).filter fun i => values.getD i 0 < values.getD (i + 1) 0

/-- One cut of so many is tried. -/
def stride (count : ℕ) : ℕ := if count ≤ 64 then 1 else count / 64 + 1

/-- The cuts that are tried: all of them where they are 64 at most, and else every so many, from the first on. -/
def tried (values : List ℚ) : List ℕ :=
  ((borders values).zipIdx.filter fun e => e.2 % stride (borders values).length = 0).map Prod.fst

theorem positions_eq (values : List ℚ) : positions values = tried values := by
  unfold positions tried stride
  dsimp only
  rw [← borders.eq_1 values, show MAX_SPLIT_CANDIDATES = 64 from rfl]
  split
  · rw [List.filter_eq_self.mpr (fun e _ => decide_eq_true (Nat.mod_one _)), List.zipIdx_map_fst]
  · exact strided_eq (Nat.succ_pos _) 0 (Nat.zero_mod _) _

theorem positions_sublist (values : List ℚ) : (positions values).Sublist ((List.range (values.length - 1)).filter
    fun i => values.getD i 0 < values.getD (i + 1) 0) := by
  unfold positions
  dsimp only
  split
  · exact .refl _
  · exact strided_sublist _ _ _

theorem positions_sorted (values : List ℚ) : (positions values).Pairwise (· < ·) :=
  (List.pairwise_lt_range.filter _).sublist (positions_sublist values)

theorem mem_positions {values : List ℚ} {p : ℕ} (h : p ∈ positions values) :
    p + 1 < values.length ∧ values.getD p 0 < values.getD (p + 1) 0 := by
  obtain ⟨hrange, hlt⟩ := List.mem_filter.mp ((positions_sublist values).subset h)
  have := List.mem_range.mp hrange
  exact ⟨by omega, of_decide_eq_true hlt⟩

section
variable {n : ℕ} {rows : Fin n → TrainingRow} {log2 : ℚ → ℚ} {min_samples_leaf : ℕ} {criterion : Criterion}

theorem foldl_sums (s : Sums) (l : List (Fin n)) : l.foldl (fun s i => s.add (rows i)) s =
    ⟨s.mass + (l.map fun i => (rows i).weight).sum, s.total + (l.map fun i => (rows i).weight * (rows i).y).sum,
      s.squared + (l.map fun i => (rows i).weight * (rows i).y * (rows i).y).sum⟩ := by
  induction l generalizing s with
  | nil => simp
  | cons i l ih =>
    rw [List.foldl_cons, ih]
    simp only [Sums.add, List.map_cons, List.sum_cons, add_assoc]

theorem sums_append (l m : List (Fin n)) : sums rows (l ++ m) = m.foldl (fun s i => s.add (rows i)) (sums rows l) :=
  List.foldl_append

theorem sums_minus (l m : List (Fin n)) : (sums rows (l ++ m)).minus (sums rows l) = sums rows m := by
  unfold sums
  rw [foldl_sums, foldl_sums, foldl_sums, Sums.minus]
  simp only [List.map_append, List.sum_append, zero_add, add_sub_cancel_left]

theorem sums_perm {l m : List (Fin n)} (h : l.Perm m) : sums rows l = sums rows m := by
  unfold sums
  rw [foldl_sums, foldl_sums, (h.map _).sum_eq, (h.map _).sum_eq, (h.map _).sum_eq]

theorem mean_perm {l m : List (Fin n)} (h : l.Perm m) : mean rows l = mean rows m := by
  unfold mean
  rw [sums_perm h]

variable (rows log2 min_samples_leaf criterion)

/-- The split of some rows behind a position of theirs along a feature -/
def cut_at (subset : List (Fin n)) (feature : Fin 3) (position : ℕ) : Split n :=
  let order := order rows subset feature
  let values := order.map fun i => (rows i).x feature
  ⟨feature, (values.getD position 0 + values.getD (position + 1) 0) / 2, order.take (position + 1), order.drop (position + 1)⟩

/-- What splitting some rows takes from their impurity, each side weighed by its mass. -/
def gain (subset : List (Fin n)) (split : Split n) : ℚ :=
  let weighed (l : List (Fin n)) : ℚ := impurity log2 (sums rows l) criterion * (sums rows l).mass
  weighed subset - (weighed split.left + weighed split.right)

/-- The splits of some rows along a feature that are tried and leave enough of them on either side -/
def candidates_along (subset : List (Fin n)) (feature : Fin 3) : List (Split n) :=
  let values := (order rows subset feature).map fun i => (rows i).x feature
  ((tried values).filter fun p => min_samples_leaf ≤ p + 1 ∧ min_samples_leaf ≤ subset.length - (p + 1)).map
    (cut_at rows subset feature)

def candidates (features : List (Fin 3)) (subset : List (Fin n)) : List (Split n) :=
  features.flatMap (candidates_along rows min_samples_leaf subset)

variable {rows log2 min_samples_leaf criterion}

theorem order_perm (subset : List (Fin n)) (feature : Fin 3) : (order rows subset feature).Perm subset :=
  Earliest.ordered_perm _ subset

theorem length_order (subset : List (Fin n)) (feature : Fin 3) : (order rows subset feature).length = subset.length :=
  (order_perm subset feature).length_eq

/-- The running sums are those of the rows before the cut. -/
theorem scan_eq {subset : List (Fin n)} {feature : Fin 3} {ps : List ℕ} (cut : ℕ)
    (hsorted : ps.Pairwise (· < ·)) (hcut : ∀ p ∈ ps, cut ≤ p) (best : ℚ × Option (Split n)) :
    let order := order rows subset feature
    scan rows log2 min_samples_leaf criterion (sums rows subset) feature order (order.map fun i => (rows i).x feature) ps
      (sums rows (order.take cut)) cut best =
    ((ps.filter fun p => min_samples_leaf ≤ p + 1 ∧ min_samples_leaf ≤ subset.length - (p + 1)).map
      (cut_at rows subset feature)).foldl (Earliest.better (gain rows log2 criterion subset)) best := by
  intro order
  induction ps generalizing cut best with
  | nil => rfl
  | cons p ps ih =>
    obtain ⟨hfirst, hsorted⟩ := List.pairwise_cons.mp hsorted
    have hp := hcut p List.mem_cons_self
    have htake : order.take cut ++ (order.drop cut).take (p + 1 - cut) = order.take (p + 1) := by
      rw [← List.take_add, Nat.add_sub_cancel' (Nat.le_succ_of_le hp)]
    have hsums : ((order.drop cut).take (p + 1 - cut)).foldl (fun s i => s.add (rows i)) (sums rows (order.take cut)) =
        sums rows (order.take (p + 1)) := by rw [← sums_append, htake]
    have hwhole : sums rows subset = sums rows (order.take (p + 1) ++ order.drop (p + 1)) := by
      rw [List.take_append_drop]
      exact sums_perm (order_perm subset feature).symm
    rw [scan, hsums, max_eq_right (Nat.le_succ_of_le hp), length_order, List.filter_cons]
    dsimp only
    have hih := ih (p + 1) hsorted hfirst
    split
    · rename_i hsmall
      have hout : ¬ decide (min_samples_leaf ≤ p + 1 ∧ min_samples_leaf ≤ subset.length - (p + 1)) = true := by
        rw [decide_eq_true_eq]
        omega
      rw [if_neg hout]
      exact hih best
    · rename_i hlarge
      have hin : decide (min_samples_leaf ≤ p + 1 ∧ min_samples_leaf ≤ subset.length - (p + 1)) = true := by
        rw [decide_eq_true_eq]
        omega
      rw [if_pos hin, List.map_cons, List.foldl_cons, hih]
      congr 1
      have hgain : gain rows log2 criterion subset (cut_at rows subset feature p) =
          impurity log2 (sums rows subset) criterion * (sums rows subset).mass -
            (impurity log2 (sums rows (order.take (p + 1))) criterion * (sums rows (order.take (p + 1))).mass +
            impurity log2 ((sums rows subset).minus (sums rows (order.take (p + 1)))) criterion *
              ((sums rows subset).mass - (sums rows (order.take (p + 1))).mass)) := by
        have hright : (sums rows subset).minus (sums rows (order.take (p + 1))) = sums rows (order.drop (p + 1)) := by
          rw [hwhole, sums_minus]
        rw [hright, show (sums rows subset).mass - (sums rows (order.take (p + 1))).mass =
          (sums rows (order.drop (p + 1))).mass from congrArg Sums.mass hright]
        rfl
      rw [Earliest.better, hgain]
      rfl

/-- The search finds the first of the splits tried that gain most: of the lowest feature, and of the lowest threshold;
none where no such split gains anything. -/
theorem best_split_eq (features : List (Fin 3)) (subset : List (Fin n)) :
    best_split rows log2 min_samples_leaf criterion features subset =
      ((candidates rows min_samples_leaf features subset).argmax (gain rows log2 criterion subset)).filter
        (0 < gain rows log2 criterion subset ·) := by
  have hfold (best : ℚ × Option (Split n)) : features.foldl (fun best feature =>
      let order := order rows subset feature
      let values := order.map fun i => (rows i).x feature
      scan rows log2 min_samples_leaf criterion (sums rows subset) feature order values (positions values) {} 0 best) best =
        (candidates rows min_samples_leaf features subset).foldl (Earliest.better (gain rows log2 criterion subset)) best := by
    induction features generalizing best with
    | nil => rfl
    | cons feature features ih =>
      rw [List.foldl_cons, ih, candidates, candidates, List.flatMap_cons, List.foldl_append]
      congr 1
      rw [candidates_along, ← positions_eq]
      exact scan_eq 0 (positions_sorted _) (fun _ _ => Nat.zero_le _) best
  rw [best_split, hfold, Earliest.foldl_better]
  cases ((candidates rows min_samples_leaf features subset).argmax (gain rows log2 criterion subset)).filter
    (0 < gain rows log2 criterion subset ·) with
  | none => rfl
  | some split => rfl

end

end NetCoreNoc.Model.Cart
