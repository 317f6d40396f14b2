import Mathlib
import NetCoreNoc.Checks
import NetCoreNoc.Earliest
import NetCoreNoc.Shapley
import NetCoreNoc.Model.Cart

/-! What each of the three features adds to a weighted sum of trees, in tables made once (`attribution.py`). -/
namespace NetCoreNoc.Model.Cart
open Checks Earliest Shapley

def MAX_CELLS_PER_TREE : ℕ := 4096

abbrev Leaf : Type := ℚ × Box

/-- The rows that stand for the pairs of a corpus. -/
structure Background where
  rows : List Point
  nonempty : rows ≠ []

/-- `bisect_left`, of values in ascending order: how many are lower. -/
def bisect_left (cuts : List ℚ) (q : ℚ) : ℕ := cuts.countP (· < q)

def low_of : WithBot ℚ → List ℚ
  | ⊥ => []
  | (q : ℚ) => [q]

def high_of : WithTop ℚ → List ℚ
  | ⊤ => []
  | (q : ℚ) => [q]

def cuts_for (leaves : List Leaf) (feature : Fin 3) : List ℚ :=
  ordered id (leaves.flatMap fun leaf => low_of (leaf.2 feature).1 ++ high_of (leaf.2 feature).2).dedup

def low_index (column : List ℚ) : WithBot ℚ → ℤ
  | ⊥ => -1
  | (q : ℚ) => bisect_left column q

def high_index (column : List ℚ) : WithTop ℚ → ℤ
  | ⊤ => column.length
  | (q : ℚ) => bisect_left column q

/-- A box in the indices of the cells. -/
def index_box (box : Box) (cuts : Fin 3 → List ℚ) (feature : Fin 3) : ℤ × ℤ :=
  (low_index (cuts feature) (box feature).1, high_index (cuts feature) (box feature).2)

/-- A set of features; the source has it as a bit mask. -/
abbrev Mask : Type := Finset (Fin 3)

def cell_mask (bound : Fin 3 → ℤ × ℤ) (cell : Fin 3 → ℕ) : Mask :=
  Finset.univ.filter fun feature => (bound feature).1 < cell feature ∧ cell feature ≤ (bound feature).2

def row_mask (box : Box) (row : Point) : Mask := Finset.univ.filter fun feature => box.Has feature (row feature)

def background_fractions (background : Background) (box : Box) (subset : Mask) : ℚ :=
  let counts (mask : Mask) : ℕ := background.rows.countP (row_mask box · = mask)
  (∑ mask with subsetᶜ ⊆ mask, counts mask : ℕ) / (background.rows.length : ℚ)

def SHAPLEY_WEIGHT : List ℚ := [1 / 3, 1 / 6, 1 / 3]

def shapley (coalition : Mask → ℚ) (feature : Fin 3) : ℚ :=
  ∑ subset with feature ∉ subset,
    SHAPLEY_WEIGHT.getD subset.card 0 * (coalition (insert feature subset) - coalition subset)

/-- The grid of a tree; `cells` has what the features add in each of its cells, row by row. -/
structure Table where
  cuts : Fin 3 → List ℚ
  strides : Fin 3 → ℕ
  cells : List (Fin 3 → ℚ)

/-- A tree that is cut into more cells than a table may have. -/
structure AttributionError where
  total_cells : ℕ
  deriving DecidableEq, Repr

section
variable (background : Background) (leaves : List Leaf)

def sizes (feature : Fin 3) : ℕ := (cuts_for leaves feature).length + 1

def total_cells : ℕ := sizes leaves 0 * sizes leaves 1 * sizes leaves 2

/-- The eight values of a cell. -/
def coalition (cell : Fin 3 → ℕ) (subset : Mask) : ℚ :=
  (leaves.map fun leaf =>
    if subset ⊆ cell_mask (index_box leaf.2 (cuts_for leaves)) cell then
      leaf.1 * background_fractions background leaf.2 subset
    else 0).sum

def table_for (weight : ℚ) : Except AttributionError (Table × ℚ) :=
  if MAX_CELLS_PER_TREE < total_cells leaves then .error ⟨total_cells leaves⟩
  else
    let member_base := (leaves.map fun leaf => leaf.1 * background_fractions background leaf.2 ∅).sum
    let cells := (List.range (sizes leaves 0)).flatMap fun first =>
      (List.range (sizes leaves 1)).flatMap fun second =>
      (List.range (sizes leaves 2)).map fun third feature =>
        weight * shapley (coalition background leaves ![first, second, third]) feature
    .ok (⟨cuts_for leaves, ![sizes leaves 1 * sizes leaves 2, sizes leaves 2, 1], cells⟩, weight * member_base)

end

structure Explainer where
  base_value : ℚ
  tables : List Table

/-- Of a weight and the leaves for each tree. -/
def build (background : Background) (members : List (ℚ × List Leaf)) (base_score : ℚ) :
    Except AttributionError Explainer := do
  let made ← each (fun m => table_for background m.2 m.1) members
  .ok ⟨made.foldl (fun base_value m => base_value + m.2) base_score, made.map Prod.fst⟩

/-- What a point's cell has in a table; none is an index out of the table. -/
def Table.at (table : Table) (x : Point) : Option (Fin 3 → ℚ) :=
  table.cells[bisect_left (table.cuts 0) (x 0) * table.strides 0 +
    bisect_left (table.cuts 1) (x 1) * table.strides 1 +
    bisect_left (table.cuts 2) (x 2)]?

def Explainer.explain (e : Explainer) (x : Point) : Option (ℚ × (Fin 3 → ℚ)) := do
  let phi ← e.tables.foldlM (fun phi table => (table.at x).map fun cell => phi + cell) (0 : Fin 3 → ℚ)
  some (phi 0 + phi 1 + phi 2 + e.base_value, phi)

section Grid

theorem flatMap_get {α : Type} {m : ℕ} {f : ℕ → List α} (hf : ∀ i, (f i).length = m) {n i j : ℕ} (hi : i < n)
    (hj : j < m) : ((List.range n).flatMap f)[i * m + j]? = (f i)[j]? := by
  have hlength (n : ℕ) : ((List.range n).flatMap f).length = n * m := by
    rw [List.length_flatMap, List.map_congr_left fun i _ => hf i, List.map_const', List.sum_replicate,
      List.length_range, smul_eq_mul]
  induction n with
  | zero => exact absurd hi (Nat.not_lt_zero i)
  | succ n ih =>
    rw [List.range_succ, List.flatMap_append, List.flatMap_singleton]
    rcases Nat.lt_succ_iff_lt_or_eq.mp hi with hlt | rfl
    · rw [List.getElem?_append_left, ih hlt]
      rw [hlength]
      nlinarith
    · rw [List.getElem?_append_right (by rw [hlength]; omega), hlength, Nat.add_sub_cancel_left]

theorem bisect_left_le (cuts : List ℚ) (q : ℚ) : bisect_left cuts q ≤ cuts.length := List.countP_le_length

theorem bisect_left_mono (cuts : List ℚ) {p q : ℚ} (h : p ≤ q) : bisect_left cuts p ≤ bisect_left cuts q := by
  refine List.countP_mono_left fun c _ hc => ?_
  simpa using (of_decide_eq_true hc).trans_le h

/-- A cut lies between the cells of the points below it or on it and those above. -/
theorem bisect_left_lt {cuts : List ℚ} {c q : ℚ} (hc : c ∈ cuts) :
    bisect_left cuts c < bisect_left cuts q ↔ c < q := by
  constructor
  · intro h
    by_contra hle
    exact (bisect_left_mono cuts (not_lt.mp hle)).not_gt h
  · intro h
    obtain ⟨before, after, rfl⟩ := List.append_of_mem hc
    unfold bisect_left
    rw [List.countP_append, List.countP_append, List.countP_cons_of_neg (by simp),
      List.countP_cons_of_pos (by simpa using h)]
    have hbefore := bisect_left_mono before h.le
    have hafter := bisect_left_mono after h.le
    unfold bisect_left at hbefore hafter
    omega

variable {leaves : List Leaf} {leaf : Leaf}

theorem low_mem (h : leaf ∈ leaves) {f : Fin 3} {q : ℚ} (hq : (leaf.2 f).1 = q) : q ∈ cuts_for leaves f := by
  rw [cuts_for, (ordered_perm _ _).mem_iff, List.mem_dedup]
  refine List.mem_flatMap.mpr ⟨leaf, h, List.mem_append_left _ ?_⟩
  rw [hq]
  exact List.mem_singleton_self q

theorem high_mem (h : leaf ∈ leaves) {f : Fin 3} {q : ℚ} (hq : (leaf.2 f).2 = q) : q ∈ cuts_for leaves f := by
  rw [cuts_for, (ordered_perm _ _).mem_iff, List.mem_dedup]
  refine List.mem_flatMap.mpr ⟨leaf, h, List.mem_append_right _ ?_⟩
  rw [hq]
  exact List.mem_singleton_self q

/-- A cell is in a box in a feature just where its points are. -/
theorem mem_cell_mask (h : leaf ∈ leaves) (x : Point) (f : Fin 3) :
    f ∈ cell_mask (index_box leaf.2 (cuts_for leaves)) (fun g => bisect_left (cuts_for leaves g) (x g)) ↔
      leaf.2.Has f (x f) := by
  rw [cell_mask, Finset.mem_filter, and_iff_right (Finset.mem_univ f), Box.Has]
  refine and_congr ?_ ?_
  · cases hlow : (leaf.2 f).1 with
    | bot =>
      rw [index_box, hlow]
      exact iff_of_true (by simp only [low_index]; omega) (WithBot.bot_lt_coe _)
    | coe q =>
      rw [index_box, hlow, WithBot.coe_lt_coe, ← bisect_left_lt (low_mem h hlow)]
      exact Int.ofNat_lt
  · cases hhigh : (leaf.2 f).2 with
    | top =>
      rw [index_box, hhigh]
      exact iff_of_true (Int.ofNat_le.mpr (bisect_left_le _ _)) le_top
    | coe q =>
      have hle : bisect_left (cuts_for leaves f) (x f) ≤ bisect_left (cuts_for leaves f) q ↔ x f ≤ q := by
        rw [← not_lt, bisect_left_lt (high_mem h hhigh), not_lt]
      rw [index_box, hhigh, WithTop.coe_le_coe, ← hle]
      exact Int.ofNat_le

/-- Where a point is in the grid. -/
def cell_of (leaves : List Leaf) (x : Point) (f : Fin 3) : ℕ := bisect_left (cuts_for leaves f) (x f)

theorem table_at {background : Background} {weight base : ℚ} {table : Table}
    (h : table_for background leaves weight = .ok (table, base)) (x : Point) :
    table.at x = some fun f => weight * shapley (coalition background leaves (cell_of leaves x)) f := by
  unfold table_for at h
  split at h
  · cases h
  · cases h
    have hlt (f : Fin 3) : cell_of leaves x f < sizes leaves f := Nat.lt_succ_of_le (bisect_left_le _ _)
    have hcell : ![cell_of leaves x 0, cell_of leaves x 1, cell_of leaves x 2] = cell_of leaves x := by
      ext f
      fin_cases f <;> rfl
    have hrow (first : ℕ) : ((List.range (sizes leaves 1)).flatMap fun second => (List.range (sizes leaves 2)).map
        fun third feature => weight * shapley (coalition background leaves ![first, second, third]) feature).length =
        sizes leaves 1 * sizes leaves 2 := by
      rw [List.length_flatMap]
      simp
    have hcells (first second : ℕ) : ((List.range (sizes leaves 2)).map fun third (feature : Fin 3) =>
        weight * shapley (coalition background leaves ![first, second, third]) feature).length = sizes leaves 2 := by
      simp
    have hindex : cell_of leaves x 1 * sizes leaves 2 + cell_of leaves x 2 < sizes leaves 1 * sizes leaves 2 := by
      have := hlt 1
      have := hlt 2
      nlinarith
    change ((List.range (sizes leaves 0)).flatMap _)[cell_of leaves x 0 * (sizes leaves 1 * sizes leaves 2) +
      cell_of leaves x 1 * sizes leaves 2 + cell_of leaves x 2]? = _
    rw [Nat.add_assoc, flatMap_get hrow (hlt 0) hindex, flatMap_get (hcells _) (hlt 1) (hlt 2),
      List.getElem?_map, List.getElem?_range (hlt 2), Option.map_some, hcell]

end Grid

/-- The point that has the features of a coalition from `x`, and the others from `z`. -/
def mixed (S : Mask) (x z : Point) : Point := fun f => if f ∈ S then x f else z f

/-- What a tree answers at a point. -/
def Tree.value (t : Tree) (x : Point) : ℚ := (predict t.nodes x).getD 0

/-- The weighted sum of trees at a point, each walked. -/
def walked (members : List (ℚ × Tree)) (base_score : ℚ) (x : Point) : ℚ :=
  base_score + (members.map fun m => m.1 * m.2.value x).sum

/-- The mean over the background of an answer, with the coalition's features fixed at a point. -/
def mean_over (background : Background) (answer : Point → ℚ) (x : Point) (S : Mask) : ℚ :=
  (background.rows.map fun z => answer (mixed S x z)).sum / background.rows.length

section Mean
variable (background : Background)

private theorem sum_ite {α : Type} (p : α → Prop) [DecidablePred p] (g : α → ℚ) (l : List α) :
    (l.map fun a => if p a then g a else 0).sum = ((l.filter (p ·)).map g).sum := by
  induction l with
  | nil => rfl
  | cons a l ih => by_cases h : p a <;> simp [h, ih]

private theorem sum_swap {α β : Type} (g : α → β → ℚ) (l : List α) (m : List β) :
    (l.map fun a => (m.map fun b => g a b).sum).sum = (m.map fun b => (l.map fun a => g a b).sum).sum := by
  induction l with
  | nil => simp
  | cons a l ih =>
    simp only [List.map_cons, List.sum_cons]
    rw [ih, List.sum_map_add]

private theorem sum_counts {α : Type} (g : α → Mask) (s : Finset Mask) (l : List α) :
    ∑ mask ∈ s, l.countP (g · = mask) = l.countP (g · ∈ s) := by
  induction l with
  | nil => simp
  | cons a l ih =>
    simp only [List.countP_cons, Finset.sum_add_distrib, ih, decide_eq_true_eq, Finset.sum_ite_eq]

theorem sum_holds (t : Tree) (x : Point) :
    ((leaves t.nodes).map fun leaf => if leaf.2.Holds x then leaf.1 else 0).sum = t.value x := by
  obtain ⟨e, he, hvalue⟩ := t.partition x
  rw [sum_ite, he, Tree.value, hvalue]
  exact List.sum_singleton

theorem holds_mixed {box : Box} {S : Mask} {x z : Point} :
    box.Holds (mixed S x z) ↔ (∀ f ∈ S, box.Has f (x f)) ∧ ∀ f ∉ S, box.Has f (z f) := by
  constructor
  · intro h
    refine ⟨fun f hf => ?_, fun f hf => ?_⟩
    · have hmixed := h f
      rwa [mixed, if_pos hf] at hmixed
    · have hmixed := h f
      rwa [mixed, if_neg hf] at hmixed
  · rintro ⟨hx, hz⟩ f
    unfold mixed
    split
    · next hf => exact hx f hf
    · next hf => exact hz f hf

theorem background_fractions_eq (box : Box) (S : Mask) :
    background_fractions background box S =
      (background.rows.map fun z => if ∀ f ∉ S, box.Has f (z f) then (1 : ℚ) else 0).sum /
        background.rows.length := by
  have hmask (z : Point) : row_mask box z ∈ Finset.univ.filter (Sᶜ ⊆ ·) ↔ ∀ f ∉ S, box.Has f (z f) := by
    rw [Finset.mem_filter, and_iff_right (Finset.mem_univ _), Finset.subset_iff]
    simp only [Finset.mem_compl, row_mask, Finset.mem_filter, Finset.mem_univ, true_and]
  rw [background_fractions, sum_counts, sum_ite]
  simp only [hmask, List.map_const', List.sum_replicate, nsmul_eq_mul, mul_one, List.countP_eq_length_filter]

/-- The value of a coalition in the cell of a point. -/
theorem coalition_eq (t : Tree) (x : Point) (S : Mask) :
    coalition background (leaves t.nodes) (cell_of (leaves t.nodes) x) S = mean_over background t.value x S := by
  have hleaf (leaf : Leaf) (h : leaf ∈ leaves t.nodes) :
      (if S ⊆ cell_mask (index_box leaf.2 (cuts_for (leaves t.nodes))) (cell_of (leaves t.nodes) x) then
        leaf.1 * background_fractions background leaf.2 S else 0) =
        (background.rows.map fun z => if leaf.2.Holds (mixed S x z) then leaf.1 else 0).sum *
          (1 / background.rows.length) := by
    have hcell : S ⊆ cell_mask (index_box leaf.2 (cuts_for (leaves t.nodes))) (cell_of (leaves t.nodes) x) ↔
        ∀ f ∈ S, leaf.2.Has f (x f) :=
      forall_congr' fun f => imp_congr_right fun _ => mem_cell_mask h x f
    simp only [hcell, holds_mixed]
    split
    · next hx =>
      have hrows (z : Point) : (if (∀ f ∈ S, leaf.2.Has f (x f)) ∧ ∀ f ∉ S, leaf.2.Has f (z f) then leaf.1 else 0) =
          leaf.1 * if ∀ f ∉ S, leaf.2.Has f (z f) then 1 else 0 := by
        rw [mul_ite, mul_one, mul_zero]
        exact if_congr (and_iff_right hx) rfl rfl
      rw [background_fractions_eq, List.map_congr_left fun z _ => hrows z, List.sum_map_mul_left]
      ring
    · next hx =>
      simp only [hx, false_and, if_false, List.map_const', List.sum_replicate, nsmul_eq_mul]
      ring
  rw [coalition, List.map_congr_left hleaf, List.sum_map_mul_right, sum_swap, mean_over]
  simp only [sum_holds]
  ring

/-- The weights are those of three players. -/
theorem shapley_eq (v : Mask → ℚ) (f : Fin 3) : shapley v f = worth v f := by
  refine Finset.sum_congr rfl fun S hS => ?_
  have hcard : S.card < 3 := (Finset.card_lt_univ_of_notMem (Finset.mem_filter.mp hS).2).trans_eq (Fintype.card_fin 3)
  rw [Fintype.card_fin]
  congr 1
  interval_cases S.card <;> norm_num [SHAPLEY_WEIGHT, share, Nat.factorial]

theorem mean_over_univ (answer : Point → ℚ) (x : Point) : mean_over background answer x Finset.univ = answer x := by
  have hall (z : Point) : mixed Finset.univ x z = x := funext fun f => if_pos (Finset.mem_univ f)
  have hlength : (background.rows.length : ℚ) ≠ 0 :=
    Nat.cast_ne_zero.mpr (List.length_pos_iff.mpr background.nonempty).ne'
  unfold mean_over
  simp only [hall, List.map_const', List.sum_replicate, nsmul_eq_mul]
  exact mul_div_cancel_left₀ _ hlength

/-- The mean is linear in the trees. -/
theorem mean_over_walked (members : List (ℚ × Tree)) (base_score : ℚ) (x : Point) (S : Mask) :
    mean_over background (walked members base_score) x S =
      base_score + (members.map fun m => m.1 * mean_over background m.2.value x S).sum := by
  have hlength : (background.rows.length : ℚ) ≠ 0 :=
    Nat.cast_ne_zero.mpr (List.length_pos_iff.mpr background.nonempty).ne'
  unfold mean_over walked
  rw [List.sum_map_add, sum_swap, List.map_const', List.sum_replicate, nsmul_eq_mul, add_div,
    mul_div_cancel_left₀ _ hlength, div_eq_mul_inv, ← List.sum_map_mul_right]
  refine congrArg (base_score + List.sum ·) (List.map_congr_left fun m _ => ?_)
  rw [List.sum_map_mul_left]
  ring

end Mean

section Ensemble
variable {background : Background}

/-- What the table of a tree holds, and what the tree adds to the base value. -/
theorem table_for_tree {t : Tree} {weight base : ℚ} {table : Table}
    (h : table_for background (leaves t.nodes) weight = .ok (table, base)) (x : Point) :
    table.at x = some (fun f => worth (fun S => weight * mean_over background t.value x S) f) ∧
      base = weight * mean_over background t.value x ∅ := by
  have hcoalition : coalition background (leaves t.nodes) (cell_of (leaves t.nodes) x) =
      mean_over background t.value x := funext (coalition_eq background t x)
  constructor
  · rw [table_at h, hcoalition]
    refine congrArg some (funext fun f => ?_)
    rw [shapley_eq, worth_mul]
  · unfold table_for at h
    split at h
    · cases h
    · cases h
      rw [← hcoalition, coalition]
      simp only [Finset.empty_subset, if_true]

variable {members : List (ℚ × Tree)}

private theorem explain_tables {made : List (Table × ℚ)}
    (h : List.Forall₂ (fun m r => table_for background (leaves m.2.nodes) m.1 = .ok r) members made) (x : Point)
    (phi : Fin 3 → ℚ) (base : ℚ) :
    (made.map Prod.fst).foldlM (fun phi table => (table.at x).map fun cell => phi + cell) phi =
        some (fun f => phi f +
          (members.map fun m => worth (fun S => m.1 * mean_over background m.2.value x S) f).sum) ∧
      made.foldl (fun base_value m => base_value + m.2) base =
        base + (members.map fun m => m.1 * mean_over background m.2.value x ∅).sum := by
  induction h generalizing phi base with
  | nil => exact ⟨congrArg some (funext fun f => (add_zero _).symm), (add_zero base).symm⟩
  | @cons m r members made hm _ ih =>
    obtain ⟨hat, hbase⟩ := table_for_tree hm x
    obtain ⟨htables, hvalue⟩ := ih (phi + fun f => worth (fun S => m.1 * mean_over background m.2.value x S) f)
      (base + m.1 * mean_over background m.2.value x ∅)
    constructor
    · rw [List.map_cons, List.foldlM_cons, hat]
      refine htables.trans (congrArg some (funext fun f => ?_))
      rw [List.map_cons, List.sum_cons, Pi.add_apply, add_assoc]
    · rw [List.foldl_cons, hbase, hvalue, List.map_cons, List.sum_cons, add_assoc]

/-- What an ensemble's explainer answers at a point. -/
theorem explain_built {base_score : ℚ} {e : Explainer}
    (h : build background (members.map fun m => (m.1, leaves m.2.nodes)) base_score = .ok e) (x : Point) :
    e.explain x = some (walked members base_score x,
      fun f => worth (mean_over background (walked members base_score) x) f) := by
  unfold build at h
  obtain ⟨made, hmade, heq⟩ := bind_ok.mp h
  cases heq
  have hmade : List.Forall₂ (fun m r => table_for background (leaves m.2.nodes) m.1 = .ok r) members made :=
    List.forall₂_map_left_iff.mp (each_ok.mp hmade)
  obtain ⟨htables, hbase⟩ := explain_tables hmade x 0 base_score
  have hworth (f : Fin 3) : (0 : Fin 3 → ℚ) f +
      (members.map fun m => worth (fun S => m.1 * mean_over background m.2.value x S) f).sum =
      worth (mean_over background (walked members base_score) x) f := by
    have hmean : mean_over background (walked members base_score) x = fun S =>
        base_score + (members.map fun m => m.1 * mean_over background m.2.value x S).sum :=
      funext (mean_over_walked background members base_score x)
    rw [hmean, worth_add, worth_const, worth_list, zero_add, Pi.zero_apply, zero_add]
  have hempty : base_score + (members.map fun m => m.1 * mean_over background m.2.value x ∅).sum =
      mean_over background (walked members base_score) x ∅ :=
    (mean_over_walked background members base_score x ∅).symm
  have hsum := sum_worth (mean_over background (walked members base_score) x)
  rw [Fin.sum_univ_three, mean_over_univ] at hsum
  unfold Explainer.explain
  rw [funext hworth] at htables
  rw [htables, Option.bind_eq_bind, Option.bind_some, hbase, hempty, hsum, sub_add_cancel]

/-- An explainer is built just where every tree is cut into no more cells than a table may have. -/
theorem build_iff {base_score : ℚ} :
    (∃ e, build background (members.map fun m => (m.1, leaves m.2.nodes)) base_score = .ok e) ↔
      ∀ m ∈ members, total_cells (leaves m.2.nodes) ≤ MAX_CELLS_PER_TREE := by
  have htable (leaves : List Leaf) (weight : ℚ) :
      (∃ r, table_for background leaves weight = .ok r) ↔ total_cells leaves ≤ MAX_CELLS_PER_TREE := by
    unfold table_for
    split
    · next hmany =>
      refine iff_of_false ?_ hmany.not_ge
      rintro ⟨r, hr⟩
      cases hr
    · next hfew => exact iff_of_true ⟨_, rfl⟩ (not_lt.mp hfew)
  constructor
  · rintro ⟨e, he⟩ m hm
    obtain ⟨made, hmade, -⟩ := bind_ok.mp he
    obtain ⟨r, -, hr⟩ := each_mem hmade (List.mem_map_of_mem hm)
    exact (htable _ _).mp ⟨r, hr⟩
  · intro h
    have hmade : ∃ made, each (fun m => table_for background m.2 m.1)
        (members.map fun m => (m.1, leaves m.2.nodes)) = .ok made := by
      induction members with
      | nil => exact ⟨[], rfl⟩
      | cons m members ih =>
        obtain ⟨hm, h⟩ := List.forall_mem_cons.mp h
        obtain ⟨r, hr⟩ := (htable (leaves m.2.nodes) m.1).mpr hm
        obtain ⟨made, hmade⟩ := ih h
        refine ⟨r :: made, ?_⟩
        rw [List.map_cons, each, hr, ok_bind, hmade, ok_bind]
    obtain ⟨made, hmade⟩ := hmade
    refine ⟨⟨made.foldl (fun base_value m => base_value + m.2) base_score, made.map Prod.fst⟩, ?_⟩
    rw [build, hmade, ok_bind]

/-- Of trees that each cut no more cells than a table may have, an explainer is built, and at every point its score is
what walking the trees gives, and its contributions are the Shapley values of the mean over the background; every
point is in the box of one leaf of a tree, that of the leaf which the tree is walked to. -/
theorem explain_exact (background : Background) (members : List (ℚ × Tree)) (base_score : ℚ) :
    (∀ m ∈ members, ∀ x, ∃ e, (leaves m.2.nodes).filter (·.2.Holds x) = [e] ∧ predict m.2.nodes x = some e.1) ∧
    ((∃ e, build background (members.map fun m => (m.1, leaves m.2.nodes)) base_score = .ok e) ↔
      ∀ m ∈ members, total_cells (leaves m.2.nodes) ≤ MAX_CELLS_PER_TREE) ∧
    ∀ e, build background (members.map fun m => (m.1, leaves m.2.nodes)) base_score = .ok e →
      ∀ x, e.explain x = some (walked members base_score x,
        fun f => worth (mean_over background (walked members base_score) x) f) :=
  ⟨fun m _ x => m.2.partition x, build_iff, fun _ he x => explain_built he x⟩

end Ensemble

def one_cut : Tree := ⟨[⟨0, 1, 1, 2, 0⟩, ⟨LEAF, 0, LEAF, LEAF, 0⟩, ⟨LEAF, 0, LEAF, LEAF, 1⟩], by decide +kernel⟩

/-- A tree of one cut is explained. -/
theorem explain_exact_cut :
    let background : Background := ⟨[0, 1], List.cons_ne_nil _ _⟩
    ∃ e, build background [(1, leaves one_cut.nodes)] 0 = .ok e ∧ ∀ x, e.explain x = some (walked [(1, one_cut)] 0 x,
      fun f => worth (mean_over background (walked [(1, one_cut)] 0) x) f) := by
  intro background
  obtain ⟨-, hbuilt, hexact⟩ := explain_exact background [(1, one_cut)] 0
  obtain ⟨e, he⟩ := hbuilt.mpr (by decide +kernel)
  exact ⟨e, he, hexact e he⟩

/-- Forty-six splits one below the other, the features in turn. -/
def staircase_nodes : List Node :=
  (List.range 46).flatMap (fun k => [⟨k % 3, k, 2 * k + 1, 2 * k + 2, 0⟩, ⟨LEAF, 0, LEAF, LEAF, k⟩]) ++
    [⟨LEAF, 0, LEAF, LEAF, 46⟩]

def staircase : Tree := ⟨staircase_nodes, by decide +kernel⟩

/-- It is a tree, and cut into 4352 cells: no explainer is built of it. -/
theorem staircase_refused : ¬ ∀ (background : Background) (members : List (ℚ × Tree)) (base_score : ℚ),
    ∃ e, build background (members.map fun m => (m.1, leaves m.2.nodes)) base_score = .ok e := by
  intro h
  have hcells := build_iff.mp (h ⟨[0], List.cons_ne_nil _ _⟩ [(1, staircase)] 0) (1, staircase) List.mem_cons_self
  exact absurd hcells (by decide +kernel)

end NetCoreNoc.Model.Cart
