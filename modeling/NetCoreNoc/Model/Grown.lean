import Mathlib
import NetCoreNoc.Model.Fit

/-! A fit returns a tree: sound, no deeper than it may be, each leaf with rows enough, and with the weighted mean of the
targets of the rows that come to it. -/
namespace NetCoreNoc.Model.Cart

section Cut
variable {n : ℕ} {rows : Fin n → TrainingRow} {subset : List (Fin n)} {feature : Fin 3} {position : ℕ}

/-- The rows that a threshold sends to the left, and those that it sends to the right. -/
def Split.Parts (rows : Fin n → TrainingRow) (split : Split n) (subset : List (Fin n)) : Prop :=
  split.left.Perm (subset.filter fun i => (rows i).x split.feature ≤ split.threshold) ∧
    split.right.Perm (subset.filter fun i => ¬ (rows i).x split.feature ≤ split.threshold)

theorem order_sorted (rows : Fin n → TrainingRow) (subset : List (Fin n)) (feature : Fin 3) :
    (order rows subset feature).Pairwise fun i j => (rows i).x feature ≤ (rows j).x feature := by
  refine (Earliest.ordered_pairwise _ subset).imp ?_
  intro i j h
  exact Prod.Lex.monotone_fst _ _ h

theorem cut_parts
    (h : position ∈ positions ((order rows subset feature).map fun i => (rows i).x feature)) :
    (cut_at rows subset feature position).Parts rows subset := by
  obtain ⟨hlength, hlt⟩ := mem_positions h
  rw [List.length_map] at hlength
  have hvalue (k : ℕ) (hk : k < (order rows subset feature).length) :
      ((order rows subset feature).map fun i => (rows i).x feature).getD k 0 =
        (rows (order rows subset feature)[k]).x feature := by
    rw [List.getD_eq_getElem?_getD, List.getElem?_map, List.getElem?_eq_getElem hk]
    rfl
  have hbelow := List.pairwise_iff_getElem.mp (order_sorted rows subset feature)
  rw [hvalue position (by omega), hvalue (position + 1) hlength] at hlt
  have hthreshold : (cut_at rows subset feature position).threshold =
      ((rows (order rows subset feature)[position]).x feature +
        (rows (order rows subset feature)[position + 1]).x feature) / 2 := by
    unfold cut_at
    dsimp only
    rw [hvalue position (by omega), hvalue (position + 1) hlength]
  have hleft : ∀ i ∈ (order rows subset feature).take (position + 1),
      (rows i).x feature ≤ (cut_at rows subset feature position).threshold := by
    intro i hi
    obtain ⟨k, hk, rfl⟩ := List.mem_take_iff_getElem.mp hi
    have hle : (rows (order rows subset feature)[k]).x feature ≤ (rows (order rows subset feature)[position]).x feature := by
      rcases Nat.lt_or_ge k position with hlt | hge
      · exact hbelow k position _ _ hlt
      · have : k = position := by omega
        subst this
        exact le_rfl
    rw [hthreshold]
    linarith
  have hright : ∀ i ∈ (order rows subset feature).drop (position + 1),
      ¬ (rows i).x feature ≤ (cut_at rows subset feature position).threshold := by
    intro i hi
    obtain ⟨k, hk, rfl⟩ := List.mem_drop_iff_getElem.mp hi
    have hle : (rows (order rows subset feature)[position + 1]).x feature ≤
        (rows (order rows subset feature)[position + 1 + k]).x feature := by
      rcases Nat.eq_zero_or_pos k with rfl | hpos
      · exact le_rfl
      · exact hbelow (position + 1) _ _ _ (by omega)
    rw [hthreshold, not_le]
    linarith
  have hfilter (p : Fin n → Bool) : (subset.filter p).Perm (((order rows subset feature).take (position + 1)).filter p ++
      ((order rows subset feature).drop (position + 1)).filter p) := by
    rw [← List.filter_append, List.take_append_drop]
    exact (order_perm subset feature).symm.filter p
  constructor
  · refine List.Perm.symm ((hfilter _).trans (.of_eq ?_))
    refine (congrArg₂ _ (List.filter_eq_self.mpr fun i hi => ?_) (List.filter_eq_nil_iff.mpr fun i hi => ?_)).trans
      (List.append_nil _)
    · exact decide_eq_true (hleft i hi)
    · exact fun h => hright i hi (of_decide_eq_true h)
  · refine List.Perm.symm ((hfilter _).trans (.of_eq ?_))
    refine (congrArg₂ _ (List.filter_eq_nil_iff.mpr fun i hi => ?_) (List.filter_eq_self.mpr fun i hi => ?_)).trans
      (List.nil_append _)
    · exact fun h => of_decide_eq_true h (hleft i hi)
    · exact decide_eq_true (hright i hi)

variable {log2 : ℚ → ℚ} {min_samples_leaf : ℕ} {criterion : Criterion} {features : List (Fin 3)} {split : Split n}

/-- What is found parts its rows, and leaves enough of them on either side. -/
theorem best_split_parts (h : best_split rows log2 min_samples_leaf criterion features subset = some split) :
    split.Parts rows subset ∧ min_samples_leaf ≤ split.left.length ∧ min_samples_leaf ≤ split.right.length := by
  rw [best_split_eq] at h
  have hmem := List.argmax_mem (Option.filter_eq_some_iff.mp h).1
  obtain ⟨feature, -, hmem⟩ := List.mem_flatMap.mp hmem
  obtain ⟨position, hposition, rfl⟩ := List.mem_map.mp hmem
  obtain ⟨hposition, hlarge⟩ := List.mem_filter.mp hposition
  rw [← positions_eq] at hposition
  obtain ⟨hl, hr⟩ := of_decide_eq_true hlarge
  have hlength := (mem_positions hposition).1
  rw [List.length_map, length_order] at hlength
  refine ⟨cut_parts hposition, ?_, ?_⟩
  · change _ ≤ (List.take _ _).length
    rw [List.length_take, length_order]
    omega
  · change _ ≤ (List.drop _ _).length
    rwa [List.length_drop, length_order]

end Cut

namespace Shape
variable {nodes : List Node} {x : Point} {j : ℕ} {new s : Shape}

def depth : Shape → ℕ
  | leaf .. => 0
  | split _ _ _ left right => max left.depth right.depth + 1

/-- The leaf that a point comes to -/
def lands (x : Point) : Shape → ℕ
  | leaf index _ => index
  | split _ f threshold left right => if x f ≤ threshold then left.lands x else right.lands x

/-- The leaves, each with its index, its value and its depth -/
def tips : Shape → ℕ → List (ℕ × ℚ × ℕ)
  | leaf index value, d => [(index, value, d)]
  | split _ _ _ left right, d => left.tips (d + 1) ++ right.tips (d + 1)

/-- The indices of the splits -/
def interior : Shape → List ℕ
  | leaf .. => []
  | split index _ _ left right => index :: (right.interior ++ left.interior)

/-- A leaf is replaced. -/
def graft : Shape → ℕ → Shape → Shape
  | leaf index value, j, new => if index = j then new else leaf index value
  | split index f threshold left right, j, new => split index f threshold (left.graft j new) (right.graft j new)

theorem lands_graft (s : Shape) : (s.graft j new).lands x = if s.lands x = j then new.lands x else s.lands x := by
  induction s with
  | leaf index value =>
    rw [graft, lands]
    split <;> rfl
  | split index f threshold left right hl hr =>
    rw [graft, lands, lands, hl, hr]
    split <;> rfl

theorem index_graft (hnew : new.index = j) (s : Shape) : (s.graft j new).index = s.index := by
  cases s with
  | leaf index value =>
    rw [graft]
    split
    · rename_i h
      exact hnew.trans h.symm
    · rfl
  | split index f threshold left right => rfl

theorem mem_tips_graft {e : ℕ × ℚ × ℕ} {d : ℕ} : e ∈ (s.graft j new).tips d ↔
    (e ∈ s.tips d ∧ e.1 ≠ j) ∨ ∃ v c, (j, v, c) ∈ s.tips d ∧ e ∈ new.tips c := by
  induction s generalizing d with
  | leaf index value =>
    rw [graft, tips, List.mem_singleton]
    split
    · rename_i h
      subst h
      constructor
      · exact fun he => .inr ⟨value, d, List.mem_singleton_self _, he⟩
      · rintro (⟨rfl, hne⟩ | ⟨v, c, hv, he⟩)
        · exact absurd rfl hne
        · obtain ⟨-, hc⟩ := Prod.mk.inj (List.mem_singleton.mp hv)
          obtain ⟨-, rfl⟩ := Prod.mk.inj hc
          exact he
    · rename_i h
      rw [tips, List.mem_singleton]
      constructor
      · rintro rfl
        exact .inl ⟨rfl, h⟩
      · rintro (⟨rfl, -⟩ | ⟨v, c, hv, -⟩)
        · rfl
        · exact absurd (congrArg Prod.fst (List.mem_singleton.mp hv)).symm h
  | split index f threshold left right hl hr =>
    rw [graft, tips, tips, List.mem_append, List.mem_append, hl, hr]
    constructor
    · rintro ((⟨he, hne⟩ | ⟨v, c, hv, he⟩) | (⟨he, hne⟩ | ⟨v, c, hv, he⟩))
      · exact .inl ⟨.inl he, hne⟩
      · exact .inr ⟨v, c, List.mem_append_left _ hv, he⟩
      · exact .inl ⟨.inr he, hne⟩
      · exact .inr ⟨v, c, List.mem_append_right _ hv, he⟩
    · rintro (⟨he | he, hne⟩ | ⟨v, c, hv, he⟩)
      · exact .inl (.inl ⟨he, hne⟩)
      · exact .inr (.inl ⟨he, hne⟩)
      · rcases List.mem_append.mp hv with hv | hv
        · exact .inl (.inr ⟨v, c, hv, he⟩)
        · exact .inr (.inr ⟨v, c, hv, he⟩)

theorem indices_perm (s : Shape) (d : ℕ) : s.indices.Perm (s.interior ++ (s.tips d).map Prod.fst) := by
  induction s generalizing d with
  | leaf index value => exact .refl _
  | split index f threshold left right hl hr =>
    rw [indices, interior, tips, List.map_append, List.cons_append]
    refine .cons _ (((hr (d + 1)).append (hl (d + 1))).trans ?_)
    rw [List.append_assoc, List.append_assoc]
    refine .append_left _ ?_
    rw [← List.append_assoc, ← List.append_assoc]
    refine (List.perm_append_comm.append_right _).trans ?_
    rw [List.append_assoc, List.append_assoc]
    exact List.Perm.append_left _ List.perm_append_comm

theorem tip_mem {e : ℕ × ℚ × ℕ} {d : ℕ} (h : e ∈ s.tips d) : e.1 ∈ s.indices :=
  (indices_perm s d).mem_iff.mpr (List.mem_append_right _ (List.mem_map_of_mem h))

theorem tip_exterior {e : ℕ × ℚ × ℕ} {d : ℕ} (hnodup : s.indices.Nodup) (h : e ∈ s.tips d) : e.1 ∉ s.interior :=
  fun hin => (List.nodup_append'.mp ((indices_perm s d).nodup_iff.mp hnodup)).2.2 hin (List.mem_map_of_mem h)

theorem graft_of_notMem (h : j ∉ s.indices) : s.graft j new = s := by
  induction s with
  | leaf index value =>
    rw [graft, if_neg]
    rintro rfl
    exact h (List.mem_singleton_self _)
  | split index f threshold left right hl hr =>
    rw [indices, List.mem_cons, List.mem_append, not_or, not_or] at h
    rw [graft, hl h.2.2, hr h.2.1]

theorem stands_graft {nodes' : List Node} (h : s.Stands nodes) (hkeep : ∀ i ∈ s.indices, i ≠ j → nodes'[i]? = nodes[i]?)
    (hnew : new.Stands nodes') (hindex : new.index = j) (hj : j ∉ s.interior) : (s.graft j new).Stands nodes' := by
  induction s with
  | leaf index value =>
    rw [graft]
    split
    · exact hnew
    · rename_i hne
      obtain ⟨node, hnode, hrest⟩ := h
      exact ⟨node, (hkeep index (List.mem_singleton_self _) hne).trans hnode, hrest⟩
  | split index f threshold left right hl hr =>
    obtain ⟨⟨node, hnode, hsplit, hf, ht, hleft, hright⟩, hls, hrs⟩ := h
    rw [interior, List.mem_cons, List.mem_append, not_or, not_or] at hj
    refine ⟨⟨node, ?_, hsplit, hf, ht, ?_, ?_⟩, hl hls ?_ hj.2.2, hr hrs ?_ hj.2.1⟩
    · exact (hkeep index List.mem_cons_self (Ne.symm hj.1)).trans hnode
    · rw [hleft, index_graft hindex]
    · rw [hright, index_graft hindex]
    · exact fun i hi => hkeep i (List.mem_cons_of_mem _ (List.mem_append_right _ hi))
    · exact fun i hi => hkeep i (List.mem_cons_of_mem _ (List.mem_append_left _ hi))

theorem indices_graft (hnodup : s.indices.Nodup) (hj : j ∈ s.indices) (hexterior : j ∉ s.interior) {f : Fin 3}
    {threshold : ℚ} {l r : ℕ} {v w : ℚ} :
    (s.graft j (split j f threshold (leaf l v) (leaf r w))).indices.Perm (s.indices ++ [r, l]) := by
  induction s with
  | leaf index value =>
    obtain rfl := List.mem_singleton.mp hj
    rw [graft, if_pos rfl]
    exact .refl _
  | split index f threshold left right hl hr =>
    obtain ⟨hnl, hnr, hapart, -, -⟩ := nodup_split hnodup
    rw [interior, List.mem_cons, List.mem_append, not_or, not_or] at hexterior
    rw [indices, List.mem_cons, or_iff_right hexterior.1, List.mem_append] at hj
    rw [graft, indices, indices, List.cons_append, List.append_assoc]
    refine .cons _ ?_
    rcases hj with hj | hj
    · rw [graft_of_notMem fun hjl => hapart j hjl hj]
      refine ((hr hnr hj hexterior.2.1).append_right _).trans ?_
      rw [List.append_assoc]
      exact List.Perm.append_left _ List.perm_append_comm
    · rw [graft_of_notMem (hapart j hj)]
      exact .append_left _ (hl hnl hj hexterior.2.2)

/-- The value that a point is given is the one of the leaf that it comes to. -/
theorem exists_tip (s : Shape) (x : Point) (d : ℕ) : ∃ c, (s.lands x, s.value x, c) ∈ s.tips d := by
  induction s generalizing d with
  | leaf index value => exact ⟨d, List.mem_singleton_self _⟩
  | split index f threshold left right hl hr =>
    rw [lands, value, tips]
    split
    · obtain ⟨c, hc⟩ := hl (d + 1)
      exact ⟨c, List.mem_append_left _ hc⟩
    · obtain ⟨c, hc⟩ := hr (d + 1)
      exact ⟨c, List.mem_append_right _ hc⟩

theorem leaf_tip {i : ℕ} {node : Node} (h : s.Stands nodes) (hi : i ∈ s.indices) (hnode : nodes[i]? = some node)
    (hleaf : node.feature = LEAF) (d : ℕ) : ∃ c, (i, node.value, c) ∈ s.tips d := by
  induction s generalizing d with
  | leaf index value =>
    obtain ⟨other, hother, -, rfl⟩ := h
    obtain rfl := List.mem_singleton.mp hi
    obtain rfl := Option.some.inj (hnode.symm.trans hother)
    exact ⟨d, List.mem_singleton_self _⟩
  | split index f threshold left right hl hr =>
    obtain ⟨⟨other, hother, hsplit, -⟩, hls, hrs⟩ := h
    rw [indices, List.mem_cons, List.mem_append] at hi
    rcases hi with rfl | hi | hi
    · obtain rfl := Option.some.inj (hnode.symm.trans hother)
      exact absurd hleaf hsplit
    · obtain ⟨c, hc⟩ := hr hrs hi (d + 1)
      exact ⟨c, List.mem_append_right _ hc⟩
    · obtain ⟨c, hc⟩ := hl hls hi (d + 1)
      exact ⟨c, List.mem_append_left _ hc⟩

theorem depth_le {m d : ℕ} (h : ∀ e ∈ s.tips d, e.2.2 ≤ m) : s.depth + d ≤ m := by
  induction s generalizing d with
  | leaf index value =>
    rw [depth, Nat.zero_add]
    exact h _ (List.mem_singleton_self _)
  | split index f threshold left right hl hr =>
    have hleft := hl fun e he => h e (List.mem_append_left _ he)
    have hright := hr fun e he => h e (List.mem_append_right _ he)
    rw [depth]
    omega

end Shape

/-! What a fit returns -/

/-- The loop of `predict`, up to the index of the leaf -/
def reach (nodes : List Node) (x : Point) : ℕ → ℕ → Option ℕ
  | 0, _ => none
  | fuel + 1, index => do
    let node ← nodes[index]?
    if node.feature = LEAF then some index
    else reach nodes x fuel (if x node.splits ≤ node.threshold then node.left.toNat else node.right.toNat)

/-- Where a point comes to -/
def reached (nodes : List Node) (x : Point) : Option ℕ := reach nodes x nodes.length 0

section
variable {n : ℕ} (rows : Fin n → TrainingRow) (min_samples_leaf max_depth : ℕ) (subset : List (Fin n)) (nodes : List Node)

/-- A tree as it is fitted to some rows. -/
structure Fitted : Prop where
  sound : structure_error nodes = none
  shallow : ∀ x, (reach nodes x (max_depth + 1) 0).isSome
  predicts : ∀ x, predict nodes x = some (mean rows (subset.filter fun i => reached nodes (rows i).x = reached nodes x))
  large : ∀ index node, nodes[index]? = some node → node.feature = LEAF →
    nodes.length = 1 ∨ min_samples_leaf ≤ (subset.filter fun i => reached nodes (rows i).x = some index).length

/-- A leaf, or a split of nodes of the list -/
def Node.Formed (node : Node) (length : ℕ) : Prop :=
  (node.feature = LEAF ∧ node.left = LEAF ∧ node.right = LEAF) ∨
    0 ≤ node.feature ∧ node.feature < 3 ∧ 0 ≤ node.left ∧ node.left < length ∧ 0 ≤ node.right ∧ node.right < length

/-- The rows that come to a leaf -/
def cell (s : Shape) (index : ℕ) : List (Fin n) := subset.filter fun i => s.lands (rows i).x = index

/-- A tree as it grows, with the leaves that wait for their turn. -/
structure Growing (s : Shape) (waiting : List (Pending n)) : Prop where
  stands : s.Stands nodes
  root : s.index = 0
  indices : s.indices.Perm (List.range nodes.length)
  formed : ∀ node ∈ nodes, node.Formed nodes.length
  means : ∀ i v d, (i, v, d) ∈ s.tips 0 → v = mean rows (cell rows subset s i) ∧ d ≤ max_depth ∧
    (nodes.length = 1 ∨ min_samples_leaf ≤ (cell rows subset s i).length)
  waits : ∀ item ∈ waiting, (∃ v, (item.index, v, item.depth) ∈ s.tips 0) ∧
    item.members.Perm (cell rows subset s item.index)
  distinct : (waiting.map (·.index)).Nodup

end

section Visit
variable {nodes : List Node} {s : Shape}

theorem child_of_nat {child : ℤ} {i : ℕ} (h : 0 ≤ child ∧ child < nodes.length) (hi : child.toNat = i) :
    child_of nodes child = some i := by
  rw [child_of, if_pos h, hi]

/-- The visit of a shape's nodes raises nothing. -/
theorem visit_shape (h : s.Stands nodes) (hformed : ∀ node ∈ nodes, node.Formed nodes.length) (hnodup : s.indices.Nodup)
    (fuel : ℕ) (frontier seen : List ℕ) (hfresh : ∀ i ∈ s.indices, i ∉ seen) :
    visit nodes (fuel + s.indices.length) (s.index :: frontier) seen =
      visit nodes fuel frontier (s.indices.reverse ++ seen) := by
  induction s generalizing fuel frontier seen with
  | leaf index value =>
    obtain ⟨node, hnode, hleaf, -⟩ := h
    have hform : node.left = LEAF ∧ node.right = LEAF := by
      rcases hformed node (List.mem_of_getElem? hnode) with ⟨-, hlr⟩ | ⟨h0, -⟩
      · exact hlr
      · rw [hleaf, LEAF] at h0
        omega
    change visit nodes (fuel + 1) (index :: frontier) seen = _
    rw [visit, if_neg (hfresh index (List.mem_singleton_self _)), hnode]
    dsimp only
    rw [if_pos hleaf, if_neg (by tauto)]
    rfl
  | split index f threshold left right hl hr =>
    obtain ⟨⟨node, hnode, hsplit, -, -, hleft, hright⟩, hls, hrs⟩ := h
    obtain ⟨hnl, hnr, hapart, hil, hir⟩ := Shape.nodup_split hnodup
    rcases hformed node (List.mem_of_getElem? hnode) with ⟨hleaf, -⟩ | ⟨hf0, hf3, hl0, hln, hr0, hrn⟩
    · exact absurd hleaf hsplit
    have hlength : fuel + (Shape.split index f threshold left right).indices.length =
        fuel + left.indices.length + right.indices.length + 1 := by
      rw [Shape.indices, List.length_cons, List.length_append]
      omega
    rw [hlength, Shape.index, visit, if_neg (hfresh index List.mem_cons_self), hnode]
    dsimp only
    rw [if_neg hsplit, if_neg (by tauto), child_of_nat ⟨hl0, hln⟩ hleft, child_of_nat ⟨hr0, hrn⟩ hright]
    dsimp only
    have hfresh_right : ∀ i ∈ right.indices, i ∉ index :: seen := by
      intro i hi hseen
      rcases List.mem_cons.mp hseen with rfl | hseen
      · exact hir hi
      · exact hfresh i (List.mem_cons_of_mem _ (List.mem_append_left _ hi)) hseen
    have hfresh_left : ∀ i ∈ left.indices, i ∉ right.indices.reverse ++ (index :: seen) := by
      intro i hi hseen
      rcases List.mem_append.mp hseen with hseen | hseen
      · exact hapart i hi (List.mem_reverse.mp hseen)
      · rcases List.mem_cons.mp hseen with rfl | hseen
        · exact hil hi
        · exact hfresh i (List.mem_cons_of_mem _ (List.mem_append_right _ hi)) hseen
    rw [hr hrs hnr _ _ _ hfresh_right, hl hls hnl _ _ _ hfresh_left, Shape.indices, List.reverse_cons,
      List.reverse_append, List.append_assoc, List.append_assoc]
    rfl

theorem structure_error_shape (h : s.Stands nodes) (hformed : ∀ node ∈ nodes, node.Formed nodes.length)
    (hroot : s.index = 0) (hindices : s.indices.Perm (List.range nodes.length)) : structure_error nodes = none := by
  have hlength : s.indices.length = nodes.length := by rw [hindices.length_eq, List.length_range]
  have hne : nodes ≠ [] := by
    rintro rfl
    exact absurd (Shape.lt_length h s.index_mem) (Nat.not_lt_zero _)
  have hvisit := visit_shape h hformed (hindices.nodup_iff.mpr List.nodup_range) 1 [] [] fun _ _ => List.not_mem_nil
  rw [hroot, hlength, Nat.add_comm] at hvisit
  rw [structure_error, if_neg hne, hvisit, visit]
  dsimp only
  rw [if_neg]
  rw [List.length_append, List.length_reverse, hlength]
  exact fun h => h rfl

theorem reach_shape (x : Point) (h : s.Stands nodes) {fuel : ℕ} (hfuel : s.depth < fuel) :
    reach nodes x fuel s.index = some (s.lands x) := by
  induction s generalizing fuel with
  | leaf index value =>
    obtain ⟨node, hnode, hleaf, -⟩ := h
    obtain ⟨fuel, rfl⟩ := Nat.exists_eq_add_of_le' hfuel
    change reach nodes x (fuel + 1) index = _
    rw [reach, hnode, Option.bind_eq_bind, Option.bind_some, if_pos hleaf]
    rfl
  | split index f threshold left right hl hr =>
    obtain ⟨⟨node, hnode, hsplit, rfl, rfl, hleft, hright⟩, hls, hrs⟩ := h
    rw [Shape.depth] at hfuel
    obtain ⟨fuel, rfl⟩ := Nat.exists_eq_add_of_le' ((Nat.le_add_left 1 _).trans hfuel.le)
    change reach nodes x (fuel + 1) index = _
    rw [reach, hnode, Option.bind_eq_bind, Option.bind_some, if_neg hsplit, Shape.lands]
    split
    · rw [hleft, hl hls (by omega)]
    · rw [hright, hr hrs (by omega)]

theorem depth_lt_length (s : Shape) : s.depth < s.indices.length := by
  induction s with
  | leaf index value => exact Nat.one_pos
  | split index f threshold left right hl hr =>
    rw [Shape.depth, Shape.indices, List.length_cons, List.length_append]
    omega

end Visit

section Run
variable {n : ℕ} {rows : Fin n → TrainingRow} {log2 : ℚ → ℚ} {min_samples_leaf : ℕ} {criterion : Criterion} {max_depth : ℕ}
  {features : List (Fin 3)} {subset : List (Fin n)} {nodes : List Node} {s : Shape}

/-- A tree with no leaf left to wait is fitted. -/
theorem Growing.fitted (h : Growing rows min_samples_leaf max_depth subset nodes s []) :
    Fitted rows min_samples_leaf max_depth subset nodes := by
  have hlength : s.indices.length = nodes.length := by rw [h.indices.length_eq, List.length_range]
  have hnodup : s.indices.Nodup := h.indices.nodup_iff.mpr List.nodup_range
  have hreached (x : Point) : reached nodes x = some (s.lands x) := by
    rw [reached, ← h.root]
    exact reach_shape x h.stands (hlength ▸ depth_lt_length s)
  have hcell (index : ℕ) : (subset.filter fun i => reached nodes (rows i).x = some index) = cell rows subset s index := by
    apply List.filter_congr
    intro i _
    rw [decide_eq_decide, hreached, Option.some.injEq]
  refine ⟨structure_error_shape h.stands h.formed h.root h.indices, ?_, ?_, ?_⟩
  · intro x
    have hdepth : s.depth + 0 ≤ max_depth := Shape.depth_le fun e he => (h.means e.1 e.2.1 e.2.2 he).2.1
    rw [← h.root, reach_shape x h.stands (by omega)]
    rfl
  · intro x
    obtain ⟨c, hc⟩ := s.exists_tip x 0
    rw [hreached x, hcell, ← (h.means _ _ _ hc).1, predict, ← h.root]
    exact descend_shape x h.stands (Shape.length_le h.stands hnodup)
  · intro index node hnode hleaf
    have hmem : index ∈ s.indices :=
      h.indices.mem_iff.mpr (List.mem_range.mpr (List.getElem?_eq_some_iff.mp hnode).1)
    obtain ⟨c, hc⟩ := Shape.leaf_tip h.stands hmem hnode hleaf 0
    rw [hcell]
    exact (h.means _ _ _ hc).2.2

theorem Growing.skip {item : Pending n} {waiting : List (Pending n)}
    (h : Growing rows min_samples_leaf max_depth subset nodes s (item :: waiting)) :
    Growing rows min_samples_leaf max_depth subset nodes s waiting where
  stands := h.stands
  root := h.root
  indices := h.indices
  formed := h.formed
  means := h.means
  waits other hother := h.waits other (List.mem_cons_of_mem _ hother)
  distinct := (List.nodup_cons.mp h.distinct).2

/-- The nodes once a leaf is split -/
def split_nodes (rows : Fin n → TrainingRow) (nodes : List Node) (index : ℕ) (split : Split n) : List Node :=
  (nodes ++ [leaf_of rows split.left] ++ [leaf_of rows split.right]).set index
    ⟨split.feature.val, split.threshold, nodes.length, nodes.length + 1, 0⟩

theorem split_nodes_length (index : ℕ) (split : Split n) : (split_nodes rows nodes index split).length = nodes.length + 2 := by
  rw [split_nodes, List.length_set, List.length_append, List.length_append]
  rfl

theorem split_nodes_get {index i : ℕ} (split : Split n) (hi : i < nodes.length) (hne : i ≠ index) :
    (split_nodes rows nodes index split)[i]? = nodes[i]? := by
  rw [split_nodes, List.getElem?_set_ne (Ne.symm hne), List.append_assoc, List.getElem?_append_left hi]

/-- What takes the place of a leaf that is split -/
def planted (rows : Fin n → TrainingRow) (length index : ℕ) (split : Split n) : Shape :=
  .split index split.feature split.threshold (.leaf length (mean rows split.left)) (.leaf (length + 1) (mean rows split.right))

theorem planted_stands {index : ℕ} (split : Split n) (hindex : index < nodes.length) :
    (planted rows nodes.length index split).Stands (split_nodes rows nodes index split) := by
  have hnew (k : ℕ) (node : Node) (hk : ([leaf_of rows split.left] ++ [leaf_of rows split.right])[k]? = some node) :
      (split_nodes rows nodes index split)[nodes.length + k]? = some node := by
    rw [split_nodes, List.getElem?_set_ne (by omega), List.append_assoc, List.getElem?_append_right (by omega),
      Nat.add_sub_cancel_left, hk]
  refine ⟨⟨⟨split.feature.val, split.threshold, nodes.length, nodes.length + 1, 0⟩, ?_, ?_, ?_, rfl, rfl, rfl⟩,
    ⟨_, hnew 0 _ rfl, rfl, rfl⟩, ⟨_, hnew 1 _ rfl, rfl, rfl⟩⟩
  · rw [split_nodes, List.getElem?_set_self]
    rw [List.length_append, List.length_append]
    omega
  · dsimp only
    rw [LEAF]
    omega
  · exact Fin.cast_val_eq_self split.feature

theorem split_nodes_formed {index : ℕ} (split : Split n) (h : ∀ node ∈ nodes, node.Formed nodes.length) :
    ∀ node ∈ split_nodes rows nodes index split, node.Formed (nodes.length + 2) := by
  intro node hnode
  rcases List.mem_or_eq_of_mem_set hnode with hnode | rfl
  · rcases List.mem_append.mp hnode with hnode | hnode
    · rcases List.mem_append.mp hnode with hnode | hnode
      · rcases h node hnode with hleaf | hsplit
        · exact .inl hleaf
        · refine .inr ?_
          push_cast
          omega
      · obtain rfl := List.mem_singleton.mp hnode
        exact .inl ⟨rfl, rfl, rfl⟩
    · obtain rfl := List.mem_singleton.mp hnode
      exact .inl ⟨rfl, rfl, rfl⟩
  · refine .inr ?_
    have := split.feature.isLt
    dsimp only
    push_cast
    omega

theorem lands_planted (s : Shape) (length index : ℕ) (split : Split n) (x : Point) :
    (s.graft index (planted rows length index split)).lands x = if s.lands x = index then
      (if x split.feature ≤ split.threshold then length else length + 1) else s.lands x := by
  rw [Shape.lands_graft]
  rfl

theorem lands_mem (s : Shape) (x : Point) : s.lands x ∈ s.indices := by
  obtain ⟨c, hc⟩ := s.exists_tip x 0
  exact Shape.tip_mem hc

section
variable {item : Pending n} {waiting : List (Pending n)} {split : Split n}

theorem Growing.lt (h : Growing rows min_samples_leaf max_depth subset nodes s waiting) {i : ℕ} (hi : i ∈ s.indices) :
    i < nodes.length := List.mem_range.mp (h.indices.mem_iff.mp hi)

/-- The rows of a leaf that is split part; those of the others stay. -/
theorem Growing.cells (h : Growing rows min_samples_leaf max_depth subset nodes s (item :: waiting))
    (hparts : split.Parts rows item.members) :
    let s' := s.graft item.index (planted rows nodes.length item.index split)
    (cell rows subset s' nodes.length).Perm split.left ∧ (cell rows subset s' (nodes.length + 1)).Perm split.right ∧
      ∀ i < nodes.length, i ≠ item.index → cell rows subset s' i = cell rows subset s i := by
  intro s'
  obtain ⟨⟨v, htip⟩, hmembers⟩ := h.waits item List.mem_cons_self
  have hitem := h.lt (Shape.tip_mem htip)
  have hcell (i : ℕ) (p : Fin n → Prop) [DecidablePred p] (hi : ∀ k, s'.lands (rows k).x = i ↔
      p k ∧ s.lands (rows k).x = item.index) : cell rows subset s' i = (cell rows subset s item.index).filter p := by
    rw [cell, cell, List.filter_filter]
    apply List.filter_congr
    intro k _
    rw [← Bool.decide_and, decide_eq_decide]
    exact hi k
  have hlands (k : Fin n) : s'.lands (rows k).x = if s.lands (rows k).x = item.index then
      (if (rows k).x split.feature ≤ split.threshold then nodes.length else nodes.length + 1) else s.lands (rows k).x :=
    lands_planted ..
  have hbelow (k : Fin n) : s.lands (rows k).x < nodes.length := h.lt (lands_mem s _)
  refine ⟨?_, ?_, ?_⟩
  · rw [hcell nodes.length (fun k => (rows k).x split.feature ≤ split.threshold)]
    · exact (hmembers.symm.filter _).trans hparts.1.symm
    · intro k
      rw [hlands]
      split_ifs with hk hle
      · exact iff_of_true rfl ⟨hle, hk⟩
      · exact iff_of_false (Nat.succ_ne_self _) fun h => hle h.1
      · exact iff_of_false (hbelow k).ne fun h => hk h.2
  · rw [hcell (nodes.length + 1) (fun k => ¬ (rows k).x split.feature ≤ split.threshold)]
    · exact (hmembers.symm.filter _).trans hparts.2.symm
    · intro k
      rw [hlands]
      split_ifs with hk hle
      · exact iff_of_false (Nat.succ_ne_self _).symm fun h => h.1 hle
      · exact iff_of_true rfl ⟨hle, hk⟩
      · exact iff_of_false ((hbelow k).trans (Nat.lt_succ_self _)).ne fun h => hk h.2
  · intro i hi hne
    apply List.filter_congr
    intro k _
    rw [decide_eq_decide, hlands]
    split_ifs with hk hk'
    · rw [hk]
      exact iff_of_false (by omega) (Ne.symm hne)
    · rw [hk]
      exact iff_of_false (by omega) (Ne.symm hne)
    · exact Iff.rfl

/-- A leaf that waits is split. -/
theorem Growing.grow (h : Growing rows min_samples_leaf max_depth subset nodes s (item :: waiting))
    (hdepth : item.depth < max_depth) (hparts : split.Parts rows item.members)
    (hleft : min_samples_leaf ≤ split.left.length) (hright : min_samples_leaf ≤ split.right.length) :
    Growing rows min_samples_leaf max_depth subset (split_nodes rows nodes item.index split)
      (s.graft item.index (planted rows nodes.length item.index split))
      (waiting ++ [⟨nodes.length, split.left, item.depth + 1⟩] ++ [⟨nodes.length + 1, split.right, item.depth + 1⟩]) := by
  obtain ⟨hcl, hcr, hother⟩ := h.cells hparts
  obtain ⟨⟨v, htip⟩, -⟩ := h.waits item List.mem_cons_self
  have hnodup : s.indices.Nodup := h.indices.nodup_iff.mpr List.nodup_range
  have hitem := h.lt (Shape.tip_mem htip)
  have hexterior := Shape.tip_exterior hnodup htip
  have hdistinct := List.nodup_cons.mp h.distinct
  have hwaiting : ∀ other ∈ waiting, other.index < nodes.length ∧ other.index ≠ item.index := by
    intro other hmem
    obtain ⟨⟨w, hw⟩, -⟩ := h.waits other (List.mem_cons_of_mem _ hmem)
    refine ⟨h.lt (Shape.tip_mem hw), ?_⟩
    exact fun heq => hdistinct.1 (List.mem_map.mpr ⟨other, hmem, heq⟩)
  -- the leaf stands at one depth
  have hunique : ∀ w c, (item.index, w, c) ∈ s.tips 0 → c = item.depth := by
    intro w c hw
    have htips := (List.nodup_append'.mp ((Shape.indices_perm s 0).nodup_iff.mp hnodup)).2.1
    have heq := List.inj_on_of_nodup_map htips hw htip rfl
    exact congrArg (fun e : ℕ × ℚ × ℕ => e.2.2) heq
  have hnew (e : ℕ × ℚ × ℕ) (he : e ∈ (planted rows nodes.length item.index split).tips item.depth) :
      e ∈ (s.graft item.index (planted rows nodes.length item.index split)).tips 0 :=
    Shape.mem_tips_graft.mpr (.inr ⟨v, item.depth, htip, he⟩)
  refine ⟨?_, ?_, ?_, ?_, ?_, ?_, ?_⟩
  · refine Shape.stands_graft h.stands ?_ (planted_stands split hitem) rfl hexterior
    intro i hi hne
    exact split_nodes_get split (h.lt hi) hne
  · rw [← h.root]
    apply Shape.index_graft
    rfl
  · refine (Shape.indices_graft hnodup (Shape.tip_mem htip) hexterior).trans ?_
    rw [split_nodes_length, List.range_succ, List.range_succ, List.append_assoc]
    exact h.indices.append (.swap _ _ _)
  · rw [split_nodes_length]
    exact split_nodes_formed split h.formed
  · intro i w d hmem
    rw [split_nodes_length]
    rcases Shape.mem_tips_graft.mp hmem with ⟨hold, hne⟩ | ⟨w', c, hc, hmem⟩
    · obtain ⟨hvalue, hle, hlarge⟩ := h.means i w d hold
      have hi := h.lt (Shape.tip_mem hold)
      rw [hother i hi hne]
      refine ⟨hvalue, hle, .inr ?_⟩
      rcases hlarge with hone | hlarge
      · exact absurd (show i = item.index by change i < _ at hi; omega) hne
      · exact hlarge
    · obtain rfl := hunique w' c hc
      rcases List.mem_cons.mp hmem with hmem | hmem
      · obtain ⟨rfl, hrest⟩ := Prod.mk.inj hmem
        obtain ⟨rfl, rfl⟩ := Prod.mk.inj hrest
        exact ⟨(mean_perm hcl).symm, hdepth, .inr (hcl.length_eq ▸ hleft)⟩
      · obtain ⟨rfl, hrest⟩ := Prod.mk.inj (List.mem_singleton.mp hmem)
        obtain ⟨rfl, rfl⟩ := Prod.mk.inj hrest
        exact ⟨(mean_perm hcr).symm, hdepth, .inr (hcr.length_eq ▸ hright)⟩
  · intro other hmem
    rcases List.mem_append.mp hmem with hmem | hmem
    · rcases List.mem_append.mp hmem with hmem | hmem
      · obtain ⟨⟨w, hw⟩, hmembers⟩ := h.waits other (List.mem_cons_of_mem _ hmem)
        obtain ⟨hlt, hne⟩ := hwaiting other hmem
        refine ⟨⟨w, Shape.mem_tips_graft.mpr (.inl ⟨hw, hne⟩)⟩, ?_⟩
        rw [hother other.index hlt hne]
        exact hmembers
      · obtain rfl := List.mem_singleton.mp hmem
        exact ⟨⟨_, hnew _ List.mem_cons_self⟩, hcl.symm⟩
    · obtain rfl := List.mem_singleton.mp hmem
      exact ⟨⟨_, hnew _ (List.mem_cons_of_mem _ List.mem_cons_self)⟩, hcr.symm⟩
  · rw [List.map_append, List.map_append, List.append_assoc]
    refine hdistinct.2.append ?_ ?_
    · rw [List.map_singleton, List.map_singleton, List.singleton_append, List.nodup_cons]
      exact ⟨fun h => by simp at h, List.nodup_singleton _⟩
    · intro i hi hmem
      obtain ⟨other, hother, rfl⟩ := List.mem_map.mp hi
      have := (hwaiting other hother).1
      simp at hmem
      omega

end

variable (log2 criterion features)

/-- A turn of the inner loop: the leaf is let be, or split into two that wait. -/
theorem fit_node_growing {item : Pending n} {level pending : List (Pending n)}
    (h : Growing rows min_samples_leaf max_depth subset nodes s (item :: level ++ pending)) :
    let out := fit_node rows log2 min_samples_leaf criterion max_depth features (nodes, pending) item
    (∃ s', Growing rows min_samples_leaf max_depth subset out.1 s' (level ++ out.2)) ∧
      ∀ p ∈ out.2, p ∈ pending ∨ (p.depth = item.depth + 1 ∧ item.depth < max_depth) := by
  intro out
  by_cases hstop : max_depth ≤ item.depth ∨ item.members.length < 2 * min_samples_leaf
  · rw [show out = (nodes, pending) from if_pos hstop]
    exact ⟨⟨s, h.skip⟩, fun p hp => .inl hp⟩
  · cases hsplit : best_split rows log2 min_samples_leaf criterion features item.members with
    | none =>
      rw [show out = (nodes, pending) from (if_neg hstop).trans (by rw [hsplit])]
      exact ⟨⟨s, h.skip⟩, fun p hp => .inl hp⟩
    | some split =>
      rw [show out = (split_nodes rows nodes item.index split, pending ++ [⟨nodes.length, split.left, item.depth + 1⟩] ++
        [⟨nodes.length + 1, split.right, item.depth + 1⟩]) from (if_neg hstop).trans (by rw [hsplit]; rfl)]
      have hdepth : item.depth < max_depth := not_le.mp (not_or.mp hstop).1
      obtain ⟨hparts, hleft, hright⟩ := best_split_parts hsplit
      refine ⟨⟨s.graft item.index (planted rows nodes.length item.index split), ?_⟩, ?_⟩
      · rw [← List.append_assoc, ← List.append_assoc]
        exact h.grow hdepth hparts hleft hright
      · intro p hp
        rcases List.mem_append.mp hp with hp | hp
        · rcases List.mem_append.mp hp with hp | hp
          · exact .inl hp
          · exact .inr ⟨congrArg Pending.depth (List.mem_singleton.mp hp), hdepth⟩
        · exact .inr ⟨congrArg Pending.depth (List.mem_singleton.mp hp), hdepth⟩

/-- A level: what waits after it is one deeper. -/
theorem fit_level_growing {level pending : List (Pending n)} {depth : ℕ}
    (h : Growing rows min_samples_leaf max_depth subset nodes s (level ++ pending))
    (hlevel : ∀ item ∈ level, item.depth = depth) (hpending : ∀ p ∈ pending, p.depth = depth + 1 ∧ depth < max_depth) :
    let out := level.foldl (fit_node rows log2 min_samples_leaf criterion max_depth features) (nodes, pending)
    (∃ s', Growing rows min_samples_leaf max_depth subset out.1 s' out.2) ∧
      ∀ p ∈ out.2, p.depth = depth + 1 ∧ depth < max_depth := by
  induction level generalizing nodes s pending with
  | nil => exact ⟨⟨s, h⟩, hpending⟩
  | cons item level ih =>
    obtain ⟨⟨s', hs'⟩, hdeeper⟩ := fit_node_growing log2 criterion features h
    refine ih hs' (fun other hother => hlevel other (List.mem_cons_of_mem _ hother)) ?_
    intro p hp
    rcases hdeeper p hp with hp | ⟨hp, hlt⟩
    · exact hpending p hp
    · rw [hlevel item List.mem_cons_self] at hp hlt
      exact ⟨hp, hlt⟩

/-- There are turns enough for the levels that may be left. -/
theorem fit_levels_growing (fuel depth : ℕ) {level : List (Pending n)}
    (h : Growing rows min_samples_leaf max_depth subset nodes s level) (hlevel : ∀ item ∈ level, item.depth = depth)
    (hfuel : level = [] ∨ depth ≤ max_depth) (hdepth : depth + fuel = max_depth + 1) :
    ∃ out s', fit_levels rows log2 min_samples_leaf criterion max_depth features fuel nodes level = some out ∧
      Growing rows min_samples_leaf max_depth subset out s' [] := by
  induction fuel generalizing nodes s level depth with
  | zero =>
    obtain rfl : level = [] := hfuel.resolve_right (by omega)
    exact ⟨nodes, s, rfl, h⟩
  | succ fuel ih =>
    cases level with
    | nil => exact ⟨nodes, s, rfl, h⟩
    | cons item level =>
      rw [← List.append_nil (item :: level)] at h
      obtain ⟨⟨s', hs'⟩, hdeeper⟩ := fit_level_growing log2 criterion features h hlevel
        (fun p hp => absurd hp List.not_mem_nil)
      refine ih (depth + 1) hs' (fun p hp => (hdeeper p hp).1) ?_ (by omega)
      refine or_iff_not_imp_left.mpr fun hne => ?_
      obtain ⟨p, hp⟩ := List.exists_mem_of_ne_nil _ hne
      exact (hdeeper p hp).2

end Run

section
variable {n : ℕ} (rows : Fin n → TrainingRow) (log2 : ℚ → ℚ) (min_samples_leaf : ℕ) (criterion : Criterion) (max_depth : ℕ)
  (features : List (Fin 3)) (subset : List (Fin n))

theorem cell_leaf (v : ℚ) : cell rows subset (.leaf 0 v) 0 = subset :=
  List.filter_eq_self.mpr fun _ _ => decide_eq_true rfl

theorem growing_start : Growing rows min_samples_leaf max_depth subset [leaf_of rows subset] (.leaf 0 (mean rows subset))
    [⟨0, subset, 0⟩] where
  stands := ⟨_, rfl, rfl, rfl⟩
  root := rfl
  indices := .refl _
  formed node hnode := by
    obtain rfl := List.mem_singleton.mp hnode
    exact .inl ⟨rfl, rfl, rfl⟩
  means i v d hmem := by
    obtain ⟨rfl, hrest⟩ := Prod.mk.inj (List.mem_singleton.mp hmem)
    obtain ⟨rfl, rfl⟩ := Prod.mk.inj hrest
    exact ⟨by rw [cell_leaf], Nat.zero_le _, .inl rfl⟩
  waits item hitem := by
    obtain rfl := List.mem_singleton.mp hitem
    refine ⟨⟨_, List.mem_singleton_self _⟩, ?_⟩
    rw [cell_leaf]
  distinct := List.nodup_singleton _

/-- A fit ends, whatever the rows, the bag, the features and the criterion; its tree is one that this build reads, is no
deeper than it may be, and gives a point the weighted mean of the targets of the rows that come to the point's leaf, of which
there are enough in every leaf of a tree that was split at all. -/
theorem fit_fitted : ∃ nodes, fit rows log2 min_samples_leaf criterion max_depth features subset = some nodes ∧
    Fitted rows min_samples_leaf max_depth subset nodes := by
  obtain ⟨nodes, s, hfit, hgrowing⟩ := fit_levels_growing log2 criterion features (max_depth + 1) 0
    (growing_start rows min_samples_leaf max_depth subset)
    (fun item hitem => congrArg Pending.depth (List.mem_singleton.mp hitem)) (.inr (Nat.zero_le _)) (Nat.zero_add _)
  exact ⟨nodes, hfit, hgrowing.fitted⟩

end

end NetCoreNoc.Model.Cart
