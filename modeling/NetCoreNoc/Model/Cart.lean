import Mathlib
import NetCoreNoc.Shapley

/-! A tree as a list of nodes: what makes the list one, where it sends a point, and the boxes of its leaves
(`cart.py`, `tree.py`). -/
namespace NetCoreNoc.Model.Cart

def LEAF : ℤ := -1

/-- A value for each of the three features. -/
abbrev Point : Type := Fin 3 → ℚ

instance three_neZero : NeZero 3 := ⟨Nat.succ_ne_zero 2⟩

structure Node where
  feature : ℤ
  threshold : ℚ
  left : ℤ
  right : ℤ
  value : ℚ
  deriving DecidableEq, Repr

/-- Why a list of nodes is no tree; the last is never met. -/
inductive StructureError where
  | empty
  | twice (index : ℕ)
  | leaf_children (index : ℕ)
  | feature (index : ℕ)
  | child (index : ℕ) (child : ℤ)
  | unreachable (indices : List ℕ)
  | unfinished
  deriving DecidableEq, Repr

section
variable (nodes : List Node)

/-- The index that a child is named by, where it is one. -/
def child_of (child : ℤ) : Option ℕ := if 0 ≤ child ∧ child < nodes.length then some child.toNat else none

/-- The loop of `structure_error`; the list's head is the end that it pops from. -/
def visit : ℕ → List ℕ → List ℕ → Except StructureError (List ℕ)
  | _, [], seen => .ok seen
  | 0, _ :: _, _ => .error .unfinished
  | fuel + 1, index :: frontier, seen =>
    if index ∈ seen then .error (.twice index)
    else
      match nodes[index]? with
      | none => .error .unfinished
      | some node =>
        if node.feature = LEAF then
          if node.left ≠ LEAF ∨ node.right ≠ LEAF then .error (.leaf_children index)
          else visit fuel frontier (index :: seen)
        else if ¬ (0 ≤ node.feature ∧ node.feature < 3) then .error (.feature index)
        else
          match child_of nodes node.left with
          | none => .error (.child index node.left)
          | some left =>
            match child_of nodes node.right with
            | none => .error (.child index node.right)
            | some right => visit fuel (right :: left :: frontier) (index :: seen)

def structure_error : Option StructureError :=
  if nodes = [] then some .empty
  else
    match visit nodes (nodes.length + 1) [0] [] with
    | .error e => some e
    | .ok seen =>
      if seen.length ≠ nodes.length then
        some (.unreachable ((List.range nodes.length).filter (· ∉ seen)))
      else none

/-- The feature that a node splits on. -/
def Node.splits (node : Node) : Fin 3 := Fin.ofNat 3 node.feature.toNat

/-- The loop of `predict`. -/
def descend (x : Point) : ℕ → ℕ → Option ℚ
  | 0, _ => none
  | fuel + 1, index => do
    let node ← nodes[index]?
    if node.feature = LEAF then some node.value
    else descend x fuel (if x node.splits ≤ node.threshold then node.left.toNat else node.right.toNat)

def predict (x : Point) : Option ℚ := descend nodes x nodes.length 0

/-- What is above the low and up to the high, of each feature. -/
abbrev Box : Type := Fin 3 → WithBot ℚ × WithTop ℚ

def WHOLE_LINE : Box := fun _ => (⊥, ⊤)

def Box.Has (box : Box) (f : Fin 3) (q : ℚ) : Prop := (box f).1 < q ∧ (q : WithTop ℚ) ≤ (box f).2

instance Box.decidable_has (box : Box) (f : Fin 3) (q : ℚ) : Decidable (box.Has f q) :=
  inferInstanceAs (Decidable (_ ∧ _))

/-- `_replace` -/
def Box.replace (box : Box) (f : Fin 3) (span : WithBot ℚ × WithTop ℚ) : Box := Function.update box f span

def Box.left (box : Box) (f : Fin 3) (threshold : ℚ) : Box := box.replace f ((box f).1, min (box f).2 threshold)

def Box.right (box : Box) (f : Fin 3) (threshold : ℚ) : Box := box.replace f (max (box f).1 threshold, (box f).2)

/-- The loop of `leaves`. -/
def grow : ℕ → List ℕ → (ℕ → Option Box) → ℕ → Option Box
  | 0, _, boxes => boxes
  | _, [], boxes => boxes
  | fuel + 1, index :: frontier, boxes =>
    match nodes[index]?, boxes index with
    | some node, some box =>
      if node.feature = LEAF then grow fuel frontier boxes
      else
        let boxes := Function.update boxes node.left.toNat (some (box.left node.splits node.threshold))
        let boxes := Function.update boxes node.right.toNat (some (box.right node.splits node.threshold))
        grow fuel (node.right.toNat :: node.left.toNat :: frontier) boxes
    | _, _ => boxes

/-- A leaf, in the order of its index: its value and its box. -/
def leaf_at (boxes : ℕ → Option Box) (index : ℕ) : Option (ℚ × Box) := do
  let node ← nodes[index]?
  let box ← boxes index
  if node.feature = LEAF then some (node.value, box) else none

def leaves : List (ℚ × Box) :=
  (List.range nodes.length).filterMap
    (leaf_at nodes (grow nodes nodes.length [0] (Function.update (fun _ => none) 0 (some WHOLE_LINE))))

end

/-- A node list that passes `structure_error`. -/
structure Tree where
  nodes : List Node
  sound : structure_error nodes = none

/-- The shape that a tree's nodes stand in, each with its index. -/
inductive Shape where
  | leaf (index : ℕ) (value : ℚ)
  | split (index : ℕ) (f : Fin 3) (threshold : ℚ) (left right : Shape)

namespace Shape

def index : Shape → ℕ
  | leaf index _ => index
  | split index .. => index

def indices : Shape → List ℕ
  | leaf index _ => [index]
  | split index _ _ left right => index :: (right.indices ++ left.indices)

/-- The nodes of a list stand in a shape. -/
def Stands (nodes : List Node) : Shape → Prop
  | leaf index value => ∃ node, nodes[index]? = some node ∧ node.feature = LEAF ∧ node.value = value
  | split index f threshold left right =>
    (∃ node, nodes[index]? = some node ∧ node.feature ≠ LEAF ∧ node.splits = f ∧ node.threshold = threshold ∧
      node.left.toNat = left.index ∧ node.right.toNat = right.index) ∧ left.Stands nodes ∧ right.Stands nodes

def value (x : Point) : Shape → ℚ
  | leaf _ value => value
  | split _ f threshold left right => if x f ≤ threshold then left.value x else right.value x

/-- The leaves with their boxes, under a box. -/
def leaves : Shape → Box → List (ℕ × ℚ × Box)
  | leaf index value, box => [(index, value, box)]
  | split _ f threshold left right, box => right.leaves (box.right f threshold) ++ left.leaves (box.left f threshold)

theorem index_mem (s : Shape) : s.index ∈ s.indices := by
  cases s with
  | leaf index value => exact List.mem_singleton_self index
  | split index f threshold left right => exact List.mem_cons_self

theorem lt_length {nodes : List Node} {s : Shape} (h : s.Stands nodes) {i : ℕ} (hi : i ∈ s.indices) :
    i < nodes.length := by
  induction s with
  | leaf index value =>
    obtain ⟨node, hnode, -, -⟩ := h
    rw [List.mem_singleton.mp hi]
    exact (List.getElem?_eq_some_iff.mp hnode).1
  | split index f threshold left right hleft hright =>
    obtain ⟨⟨node, hnode, -⟩, hl, hr⟩ := h
    rcases List.mem_cons.mp hi with rfl | hi
    · exact (List.getElem?_eq_some_iff.mp hnode).1
    · rcases List.mem_append.mp hi with hi | hi
      · exact hright hr hi
      · exact hleft hl hi

private theorem nodup_length_le {l : List ℕ} {n : ℕ} (hl : l.Nodup) (hlt : ∀ i ∈ l, i < n) : l.length ≤ n := by
  rw [← List.toFinset_card_of_nodup hl, ← Finset.card_range n]
  exact Finset.card_le_card fun i hi => Finset.mem_range.mpr (hlt i (List.mem_toFinset.mp hi))

theorem length_le {nodes : List Node} {s : Shape} (h : s.Stands nodes) (hnodup : s.indices.Nodup) :
    s.indices.length ≤ nodes.length := nodup_length_le hnodup fun _ => lt_length h

end Shape

section Visit
variable {nodes : List Node}

/-- What a visit that raises nothing has found below the node it began with. -/
structure Found (nodes : List Node) (fuel index : ℕ) (frontier seen out : List ℕ) (s : Shape) (rest : ℕ)
    (later : List ℕ) : Prop where
  stands : s.Stands nodes
  root : s.index = index
  less : rest < fuel
  nodup : s.indices.Nodup
  fresh : ∀ i ∈ s.indices, i ∉ seen
  covers : ∀ i, i ∈ later ↔ i ∈ s.indices ∨ i ∈ seen
  goes_on : visit nodes rest frontier later = .ok out

private theorem child_of_eq {child : ℤ} {i : ℕ} (h : child_of nodes child = some i) : child.toNat = i := by
  unfold child_of at h
  split at h
  · exact Option.some.inj h
  · cases h

theorem exists_shape {fuel index : ℕ} {frontier seen out : List ℕ}
    (h : visit nodes fuel (index :: frontier) seen = .ok out) :
    ∃ s rest later, Found nodes fuel index frontier seen out s rest later := by
  induction fuel using Nat.strong_induction_on generalizing index frontier seen with
  | _ fuel ih =>
    cases fuel with
    | zero => cases h
    | succ fuel =>
      rw [visit] at h
      split at h
      · cases h
      · next hnew =>
        split at h
        · cases h
        · next node hnode =>
          split at h
          · next hleaf =>
            split at h
            · cases h
            · exact ⟨.leaf index node.value, fuel, index :: seen,
                { stands := ⟨node, hnode, hleaf, rfl⟩
                  root := rfl
                  less := Nat.lt_succ_self fuel
                  nodup := List.nodup_singleton index
                  fresh := List.forall_mem_singleton.mpr hnew
                  covers := fun i => by rw [Shape.indices, List.mem_singleton, List.mem_cons]
                  goes_on := h }⟩
          · next hsplit =>
            split at h
            · cases h
            · split at h
              · cases h
              · next left hleft =>
                split at h
                · cases h
                · next right hright =>
                  obtain ⟨r, mid, seen_r, hr⟩ := ih fuel (Nat.lt_succ_self fuel) h
                  obtain ⟨l, rest, later, hl⟩ := ih mid (hr.less.trans (Nat.lt_succ_self fuel)) hr.goes_on
                  refine ⟨.split index node.splits node.threshold l r, rest, later, ?_⟩
                  have hir : index ∉ r.indices := fun hi => hr.fresh index hi List.mem_cons_self
                  have hil : index ∉ l.indices := fun hi =>
                    hl.fresh index hi ((hr.covers index).mpr (Or.inr List.mem_cons_self))
                  have hrl : r.indices.Disjoint l.indices := fun i hir hil =>
                    hl.fresh i hil ((hr.covers i).mpr (Or.inl hir))
                  exact {
                    stands := ⟨⟨node, hnode, hsplit, rfl, rfl, (child_of_eq hleft).trans hl.root.symm,
                      (child_of_eq hright).trans hr.root.symm⟩, hl.stands, hr.stands⟩
                    root := rfl
                    less := (hl.less.trans hr.less).trans (Nat.lt_succ_self fuel)
                    nodup := List.nodup_cons.mpr ⟨fun hi => (List.mem_append.mp hi).elim hir hil,
                      hr.nodup.append hl.nodup hrl⟩
                    fresh := by
                      refine List.forall_mem_cons.mpr ⟨hnew, fun i hi hseen => ?_⟩
                      rcases List.mem_append.mp hi with hi | hi
                      · exact hr.fresh i hi (List.mem_cons_of_mem index hseen)
                      · exact hl.fresh i hi ((hr.covers i).mpr (Or.inr (List.mem_cons_of_mem index hseen)))
                    covers := fun i => by
                      rw [hl.covers, hr.covers, Shape.indices, List.mem_cons, List.mem_cons, List.mem_append]
                      tauto
                    goes_on := hl.goes_on }

/-- The nodes of a tree stand in one shape, from the first of them on. -/
theorem Tree.shape (t : Tree) : ∃ s : Shape, s.Stands t.nodes ∧ s.index = 0 ∧ s.indices.Nodup := by
  obtain ⟨nodes, h⟩ := t
  unfold structure_error at h
  split at h
  · cases h
  · split at h
    · cases h
    · next seen hseen =>
      obtain ⟨s, rest, later, hs⟩ := exists_shape hseen
      exact ⟨s, hs.stands, hs.root, hs.nodup⟩

end Visit

section Grow
variable {nodes : List Node}

theorem descend_shape (x : Point) {s : Shape} (h : s.Stands nodes) {fuel : ℕ} (hfuel : s.indices.length ≤ fuel) :
    descend nodes x fuel s.index = some (s.value x) := by
  induction s generalizing fuel with
  | leaf index value =>
    obtain ⟨node, hnode, hleaf, rfl⟩ := h
    obtain ⟨fuel, rfl⟩ := Nat.exists_eq_add_of_le' hfuel
    change descend nodes x (fuel + 1) index = _
    rw [descend, hnode, Option.bind_eq_bind, Option.bind_some, if_pos hleaf]
    rfl
  | split index f threshold left right hleft hright =>
    obtain ⟨⟨node, hnode, hsplit, rfl, rfl, hl, hr⟩, hls, hrs⟩ := h
    rw [Shape.indices, List.length_cons, List.length_append] at hfuel
    obtain ⟨fuel, rfl⟩ := Nat.exists_eq_add_of_le' ((Nat.le_add_left 1 _).trans hfuel)
    change descend nodes x (fuel + 1) index = _
    rw [descend, hnode, Option.bind_eq_bind, Option.bind_some, if_neg hsplit, Shape.value]
    split
    · rw [hl, hleft hls (by omega)]
    · rw [hr, hright hrs (by omega)]

namespace Shape

/-- The boxes that a shape adds under its own. -/
def fill : Shape → Box → (ℕ → Option Box) → ℕ → Option Box
  | leaf .., _, boxes => boxes
  | split _ f threshold left right, box, boxes =>
    let boxes := Function.update boxes left.index (some (box.left f threshold))
    let boxes := Function.update boxes right.index (some (box.right f threshold))
    left.fill (box.left f threshold) (right.fill (box.right f threshold) boxes)

theorem fill_of_notMem {s : Shape} {j : ℕ} (h : j ∉ s.indices) (box : Box) (boxes : ℕ → Option Box) :
    s.fill box boxes j = boxes j := by
  induction s generalizing box boxes with
  | leaf index value => rfl
  | split index f threshold left right hleft hright =>
    rw [indices, List.mem_cons, List.mem_append, not_or, not_or] at h
    obtain ⟨-, hr, hl⟩ := h
    have hjr : j ≠ right.index := fun heq => hr (heq ▸ right.index_mem)
    have hjl : j ≠ left.index := fun heq => hl (heq ▸ left.index_mem)
    rw [fill, hleft hl, hright hr, Function.update_of_ne hjr, Function.update_of_ne hjl]

variable {s : Shape} {index : ℕ} {f : Fin 3} {threshold : ℚ} {left right : Shape}

/-- The two children of a split are apart. -/
theorem nodup_split (h : (split index f threshold left right).indices.Nodup) :
    left.indices.Nodup ∧ right.indices.Nodup ∧ (∀ i ∈ left.indices, i ∉ right.indices) ∧
      index ∉ left.indices ∧ index ∉ right.indices := by
  obtain ⟨hindex, happ⟩ := List.nodup_cons.mp h
  obtain ⟨hr, hl, hrl⟩ := List.nodup_append'.mp happ
  rw [List.mem_append, not_or] at hindex
  exact ⟨hl, hr, fun i hil hir => hrl hir hil, hindex.2, hindex.1⟩

/-- What the children begin with. -/
theorem fill_children (h : (split index f threshold left right).indices.Nodup) (box : Box) (boxes : ℕ → Option Box) :
    let given := Function.update (Function.update boxes left.index (some (box.left f threshold))) right.index
      (some (box.right f threshold))
    given right.index = some (box.right f threshold) ∧
      right.fill (box.right f threshold) given left.index = some (box.left f threshold) := by
  obtain ⟨-, -, hapart, -⟩ := nodup_split h
  have hne : left.index ≠ right.index := fun heq => hapart left.index left.index_mem (heq ▸ right.index_mem)
  intro given
  refine ⟨Function.update_self _ _ _, ?_⟩
  rw [fill_of_notMem (hapart left.index left.index_mem)]
  exact (Function.update_of_ne hne _ _).trans (Function.update_self _ _ _)

end Shape

theorem grow_fill {s : Shape} (h : s.Stands nodes) (hnodup : s.indices.Nodup) {fuel : ℕ}
    (hfuel : s.indices.length ≤ fuel) {box : Box} {boxes : ℕ → Option Box} (hbox : boxes s.index = some box)
    (frontier : List ℕ) :
    grow nodes fuel (s.index :: frontier) boxes =
      grow nodes (fuel - s.indices.length) frontier (s.fill box boxes) := by
  induction s generalizing fuel box boxes frontier with
  | leaf index value =>
    obtain ⟨node, hnode, hleaf, rfl⟩ := h
    obtain ⟨fuel, rfl⟩ := Nat.exists_eq_add_of_le' hfuel
    change grow nodes (fuel + 1) (index :: frontier) boxes = _
    rw [grow, hnode, show boxes index = some box from hbox]
    dsimp only
    rw [if_pos hleaf]
    rfl
  | split index f threshold left right hleft hright =>
    obtain ⟨⟨node, hnode, hsplit, rfl, rfl, hl, hr⟩, hls, hrs⟩ := h
    obtain ⟨hln, hrn, -⟩ := Shape.nodup_split hnodup
    obtain ⟨hright_box, hleft_box⟩ := Shape.fill_children hnodup box boxes
    have hlength : (Shape.split index node.splits node.threshold left right).indices.length =
        right.indices.length + left.indices.length + 1 := by
      rw [Shape.indices, List.length_cons, List.length_append]
    rw [hlength] at hfuel ⊢
    obtain ⟨fuel, rfl⟩ := Nat.exists_eq_add_of_le' ((Nat.le_add_left 1 _).trans hfuel)
    change grow nodes (fuel + 1) (index :: frontier) boxes = _
    rw [grow, hnode, show boxes index = some box from hbox]
    dsimp only
    rw [if_neg hsplit, hl, hr, hright hrs hrn (by omega) hright_box, hleft hls hln (by omega) hleft_box]
    congr 1
    omega

/-- The box of a leaf is the one it has in the shape. -/
theorem fill_leaves {s : Shape} (h : s.Stands nodes) (hnodup : s.indices.Nodup) {box : Box} {boxes : ℕ → Option Box}
    (hbox : boxes s.index = some box) {e : ℕ × ℚ × Box} (he : e ∈ s.leaves box) :
    e.1 ∈ s.indices ∧ s.fill box boxes e.1 = some e.2.2 ∧
      ∃ node, nodes[e.1]? = some node ∧ node.feature = LEAF ∧ node.value = e.2.1 := by
  induction s generalizing box boxes with
  | leaf index value =>
    rw [List.mem_singleton.mp he]
    exact ⟨List.mem_singleton_self index, hbox, h⟩
  | split index f threshold left right hleft hright =>
    obtain ⟨-, hls, hrs⟩ := h
    obtain ⟨hln, hrn, hapart, -⟩ := Shape.nodup_split hnodup
    obtain ⟨hright_box, hleft_box⟩ := Shape.fill_children hnodup box boxes
    rcases List.mem_append.mp he with he | he
    · obtain ⟨hin, hfill, hnode⟩ := hright hrs hrn hright_box he
      refine ⟨List.mem_cons_of_mem index (List.mem_append_left _ hin), ?_, hnode⟩
      exact (Shape.fill_of_notMem (fun hil => hapart _ hil hin) _ _).trans hfill
    · obtain ⟨hin, hfill, hnode⟩ := hleft hls hln hleft_box he
      exact ⟨List.mem_cons_of_mem index (List.mem_append_right _ hin), hfill, hnode⟩

theorem exists_leaf {s : Shape} (h : s.Stands nodes) {j : ℕ} (hj : j ∈ s.indices) {node : Node}
    (hnode : nodes[j]? = some node) (hleaf : node.feature = LEAF) (box : Box) : ∃ e ∈ s.leaves box, e.1 = j := by
  induction s generalizing box with
  | leaf index value => exact ⟨_, List.mem_singleton_self _, (List.mem_singleton.mp hj).symm⟩
  | split index f threshold left right hleft hright =>
    obtain ⟨⟨split, hsplit, hne, -⟩, hls, hrs⟩ := h
    rcases List.mem_cons.mp hj with rfl | hj
    · obtain rfl : split = node := Option.some.inj (hsplit.symm.trans hnode)
      exact absurd hleaf hne
    · rcases List.mem_append.mp hj with hj | hj
      · obtain ⟨e, he, hej⟩ := hright hrs hj (box.right f threshold)
        exact ⟨e, List.mem_append_left _ he, hej⟩
      · obtain ⟨e, he, hej⟩ := hleft hls hj (box.left f threshold)
        exact ⟨e, List.mem_append_right _ he, hej⟩

theorem leaves_nodup {s : Shape} (hnodup : s.indices.Nodup) (box : Box) : ((s.leaves box).map Prod.fst).Nodup := by
  have hsub (s : Shape) (box : Box) : ((s.leaves box).map Prod.fst).Sublist s.indices := by
    induction s generalizing box with
    | leaf index value => exact .refl _
    | split index f threshold left right hleft hright =>
      rw [Shape.leaves, List.map_append, Shape.indices]
      exact ((hright _).append (hleft _)).cons index
  exact hnodup.sublist (hsub s box)

/-- The leaves of a tree, but for their order, are those of its shape. -/
theorem leaves_perm {s : Shape} (h : s.Stands nodes) (hindex : s.index = 0) (hnodup : s.indices.Nodup) :
    (leaves nodes).Perm ((s.leaves WHOLE_LINE).map Prod.snd) := by
  have hroot : Function.update (fun _ => none) 0 (some WHOLE_LINE) s.index = some WHOLE_LINE := by
    rw [hindex, Function.update_self]
  have hgrow : grow nodes nodes.length [0] (Function.update (fun _ => none) 0 (some WHOLE_LINE)) =
      s.fill WHOLE_LINE (Function.update (fun _ => none) 0 (some WHOLE_LINE)) := by
    have hfill := grow_fill h hnodup (s.length_le h hnodup) hroot []
    rw [hindex] at hfill
    rw [hfill]
    cases nodes.length - s.indices.length <;> rfl
  let named (i : ℕ) : Option (ℕ × ℚ × Box) :=
    (leaf_at nodes (grow nodes nodes.length [0] (Function.update (fun _ => none) 0 (some WHOLE_LINE))) i).map (i, ·)
  have hnamed (i : ℕ) (e : ℕ × ℚ × Box) : named i = some e ↔ e.1 = i ∧ e ∈ s.leaves WHOLE_LINE := by
    constructor
    · intro heq
      obtain ⟨⟨value, box⟩, hat, rfl⟩ := Option.map_eq_some_iff.mp heq
      refine ⟨rfl, ?_⟩
      obtain ⟨node, hnode, hat⟩ := Option.bind_eq_some_iff.mp hat
      obtain ⟨given, hgiven, hat⟩ := Option.bind_eq_some_iff.mp hat
      rw [hgrow] at hgiven
      split at hat
      · next hleaf =>
        cases hat
        have hi : i ∈ s.indices := by
          by_contra hi
          have hne : i ≠ 0 := by
            rintro rfl
            exact hi (hindex ▸ s.index_mem)
          rw [Shape.fill_of_notMem hi, Function.update_of_ne hne] at hgiven
          cases hgiven
        obtain ⟨e, he, rfl⟩ := exists_leaf h hi hnode hleaf WHOLE_LINE
        obtain ⟨-, hbox, other, hother, -, hvalue⟩ := fill_leaves h hnodup hroot he
        obtain rfl : node = other := Option.some.inj (hnode.symm.trans hother)
        obtain rfl : box = e.2.2 := Option.some.inj (hgiven.symm.trans hbox)
        rw [hvalue]
        exact he
      · cases hat
    · rintro ⟨rfl, he⟩
      obtain ⟨-, hbox, node, hnode, hleaf, hvalue⟩ := fill_leaves h hnodup hroot he
      refine Option.map_eq_some_iff.mpr ⟨e.2, ?_, rfl⟩
      rw [leaf_at, hgrow, hnode, hbox, Option.bind_eq_bind, Option.bind_some, Option.bind_eq_bind, Option.bind_some,
        if_pos hleaf, hvalue]
  have hperm : ((List.range nodes.length).filterMap named).Perm (s.leaves WHOLE_LINE) := by
    refine (List.perm_ext_iff_of_nodup ?_ (leaves_nodup hnodup WHOLE_LINE).of_map).mpr fun e => ?_
    · refine List.nodup_range.filterMap fun i j e hi hj => ?_
      exact ((hnamed i e).mp hi).1.symm.trans ((hnamed j e).mp hj).1
    · rw [List.mem_filterMap]
      constructor
      · rintro ⟨i, -, hi⟩
        exact ((hnamed i e).mp hi).2
      · intro he
        have hlt : e.1 < nodes.length := s.lt_length h (fill_leaves h hnodup hroot he).1
        exact ⟨e.1, List.mem_range.mpr hlt, (hnamed e.1 e).mpr ⟨rfl, he⟩⟩
  have hleaves : leaves nodes = ((List.range nodes.length).filterMap named).map Prod.snd := by
    rw [leaves, List.map_filterMap]
    refine List.filterMap_congr fun i _ => ?_
    rw [Option.map_map]
    exact Option.map_id'.symm
  exact hleaves ▸ hperm.map Prod.snd

end Grow

section Partition

/-- The point is in a box. -/
def Box.Holds (box : Box) (x : Point) : Prop := ∀ f, box.Has f (x f)

instance Box.decidable_holds (box : Box) (x : Point) : Decidable (box.Holds x) := inferInstanceAs (Decidable (∀ _, _))

/-- A box narrowed along one feature. -/
theorem holds_replace {box : Box} {f : Fin 3} {span : WithBot ℚ × WithTop ℚ} {x : Point} {p : Prop}
    (h : span.1 < x f ∧ (x f : WithTop ℚ) ≤ span.2 ↔ box.Has f (x f) ∧ p) : (box.replace f span).Holds x ↔ box.Holds x ∧ p := by
  have hother {g : Fin 3} (hne : g ≠ f) : (box.replace f span).Has g (x g) ↔ box.Has g (x g) := by
    rw [Box.Has, Box.replace, Function.update_of_ne hne, Box.Has]
  have hself : (box.replace f span).Has f (x f) ↔ box.Has f (x f) ∧ p := by
    rw [Box.Has, Box.replace, Function.update_self, h]
  refine ⟨fun hx => ⟨fun g => ?_, (hself.mp (hx f)).2⟩, fun ⟨hx, hp⟩ g => ?_⟩
  · rcases eq_or_ne g f with rfl | hne
    · exact (hself.mp (hx g)).1
    · exact (hother hne).mp (hx g)
  · rcases eq_or_ne g f with rfl | hne
    · exact hself.mpr ⟨hx g, hp⟩
    · exact (hother hne).mpr (hx g)

theorem holds_left {box : Box} {f : Fin 3} {threshold : ℚ} {x : Point} :
    (box.left f threshold).Holds x ↔ box.Holds x ∧ x f ≤ threshold :=
  holds_replace (by rw [le_min_iff, WithTop.coe_le_coe, Box.Has, and_assoc])

theorem holds_right {box : Box} {f : Fin 3} {threshold : ℚ} {x : Point} :
    (box.right f threshold).Holds x ↔ box.Holds x ∧ threshold < x f :=
  holds_replace (by rw [max_lt_iff, WithBot.coe_lt_coe, Box.Has, and_right_comm])

/-- A point of the box of a shape is in the box of one of its leaves, the one that it is sent to. -/
theorem shape_holds (s : Shape) (box : Box) (x : Point) :
    (((s.leaves box).map Prod.snd).filter fun e => e.2.Holds x).map Prod.fst =
      if box.Holds x then [s.value x] else [] := by
  induction s generalizing box with
  | leaf index value =>
    rw [Shape.leaves, List.map_singleton, List.filter_singleton]
    by_cases h : box.Holds x <;> simp [h, Shape.value]
  | split index f threshold left right hleft hright =>
    rw [Shape.leaves, List.map_append, List.filter_append, List.map_append, hleft, hright, Shape.value]
    simp only [holds_left, holds_right]
    by_cases h : box.Holds x <;> by_cases hle : x f ≤ threshold <;> simp [h, hle, not_lt.mpr, not_le.mp]

/-- The boxes of a tree's leaves are a partition: every point is in one, that of the leaf which it is sent to. -/
theorem Tree.partition (t : Tree) (x : Point) : ∃ e, (Cart.leaves t.nodes).filter (·.2.Holds x) = [e] ∧
    predict t.nodes x = some e.1 := by
  obtain ⟨s, hs, hindex, hnodup⟩ := t.shape
  have hvalues : ((Cart.leaves t.nodes).filter (·.2.Holds x)).map Prod.fst = [s.value x] := by
    have hperm := ((leaves_perm hs hindex hnodup).filter (·.2.Holds x)).map Prod.fst
    have hwhole : WHOLE_LINE.Holds x := fun f => ⟨WithBot.bot_lt_coe _, le_top⟩
    rw [shape_holds, if_pos hwhole] at hperm
    exact List.perm_singleton.mp hperm
  obtain ⟨e, he, hvalue⟩ := List.map_eq_singleton_iff.mp hvalues
  refine ⟨e, he, ?_⟩
  rw [predict, ← hindex, descend_shape x hs (s.length_le hs hnodup), hvalue]

end Partition

end NetCoreNoc.Model.Cart
