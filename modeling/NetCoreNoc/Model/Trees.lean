import Mathlib
import NetCoreNoc.Checks
import NetCoreNoc.Shapley
import NetCoreNoc.Tables
import NetCoreNoc.Json.Document

/-! Tree ensembles over the features of a pair, their documents, and the walk that tells what each feature of a pair
adds to their logit (`trees.py`, `trees_shap.py`). -/
namespace NetCoreNoc.Model
open Checks Json Tables

/-- `FEATURE_NAMES` -/
inductive Feature where
  | dt
  | same_ne
  | same_class
  | oid_arcs
  | class_affinity
  | entity_affinity
  | ne_episodes
  | class_episodes
  | item_episodes
  | severity
  | burst
  | chatter
  | degree
  | cross_ref
  | hour
  deriving DecidableEq, Repr

def Feature.name : Feature → Str
  | dt => lit "dt"
  | same_ne => lit "same_ne"
  | same_class => lit "same_class"
  | oid_arcs => lit "oid_arcs"
  | class_affinity => lit "class_affinity"
  | entity_affinity => lit "entity_affinity"
  | ne_episodes => lit "ne_episodes"
  | class_episodes => lit "class_episodes"
  | item_episodes => lit "item_episodes"
  | severity => lit "severity"
  | burst => lit "burst"
  | chatter => lit "chatter"
  | degree => lit "degree"
  | cross_ref => lit "cross_ref"
  | hour => lit "hour"

def FEATURE_NAMES : List Feature :=
  [.dt, .same_ne, .same_class, .oid_arcs, .class_affinity, .entity_affinity, .ne_episodes, .class_episodes,
    .item_episodes, .severity, .burst, .chatter, .degree, .cross_ref, .hour]

def LEAF : ℤ := -1
def MAX_DEPTH : ℕ := 14
def MAX_TREES : ℕ := 600
def MAX_NODES : ℕ := 2047
def MAX_TOTAL_NODES : ℕ := 120000
def MAX_ABS_SCORE : ℚ := 25

/-- What a number of a document is for. -/
inductive Role where
  | leaf (tree node : ℕ)
  | threshold_of (tree node : ℕ)
  | base
  | scale
  | reference
  | threshold
  | grouping (key : Str)
  deriving DecidableEq, Repr

/-- What a document is refused for. The messages about its features are one here, with the `TypeError` that a feature
which cannot be hashed raises. -/
inductive TreesDocumentError where
  | no_number (what : Role)
  | not_finite (what : Role)
  | nodes (tree : ℕ)
  | node (tree node : ℕ)
  | feature (tree node : ℕ)
  | hard_switch (tree node : ℕ)
  | outside (tree node : ℕ) (f : ℤ)
  | children (tree node : ℕ)
  | forward (tree node : ℕ)
  | parents (tree : ℕ)
  | deeper (tree : ℕ)
  | keys
  | format
  | method
  | features
  | reference
  | trees
  | one_tree
  | total_nodes
  | grouping
  | base
  | scale
  | merge_min_pairs
  | threshold (low high : ℚ)
  deriving DecidableEq, Repr

/-- A document as it was read; a float that is not finite is none. -/
abbrev Raw : Type := Doc (Option ℚ)

/-- `_num`. An integer beyond the floats, at which `float` raises, is taken as it is. -/
def num (what : Role) : Raw → Except TreesDocumentError ℚ
  | .int n => .ok n
  | .float (some q) => .ok q
  | .float none => .error (.not_finite what)
  | _ => .error (.no_number what)

/-- A node of a tree over a model's features: which of them it reads is their place in the model's own list. -/
inductive Node (features : List Feature) where
  | leaf (value : ℚ)
  | split (loc : Fin features.length) (threshold : ℚ) (left right : ℕ)
  deriving DecidableEq, Repr

section
variable {features : List Feature}

def Node.children : Node features → List ℕ
  | .leaf _ => []
  | .split _ _ left right => [left, right]

/-- The depth of each node, by one pass from the root. -/
def depths (nodes : List (Node features)) : ℕ → ℕ :=
  nodes.zipIdx.foldl (fun depth e => e.1.children.foldl (fun d c => Function.update d c (depth e.2 + 1)) depth) 0

end

/-- A tree: its children point forward, each node but the root is one's child, and none is too deep. -/
structure Tree (features : List Feature) where
  nodes : List (Node features)
  nonempty : 0 < nodes.length
  forward : ∀ (i : Fin nodes.length) c, c ∈ (nodes.get i).children → i < c ∧ c < nodes.length
  parents : ∀ c < nodes.length, (nodes.flatMap Node.children).count c = if c = 0 then 0 else 1
  shallow : ∀ i < nodes.length, depths nodes i ≤ MAX_DEPTH

section
variable (features : List Feature)

def node_of (index i n : ℕ) : Raw → Except TreesDocumentError (Node features)
  | .list [.int f, threshold, lo, hi, value] =>
    if f = LEAF then do
      let v ← num (.leaf index i) value
      ensure (|v| ≤ MAX_ABS_SCORE) (.hard_switch index i)
      .ok (.leaf v)
    else if h : 0 ≤ f ∧ f.toNat < features.length then
      match lo, hi with
      | .int lo, .int hi => do
        ensure (i < lo ∧ lo < n ∧ i < hi ∧ hi < n ∧ lo ≠ hi) (.forward index i)
        let t ← num (.threshold_of index i) threshold
        .ok (.split ⟨f.toNat, h.2⟩ t lo.toNat hi.toNat)
      | _, _ => .error (.children index i)
    else .error (.outside index i f)
  | .list [_, _, _, _, _] => .error (.feature index i)
  | _ => .error (.node index i)

variable {features}

theorem node_forward {index i n : ℕ} {raw : Raw} {node : Node features}
    (h : node_of features index i n raw = .ok node) {c : ℕ} (hc : c ∈ node.children) : i < c ∧ c < n := by
  unfold node_of at h
  split at h
  · split at h
    · simp only [bind_ok, ensure_ok] at h
      obtain ⟨v, -, -, -, heq⟩ := h
      cases heq
      cases hc
    · split at h
      · split at h
        · simp only [bind_ok, ensure_ok] at h
          obtain ⟨-, ⟨hlo, hlon, hhi, hhin, -⟩, t, -, heq⟩ := h
          cases heq
          rcases List.mem_pair.mp hc with rfl | rfl <;> omega
        · cases h
      · cases h
  · cases h
  · cases h

theorem nodes_forward {index : ℕ} {items : List Raw} {nodes : List (Node features)}
    (h : each (fun e => node_of features index e.2 items.length e.1) items.zipIdx = .ok nodes) :
    nodes.length = items.length ∧
      ∀ (i : Fin nodes.length) c, c ∈ (nodes.get i).children → i < c ∧ c < nodes.length := by
  have hall := each_ok.mp h
  have hlength : nodes.length = items.length := by rw [← hall.length_eq, List.length_zipIdx]
  refine ⟨hlength, fun i c hc => ?_⟩
  have hnode := hall.get (i.isLt.trans_eq hall.length_eq.symm) i.isLt
  have hidx : (items.zipIdx.get ⟨i, i.isLt.trans_eq hall.length_eq.symm⟩).2 = i := by simp
  rw [hidx] at hnode
  exact (node_forward hnode hc).imp_right fun hlt => hlt.trans_eq hlength.symm

end

/-- `_tree` -/
def tree_of (raw : Raw) (index : ℕ) (features : List Feature) : Except TreesDocumentError (Tree features) :=
  match raw with
  | .list items =>
    if hsize : 1 ≤ items.length ∧ items.length ≤ MAX_NODES then
      match h : each (fun e => node_of features index e.2 items.length e.1) items.zipIdx with
      | .error e => .error e
      | .ok nodes =>
        if hparents : ∀ c < nodes.length, (nodes.flatMap Node.children).count c = if c = 0 then 0 else 1 then
          if hshallow : ∀ i < nodes.length, depths nodes i ≤ MAX_DEPTH then
            .ok ⟨nodes, hsize.1.trans_eq (nodes_forward h).1.symm, (nodes_forward h).2, hparents, hshallow⟩
          else .error (.deeper index)
        else .error (.parents index)
    else .error (.nodes index)
  | _ => .error (.nodes index)

namespace Tree
variable {features : List Feature} (t : Tree features)

/-- A place in a tree. -/
abbrev Place : Type := Fin t.nodes.length

def root : t.Place := ⟨0, t.nonempty⟩

variable {t} {k : Fin features.length} {threshold : ℚ} {left right : ℕ}

theorem left_forward {i : t.Place}
    (h : t.nodes.get i = .split k threshold left right) : i < left ∧ left < t.nodes.length :=
  t.forward i left (h ▸ List.mem_cons_self)

theorem right_forward {i : t.Place}
    (h : t.nodes.get i = .split k threshold left right) : i < right ∧ right < t.nodes.length :=
  t.forward i right (h ▸ List.mem_cons_of_mem left List.mem_cons_self)

variable (t)

/-- The loop of `leaf_of`, from a node on. -/
def leaf_from (vector : Feature → ℚ) (i : t.Place) : ℚ :=
  match h : t.nodes.get i with
  | .leaf value => value
  | .split k threshold left right =>
    if vector (features.get k) ≤ threshold then leaf_from vector ⟨left, (left_forward h).2⟩
    else leaf_from vector ⟨right, (right_forward h).2⟩
termination_by t.nodes.length - i
decreasing_by
  · have := left_forward h
    omega
  · have := right_forward h
    omega

def leaf_of (vector : Feature → ℚ) : ℚ := t.leaf_from vector t.root

variable {t}

theorem leaf_from_leaf {vector : Feature → ℚ} {i : t.Place} {value : ℚ} (h : t.nodes.get i = .leaf value) :
    t.leaf_from vector i = value := by
  rw [leaf_from]
  split
  · next heq => exact Node.leaf.inj (heq.symm.trans h)
  · next heq => cases heq.symm.trans h

theorem leaf_from_split {vector : Feature → ℚ} {i : t.Place} (h : t.nodes.get i = .split k threshold left right) :
    t.leaf_from vector i = if vector (features.get k) ≤ threshold then t.leaf_from vector ⟨left, (left_forward h).2⟩
      else t.leaf_from vector ⟨right, (right_forward h).2⟩ := by
  rw [leaf_from]
  split
  · next heq => cases heq.symm.trans h
  · next heq =>
    cases heq.symm.trans h
    rfl

/-- Which of the two pairs satisfy all that a path asks of a feature, for those it asks something of. -/
abbrev State (features : List Feature) : Type := Table (Fin features.length) (Bool × Bool)

def reach (state : State features) (k : Fin features.length) : Bool × Bool := (state.get k).getD (true, true)

def a_set (state : State features) : List (Fin features.length) :=
  (state.entries.filter fun e => e.2.1 && !e.2.2).map Prod.fst

def b_set (state : State features) : List (Fin features.length) :=
  (state.entries.filter fun e => e.2.2 && !e.2.1).map Prod.fst

/-- `_weights` -/
def weights (depth : ℕ) : List (List (ℚ × ℚ)) :=
  (List.range (depth + 1)).map fun a => (List.range (depth + 1)).map fun b =>
    (if a ≠ 0 then (a - 1).factorial * b.factorial / (a + b).factorial else 0,
      if b ≠ 0 then a.factorial * (b - 1).factorial / (a + b).factorial else 0)

/-- `_W` -/
def W : List (List (ℚ × ℚ)) := weights MAX_DEPTH

def credit (v : ℚ) (ks : List (Fin features.length)) (phi : Fin features.length → ℚ) : Fin features.length → ℚ :=
  ks.foldl (fun phi k => Function.update phi k (phi k + v)) phi

variable (t) (x z : Feature → ℚ) (scale : ℚ)

/-- A child is walked where one of the two pairs comes to it. -/
def push (k : Fin features.length) (state : State features) (child : t.Place) (x_goes z_goes : Bool)
    (stack : List (t.Place × State features)) : List (t.Place × State features) :=
  let cx := (reach state k).1 && x_goes
  let cz := (reach state k).2 && z_goes
  if !cx && !cz then stack
  else if (cx, cz) = reach state k then (child, state) :: stack
  else (child, state.upsert k (true, true) fun _ => (cx, cz)) :: stack

theorem push_weight (k : Fin features.length) (state : State features) (child : t.Place) (x_goes z_goes : Bool)
    (stack : List (t.Place × State features)) :
    ((t.push k state child x_goes z_goes stack).map fun e => 3 ^ (t.nodes.length - e.1)).sum ≤
      3 ^ (t.nodes.length - child) + (stack.map fun e => 3 ^ (t.nodes.length - e.1)).sum := by
  unfold push
  dsimp only
  split
  · exact Nat.le_add_left _ _
  · split <;> exact (List.sum_cons).le

/-- The loop of `walk`; none is an index out of the table of the weights. -/
def walk (stack : List (t.Place × State features)) (phi : Fin features.length → ℚ) :
    Option (Fin features.length → ℚ) :=
  match stack with
  | [] => some phi
  | (i, state) :: stack =>
    match h : t.nodes.get i with
    | .leaf value =>
      if a_set state = [] ∧ b_set state = [] then walk stack phi
      else
        match W[(a_set state).length]?.bind (·[(b_set state).length]?) with
        | none => none
        | some w =>
          walk stack (credit (-(scale * value * w.2)) (b_set state) (credit (scale * value * w.1) (a_set state) phi))
    | .split k threshold left right =>
      let x_left := x (features.get k) ≤ threshold
      let z_left := z (features.get k) ≤ threshold
      walk (t.push k state ⟨right, (right_forward h).2⟩ (!x_left) (!z_left)
        (t.push k state ⟨left, (left_forward h).2⟩ x_left z_left stack)) phi
termination_by (stack.map fun e => 3 ^ (t.nodes.length - e.1)).sum
decreasing_by
  · simp
  · simp
  · have hleft := left_forward h
    have hright := right_forward h
    refine (t.push_weight _ _ _ _ _ _).trans_lt ((Nat.add_le_add_left (t.push_weight _ _ _ _ _ _) _).trans_lt ?_)
    rw [List.map_cons, List.sum_cons, ← Nat.add_assoc]
    refine Nat.add_lt_add_right ?_ _
    have hstep (c : ℕ) (hc : i < c) (hn : c < t.nodes.length) :
        3 ^ (t.nodes.length - c) * 3 ≤ 3 ^ (t.nodes.length - i) := by
      rw [← pow_succ]
      exact Nat.pow_le_pow_right (by decide) (by omega)
    have := hstep left hleft.1 hleft.2
    have := hstep right hright.1 hright.2
    have : 0 < 3 ^ (t.nodes.length - i) := Nat.pow_pos (by decide)
    dsimp only
    omega

end Tree

section Weights

/-- A weight that is asked for is in the table, where no path is longer than a tree is deep. -/
theorem weights_get {a b : ℕ} (h : a + b ≤ MAX_DEPTH) : Tree.W[a]?.bind (·[b]?) = some
    (if a ≠ 0 then ((a - 1).factorial * b.factorial / (a + b).factorial : ℚ) else 0,
      if b ≠ 0 then (a.factorial * (b - 1).factorial / (a + b).factorial : ℚ) else 0) := by
  have ha : a < MAX_DEPTH + 1 := by omega
  have hb : b < MAX_DEPTH + 1 := by omega
  unfold Tree.W Tree.weights
  rw [List.getElem?_map, List.getElem?_range ha, Option.map_some, Option.bind_some,
    List.getElem?_map, List.getElem?_range hb, Option.map_some]

end Weights

section Depths
variable {features : List Feature}

private def deepen (depth : ℕ → ℕ) (e : Node features × ℕ) : ℕ → ℕ :=
  e.1.children.foldl (fun d c => Function.update d c (depth e.2 + 1)) depth

private theorem set_children (value : ℕ) (c : ℕ) (l : List ℕ) (depth : ℕ → ℕ) :
    l.foldl (fun d c => Function.update d c value) depth c = if c ∈ l then value else depth c := by
  induction l generalizing depth with
  | nil => rfl
  | cons e l ih =>
    rw [List.foldl_cons, ih, Function.update_apply]
    by_cases hl : c ∈ l <;> by_cases he : c = e <;> simp [hl, he]

private theorem deepen_others (c : ℕ) (l : List (Node features × ℕ)) (depth : ℕ → ℕ) (h : ∀ e ∈ l, c ∉ e.1.children) :
    l.foldl deepen depth c = depth c := by
  induction l generalizing depth with
  | nil => rfl
  | cons e l ih =>
    obtain ⟨he, h⟩ := List.forall_mem_cons.mp h
    rw [List.foldl_cons, ih _ h, deepen, set_children, if_neg he]

/-- A child is one deeper than its parent. -/
theorem depths_child (t : Tree features) {i : t.Place} {c : ℕ} (hc : c ∈ (t.nodes.get i).children) :
    depths t.nodes c = depths t.nodes i + 1 := by
  have hsplit : t.nodes.zipIdx = (t.nodes.take i).zipIdx ++ (t.nodes.get i, (i : ℕ)) ::
      (t.nodes.drop (i + 1)).zipIdx (i + 1) := by
    conv_lhs => rw [← List.take_append_drop i t.nodes, List.drop_eq_getElem_cons i.isLt]
    rw [List.zipIdx_append, List.zipIdx_cons, List.length_take_of_le i.isLt.le]
    simp
  obtain ⟨hic, hcn⟩ := t.forward i c hc
  have hafter (d : ℕ) (hd : d = i ∨ d = c) :
      ∀ e ∈ (t.nodes.drop (i + 1)).zipIdx (i + 1), d ∉ e.1.children := by
    rintro ⟨node, j⟩ he hmem
    obtain ⟨hij, hjn, hnode⟩ := List.mem_zipIdx he
    rcases hd with rfl | hdc
    · -- the children of a later node are later still
      have hj : node = t.nodes.get ⟨j, by simp at hjn; omega⟩ := by
        rw [hnode]
        simp [Nat.add_sub_cancel' hij]
      have := (t.forward ⟨j, _⟩ i (hj ▸ hmem)).1
      simp at this
      omega
    · rw [hdc] at hmem
      have hcount := t.parents c hcn
      have hnodes : t.nodes = t.nodes.take i ++ t.nodes.get i :: t.nodes.drop (i + 1) := by
        conv_lhs => rw [← List.take_append_drop i t.nodes, List.drop_eq_getElem_cons i.isLt]
        rfl
      rw [hnodes, List.flatMap_append, List.flatMap_cons, List.count_append, List.count_append,
        if_neg (Nat.ne_zero_of_lt hic)] at hcount
      have hfirst := List.count_pos_iff.mpr hc
      have hsecond : 0 < ((t.nodes.drop (i + 1)).flatMap Node.children).count c := by
        refine List.count_pos_iff.mpr (List.mem_flatMap.mpr ⟨node, ?_, hmem⟩)
        rw [hnode]
        exact List.getElem_mem _
      omega
  have hself : (i : ℕ) ∉ (t.nodes.get i).children := fun hmem => (t.forward i i hmem).1.false
  have hfold : depths t.nodes = t.nodes.zipIdx.foldl deepen 0 := rfl
  rw [hfold, hsplit, List.foldl_append, List.foldl_cons, deepen_others c _ _ (hafter c (Or.inr rfl)),
    deepen_others i _ _ (hafter i (Or.inl rfl)), deepen, set_children, set_children, if_pos hc, if_neg hself]

end Depths

/-- The pair that has the features of a coalition from `x`, and the others from `z`. -/
def mix (features : List Feature) (x z : Feature → ℚ) (S : Finset (Fin features.length)) (f : Feature) : ℚ :=
  if ∃ k ∈ S, features.get k = f then x f else z f

namespace Tree
variable {features : List Feature} {t : Tree features}

theorem mix_get (hdistinct : features.Nodup) (x z : Feature → ℚ) (S : Finset (Fin features.length))
    (k : Fin features.length) :
    mix features x z S (features.get k) = if k ∈ S then x (features.get k) else z (features.get k) := by
  refine if_congr ⟨?_, fun h => ⟨k, h, rfl⟩⟩ rfl rfl
  rintro ⟨j, hj, heq⟩
  exact hdistinct.injective_get heq ▸ hj

/-- The pair of a coalition satisfies all that a path asks. -/
def Meets (reached : Fin features.length → Bool × Bool) (S : Finset (Fin features.length)) : Prop :=
  ∀ k, if k ∈ S then (reached k).1 = true else (reached k).2 = true

instance decidable_meets (reached : Fin features.length → Bool × Bool) : DecidablePred (Meets reached) :=
  fun _ => inferInstanceAs (Decidable (∀ _, _))

/-- What the coalitions get of a node that a path leads to. -/
def game (t : Tree features) (x z : Feature → ℚ) (scale : ℚ) (i : t.Place)
    (reached : Fin features.length → Bool × Bool) (S : Finset (Fin features.length)) : ℚ :=
  if Meets reached S then scale * t.leaf_from (mix features x z S) i else 0

section Step
variable (x z : Feature → ℚ) (scale : ℚ) {i : t.Place} (reached : Fin features.length → Bool × Bool)
  (S : Finset (Fin features.length)) (k : Fin features.length) (x_goes z_goes : Bool)

/-- What is asked of a feature further along a path. -/
def further : Fin features.length → Bool × Bool :=
  Function.update reached k ((reached k).1 && x_goes, (reached k).2 && z_goes)

theorem meets_further :
    Meets (further reached k x_goes z_goes) S ↔ Meets reached S ∧ (if k ∈ S then x_goes else z_goes) = true := by
  constructor
  · intro h
    have hk := h k
    rw [further, Function.update_self] at hk
    refine ⟨fun j => ?_, ?_⟩
    · rcases eq_or_ne j k with rfl | hne
      · split at hk <;> simp_all
      · have hj := h j
        rwa [further, Function.update_of_ne hne] at hj
    · split at hk <;> simp_all
  · rintro ⟨h, hgoes⟩ j
    rcases eq_or_ne j k with rfl | hne
    · have hj := h j
      rw [further, Function.update_self]
      split at hj <;> simp_all
    · rw [further, Function.update_of_ne hne]
      exact h j

/-- What a coalition gets of a node, it gets of one of its children. -/
theorem game_split (hdistinct : features.Nodup) {threshold : ℚ} {left right : ℕ}
    (h : t.nodes.get i = .split k threshold left right) :
    t.game x z scale i reached S =
      t.game x z scale ⟨left, (left_forward h).2⟩
        (further reached k (x (features.get k) ≤ threshold) (z (features.get k) ≤ threshold)) S +
      t.game x z scale ⟨right, (right_forward h).2⟩
        (further reached k (!(x (features.get k) ≤ threshold)) (!(z (features.get k) ≤ threshold))) S := by
  have hgoes : mix features x z S (features.get k) ≤ threshold ↔
      (if k ∈ S then decide (x (features.get k) ≤ threshold)
        else decide (z (features.get k) ≤ threshold)) = true := by
    rw [mix_get hdistinct]
    split <;> exact decide_eq_true_iff.symm
  have hnot : (if k ∈ S then !decide (x (features.get k) ≤ threshold) else !decide (z (features.get k) ≤ threshold)) =
      !(if k ∈ S then decide (x (features.get k) ≤ threshold) else decide (z (features.get k) ≤ threshold)) := by
    split <;> rfl
  unfold game
  rw [leaf_from_split h]
  simp only [meets_further, hgoes, hnot]
  generalize (if k ∈ S then decide (x (features.get k) ≤ threshold)
    else decide (z (features.get k) ≤ threshold)) = goes
  cases goes <;> by_cases hmeets : Meets reached S <;> simp [hmeets]

/-- A child that neither pair comes to gives no coalition anything. -/
theorem game_unreached (hx : ((reached k).1 && x_goes) = false) (hz : ((reached k).2 && z_goes) = false)
    (child : t.Place) : t.game x z scale child (further reached k x_goes z_goes) S = 0 := by
  refine if_neg fun hmeets => ?_
  have hk := hmeets k
  rw [further, Function.update_self, hx, hz] at hk
  split at hk <;> cases hk

end Step

section Sets
variable {state : State features}

theorem reach_upsert (k : Fin features.length) (x_goes z_goes : Bool) :
    reach (state.upsert k (true, true) fun _ => ((reach state k).1 && x_goes, (reach state k).2 && z_goes)) =
      further (reach state) k x_goes z_goes := by
  funext j
  rcases eq_or_ne j k with rfl | hne
  · rw [further, Function.update_self, reach, Table.get_upsert_self, Option.getD_some]
  · rw [further, Function.update_of_ne hne, reach, Table.get_upsert_of_ne _ _ _ _ _ hne, reach]

private theorem mem_entries (k : Fin features.length) {p : Bool × Bool} (hp : p ≠ (true, true)) :
    (k, p) ∈ state.entries ↔ reach state k = p := by
  rw [← Table.get_eq_some, reach]
  cases state.get k with
  | none => exact iff_of_false (fun h => by cases h) fun h => hp h.symm
  | some q => exact Option.some_inj

theorem mem_a_set {k : Fin features.length} : k ∈ a_set state ↔ reach state k = (true, false) := by
  rw [← mem_entries k (by decide), a_set, List.mem_map]
  constructor
  · rintro ⟨⟨j, xo, zo⟩, he, rfl⟩
    obtain ⟨he, hflags⟩ := List.mem_filter.mp he
    obtain ⟨rfl, hz⟩ := Bool.and_eq_true_iff.mp hflags
    obtain rfl : zo = false := (Bool.not_eq_true' _).mp hz
    exact he
  · exact fun h => ⟨_, List.mem_filter.mpr ⟨h, rfl⟩, rfl⟩

theorem mem_b_set {k : Fin features.length} : k ∈ b_set state ↔ reach state k = (false, true) := by
  rw [← mem_entries k (by decide), b_set, List.mem_map]
  constructor
  · rintro ⟨⟨j, xo, zo⟩, he, rfl⟩
    obtain ⟨he, hflags⟩ := List.mem_filter.mp he
    obtain ⟨rfl, hx⟩ := Bool.and_eq_true_iff.mp hflags
    obtain rfl : xo = false := (Bool.not_eq_true' _).mp hx
    exact he
  · exact fun h => ⟨_, List.mem_filter.mpr ⟨h, rfl⟩, rfl⟩

theorem a_set_nodup : (a_set state).Nodup := state.nodup.sublist (List.filter_sublist.map Prod.fst)

theorem b_set_nodup : (b_set state).Nodup := state.nodup.sublist (List.filter_sublist.map Prod.fst)

private theorem filters_length {α : Type} (p q : α → Bool) (h : ∀ a, p a = true → q a = false) (l : List α) :
    (l.filter p).length + (l.filter q).length ≤ l.length := by
  rw [← List.countP_eq_length_filter, ← List.countP_eq_length_filter, List.length_eq_countP_add_countP p]
  refine Nat.add_le_add_left (List.countP_mono_left fun a _ hq => ?_) _
  rw [decide_eq_true_iff]
  intro hp
  rw [h a hp] at hq
  cases hq

theorem sets_length : (a_set state).length + (b_set state).length ≤ state.size := by
  rw [a_set, b_set, List.length_map, List.length_map]
  refine filters_length _ _ (fun e he => ?_) _
  rw [(Bool.and_eq_true_iff.mp he).1]
  exact Bool.and_false _

/-- A path that one of the two pairs meets in each feature asks for the coalitions with `A` and without `B`. -/
theorem meets_iff (h : ∀ k, reach state k ≠ (false, false)) {S : Finset (Fin features.length)} :
    Meets (reach state) S ↔ (a_set state).toFinset ⊆ S ∧ Disjoint (b_set state).toFinset S := by
  constructor
  · intro hmeets
    refine ⟨fun k hk => ?_, Finset.disjoint_left.mpr fun k hk hS => ?_⟩
    · have hmeets := hmeets k
      rw [mem_a_set.mp (List.mem_toFinset.mp hk)] at hmeets
      by_contra hS
      rw [if_neg hS] at hmeets
      cases hmeets
    · have hmeets := hmeets k
      rw [mem_b_set.mp (List.mem_toFinset.mp hk), if_pos hS] at hmeets
      cases hmeets
  · rintro ⟨hA, hB⟩ k
    split
    · next hS =>
      by_contra hx
      have hb : k ∈ b_set state := mem_b_set.mpr (by
        have hk := h k
        rcases hreach : reach state k with ⟨_ | _, _ | _⟩ <;> simp_all)
      exact Finset.disjoint_left.mp hB (List.mem_toFinset.mpr hb) hS
    · next hS =>
      by_contra hz
      have ha : k ∈ a_set state := mem_a_set.mpr (by
        have hk := h k
        rcases hreach : reach state k with ⟨_ | _, _ | _⟩ <;> simp_all)
      exact hS (hA (List.mem_toFinset.mpr ha))

theorem credit_apply {ks : List (Fin features.length)} (hks : ks.Nodup) (v : ℚ) (phi : Fin features.length → ℚ)
    (j : Fin features.length) : credit v ks phi j = phi j + if j ∈ ks then v else 0 := by
  unfold credit
  induction ks generalizing phi with
  | nil => exact (add_zero _).symm
  | cons k ks ih =>
    obtain ⟨hnot, hks⟩ := List.nodup_cons.mp hks
    rw [List.foldl_cons, ih hks, Function.update_apply]
    rcases eq_or_ne j k with rfl | hne
    · rw [if_pos rfl, if_neg hnot, if_pos List.mem_cons_self, add_zero]
    · rw [if_neg hne]
      simp only [List.mem_cons, hne, false_or]

end Sets

section Walk
open Shapley
variable (x z : Feature → ℚ) (scale : ℚ)

/-- What a node on the stack is owed. -/
def owed (j : Fin features.length) (e : t.Place × State features) : ℚ :=
  worth (t.game x z scale e.1 (reach e.2)) j

/-- What holds of a node on the stack: its path asks something of no more features than it is deep, and of none what
neither pair satisfies. -/
def Sound (e : t.Place × State features) : Prop :=
  e.2.size ≤ depths t.nodes e.1 ∧ ∀ k, reach e.2 k ≠ (false, false)

variable {x z scale}

theorem owed_push (k j : Fin features.length) (state : State features) (child : t.Place) (x_goes z_goes : Bool)
    (stack : List (t.Place × State features)) :
    ((t.push k state child x_goes z_goes stack).map (owed x z scale j)).sum =
      worth (t.game x z scale child (further (reach state) k x_goes z_goes)) j +
        (stack.map (owed x z scale j)).sum := by
  unfold push
  dsimp only
  split
  · next hneither =>
    obtain ⟨hx, hz⟩ := Bool.and_eq_true_iff.mp hneither
    have hx := (Bool.not_eq_true' _).mp hx
    have hz := (Bool.not_eq_true' _).mp hz
    have hzero : t.game x z scale child (further (reach state) k x_goes z_goes) = fun _ => 0 :=
      funext fun S => game_unreached x z scale (reach state) S k x_goes z_goes hx hz child
    rw [hzero, worth_const, zero_add]
  · split
    · next hsame => rw [List.map_cons, List.sum_cons, owed, further, hsame, Function.update_eq_self]
    · rw [List.map_cons, List.sum_cons, owed, reach_upsert]

variable {state : State features}

theorem sound_push {k : Fin features.length} {i child : t.Place} {x_goes z_goes : Bool}
    {stack : List (t.Place × State features)} (hchild : (child : ℕ) ∈ (t.nodes.get i).children)
    (h : t.Sound (i, state)) (hstack : ∀ e ∈ stack, t.Sound e) :
    ∀ e ∈ t.push k state child x_goes z_goes stack, t.Sound e := by
  obtain ⟨hsize, hreach⟩ := h
  have hdeeper : depths t.nodes child = depths t.nodes i + 1 := depths_child t hchild
  unfold push
  dsimp only
  split
  · exact hstack
  · next hone =>
    split
    · refine List.forall_mem_cons.mpr ⟨⟨?_, hreach⟩, hstack⟩
      exact hdeeper ▸ Nat.le_succ_of_le hsize
    · refine List.forall_mem_cons.mpr ⟨⟨?_, fun j => ?_⟩, hstack⟩
      · exact hdeeper ▸ (Table.size_upsert_le _ _ _ _).trans (Nat.succ_le_succ hsize)
      · dsimp only
        rw [reach_upsert, further, Function.update_apply]
        split
        · intro hneither
          obtain ⟨hx, hz⟩ := Prod.mk.inj hneither
          rw [hx, hz] at hone
          exact hone rfl
        · exact hreach j

theorem owed_leaf {i : t.Place} {value : ℚ} (hleaf : t.nodes.get i = .leaf value)
    (h : t.Sound (i, state)) (j : Fin features.length) :
    owed x z scale j (i, state) =
      scale * value * worth (demand ℚ (a_set state).toFinset (b_set state).toFinset) j := by
  rw [owed, ← worth_mul]
  refine congrArg (worth · j) (funext fun S => ?_)
  rw [game, leaf_from_leaf hleaf, demand]
  by_cases hmeets : Meets (reach state) S
  · rw [if_pos hmeets, if_pos ((meets_iff h.2).mp hmeets), mul_one]
  · rw [if_neg hmeets, if_neg (mt (meets_iff h.2).mpr hmeets), mul_zero]

/-- A leaf that is walked gets what it is owed credited. -/
theorem credit_leaf (h : (a_set state).length + (b_set state).length ≤ MAX_DEPTH) (v : ℚ) :
    ∃ w, W[(a_set state).length]?.bind (·[(b_set state).length]?) = some w ∧ ∀ phi j,
      credit (-(v * w.2)) (b_set state) (credit (v * w.1) (a_set state) phi) j =
        phi j + v * worth (demand ℚ (a_set state).toFinset (b_set state).toFinset) j := by
  refine ⟨_, weights_get h, fun phi j => ?_⟩
  have hdisjoint : Disjoint (a_set state).toFinset (b_set state).toFinset := by
    refine Finset.disjoint_left.mpr fun k hA hB => ?_
    cases (mem_a_set.mp (List.mem_toFinset.mp hA)).symm.trans (mem_b_set.mp (List.mem_toFinset.mp hB))
  have ha : (a_set state).toFinset.card = (a_set state).length := List.toFinset_card_of_nodup a_set_nodup
  have hb : (b_set state).toFinset.card = (b_set state).length := List.toFinset_card_of_nodup b_set_nodup
  rw [credit_apply b_set_nodup, credit_apply a_set_nodup, add_assoc]
  congr 1
  by_cases hA : j ∈ a_set state
  · have hnonzero : (a_set state).length ≠ 0 := (List.length_pos_of_mem hA).ne'
    have hB : j ∉ b_set state := fun hB =>
      Finset.disjoint_left.mp hdisjoint (List.mem_toFinset.mpr hA) (List.mem_toFinset.mpr hB)
    rw [if_pos hA, if_neg hB, if_pos hnonzero, add_zero,
      worth_demand_of_mem hdisjoint (List.mem_toFinset.mpr hA), ha, hb]
  · by_cases hB : j ∈ b_set state
    · have hnonzero : (b_set state).length ≠ 0 := (List.length_pos_of_mem hB).ne'
      rw [if_neg hA, if_pos hB, if_pos hnonzero, zero_add,
        worth_demand_of_mem_right hdisjoint (List.mem_toFinset.mpr hB), ha, hb, mul_neg]
    · rw [if_neg hA, if_neg hB, add_zero, worth_demand_of_notMem (mt List.mem_toFinset.mp hA)
        (mt List.mem_toFinset.mp hB), mul_zero]

theorem walk_leaf {i : t.Place} {stack : List (t.Place × State features)}
    {phi : Fin features.length → ℚ} {value : ℚ} (hleaf : t.nodes.get i = .leaf value) :
    t.walk x z scale ((i, state) :: stack) phi =
      if a_set state = [] ∧ b_set state = [] then t.walk x z scale stack phi
      else W[(a_set state).length]?.bind (·[(b_set state).length]?) >>= fun w => t.walk x z scale stack
        (credit (-(scale * value * w.2)) (b_set state) (credit (scale * value * w.1) (a_set state) phi)) := by
  rw [walk]
  split
  · next heq =>
    cases heq.symm.trans hleaf
    split
    · rfl
    · cases W[(a_set state).length]?.bind (·[(b_set state).length]?) <;> rfl
  · next heq => cases heq.symm.trans hleaf

theorem walk_split {i : t.Place} {stack : List (t.Place × State features)}
    {phi : Fin features.length → ℚ}
    (h : t.nodes.get i = .split k threshold left right) :
    t.walk x z scale ((i, state) :: stack) phi =
      t.walk x z scale
        (t.push k state ⟨right, (right_forward h).2⟩ (!(x (features.get k) ≤ threshold))
          (!(z (features.get k) ≤ threshold))
          (t.push k state ⟨left, (left_forward h).2⟩ (x (features.get k) ≤ threshold)
            (z (features.get k) ≤ threshold) stack)) phi := by
  rw [walk]
  split
  · next heq => cases heq.symm.trans h
  · next heq =>
    cases heq.symm.trans h
    rfl

/-- The walk adds to each feature what the nodes on its stack are owed, and no weight it needs is missing. -/
theorem walk_owed (hdistinct : features.Nodup) (stack : List (t.Place × State features))
    (phi : Fin features.length → ℚ) (h : ∀ e ∈ stack, t.Sound e) :
    ∃ out, t.walk x z scale stack phi = some out ∧ ∀ j, out j = phi j + (stack.map (owed x z scale j)).sum := by
  induction stack, phi using walk.induct t x z scale with
  | case1 phi =>
    refine ⟨phi, ?_, fun j => (add_zero _).symm⟩
    rw [walk]
  | case2 phi i state stack value hleaf hnone ih =>
    obtain ⟨hsound, hstack⟩ := List.forall_mem_cons.mp h
    obtain ⟨out, hwalk, hout⟩ := ih hstack
    refine ⟨out, by rw [walk_leaf hleaf, if_pos hnone, hwalk], fun j => ?_⟩
    rw [hout, List.map_cons, List.sum_cons, owed_leaf hleaf hsound, hnone.1, hnone.2, List.toFinset_nil,
      worth_demand_of_notMem (Finset.notMem_empty j) (Finset.notMem_empty j), mul_zero, zero_add]
  | case3 phi i state stack value hleaf hsome hw =>
    obtain ⟨⟨hsize, -⟩, -⟩ := List.forall_mem_cons.mp h
    obtain ⟨w, hget, -⟩ := credit_leaf ((sets_length.trans hsize).trans (t.shallow i i.isLt)) 0
    cases hget.symm.trans hw
  | case4 phi i state stack value hleaf hsome w hw ih =>
    obtain ⟨hsound, hstack⟩ := List.forall_mem_cons.mp h
    obtain ⟨out, hwalk, hout⟩ := ih hstack
    obtain ⟨v, hget, hcredit⟩ :=
      credit_leaf ((sets_length.trans hsound.1).trans (t.shallow i i.isLt)) (scale * value)
    obtain rfl : v = w := Option.some.inj (hget.symm.trans hw)
    refine ⟨out, by rw [walk_leaf hleaf, if_neg hsome, hget]; exact hwalk, fun j => ?_⟩
    rw [hout, hcredit, List.map_cons, List.sum_cons, owed_leaf hleaf hsound, add_assoc]
  | case5 phi i state stack k threshold left right hsplit x_left z_left ih =>
    obtain ⟨hsound, hstack⟩ := List.forall_mem_cons.mp h
    have hleft : left ∈ (t.nodes.get i).children := hsplit ▸ List.mem_cons_self
    have hright : right ∈ (t.nodes.get i).children := hsplit ▸ List.mem_cons_of_mem left List.mem_cons_self
    obtain ⟨out, hwalk, hout⟩ := ih (sound_push hright hsound (sound_push hleft hsound hstack))
    refine ⟨out, (walk_split hsplit).trans hwalk, fun j => ?_⟩
    have hgame : t.game x z scale i (reach state) = fun S => _ :=
      funext fun S => game_split x z scale (reach state) S k hdistinct hsplit
    rw [hout, List.map_cons, List.sum_cons, owed_push, owed_push, owed, hgame, worth_add]
    ring

end Walk

/-- A tree reads no other features than the model's own. -/
theorem leaf_from_congr {x y : Feature → ℚ} (h : ∀ k, x (features.get k) = y (features.get k)) (i : t.Place) :
    t.leaf_from x i = t.leaf_from y i := by
  induction i using leaf_from.induct t x with
  | case1 i value hleaf => rw [leaf_from_leaf hleaf, leaf_from_leaf hleaf]
  | case2 i k threshold left right hsplit hle ih =>
    rw [leaf_from_split hsplit, leaf_from_split hsplit, ← h k, if_pos hle, if_pos hle, ih]
  | case3 i k threshold left right hsplit hgt ih =>
    rw [leaf_from_split hsplit, leaf_from_split hsplit, ← h k, if_neg hgt, if_neg hgt, ih]

end Tree

/-- `METHODS` -/
inductive Method where
  | decision_tree
  | random_forest
  | boosted_trees
  | xgboost
  deriving DecidableEq, Repr

def Method.name : Method → Str
  | decision_tree => lit "decision_tree"
  | random_forest => lit "random_forest"
  | boosted_trees => lit "boosted_trees"
  | xgboost => lit "xgboost"

def METHODS : List Method := [.decision_tree, .random_forest, .boosted_trees, .xgboost]

structure Grouping where
  join_bias : ℚ
  merge_bias : ℚ
  merge_min_pairs : ℚ
  deriving DecidableEq, Repr

/-- A validated document. -/
structure TreesModel where
  method : Method
  features : List Feature
  distinct : features.Nodup
  reference : List ℚ
  base : ℚ
  scale : ℚ
  trees : List (Tree features)
  threshold : ℚ
  grouping : Grouping

namespace TreesModel
variable (model : TreesModel)

def logit (vector : Feature → ℚ) : ℚ :=
  model.base + model.scale * model.trees.foldl (fun total tree => total + tree.leaf_of vector) 0

/-- What the walks of its trees add up, against a pair. -/
def walked (x z : Feature → ℚ) : Option (Fin model.features.length → ℚ) :=
  model.trees.foldlM (fun phi tree => tree.walk x z model.scale [(tree.root, .empty)] phi) 0

/-- The reference pair as a vector. -/
def reference_vector (f : Feature) : ℚ := ((model.features.zip model.reference).lookup f).getD 0

def base_value : ℚ := model.logit model.reference_vector

def attribution (vector : Feature → ℚ) : Option (Fin model.features.length → ℚ) :=
  model.walked vector model.reference_vector

theorem logit_eq (vector : Feature → ℚ) :
    model.logit vector = model.base + (model.trees.map fun tree => model.scale * tree.leaf_of vector).sum := by
  have hsum (l : List (Tree model.features)) (total : ℚ) :
      l.foldl (fun total tree => total + tree.leaf_of vector) total = total + (l.map (·.leaf_of vector)).sum := by
    induction l generalizing total with
    | nil => exact (add_zero total).symm
    | cons tree l ih => rw [List.foldl_cons, ih, List.map_cons, List.sum_cons, add_assoc]
  rw [logit, List.sum_map_mul_left, hsum, zero_add]

end TreesModel

def FORMAT : Str := lit "netcorenoc.trees/1"

def KEYS : List Str :=
  [lit "format", lit "method", lit "features", lit "reference", lit "base", lit "scale", lit "trees", lit "threshold",
    lit "grouping"]

def GROUPING_KEYS : List Str := [lit "join_bias", lit "merge_bias", lit "merge_min_pairs"]

/-- The value of each key, where the keys are just these. -/
def fields_of (keys : List Str) (e : TreesDocumentError) : Raw → Except TreesDocumentError (Str → Raw)
  | .obj items =>
    if (∀ k ∈ items.map Prod.fst, k ∈ keys) ∧ ∀ k ∈ keys, k ∈ items.map Prod.fst then
      .ok fun k => (items.lookup k).getD .null
    else .error e
  | _ => .error e

def listed (e : TreesDocumentError) : Raw → Except TreesDocumentError (List Raw)
  | .list items => .ok items
  | _ => .error e

def is_format : Raw → Bool
  | .str s => s = FORMAT
  | _ => false

def method_of : Raw → Except TreesDocumentError Method
  | .str s => ((METHODS.find? (·.name = s)).map Except.ok).getD (.error .method)
  | _ => .error .method

def feature_of : Raw → Except TreesDocumentError Feature
  | .str s => ((FEATURE_NAMES.find? (·.name = s)).map Except.ok).getD (.error .features)
  | _ => .error .features

/-- The least and the greatest leaf of a tree. -/
def Tree.leaves {features : List Feature} (t : Tree features) : List ℚ :=
  t.nodes.filterMap fun node => match node with
    | .leaf value => some value
    | .split .. => none

/-- `_reachable` -/
def reachable (model : TreesModel) : Except TreesDocumentError Unit :=
  let low := model.base + model.scale * (model.trees.map fun t => t.leaves.min?.getD 0).sum
  let high := model.base + model.scale * (model.trees.map fun t => t.leaves.max?.getD 0).sum
  ensure (low < model.threshold ∧ model.threshold < high) (.threshold low high)

/-- `validate`, of a document that is read. -/
def validate (payload : Raw) : Except TreesDocumentError TreesModel := do
  let field ← fields_of KEYS .keys payload
  ensure (is_format (field (lit "format"))) .format
  let method ← method_of (field (lit "method"))
  let names ← listed .features (field (lit "features"))
  ensure (names ≠ []) .features
  let features ← each feature_of names
  if hdistinct : features.Nodup then
    let references ← listed .reference (field (lit "reference"))
    ensure (references.length = features.length) .reference
    let raw_trees ← listed .trees (field (lit "trees"))
    ensure (1 ≤ raw_trees.length ∧ raw_trees.length ≤ MAX_TREES) .trees
    ensure (method = .decision_tree → raw_trees.length = 1) .one_tree
    let trees ← each (fun e => tree_of e.1 e.2 features) raw_trees.zipIdx
    ensure ((trees.map (·.nodes.length)).sum ≤ MAX_TOTAL_NODES) .total_nodes
    let grouping ← fields_of GROUPING_KEYS .grouping (field (lit "grouping"))
    let base ← num .base (field (lit "base"))
    let scale ← num .scale (field (lit "scale"))
    ensure (|base| ≤ MAX_ABS_SCORE) .base
    ensure (0 < scale ∧ scale ≤ 1) .scale
    let reference ← each (num .reference) references
    let threshold ← num .threshold (field (lit "threshold"))
    let join_bias ← num (.grouping (lit "join_bias")) (grouping (lit "join_bias"))
    let merge_bias ← num (.grouping (lit "merge_bias")) (grouping (lit "merge_bias"))
    let merge_min_pairs ← num (.grouping (lit "merge_min_pairs")) (grouping (lit "merge_min_pairs"))
    ensure (1 ≤ merge_min_pairs) .merge_min_pairs
    let model : TreesModel := ⟨method, features, hdistinct, reference, base, scale, trees, threshold,
      join_bias, merge_bias, merge_min_pairs⟩
    reachable model
    .ok model
  else .error .features

section
open Shapley

private theorem walked_owed {features : List Feature} (hdistinct : features.Nodup) (x z : Feature → ℚ) (scale : ℚ)
    (trees : List (Tree features)) (phi : Fin features.length → ℚ) :
    ∃ out, trees.foldlM (fun phi tree => tree.walk x z scale [(tree.root, .empty)] phi) phi = some out ∧
      ∀ j, out j = phi j +
        (trees.map fun tree => worth (fun S => scale * tree.leaf_of (mix features x z S)) j).sum := by
  induction trees generalizing phi with
  | nil => exact ⟨phi, rfl, fun j => (add_zero _).symm⟩
  | cons tree trees ih =>
    have hsound : ∀ e ∈ [(tree.root, Table.empty)], tree.Sound e := by
      refine List.forall_mem_singleton.mpr ⟨Nat.zero_le _, fun k h => ?_⟩
      cases h
    obtain ⟨first, hwalk, hfirst⟩ : ∃ first, tree.walk x z scale [(tree.root, .empty)] phi = some first ∧
        ∀ j, first j = phi j + ([(tree.root, .empty)].map (Tree.owed x z scale j)).sum :=
      Tree.walk_owed hdistinct _ phi hsound
    obtain ⟨out, hfold, hout⟩ := ih first
    refine ⟨out, ?_, fun j => ?_⟩
    · rw [List.foldlM_cons, hwalk]
      exact hfold
    · have howed : Tree.owed x z scale j (tree.root, Table.empty) =
          worth (fun S => scale * tree.leaf_of (mix features x z S)) j := by
        refine congrArg (worth · j) (funext fun S => if_pos fun k => ?_)
        split <;> rfl
      rw [hout, hfirst, List.map_singleton, List.sum_singleton, howed, List.map_cons, List.sum_cons, add_assoc]

/-- What the walks add up is the Shapley value of each feature in the game of the logit, where a coalition has its
features of the one pair and the others of the other; together they come to the difference of the two logits, a
feature on which the pairs agree gets nothing, and every weight is in the table. -/
theorem walked_shapley (model : TreesModel) (x z : Feature → ℚ) :
    ∃ phi, model.walked x z = some phi ∧
      (∀ k, phi k = worth (fun S => model.logit (mix model.features x z S)) k) ∧
      ∑ k, phi k = model.logit x - model.logit z ∧
      ∀ k, x (model.features.get k) = z (model.features.get k) → phi k = 0 := by
  obtain ⟨phi, hwalked, hphi⟩ := walked_owed model.distinct x z model.scale model.trees 0
  have hworth (k : Fin model.features.length) :
      phi k = worth (fun S => model.logit (mix model.features x z S)) k := by
    have hlogit : (fun S => model.logit (mix model.features x z S)) = fun S => model.base +
        (model.trees.map fun tree => model.scale * tree.leaf_of (mix model.features x z S)).sum :=
      funext fun S => model.logit_eq _
    rw [hphi, hlogit, worth_add, worth_const, worth_list]
    rfl
  have hall : model.logit (mix model.features x z Finset.univ) = model.logit x := by
    rw [TreesModel.logit_eq, TreesModel.logit_eq]
    refine congrArg (fun l => model.base + List.sum l) (List.map_congr_left fun tree _ => congrArg _ ?_)
    refine Tree.leaf_from_congr (fun k => ?_) _
    rw [Tree.mix_get model.distinct, if_pos (Finset.mem_univ k)]
  have hnone : mix model.features x z ∅ = z := by
    funext f
    refine if_neg ?_
    rintro ⟨k, hk, -⟩
    exact Finset.notMem_empty k hk
  refine ⟨phi, hwalked, hworth, ?_, fun k hagree => ?_⟩
  · rw [Finset.sum_congr rfl fun k _ => hworth k, sum_worth, hall, hnone]
  · rw [hworth]
    refine worth_dummy fun S => congrArg model.logit (funext fun f => ?_)
    by_cases hf : model.features.get k = f
    · subst hf
      rw [Tree.mix_get model.distinct, Tree.mix_get model.distinct, hagree, ite_self, ite_self]
    · refine if_congr ?_ rfl rfl
      simp only [Finset.mem_insert, exists_eq_or_imp, hf, false_or]

end

end NetCoreNoc.Model
