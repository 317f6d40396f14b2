import Mathlib
import NetCoreNoc.Model.Cart

/-! The least and the greatest score of weighted trees over a box (`cart.py`): exact, from one point of each cell that the
thresholds cut. -/
namespace NetCoreNoc.Model.Cart

def MAX_REACHABILITY_CELLS : ℕ := 200000

/-- `_representatives`, from a cut on; the last cell has no upper end. -/
def representatives_from (low high : ℚ) : WithBot ℚ → List ℚ → List ℚ
  | previous, [] => if previous < high ∧ low ≤ high then [high] else []
  | previous, cut :: cuts =>
    let rest := representatives_from low high cut cuts
    if previous < (min cut high : ℚ) ∧ low ≤ min cut high then min cut high :: rest else rest

def representatives (cuts : List ℚ) (low high : ℚ) : List ℚ := representatives_from low high ⊥ cuts

section
variable (members : List (ℚ × Tree)) (base_score : ℚ) (bounds : Fin 3 → ℚ × ℚ)

/-- The thresholds on a feature, each of them once, in order -/
def cuts (feature : Fin 3) : List ℚ :=
  ((members.flatMap fun m => m.2.nodes).filterMap fun node =>
    if node.feature = (feature.val : ℤ) then some node.threshold else none).dedup.insertionSort (· ≤ ·)

def column (feature : Fin 3) : List ℚ := representatives (cuts members feature) (bounds feature).1 (bounds feature).2

/-- The score at a point -/
def score (x : Point) : ℚ := base_score + (members.map fun m => m.1 * (predict m.2.nodes x).getD 0).sum

def cells : List Point :=
  (column members bounds 0).flatMap fun first => (column members bounds 1).flatMap fun second =>
    (column members bounds 2).map fun third => ![first, second, third]

/-- `AttributionError`, with the number of cells -/
structure TooManyCells where
  cells : ℕ
  deriving DecidableEq

/-- `(lowest, highest)`: without a cell, above every number and below. -/
def extremes : Except TooManyCells (WithTop ℚ × WithBot ℚ) :=
  let count := (column members bounds 0).length * (column members bounds 1).length * (column members bounds 2).length
  if MAX_REACHABILITY_CELLS < count then .error ⟨count⟩
  else
    let scores := (cells members bounds).map (score members base_score)
    .ok (scores.minimum, scores.maximum)

end

/-! One point of each cell -/

section
variable {low high x : ℚ}

theorem mem_representatives_from {l : List ℚ} {previous : WithBot ℚ} {p : ℚ}
    (h : p ∈ representatives_from low high previous l) : low ≤ p ∧ p ≤ high := by
  induction l generalizing previous with
  | nil =>
    rw [representatives_from] at h
    split at h
    · rename_i hin
      obtain rfl := List.mem_singleton.mp h
      exact ⟨hin.2, le_rfl⟩
    · cases h
  | cons cut l ih =>
    rw [representatives_from] at h
    split at h
    · rename_i hin
      rcases List.mem_cons.mp h with rfl | h
      · exact ⟨hin.2, min_le_right _ _⟩
      · exact ih h
    · exact ih h

/-- A point within the bounds has the one of its cell above it, on the same side of every cut. -/
theorem exists_representative_from {l : List ℚ} (hl : l.Pairwise (· < ·)) {previous : WithBot ℚ} (hlow : low ≤ x)
    (hhigh : x ≤ high) (hprevious : previous < x) :
    ∃ p ∈ representatives_from low high previous l, x ≤ p ∧ ∀ c ∈ l, x ≤ c ↔ p ≤ c := by
  induction l generalizing previous with
  | nil =>
    refine ⟨high, ?_, hhigh, fun c hc => absurd hc List.not_mem_nil⟩
    rw [representatives_from, if_pos ⟨hprevious.trans_le (WithBot.coe_le_coe.mpr hhigh), hlow.trans hhigh⟩]
    exact List.mem_singleton_self high
  | cons cut l ih =>
    obtain ⟨hcut, hl⟩ := List.pairwise_cons.mp hl
    rw [representatives_from]
    rcases le_or_gt x cut with hx | hx
    · -- the cell of the point ends at this cut
      have hmin : x ≤ min cut high := le_min hx hhigh
      refine ⟨min cut high, ?_, hmin, ?_⟩
      · rw [if_pos ⟨hprevious.trans_le (WithBot.coe_le_coe.mpr hmin), hlow.trans hmin⟩]
        exact List.mem_cons_self
      · intro c hc
        have hle : cut ≤ c := (List.mem_cons.mp hc).elim (fun h => h.ge) fun h => (hcut c h).le
        exact iff_of_true (hx.trans hle) ((min_le_left _ _).trans hle)
    · obtain ⟨p, hp, hxp, hsides⟩ := ih hl (WithBot.coe_lt_coe.mpr hx)
      refine ⟨p, ?_, hxp, List.forall_mem_cons.mpr ⟨?_, hsides⟩⟩
      · split
        · exact List.mem_cons_of_mem _ hp
        · exact hp
      · exact iff_of_false (not_le.mpr hx) (not_le.mpr (hx.trans_le hxp))

end

/-- A split names one of the three features. -/
def Node.Featured (node : Node) : Prop := node.feature ≠ LEAF → node.feature = (node.splits.val : ℤ)

theorem visit_featured {nodes : List Node} {fuel : ℕ} {frontier seen out : List ℕ}
    (h : visit nodes fuel frontier seen = .ok out)
    (hseen : ∀ i ∈ seen, ∀ node, nodes[i]? = some node → node.Featured) :
    ∀ i ∈ out, ∀ node, nodes[i]? = some node → node.Featured := by
  induction fuel generalizing frontier seen with
  | zero =>
    cases frontier with
    | nil => exact Except.ok.inj h ▸ hseen
    | cons index frontier => cases h
  | succ fuel ih =>
    cases frontier with
    | nil => exact Except.ok.inj h ▸ hseen
    | cons index frontier =>
      rw [visit] at h
      split at h
      · cases h
      · split at h
        · cases h
        · rename_i node hnode
          have hnext (hfeatured : node.Featured) :
              ∀ i ∈ index :: seen, ∀ node, nodes[i]? = some node → node.Featured := by
            refine List.forall_mem_cons.mpr ⟨?_, hseen⟩
            intro other hother
            obtain rfl := Option.some.inj (hnode.symm.trans hother)
            exact hfeatured
          split at h
          · rename_i hleaf
            split at h
            · cases h
            · exact ih h (hnext fun hsplit => absurd hleaf hsplit)
          · split at h
            · cases h
            · rename_i hrange
              have hfeatured : node.Featured := by
                intro _
                obtain ⟨h0, h3⟩ := not_not.mp hrange
                rw [Node.splits, Fin.val_ofNat, Nat.mod_eq_of_lt (by omega), Int.toNat_of_nonneg h0]
              split at h
              · cases h
              · split at h
                · cases h
                · exact ih h (hnext hfeatured)

theorem Tree.shape_featured (t : Tree) : ∃ s : Shape, s.Stands t.nodes ∧ s.index = 0 ∧ s.indices.Nodup ∧
    ∀ i ∈ s.indices, ∀ node, t.nodes[i]? = some node → node.Featured := by
  obtain ⟨nodes, h⟩ := t
  unfold structure_error at h
  split at h
  · cases h
  · split at h
    · cases h
    · rename_i seen hseen
      obtain ⟨s, rest, later, hs⟩ := exists_shape hseen
      refine ⟨s, hs.stands, hs.root, hs.nodup, fun i hi => ?_⟩
      have hlater : later = seen := by
        have hgo := hs.goes_on
        rw [visit] at hgo
        exact Except.ok.inj hgo
      apply visit_featured hseen fun _ hi => absurd hi List.not_mem_nil
      exact hlater ▸ (hs.covers i).mpr (.inl hi)

/-- Points on the same side of every threshold are given the same value. -/
theorem value_congr {nodes : List Node} {s : Shape} (h : s.Stands nodes) {x y : Point}
    (hsides : ∀ i ∈ s.indices, ∀ node, nodes[i]? = some node → node.feature ≠ LEAF →
      (x node.splits ≤ node.threshold ↔ y node.splits ≤ node.threshold)) : s.value x = s.value y := by
  induction s with
  | leaf index value => rfl
  | split index f threshold left right hl hr =>
    obtain ⟨⟨node, hnode, hsplit, rfl, rfl, -⟩, hls, hrs⟩ := h
    rw [Shape.value, Shape.value]
    rw [hl hls fun i hi => hsides i (List.mem_cons_of_mem _ (List.mem_append_right _ hi)),
      hr hrs fun i hi => hsides i (List.mem_cons_of_mem _ (List.mem_append_left _ hi))]
    exact if_congr (hsides index List.mem_cons_self node hnode hsplit) rfl rfl

theorem Tree.predict_congr (t : Tree) {x y : Point} (hsides : ∀ node ∈ t.nodes, node.feature = (node.splits.val : ℤ) →
    (x node.splits ≤ node.threshold ↔ y node.splits ≤ node.threshold)) : predict t.nodes x = predict t.nodes y := by
  obtain ⟨s, hs, hroot, hnodup, hfeatured⟩ := t.shape_featured
  have hpredict (x : Point) : predict t.nodes x = some (s.value x) := by
    rw [predict, ← hroot]
    exact descend_shape x hs (Shape.length_le hs hnodup)
  rw [hpredict, hpredict]
  congr 1
  apply value_congr hs
  intro i hi node hnode hsplit
  exact hsides node (List.mem_of_getElem? hnode) (hfeatured i hi node hnode hsplit)

section
variable {members : List (ℚ × Tree)} {bounds : Fin 3 → ℚ × ℚ}

theorem cuts_sorted (members : List (ℚ × Tree)) (feature : Fin 3) : (cuts members feature).Pairwise (· < ·) := by
  have hle := List.pairwise_insertionSort (· ≤ · : ℚ → ℚ → Prop) (((members.flatMap fun m => m.2.nodes).filterMap fun node =>
    if node.feature = (feature.val : ℤ) then some node.threshold else none).dedup)
  have hne : (cuts members feature).Nodup := (List.perm_insertionSort _ _).nodup_iff.mpr (List.nodup_dedup _)
  exact hle.imp₂ (fun _ _ hle hne => lt_of_le_of_ne hle hne) hne

theorem mem_cuts {m : ℚ × Tree} {node : Node} (hm : m ∈ members) (hnode : node ∈ m.2.nodes) {feature : Fin 3}
    (hfeature : node.feature = (feature.val : ℤ)) : node.threshold ∈ cuts members feature := by
  refine (List.perm_insertionSort _ _).mem_iff.mpr (List.mem_dedup.mpr (List.mem_filterMap.mpr ⟨node, ?_, if_pos hfeature⟩))
  exact List.mem_flatMap.mpr ⟨m, hm, hnode⟩

/-- The points within the declared bounds -/
def Within (bounds : Fin 3 → ℚ × ℚ) : Set Point := {x | ∀ f, (bounds f).1 ≤ x f ∧ x f ≤ (bounds f).2}

theorem mem_cells {x : Point} : x ∈ cells members bounds ↔ ∀ f, x f ∈ column members bounds f := by
  simp only [cells, List.mem_flatMap, List.mem_map]
  constructor
  · rintro ⟨first, h0, second, h1, third, h2, rfl⟩ f
    fin_cases f
    · exact h0
    · exact h1
    · exact h2
  · intro h
    refine ⟨x 0, h 0, x 1, h 1, x 2, h 2, ?_⟩
    funext f
    fin_cases f <;> rfl

theorem cells_within {x : Point} (h : x ∈ cells members bounds) : x ∈ Within bounds :=
  fun f => mem_representatives_from (mem_cells.mp h f)

theorem exists_cell (members : List (ℚ × Tree)) (base_score : ℚ) {x : Point} (h : x ∈ Within bounds) :
    ∃ y ∈ cells members bounds, score members base_score y = score members base_score x := by
  have hpoint (f : Fin 3) := exists_representative_from (cuts_sorted members f) (h f).1 (h f).2
    (WithBot.bot_lt_coe (x f))
  choose y hy _ hsides using hpoint
  refine ⟨y, mem_cells.mpr hy, ?_⟩
  unfold score
  congr 2
  apply List.map_congr_left
  intro m hm
  rw [m.2.predict_congr]
  intro node hnode hfeature
  exact (hsides node.splits _ (mem_cuts hm hnode hfeature)).symm

/-- The extremes are the least and the greatest score over the declared bounds, both of them attained there. -/
theorem extremes_exact {base_score : ℚ} (hbounds : ∀ f, (bounds f).1 ≤ (bounds f).2) {lowest : WithTop ℚ} {highest : WithBot ℚ}
    (h : extremes members base_score bounds = .ok (lowest, highest)) :
    ∃ least greatest : ℚ, lowest = least ∧ highest = greatest ∧ IsLeast (score members base_score '' Within bounds) least ∧
      IsGreatest (score members base_score '' Within bounds) greatest := by
  unfold extremes at h
  dsimp only at h
  split at h
  · cases h
  · obtain ⟨rfl, rfl⟩ := Prod.mk.inj (Except.ok.inj h)
    obtain ⟨y, hy, -⟩ := exists_cell members base_score
      (show (fun f => (bounds f).1) ∈ Within bounds from fun f => ⟨le_rfl, hbounds f⟩)
    have hne : (cells members bounds).map (score members base_score) ≠ [] := List.ne_nil_of_mem (List.mem_map_of_mem hy)
    obtain ⟨least, hleast⟩ := WithTop.ne_top_iff_exists.mp (List.minimum_ne_top_of_ne_nil hne)
    obtain ⟨greatest, hgreatest⟩ := WithBot.ne_bot_iff_exists.mp (List.maximum_ne_bot_of_ne_nil hne)
    refine ⟨least, greatest, hleast.symm, hgreatest.symm, ⟨?_, ?_⟩, ⟨?_, ?_⟩⟩
    · obtain ⟨z, hz, rfl⟩ := List.mem_map.mp (List.minimum_mem hleast.symm)
      exact ⟨z, cells_within hz, rfl⟩
    · rintro _ ⟨x, hx, rfl⟩
      obtain ⟨z, hz, hscore⟩ := exists_cell members base_score hx
      exact hscore ▸ List.minimum_le_of_mem (List.mem_map_of_mem hz) hleast.symm
    · obtain ⟨z, hz, rfl⟩ := List.mem_map.mp (List.maximum_mem hgreatest.symm)
      exact ⟨z, cells_within hz, rfl⟩
    · rintro _ ⟨x, hx, rfl⟩
      obtain ⟨z, hz, hscore⟩ := exists_cell members base_score hx
      exact hscore ▸ List.le_maximum_of_mem (List.mem_map_of_mem hz) hgreatest.symm

/-- A stump on the second feature -/
def stump : Tree := ⟨[⟨1, 1 / 2, 1, 2, 0⟩, ⟨LEAF, 0, LEAF, LEAF, 1 / 4⟩, ⟨LEAF, 0, LEAF, LEAF, 3 / 4⟩], by decide +kernel⟩

theorem stump_exact : ∃ least greatest : ℚ, (1 / 4 : ℚ) = (least : WithTop ℚ) ∧ (3 / 4 : ℚ) = (greatest : WithBot ℚ) ∧
    IsLeast (score [(1, stump)] 0 '' Within fun _ => (0, 1)) least ∧
      IsGreatest (score [(1, stump)] 0 '' Within fun _ => (0, 1)) greatest :=
  extremes_exact (fun _ => zero_le_one) (by decide +kernel)

end

end NetCoreNoc.Model.Cart
