import Mathlib

/-! The cluster bootstrap (`shadow_cv.py`): a rate over incidents, and the interval of the rates of its resamples. -/
namespace NetCoreNoc.Evaluation

def SEED : ℕ := 20100000
def RESAMPLES : ℕ := 2000

structure Interval where
  rate : ℚ
  low : ℚ
  high : ℚ
  clusters : ℕ
  deriving DecidableEq, Repr

/-- `_EMPTY` -/
def Interval.empty : Interval := ⟨0, 0, 0, 0⟩

namespace Lcg

/-- `_Lcg.below`: the number that is drawn, of the high bits, and the state after it. -/
def below (state bound : ℕ) : ℕ × ℕ :=
  let next := (1664525 * state + 1013904223) % 2 ^ 32
  ((next >>> 16) % bound, next)

end Lcg

def mean (values : List ℚ) : ℚ := if values = [] then 0 else values.sum / values.length

/-- The values of some clusters, drawn with replacement. -/
def draw (clusters : List (List ℚ)) : ℕ → ℕ → List ℚ × ℕ
  | 0, state => ([], state)
  | n + 1, state =>
    let (i, state) := Lcg.below state clusters.length
    let (rest, state) := draw clusters n state
    (clusters.getD i [] ++ rest, state)

def resample (clusters : List (List ℚ)) : ℕ → ℕ → List ℚ
  | 0, _ => []
  | n + 1, state =>
    let (drawn, state) := draw clusters clusters.length state
    mean drawn :: resample clusters n state

/-- What is at a percentile of the sorted rates. At 2000 of them there is no tie to round. -/
def percentile (p : ℚ) (rates : List ℚ) : ℚ :=
  (rates.insertionSort (· ≤ ·)).getD (min (rates.length - 1) (round (p * (rates.length - 1 : ℚ))).toNat) 0

/-- A cluster is an incident with the values that it contributed, in the order of the ids. -/
def cluster_bootstrap (per_cluster : List (ℕ × List ℚ)) : Interval :=
  let clusters := per_cluster.map (·.2)
  let observed := mean clusters.flatten
  if clusters.flatten = [] then .empty
  else if clusters.length < 2 then ⟨observed, observed, observed, clusters.length⟩
  else
    let rates := resample clusters RESAMPLES SEED
    ⟨observed, percentile (25 / 1000) rates, percentile (975 / 1000) rates, clusters.length⟩

theorem mean_const {v : ℚ} {l : List ℚ} (hne : l ≠ []) (h : ∀ x ∈ l, x = v) : mean l = v := by
  have hlength : (l.length : ℚ) ≠ 0 := Nat.cast_ne_zero.mpr (List.length_pos_of_ne_nil hne).ne'
  rw [mean, if_neg hne, List.eq_replicate_of_mem h, List.sum_replicate, List.length_replicate, nsmul_eq_mul,
    mul_div_cancel_left₀ _ hlength]

theorem mean_nonneg {l : List ℚ} (h : ∀ x ∈ l, 0 ≤ x) : 0 ≤ mean l := by
  unfold mean
  split
  · exact le_rfl
  · exact div_nonneg (List.sum_nonneg h) (Nat.cast_nonneg _)

/-- A mean of what is not negative is positive exactly when something is. -/
theorem mean_pos {l : List ℚ} (h : ∀ x ∈ l, 0 ≤ x) : 0 < mean l ↔ ∃ x ∈ l, 0 < x := by
  constructor
  · intro hpos
    by_contra hnone
    push Not at hnone
    have hzero : ∀ x ∈ l, x = 0 := fun x hx => (hnone x hx).antisymm (h x hx)
    by_cases hne : l = []
    · rw [mean, if_pos hne] at hpos
      exact lt_irrefl _ hpos
    · rw [mean_const hne hzero] at hpos
      exact lt_irrefl _ hpos
  · rintro ⟨x, hx, hpos⟩
    have hne : l ≠ [] := List.ne_nil_of_mem hx
    rw [mean, if_neg hne]
    refine div_pos (hpos.trans_le ?_) (Nat.cast_pos.mpr (List.length_pos_of_ne_nil hne))
    exact List.single_le_sum h x hx

/-- A mean of what is at most 1 is 1 exactly when everything is. -/
theorem mean_one {l : List ℚ} (h : ∀ x ∈ l, x ≤ 1) : mean l = 1 ↔ l ≠ [] ∧ ∀ x ∈ l, x = 1 := by
  refine ⟨fun hone => ?_, fun hall => mean_const hall.1 hall.2⟩
  have hne : l ≠ [] := by
    rintro rfl
    exact absurd hone (by decide)
  have hpos : (0 : ℚ) < l.length := Nat.cast_pos.mpr (List.length_pos_of_ne_nil hne)
  refine ⟨hne, fun x hx => (h x hx).antisymm (not_lt.mp fun hlt => ?_)⟩
  have hsum : (l.map id).sum < (l.map fun _ => (1 : ℚ)).sum := List.sum_lt_sum id _ h ⟨x, hx, hlt⟩
  rw [mean, if_neg hne, div_eq_one_iff_eq hpos.ne'] at hone
  rw [List.map_id, hone, List.map_const', List.sum_replicate, nsmul_one] at hsum
  exact lt_irrefl _ hsum

section Constant
variable {v : ℚ} {clusters : List (List ℚ)}

/-- Every cluster has a value, and only one. -/
def Constant (v : ℚ) (clusters : List (List ℚ)) : Prop := ∀ l ∈ clusters, l ≠ [] ∧ ∀ x ∈ l, x = v

theorem draw_const (h : Constant v clusters) (hne : clusters ≠ []) (n state : ℕ) :
    (∀ x ∈ (draw clusters n state).1, x = v) ∧ (n ≠ 0 → (draw clusters n state).1 ≠ []) := by
  induction n generalizing state with
  | zero => exact ⟨fun _ hx => (List.not_mem_nil hx).elim, fun h => absurd rfl h⟩
  | succ n ih =>
    obtain ⟨hrest, -⟩ := ih (Lcg.below state clusters.length).2
    have hi : (Lcg.below state clusters.length).1 < clusters.length := Nat.mod_lt _ (List.length_pos_of_ne_nil hne)
    obtain ⟨hsome, hsame⟩ := h _ (List.getElem_mem hi)
    have hdraw : (draw clusters (n + 1) state).1 = clusters[(Lcg.below state clusters.length).1] ++
        (draw clusters n (Lcg.below state clusters.length).2).1 := by
      exact congrArg (· ++ _) (List.getD_eq_getElem _ _ hi)
    rw [hdraw]
    refine ⟨fun x hx => ?_, fun _ hnil => hsome (List.append_eq_nil_iff.mp hnil).1⟩
    exact (List.mem_append.mp hx).elim (hsame x) (hrest x)

theorem resample_const (h : Constant v clusters) (hne : clusters ≠ []) (n state : ℕ) :
    resample clusters n state = List.replicate n v := by
  induction n generalizing state with
  | zero => rfl
  | succ n ih =>
    obtain ⟨hsame, hsome⟩ := draw_const h hne clusters.length state
    show mean (draw clusters clusters.length state).1 :: resample clusters n _ = _
    rw [mean_const (hsome (List.length_pos_of_ne_nil hne).ne') hsame, ih, List.replicate_succ]

theorem percentile_const {n : ℕ} (hn : 0 < n) (p : ℚ) : percentile p (List.replicate n v) = v := by
  have hperm := List.perm_insertionSort (· ≤ ·) (List.replicate n v)
  rw [percentile, List.perm_replicate.mp hperm, List.length_replicate, List.getD_eq_getElem?_getD,
    List.getElem?_replicate_of_lt (by omega), Option.getD_some]

/-- Where every value is the same, so are the rate and both ends of its interval. -/
theorem bootstrap_const {per_cluster : List (ℕ × List ℚ)} (h : Constant v (per_cluster.map (·.2)))
    (hne : per_cluster ≠ []) :
    cluster_bootstrap per_cluster = ⟨v, v, v, per_cluster.length⟩ := by
  have hclusters : per_cluster.map (·.2) ≠ [] := fun hnil => hne (List.map_eq_nil_iff.mp hnil)
  have hvalues : (per_cluster.map (·.2)).flatten ≠ [] := by
    obtain ⟨l, hl⟩ := List.exists_mem_of_ne_nil _ hclusters
    obtain ⟨x, hx⟩ := List.exists_mem_of_ne_nil _ (h l hl).1
    exact List.ne_nil_of_mem (List.mem_flatten.mpr ⟨l, hl, hx⟩)
  have hobserved : mean (per_cluster.map (·.2)).flatten = v := by
    refine mean_const hvalues fun x hx => ?_
    obtain ⟨l, hl, hx⟩ := List.mem_flatten.mp hx
    exact (h l hl).2 x hx
  simp only [cluster_bootstrap, if_neg hvalues, hobserved, resample_const h hclusters, List.length_map,
    percentile_const (n := RESAMPLES) (by decide)]
  split <;> rfl

/-- Clusters of zeros, or none at all. -/
theorem bootstrap_zero {per_cluster : List (ℕ × List ℚ)} (h : Constant 0 (per_cluster.map (·.2))) :
    (cluster_bootstrap per_cluster).rate = 0 ∧ (cluster_bootstrap per_cluster).low = 0 ∧
      (cluster_bootstrap per_cluster).high = 0 := by
  by_cases hne : per_cluster = []
  · rw [hne]
    exact ⟨rfl, rfl, rfl⟩
  · rw [bootstrap_const h hne]
    exact ⟨rfl, rfl, rfl⟩

end Constant

/-- The rate of clusters without a value is 0, as the mean of nothing is. -/
theorem bootstrap_rate (per_cluster : List (ℕ × List ℚ)) :
    (cluster_bootstrap per_cluster).rate = mean (per_cluster.map (·.2)).flatten := by
  unfold cluster_bootstrap
  dsimp only
  split
  · rename_i h
    rw [mean, if_pos h]
    rfl
  · split <;> rfl

end NetCoreNoc.Evaluation
