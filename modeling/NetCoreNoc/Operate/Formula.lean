import Mathlib
import NetCoreNoc.Correlate.Preview
import NetCoreNoc.Operate.League

/-! The additive formula in exact arithmetic: what its gates rule out, what its terms sum to, and how it falls off
with time (`scoring.py`, `gates.py`). -/
namespace NetCoreNoc.Operate.Formula
open Json Evaluation PyArith Lifecycle

/-- Real numbers for floats. Every one is finite; the formula reads and prints none. -/
@[reducible] noncomputable def exact : PyArith ℝ where
  isfinite _ := true
  nan := 0
  infinity := 0
  neg_infinity := 0
  text _ := []
  float _ := 0
  lt a b := decide (a < b)
  lt_int a n := decide (a < n)
  int_lt n a := decide (n < a)
  add := (· + ·)
  sub := (· - ·)
  mul := (· * ·)
  div := (· / ·)
  neg := (- ·)
  abs := (|·|)
  exp := Real.exp
  le a b := decide (a ≤ b)
  ofInt n := n
  round x := some ⌊x + 1 / 2⌋

attribute [local instance] exact

section Exact
variable (a b : ℝ)

@[simp] private theorem add_exact : PyArith.add a b = a + b := rfl
@[simp] private theorem sub_exact : PyArith.sub a b = a - b := rfl
@[simp] private theorem mul_exact : PyArith.mul a b = a * b := rfl
@[simp] private theorem div_exact : PyArith.div a b = a / b := rfl
@[simp] private theorem neg_exact : PyArith.neg a = -a := rfl
@[simp] private theorem abs_exact : PyArith.abs a = |a| := rfl
@[simp] private theorem exp_exact : PyArith.exp a = Real.exp a := rfl
@[simp] private theorem le_exact : PyArith.le a b = decide (a ≤ b) := rfl
@[simp] private theorem lt_exact : PyOrder.lt a b = decide (a < b) := rfl
@[simp] private theorem isfinite_exact : PyFloat.isfinite a = true := rfl
@[simp] private theorem ofInt_exact (n : ℤ) : (PyArith.ofInt n : ℝ) = n := rfl

end Exact

/-- What the gates and the terms promise of a parameter set. -/
structure GateSound (s : AdditiveScorer ℝ) : Prop where
  /-- different elements that nothing learned connects are never linked -/
  apart : ∀ f : Features ℝ, unrelated_elements f = true → (s.score f).linked = false
  summed : ∀ f : Features ℝ, ((s.score f).terms.map (·.contribution)).sum = (s.score f).score ∧
    (s.score f).linked = decide (s.threshold < (s.score f).score)
  falls : ∀ (f : Features ℝ) (later : ℝ), |f.delta_t_s| ≤ |later| →
    (s.score { f with delta_t_s := later }).score ≤ (s.score f).score

section Bounds
variable {s : AdditiveScorer ℝ}

private theorem check_range_ok (params : List (String × ℝ)) :
    check_range params = .ok () ↔ ∀ p ∈ params, 0 ≤ p.2 ∧ p.2 ≤ 1 := by
  induction params with
  | nil => exact iff_of_true rfl fun p hp => absurd hp List.not_mem_nil
  | cons p rest ih =>
    obtain ⟨name, value⟩ := p
    rw [check_range, isfinite_exact, Bool.not_true, if_neg Bool.false_ne_true, List.forall_mem_cons, ← ih]
    by_cases hrange : 0 ≤ value ∧ value ≤ 1
    · simp [hrange]
    · rw [and_comm]
      simp only [le_exact, ofInt_exact, Int.cast_zero, Int.cast_one, ← Bool.decide_and, hrange, decide_false,
        Bool.not_false, if_true, and_false, reduceCtorEq]

/-- What a parameter set that is accepted keeps to, as far as the gates need it. -/
private theorem validate_ok (h : s.validate_params = .ok ()) : 0 ≤ s.w_t ∧ 0 < s.tau_s := by
  unfold AdditiveScorer.validate_params at h
  rcases hrange : check_range [("w_t", s.w_t), ("w_a", s.w_a), ("w_e", s.w_e), ("threshold", s.threshold)] with e | u
  · rw [hrange] at h
    cases h
  · rw [hrange] at h
    have hw := ((check_range_ok _).mp hrange ("w_t", s.w_t) List.mem_cons_self).1
    refine ⟨hw, ?_⟩
    by_contra htau
    have hlow : ¬ (1 : ℝ) ≤ s.tau_s := fun hone => htau (lt_of_lt_of_le one_pos hone)
    simp [MIN_TAU_S, hlow, bind, Except.bind, throw, throwThe, MonadExceptOf.throw] at h

private theorem decay_le_one (htau : 0 < s.tau_s) (d : ℝ) : Real.exp (-|d| / s.tau_s) ≤ 1 :=
  Real.exp_le_one_iff.mpr (div_nonpos_of_nonpos_of_nonneg (neg_nonpos.mpr (abs_nonneg d)) htau.le)

/-- Without a learned relationship only the temporal term is left. -/
private theorem score_unrelated {f : Features ℝ} (h : unrelated_elements f = true) :
    (s.score f).score = s.w_t * Real.exp (-|f.delta_t_s| / s.tau_s) := by
  have hzero : f.entity_affinity = 0 := by
    have hboth : f.entity_affinity ≤ 0 ∧ 0 ≤ f.entity_affinity := by
      simp only [unrelated_elements, Bool.and_eq_true, le_exact, ofInt_exact, decide_eq_true_eq, Int.cast_zero] at h
      exact ⟨h.1.2, h.2⟩
    exact le_antisymm hboth.1 hboth.2
  simp [AdditiveScorer.score, h, hzero]

private theorem score_linked (f : Features ℝ) : (s.score f).linked = decide (s.threshold < (s.score f).score) := rfl

end Bounds

/-- For a parameter set that is accepted the gates hold if and only if time alone cannot reach the threshold. -/
theorem gate_sound_iff (s : AdditiveScorer ℝ) (h : s.validate_params = .ok ()) : GateSound s ↔ s.w_t ≤ s.threshold := by
  obtain ⟨hw, htau⟩ := validate_ok h
  constructor
  · intro hsound
    by_contra hlt
    -- two alarms of one moment, on two elements that nothing connects
    have hpair : unrelated_elements (⟨⟨0, 0, 0, none⟩, 0, 1⟩ : Features ℝ) = true := by simp [unrelated_elements]
    have hscore : (s.score ⟨⟨0, 0, 0, none⟩, 0, 1⟩).score = s.w_t := by
      rw [score_unrelated hpair]
      simp
    have hlinked := hsound.apart _ hpair
    rw [score_linked, hscore] at hlinked
    exact hlt (not_lt.mp (of_decide_eq_false hlinked))
  · intro hle
    refine ⟨fun f hf => ?_, fun f => ⟨?_, rfl⟩, fun f later hlater => ?_⟩
    · rw [score_linked, score_unrelated hf, decide_eq_false_iff_not, not_lt]
      exact (mul_le_of_le_one_right hw (decay_le_one htau _)).trans hle
    · simp [AdditiveScorer.score, add_assoc]
    · have hdecay : Real.exp (-|later| / s.tau_s) ≤ Real.exp (-|f.delta_t_s| / s.tau_s) :=
        Real.exp_le_exp.mpr (div_le_div_of_nonneg_right (neg_le_neg hlater) htau.le)
      have hterm := mul_le_mul_of_nonneg_left hdecay hw
      exact add_le_add_left (add_le_add_left hterm _) _

/-- The coded defaults are accepted, and keep time below the threshold. -/
theorem gate_sound_defaults : GateSound (default_scorer : AdditiveScorer ℝ) := by
  refine (gate_sound_iff default_scorer ?_).mpr ?_
  · simp [default_scorer, AdditiveScorer.validate_params, check_range, cents, MIN_TAU_S, MAX_TAU_S, MIN_WEIGHT_SUM,
      MIN_THRESHOLD, THRESHOLD_MARGIN, bind, Except.bind]
    norm_num
    rfl
  · simp [default_scorer, cents]
    norm_num

/-- A set that is accepted and whose weight on time exceeds the threshold: alarms of one moment link whatever
elements they are on. -/
theorem time_alone_links : ¬ ∀ s : AdditiveScorer ℝ, s.validate_params = .ok () → GateSound s := by
  intro hall
  have hok : (⟨1 / 2, 3 / 10, 1 / 5, 60, 2 / 5, "additive", "1.0"⟩ : AdditiveScorer ℝ).validate_params = .ok () := by
    simp [AdditiveScorer.validate_params, check_range, cents, MIN_TAU_S, MAX_TAU_S, MIN_WEIGHT_SUM, MIN_THRESHOLD,
      THRESHOLD_MARGIN, bind, Except.bind]
    norm_num
    rfl
  have hlinked := (hall _ hok).apart ⟨⟨0, 0, 0, none⟩, 0, 1⟩ (by simp [unrelated_elements])
  simp [AdditiveScorer.score, unrelated_elements] at hlinked
  norm_num at hlinked

/-! The what-if's formula -/

/-- The parameters of a what-if, and a pair as it builds them. -/
def previewed (s : Correlate.Recall.AdditiveScorer ℝ) : AdditiveScorer ℝ :=
  ⟨s.w_t, s.w_a, s.w_e, s.tau_s, s.threshold, "additive", "1.0"⟩

noncomputable def previewed_pair (f : Correlate.Recall.LinkFeatures ℝ) : Features ℝ :=
  ⟨⟨f.delta_t_s, f.class_affinity, f.entity_affinity, f.same_oid_root⟩, f.ne_i, f.ne_j⟩

/-- A what-if scores a pair as this formula does. -/
theorem previewed_score (s : Correlate.Recall.AdditiveScorer ℝ) (f : Correlate.Recall.LinkFeatures ℝ) :
    ((previewed s).score (previewed_pair f)).toLinkScore = ⟨(s.score Real.exp f).linked, (s.score Real.exp f).score⟩ := by
  have hunrelated : unrelated_elements (previewed_pair f) = Correlate.Recall.unrelated_elements f := by
    by_cases h : f.entity_affinity = 0
    · simp [unrelated_elements, Correlate.Recall.unrelated_elements, previewed_pair, h]
    · have hnot : ¬ (f.entity_affinity ≤ 0 ∧ 0 ≤ f.entity_affinity) := fun hboth => h (le_antisymm hboth.1 hboth.2)
      simp only [unrelated_elements, Correlate.Recall.unrelated_elements, previewed_pair, le_exact, ofInt_exact, Int.cast_zero,
        Bool.and_assoc, ← Bool.decide_and, hnot, h, decide_false, Bool.and_false]
  have hcross : cross_subtree_elements (previewed_pair f) = Correlate.Recall.cross_subtree_elements f := rfl
  simp only [AdditiveScorer.score, hunrelated, hcross]
  simp [Correlate.Recall.AdditiveScorer.score, Correlate.Recall.AdditiveScorer.total, previewed, previewed_pair]

/-- It accepts the same parameters. -/
theorem previewed_validate (s : Correlate.Recall.AdditiveScorer ℝ) :
    (previewed s).validate_params = .ok () ↔ s.validate_params = .ok () := by
  unfold AdditiveScorer.validate_params Correlate.Recall.AdditiveScorer.validate_params
  rcases hrange : check_range [("w_t", s.w_t), ("w_a", s.w_a), ("w_e", s.w_e), ("threshold", s.threshold)] with e | u
  · have hfind : [("w_t", s.w_t), ("w_a", s.w_a), ("w_e", s.w_e), ("threshold", s.threshold)].find? (fun p =>
        !(0 ≤ p.2 && p.2 ≤ 1)) ≠ none := fun hnone => by
      rw [(check_range_ok _).mpr fun p hp => by simpa using List.find?_eq_none.mp hnone p hp] at hrange
      cases hrange
    obtain ⟨p, hp⟩ := Option.ne_none_iff_exists'.mp hfind
    simp only [previewed, hrange, hp]
    exact iff_of_false (fun h => by cases h) fun h => by cases h
  · have hfind : [("w_t", s.w_t), ("w_a", s.w_a), ("w_e", s.w_e), ("threshold", s.threshold)].find? (fun p =>
        !(0 ≤ p.2 && p.2 ≤ 1)) = none :=
      List.find?_eq_none.mpr fun p hp => by simpa using (check_range_ok _).mp hrange p hp
    simp only [previewed, hrange, hfind]
    have htenth : (10 : ℝ) / 100 = 10⁻¹ := by norm_num
    by_cases hlow : 1 ≤ s.tau_s <;> by_cases hhigh : s.tau_s ≤ 3600 <;>
      simp [MIN_TAU_S, MAX_TAU_S, MIN_WEIGHT_SUM, MIN_THRESHOLD, THRESHOLD_MARGIN, cents, Correlate.Recall.MIN_TAU_S,
        Correlate.Recall.MAX_TAU_S, Correlate.Recall.MIN_WEIGHT_SUM, Correlate.Recall.MIN_THRESHOLD, htenth, hlow, hhigh,
        Correlate.Recall.THRESHOLD_MARGIN, bind, Except.bind, throw, throwThe, MonadExceptOf.throw, pure, Except.pure]
    split_ifs <;> simp_all

end NetCoreNoc.Operate.Formula
