import Mathlib
import NetCoreNoc.Runs
import NetCoreNoc.Correlate.Affinity

/-! Whether a pair's mass stays within the activation total that it is normalised by (`Learner` in
`engine/correlate/learn.py`, as `Engine._process` and `Engine.apply_feedback` call it). -/
namespace NetCoreNoc.Correlate

inductive LearnerOp where
  | advance_to (ts : ℚ)
  /-- `observe_activation`, and `observe_pairs` of the same activation -/
  | activation (item : Place) (others : List Place) (storm : Bool)
  | confirm (members : List Place)
  | split (members : List Place) (marked : Option (Finset Nat))

namespace Learner

def step : Learner → LearnerOp → Learner
  | l, .advance_to ts => l.advance_to ts
  | l, .activation item others storm => (l.observe_activation item).observe_pairs item others storm
  | l, .confirm members => l.learn_epoch members false
  | l, .split members marked => l.penalize members marked

/-- A confirmation credits only pairs that have room for it under the activation total. -/
def Roomy (l : Learner) : LearnerOp → Prop
  | .confirm members =>
    let weight := if STORM_ALARMS ≤ members.length then STORM_DAMPING else 1
    ∀ p ∈ combinations (members.take EPOCH_PAIR_CAP), l.A.pair_mass p.1.1 p.2.1 + weight ≤ l.A.activations ∧
      (p.1.2 ≠ p.2.2 → l.E.pair_mass p.1.2 p.2.2 + weight ≤ l.E.activations)
  | _ => True

end Learner

/-- No pair outgrows the total, and no probability that `npmi` reads exceeds one. -/
structure Matrix.Unsaturated (m : Matrix) : Prop where
  pair_mass : ∀ a b, m.pair_mass a b ≤ m.activations
  pairs : ∀ a b, m.pair_mass a b / m.activations ≤ 1
  marginals : ∀ item, m.activation item / m.activations ≤ 1

structure Learner.Unsaturated (l : Learner) : Prop where
  A : l.A.Unsaturated
  E : l.E.Unsaturated

/-- Pairs and marginals within the total. -/
structure Reference.Bounded (r : Reference) : Prop where
  total : 0 ≤ r.total
  nonneg : ∀ key, 0 ≤ r.pairs key
  pairs : ∀ key, r.pairs key ≤ r.total
  marginals : ∀ item, r.marginals item ≤ r.total

namespace Reference
variable {r : Reference} {weight factor : ℚ} {key key' : Sides} {item item' : Nat} {keys : List Sides}

theorem pairs_observe : (r.observe_pair weight key).pairs key' =
    if key' = key then r.pairs key + weight else r.pairs key' := Function.update_apply ..

theorem pairs_scale : (r.scale_pair factor key).pairs key' =
    if key' = key then r.pairs key * factor else r.pairs key' := Function.update_apply ..

theorem marginals_observe : (r.observe_occurrence item).marginals item' =
    if item' = item then r.marginals item + 1 else r.marginals item' := Function.update_apply ..

/-- Pairs that are credited once each. -/
theorem credit {w : ℚ} (hkeys : keys.Nodup) :
    (keys.foldl (·.observe_pair w ·) r).total = r.total ∧
    (keys.foldl (·.observe_pair w ·) r).marginals = r.marginals ∧
    ∀ key, (keys.foldl (·.observe_pair w ·) r).pairs key = r.pairs key + if key ∈ keys then w else 0 := by
  induction keys generalizing r with
  | nil => exact ⟨rfl, rfl, fun key => by simp⟩
  | cons head keys ih =>
    obtain ⟨hhead, hkeys⟩ := List.nodup_cons.mp hkeys
    obtain ⟨htotal, hmarginals, hpairs⟩ := ih (r := r.observe_pair w head) hkeys
    refine ⟨htotal, hmarginals, fun key => ?_⟩
    rw [List.foldl_cons, hpairs, pairs_observe]
    rcases eq_or_ne key head with rfl | hne
    · simp [hhead]
    · simp [hne]

namespace Bounded
variable (h : r.Bounded)
include h

theorem tick : r.tick.Bounded := by
  have hq : (0 : ℚ) ≤ 1 - LAMBDA := by norm_num [LAMBDA]
  exact ⟨mul_nonneg h.total hq, fun key => mul_nonneg (h.nonneg key) hq,
    fun key => mul_le_mul_of_nonneg_right (h.pairs key) hq, fun item => mul_le_mul_of_nonneg_right (h.marginals item) hq⟩

theorem advance_to (epoch : ℤ) : (r.advance_to epoch).Bounded := by
  unfold Reference.advance_to
  generalize (epoch - r.epoch).toNat = n
  induction n with
  | zero => exact h
  | succ n ih =>
    rw [Function.iterate_succ_apply']
    exact ih.tick

theorem observe_occurrence (item : Nat) : (r.observe_occurrence item).Bounded := by
  have hmore : r.total ≤ r.total + 1 := by linarith
  refine ⟨h.total.trans hmore, h.nonneg, fun key => (h.pairs key).trans hmore, fun item' => ?_⟩
  rw [marginals_observe]
  split
  · exact add_le_add_left (h.marginals item) 1
  · exact (h.marginals item').trans hmore

/-- Credited pairs stay within the total where they had room. -/
theorem credited (hkeys : keys.Nodup) (hweight : 0 ≤ weight) (hroom : ∀ key ∈ keys, r.pairs key + weight ≤ r.total) :
    (keys.foldl (·.observe_pair weight ·) r).Bounded := by
  obtain ⟨htotal, hmarginals, hpairs⟩ := credit (r := r) (w := weight) hkeys
  refine ⟨htotal ▸ h.total, fun key => ?nonneg, fun key => ?pairs, fun item => ?marginals⟩
  case nonneg =>
    rw [hpairs]
    have := h.nonneg key
    split <;> linarith
  case pairs =>
    rw [hpairs, htotal]
    split
    · exact hroom key ‹_›
    · rw [add_zero]
      exact h.pairs key
  case marginals =>
    rw [hmarginals, htotal]
    exact h.marginals item

theorem scale_pair (key : Sides) : (r.scale_pair SPLIT_PENALTY key).Bounded := by
  have hhalf (x : ℚ) (hx : 0 ≤ x) : 0 ≤ x * SPLIT_PENALTY ∧ x * SPLIT_PENALTY ≤ x := by
    unfold SPLIT_PENALTY
    constructor <;> linarith
  have hpair (key' : Sides) : 0 ≤ (r.scale_pair SPLIT_PENALTY key).pairs key' ∧
      (r.scale_pair SPLIT_PENALTY key).pairs key' ≤ r.pairs key' := by
    rw [pairs_scale]
    rcases eq_or_ne key' key with rfl | hne
    · rw [if_pos rfl]
      exact hhalf _ (h.nonneg key')
    · rw [if_neg hne]
      exact ⟨h.nonneg key', le_rfl⟩
  exact ⟨h.total, fun key' => (hpair key').1, fun key' => (hpair key').2.trans (h.pairs key'), h.marginals⟩

theorem scale_pairs (keys : List Sides) : (keys.foldl (·.scale_pair SPLIT_PENALTY ·) r).Bounded := by
  induction keys generalizing r with
  | nil => exact h
  | cons key keys ih => exact ih (h.scale_pair key)

end Bounded
end Reference

namespace Reads
variable {m : Matrix} {r : Reference} (h : Reads m r)
include h

theorem observe_pairs (weight : ℚ) (keys : List Sides) :
    Reads (keys.foldl (·.observe_pair weight ·) m) (keys.foldl (·.observe_pair weight ·) r) := by
  induction keys generalizing m r with
  | nil => exact h
  | cons key keys ih => exact ih (h.observe_pair weight key)

theorem scale_pairs (factor : ℚ) (keys : List Sides) :
    Reads (keys.foldl (·.scale_pair factor ·) m) (keys.foldl (·.scale_pair factor ·) r) := by
  induction keys generalizing m r with
  | nil => exact h
  | cons key keys ih => exact ih (h.scale_pair factor key)

end Reads

namespace Matrix
variable {m : Matrix} {weight : ℚ} {keys : List Sides}

/-- A matrix that reads as quantities within their total. -/
def Bounded (m : Matrix) : Prop := ∃ r, Reads m r ∧ r.Bounded

theorem reads_self (m : Matrix) : Reads m ⟨m.epoch, m.activations, m.mass, m.activation⟩ :=
  ⟨rfl, rfl, fun _ => rfl, fun _ => rfl⟩

namespace Bounded
variable (h : m.Bounded)
include h

theorem unsaturated : m.Unsaturated := by
  obtain ⟨r, hr, hb⟩ := h
  have hpair (a b : Nat) : m.pair_mass a b ≤ m.activations := by
    rw [hr.total]
    exact (hr.pairs (sides a b)).trans_le (hb.pairs _)
  have htotal : 0 ≤ m.activations := hr.total ▸ hb.total
  refine ⟨hpair, fun a b => div_le_one_of_le₀ (hpair a b) htotal, fun item => div_le_one_of_le₀ ?_ htotal⟩
  rw [hr.marginals, hr.total]
  exact hb.marginals item

theorem advance_to (rebased : Bool) (epoch : ℤ) : ((if rebased then m.rebase epoch else m).advance_to epoch).Bounded := by
  obtain ⟨r, hr, hb⟩ := h
  cases rebased with
  | false => exact ⟨_, hr.advance_to epoch, hb.advance_to epoch⟩
  | true =>
    have hb : Reference.Bounded { r with epoch := epoch } := ⟨hb.total, hb.nonneg, hb.pairs, hb.marginals⟩
    exact ⟨_, (hr.rebase epoch).advance_to epoch, hb.advance_to epoch⟩

/-- An activation makes room for one observation of each pair. -/
theorem activation (item : Nat) (hkeys : keys.Nodup) (hweight : 0 ≤ weight) (hone : weight ≤ 1) :
    (keys.foldl (·.observe_pair weight ·) (m.observe_occurrence item)).Bounded := by
  obtain ⟨r, hr, hb⟩ := h
  refine ⟨_, (hr.observe_occurrence item).observe_pairs weight keys,
    (hb.observe_occurrence item).credited hkeys hweight fun key _ => ?_⟩
  exact add_le_add (hb.pairs key) hone

theorem credited (hkeys : keys.Nodup) (hweight : 0 ≤ weight) (hroom : ∀ key ∈ keys, m.mass key + weight ≤ m.activations) :
    (keys.foldl (·.observe_pair weight ·) m).Bounded := by
  obtain ⟨r, hr, hb⟩ := h
  refine ⟨_, hr.observe_pairs weight keys, hb.credited hkeys hweight fun key hkey => ?_⟩
  rw [← hr.pairs, ← hr.total]
  exact hroom key hkey

theorem scale_pairs (keys : List Sides) : (keys.foldl (·.scale_pair SPLIT_PENALTY ·) m).Bounded := by
  obtain ⟨r, hr, hb⟩ := h
  exact ⟨_, hr.scale_pairs SPLIT_PENALTY keys, hb.scale_pairs keys⟩

end Bounded

/-- Pairs that are within the total after they were credited had room before. -/
theorem roomy_of_credited (hkeys : keys.Nodup) {a b : Nat} (hkey : sides a b ∈ keys)
    (h : (keys.foldl (·.observe_pair weight ·) m).Unsaturated) : m.pair_mass a b + weight ≤ m.activations := by
  have hafter := m.reads_self.observe_pairs weight keys
  obtain ⟨htotal, -, hpairs⟩ := Reference.credit (r := ⟨m.epoch, m.activations, m.mass, m.activation⟩) (w := weight) hkeys
  have hmass := (hafter.pairs (sides a b)).trans (hpairs _)
  rw [if_pos hkey] at hmass
  calc m.pair_mass a b + weight
    _ = (keys.foldl (·.observe_pair weight ·) m).pair_mass a b := hmass.symm
    _ ≤ (keys.foldl (·.observe_pair weight ·) m).activations := h.pair_mass a b
    _ = m.activations := hafter.total.trans htotal

end Matrix

namespace Learner
variable {l : Learner}

/-- Both matrices are bounded. -/
structure Bounded (l : Learner) : Prop where
  A : l.A.Bounded
  E : l.E.Bounded

private theorem sides_injective (a : Nat) : Function.Injective (sides a) := by
  have hval (b : Nat) : (sides a b).1 = (min a b, max a b) := by
    rcases le_or_gt a b with hle | hlt
    · simp [sides, hle]
    · simp [sides, not_le.mpr hlt, hlt.le]
  intro b c hsides
  obtain ⟨hmin, hmax⟩ := Prod.mk.injEq .. ▸ (hval b).symm.trans ((congrArg Subtype.val hsides).trans (hval c))
  omega

private theorem weight_bounds (storm : Prop) [Decidable storm] :
    0 ≤ (if storm then STORM_DAMPING else 1) ∧ (if storm then STORM_DAMPING else 1) ≤ 1 := by
  split <;> norm_num [STORM_DAMPING]

/-- What a confirmation leaves within the total, it had room for. -/
theorem roomy_of_unsaturated (op : LearnerOp) (h : (l.step op).Unsaturated) : l.Roomy op := by
  cases op with
  | confirm members =>
    intro p hp
    refine ⟨?classes, fun hne => ?elements⟩
    case classes =>
      apply Matrix.roomy_of_credited (List.nodup_dedup _) ?_ h.A
      exact List.mem_dedup.mpr (List.mem_map.mpr ⟨p, hp, rfl⟩)
    case elements =>
      apply Matrix.roomy_of_credited (List.nodup_dedup _) ?_ h.E
      exact List.mem_dedup.mpr (List.mem_map.mpr ⟨p, List.mem_filter.mpr ⟨hp, decide_eq_true hne⟩, rfl⟩)
  | advance_to _ | activation _ _ _ | split _ _ => trivial

theorem Bounded.step (h : l.Bounded) (op : LearnerOp) (hroom : l.Roomy op) : (l.step op).Bounded := by
  cases op with
  | advance_to ts => exact ⟨h.A.advance_to _ _, h.E.advance_to _ _⟩
  | activation item others storm =>
    obtain ⟨hweight, hone⟩ := weight_bounds (storm = true)
    have hnodup (a : Nat) (l : List Nat) : (l.dedup.map (sides a)).Nodup :=
      (List.nodup_dedup l).map (sides_injective a)
    exact ⟨h.A.activation item.1 (hnodup _ _) hweight hone, h.E.activation item.2 (hnodup _ _) hweight hone⟩
  | confirm members =>
    obtain ⟨hweight, -⟩ := weight_bounds (STORM_ALARMS ≤ members.length)
    refine ⟨h.A.credited (List.nodup_dedup _) hweight fun key hkey => ?classes,
      h.E.credited (List.nodup_dedup _) hweight fun key hkey => ?elements⟩
    case classes =>
      obtain ⟨p, hp, rfl⟩ := List.mem_map.mp (List.mem_dedup.mp hkey)
      exact (hroom p hp).1
    case elements =>
      obtain ⟨p, hp, rfl⟩ := List.mem_map.mp (List.mem_dedup.mp hkey)
      obtain ⟨hp, hne⟩ := List.mem_filter.mp hp
      exact (hroom p hp).2 (of_decide_eq_true hne)
  | split members marked => exact ⟨h.A.scale_pairs _, h.E.scale_pairs _⟩

/-- Every pair stays within the total in every state of a run exactly if each confirmation finds room for what it credits:
activations, splits and the clock need no condition. -/
theorem run_unsaturated (ops : List LearnerOp) :
    (∀ before, before <+: ops → (Runs.run step {} before).Unsaturated) ↔ Runs.Meets step Roomy {} ops := by
  have hempty : Reads {} {} :=
    ⟨rfl, Decay.worth_zero .., fun key => (Matrix.mass_eq _ key).trans rfl, fun item => (Matrix.activation_eq _ item).trans rfl⟩
  have hstart : Bounded {} := ⟨⟨_, hempty, le_rfl, fun _ => le_rfl, fun _ => le_rfl, fun _ => le_rfl⟩,
    ⟨_, hempty, le_rfl, fun _ => le_rfl, fun _ => le_rfl, fun _ => le_rfl⟩⟩
  constructor
  · intro h
    induction ops using List.reverseRecOn with
    | nil => trivial
    | append_singleton ops op ih =>
      refine (Runs.meets_append ..).mpr ⟨ih fun before hbefore => h before (hbefore.trans (List.prefix_append ..)), ?_, trivial⟩
      have hlast := h (ops ++ [op]) List.prefix_rfl
      rw [Runs.run_append] at hlast
      exact roomy_of_unsaturated op hlast
  · rintro hmeets before ⟨after, rfl⟩
    have hbefore := ((Runs.meets_append ..).mp hmeets).1
    have hstep (l : Learner) (op : LearnerOp) (hl : l.Bounded) (hop : l.Roomy op) : (l.step op).Bounded := hl.step op hop
    have hrun := Runs.run_invariant hstep {} before hstart hbefore
    exact ⟨hrun.A.unsaturated, hrun.E.unsaturated⟩

/-- Two alarms of one class on two elements, a few seconds on either side of the hour, and their confirmation. -/
def across_the_hour : List LearnerOp :=
  [.advance_to 3599, .activation (1, 1) [] false, .advance_to 3601, .activation (1, 2) [(1, 1)] false,
    .confirm [(1, 1), (1, 2)]]

theorem confirmed_saturates : ¬ (Runs.run step {} across_the_hour).Unsaturated := by
  intro h
  have hover : ¬ (Runs.run step {} across_the_hour).A.pair_mass 1 1 ≤ (Runs.run step {} across_the_hour).A.activations := by
    decide +kernel
  exact hover (h.A.pair_mass 1 1)

end Learner
end NetCoreNoc.Correlate
