import Mathlib

/-! What a player adds to the coalitions of a game, and the games of which one demand is made. -/
namespace NetCoreNoc.Shapley
open Finset
variable {N : Type*} [Fintype N] [DecidableEq N] {K : Type*} [Field K]

/-- The share of a coalition of `s` that another of the `n` players joins. -/
def share (K : Type*) [Field K] (n s : ℕ) : K := s.factorial * (n - s - 1).factorial / n.factorial

/-- The Shapley value of a player. -/
def worth (v : Finset N → K) (i : N) : K :=
  ∑ S with i ∉ S, share K (Fintype.card N) #S * (v (insert i S) - v S)

section Linear
variable {v w : Finset N → K} {i : N}

theorem worth_add : worth (fun S => v S + w S) i = worth v i + worth w i := by
  rw [worth, worth, worth, ← sum_add_distrib]
  refine sum_congr rfl fun S _ => ?_
  ring

theorem worth_sub : worth (fun S => v S - w S) i = worth v i - worth w i := by
  rw [worth, worth, worth, ← sum_sub_distrib]
  refine sum_congr rfl fun S _ => ?_
  ring

theorem worth_mul (c : K) : worth (fun S => c * v S) i = c * worth v i := by
  rw [worth, worth, mul_sum]
  refine sum_congr rfl fun S _ => ?_
  ring

/-- One that adds nothing is worth nothing. -/
theorem worth_dummy (h : ∀ S, v (insert i S) = v S) : worth v i = 0 :=
  sum_eq_zero fun S _ => by rw [h, sub_self, mul_zero]

theorem worth_const (c : K) : worth (fun _ => c) i = 0 := worth_dummy fun _ => rfl

theorem worth_list {ι : Type*} (l : List ι) (u : ι → Finset N → K) :
    worth (fun S => (l.map fun a => u a S).sum) i = (l.map fun a => worth (u a) i).sum := by
  induction l with
  | nil => exact worth_const 0
  | cons a l ih =>
    simp only [List.map_cons, List.sum_cons]
    rw [worth_add, ih]

/-- The names of the players do not matter. -/
theorem worth_perm (σ : Equiv.Perm N) : worth (fun S => v (S.map σ.toEmbedding)) i = worth v (σ i) := by
  rw [worth, worth]
  refine sum_equiv σ.finsetCongr (fun S => ?_) fun S _ => ?_
  · simp
  · simp only [Equiv.finsetCongr_apply, card_map, map_insert, Equiv.coe_toEmbedding]

end Linear

section Efficient
variable [CharZero K]

variable (K) in
/-- The share of an order of the players in which these come first. -/
private def front (n s : ℕ) : K := s.factorial * (n - s).factorial / n.factorial

private theorem card_mul_share (T : Finset N) :
    #T * share K (Fintype.card N) (#T - 1) = if T = ∅ then 0 else front K (Fintype.card N) #T := by
  split
  · next h => rw [h, card_empty, Nat.cast_zero, zero_mul]
  · next h =>
    obtain ⟨m, hm⟩ := Nat.exists_eq_succ_of_ne_zero (card_ne_zero.mpr (nonempty_iff_ne_empty.mpr h))
    have hrest : Fintype.card N - m - 1 = Fintype.card N - m.succ := by omega
    rw [hm, share, front, Nat.succ_sub_one, Nat.factorial_succ, hrest]
    push_cast
    ring

private theorem rest_mul_share (T : Finset N) :
    (Fintype.card N - #T : ℕ) * share K (Fintype.card N) #T =
      if T = univ then 0 else front K (Fintype.card N) #T := by
  split
  · next h => rw [h, card_univ, Nat.sub_self, Nat.cast_zero, zero_mul]
  · next h =>
    obtain ⟨i, hi⟩ := not_forall.mp fun hall => h (eq_univ_of_forall hall)
    have hlt : #T < Fintype.card N := card_lt_univ_of_notMem hi
    obtain ⟨m, hm⟩ := Nat.exists_eq_succ_of_ne_zero (Nat.sub_ne_zero_of_lt hlt)
    rw [share, front, hm, Nat.succ_sub_one, Nat.factorial_succ]
    push_cast
    ring

/-- The players are worth together what all of them make over none. -/
theorem sum_worth (v : Finset N → K) : ∑ i, worth v i = v univ - v ∅ := by
  have hin (i : N) : ∑ S with i ∉ S, share K (Fintype.card N) #S * v (insert i S) =
      ∑ T with i ∈ T, share K (Fintype.card N) (#T - 1) * v T := by
    refine sum_bij' (fun S _ => insert i S) (fun T _ => T.erase i) ?_ ?_ ?_ ?_ ?_
    · simp
    · simp
    · exact fun S hS => erase_insert (mem_filter.mp hS).2
    · exact fun T hT => insert_erase (mem_filter.mp hT).2
    · intro S hS
      rw [card_insert_of_notMem (mem_filter.mp hS).2, Nat.add_sub_cancel]
  have hjoin : ∑ i, ∑ T with i ∈ T, share K (Fintype.card N) (#T - 1) * v T =
      ∑ T : Finset N, #T * share K (Fintype.card N) (#T - 1) * v T := by
    have hswap (i : N) (T : Finset N) : i ∈ univ ∧ T ∈ univ.filter (i ∈ ·) ↔ i ∈ T ∧ T ∈ univ := by simp
    rw [sum_comm' hswap]
    refine sum_congr rfl fun T _ => ?_
    rw [sum_const, nsmul_eq_mul, mul_assoc]
  have hleave : ∑ i, ∑ S with i ∉ S, share K (Fintype.card N) #S * v S =
      ∑ T : Finset N, (Fintype.card N - #T : ℕ) * share K (Fintype.card N) #T * v T := by
    have hswap (i : N) (T : Finset N) : i ∈ univ ∧ T ∈ univ.filter (i ∉ ·) ↔ i ∈ Tᶜ ∧ T ∈ univ := by simp
    rw [sum_comm' hswap]
    refine sum_congr rfl fun T _ => ?_
    rw [sum_const, nsmul_eq_mul, card_compl, mul_assoc]
  calc ∑ i, worth v i
      = ∑ i, (∑ S with i ∉ S, share K (Fintype.card N) #S * v (insert i S) -
          ∑ S with i ∉ S, share K (Fintype.card N) #S * v S) := by
        refine sum_congr rfl fun i _ => ?_
        rw [worth, ← sum_sub_distrib]
        exact sum_congr rfl fun S _ => mul_sub _ _ _
    _ = ∑ T : Finset N, (#T * share K (Fintype.card N) (#T - 1) * v T -
          (Fintype.card N - #T : ℕ) * share K (Fintype.card N) #T * v T) := by
        rw [sum_sub_distrib, sum_congr rfl fun i _ => hin i, hjoin, hleave, ← sum_sub_distrib]
    _ = ∑ T : Finset N, ((if T = univ then v T else 0) - if T = ∅ then v T else 0) := by
        refine sum_congr rfl fun T _ => ?_
        rw [card_mul_share, rest_mul_share]
        have hfact : ((Fintype.card N).factorial : K) ≠ 0 := Nat.cast_ne_zero.mpr (Nat.factorial_ne_zero _)
        by_cases hempty : T = ∅
        · by_cases hall : T = univ
          · rw [if_pos hempty, if_pos hall, if_pos hall, if_pos hempty, sub_self, sub_self]
          · rw [if_pos hempty, if_neg hall, if_neg hall, if_pos hempty, hempty, front, card_empty, Nat.sub_zero,
              Nat.factorial_zero, Nat.cast_one, one_mul, div_self hfact, zero_mul, one_mul]
        · by_cases hall : T = univ
          · rw [if_neg hempty, if_pos hall, if_pos hall, if_neg hempty, hall, front, card_univ, Nat.sub_self,
              Nat.factorial_zero, Nat.cast_one, mul_one, div_self hfact, zero_mul, one_mul]
          · rw [if_neg hempty, if_neg hall, if_neg hall, if_neg hempty, sub_self, sub_self]
    _ = v univ - v ∅ := by
        rw [sum_sub_distrib, sum_ite_eq' univ univ v, sum_ite_eq' univ ∅ v, if_pos (mem_univ _), if_pos (mem_univ _)]

end Efficient

/-- All of `A` are in the coalition, and none of `B`. -/
def demand (K : Type*) [Field K] (A B S : Finset N) : K := if A ⊆ S ∧ Disjoint B S then 1 else 0

section Demand
variable {A B : Finset N} {i j : N}

omit [Fintype N] in
theorem demand_insert (S : Finset N) : demand K A (insert j B) S = demand K A B S - demand K (insert j A) B S := by
  simp only [demand, disjoint_insert_left, insert_subset_iff]
  by_cases hj : j ∈ S <;> by_cases hA : A ⊆ S <;> by_cases hB : Disjoint B S <;> simp [hj, hA, hB]

theorem worth_demand_of_notMem (hA : i ∉ A) (hB : i ∉ B) : worth (demand K A B) i = 0 := by
  refine worth_dummy fun S => if_congr (and_congr (subset_insert_iff_of_notMem hA) ?_) rfl rfl
  rw [disjoint_insert_right, and_iff_right hB]

variable [CharZero K]

/-- Those that all of are needed share alike. -/
theorem worth_all (hi : i ∈ A) : worth (demand K A ∅) i = 1 / #A := by
  have halike (j : N) (hj : j ∈ A) : worth (demand K A ∅) j = worth (demand K A ∅) i := by
    have hswap : (fun S : Finset N => demand K A ∅ (S.map (Equiv.swap i j).toEmbedding)) = demand K A ∅ := by
      have hA : A.map (Equiv.swap i j).toEmbedding = A := by
        ext k
        rw [mem_map_equiv, Equiv.symm_swap, Equiv.swap_apply_def]
        split_ifs with hki hkj
        · rw [hki, iff_true_intro hi, iff_true_intro hj]
        · rw [hkj, iff_true_intro hi, iff_true_intro hj]
        · rfl
      funext S
      refine if_congr (and_congr ?_ (iff_of_true (disjoint_empty_left _) (disjoint_empty_left _))) rfl rfl
      nth_rewrite 1 [← hA]
      exact map_subset_map
    rw [← Equiv.swap_apply_left i j, ← worth_perm, hswap]
  have hsum := sum_worth (demand K A ∅)
  have hA : ¬ A ⊆ ∅ := fun h => notMem_empty i (h hi)
  rw [demand, demand, if_pos ⟨subset_univ A, disjoint_empty_left _⟩, if_neg fun h => hA h.1, sub_zero,
    ← sum_subset (subset_univ A) fun j _ hj => worth_demand_of_notMem hj (notMem_empty j), sum_congr rfl halike,
    sum_const, nsmul_eq_mul] at hsum
  exact (eq_div_of_mul_eq (Nat.cast_ne_zero.mpr (card_ne_zero_of_mem hi)) ((mul_comm _ _).trans hsum))

theorem worth_demand_of_mem (hAB : Disjoint A B) (hi : i ∈ A) :
    worth (demand K A B) i = (#A - 1).factorial * (#B).factorial / (#A + #B).factorial := by
  induction B using Finset.induction_on generalizing A with
  | empty =>
    obtain ⟨a, ha⟩ := Nat.exists_eq_succ_of_ne_zero (card_ne_zero_of_mem hi)
    have hfact : (a.factorial : K) ≠ 0 := Nat.cast_ne_zero.mpr (Nat.factorial_ne_zero a)
    rw [worth_all hi, ha, card_empty, Nat.add_zero, Nat.factorial_zero, Nat.succ_sub_one, Nat.factorial_succ]
    push_cast
    field_simp
  | insert j B hj ih =>
    obtain ⟨hjA, hAB⟩ := disjoint_insert_right.mp hAB
    have hins : Disjoint (insert j A) B := disjoint_insert_left.mpr ⟨hj, hAB⟩
    obtain ⟨a, ha⟩ := Nat.exists_eq_succ_of_ne_zero (card_ne_zero_of_mem hi)
    have hfun : demand K A (insert j B) = fun S => demand K A B S - demand K (insert j A) B S := funext demand_insert
    rw [hfun, worth_sub, ih hAB hi, ih hins (mem_insert_of_mem hi), card_insert_of_notMem hjA,
      card_insert_of_notMem hj, ha, Nat.add_sub_cancel, Nat.succ_sub_one,
      show a.succ + 1 + #B = (a + 1 + #B) + 1 by omega, show a.succ + (#B + 1) = (a + 1 + #B) + 1 by omega,
      show a.succ + #B = a + 1 + #B by omega, Nat.factorial_succ (a + 1 + #B), Nat.factorial_succ #B,
      Nat.factorial_succ a]
    have hfact : ((a + 1 + #B).factorial : K) ≠ 0 := Nat.cast_ne_zero.mpr (Nat.factorial_ne_zero _)
    have hsucc : ((a + 1 + #B : ℕ) + 1 : K) ≠ 0 := Nat.cast_add_one_ne_zero _
    push_cast at hsucc ⊢
    field_simp
    ring

theorem worth_demand_of_mem_right (hAB : Disjoint A B) (hi : i ∈ B) :
    worth (demand K A B) i = -((#A).factorial * (#B - 1).factorial / (#A + #B).factorial) := by
  have hA : i ∉ A := fun h => disjoint_left.mp hAB h hi
  have hins : Disjoint (insert i A) (B.erase i) :=
    disjoint_insert_left.mpr ⟨notMem_erase i B, hAB.mono_right (erase_subset i B)⟩
  have hfun : demand K A B = fun S => demand K A (B.erase i) S - demand K (insert i A) (B.erase i) S := by
    rw [← insert_erase hi, erase_insert (notMem_erase i B)]
    exact funext demand_insert
  have hcard : #A + 1 + (#B - 1) = #A + #B := by
    have := card_pos.mpr ⟨i, hi⟩
    omega
  rw [hfun, worth_sub, worth_demand_of_notMem hA (notMem_erase i B), worth_demand_of_mem hins (mem_insert_self i A),
    card_insert_of_notMem hA, card_erase_of_mem hi, Nat.add_sub_cancel, zero_sub, hcard]

end Demand

end NetCoreNoc.Shapley
