import Mathlib

/-! The first entry of each key in a list. -/
namespace NetCoreNoc.Firsts
variable {α κ : Type} [DecidableEq κ] (key : α → κ)

def firsts : List α → List α
  | [] => []
  | a :: l => a :: (firsts l).filter (key · ≠ key a)

theorem firsts_cons (a : α) (l : List α) : firsts key (a :: l) = a :: (firsts key l).filter (key · ≠ key a) := rfl

theorem firsts_sublist : ∀ l : List α, (firsts key l).Sublist l
  | [] => .slnil
  | _ :: l => (List.filter_sublist.trans (firsts_sublist l)).cons_cons _

theorem firsts_nodup : ∀ l : List α, ((firsts key l).map key).Nodup
  | [] => .nil
  | a :: l => by
    refine List.nodup_cons.mpr ⟨?_, (firsts_nodup l).sublist (List.filter_sublist.map key)⟩
    intro h
    obtain ⟨b, hb, hkey⟩ := List.mem_map.mp h
    exact of_decide_eq_true (List.mem_filter.mp hb).2 hkey

variable {key} {l : List α} {a : α}

theorem mem_firsts : a ∈ firsts key l ↔ l.find? (key · = key a) = some a := by
  induction l with
  | nil => simp [firsts]
  | cons b l ih =>
    rw [firsts_cons, List.mem_cons, List.mem_filter, List.find?_cons, ih]
    rcases eq_or_ne (key b) (key a) with hk | hk
    · simp [hk, eq_comm]
    · have hne : a ≠ b := fun h => hk (h ▸ rfl)
      simp [hk, Ne.symm hk, hne]

variable (key) in
theorem exists_firsts (h : a ∈ l) : ∃ b ∈ firsts key l, key b = key a := by
  obtain ⟨b, hb⟩ : ∃ b, l.find? (key · = key a) = some b :=
    Option.isSome_iff_exists.mp (List.find?_isSome.mpr ⟨a, h, decide_eq_true rfl⟩)
  have hkey : key b = key a := by simpa using List.find?_some hb
  exact ⟨b, mem_firsts.mpr (by rw [hkey]; exact hb), hkey⟩

/-- A choice of keys may come before or after. -/
theorem firsts_filter_key (p : κ → Bool) : ∀ l : List α,
    firsts key (l.filter fun a => p (key a)) = (firsts key l).filter fun a => p (key a)
  | [] => rfl
  | a :: l => by
    rw [firsts_cons, List.filter_cons, List.filter_cons]
    split
    · rw [firsts_cons, firsts_filter_key p l, List.filter_filter, List.filter_filter]
      simp only [Bool.and_comm]
    · rename_i hp
      rw [firsts_filter_key p l, List.filter_filter]
      refine List.filter_congr fun b _ => ?_
      -- a chosen key is another than that of `a`
      rcases hb : p (key b) with _ | _
      · rfl
      · have hne : key b ≠ key a := fun h => hp (by rw [← h, hb])
        simp [hne]

private theorem filter_firsts (q : α → Bool) (p : κ → Bool) (h : ∀ a ∈ firsts key l, p (key a) → q a) :
    (firsts key (l.filter q)).filter (fun a => p (key a)) = (firsts key l).filter fun a => p (key a) := by
  induction l generalizing p with
  | nil => rfl
  | cons a l ih =>
    rw [firsts_cons] at h
    have hrest : ∀ b ∈ firsts key l, p (key b) → key b ≠ key a → q b := fun b hb hp hne =>
      h b (List.mem_cons_of_mem _ (List.mem_filter.mpr ⟨hb, decide_eq_true hne⟩)) hp
    rcases hp : p (key a) with _ | _
    · -- no chosen key is that of `a`
      have hdrop : ∀ k : List α, (k.filter (key · ≠ key a)).filter (fun b => p (key b)) =
          k.filter fun b => p (key b) := fun k => by
        rw [List.filter_filter]
        refine List.filter_congr fun b _ => ?_
        rcases hb : p (key b) with _ | _
        · rfl
        · exact decide_eq_true fun he => by rw [he, hp] at hb; exact nomatch hb
      have ih := ih p fun b hb hpb => hrest b hb hpb fun he => by rw [he, hp] at hpb; exact nomatch hpb
      rw [List.filter_cons]
      split
      · simp only [firsts_cons, List.filter_cons, hp, hdrop, ih, Bool.false_eq_true, if_false]
      · simp only [firsts_cons, List.filter_cons, hp, hdrop, ih, Bool.false_eq_true, if_false]
    · have ih := ih (fun k => p k && decide (k ≠ key a)) fun b hb hpb =>
        hrest b hb (Bool.and_eq_true_iff.mp hpb).1 (of_decide_eq_true (Bool.and_eq_true_iff.mp hpb).2)
      rw [List.filter_cons, if_pos (h a List.mem_cons_self hp)]
      simp only [firsts_cons, List.filter_cons, hp, if_true, List.filter_filter]
      rw [ih]

/-- What every first entry has, the others may be asked for. -/
theorem firsts_filter {q : α → Bool} (h : ∀ a ∈ firsts key l, q a) : firsts key (l.filter q) = firsts key l := by
  have := filter_firsts (l := l) q (fun _ => true) fun a ha _ => h a ha
  rwa [List.filter_true, List.filter_true] at this

end NetCoreNoc.Firsts
