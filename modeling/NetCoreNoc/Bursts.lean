import Mathlib

/-! Events that follow one another within a gap form a burst. -/
namespace NetCoreNoc.Bursts
variable {α : Type*}

/-- An element that is related to the last one joins the last part. -/
theorem splitBy_continued {r : α → α → Bool} {l : List α} {a last : α} (hlast : l.getLast? = some last) (hr : r last a) :
    ∃ earlier part, l.splitBy r = earlier ++ [part] ∧ part.getLast? = some last ∧
      (l ++ [a]).splitBy r = earlier ++ [part ++ [a]] := by
  rcases (l.splitBy r).eq_nil_or_concat' with hsplit | ⟨earlier, part, hsplit⟩
  · rw [List.splitBy_eq_nil.mp hsplit] at hlast
    exact absurd hlast (by simp)
  obtain ⟨hflat, hnil, hchain, hapart⟩ := List.splitBy_eq_iff.mp hsplit
  have hpart : part ≠ [] := fun h => hnil (h ▸ List.mem_append_right _ (List.mem_singleton_self _))
  have hend : part.getLast? = some last := by
    rw [hflat, List.flatten_append, List.flatten_singleton, List.getLast?_append_of_ne_nil _ hpart] at hlast
    exact hlast
  refine ⟨earlier, part, hsplit, hend, List.splitBy_eq_iff.mpr ⟨?flat, ?nonempty, ?chain, ?apart⟩⟩
  case flat => simp [hflat]
  case nonempty => simpa [List.mem_append] using fun h => hnil (List.mem_append_left _ h)
  case chain =>
    intro m hm
    rcases List.mem_append.mp hm with hm | hm
    · exact hchain m (List.mem_append_left _ hm)
    · rw [List.mem_singleton.mp hm]
      refine List.isChain_append.mpr ⟨hchain part (by simp), .singleton a, ?_⟩
      intro x hx y hy
      rw [hend] at hx
      cases hx
      cases hy
      exact hr
  case apart =>
    obtain ⟨hearlier, -, hnext⟩ := List.isChain_append.mp hapart
    refine List.isChain_append.mpr ⟨hearlier, .singleton _, fun x hx y hy => ?_⟩
    cases hy
    obtain ⟨ha, hb, hfalse⟩ := hnext x hx part rfl
    exact ⟨ha, by simp, by rwa [List.head_append_of_ne_nil hb]⟩

/-- In a chain, all but the last are followed by another. -/
theorem exists_next {R : α → α → Prop} {l : List α} (h : l.IsChain R) {a : α} (ha : a ∈ l.dropLast) : ∃ b ∈ l, R a b := by
  induction l with
  | nil => exact absurd ha List.not_mem_nil
  | cons head l ih =>
    cases l with
    | nil => exact absurd ha List.not_mem_nil
    | cons next l =>
      obtain ⟨hhead, hl⟩ := List.isChain_cons_cons.mp h
      rcases List.mem_cons.mp ha with rfl | ha
      · exact ⟨next, by simp, hhead⟩
      · obtain ⟨b, hb, hab⟩ := ih hl ha
        exact ⟨b, List.mem_cons_of_mem _ hb, hab⟩

variable [AddCommGroup α] [LinearOrder α] (gap : α)

/-- The maximal bursts of events in order. -/
def bursts (times : List α) : List (List α) := times.splitBy fun s t => t - s ≤ gap

/-- The bursts that an event now would not continue. -/
def ended (now : α) (times : List α) : List (List α) :=
  (bursts gap times).filter fun burst => burst.getLast?.all (gap < now - ·)

@[simp] theorem bursts_nil : bursts gap ([] : List α) = [] := rfl

variable {gap} {times : List α} {now : α}

/-- An event more than a gap after the last one is a burst of its own. -/
theorem bursts_opened (h : ∀ s ∈ times.getLast?, gap < now - s) :
    (bursts gap (times ++ [now])).length = (bursts gap times).length + 1 := by
  have hsplit : bursts gap (times ++ [now]) = bursts gap times ++ [[now]] :=
    List.splitBy_append_cons [] fun s hs => decide_eq_false (not_le.mpr (h s hs))
  rw [hsplit, List.length_append]
  rfl

/-- An event within a gap of the last one continues the last burst. -/
theorem bursts_continued {last : α} (hlast : times.getLast? = some last) (hgap : now - last ≤ gap) :
    (bursts gap (times ++ [now])).length = (bursts gap times).length := by
  obtain ⟨earlier, burst, hbefore, -, hafter⟩ :=
    splitBy_continued (r := fun s t => t - s ≤ gap) hlast (decide_eq_true hgap)
  unfold bursts
  rw [hbefore, hafter, List.length_append, List.length_append]
  rfl

/-- What is read in a burst is among the times. -/
private theorem mem_times {burst : List α} (hburst : burst ∈ bursts gap times) {t : α} (ht : t ∈ burst) : t ∈ times := by
  have hflat : (bursts gap times).flatten = times := List.flatten_splitBy ..
  exact hflat ▸ List.mem_flatten.mpr ⟨burst, hburst, ht⟩

/-- All bursts but the last one have ended, and the last one after the gap. -/
theorem ended_length [IsOrderedAddMonoid α] {last : α} (hlast : times.getLast? = some last) (hnow : ∀ t ∈ times, t ≤ now) :
    (ended gap now times).length = if now - last ≤ gap then (bursts gap times).length - 1 else (bursts gap times).length := by
  rcases (bursts gap times).eq_nil_or_concat' with hsplit | ⟨earlier, burst, hsplit⟩
  · rw [List.splitBy_eq_nil.mp hsplit] at hlast
    exact absurd hlast (by simp)
  have hburst : burst ∈ bursts gap times := by simp [hsplit]
  have hne : burst ≠ [] := List.ne_nil_of_mem_splitBy hburst
  have hend : burst.getLast? = some last := by
    have hflat : times = earlier.flatten ++ burst := by
      rw [← List.flatten_splitBy (fun s t => t - s ≤ gap) times]
      exact (congrArg List.flatten hsplit).trans (by simp)
    rwa [hflat, List.getLast?_append_of_ne_nil _ hne] at hlast
  have hearlier : ∀ b ∈ earlier, b.getLast?.all (gap < now - ·) := by
    intro b hb
    have hb : b ∈ (bursts gap times).dropLast := by rwa [hsplit, List.dropLast_concat]
    obtain ⟨next, hnext, hs, ht, hapart⟩ := exists_next (List.isChain_getLast_head_splitBy _ times) hb
    have hle : next.head ht ≤ now := hnow _ (mem_times hnext (List.head_mem ht))
    have hgap : gap < next.head ht - b.getLast hs := not_le.mp (of_decide_eq_false hapart)
    rw [List.getLast?_eq_getLast_of_ne_nil hs]
    exact decide_eq_true (hgap.trans_le (sub_le_sub_right hle _))
  unfold ended
  rw [hsplit, List.filter_append, List.filter_eq_self.mpr hearlier, List.filter_singleton, hend]
  rcases le_or_gt (now - last) gap with hle | hlt
  · simp [hle, not_lt.mpr hle]
  · simp [hlt, not_le.mpr hlt]

end NetCoreNoc.Bursts
