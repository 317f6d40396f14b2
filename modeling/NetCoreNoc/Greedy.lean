import Mathlib

/-! Filling a room in order, with each that still fits. -/
namespace NetCoreNoc.Greedy
variable {α : Type*} (size : α → ℕ)

/-- What is taken. -/
def fill : ℕ → List α → List α
  | _, [] => []
  | room, a :: l => if size a ≤ room then a :: fill (room - size a) l else fill room l

/-- The room that is left. -/
def left : ℕ → List α → ℕ
  | room, [] => room
  | room, a :: l => if size a ≤ room then left (room - size a) l else left room l

variable {size} {room : ℕ} {l m : List α}

theorem fill_cons (a : α) :
    fill size room (a :: l) = if size a ≤ room then a :: fill size (room - size a) l else fill size room l := rfl

theorem left_cons (a : α) :
    left size room (a :: l) = if size a ≤ room then left size (room - size a) l else left size room l := rfl

theorem fill_append : fill size room (l ++ m) = fill size room l ++ fill size (left size room l) m := by
  induction l generalizing room with
  | nil => rfl
  | cons a l ih =>
    rw [List.cons_append, fill_cons, fill_cons, left_cons]
    split
    · rw [ih, List.cons_append]
    · exact ih

theorem map_fill {β : Type*} (f : β → α) {l : List β} :
    (fill (fun b => size (f b)) room l).map f = fill size room (l.map f) := by
  induction l generalizing room with
  | nil => rfl
  | cons b l ih =>
    rw [List.map_cons, fill_cons, fill_cons]
    split
    · rw [List.map_cons, ih]
    · exact ih

theorem fill_sublist : (fill size room l).Sublist l := by
  induction l generalizing room with
  | nil => exact .slnil
  | cons a l ih =>
    rw [fill_cons]
    split
    · exact ih.cons_cons a
    · exact ih.cons a

/-- What is taken and what is left make up the room. -/
theorem sum_fill : ((fill size room l).map size).sum + left size room l = room := by
  induction l generalizing room with
  | nil => exact Nat.zero_add room
  | cons a l ih =>
    rw [fill_cons, left_cons]
    split
    · next hfits =>
      rw [List.map_cons, List.sum_cons, Nat.add_assoc, ih]
      omega
    · exact ih

theorem fill_eq_self (h : (l.map size).sum ≤ room) : fill size room l = l := by
  induction l generalizing room with
  | nil => rfl
  | cons a l ih =>
    rw [List.map_cons, List.sum_cons] at h
    rw [fill_cons, if_pos (by omega), ih (by omega)]

/-- Nothing is taken where nothing fits. -/
theorem fill_eq_nil (h : ∀ a ∈ l, room < size a) : fill size room l = [] := by
  induction l with
  | nil => rfl
  | cons a l ih =>
    obtain ⟨ha, h⟩ := List.forall_mem_cons.mp h
    rw [fill_cons, if_neg (Nat.not_le.mpr ha)]
    exact ih h

/-- Something is taken where something fits. -/
theorem exists_filled (h : ∃ a ∈ l, size a ≤ room) : ∃ a, a ∈ fill size room l := by
  induction l with
  | nil =>
    obtain ⟨a, ha, -⟩ := h
    cases ha
  | cons a l ih =>
    rw [fill_cons]
    split
    · exact ⟨a, List.mem_cons_self⟩
    · next hno =>
      refine ih ?_
      obtain ⟨b, hb, hfits⟩ := h
      rcases List.mem_cons.mp hb with rfl | hb
      · exact absurd hfits hno
      · exact ⟨b, hb, hfits⟩

/-- Of more than there is room for, something is left out. -/
theorem exists_left_out (hl : l.Nodup) (h : room < (l.map size).sum) : ∃ a ∈ l, a ∉ fill size room l := by
  by_contra hno
  push Not at hno
  have hperm : l.Subperm (fill size room l) := hl.subperm hno
  have heq : fill size room l = l := fill_sublist.eq_of_length_le hperm.length_le
  have hsum : ((fill size room l).map size).sum + left size room l = room := sum_fill
  rw [heq] at hsum
  omega

section
variable {τ : Type*} [LinearOrder τ] {label : α → τ}

theorem filter_split (h : l.Pairwise fun a b => label b ≤ label a) (t : τ) :
    l = l.filter (t ≤ label ·) ++ l.filter (label · < t) := by
  induction l with
  | nil => rfl
  | cons a l ih =>
    obtain ⟨ha, h⟩ := List.pairwise_cons.mp h
    rcases le_or_gt t (label a) with hle | hlt
    · rw [List.filter_cons_of_pos (by simpa using hle), List.filter_cons_of_neg (by simpa using hle), List.cons_append,
        ← ih h]
    · have hnil : l.filter (t ≤ label ·) = [] := List.filter_eq_nil_iff.mpr fun b hb => by
        simpa using (ha b hb).trans_lt hlt
      rw [List.filter_cons_of_neg (by simpa using hlt), List.filter_cons_of_pos (by simpa using hlt), hnil,
        List.nil_append, List.filter_eq_self.mpr fun b hb => by simpa using (ha b hb).trans_lt hlt]

/-- Filled from the newest on, a room holds none that is older than one left out, just where the ones from any instant
on that are more than it holds leave no room for an older one. -/
theorem newest_iff (hl : l.Nodup) (h : l.Pairwise fun a b => label b ≤ label a) :
    (∀ a ∈ fill size room l, ∀ b ∈ l, b ∉ fill size room l → label b ≤ label a) ↔
      ∀ t, room < ((l.filter (t ≤ label ·)).map size).sum → ∀ b ∈ l, label b < t →
        left size room (l.filter (t ≤ label ·)) < size b := by
  have hfill (t : τ) : fill size room l = fill size room (l.filter (t ≤ label ·)) ++
      fill size (left size room (l.filter (t ≤ label ·))) (l.filter (label · < t)) := by
    rw [← fill_append, ← filter_split h t]
  constructor
  · intro hnewest t hsum b hb hlt
    by_contra hfits
    obtain ⟨d, hd, hout⟩ := exists_left_out (hl.filter _) hsum
    obtain ⟨c, hc⟩ := exists_filled (l := l.filter (label · < t))
      ⟨b, List.mem_filter.mpr ⟨hb, decide_eq_true hlt⟩, not_lt.mp hfits⟩
    have hcold : label c < t := of_decide_eq_true (List.mem_filter.mp (fill_sublist.subset hc)).2
    obtain ⟨hd, hdnew⟩ := List.mem_filter.mp hd
    have hdnew : t ≤ label d := of_decide_eq_true hdnew
    have hle := hnewest c (hfill t ▸ List.mem_append_right _ hc) d hd fun hin => by
      rw [hfill t] at hin
      rcases List.mem_append.mp hin with hin | hin
      · exact hout hin
      · exact hdnew.not_gt (of_decide_eq_true (List.mem_filter.mp (fill_sublist.subset hin)).2)
    exact (hcold.trans_le hdnew).not_ge hle
  · intro hroom a ha b hb hout
    by_contra hlt
    have hnew : b ∈ l.filter (label b ≤ label ·) := List.mem_filter.mpr ⟨hb, decide_eq_true le_rfl⟩
    have hsum : room < ((l.filter (label b ≤ label ·)).map size).sum := by
      by_contra hle
      refine hout ?_
      rw [hfill (label b), fill_eq_self (not_lt.mp hle)]
      exact List.mem_append_left _ hnew
    -- then no older one is taken
    rw [hfill (label b), fill_eq_nil (l := l.filter (label · < label b)) fun c hc => ?_, List.append_nil] at ha
    · exact hlt (of_decide_eq_true (List.mem_filter.mp (fill_sublist.subset ha)).2)
    · obtain ⟨hc, hold⟩ := List.mem_filter.mp hc
      exact hroom (label b) hsum c hc (of_decide_eq_true hold)

end

end NetCoreNoc.Greedy
