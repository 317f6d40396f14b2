import Mathlib

/-! The least of a list in its order of a key, as the list grows at its end. -/
namespace NetCoreNoc.Earliest
variable {α κ : Type} [LinearOrder κ] (key : α → κ)

/-- The list in the order of its keys; those of one key stay as they were. -/
def ordered (l : List α) : List α := l.insertionSort fun a b => key a ≤ key b

theorem ordered_perm (l : List α) : (ordered key l).Perm l := List.perm_insertionSort _ l

theorem ordered_pairwise (l : List α) : (ordered key l).Pairwise fun a b => key a ≤ key b := by
  have htotal : Std.Total fun a b : α => key a ≤ key b := ⟨fun a b => le_total (key a) (key b)⟩
  have htrans : IsTrans α fun a b : α => key a ≤ key b := ⟨fun _ _ _ => le_trans⟩
  exact List.pairwise_insertionSort _ l

/-- Two arrangements of one list are ordered alike, where a key has one entry. -/
theorem ordered_eq {l m : List α} (hkey : ∀ a ∈ l, ∀ b ∈ l, key a = key b → a = b) (h : l.Perm m) :
    ordered key l = ordered key m := by
  have hperm : (ordered key l).Perm (ordered key m) :=
    (ordered_perm key l).trans (h.trans (ordered_perm key m).symm)
  refine List.Perm.eq_of_pairwise (fun a b ha hb hab hba => ?_) (ordered_pairwise key l) (ordered_pairwise key m) hperm
  exact hkey a ((ordered_perm key l).mem_iff.mp ha) b
    (h.mem_iff.mpr ((ordered_perm key m).mem_iff.mp hb)) (le_antisymm hab hba)

theorem map_ordered {β : Type} (f : β → α) (l : List β) :
    (ordered (fun b => key (f b)) l).map f = ordered key (l.map f) :=
  List.map_insertionSort _ _ f l fun _ _ _ _ => Iff.rfl

/-- Behind all that have its key or a lower one. -/
def insort_right (a : α) : List α → List α
  | [] => [a]
  | b :: l => if key b ≤ key a then b :: insort_right a l else a :: b :: l

private theorem orderedInsert_insort (x a : α) (l : List α) :
    (insort_right key a l).orderedInsert (fun a b => key a ≤ key b) x =
      insort_right key a (l.orderedInsert (fun a b => key a ≤ key b) x) := by
  induction l with
  | nil =>
    by_cases h : key x ≤ key a <;> simp [insort_right, h]
  | cons b l ih =>
    by_cases hba : key b ≤ key a
    · by_cases hxb : key x ≤ key b
      · simp [insort_right, hba, hxb, hxb.trans hba]
      · simp [insort_right, hba, hxb, ih]
    · by_cases hxb : key x ≤ key b
      · by_cases hxa : key x ≤ key a <;> simp [insort_right, hba, hxb, hxa]
      · have hxa : ¬ key x ≤ key a := fun h => hxb (h.trans (not_le.mp hba).le)
        simp [insort_right, hba, hxb, hxa]

/-- A stable sort places what is appended behind its equals. -/
theorem ordered_append_singleton (l : List α) (a : α) :
    ordered key (l ++ [a]) = insort_right key a (ordered key l) := by
  induction l with
  | nil => rfl
  | cons x l ih =>
    have hcons (l : List α) : ordered key (x :: l) = (ordered key l).orderedInsert (fun a b => key a ≤ key b) x := rfl
    rw [List.cons_append, hcons, hcons, ih, orderedInsert_insort]

private theorem take_insort (n : ℕ) (a : α) (l : List α) :
    (insort_right key a (l.take n)).take n = (insort_right key a l).take n := by
  induction l generalizing n with
  | nil => rw [List.take_nil]
  | cons b l ih =>
    cases n with
    | zero => rfl
    | succ n =>
      rw [List.take_succ_cons, insort_right, insort_right]
      split
      · rw [List.take_succ_cons, List.take_succ_cons, ih]
      · cases n with
        | zero => rfl
        | succ n => simp [List.take_take]

/-- The first `n` of what is sorted, with what is appended placed in them one by one. -/
def keep (n : ℕ) (earliest : List α) (appended : List α) : List α :=
  appended.foldl (fun earliest a => (insort_right key a earliest).take n) earliest

theorem keep_ordered (n : ℕ) (l appended : List α) :
    keep key n ((ordered key l).take n) appended = (ordered key (l ++ appended)).take n := by
  induction appended generalizing l with
  | nil => rw [List.append_nil]; rfl
  | cons a appended ih =>
    have happend : l ++ a :: appended = l ++ [a] ++ appended := by simp
    rw [happend, ← ih, ordered_append_singleton, ← take_insort]
    rfl

/-- A turn of a search that keeps what it has unless the next is above it. -/
def better (best : κ × Option α) (a : α) : κ × Option α := if best.1 < key a then (key a, some a) else best

/-- Such a search comes to the first of the greatest, where that is above what it began with. -/
theorem foldl_better (low : κ) (l : List α) : l.foldl (better key) (low, none) =
    ((l.argmax key).filter fun a => low < key a).elim (low, none) fun a => (key a, some a) := by
  induction l using List.reverseRecOn with
  | nil => rfl
  | append_singleton l a ih =>
    rw [List.foldl_append, ih, List.argmax_concat, List.foldl_cons, List.foldl_nil, better]
    cases l.argmax key with
    | none =>
      by_cases hlow : low < key a <;> simp [Option.filter_some, hlow]
    | some b =>
      by_cases hb : low < key b
      · by_cases hba : key b < key a
        · simp [Option.filter_some, hb, hba, hb.trans hba]
        · simp [Option.filter_some, hb, hba]
      · by_cases hba : key b < key a
        · by_cases hlow : low < key a <;> simp [Option.filter_some, hb, hba, hlow]
        · have hlow : ¬ low < key a := fun h => hb (h.trans_le (not_lt.mp hba))
          simp [Option.filter_some, hb, hba, hlow]

end NetCoreNoc.Earliest
