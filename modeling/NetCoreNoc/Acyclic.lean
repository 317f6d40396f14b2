import Mathlib

/-! Depth-first search for a cycle: what is done with stands in an order in which every path goes on. -/
namespace NetCoreNoc.Acyclic

variable {α : Type}

inductive Fault (α : Type) where
  | cycle (node : α)
  | missing (node : α)
  /-- The fuel ran out. -/
  | deep
  deriving DecidableEq, Repr

/-- The nodes whose visit is under way, and those whose visit is over, the last first. -/
structure Marks (α : Type) where
  opened : List α
  done : List α

variable [DecidableEq α] (graph : α → Option (List α))

def visit : ℕ → α → Marks α → Except (Fault α) (Marks α)
  | 0, _, _ => .error .deep
  | n + 1, a, m =>
    if a ∈ m.opened then .error (.cycle a)
    else if a ∈ m.done then .ok m
    else match graph a with
      | none => .error (.missing a)
      | some targets =>
        match targets.foldlM (fun m b => visit n b m) ⟨a :: m.opened, m.done⟩ with
        | .error e => .error e
        | .ok m => .ok ⟨m.opened.erase a, a :: m.done⟩

omit [DecidableEq α] in
/-- Every node's targets come behind it. -/
def Ordered : List α → Prop
  | [] => True
  | a :: l => (∃ targets, graph a = some targets ∧ targets ⊆ l) ∧ a ∉ l ∧ Ordered l

variable {graph}

section
omit [DecidableEq α]

theorem Ordered.nodup {l : List α} (h : Ordered graph l) : l.Nodup := by
  induction l with
  | nil => exact .nil
  | cons a l ih => exact List.nodup_cons.mpr ⟨h.2.1, ih h.2.2⟩

theorem Ordered.node {l : List α} (h : Ordered graph l) {a : α} (ha : a ∈ l) : (graph a).isSome := by
  induction l with
  | nil => cases ha
  | cons b l ih =>
    obtain ⟨⟨targets, hb, -⟩, -, hl⟩ := h
    rcases List.mem_cons.mp ha with rfl | ha
    · rw [hb]
      rfl
    · exact ih hl ha

end

private theorem fold_invariant {n : ℕ} {I : Marks α → Prop}
    (hvisit : ∀ b m m', visit graph n b m = .ok m' → I m → I m' ∧ m.done <:+ m'.done ∧ b ∈ m'.done) (targets : List α)
    {m m' : Marks α} (h : targets.foldlM (fun m b => visit graph n b m) m = .ok m') (hm : I m) :
    I m' ∧ m.done <:+ m'.done ∧ ∀ b ∈ targets, b ∈ m'.done := by
  induction targets generalizing m with
  | nil => exact Except.ok.inj h ▸ ⟨hm, List.suffix_rfl, nofun⟩
  | cons b l ih =>
    rw [List.foldlM_cons] at h
    rcases hb : visit graph n b m with e | k
    · rw [hb] at h
      cases h
    · rw [hb] at h
      obtain ⟨hk, hsuffix, hmem⟩ := hvisit b m k hb hm
      obtain ⟨hI, hsuffix', hall⟩ := ih h hk
      exact ⟨hI, hsuffix.trans hsuffix', List.forall_mem_cons.mpr ⟨hsuffix'.subset hmem, hall⟩⟩

/-- What holds between two visits while these are under way. -/
def Sound (graph : α → Option (List α)) (opened : List α) (m : Marks α) : Prop :=
  m.opened = opened ∧ Ordered graph m.done ∧ m.opened.Disjoint m.done

theorem visit_ok {n : ℕ} {a : α} {m m' : Marks α} (h : visit graph n a m = .ok m') (hm : Sound graph m.opened m) :
    Sound graph m.opened m' ∧ m.done <:+ m'.done ∧ a ∈ m'.done := by
  induction n generalizing a m m' with
  | zero => cases h
  | succ n ih =>
    rw [visit] at h
    split_ifs at h with hopen hdone
    · exact Except.ok.inj h ▸ ⟨hm, List.suffix_rfl, hdone⟩
    · split at h
      · cases h
      · next targets hgraph =>
        split at h
        · cases h
        · next k hk =>
          obtain rfl := Except.ok.inj h
          obtain ⟨-, hordered, hdisjoint⟩ := hm
          have hstart : Sound graph (a :: m.opened) ⟨a :: m.opened, m.done⟩ :=
            ⟨rfl, hordered, List.disjoint_cons_left.mpr ⟨hdone, hdisjoint⟩⟩
          have hstep (b : α) (j j' : Marks α) (hj : visit graph n b j = .ok j') (hs : Sound graph (a :: m.opened) j) :
              Sound graph (a :: m.opened) j' ∧ j.done <:+ j'.done ∧ b ∈ j'.done :=
            hs.1 ▸ ih hj (hs.1.symm ▸ hs)
          obtain ⟨⟨hopened, hordered, hdisjoint⟩, hsuffix, htargets⟩ := fold_invariant hstep targets hk hstart
          rw [hopened] at hdisjoint
          obtain ⟨ha, hrest⟩ := List.disjoint_cons_left.mp hdisjoint
          refine ⟨⟨?_, ⟨⟨targets, hgraph, htargets⟩, ha, hordered⟩, ?_⟩, hsuffix.trans (List.suffix_cons a k.done),
            List.mem_cons_self⟩
          · rw [hopened, List.erase_cons_head]
          · rw [hopened, List.erase_cons_head]
            exact List.disjoint_cons_right.mpr ⟨hopen, hrest⟩

/-- With fuel for every node that is not under way, only a cycle stops the search. -/
theorem visit_error {keys : List α} (hkeys : ∀ a ∈ keys, ∃ targets, graph a = some targets ∧ targets ⊆ keys) {n : ℕ}
    {a : α} {m : Marks α} {e : Fault α} (h : visit graph n a m = .error e) (ha : a ∈ keys)
    (hm : Sound graph m.opened m) (hnodup : m.opened.Nodup) (hsub : m.opened ⊆ keys) (hfuel : keys.length < n + m.opened.length) :
    ∃ b, e = .cycle b := by
  induction n generalizing a m with
  | zero =>
    have := (hnodup.subperm hsub).length_le
    omega
  | succ n ih =>
    rw [visit] at h
    split_ifs at h with hopen hdone
    · exact ⟨a, (Except.error.inj h).symm⟩
    · obtain ⟨targets, hgraph, htargets⟩ := hkeys a ha
      rw [hgraph] at h
      dsimp only at h
      split at h
      · next k hk =>
        obtain rfl := Except.error.inj h
        have hstart : Sound graph (a :: m.opened) ⟨a :: m.opened, m.done⟩ :=
          ⟨rfl, hm.2.1, List.disjoint_cons_left.mpr ⟨hdone, hm.2.2⟩⟩
        have hfold (l : List α) (hl : l ⊆ keys) (j : Marks α) (hj : Sound graph (a :: m.opened) j)
            (herr : l.foldlM (fun m b => visit graph n b m) j = .error k) : ∃ b, k = .cycle b := by
          induction l generalizing j with
          | nil => cases herr
          | cons b l ihl =>
            obtain ⟨hb, hl⟩ := List.cons_subset.mp hl
            rw [List.foldlM_cons] at herr
            rcases hv : visit graph n b j with e | i
            · rw [hv] at herr
              obtain rfl := Except.error.inj herr
              refine ih hv hb (hj.1.symm ▸ hj) (hj.1 ▸ List.nodup_cons.mpr ⟨hopen, hnodup⟩)
                (hj.1 ▸ List.cons_subset.mpr ⟨ha, hsub⟩) ?_
              rw [hj.1, List.length_cons]
              omega
            · rw [hv] at herr
              exact ihl hl i (hj.1 ▸ (visit_ok hv (hj.1.symm ▸ hj)).1) herr
        exact hfold targets htargets _ hstart hk
      · cases h

end NetCoreNoc.Acyclic
