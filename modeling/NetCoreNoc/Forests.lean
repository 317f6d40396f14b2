import Mathlib

/-! Relations that no path leads around: what keeps them so, and that climbing one from a finite set comes to an
end. -/
namespace NetCoreNoc.Forests
open Relation

variable {α : Type*} {R S : α → α → Prop}

/-- No path leads back to its start. -/
def Loopless (R : α → α → Prop) : Prop := ∀ a, ¬ TransGen R a a

/-- A relation whose edges another one has, if only as paths. -/
theorem Loopless.of_paths (h : Loopless R) (hpath : ∀ a b, S a b → TransGen R a b) : Loopless S := fun a hloop =>
  h a (hloop.lift' id hpath)

private theorem through_edge {m n a b : α} (hpath : TransGen (fun x y => R x y ∨ x = n ∧ y = m) a b) :
    TransGen R a b ∨ ReflTransGen R a n ∧ ReflTransGen R m b := by
  induction hpath with
  | single h =>
    rcases h with h | ⟨rfl, rfl⟩
    · exact .inl (.single h)
    · exact .inr ⟨.refl, .refl⟩
  | tail _ h ih =>
    rcases h with h | ⟨rfl, rfl⟩
    · exact ih.imp (.tail · h) fun ⟨ha, hb⟩ => ⟨ha, hb.tail h⟩
    · exact .inr ⟨ih.elim TransGen.to_reflTransGen And.left, .refl⟩

/-- An edge to where no path leads back from. -/
theorem Loopless.link (h : Loopless R) {m n : α} (hno : ¬ ReflTransGen R m n) :
    Loopless fun x y => R x y ∨ x = n ∧ y = m := by
  intro a hloop
  rcases through_edge hloop with hloop | ⟨ha, hb⟩
  · exact h a hloop
  · exact hno (hb.trans ha)

/-- The edges leave from finitely many nodes: climbing comes to an end. -/
theorem Loopless.wellFounded (h : Loopless R) {nodes : Finset α} (hnodes : ∀ a b, R a b → a ∈ nodes) :
    WellFounded fun b a => R a b := by
  classical
  -- what is above an edge's end is above its start, and the end is not above itself
  let height : α → ℕ := fun a => if a ∈ nodes then (nodes.filter (TransGen R a)).card + 1 else 0
  refine Subrelation.wf (r := InvImage (· < ·) height) (fun {b a} hab => ?_) (InvImage.wf height wellFounded_lt)
  show height b < height a
  have ha := hnodes a b hab
  unfold height
  rw [if_pos ha]
  split
  · rename_i hb
    refine Nat.succ_lt_succ (Finset.card_lt_card ⟨fun c hc => ?_, fun hsub => ?_⟩)
    · obtain ⟨hc, hbc⟩ := Finset.mem_filter.mp hc
      exact Finset.mem_filter.mpr ⟨hc, .head hab hbc⟩
    · exact h b (Finset.mem_filter.mp (hsub (Finset.mem_filter.mpr ⟨hb, .single hab⟩))).2
  · exact Nat.succ_pos _

end NetCoreNoc.Forests
