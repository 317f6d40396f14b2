import Mathlib

/-! Runs of a labelled step relation, and the invariants that hold along them. -/
namespace NetCoreNoc.Runs
variable {σ ε : Type*}

/-- The run that a list of events drives through a step function. -/
def run (f : σ → ε → σ) (s : σ) (es : List ε) : σ := es.foldl f s

@[simp] theorem run_nil (f : σ → ε → σ) (s : σ) : run f s [] = s := rfl
@[simp] theorem run_cons (f : σ → ε → σ) (s : σ) (e : ε) (es : List ε) :
    run f s (e :: es) = run f (f s e) es := rfl

theorem run_append (f : σ → ε → σ) (s : σ) (es fs : List ε) :
    run f s (es ++ fs) = run f (run f s es) fs := List.foldl_append

/-- The events of a list all meet a condition at the state they are taken in. -/
def Meets (f : σ → ε → σ) (guard : σ → ε → Prop) : σ → List ε → Prop
  | _, [] => True
  | s, e :: es => guard s e ∧ Meets f guard (f s e) es

instance Meets.decidable (f : σ → ε → σ) (guard : σ → ε → Prop)
    [∀ s e, Decidable (guard s e)] : ∀ s es, Decidable (Meets f guard s es)
  | _, [] => .isTrue trivial
  | s, e :: es => by
    have := Meets.decidable f guard (f s e) es
    exact inferInstanceAs (Decidable (guard s e ∧ Meets f guard (f s e) es))

theorem meets_append {f : σ → ε → σ} {guard : σ → ε → Prop} (s : σ) (es fs : List ε) :
    Meets f guard s (es ++ fs) ↔ Meets f guard s es ∧ Meets f guard (run f s es) fs := by
  induction es generalizing s with
  | nil => exact (iff_of_eq (true_and _)).symm
  | cons e es ih => exact (and_congr_right fun _ => ih (f s e)).trans and_assoc.symm

/-- An invariant of the steps that meet a condition holds after a list of them. -/
theorem run_invariant {f : σ → ε → σ} {guard : σ → ε → Prop} {I : σ → Prop}
    (hs : ∀ s e, I s → guard s e → I (f s e)) (s : σ) (es : List ε)
    (h : I s) (hg : Meets f guard s es) : I (run f s es) := by
  induction es generalizing s with
  | nil => exact h
  | cons e es ih => exact ih _ (hs s e h hg.1) hg.2

/-- An invariant of every step holds after a list of them. -/
theorem run_always {f : σ → ε → σ} {I : σ → Prop} (hs : ∀ s e, I s → I (f s e)) (s : σ) (es : List ε) (h : I s) :
    I (run f s es) := by
  induction es generalizing s with
  | nil => exact h
  | cons e es ih => exact ih _ (hs s e h)

/-- Two conditions that agree where an invariant holds, the one keeping it, are met by the same lists of events. -/
theorem meets_congr {f : σ → ε → σ} {guard other : σ → ε → Prop} {I : σ → Prop}
    (hg : ∀ s e, I s → (other s e ↔ guard s e)) (hs : ∀ s e, I s → guard s e → I (f s e)) (s : σ) (es : List ε)
    (h : I s) : Meets f other s es ↔ Meets f guard s es := by
  induction es generalizing s with
  | nil => exact Iff.rfl
  | cons e es ih =>
    refine (and_congr_left' (hg s e h)).trans (and_congr_right fun he => ?_)
    exact ih (f s e) (hs s e h he)

end NetCoreNoc.Runs
