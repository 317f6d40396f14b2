import Mathlib
import NetCoreNoc.Runs

/-! Where what holds after a run comes from: a step of the run that made it, and none since that ended it. What one run
does that another does beside it. -/
namespace NetCoreNoc.Runs
variable {σ ε : Type*} {f : σ → ε → σ}

theorem run_concat (s : σ) (es : List ε) (e : ε) : run f s (es ++ [e]) = f (run f s es) e := by
  rw [run_append, run_cons, run_nil]

theorem meets_concat {guard : σ → ε → Prop} {s : σ} {es : List ε} {e : ε} :
    Meets f guard s (es ++ [e]) ↔ Meets f guard s es ∧ guard (run f s es) e := by
  rw [meets_append]
  exact and_congr_right fun _ => and_iff_left trivial

/-- It is there after the run because it was there before and no step ended it, or because a step made it and none
after that ended it. -/
def Descends (f : σ → ε → σ) (there : σ → Prop) (made ended : σ → ε → Prop) (s : σ) (es : List ε) : Prop :=
  (there s ∧ Meets f (fun s e => ¬ ended s e) s es) ∨
    ∃ before e after, es = before ++ e :: after ∧ made (run f s before) e ∧
      Meets f (fun s e => ¬ ended s e) (f (run f s before) e) after

/-- A step that something is there after has made it, or found it there and not ended it. -/
theorem descends {there : σ → Prop} {made ended : σ → ε → Prop}
    (hstep : ∀ s e, there (f s e) → made s e ∨ (there s ∧ ¬ ended s e)) (s : σ) (es : List ε)
    (h : there (run f s es)) : Descends f there made ended s es := by
  induction es using List.reverseRecOn with
  | nil => exact .inl ⟨h, trivial⟩
  | append_singleton es e ih =>
    rw [run_concat] at h
    rcases hstep _ e h with hmade | ⟨hthere, hkept⟩
    · exact .inr ⟨es, e, [], rfl, hmade, trivial⟩
    · rcases ih hthere with ⟨hstart, hall⟩ | ⟨before, d, after, rfl, hmade, hall⟩
      · exact .inl ⟨hstart, meets_concat.mpr ⟨hall, hkept⟩⟩
      · refine .inr ⟨before, d, after ++ [e], by rw [List.append_assoc, List.cons_append], hmade, ?_⟩
        rw [run_append, run_cons] at hkept
        exact meets_concat.mpr ⟨hall, hkept⟩

/-- Two machines that one step keeps side by side are side by side after every run. -/
theorem run_simulates {τ : Type*} {g : τ → ε → τ} {R : σ → τ → Prop} {p : ε → Prop}
    (hstep : ∀ s t e, p e → R s t → R (f s e) (g t e)) (s : σ) (t : τ) (es : List ε) (hes : ∀ e ∈ es, p e) (h : R s t) :
    R (run f s es) (run g t es) := by
  induction es generalizing s t with
  | nil => exact h
  | cons e es ih =>
    obtain ⟨he, hes⟩ := List.forall_mem_cons.mp hes
    exact ih (f s e) (g t e) hes (hstep s t e he h)

end NetCoreNoc.Runs
