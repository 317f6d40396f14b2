import Mathlib
import NetCoreNoc.Operate.League

/-! The trained models' two computations over a feature vector: the logit alone, and the logit with its terms
(`engine/model/gam.py`, `linear.py`, `trees.py`, `knn.py`). -/
namespace NetCoreNoc.Operate.Lifecycle
open Json Evaluation PyArith

/-- `xs[i]` -/
def read {α : Type} (xs : List α) (i : ℕ) : Except String α := xs[i]?.elim (.error "IndexError") .ok

/-- What a fold that reads each element comes to, from the list of what was read. -/
private theorem foldlM_mapM {α β γ ε : Type} (f : α → Except ε β) (g : γ → β → γ) (xs : List α) (z : γ) :
    (xs.foldlM (fun total x => (f x).map (g total)) z : Except ε γ) = (xs.mapM f).map fun ys => ys.foldl g z := by
  induction xs generalizing z with
  | nil => rfl
  | cons x xs ih =>
    rw [List.foldlM_cons, List.mapM_cons]
    rcases f x with e | y
    · rfl
    · refine (ih (g z y)).trans ?_
      rcases xs.mapM f with e | ys <;> rfl

variable {F : Type} [PyArith F]

/-- `bisect.bisect_right`, of edges in their order -/
def bisect_right (edges : List F) (x : F) : ℕ := (edges.takeWhile fun edge => !PyOrder.lt x edge).length

/-- `max(a, b)` -/
def pymax (a b : F) : F := if PyOrder.lt a b then b else a

/-- `min(a, b)` -/
def pymin (a b : F) : F := if PyOrder.lt b a then b else a

/-- One feature's shape function. -/
structure Shape (F : Type) where
  feature : String
  index : ℕ
  edges : List F
  scores : List F

def Shape.at_ (s : Shape F) (vector : List F) : Except String (F × F) := do
  let x ← read vector s.index
  let y ← read s.scores (bisect_right s.edges x)
  return (x, y)

def Shape.term (s : Shape F) (vector : List F) : Except String (TermContribution F) :=
  (s.at_ vector).map fun y => ⟨s.feature, ofInt 0, y.1, y.2⟩

/-- One pairwise interaction. -/
structure Interaction (F : Type) where
  features : String × String
  index : ℕ × ℕ
  edges : List F × List F
  scores : List (List F)

def Interaction.at_ (p : Interaction F) (vector : List F) : Except String F := do
  let x ← read vector p.index.1
  let y ← read vector p.index.2
  let row ← read p.scores (bisect_right p.edges.1 x)
  read row (bisect_right p.edges.2 y)

def Interaction.name (p : Interaction F) : String := p.features.1 ++ " x " ++ p.features.2

def Interaction.term (p : Interaction F) (vector : List F) : Except String (TermContribution F) :=
  (p.at_ vector).map fun y => ⟨p.name, ofInt 0, ofInt 0, y⟩

structure Gam (F : Type) where
  intercept : F
  threshold : F
  shapes : List (Shape F)
  pairs : List (Interaction F)

namespace Gam
variable (g : Gam F) (vector : List F)

/-- The hot path. -/
def logit : Except String F := do
  let total ← g.shapes.foldlM (fun total s => (s.at_ vector).map fun y => add total y.2) g.intercept
  g.pairs.foldlM (fun total p => (p.at_ vector).map fun y => add total y) total

def terms : Except String (List (TermContribution F)) := do
  let shapes ← g.shapes.mapM fun s => s.term vector
  let pairs ← g.pairs.mapM fun p => p.term vector
  return shapes ++ pairs

def explain : Except String (Verdict F) := do
  let terms ← g.terms vector
  let total := terms.foldl (fun total term => add total term.contribution) g.intercept
  return ⟨⟨PyOrder.lt g.threshold total, total⟩, g.threshold, terms⟩

end Gam

/-- One feature of a linear model: its place, its transform, its box, and its weight. -/
structure Row (F : Type) where
  feature : String
  position : ℕ
  log1p : Bool
  center : F
  scale : F
  low : F
  high : F
  weight : F

structure Linear (F : Type) where
  /-- `math.log1p` -/
  log1p : F → F
  intercept : F
  threshold : F
  rows : List (Row F)

namespace Linear
variable (m : Linear F) (vector : List F)

/-- One feature transformed, clipped to the trained box, and standardised. -/
def standardised (r : Row F) : Except String F := do
  let v ← read vector r.position
  let v := if r.log1p then m.log1p (pymax v (ofInt 0)) else v
  let v := pymin (pymax v r.low) r.high
  return div (sub v r.center) r.scale

/-- The hot path: the same in one pass, with `max` and `min` as the comparisons they make. -/
def logit : Except String F :=
  m.rows.foldlM (fun total r => do
    let v ← read vector r.position
    let v := if r.log1p then m.log1p (if PyOrder.lt v (ofInt 0) then ofInt 0 else v) else v
    let v := if PyOrder.lt v r.low then r.low else v
    let v := if PyOrder.lt r.high v then r.high else v
    return add total (mul r.weight (div (sub v r.center) r.scale))) m.intercept

def terms : Except String (List (TermContribution F)) :=
  m.rows.mapM fun r => (m.standardised vector r).map fun z => ⟨r.feature, r.weight, z, mul r.weight z⟩

def explain : Except String (Verdict F) := do
  let terms ← m.terms vector
  let total := terms.foldl (fun total term => add total term.contribution) m.intercept
  return ⟨⟨PyOrder.lt m.threshold total, total⟩, m.threshold, terms⟩

end Linear

/-- A model with a logit. Of trees and of k-NN the explanation reads the logit itself, beside terms of its own. -/
inductive Trained (F : Type) where
  | gam (g : Gam F)
  | linear (m : Linear F)
  | reading (threshold : F) (logit : List F → Except String F) (terms : List F → List (TermContribution F))

namespace Trained

def threshold : Trained F → F
  | gam g => g.threshold
  | linear m => m.threshold
  | reading threshold _ _ => threshold

def logit : Trained F → List F → Except String F
  | gam g => g.logit
  | linear m => m.logit
  | reading _ logit _ => logit

def explain : Trained F → List F → Except String (Verdict F)
  | gam g => g.explain
  | linear m => m.explain
  | reading threshold logit terms => fun vector => (logit vector).map fun total =>
    ⟨⟨PyOrder.lt threshold total, total⟩, threshold, terms vector⟩

/-- The decision of an explanation. -/
def decision (r : Verdict F) : F × F × Bool := (r.score, r.threshold, r.linked)

/-- The sum of the terms, from the intercept. -/
def total (intercept : F) (terms : List (TermContribution F)) : F :=
  terms.foldl (fun total term => add total term.contribution) intercept

private theorem gam_logit (g : Gam F) (vector : List F) : (g.terms vector).map (total g.intercept) = g.logit vector := by
  have hshapes : ∀ z, g.shapes.foldlM (fun total (s : Shape F) => (s.at_ vector).map fun y => add total y.2) z =
      (g.shapes.mapM fun s => Shape.term s vector).map (total z) := by
    intro z
    refine Eq.trans ?_ (foldlM_mapM _ (fun total (term : TermContribution F) => add total term.contribution) _ z)
    congr 1
    funext t s
    unfold Shape.term
    rcases s.at_ vector with e | y <;> rfl
  have hpairs : ∀ z, g.pairs.foldlM (fun total (p : Interaction F) => (p.at_ vector).map fun y => add total y) z =
      (g.pairs.mapM fun p => Interaction.term p vector).map (total z) := by
    intro z
    refine Eq.trans ?_ (foldlM_mapM _ (fun total (term : TermContribution F) => add total term.contribution) _ z)
    congr 1
    funext t p
    unfold Interaction.term
    rcases p.at_ vector with e | y <;> rfl
  unfold Gam.terms Gam.logit
  rw [hshapes]
  rcases g.shapes.mapM fun s => Shape.term s vector with e | shapes
  · rfl
  · refine Eq.trans ?_ (hpairs (total g.intercept shapes)).symm
    rcases g.pairs.mapM fun p => Interaction.term p vector with e | pairs
    · rfl
    · exact congrArg Except.ok List.foldl_append

private theorem linear_logit (m : Linear F) (vector : List F) :
    (m.terms vector).map (total m.intercept) = m.logit vector := by
  unfold Linear.terms Linear.logit
  refine (foldlM_mapM _ (fun total (term : TermContribution F) => add total term.contribution) m.rows m.intercept).symm.trans ?_
  congr 1
  funext t r
  unfold Linear.standardised
  rcases read vector r.position with e | v <;> rfl

/-- An explanation decides as the logit does. -/
theorem explain_logit (t : Trained F) (vector : List F) : (t.explain vector).map decision =
    (t.logit vector).map fun total => (total, t.threshold, PyOrder.lt t.threshold total) := by
  cases t with
  | gam g =>
    refine Eq.trans ?_ (congrArg _ (gam_logit g vector))
    unfold explain Gam.explain
    dsimp only
    rcases g.terms vector with e | terms <;> rfl
  | linear m =>
    refine Eq.trans ?_ (congrArg _ (linear_logit m vector))
    unfold explain Linear.explain
    dsimp only
    rcases m.terms vector with e | terms <;> rfl
  | reading threshold logit terms =>
    unfold explain Trained.logit
    dsimp only
    rcases logit vector with e | total <;> rfl

end Trained
end NetCoreNoc.Operate.Lifecycle
