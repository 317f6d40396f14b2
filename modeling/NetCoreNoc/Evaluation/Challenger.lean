import Mathlib
import NetCoreNoc.Json.Halves

/-! The challenger of shadow mode: a logistic scorer, its coefficients as a run records them, and its opinion
made again from the features that were stored (`challenger.py`, `shadow_eval.py`). -/
namespace NetCoreNoc.Evaluation
open Json

/-- Arithmetic of a Python's floats. -/
class PyArith (F : Type) extends PyFloat F, PyOrder F where
  add : F → F → F
  sub : F → F → F
  mul : F → F → F
  div : F → F → F
  neg : F → F
  abs : F → F
  /-- `math.exp` -/
  exp : F → F
  le : F → F → Bool
  /-- `float` of an integer -/
  ofInt : ℤ → F
  /-- the nearest integer, where there is one -/
  round : F → Option ℤ

section
variable (F : Type)

/-- What the challenger reads of a pair's features, and the relation of the two enterprise roots, where it is known. -/
structure LinkFeatures where
  delta_t_s : F
  class_affinity : F
  entity_affinity : F
  same_oid_root : Option Bool
  deriving DecidableEq, Repr

structure LinkScore where
  linked : Bool
  score : F
  deriving DecidableEq, Repr

structure Coefficients where
  intercept : F
  decay : F
  class_affinity : F
  entity_affinity : F
  deriving DecidableEq, Repr

end

variable {F : Type} [PyArith F]
open PyArith

def TAU0_S : F := ofInt 30
def LOGIT_CLAMP : F := ofInt 700

/-- The link function, of a logit that is clamped first. -/
def sigmoid (logit : F) : F :=
  let low := if PyOrder.lt logit (LOGIT_CLAMP : F) then logit else LOGIT_CLAMP
  let clamped := if PyOrder.lt (neg (LOGIT_CLAMP : F)) low then low else neg LOGIT_CLAMP
  if le (ofInt 0) clamped then div (ofInt 1) (add (ofInt 1) (exp (neg clamped)))
  else div (exp clamped) (add (ofInt 1) (exp clamped))

def feature_vector (delta_t_s class_affinity entity_affinity : F) : List F :=
  [exp (div (neg (PyArith.abs delta_t_s)) TAU0_S), class_affinity, entity_affinity]

namespace Coefficients

/-- `Coefficients()`: nothing was fitted. -/
def untrained : Coefficients F := ⟨ofInt 0, ofInt 0, ofInt 0, ofInt 0⟩

variable (c : Coefficients F)

/-- In `FEATURE_NAMES` order. -/
def weights : List F := [c.decay, c.class_affinity, c.entity_affinity]

def as_dict : Value F :=
  .dict [(.str (lit "intercept"), .float c.intercept), (.str (lit "decay"), .float c.decay),
    (.str (lit "class_affinity"), .float c.class_affinity), (.str (lit "entity_affinity"), .float c.entity_affinity)]

def to_json : Option Str := dumps c.as_dict

/-- `float(value)`. A string that reads as a number is left out: no run records one. -/
def float_of : Doc F → Option F
  | .float x => some x
  | .int n => some (ofInt n)
  | .bool b => some (ofInt b.toNat)
  | _ => none

def from_dict (payload : Doc F) : Option (Coefficients F) := do
  let .obj l := payload | none
  let intercept ← (l.lookup (lit "intercept")).bind float_of
  let decay ← (l.lookup (lit "decay")).bind float_of
  let class_affinity ← (l.lookup (lit "class_affinity")).bind float_of
  let entity_affinity ← (l.lookup (lit "entity_affinity")).bind float_of
  return ⟨intercept, decay, class_affinity, entity_affinity⟩

/-- `LogisticScorer(c).score`: the intercept and a term a feature, added from left to right, over a threshold of 0. -/
def score (features : LinkFeatures F) : LinkScore F :=
  let values := feature_vector features.delta_t_s features.class_affinity features.entity_affinity
  let total := (c.weights.zip values).foldl (fun total t => add total (mul t.1 t.2)) c.intercept
  ⟨PyOrder.lt (ofInt 0) total, total⟩

/-- The entries in the order of their keys. -/
def doc : Doc F :=
  .obj [(lit "class_affinity", .float c.class_affinity), (lit "decay", .float c.decay),
    (lit "entity_affinity", .float c.entity_affinity), (lit "intercept", .float c.intercept)]

theorem to_json_eq : c.to_json = some (text c.doc) := by
  have hlt : lit "class_affinity" < lit "decay" ∧ lit "decay" < lit "entity_affinity" ∧
      lit "entity_affinity" < lit "intercept" := by decide +kernel
  obtain ⟨hcd, hde, hei⟩ := hlt
  have hce := hcd.trans hde
  simp [to_json, as_dict, dumps, Value.doc, entryDocs, sortKeys, insertKey, Key.lt, keyTexts, Key.text, doc, hcd,
    hde.not_gt, hce.not_gt, hei, hde.trans hei, hce.trans hei]

omit [PyArith F] in
theorem back_doc : back c.doc = c.doc := by
  have hkeys : [lit "class_affinity", lit "decay", lit "entity_affinity", lit "intercept"].map joined =
      [lit "class_affinity", lit "decay", lit "entity_affinity", lit "intercept"] := by decide +kernel
  have hne : [lit "class_affinity", lit "decay", lit "entity_affinity", lit "intercept"].Nodup := by decide +kernel
  simp only [List.map_cons, List.map_nil, List.cons.injEq, and_true] at hkeys
  obtain ⟨hc, hd, he, hi⟩ := hkeys
  rw [doc, back]
  simp only [backEntries, back, hc, hd, he, hi]
  exact congrArg Doc.obj (dict_eq hne)

variable [LawfulPyFloat F]

/-- What a run records of its coefficients is read back as they are. -/
theorem from_dict_to_json : (c.to_json.bind loads).bind from_dict = some c := by
  have hfits : Fits MAX_STR_DIGITS c.doc := by
    simp [doc, Fits, FitsEntries]
  rw [to_json_eq, Option.bind_some, loads_text hfits, back_doc]
  rfl

end Coefficients

/-- `reconstruct`: the opinion of a challenger about the features of a row. -/
def reconstruct (c : Coefficients F) (delta_t_s class_affinity entity_affinity : F) : F × Bool :=
  let verdict := c.score ⟨delta_t_s, class_affinity, entity_affinity, none⟩
  (sigmoid verdict.score, verdict.linked)

/-- Halves add, and multiply where no quarter is left; the exponential is exact at zero. -/
instance : PyArith Half where
  add
    | .half m, .half n => .half (m + n)
    | _, _ => .nan
  sub
    | .half m, .half n => .half (m - n)
    | _, _ => .nan
  mul
    | .half m, .half n => .half (m * n / 2)
    | _, _ => .nan
  div
    | .half m, .half n => if n = 0 then .nan else .half (2 * m / n)
    | _, _ => .nan
  neg
    | .half m => .half (-m)
    | _ => .nan
  abs
    | .half m => .half |m|
    | _ => .nan
  exp
    | .half m => if m = 0 then .half 2 else if m < 0 then .half 0 else .infinity
    | _ => .nan
  le
    | .half m, .half n => m ≤ n
    | _, _ => false
  ofInt n := .half (2 * n)
  round
    | .half m => some (if m % 2 = 0 then m / 2 else 2 * ((m + 1) / 4))
    | _ => none

example : sigmoid (.half 0) = Half.half 1 := by decide +kernel

end NetCoreNoc.Evaluation
