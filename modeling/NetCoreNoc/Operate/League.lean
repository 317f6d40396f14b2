import Mathlib
import NetCoreNoc.Evaluation.Challenger

/-! The scorers a build can run, and the league of models with the judge's choice of the one that decides
(`scoring.py`, `league.py`, `league_judge.py`). -/
namespace NetCoreNoc.Operate.Lifecycle
open Json Evaluation PyArith

/-- What the scorers of a build read of a pair. -/
structure Features (F : Type) extends Evaluation.LinkFeatures F where
  ne_i : Nat
  ne_j : Nat

structure TermContribution (F : Type) where
  name : String
  weight : F
  value : F
  contribution : F

/-- A verdict with its terms. -/
structure Verdict (F : Type) extends LinkScore F where
  threshold : F
  terms : List (TermContribution F)

/-- What a call of a scorer comes to: an exception, something that is no `LinkScore`, or a verdict. -/
inductive Answer (F : Type) where
  | raised (exception : String)
  | other (type : String)
  | scored (result : Verdict F)

/-- A scorer; a trained model has a logit over the feature vector. -/
structure LinkScorer (F : Type) where
  scorer_id : String
  score : Features F → Answer F
  threshold : F
  logit : Option (List F → Except String F) := none

section Additive
variable {F : Type} [PyArith F]

/-- Different elements, and different enterprise subtrees. -/
def cross_subtree_elements (f : Features F) : Bool := f.same_oid_root = some false && f.ne_i ≠ f.ne_j

/-- Different elements, and nothing learned about the two. -/
def unrelated_elements (f : Features F) : Bool :=
  f.ne_i ≠ f.ne_j && le f.entity_affinity (ofInt 0) && le (ofInt 0) f.entity_affinity

structure AdditiveScorer (F : Type) where
  w_t : F
  w_a : F
  w_e : F
  tau_s : F
  threshold : F
  scorer_id : String := "additive"
  contract_version : String := "1.0"

/-- A literal of two decimals. -/
def cents (n : ℤ) : F := div (ofInt n) (ofInt 100)

def MIN_TAU_S : F := ofInt 1
def MAX_TAU_S : F := ofInt 3600
def MIN_WEIGHT_SUM : F := cents 10
def MIN_THRESHOLD : F := cents 1
def THRESHOLD_MARGIN : F := cents 1

/-- Why a stored configuration is refused: a parameter with its value, or the contract's version. -/
inductive Rejection (F : Type) where
  | infinite (name : String) (value : F)
  | range (name : String) (value : F)
  | tau_s (value : F)
  | weight_sum (value : F)
  | threshold (value : F)
  | headroom (threshold weight_sum : F)
  | unsupported (version : String)
  | malformed (version : String)

/-- The loop of `validate_params` over the four that lie between 0 and 1. -/
def check_range : List (String × F) → Except (Rejection F) Unit
  | [] => .ok ()
  | (name, value) :: rest =>
    if !PyFloat.isfinite value then .error (.infinite name value)
    else if !(le (ofInt 0) value && le value (ofInt 1)) then .error (.range name value)
    else check_range rest

/-- `validate_params` -/
def AdditiveScorer.validate_params (s : AdditiveScorer F) : Except (Rejection F) Unit := do
  check_range [("w_t", s.w_t), ("w_a", s.w_a), ("w_e", s.w_e), ("threshold", s.threshold)]
  if !PyFloat.isfinite s.tau_s then throw (.infinite "tau_s" s.tau_s)
  if !(le MIN_TAU_S s.tau_s && le s.tau_s MAX_TAU_S) then throw (.tau_s s.tau_s)
  let weight_sum := add (add s.w_t s.w_a) s.w_e
  if PyOrder.lt weight_sum MIN_WEIGHT_SUM then throw (.weight_sum weight_sum)
  if PyOrder.lt s.threshold MIN_THRESHOLD then throw (.threshold s.threshold)
  if PyOrder.lt (sub weight_sum THRESHOLD_MARGIN) s.threshold then throw (.headroom s.threshold weight_sum)

def AdditiveScorer.score (s : AdditiveScorer F) (f : Features F) : Verdict F :=
  let decay := exp (div (neg (PyArith.abs f.delta_t_s)) s.tau_s)
  let entity_affinity := if cross_subtree_elements f then ofInt 0 else f.entity_affinity
  let class_affinity := if unrelated_elements f then ofInt 0 else f.class_affinity
  let term_t := mul s.w_t decay
  let term_a := mul s.w_a class_affinity
  let term_e := mul s.w_e entity_affinity
  let total := add (add term_t term_a) term_e
  ⟨⟨PyOrder.lt s.threshold total, total⟩, s.threshold,
    [⟨"temporal", s.w_t, decay, term_t⟩, ⟨"class_affinity", s.w_a, class_affinity, term_a⟩,
      ⟨"entity_affinity", s.w_e, entity_affinity, term_e⟩]⟩

def AdditiveScorer.scorer (s : AdditiveScorer F) : LinkScorer F :=
  ⟨s.scorer_id, fun f => .scored (s.score f), s.threshold, none⟩

/-- `default_scorer` -/
def default_scorer : AdditiveScorer F := ⟨cents 30, cents 35, cents 35, ofInt 30, cents 50, "additive", "1.0"⟩

end Additive

inductive Kind where
  | gam
  | boosted_trees
  | random_forest
  | decision_tree
  | logistic_regression
  | xgboost
  | knn
  deriving DecidableEq, Repr

def Kind.text : Kind → String
  | .gam => "gam"
  | .boosted_trees => "boosted_trees"
  | .random_forest => "random_forest"
  | .decision_tree => "decision_tree"
  | .logistic_regression => "logistic_regression"
  | .xgboost => "xgboost"
  | .knn => "knn"

inductive Origin where
  | pretrained
  | site
  deriving DecidableEq, Repr

structure Member (F : Type) where
  kind : Kind
  sha256 : String
  scorer : LinkScorer F
  origin : Origin := .pretrained

variable {F : Type}

/-- How a decision names the model: its kind, and the first twelve digits of its hash. -/
def Member.ref (m : Member F) : String :=
  (match m.origin with
    | .pretrained => m.kind.text
    | .site => "site-" ++ m.kind.text) ++ ":" ++ String.ofList (m.sha256.toList.take 12)

structure League (F : Type) where
  members : List (Member F)
  /-- a kind that was refused, and why -/
  refused : List (String × String) := []

namespace League
variable (l : League F)

def by_ref (ref : String) : Option (Member F) := l.members.find? (·.ref = ref)

def with_member (m : Member F) : League F := ⟨l.members ++ [m], l.refused⟩

theorem by_ref_mem {m : Member F} (h : m ∈ l.members) : ∃ x, l.by_ref m.ref = some x := by
  have hsome : (l.by_ref m.ref).isSome := by
    rw [by_ref, List.find?_isSome]
    exact ⟨m, h, decide_eq_true rfl⟩
  exact Option.isSome_iff_exists.mp hsome

end League

def LATENCY_BUDGET_US : ℚ := 150

/-- `latency_us`, by a member's name. -/
abbrev Latencies := List (String × ℚ)

def over_budget (latency_us : Latencies) (ref : String) : Bool :=
  match latency_us.lookup ref with
  | some us => LATENCY_BUDGET_US < us
  | none => false

/-- Whether one was measured as faster than another; one that was not measured is the slowest. -/
def faster (latency_us : Latencies) (m best : Member F) : Bool :=
  match latency_us.lookup m.ref, latency_us.lookup best.ref with
  | some x, some y => x < y
  | some _, none => true
  | none, _ => false

/-- `min` of the latencies: the first of the fastest. -/
def fastest (latency_us : Latencies) (m : Member F) (ms : List (Member F)) : Member F :=
  ms.foldl (fun best m => if faster latency_us m best then m else best) m

theorem fastest_mem (latency_us : Latencies) (m : Member F) (ms : List (Member F)) :
    fastest latency_us m ms ∈ m :: ms := by
  induction ms generalizing m with
  | nil => exact List.mem_singleton.mpr rfl
  | cons x ms ih =>
    have hstep : fastest latency_us m (x :: ms) =
        fastest latency_us (if faster latency_us x m then x else m) ms := rfl
    rw [hstep]
    split
    · exact List.mem_cons_of_mem _ (ih x)
    · rcases List.mem_cons.mp (ih m) with h | h
      · exact List.mem_cons.mpr (.inl h)
      · exact List.mem_cons_of_mem _ (List.mem_cons_of_mem _ h)

/-- The members within the latency budget, in the offline order. -/
def candidates (before : Member F → Member F → Bool) (l : League F) (latency_us : Latencies) : List (Member F) :=
  ((l.members.mergeSort before).filter fun m => !over_budget latency_us m.ref).filterMap fun m => l.by_ref m.ref

/-- `choose`, where no label of the site is compared: the champion's name. `before` is the offline order. -/
def choose (before : Member F → Member F → Bool) (l : League F) (current pinned : Option String)
    (latency_us : Latencies) : Option String :=
  match l.members with
  | [] => none
  | m :: ms =>
    match pinned.bind l.by_ref with
    | some _ => pinned
    | none =>
      match candidates before l latency_us with
      | [] => some (fastest latency_us m ms).ref
      | first :: rest => some (((first :: rest).find? fun m => current = some m.ref).getD first).ref

private theorem find_getD_mem (p : Member F → Bool) (first : Member F) (rest : List (Member F)) :
    ((first :: rest).find? p).getD first ∈ first :: rest := by
  rcases hf : (first :: rest).find? p with - | x
  · exact List.mem_cons_self
  · exact List.mem_of_find?_eq_some hf

/-- A league that is not empty always yields a champion. -/
theorem choose_mem (before : Member F → Member F → Bool) {l : League F} (h : l.members ≠ [])
    (current pinned : Option String) (latency_us : Latencies) :
    ∃ champion, (choose before l current pinned latency_us).bind l.by_ref = some champion := by
  obtain ⟨m, ms, hms⟩ := List.exists_cons_of_ne_nil h
  rw [choose]
  simp only [hms]
  rcases hp : pinned.bind l.by_ref with - | champion
  · rcases hc : candidates before l latency_us with - | ⟨first, rest⟩
    · exact l.by_ref_mem (hms ▸ fastest_mem latency_us m ms)
    · have hmem : ∀ x ∈ first :: rest, x ∈ l.members := by
        intro x hx
        rw [← hc, candidates, List.mem_filterMap] at hx
        obtain ⟨_, -, hx⟩ := hx
        exact List.mem_of_find?_eq_some hx
      exact l.by_ref_mem (hmem _ (find_getD_mem _ first rest))
  · exact ⟨champion, hp⟩

end NetCoreNoc.Operate.Lifecycle
