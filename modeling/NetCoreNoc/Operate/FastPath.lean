import Mathlib
import NetCoreNoc.Runs
import NetCoreNoc.Correlate.Recall
import NetCoreNoc.Operate.Trained
import NetCoreNoc.Operate.Lifecycle

/-! The scoring of one activation by a scorer that may fail at any call: the fast path, the full verdict, and the
explanations of the links that are kept (`SafeScorer`, the scoring of `Correlator.process`). -/
namespace NetCoreNoc.Operate.FastPath
open Json Evaluation PyArith Runs Lifecycle

/-- What a scorer is handed of a candidate pair. -/
structure Pair (F : Type) where
  features : Features F
  vector : List F

/-- The wrapped scorer: one without a logit, or a trained model. -/
inductive Delegate (F : Type) where
  | plain (score : Features F → Answer F)
  | trained (t : Trained F)

/-- One call of the wrapped scorer: it misbehaves, or it does its arithmetic in some time. -/
inductive Outcome where
  | fails (reason : Fault)
  | runs (elapsed : ℚ)

/-- A candidate, with what becomes of the calls that are made for it. -/
structure Candidate (F : Type) extends Pair F where
  fast : Outcome := .runs 0
  score : Outcome := .runs 0
  explain : Outcome := .runs 0

def Outcome.overrun : Outcome → Option Fault
  | fails _ => none
  | runs elapsed => Lifecycle.SafeScorer.overrun elapsed

variable {F : Type} [PyArith F]

/-- The built-in formula's verdict. -/
def fallback (p : Pair F) : Verdict F := default_scorer.score p.features

/-- A usable verdict, or what is wrong with an answer (`_contract_violation`). -/
def usable : Answer F → Except Fault (Verdict F)
  | .raised exception => .error (.raised exception)
  | .other type => .error (.other type)
  | .scored result => (Lifecycle.SafeScorer.contract_violation (.scored result)).elim (.ok result) .error

namespace Delegate
variable (d : Delegate F)

def answer (p : Pair F) : Answer F := match d with
  | plain score => score p.features
  | trained t => match t.explain p.vector with
    | .error exception => .raised exception
    | .ok result => .scored result

def logit : Option (List F → Except String F) := match d with
  | plain _ => none
  | trained t => some t.logit

def threshold : F := match d with
  | plain _ => ofInt 0
  | trained t => t.threshold

/-- What a call of `score` comes to. -/
def scores (p : Pair F) : Outcome → Except Fault (Verdict F)
  | .fails reason => .error reason
  | .runs _ => usable (d.answer p)

/-- What a call of the logit comes to. -/
def reaches (logit : List F → Except String F) (vector : List F) : Outcome → Except Fault F
  | .fails reason => .error reason
  | .runs _ => match logit vector with
    | .error exception => .error (.raised exception)
    | .ok value => if !PyFloat.isfinite value then .error .non_finite else .ok value

/-- What a call of `score` is given up for. -/
def score_fault (p : Pair F) (o : Outcome) : Option Fault := match d.scores p o with
  | .error problem => some problem
  | .ok _ => o.overrun

/-- What a call of the logit is given up for. -/
def fast_fault (c : Candidate F) : Option Fault := d.logit.bind fun logit => match reaches logit c.vector c.fast with
  | .error problem => some problem
  | .ok _ => c.fast.overrun

/-- Whether the call of the logit accepts a pair. -/
def accepts (c : Candidate F) : Bool := d.logit.any fun logit => match reaches logit c.vector c.fast with
  | .error _ => false
  | .ok value => PyOrder.lt d.threshold value

end Delegate

abbrev SafeScorer (F : Type) := Lifecycle.SafeScorer (Delegate F)

namespace SafeScorer
variable (s : SafeScorer F)

def fast_path : Bool := !s.degraded && s.delegate.logit.isSome

def score (p : Pair F) (o : Outcome) : SafeScorer F × Verdict F :=
  if s.degraded then (s, fallback p)
  else match s.delegate.scores p o with
    | .error problem => (s.degrade problem, fallback p)
    | .ok result => match o.overrun with
      -- this call succeeded; the next one uses the default
      | some problem => (s.degrade problem, result)
      | none => (s, result)

def fast (vector : List F) (o : Outcome) : SafeScorer F × Option (F × Bool) := match s.delegate.logit with
  | none => (s, none)
  | some logit =>
    if s.degraded then (s, none)
    else match Delegate.reaches logit vector o with
      | .error problem => (s.degrade problem, none)
      | .ok value =>
        let verdict := some (sub value s.delegate.threshold, PyOrder.lt s.delegate.threshold value)
        match o.overrun with
        | some problem => (s.degrade problem, verdict)
        | none => (s, verdict)

end SafeScorer

/-- A candidate pair and its verdict. -/
structure EvaluatedPair (F : Type) where
  other : Candidate F
  result : Option (Verdict F)
  margin : F
  accepted : Bool

namespace EvaluatedPair
variable (p : EvaluatedPair F)

def evidence : F := p.result.elim p.margin fun result => sub result.score result.threshold

omit [PyArith F] in
def linked : Bool := p.result.elim p.accepted (·.linked)

end EvaluatedPair

/-- One turn of the loop of `process` over its candidates. -/
def evaluate (two_stage : Bool) (s : SafeScorer F) (c : Candidate F) : SafeScorer F × EvaluatedPair F :=
  let tried := if two_stage then s.fast c.vector c.fast else (s, none)
  match tried.2 with
  | some (margin, accepted) => (tried.1, ⟨c, none, margin, accepted⟩)
  | none =>
    let scored := tried.1.score c.toPair c.score
    (scored.1, ⟨c, some scored.2, ofInt 0, false⟩)

def scan (two_stage : Bool) : SafeScorer F → List (Candidate F) → SafeScorer F × List (EvaluatedPair F)
  | s, [] => (s, [])
  | s, c :: rest =>
    let first := evaluate two_stage s c
    let others := scan two_stage first.1 rest
    (others.1, first.2 :: others.2)

/-- The strongest links. -/
def kept (evaluated : List (EvaluatedPair F)) : List (EvaluatedPair F) :=
  ((evaluated.filter (·.linked)).mergeSort fun p q => !PyOrder.lt p.evidence q.evidence).take
    Correlate.Recall.MAX_LINKS_PER_ALARM

/-- `ScoredLink(p.other, p.result or self._explain(...))`, of the links that are kept -/
def links : SafeScorer F → List (EvaluatedPair F) → SafeScorer F × List (EvaluatedPair F × Verdict F)
  | s, [] => (s, [])
  | s, p :: rest =>
    let scored := match p.result with
      | some result => (s, result)
      | none => s.score p.other.toPair p.other.explain
    let others := links scored.1 rest
    (others.1, (p, scored.2) :: others.2)

structure Outcomes (F : Type) where
  scorer : SafeScorer F
  evaluated : List (EvaluatedPair F)
  links : List (EvaluatedPair F × Verdict F)

/-- The scoring of one activation. -/
def process (s : SafeScorer F) (candidates : List (Candidate F)) : Outcomes F :=
  let scanned := scan s.fast_path s candidates
  let explained := links scanned.1 (kept scanned.2)
  ⟨explained.1, scanned.2, explained.2⟩

def step (s : SafeScorer F) (candidates : List (Candidate F)) : SafeScorer F := (process s candidates).scorer

/-- What the fast path decides is what the model's `score` says; what is kept of a link is what was decided; and
after the fallback every pair has the fallback's verdict. -/
structure Alike (s : SafeScorer F) (candidates : List (Candidate F)) : Prop where
  fast : ∀ p ∈ (process s candidates).evaluated, p.result = none → ∃ r, s.delegate.answer p.other.toPair = .scored r ∧
    r.linked = p.linked ∧ sub r.score r.threshold = p.evidence
  explained : ∀ l ∈ (process s candidates).links, l.2.linked = l.1.linked ∧ sub l.2.score l.2.threshold = l.1.evidence
  fallen : ∀ before c after, candidates = before ++ c :: after → (scan s.fast_path s before).1.degraded = true →
    ∃ p, (process s candidates).evaluated[before.length]? = some p ∧ p.other = c ∧ p.result = some (fallback c.toPair)

/-- No call of the model is given up in an activation once its logit has accepted a pair there, that call included:
either none is at all, or the first that is comes before any pair is accepted. -/
def Steady (s : SafeScorer F) (candidates : List (Candidate F)) : Prop :=
  s.degraded = true ∨
  (∀ c ∈ candidates, (s.delegate.fast_fault c).isNone = true ∧
    (s.delegate.accepts c = true → (s.delegate.score_fault c.toPair c.explain).isNone = true)) ∨
  ∀ c ∈ candidates.take ((candidates.takeWhile fun c => (s.delegate.fast_fault c).isNone).length + 1),
    s.delegate.accepts c = false

instance (s : SafeScorer F) (candidates : List (Candidate F)) : Decidable (Steady s candidates) := by
  unfold Steady
  infer_instance

section Calls
variable {s : SafeScorer F}

/-- A call of `score` that is not given up is the model's own verdict. -/
private theorem score_sound (h : s.degraded = false) {p : Pair F} {o : Outcome}
    (hf : (s.delegate.score_fault p o).isNone = true) :
    ∃ r, s.delegate.answer p = .scored r ∧ s.score p o = (s, r) := by
  unfold Delegate.score_fault at hf
  unfold SafeScorer.score
  rw [h, if_neg Bool.false_ne_true]
  rcases hs : s.delegate.scores p o with problem | r
  · rw [hs] at hf
    exact absurd hf (by simp)
  · rw [hs] at hf
    refine ⟨r, ?_, by simp only [Option.isNone_iff_eq_none.mp hf]⟩
    cases o with
    | fails reason => cases hs
    | runs elapsed =>
      unfold Delegate.scores usable at hs
      dsimp only at hs
      split at hs
      · cases hs
      · cases hs
      · rename_i answer result hresult
        cases hc : Lifecycle.SafeScorer.contract_violation (.scored result) with
        | some problem =>
          rw [hc] at hs
          cases hs
        | none =>
          rw [hc] at hs
          exact hresult.trans (congrArg Answer.scored (Except.ok.inj hs))

private theorem evaluate_degraded (h : s.degraded = true) (two_stage : Bool) (c : Candidate F) :
    evaluate two_stage s c = (s, ⟨c, some (fallback c.toPair), ofInt 0, false⟩) := by
  have hfast : s.fast c.vector c.fast = (s, none) := by
    unfold SafeScorer.fast
    rw [h]
    cases s.delegate.logit <;> rfl
  have hscore : s.score c.toPair c.score = (s, fallback c.toPair) := by
    unfold SafeScorer.score
    rw [h, if_pos rfl]
  unfold evaluate
  rw [hfast, ite_self]
  dsimp only
  rw [hscore]

private theorem reaches_ok {logit : List F → Except String F} {vector : List F} {o : Outcome} {value : F}
    (h : Delegate.reaches logit vector o = .ok value) : logit vector = .ok value := by
  cases o with
  | fails reason => cases h
  | runs elapsed =>
    unfold Delegate.reaches at h
    dsimp only at h
    split at h
    · cases h
    · rename_i v hv
      split at h
      · cases h
      · exact hv.trans (congrArg Except.ok (Except.ok.inj h))

/-- A pair without a full verdict was decided by the logit, which a degraded scorer does not ask. -/
private theorem evaluate_none {two_stage : Bool} {c : Candidate F} (h : (evaluate two_stage s c).2.result = none) :
    two_stage = true ∧ s.degraded = false ∧ ∃ logit value, s.delegate.logit = some logit ∧
      Delegate.reaches logit c.vector c.fast = .ok value ∧
      (evaluate two_stage s c).2 = ⟨c, none, sub value s.delegate.threshold, PyOrder.lt s.delegate.threshold value⟩ := by
  cases two_stage with
  | false => cases h
  | true =>
    refine ⟨rfl, ?_⟩
    unfold evaluate at h ⊢
    rw [if_pos rfl] at h ⊢
    unfold SafeScorer.fast at h ⊢
    rcases hl : s.delegate.logit with _ | logit
    · rw [hl] at h
      cases h
    · rw [hl] at h
      dsimp only at h ⊢
      cases hd : s.degraded with
      | true =>
        rw [hd, if_pos rfl] at h
        cases h
      | false =>
        rw [hd, if_neg Bool.false_ne_true] at h
        refine ⟨rfl, logit, ?_⟩
        rcases hr : Delegate.reaches logit c.vector c.fast with problem | value
        · rw [hr] at h
          cases h
        · refine ⟨value, rfl, rfl, ?_⟩
          rw [if_neg Bool.false_ne_true]
          rcases c.fast.overrun with _ | problem <;> rfl

private theorem evaluate_delegate (two_stage : Bool) (c : Candidate F) :
    (evaluate two_stage s c).1.delegate = s.delegate := by
  have hscore : ∀ t : SafeScorer F, (t.score c.toPair c.score).1.delegate = t.delegate := by
    intro t
    unfold SafeScorer.score
    repeat' split
    all_goals rfl
  have hfast : (s.fast c.vector c.fast).1.delegate = s.delegate := by
    unfold SafeScorer.fast
    repeat' split
    all_goals rfl
  unfold evaluate
  cases two_stage with
  | false => exact hscore s
  | true =>
    rw [if_pos rfl]
    dsimp only
    split
    · exact hfast
    · exact (hscore _).trans hfast

/-- A logit call that is given up degrades the scorer; one that is not leaves it as it was. -/
private theorem evaluate_fault (h : s.degraded = false) (hl : s.delegate.logit.isSome = true) (c : Candidate F) :
    if (s.delegate.fast_fault c).isNone = true then (evaluate true s c).1 = s ∧ (evaluate true s c).2.result = none
    else (evaluate true s c).1.degraded = true := by
  obtain ⟨logit, hlogit⟩ := Option.isSome_iff_exists.mp hl
  have hkeep : ∀ t : SafeScorer F, t.degraded = true → (t.score c.toPair c.score).1.degraded = true := by
    intro t ht
    unfold SafeScorer.score
    rw [if_pos ht]
    exact ht
  unfold Delegate.fast_fault evaluate SafeScorer.fast
  rw [if_pos rfl, hlogit, Option.bind_some, h]
  dsimp only
  rw [if_neg Bool.false_ne_true]
  rcases Delegate.reaches logit c.vector c.fast with problem | value
  · rw [if_neg (by simp)]
    exact hkeep _ rfl
  · dsimp only
    rcases c.fast.overrun with _ | problem
    · exact ⟨rfl, rfl⟩
    · rfl

/-- What the logit decided, as the model's own verdict on the pair says. -/
private theorem answer_logit {d : Delegate F} {logit : List F → Except String F} {p : Pair F} {value : F}
    (hl : d.logit = some logit) (hv : logit p.vector = .ok value) :
    ∃ r, d.answer p = .scored r ∧ r.linked = PyOrder.lt d.threshold value ∧
      sub r.score r.threshold = sub value d.threshold := by
  cases d with
  | plain score => cases hl
  | trained t =>
    obtain rfl := Option.some.inj hl
    have hdecision := t.explain_logit p.vector
    rw [hv] at hdecision
    rcases he : t.explain p.vector with exception | r
    · rw [he] at hdecision
      cases hdecision
    · rw [he] at hdecision
      obtain ⟨hscore, hrest⟩ := Prod.mk.inj (Except.ok.inj hdecision)
      obtain ⟨hthreshold, hlinked⟩ := Prod.mk.inj hrest
      refine ⟨r, ?_, hlinked, ?_⟩
      · unfold Delegate.answer
        dsimp only
        rw [he]
      · rw [hscore, hthreshold]
        rfl

end Calls

section Scan
variable {s : SafeScorer F}

private theorem scan_append (two_stage : Bool) (before after : List (Candidate F)) :
    scan two_stage s (before ++ after) = ((scan two_stage (scan two_stage s before).1 after).1,
      (scan two_stage s before).2 ++ (scan two_stage (scan two_stage s before).1 after).2) := by
  induction before generalizing s with
  | nil => rfl
  | cons c before ih =>
    simp only [List.cons_append, scan]
    rw [ih]

private theorem scan_length (two_stage : Bool) (candidates : List (Candidate F)) :
    (scan two_stage s candidates).2.length = candidates.length := by
  induction candidates generalizing s with
  | nil => rfl
  | cons c rest ih => exact congrArg Nat.succ ih

/-- Who is decided by the logit is decided by it as it stands; and it is no later than the first call given up. -/
private theorem scan_none (two_stage : Bool) (candidates : List (Candidate F)) :
    ∀ p ∈ (scan two_stage s candidates).2, p.result = none →
      two_stage = true ∧ s.degraded = false ∧
      p.other ∈ candidates.take ((candidates.takeWhile fun c => (s.delegate.fast_fault c).isNone).length + 1) ∧
      ∃ logit value, s.delegate.logit = some logit ∧
        Delegate.reaches logit p.other.vector p.other.fast = .ok value ∧
        p = ⟨p.other, none, sub value s.delegate.threshold, PyOrder.lt s.delegate.threshold value⟩ := by
  induction candidates generalizing s with
  | nil => exact fun p hp => absurd hp List.not_mem_nil
  | cons c rest ih =>
    intro p hp hnone
    rcases List.mem_cons.mp hp with rfl | hp
    · obtain ⟨htwo, hd, logit, value, hl, hv, heq⟩ := evaluate_none hnone
      have hother : (evaluate two_stage s c).2.other = c := by rw [heq]
      refine ⟨htwo, hd, ?_, logit, value, hl, hother.symm ▸ hv, hother.symm ▸ heq⟩
      rw [hother, List.take_succ_cons]
      exact List.mem_cons_self
    · obtain ⟨htwo, hd, hmem, logit, value, hl, hv, heq⟩ := ih p hp hnone
      rw [evaluate_delegate] at hmem hl heq
      -- the scorer was not degraded before, or it would be still
      have hs : s.degraded = false := by
        by_contra hs
        rw [evaluate_degraded (by simpa using hs)] at hd
        exact hs hd
      have hfault := evaluate_fault hs (by rw [hl]; rfl) c
      rw [htwo] at hd
      refine ⟨htwo, hs, ?_, logit, value, hl, hv, heq⟩
      split at hfault
      · rename_i hclean
        have htake : (c :: rest).takeWhile (fun c => (s.delegate.fast_fault c).isNone) =
            c :: rest.takeWhile fun c => (s.delegate.fast_fault c).isNone := by
          rw [List.takeWhile_cons, hclean]
          rfl
        rw [htake, List.length_cons, List.take_succ_cons]
        exact List.mem_cons_of_mem _ hmem
      · rw [hfault] at hd
        exact absurd hd (by simp)

/-- With no call given up the scorer stays as it is. -/
private theorem scan_clean (h : s.degraded = false) (hl : s.delegate.logit.isSome = true)
    (candidates : List (Candidate F)) (hc : ∀ c ∈ candidates, (s.delegate.fast_fault c).isNone = true) :
    (scan true s candidates).1 = s := by
  induction candidates with
  | nil => rfl
  | cons c rest ih =>
    have hfault := evaluate_fault h hl c
    rw [if_pos (hc c List.mem_cons_self)] at hfault
    unfold scan
    dsimp only
    rw [hfault.1]
    exact ih fun d hd => hc d (List.mem_cons_of_mem _ hd)

private theorem kept_subset {evaluated : List (EvaluatedPair F)} {p : EvaluatedPair F} (h : p ∈ kept evaluated) :
    p ∈ evaluated ∧ p.linked = true := by
  have := List.mem_of_mem_take h
  rw [List.mem_mergeSort] at this
  exact List.mem_filter.mp this

/-- Links whose pairs have a verdict, or get the model's own, are explained as they were decided. -/
private theorem links_explained (pairs : List (EvaluatedPair F))
    (h : ∀ p ∈ pairs, p.result = none → ∃ r, s.score p.other.toPair p.other.explain = (s, r) ∧
      r.linked = p.linked ∧ sub r.score r.threshold = p.evidence) :
    ∀ l ∈ (links s pairs).2, l.2.linked = l.1.linked ∧ sub l.2.score l.2.threshold = l.1.evidence := by
  induction pairs with
  | nil => exact fun l hl => absurd hl List.not_mem_nil
  | cons p rest ih =>
    obtain ⟨hp, hrest⟩ := List.forall_mem_cons.mp h
    unfold links
    rcases hr : p.result with _ | result
    · obtain ⟨r, hscore, hlinked, hevidence⟩ := hp hr
      dsimp only
      rw [hscore]
      exact List.forall_mem_cons.mpr ⟨⟨hlinked, hevidence⟩, ih hrest⟩
    · refine List.forall_mem_cons.mpr ⟨?_, ih hrest⟩
      simp only [EvaluatedPair.linked, EvaluatedPair.evidence, hr, Option.elim_some, and_self]

end Scan

private theorem alike_of_steady (s : SafeScorer F) (candidates : List (Candidate F)) (h : Steady s candidates) :
    Alike s candidates := by
  have hfast : ∀ p ∈ (process s candidates).evaluated, p.result = none → ∃ r,
      s.delegate.answer p.other.toPair = .scored r ∧ r.linked = p.linked ∧ sub r.score r.threshold = p.evidence := by
    intro p hp hnone
    obtain ⟨-, -, -, logit, value, hl, hv, heq⟩ := scan_none _ _ p hp hnone
    obtain ⟨r, hanswer, hlinked, hevidence⟩ := answer_logit hl (reaches_ok hv)
    refine ⟨r, hanswer, ?_, ?_⟩
    · rw [heq]
      exact hlinked
    · rw [heq]
      exact hevidence
  refine ⟨hfast, links_explained _ fun p hp hnone => ?_, fun before c after hc hd => ?_⟩
  · obtain ⟨hscanned, hlinked⟩ := kept_subset hp
    obtain ⟨htwo, hd, hmem, logit, value, hl, hv, heq⟩ := scan_none _ _ p hscanned hnone
    have haccepts : s.delegate.accepts p.other = true := by
      unfold Delegate.accepts
      rw [hl, Option.any_some, hv]
      rw [heq] at hlinked
      exact hlinked
    rcases h with hdegraded | hclean | hbefore
    · rw [hd] at hdegraded
      cases hdegraded
    · have hstill : (scan s.fast_path s candidates).1 = s := by
        rw [htwo]
        exact scan_clean hd (by rw [hl]; rfl) candidates fun c hc => (hclean c hc).1
      rw [hstill]
      obtain ⟨r, hanswer, hscore⟩ := score_sound hd ((hclean p.other (List.mem_of_mem_take hmem)).2 haccepts)
      obtain ⟨r', hanswer', hdecided⟩ := hfast p hscanned hnone
      obtain rfl : r' = r := Answer.scored.inj (hanswer'.symm.trans hanswer)
      exact ⟨r', hscore, hdecided⟩
    · rw [hbefore p.other hmem] at haccepts
      cases haccepts
  · have hscan := scan_append (s := s) s.fast_path before (c :: after)
    have hevaluated : (process s candidates).evaluated = (scan s.fast_path s before).2 ++
        (scan s.fast_path (scan s.fast_path s before).1 (c :: after)).2 := by
      rw [hc]
      exact congrArg Prod.snd hscan
    refine ⟨⟨c, some (fallback c.toPair), ofInt 0, false⟩, ?_, rfl, rfl⟩
    have hlength := scan_length (s := s) s.fast_path before
    rw [hevaluated, List.getElem?_append_right hlength.le, hlength, Nat.sub_self]
    unfold scan
    dsimp only
    rw [evaluate_degraded hd]
    rfl

/-- In every run of activations that are steady the two paths decide alike, and the fallback decides after it. -/
theorem runs_alike (s : SafeScorer F) (activations : List (List (Candidate F)))
    (h : Meets step Steady s activations) : Meets step Alike s activations := by
  induction activations generalizing s with
  | nil => trivial
  | cons candidates rest ih => exact ⟨alike_of_steady s candidates h.1, ih _ h.2⟩

/-- A table over the time apart: alarms of less than a second link. -/
private def table : Trained Half := .gam ⟨.half 0, .half 0, [⟨"dt", 0, [.half 2], [.half 4, .half (-4)]⟩], []⟩

private def near : Candidate Half := { features := ⟨⟨.half 0, .half 0, .half 0, none⟩, 1, 2⟩, vector := [.half 0] }

/-- A candidate that is linked, and then one at which the model raises before any pair is accepted. -/
theorem runs_alike_once : Meets step Alike (⟨.trained table, false, 0, none⟩ : SafeScorer Half)
    [[near], [{ near with fast := .fails (.raised "ZeroDivisionError") }, near]] :=
  runs_alike _ _ (by decide +kernel)

/-- The model accepts a pair and raises at the next: the link is kept, and what is kept of it is the formula's
verdict, which is that the pair is not linked. -/
theorem explained_by_fallback : ¬ ∀ (s : SafeScorer Half) (candidates : List (Candidate Half)), Alike s candidates := by
  intro h
  have hexplained := (h ⟨.trained table, false, 0, none⟩
    [near, { near with fast := .fails (.raised "ZeroDivisionError") }]).explained
  revert hexplained
  decide +kernel

end NetCoreNoc.Operate.FastPath
