import Mathlib

/-! The labelled corpus: the latest label of each situation with the pairs that were captured of it, and the incident
a merged situation belongs to (`store/shadow.py`, `incidents.py`, `census.py`). -/
namespace NetCoreNoc.Evaluation.Holdout

structure Feedback where
  id : ℕ
  situation_id : ℕ
  verdict : String
  created_at : ℚ
  /-- `capture_provenance = 'current'` -/
  current : Bool := true
  principal_ref : Option String := none
  member_count : Option ℤ := none
  coverage : Option String := none
  deriving DecidableEq, Repr

/-- A captured pair; its numbers are the capture's. -/
structure DatasetPair where
  id : ℕ
  situation_id : ℕ
  /-- `lifecycle = 'dataset'` -/
  promoted : Bool
  alarm_a : ℕ
  alarm_b : ℕ
  delta_t_s : ℚ
  class_affinity : ℚ
  entity_affinity : ℚ
  incumbent_linked : Bool
  evaluated_at : ℚ
  deriving DecidableEq, Repr

/-- The gesture a label came from, with the confidence that was stated. -/
structure SituationEvent where
  feedback_id : ℕ
  confidence : Option String
  deriving DecidableEq, Repr

/-- What the labelled corpus is read from; `merged_into` is of the situations. -/
structure Corpus where
  feedback : List Feedback := []
  pairs : List DatasetPair := []
  events : List SituationEvent := []
  merged_into : List (ℕ × ℕ) := []
  deriving DecidableEq, Repr

/-- A row of `labelled_pairs`. -/
structure LabelledPair where
  pair : DatasetPair
  feedback_id : ℕ
  verdict : String
  label_at : ℚ
  confidence : Option String
  deriving DecidableEq, Repr

/-- A row of `labelled_bags`. -/
structure LabelledBag where
  feedback_id : ℕ
  verdict : String
  label_at : ℚ
  situation_id : ℕ
  principal : String
  member_count : ℤ
  coverage : String
  pairs : ℕ
  accepted : ℕ
  deriving DecidableEq, Repr

namespace Corpus
variable (c : Corpus) (include_legacy : Bool)

/-- `ORDER BY created_at DESC, id DESC LIMIT 1` -/
def newest : List Feedback → Option Feedback
  | [] => none
  | f :: fs =>
    match newest fs with
    | none => some f
    | some g => if toLex (g.created_at, g.id) < toLex (f.created_at, f.id) then some f else some g

/-- The one label of a situation that counts: the newest of those that may. -/
def label (situation_id : ℕ) : Option Feedback :=
  newest (c.feedback.filter fun f => f.situation_id = situation_id && (f.current || include_legacy))

def counts (f : Feedback) : Bool :=
  (f.current || include_legacy) && (c.label include_legacy f.situation_id).map (·.id) = some f.id

/-- The labels that count, in the order of their ids. -/
def labels : List Feedback := (c.feedback.insertionSort fun f g => f.id ≤ g.id).filter (c.counts include_legacy)

def promoted (situation_id : ℕ) : List DatasetPair :=
  (c.pairs.insertionSort fun p q => p.id ≤ q.id).filter fun p => p.situation_id = situation_id && p.promoted

/-- The events of a label, as a left join has them. -/
def confidences (feedback_id : ℕ) : List (Option String) :=
  match (c.events.filter (·.feedback_id = feedback_id)).map (·.confidence) with
  | [] => [none]
  | confidences => confidences

def labelled_pairs : List LabelledPair :=
  (c.labels include_legacy).flatMap fun f => (c.promoted f.situation_id).flatMap fun p =>
    (c.confidences f.id).map fun confidence => ⟨p, f.id, f.verdict, f.created_at, confidence⟩

def labelled_bags : List LabelledBag :=
  (c.labels include_legacy).map fun f =>
    ⟨f.id, f.verdict, f.created_at, f.situation_id, f.principal_ref.getD "(unattributed)", f.member_count.getD (-1),
      f.coverage.getD "unrecorded", (c.promoted f.situation_id).length,
      ((c.promoted f.situation_id).filter (·.incumbent_linked)).length⟩

theorem mem_labels {f : Feedback} : f ∈ c.labels include_legacy ↔ f ∈ c.feedback ∧ c.counts include_legacy f := by
  rw [labels, List.mem_filter, List.mem_insertionSort]

theorem mem_promoted {p : DatasetPair} {s : ℕ} :
    p ∈ c.promoted s ↔ p ∈ c.pairs ∧ p.situation_id = s ∧ p.promoted := by
  rw [promoted, List.mem_filter, List.mem_insertionSort, Bool.and_eq_true, decide_eq_true_eq]

theorem confidences_ne_nil (feedback_id : ℕ) : c.confidences feedback_id ≠ [] := by
  unfold confidences
  split
  · exact List.cons_ne_nil _ _
  · assumption

/-- Every promoted pair of a situation is labelled by its label, and nothing else is. -/
theorem mem_labelled_pairs (p : DatasetPair) (f : Feedback) (hf : f ∈ c.feedback) (hp : p ∈ c.pairs)
    (hpromoted : p.promoted) (hs : p.situation_id = f.situation_id) (hcounts : c.counts include_legacy f) :
    ∃ row ∈ c.labelled_pairs include_legacy, row.pair = p ∧ row.feedback_id = f.id ∧ row.verdict = f.verdict := by
  obtain ⟨confidence, hc⟩ := List.exists_mem_of_ne_nil _ (c.confidences_ne_nil f.id)
  refine ⟨⟨p, f.id, f.verdict, f.created_at, confidence⟩, ?_, rfl, rfl, rfl⟩
  rw [labelled_pairs, List.mem_flatMap]
  refine ⟨f, (c.mem_labels include_legacy).mpr ⟨hf, hcounts⟩, List.mem_flatMap.mpr ?_⟩
  exact ⟨p, c.mem_promoted.mpr ⟨hp, hs, hpromoted⟩, List.mem_map_of_mem hc⟩

end Corpus

def MAX_CHAIN_DEPTH : ℕ := 64

/-- `_cycle_members` -/
def cycle_members (merged_into : List (ℕ × ℕ)) (entry : ℕ) : ℕ → ℕ → List ℕ → List ℕ
  | 0, _, members => members
  | n + 1, node, members =>
    if node = entry then members
    else
      match merged_into.lookup node with
      | none => node :: members
      | some next_node => cycle_members merged_into entry n next_node (node :: members)

/-- The loop of `resolve`. -/
def follow (merged_into : List (ℕ × ℕ)) : ℕ → ℕ → List ℕ → ℕ
  | 0, current, _ => current
  | n + 1, current, seen =>
    match merged_into.lookup current with
    | none => current
    | some next =>
      if next ∈ seen then
        let cycle := cycle_members merged_into next MAX_CHAIN_DEPTH ((merged_into.lookup next).getD next) [next]
        cycle.foldl min next
      else follow merged_into n next (next :: seen)

/-- The incident of a situation: `merged_into`, to its fixed point. -/
def resolve (merged_into : List (ℕ × ℕ)) (situation_id : ℕ) : ℕ :=
  follow merged_into MAX_CHAIN_DEPTH situation_id [situation_id]

/-- A dictionary from an incident to a time. -/
structure Labels where
  entries : List (ℕ × ℚ) := []
  nodup : (entries.map Prod.fst).Nodup := by decide

namespace Labels

def incidents (d : Labels) : List ℕ := d.entries.map Prod.fst

/-- `d[incident]`, of an incident that is there. -/
def at_ (d : Labels) (incident : ℕ) : ℚ := (d.entries.lookup incident).getD 0

/-- `d[incident] = at`, where it is the first or an earlier one. -/
def lower (incident : ℕ) (time : ℚ) : List (ℕ × ℚ) → List (ℕ × ℚ)
  | [] => [(incident, time)]
  | p :: ps =>
    if p.1 = incident then (if time < p.2 then (incident, time) else p) :: ps else p :: lower incident time ps

theorem keys_lower (incident : ℕ) (time : ℚ) (l : List (ℕ × ℚ)) : (lower incident time l).map Prod.fst =
    if incident ∈ l.map Prod.fst then l.map Prod.fst else l.map Prod.fst ++ [incident] := by
  induction l with
  | nil => rfl
  | cons p ps ih =>
    rw [lower]
    split
    · rename_i h
      have hmem : incident ∈ List.map Prod.fst (p :: ps) := List.mem_cons.mpr (.inl h.symm)
      rw [if_pos hmem]
      split
      · rw [List.map_cons, List.map_cons, h]
      · rfl
    · rename_i h
      have hmem : incident ∈ List.map Prod.fst (p :: ps) ↔ incident ∈ ps.map Prod.fst := by
        rw [List.map_cons, List.mem_cons]
        exact or_iff_right (Ne.symm h)
      rw [List.map_cons, ih]
      simp only [hmem]
      split <;> rfl

def earlier (d : Labels) (incident : ℕ) (time : ℚ) : Labels where
  entries := lower incident time d.entries
  nodup := by
    rw [keys_lower]
    split
    · exact d.nodup
    · rename_i h
      exact List.nodup_append'.mpr ⟨d.nodup, List.nodup_singleton _, fun x hx hy => h (List.mem_singleton.mp hy ▸ hx)⟩

end Labels

/-- `first_label_per_incident` -/
def first_label_per_incident (c : Corpus) : Labels :=
  (c.labelled_bags false).foldl (fun d bag => d.earlier (resolve c.merged_into bag.situation_id) bag.label_at) {}

end NetCoreNoc.Evaluation.Holdout
