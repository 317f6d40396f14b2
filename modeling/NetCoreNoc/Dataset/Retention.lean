import Mathlib
import NetCoreNoc.Earliest

/-! What the retention of the dataset deletes (`store/dataset.py`): the sink by age and by number, the labelled corpus by
age, and the preview of the second. -/
namespace NetCoreNoc.Dataset.Retention

inductive Lifecycle where
  | sink
  | dataset
  deriving DecidableEq

/-- What retention reads of a row of `dataset_observation`; instants are of any order. -/
structure Observation (T : Type) where
  id : ℕ
  lifecycle : Lifecycle
  observed_at : T
  deriving DecidableEq

/-- What it reads of a row of `dataset_pair`. -/
structure Pair (T : Type) where
  id : ℕ
  lifecycle : Lifecycle
  observation_a : Option ℕ
  observation_b : Option ℕ
  evaluated_at : T
  deriving DecidableEq

def Pair.references {T : Type} (p : Pair T) : List ℕ := p.observation_a.toList ++ p.observation_b.toList

/-- The tables under their keys, the foreign keys of the pairs among them. -/
structure Database (T : Type) where
  dataset_pair : List (Pair T)
  dataset_observation : List (Observation T)
  /-- `created_at` of each label -/
  feedback : List T
  /-- `at` of each gesture -/
  situation_event : List T
  /-- the planner's estimate of the pairs, negative where there is none -/
  reltuples : ℚ
  pair_ids : (dataset_pair.map (·.id)).Nodup
  observation_ids : (dataset_observation.map (·.id)).Nodup
  references : ∀ p ∈ dataset_pair, ∀ i ∈ p.references, i ∈ dataset_observation.map (·.id)

structure SinkCounts where
  pairs_aged : ℕ
  pairs_capped : ℕ
  observations : ℕ
  deriving DecidableEq

structure AuditCounts where
  pairs : ℕ
  observations : ℕ
  labels : ℕ
  events : ℕ
  deriving DecidableEq

structure Preview (T : Type) where
  pairs : ℕ
  observations : ℕ
  labels : ℕ
  oldest : Option T
  newest : Option T
  deriving DecidableEq

section
variable {T : Type} (db : Database T)

def Database.sink : List (Pair T) := db.dataset_pair.filter (·.lifecycle = .sink)

/-- `_UNREFERENCED` -/
def Database.unreferenced (o : Observation T) : Bool := ∀ p ∈ db.dataset_pair, o.id ∉ p.references

variable {p : Pair T}

theorem Database.kept_references (gone : Observation T → Bool) (hp : p ∈ db.dataset_pair) {i : ℕ}
    (hi : i ∈ p.references) :
    i ∈ (db.dataset_observation.filter fun o => !(gone o && db.unreferenced o)).map (·.id) := by
  obtain ⟨o, ho, rfl⟩ := List.mem_map.mp (db.references p hp i hi)
  have hheld : db.unreferenced o = false := decide_eq_false fun h => h p hp hi
  exact List.mem_map.mpr ⟨o, List.mem_filter.mpr ⟨ho, by rw [hheld, Bool.and_false]; rfl⟩, rfl⟩

/-- `DELETE FROM dataset_pair` -/
def Database.delete_pairs (gone : Pair T → Bool) : Database T := { db with
  dataset_pair := db.dataset_pair.filter fun p => !gone p
  pair_ids := db.pair_ids.sublist (List.filter_sublist.map _)
  references := fun p hp => db.references p (List.mem_of_mem_filter hp) }

/-- `DELETE FROM dataset_observation`, of rows that nothing refers to. -/
def Database.delete_observations (gone : Observation T → Bool) : Database T := { db with
  dataset_observation := db.dataset_observation.filter fun o => !(gone o && db.unreferenced o)
  observation_ids := db.observation_ids.sublist (List.filter_sublist.map _)
  references := fun _ hp _ hi => db.kept_references gone hp hi }

end

variable {T : Type} [LinearOrder T]

/-- `ORDER BY evaluated_at, id` -/
def Pair.place (p : Pair T) : T ×ₗ ℕ := toLex (p.evaluated_at, p.id)

/-- A row of a tier from before an instant. -/
def Pair.aged (tier : Lifecycle) (cutoff : T) (p : Pair T) : Bool := p.lifecycle = tier ∧ p.evaluated_at < cutoff

def Observation.aged (tier : Lifecycle) (cutoff : T) (o : Observation T) : Bool := o.lifecycle = tier ∧ o.observed_at < cutoff

namespace Database
variable (db : Database T)

/-- The sink's pairs that the cap leaves no room for; what the planner estimates may say that none are to be counted. -/
def excess (row_cap : ℕ) : ℕ := if 0 ≤ db.reltuples ∧ db.reltuples < 8 / 10 * row_cap then 0 else db.sink.length - row_cap

def oldest (n : ℕ) : List (Pair T) := (Earliest.ordered Pair.place db.sink).take n

def prune_sink (cutoff : T) (row_cap : ℕ) : SinkCounts × Database T :=
  let fresh := db.delete_pairs (Pair.aged .sink cutoff)
  let capped := fresh.delete_pairs fun p => p.id ∈ (fresh.oldest (fresh.excess row_cap)).map (·.id)
  let left := capped.delete_observations (Observation.aged .sink cutoff)
  (⟨db.dataset_pair.length - fresh.dataset_pair.length, fresh.dataset_pair.length - capped.dataset_pair.length,
    capped.dataset_observation.length - left.dataset_observation.length⟩, left)

def prune_dataset_audit (cutoff : T) : AuditCounts × Database T :=
  let fresh := db.delete_pairs (Pair.aged .dataset cutoff)
  let left := fresh.delete_observations (Observation.aged .dataset cutoff)
  (⟨db.dataset_pair.length - fresh.dataset_pair.length,
    fresh.dataset_observation.length - left.dataset_observation.length,
    db.feedback.length - (db.feedback.filter fun t => !decide (t < cutoff)).length,
    db.situation_event.length - (db.situation_event.filter fun t => !decide (t < cutoff)).length⟩,
    { left with
      feedback := db.feedback.filter fun t => !decide (t < cutoff)
      situation_event := db.situation_event.filter fun t => !decide (t < cutoff) })

def preview_retention (cutoff : T) : Preview T :=
  let pairs := db.dataset_pair.filter (Pair.aged .dataset cutoff)
  { pairs := pairs.length
    observations := db.dataset_observation.countP (Observation.aged .dataset cutoff)
    labels := db.feedback.countP (· < cutoff)
    oldest := (pairs.map (·.evaluated_at)).min?
    newest := (pairs.map (·.evaluated_at)).max? }

end Database

/-! What is deleted, and what is left. -/

theorem length_filter_not {α : Type} (p : α → Bool) (l : List α) : l.length - (l.filter fun a => !p a).length = l.countP p := by
  have h := List.length_eq_countP_add_countP p (l := l)
  simp only [Bool.not_eq_true, Bool.decide_eq_false] at h
  rw [List.countP_eq_length_filter (p := fun a => !p a)] at h
  omega

theorem filter_notMem_take {α : Type} [DecidableEq α] {l : List α} (h : l.Nodup) (n : ℕ) :
    l.filter (fun a => a ∉ l.take n) = l.drop n := by
  have hdisjoint := List.disjoint_take_drop h (le_refl n)
  conv_lhs => rw [← List.take_append_drop n l]
  rw [List.filter_append, List.take_append_drop]
  have hfirst : (l.take n).filter (fun a => a ∉ l.take n) = [] :=
    List.filter_eq_nil_iff.mpr fun a ha => by simpa using ha
  have hlast : (l.drop n).filter (fun a => a ∉ l.take n) = l.drop n :=
    List.filter_eq_self.mpr fun a ha => decide_eq_true fun ht => hdisjoint ht ha
  rw [hfirst, hlast, List.nil_append]

section
variable {T : Type} {db : Database T}

theorem Database.pair_eq {p q : Pair T} (hp : p ∈ db.dataset_pair) (hq : q ∈ db.dataset_pair) (h : p.id = q.id) : p = q :=
  List.inj_on_of_nodup_map db.pair_ids hp hq h

/-- Rows that are left of a database refer to what they did. -/
theorem Database.held {left : Database T} (h : left.dataset_observation ⊆ db.dataset_observation)
    (hp : p ∈ left.dataset_pair) {o : Observation T} (ho : o ∈ db.dataset_observation) (hi : o.id ∈ p.references) :
    o ∈ left.dataset_observation := by
  obtain ⟨o', ho', hid⟩ := List.mem_map.mp (left.references p hp o.id hi)
  exact List.inj_on_of_nodup_map db.observation_ids (h ho') ho hid ▸ ho'

theorem Database.mem_sink : p ∈ db.sink ↔ p ∈ db.dataset_pair ∧ p.lifecycle = .sink := by
  rw [sink, List.mem_filter, decide_eq_true_eq]

theorem Database.sink_nodup (db : Database T) : db.sink.Nodup := (List.Nodup.of_map _ db.pair_ids).filter _

end

namespace Database
variable {db : Database T} {cutoff : T} {row_cap n : ℕ}

theorem mem_oldest (hp : p ∈ db.dataset_pair) : p.id ∈ (db.oldest n).map (·.id) ↔ p ∈ db.oldest n := by
  refine ⟨fun h => ?_, fun h => List.mem_map_of_mem h⟩
  obtain ⟨q, hq, hid⟩ := List.mem_map.mp h
  have hin := mem_sink.mp ((Earliest.ordered_perm _ _).mem_iff.mp (List.mem_of_mem_take hq))
  exact pair_eq hin.1 hp hid ▸ hq

/-- The sink without its oldest. -/
theorem sink_capped : (db.delete_pairs fun p => p.id ∈ (db.oldest n).map (·.id)).sink.Perm
    ((Earliest.ordered Pair.place db.sink).drop n) := by
  have hsorted := Earliest.ordered_perm Pair.place db.sink
  rw [← filter_notMem_take (hsorted.nodup_iff.mpr db.sink_nodup) n]
  refine .trans (.of_eq ?_) (hsorted.symm.filter _)
  unfold sink delete_pairs
  rw [List.filter_filter, List.filter_filter]
  refine List.filter_congr fun p hp => ?_
  have hmem : (!decide (p.id ∈ (db.oldest n).map (·.id))) = decide (p ∉ db.oldest n) := by
    rw [← decide_not]
    exact decide_eq_decide.mpr (not_congr (mem_oldest hp))
  rw [Bool.and_comm]
  exact congrArg (· && _) hmem

theorem mem_aged_sink :
    p ∈ (db.delete_pairs (Pair.aged .sink cutoff)).sink ↔ p ∈ db.sink ∧ cutoff ≤ p.evaluated_at := by
  rw [mem_sink, mem_sink, and_right_comm (b := p.lifecycle = _)]
  refine and_congr_left fun hsink => List.mem_filter.trans (and_congr_right fun _ => ?_)
  simp [Pair.aged, hsink]

/-- The sink as `prune_sink` leaves it: what is not too old, without its oldest. -/
theorem sink_pruned (db : Database T) (cutoff : T) (row_cap : ℕ) : (db.prune_sink cutoff row_cap).2.sink.Perm
    ((Earliest.ordered Pair.place (db.delete_pairs (Pair.aged .sink cutoff)).sink).drop
      ((db.delete_pairs (Pair.aged .sink cutoff)).excess row_cap)) :=
  sink_capped

end Database

/-! What is asked of a retention: at one cutoff of the sink under a cap, and at one of the corpus. -/

/-- What is left of the sink. -/
structure Trimmed (db : Database T) (cutoff : T) (row_cap : ℕ) (left : Database T) : Prop where
  held : left.sink ⊆ db.sink
  fresh : ∀ p ∈ left.sink, cutoff ≤ p.evaluated_at
  newest : ∀ p ∈ left.sink, ∀ q ∈ db.sink, q ∉ left.sink → q.place < p.place
  /-- nothing is deleted but for its age or for want of room -/
  needed : ∀ q ∈ db.sink, q ∉ left.sink → q.evaluated_at < cutoff ∨ left.sink.length = row_cap

/-- No row that is left has lost an observation that it refers to. -/
def Whole (db left : Database T) : Prop :=
  ∀ p ∈ left.dataset_pair, p ∈ db.dataset_pair ∧
    ∀ o ∈ db.dataset_observation, o.id ∈ p.references → o ∈ left.dataset_observation

theorem Whole.of_subset {T : Type} {db left : Database T} (hpairs : left.dataset_pair ⊆ db.dataset_pair)
    (hobservations : left.dataset_observation ⊆ db.dataset_observation) : Whole db left :=
  fun _ hp => ⟨hpairs hp, fun _ ho hi => Database.held hobservations hp ho hi⟩

structure Keeps (db : Database T) (cutoff : T) (row_cap : ℕ) (audit : T) : Prop where
  promoted_pairs : ∀ p ∈ db.dataset_pair, p.lifecycle = .dataset → p ∈ (db.prune_sink cutoff row_cap).2.dataset_pair
  promoted_observations : ∀ o ∈ db.dataset_observation, o.lifecycle = .dataset →
    o ∈ (db.prune_sink cutoff row_cap).2.dataset_observation
  referenced : Whole db (db.prune_sink cutoff row_cap).2
  trimmed : Trimmed db cutoff row_cap (db.prune_sink cutoff row_cap).2
  either_order : Whole db ((db.prune_sink cutoff row_cap).2.prune_dataset_audit audit).2 ∧
    Whole db ((db.prune_dataset_audit audit).2.prune_sink cutoff row_cap).2

/-- With the cap kept to and every count of the preview what is deleted. -/
structure Retains (db : Database T) (cutoff : T) (row_cap : ℕ) (audit : T) : Prop extends Keeps db cutoff row_cap audit where
  few : (db.prune_sink cutoff row_cap).2.sink.length ≤ row_cap
  pairs : (db.preview_retention audit).pairs = (db.prune_dataset_audit audit).1.pairs
  observations : (db.preview_retention audit).observations = (db.prune_dataset_audit audit).1.observations
  labels : (db.preview_retention audit).labels = (db.prune_dataset_audit audit).1.labels

/-- The cap is looked at where it is exceeded: no estimate well below it says otherwise. -/
def Estimated (db : Database T) (cutoff : T) (row_cap : ℕ) : Prop :=
  (db.sink.filter fun p => cutoff ≤ p.evaluated_at).length ≤ row_cap ∨ db.reltuples < 0 ∨ 8 / 10 * row_cap ≤ db.reltuples

/-- With the cap kept to where the planner does not put the table well below it. -/
structure RetainsEstimated (db : Database T) (cutoff : T) (row_cap : ℕ) (audit : T) : Prop
    extends Keeps db cutoff row_cap audit where
  few : (db.prune_sink cutoff row_cap).2.sink.length ≤ row_cap ↔ Estimated db cutoff row_cap
  pairs : (db.preview_retention audit).pairs = (db.prune_dataset_audit audit).1.pairs
  labels : (db.preview_retention audit).labels = (db.prune_dataset_audit audit).1.labels

section
variable {db : Database T} {cutoff audit : T} {row_cap : ℕ}

theorem prune_sink_pairs : (db.prune_sink cutoff row_cap).2.dataset_pair ⊆ db.dataset_pair :=
  fun _ hp => List.mem_of_mem_filter (List.mem_of_mem_filter hp)

theorem prune_audit_pairs : (db.prune_dataset_audit audit).2.dataset_pair ⊆ db.dataset_pair :=
  fun _ hp => List.mem_of_mem_filter hp

theorem prune_sink_observations : (db.prune_sink cutoff row_cap).2.dataset_observation ⊆ db.dataset_observation :=
  fun _ ho => List.mem_of_mem_filter ho

theorem prune_audit_observations : (db.prune_dataset_audit audit).2.dataset_observation ⊆ db.dataset_observation :=
  fun _ ho => List.mem_of_mem_filter ho

theorem referenced : Whole db (db.prune_sink cutoff row_cap).2 :=
  .of_subset prune_sink_pairs prune_sink_observations

theorem either_order : Whole db ((db.prune_sink cutoff row_cap).2.prune_dataset_audit audit).2 ∧
    Whole db ((db.prune_dataset_audit audit).2.prune_sink cutoff row_cap).2 :=
  ⟨.of_subset (fun _ h => prune_sink_pairs (prune_audit_pairs h))
      (fun _ h => prune_sink_observations (prune_audit_observations h)),
    .of_subset (fun _ h => prune_audit_pairs (prune_sink_pairs h))
      (fun _ h => prune_audit_observations (prune_sink_observations h))⟩

/-- Every statement of the sink's names its tier. -/
theorem promoted_pair (hp : p ∈ db.dataset_pair) (h : p.lifecycle = .dataset) :
    p ∈ (db.prune_sink cutoff row_cap).2.dataset_pair := by
  have hfresh : p ∈ (db.delete_pairs (Pair.aged .sink cutoff)).dataset_pair :=
    List.mem_filter.mpr ⟨hp, by simp [Pair.aged, h]⟩
  refine List.mem_filter.mpr ⟨hfresh, ?_⟩
  rw [Bool.not_eq_true', decide_eq_false_iff_not, Database.mem_oldest hfresh]
  intro hold
  have hsink := Database.mem_sink.mp ((Earliest.ordered_perm _ _).mem_iff.mp (List.mem_of_mem_take hold))
  rw [h] at hsink
  exact absurd hsink.2 (by decide)

theorem promoted_observation {o : Observation T} (ho : o ∈ db.dataset_observation) (h : o.lifecycle = .dataset) :
    o ∈ (db.prune_sink cutoff row_cap).2.dataset_observation :=
  List.mem_filter.mpr ⟨ho, by simp [Observation.aged, h]⟩

/-- The fresh rows of the sink, the oldest first. -/
theorem mem_pruned : p ∈ (db.prune_sink cutoff row_cap).2.sink ↔
    p ∈ (Earliest.ordered Pair.place (db.delete_pairs (Pair.aged .sink cutoff)).sink).drop
      ((db.delete_pairs (Pair.aged .sink cutoff)).excess row_cap) :=
  (Database.sink_pruned db cutoff row_cap).mem_iff

theorem pruned_sink (h : p ∈ (db.prune_sink cutoff row_cap).2.sink) :
    p ∈ (db.delete_pairs (Pair.aged .sink cutoff)).sink :=
  (Earliest.ordered_perm _ _).mem_iff.mp (List.mem_of_mem_drop (mem_pruned.mp h))

/-- What the cap deletes comes before what it leaves. -/
theorem capped_lt {p q : Pair T} (hp : p ∈ (db.prune_sink cutoff row_cap).2.sink)
    (hq : q ∈ (db.delete_pairs (Pair.aged .sink cutoff)).sink) (hgone : q ∉ (db.prune_sink cutoff row_cap).2.sink) :
    q.place < p.place := by
  set fresh := db.delete_pairs (Pair.aged .sink cutoff) with hfresh
  have hsorted := Earliest.ordered_pairwise Pair.place fresh.sink
  rw [← List.take_append_drop (fresh.excess row_cap) (Earliest.ordered Pair.place fresh.sink), List.pairwise_append] at hsorted
  have hold : q ∈ (Earliest.ordered Pair.place fresh.sink).take (fresh.excess row_cap) := by
    have hq' := (Earliest.ordered_perm Pair.place fresh.sink).mem_iff.mpr hq
    rw [← List.take_append_drop (fresh.excess row_cap) (Earliest.ordered Pair.place fresh.sink), List.mem_append] at hq'
    exact hq'.resolve_right fun h => hgone (mem_pruned.mpr h)
  refine lt_of_le_of_ne (hsorted.2.2 q hold p (mem_pruned.mp hp)) fun h => hgone ?_
  have hid : q.id = p.id := congrArg (fun x => (ofLex x).2) h
  have hin := (Database.mem_sink.mp (pruned_sink hp)).1
  exact Database.pair_eq (Database.mem_sink.mp hq).1 hin hid ▸ hp

theorem length_pruned : (db.prune_sink cutoff row_cap).2.sink.length =
    (db.delete_pairs (Pair.aged .sink cutoff)).sink.length - (db.delete_pairs (Pair.aged .sink cutoff)).excess row_cap := by
  rw [(Database.sink_pruned db cutoff row_cap).length_eq, List.length_drop, (Earliest.ordered_perm _ _).length_eq]

theorem fresh_length : (db.delete_pairs (Pair.aged .sink cutoff)).sink.length =
    (db.sink.filter fun p => cutoff ≤ p.evaluated_at).length := by
  unfold Database.sink Database.delete_pairs
  rw [List.filter_filter, List.filter_filter]
  refine congrArg List.length (List.filter_congr fun p _ => ?_)
  by_cases hsink : p.lifecycle = .sink
  · simp [Pair.aged, hsink, ← not_lt]
  · simp [hsink]

/-- No more than the cap is asked to make room for. -/
theorem capped_length (h : (db.delete_pairs (Pair.aged .sink cutoff)).excess row_cap ≠ 0) :
    (db.prune_sink cutoff row_cap).2.sink.length = row_cap := by
  rw [length_pruned]
  unfold Database.excess at h ⊢
  split at h
  · exact absurd rfl h
  · rename_i hcounted
    rw [if_neg hcounted]
    omega

theorem trimmed : Trimmed db cutoff row_cap (db.prune_sink cutoff row_cap).2 where
  held := fun p hp => (Database.mem_aged_sink.mp (pruned_sink hp)).1
  fresh := fun p hp => (Database.mem_aged_sink.mp (pruned_sink hp)).2
  newest := by
    intro p hp q hq hgone
    by_cases hold : cutoff ≤ q.evaluated_at
    · exact capped_lt hp (Database.mem_aged_sink.mpr ⟨hq, hold⟩) hgone
    · have hlt := (not_le.mp hold).trans_le (Database.mem_aged_sink.mp (pruned_sink hp)).2
      exact Prod.Lex.toLex_lt_toLex.mpr (.inl hlt)
  needed := by
    intro q hq hgone
    by_cases hold : cutoff ≤ q.evaluated_at
    · refine .inr (capped_length fun hnone => hgone (mem_pruned.mpr ?_))
      rw [hnone, List.drop_zero]
      exact (Earliest.ordered_perm _ _).mem_iff.mpr (Database.mem_aged_sink.mpr ⟨hq, hold⟩)
    · exact .inl (not_le.mp hold)

theorem few_iff : (db.prune_sink cutoff row_cap).2.sink.length ≤ row_cap ↔ Estimated db cutoff row_cap := by
  rw [length_pruned, Estimated, ← fresh_length]
  have hsame : (db.delete_pairs (Pair.aged .sink cutoff)).reltuples = db.reltuples := rfl
  unfold Database.excess
  rw [hsame]
  split
  · rename_i hskipped
    rw [Nat.sub_zero, or_iff_left]
    exact fun h => h.elim (fun hneg => absurd hneg (not_lt.mpr hskipped.1)) fun hle => absurd hle (not_le.mpr hskipped.2)
  · rename_i hcounted
    rw [not_and_or, not_le, not_lt] at hcounted
    exact iff_of_true (by omega) (.inr hcounted)

theorem previewed_pairs : (db.preview_retention audit).pairs = (db.prune_dataset_audit audit).1.pairs := by
  rw [Database.preview_retention, ← List.countP_eq_length_filter]
  exact (length_filter_not _ _).symm

theorem previewed_labels : (db.preview_retention audit).labels = (db.prune_dataset_audit audit).1.labels :=
  (length_filter_not _ _).symm

theorem retains_estimated (db : Database T) (cutoff : T) (row_cap : ℕ) (audit : T) :
    RetainsEstimated db cutoff row_cap audit where
  promoted_pairs := fun _ => promoted_pair
  promoted_observations := fun _ => promoted_observation
  referenced := referenced
  trimmed := trimmed
  either_order := either_order
  few := few_iff
  pairs := previewed_pairs
  labels := previewed_labels

end

/-- Two pairs of the sink, the table as the planner saw it when it was empty. -/
def stale : Database ℕ where
  dataset_pair := [⟨1, .sink, none, none, 5⟩, ⟨2, .sink, none, none, 6⟩]
  dataset_observation := []
  feedback := []
  situation_event := []
  reltuples := 0
  pair_ids := by decide
  observation_ids := by decide
  references := by decide

/-- An observation from before the instant 10, of a pair from after it. -/
def shared : Database ℕ where
  dataset_pair := [⟨1, .dataset, some 1, none, 15⟩]
  dataset_observation := [⟨1, .dataset, 5⟩]
  feedback := []
  situation_event := []
  reltuples := -1
  pair_ids := by decide
  observation_ids := by decide
  references := by decide

theorem not_retained : ¬ Retains stale 0 1 10 ∧ ¬ Retains shared 0 1 10 := by
  constructor
  · intro h
    rcases few_iff.mp h.few with hfew | hnone | hhigh
    · exact absurd hfew (by decide)
    · exact absurd hnone (by decide)
    · exact absurd hhigh (by norm_num [stale])
  · intro h
    exact absurd h.observations (by decide)

end NetCoreNoc.Dataset.Retention
