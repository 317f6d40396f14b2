import Mathlib
import NetCoreNoc.Operate.Feedback

/-! What a label records of its evidence (`engine/dataset/labels.py`, `store/feedback.py`): the bag, the marks and the
pairs that are promoted with it, while members and captured pairs change. -/
namespace NetCoreNoc.Operate.Labels
open Runs Situations Feedback
open Json (Str)
open Evaluation.Holdout (comma_joined)

def MAX_CLIENT_MEMBERS : ℕ := 512

/-- Which members do not belong, as the client has it. -/
structure Exclusion where
  alarm_ids : List Aid
  remainder_together : Option Bool
  truncated : Bool

def Exclusion.accept (alarm_ids : List Aid) (remainder_together : Option Bool) : Exclusion :=
  ⟨alarm_ids.take MAX_CLIENT_MEMBERS, remainder_together, MAX_CLIENT_MEMBERS < alarm_ids.length⟩

structure LabelScope where
  policy_id : Option ℕ := none
  restricted : Bool := false
  hidden_members : Finset Aid := ∅

def LabelScope.redacted_members (scope : LabelScope) : ℕ := scope.hidden_members.card

structure LabelContext where
  scope : Option LabelScope := none
  exclusion : Option Exclusion := none
  channel : String := "organic"

/-- A confirm asserts every pair: an exclusion that came with it is dropped. -/
def LabelContext.for_verdict (ctx : LabelContext) (verdict : Verdict) : LabelContext :=
  if verdict = .split then ctx else { ctx with exclusion := none }

/-- `coverage`: the partial state is `partly`. -/
inductive State where
  | full
  | partly
  | none
  | empty
  deriving DecidableEq, Repr

structure Coverage where
  coverage : State
  coverage_found : ℕ
  coverage_expected : ℕ
  deriving DecidableEq, Repr

def coverage (bag : List Aid) (promoted : ℕ) : Coverage :=
  if bag = [] then ⟨.empty, promoted, 0⟩
  else
    let expected := bag.length * (bag.length - 1) / 2
    ⟨if promoted = 0 then .none else if expected ≤ promoted then .full else .partly, promoted, expected⟩

/-- The columns of `_assertion`. -/
structure Assertion where
  excluded_count : Option ℕ := none
  excluded_reconciled : Option ℕ := none
  excluded_reconciled_source : Option String := none
  excluded_truncated : Bool := false
  remainder_together : Option Bool := none
  excluded_reconciled_out_of_scope : Option ℕ := none
  deriving DecidableEq, Repr

/-- The marked positions whose member the labeller could not see. -/
def blind (scope : LabelScope) (bag : List Aid) (marked : Finset ℕ) : Finset ℕ :=
  marked.filter fun i => bag[i]?.any (· ∈ scope.hidden_members)

def assertion (exclusion : Exclusion) (bag : List Aid) (scope : Option LabelScope) : Assertion :=
  let marked := marked_positions exclusion.alarm_ids bag
  if exclusion.alarm_ids = [] then
    { excluded_truncated := exclusion.truncated, remainder_together := exclusion.remainder_together }
  else
    { excluded_count := some exclusion.alarm_ids.length
      excluded_reconciled := some marked.card
      excluded_reconciled_source := some "live"
      excluded_truncated := exclusion.truncated
      remainder_together := exclusion.remainder_together
      excluded_reconciled_out_of_scope := scope.map fun s => (blind s bag marked).card }

def member_digest (alarm_ids : List Aid) : Str := Sha256.sha256 (comma_joined alarm_ids)

/-- What `annotate_feedback` writes on the row. -/
structure Annotation where
  member_digest : Str
  member_count : ℕ
  acquisition_channel : String
  coverage : Coverage
  /-- the policy, whether it restricts, and how many members it hid -/
  scope : Option (Option ℕ × Bool × ℕ)
  assertion : Assertion
  deriving DecidableEq

/-- `_check_reconciled` -/
def check_reconciled (a : Annotation) : Bool :=
  a.assertion.excluded_reconciled.all (· ≤ a.member_count) &&
    a.assertion.excluded_reconciled_out_of_scope.all fun n => a.assertion.excluded_reconciled.any (n ≤ ·)

def annotate (bag : List Aid) (promoted : ℕ) (ctx : LabelContext) : Annotation where
  member_digest := member_digest bag
  member_count := bag.length
  acquisition_channel := ctx.channel
  coverage := coverage bag promoted
  scope := ctx.scope.map fun s => (s.policy_id, s.restricted, s.redacted_members)
  assertion := (ctx.exclusion.map fun e => assertion e bag ctx.scope).getD {}

/-- A captured pair. -/
structure DatasetPair where
  alarm_a : Aid
  alarm_b : Aid
  situation_id : Option Sid
  /-- `lifecycle = 'dataset'` -/
  promoted : Bool := false
  deriving DecidableEq

def DatasetPair.pair (p : DatasetPair) : Sym2 Aid := s(p.alarm_a, p.alarm_b)

/-- A row of `feedback`, with its rows of `feedback_member` (the server's) and `feedback_exclusion`. -/
structure Label where
  situation_id : Sid
  verdict : Verdict
  bag_key : Str
  annotated : Option Annotation := none
  members : List Aid := []
  exclusion : List Aid := []

structure Desk (E : Type) where
  engine : Engine E
  pairs : List DatasetPair := []
  feedback : List Label := []

inductive Op (E : Type) where
  | membership (op : EngineOp E)
  /-- an activation, also of an alarm that was active before: the pairs that were evaluated, up to the cap -/
  | capture (others : List Aid) (entry : Aid) (situation : Option Sid)
  /-- a label; what capture adds to it may fail -/
  | post (sid : Sid) (verdict : Verdict) (scope : LabelScope) (excluded_ids : Option (List Aid))
      (remainder_together : Option Bool) (channel : String) (captured : Bool)
  /-- the bounds of the sink -/
  | prune_sink (gone : DatasetPair → Bool)

/-- The pairs that a label of a situation promotes. -/
def sink (pairs : List DatasetPair) (sid : Sid) : List DatasetPair :=
  pairs.filter fun p => p.situation_id = some sid ∧ p.promoted = false

def promote_for_situation (pairs : List DatasetPair) (sid : Sid) : List DatasetPair × ℕ :=
  (pairs.map fun p => if p.situation_id = some sid ∧ p.promoted = false then { p with promoted := true } else p,
    (sink pairs sid).length)

def label_context (scope : LabelScope) (excluded_ids : Option (List Aid)) (remainder_together : Option Bool)
    (channel : String) : LabelContext :=
  ⟨some scope, excluded_ids.map (Exclusion.accept · remainder_together), channel⟩

namespace Desk
variable {E : Type} (s : Desk E)

/-- The alarms that the server holds, in their order. -/
def bag (sid : Sid) : List Aid := (server_bag s.engine sid).map Prod.fst

/-- The label is not on record yet, and its situation is. -/
def inserts (sid : Sid) (verdict : Verdict) : Bool :=
  (s.engine.store.situation sid).isSome && s.feedback.all fun r =>
    ¬ (r.situation_id = sid ∧ r.verdict = verdict ∧ r.bag_key = bag_key (s.engine.store.alarmsOf sid))

/-- What is captured with a label is undone as a whole where it fails; the row stays. -/
def record_label (sid : Sid) (verdict : Verdict) (ctx : LabelContext) (captured : Bool) : Desk E :=
  let row : Label := { situation_id := sid, verdict := verdict, bag_key := bag_key (s.engine.store.alarmsOf sid) }
  let (pairs, promoted) := promote_for_situation s.pairs sid
  let a := annotate (s.bag sid) promoted ctx
  if captured && check_reconciled a then { s with
    pairs := pairs
    feedback := s.feedback ++ [{ row with
      annotated := some a, members := s.bag sid, exclusion := (ctx.exclusion.map Exclusion.alarm_ids).getD [] }] }
  else { s with feedback := s.feedback ++ [row] }

end Desk

section Step
variable {E : Type} [Zero E] [Add E] [Div E] [NatCast E] [BEq E] [LT E] [DecidableLT E]

def step (s : Desk E) : Op E → Desk E
  | .membership op => { s with engine := s.engine.step op }
  | .capture others entry situation => { s with
      pairs := s.pairs ++ others.map fun other => { alarm_a := other, alarm_b := entry, situation_id := situation } }
  | .post sid verdict scope excluded_ids remainder_together channel captured =>
    if s.inserts sid verdict then
      s.record_label sid verdict
        ((label_context scope excluded_ids remainder_together channel).for_verdict verdict) captured
    else s
  | .prune_sink gone => { s with pairs := s.pairs.filter fun p => p.promoted || !gone p }

end Step

/-- The marks of a label that name members of its bag, each once. -/
def reconciled_marks (r : Label) : Finset Aid := r.exclusion.toFinset ∩ r.members.toFinset

/-- The labels whose stored count is not what their marks and their bag come to. -/
def reconciliation_drift (feedback : List Label) : List Label :=
  feedback.filter fun r => (r.annotated.bind (·.assertion.excluded_reconciled)).any
    (· ≠ (reconciled_marks r).card)

/-- The pairs of a bag. -/
def pairs_of (bag : List Aid) : Finset (Sym2 Aid) := bag.toFinset.offDiag.image Sym2.mk.uncurry

/-- The pair has a promoted row. -/
def Promoted (pairs : List DatasetPair) (p : Sym2 Aid) : Prop := ∃ row ∈ pairs, row.promoted = true ∧ row.pair = p

instance (pairs : List DatasetPair) : DecidablePred (Promoted pairs) := fun p =>
  inferInstanceAs (Decidable (∃ row ∈ pairs, row.promoted = true ∧ row.pair = p))

/-- What a label says of its own marks and its own bag. -/
structure Reconciled (r : Label) (a : Annotation) : Prop where
  counted : r.members.Nodup → a.assertion.excluded_reconciled =
    if r.exclusion = [] then none else some (reconciled_marks r).card
  blind : ∀ n ∈ a.assertion.excluded_reconciled_out_of_scope, ∃ k ∈ a.assertion.excluded_reconciled, n ≤ k
  within : ∀ k ∈ a.assertion.excluded_reconciled, k ≤ r.members.length
  empty : a.coverage.coverage = .empty ↔ r.members = []

/-- The bag that a label names, and what is promoted of the pairs of that bag. -/
structure Covered (pairs : List DatasetPair) (r : Label) (a : Annotation) : Prop where
  distinct : r.members.Nodup
  key : r.bag_key = bag_key r.members
  full : 2 ≤ r.members.length → (a.coverage.coverage = .full ↔ ∀ p ∈ pairs_of r.members, Promoted pairs p)
  none : 2 ≤ r.members.length → (a.coverage.coverage = .none ↔ ∀ p ∈ pairs_of r.members, ¬ Promoted pairs p)

/-- A label that is captured finds each member of the table once in the bag. The rows that it promotes are one each of
pairs of a bag that has had none promoted, and none of them is missing from another label's bag. -/
structure Tidy {E : Type} (s : Desk E) (sid : Sid) : Prop where
  distinct : (s.bag sid).Nodup
  members : (s.bag sid).toFinset = (s.engine.store.alarmsOf sid).toFinset
  once : 2 ≤ (s.bag sid).length → ((sink s.pairs sid).map DatasetPair.pair).Nodup
  inside : 2 ≤ (s.bag sid).length → ∀ row ∈ sink s.pairs sid, row.pair ∈ pairs_of (s.bag sid)
  fresh : 2 ≤ (s.bag sid).length → ∀ row ∈ s.pairs, row.promoted = true → row.pair ∉ pairs_of (s.bag sid)
  apart : ∀ r ∈ s.feedback, ∀ row ∈ sink s.pairs sid, row.pair ∈ pairs_of r.members → Promoted s.pairs row.pair

instance {E : Type} (s : Desk E) (sid : Sid) : Decidable (Tidy s sid) :=
  decidable_of_iff ((s.bag sid).Nodup ∧ (s.bag sid).toFinset = (s.engine.store.alarmsOf sid).toFinset ∧
    (2 ≤ (s.bag sid).length → ((sink s.pairs sid).map DatasetPair.pair).Nodup) ∧
    (2 ≤ (s.bag sid).length → ∀ row ∈ sink s.pairs sid, row.pair ∈ pairs_of (s.bag sid)) ∧
    (2 ≤ (s.bag sid).length → ∀ row ∈ s.pairs, row.promoted = true → row.pair ∉ pairs_of (s.bag sid)) ∧
    ∀ r ∈ s.feedback, ∀ row ∈ sink s.pairs sid, row.pair ∈ pairs_of r.members → Promoted s.pairs row.pair)
    ⟨fun ⟨hd, hm, ho, hi, hf, ha⟩ => ⟨hd, hm, ho, hi, hf, ha⟩,
      fun h => ⟨h.distinct, h.members, h.once, h.inside, h.fresh, h.apart⟩⟩

def Sure {E : Type} (s : Desk E) : Op E → Prop
  | .post sid verdict _ _ _ _ captured => s.inserts sid verdict = true → captured = true → Tidy s sid
  | _ => True

instance {E : Type} (s : Desk E) : DecidablePred (Sure s)
  | .post sid verdict _ _ _ _ captured =>
    inferInstanceAs (Decidable (s.inserts sid verdict = true → captured = true → Tidy s sid))
  | .membership _ | .capture .. | .prune_sink _ => .isTrue trivial

section Bags
variable {bag : List Aid}

private theorem mem_marked {excluded : List Aid} {i : ℕ} :
    i ∈ marked_positions excluded bag ↔ ∃ h : i < bag.length, bag.get ⟨i, h⟩ ∈ excluded := by
  unfold marked_positions
  rw [Finset.mem_filter, Finset.mem_range]
  constructor
  · rintro ⟨hi, hany⟩
    rw [List.getElem?_eq_getElem hi] at hany
    exact ⟨hi, by simpa using hany⟩
  · rintro ⟨hi, hin⟩
    refine ⟨hi, ?_⟩
    rw [List.getElem?_eq_getElem hi]
    simpa using hin

/-- Each mark counts once where each member is in the bag once. -/
private theorem card_marked (hbag : bag.Nodup) (excluded : List Aid) :
    (marked_positions excluded bag).card = (excluded.toFinset ∩ bag.toFinset).card := by
  refine Finset.card_bij (fun i hi => bag.get ⟨i, (mem_marked.mp hi).1⟩) (fun i hi => ?_) (fun i hi j hj heq => ?_)
    fun aid haid => ?_
  · obtain ⟨hlt, hin⟩ := mem_marked.mp hi
    exact Finset.mem_inter.mpr ⟨List.mem_toFinset.mpr hin, List.mem_toFinset.mpr (List.get_mem bag ⟨i, hlt⟩)⟩
  · exact Fin.mk.inj (hbag.injective_get heq)
  · obtain ⟨hex, hin⟩ := Finset.mem_inter.mp haid
    obtain ⟨i, rfl⟩ := List.get_of_mem (List.mem_toFinset.mp hin)
    exact ⟨i.1, mem_marked.mpr ⟨i.2, List.mem_toFinset.mp hex⟩, rfl⟩

private theorem card_pairs (hbag : bag.Nodup) : (pairs_of bag).card = bag.length * (bag.length - 1) / 2 := by
  unfold pairs_of
  rw [Sym2.card_image_offDiag, List.toFinset_card_of_nodup hbag, Nat.choose_two_right]

private theorem marked_le (excluded : List Aid) : (marked_positions excluded bag).card ≤ bag.length :=
  (Finset.card_filter_le _ _).trans (Finset.card_range _).le

private theorem blind_le (scope : LabelScope) (marked : Finset ℕ) : (blind scope bag marked).card ≤ marked.card :=
  Finset.card_filter_le _ _

end Bags

section Recording
variable (bag : List Aid) (promoted : ℕ) (ctx : LabelContext)

private theorem assertion_within :
    (∀ k ∈ (annotate bag promoted ctx).assertion.excluded_reconciled, k ≤ bag.length) ∧
    ∀ n ∈ (annotate bag promoted ctx).assertion.excluded_reconciled_out_of_scope,
      ∃ k ∈ (annotate bag promoted ctx).assertion.excluded_reconciled, n ≤ k := by
  unfold annotate
  dsimp only
  rcases ctx.exclusion with _ | exclusion
  · exact ⟨fun _ hk => (nomatch hk), fun _ hn => (nomatch hn)⟩
  rw [Option.map_some, Option.getD_some]
  unfold assertion
  dsimp only
  split
  · exact ⟨fun _ hk => (nomatch hk), fun _ hn => (nomatch hn)⟩
  · refine ⟨fun k hk => Option.some.inj hk ▸ marked_le _, fun n hn => ⟨_, rfl, ?_⟩⟩
    obtain ⟨scope, -, rfl⟩ := Option.map_eq_some_iff.mp hn
    exact blind_le scope _

private theorem reconciled_annotate (r : Label) (hmembers : r.members = bag)
    (hexclusion : r.exclusion = (ctx.exclusion.map Exclusion.alarm_ids).getD []) :
    Reconciled r (annotate bag promoted ctx) := by
  obtain ⟨hwithin, hblind⟩ := assertion_within bag promoted ctx
  refine ⟨fun hbag => ?_, hblind, fun k hk => hmembers ▸ hwithin k hk, ?_⟩
  · unfold reconciled_marks
    rw [hmembers, hexclusion]
    rw [hmembers] at hbag
    unfold annotate
    dsimp only
    rcases ctx.exclusion with _ | exclusion
    · exact (if_pos rfl).symm
    rw [Option.map_some, Option.getD_some, Option.map_some, Option.getD_some]
    unfold assertion
    dsimp only
    split
    · rfl
    · exact congrArg some (card_marked hbag _)
  · rw [hmembers]
    show (coverage bag promoted).coverage = .empty ↔ _
    unfold coverage
    split
    · rename_i hempty
      exact iff_of_true rfl hempty
    · rename_i hsome
      refine iff_of_false ?_ hsome
      dsimp only
      split
      · exact State.noConfusion
      · split <;> exact State.noConfusion

end Recording

section Promotion
variable {pairs pairs' : List DatasetPair} {sid : Sid} {p : Sym2 Aid}

private theorem mem_sink {row : DatasetPair} :
    row ∈ sink pairs sid ↔ row ∈ pairs ∧ row.situation_id = some sid ∧ row.promoted = false := by
  unfold sink
  rw [List.mem_filter, decide_eq_true_eq]

/-- A label promotes the rows of the sink, and the others stay what they are. -/
private theorem promoted_promote : Promoted (promote_for_situation pairs sid).1 p ↔
    Promoted pairs p ∨ ∃ row ∈ sink pairs sid, row.pair = p := by
  constructor
  · rintro ⟨row', hrow', hpromoted, rfl⟩
    obtain ⟨row, hrow, rfl⟩ := List.mem_map.mp hrow'
    split at hpromoted
    · rename_i hsink
      refine .inr ⟨row, mem_sink.mpr ⟨hrow, hsink⟩, ?_⟩
      rw [if_pos hsink]
      rfl
    · rename_i hsink
      refine .inl ⟨row, hrow, hpromoted, ?_⟩
      rw [if_neg hsink]
  · rintro (⟨row, hrow, hpromoted, rfl⟩ | ⟨row, hrow, rfl⟩)
    · refine ⟨_, List.mem_map_of_mem hrow, ?_⟩
      have hno : ¬ (row.situation_id = some sid ∧ row.promoted = false) := fun h => by
        rw [hpromoted] at h
        exact nomatch h.2
      rw [if_neg hno]
      exact ⟨hpromoted, rfl⟩
    · obtain ⟨hmem, hsink⟩ := mem_sink.mp hrow
      refine ⟨_, List.mem_map_of_mem hmem, ?_⟩
      rw [if_pos hsink]
      exact ⟨rfl, rfl⟩

private theorem promoted_capture (others : List Aid) (entry : Aid) (situation : Option Sid) :
    Promoted (pairs ++ others.map fun other =>
      { alarm_a := other, alarm_b := entry, situation_id := situation }) p ↔ Promoted pairs p := by
  constructor
  · rintro ⟨row, hrow, hpromoted, rfl⟩
    rcases List.mem_append.mp hrow with hrow | hrow
    · exact ⟨row, hrow, hpromoted, rfl⟩
    · obtain ⟨other, -, rfl⟩ := List.mem_map.mp hrow
      exact nomatch hpromoted
  · rintro ⟨row, hrow, h⟩
    exact ⟨row, List.mem_append_left _ hrow, h⟩

private theorem promoted_prune (gone : DatasetPair → Bool) :
    Promoted (pairs.filter fun row => row.promoted || !gone row) p ↔ Promoted pairs p := by
  constructor
  · rintro ⟨row, hrow, h⟩
    exact ⟨row, List.mem_of_mem_filter hrow, h⟩
  · rintro ⟨row, hrow, hpromoted, hp⟩
    exact ⟨row, List.mem_filter.mpr ⟨hrow, by rw [hpromoted, Bool.true_or]⟩, hpromoted, hp⟩

/-- Where no pair of its bag has been promoted since, or has lost its rows. -/
private theorem Covered.congr {r : Label} {a : Annotation} (h : Covered pairs r a)
    (hp : ∀ p ∈ pairs_of r.members, Promoted pairs' p ↔ Promoted pairs p) : Covered pairs' r a := by
  refine ⟨h.distinct, h.key, fun hn => (h.full hn).trans ?_, fun hn => (h.none hn).trans ?_⟩
  · exact forall₂_congr fun p hin => (hp p hin).symm
  · exact forall₂_congr fun p hin => not_congr (hp p hin).symm

end Promotion

section States
variable {bag : List Aid} {promoted : ℕ}

private theorem state_none (h : bag ≠ []) : (coverage bag promoted).coverage = .none ↔ promoted = 0 := by
  unfold coverage
  rw [if_neg h]
  dsimp only
  split
  · rename_i hzero
    exact iff_of_true rfl hzero
  · rename_i hsome
    refine iff_of_false ?_ hsome
    split <;> exact State.noConfusion

private theorem state_full (h : bag ≠ []) : (coverage bag promoted).coverage = .full ↔
    promoted ≠ 0 ∧ bag.length * (bag.length - 1) / 2 ≤ promoted := by
  unfold coverage
  rw [if_neg h]
  dsimp only
  split
  · rename_i hzero
    exact iff_of_false State.noConfusion fun hno => hno.1 hzero
  · rename_i hsome
    split
    · rename_i hle
      exact iff_of_true rfl ⟨hsome, hle⟩
    · rename_i hlt
      exact iff_of_false State.noConfusion fun hno => hlt hno.2

/-- The rows that are promoted are as many as the pairs of the bag that they are of. -/
private theorem covered_new {E : Type} {s : Desk E} {sid : Sid} (h : Tidy s sid) (ctx : LabelContext) {r : Label}
    (hmembers : r.members = s.bag sid) (hkey : r.bag_key = bag_key (s.engine.store.alarmsOf sid)) :
    Covered (promote_for_situation s.pairs sid).1 r
      (annotate (s.bag sid) (promote_for_situation s.pairs sid).2 ctx) := by
  let F : Finset (Sym2 Aid) := ((sink s.pairs sid).map DatasetPair.pair).toFinset
  have hmem : ∀ p, p ∈ F ↔ ∃ row ∈ sink s.pairs sid, row.pair = p := fun p => by
    rw [List.mem_toFinset, List.mem_map]
  have hcount : 2 ≤ (s.bag sid).length → F.card = (sink s.pairs sid).length := fun hn => by
    rw [List.toFinset_card_of_nodup (h.once hn), List.length_map]
  have hsub : 2 ≤ (s.bag sid).length → F ⊆ pairs_of (s.bag sid) := fun hn p hp => by
    obtain ⟨row, hrow, rfl⟩ := (hmem p).mp hp
    exact h.inside hn row hrow
  have hpromoted : 2 ≤ (s.bag sid).length → ∀ p ∈ pairs_of (s.bag sid),
      Promoted (promote_for_situation s.pairs sid).1 p ↔ p ∈ F := fun hn p hp => by
    rw [promoted_promote, hmem]
    refine or_iff_right ?_
    rintro ⟨row, hrow, hpro, rfl⟩
    exact h.fresh hn row hrow hpro hp
  have hbag : 2 ≤ (s.bag sid).length → s.bag sid ≠ [] := fun hn hempty => by
    rw [hempty] at hn
    exact absurd hn (by decide)
  refine ⟨hmembers ▸ h.distinct, ?_, fun hn => ?_, fun hn => ?_⟩
  · rw [hkey, hmembers]
    exact bag_key_congr h.members.symm
  · rw [hmembers] at hn ⊢
    refine (state_full (hbag hn)).trans ?_
    have hpos : 0 < (s.bag sid).length * ((s.bag sid).length - 1) / 2 := by
      rw [← Nat.choose_two_right]
      exact Nat.choose_pos hn
    have hall : (∀ p ∈ pairs_of (s.bag sid), Promoted (promote_for_situation s.pairs sid).1 p) ↔
        pairs_of (s.bag sid) ⊆ F := forall₂_congr (hpromoted hn)
    rw [hall, ← card_pairs h.distinct]
    rw [← card_pairs h.distinct] at hpos
    show (sink s.pairs sid).length ≠ 0 ∧ _ ≤ (sink s.pairs sid).length ↔ _
    rw [← hcount hn]
    constructor
    · rintro ⟨-, hle⟩
      exact (Finset.eq_of_subset_of_card_le (hsub hn) hle).ge
    · intro hback
      have hle := Finset.card_le_card hback
      exact ⟨by omega, hle⟩
  · rw [hmembers] at hn ⊢
    refine (state_none (hbag hn)).trans ?_
    show (sink s.pairs sid).length = 0 ↔ _
    rw [← hcount hn, Finset.card_eq_zero]
    constructor
    · intro hempty p hp hpro
      have := (hpromoted hn p hp).mp hpro
      rw [hempty] at this
      exact Finset.notMem_empty p this
    · intro hno
      refine Finset.eq_empty_of_forall_notMem fun p hp => ?_
      exact hno p (hsub hn hp) ((hpromoted hn p (hsub hn hp)).mpr hp)

end States

def start {E : Type} (engine : Engine E) : Desk E := { engine := engine }

/-- What holds of every label that was annotated. -/
def Desk.Annotated {E : Type} (s : Desk E) (P : Label → Annotation → Prop) : Prop :=
  ∀ r ∈ s.feedback, ∀ a ∈ r.annotated, P r a

instance {E : Type} (s : Desk E) (P : Label → Annotation → Prop) [∀ r a, Decidable (P r a)] :
    Decidable (s.Annotated P) := inferInstanceAs (Decidable (∀ r ∈ s.feedback, ∀ a ∈ r.annotated, P r a))

section Runs
variable {E : Type} {s : Desk E}

private theorem annotated_append {P : Label → Annotation → Prop} {pairs : List DatasetPair} {row : Label}
    (h : s.Annotated P) (hrow : ∀ a ∈ row.annotated, P row a) :
    ({ s with pairs := pairs, feedback := s.feedback ++ [row] } : Desk E).Annotated P := by
  intro r hr
  rcases List.mem_append.mp hr with hr | hr
  · exact h r hr
  · obtain rfl := List.mem_singleton.mp hr
    exact hrow

variable [Zero E] [Add E] [Div E] [NatCast E] [BEq E] [LT E] [DecidableLT E]

private theorem reconciled_step (h : s.Annotated Reconciled) (op : Op E) : (step s op).Annotated Reconciled := by
  cases op with
  | membership | capture | prune_sink => exact h
  | post sid verdict scope excluded_ids remainder_together channel captured =>
    show Desk.Annotated (if s.inserts sid verdict then _ else s) Reconciled
    split
    · unfold Desk.record_label
      dsimp only
      split
      · exact annotated_append h fun a ha => Option.some.inj ha ▸ reconciled_annotate _ _ _ _ rfl rfl
      · exact annotated_append h fun a ha => (nomatch ha)
    · exact h

private theorem covered_step (h : s.Annotated (Covered s.pairs)) {op : Op E} (hsure : Sure s op) :
    (step s op).Annotated (Covered (step s op).pairs) := by
  cases op with
  | membership => exact h
  | capture others entry situation =>
    exact fun r hr a ha => (h r hr a ha).congr fun p _ => promoted_capture others entry situation
  | prune_sink gone => exact fun r hr a ha => (h r hr a ha).congr fun p _ => promoted_prune gone
  | post sid verdict scope excluded_ids remainder_together channel captured =>
    show Desk.Annotated (if s.inserts sid verdict then _ else s)
      (Covered (if s.inserts sid verdict then _ else s : Desk E).pairs)
    split
    · rename_i hinserts
      unfold Desk.record_label
      dsimp only
      split
      · rename_i hcaptured
        have htidy : Tidy s sid := hsure hinserts (Bool.and_eq_true .. ▸ hcaptured).1
        refine annotated_append (s := s) (fun r hr a ha => (h r hr a ha).congr fun p hp => ?_)
          fun a ha => Option.some.inj ha ▸ covered_new htidy _ rfl rfl
        rw [promoted_promote]
        refine or_iff_left_of_imp ?_
        rintro ⟨row, hrow, rfl⟩
        exact htidy.apart r hr row hrow hp
      · exact annotated_append h fun a ha => (nomatch ha)
    · exact h

/-- Marks and bag of every label, and, where captured labels are tidy, what is promoted of the bag. -/
theorem labels_exact (engine : Engine E) (ops : List (Op E)) :
    (run step (start engine) ops).Annotated Reconciled ∧
      (Meets step Sure (start engine) ops →
        reconciliation_drift (run step (start engine) ops).feedback = [] ∧
          (run step (start engine) ops).Annotated (Covered (run step (start engine) ops).pairs)) := by
  have hreconciled : (run step (start engine) ops).Annotated Reconciled := by
    induction ops using List.reverseRecOn with
    | nil => exact fun r hr => (List.not_mem_nil hr).elim
    | append_singleton ops op ih =>
      rw [run_append]
      exact reconciled_step ih op
  refine ⟨hreconciled, fun h => ?_⟩
  have hcovered : (run step (start engine) ops).Annotated (Covered (run step (start engine) ops).pairs) :=
    run_invariant (I := fun s : Desk E => s.Annotated (Covered s.pairs)) (fun _ _ hs ht => covered_step hs ht) _ ops
      (fun r hr => (List.not_mem_nil hr).elim) h
  refine ⟨List.filter_eq_nil_iff.mpr fun r hr hdrift => ?_, hcovered⟩
  obtain ⟨n, hn, hne⟩ := (Option.any_eq_true _ _).mp hdrift
  obtain ⟨a, ha, hcount⟩ := Option.bind_eq_some_iff.mp hn
  rw [(hreconciled r hr a ha).counted (hcovered r hr a ha).distinct] at hcount
  split at hcount
  · exact nomatch hcount
  · exact of_decide_eq_true hne (Option.some.inj hcount).symm

end Runs

private def quiet : Engine ℚ := Engine.fresh Engine.empty.1 Engine.clustered

/-- Three alarms in one situation, and one in another. -/
private def grouped : List (Op ℚ) := [
  .membership (.assign ⟨1, 1, 1, 0⟩ []), .membership (.assign ⟨2, 2, 2, 1⟩ [⟨1, 1, true⟩]),
  .membership (.assign ⟨3, 3, 3, 2⟩ [⟨1, 1, true⟩]), .membership (.assign ⟨4, 4, 4, 3⟩ [])]

private def confirms (sid : Sid) : Op ℚ := .post sid .confirm {} none none "organic" true

/-- A split that marks a member twice, and one that is none. -/
theorem labels_exact_marked :
    let ops := grouped ++ [.capture [1] 2 (some 1), .capture [1, 2] 3 (some 1),
      .post 1 .split {} (some [2, 2, 9]) none "organic" true]
    (run step (start quiet) ops).Annotated (Covered (run step (start quiet) ops).pairs) :=
  ((labels_exact quiet _).2 (by decide +kernel)).2

/-- The situation has been merged, and its bag is empty. -/
private def emptied : List (Op ℚ) := grouped ++ [.membership (.merge 1 2 4), confirms 2]

/-- A verdict is changed when all pairs have been promoted. -/
private def revised : List (Op ℚ) := grouped ++ [.capture [1] 2 (some 1), .capture [1, 2] 3 (some 1),
  confirms 1, .post 1 .split {} none none "organic" true]

/-- An alarm is activated again, and its pairs are captured again. -/
private def recaptured : List (Op ℚ) := grouped ++ [.capture [1] 2 (some 1), .capture [1] 2 (some 1),
  .capture [1] 3 (some 1), confirms 1]

/-- An empty bag is not full, though none of its pairs is missing; a label reads none where all pairs are promoted,
and full where one is not. -/
theorem labels_inexact :
    (¬ (run step (start quiet) emptied).Annotated fun r a =>
      a.coverage.coverage = .full ↔ ∀ p ∈ pairs_of r.members, Promoted (run step (start quiet) emptied).pairs p) ∧
    (¬ (run step (start quiet) revised).Annotated fun r a =>
      a.coverage.coverage = .none ↔ ∀ p ∈ pairs_of r.members, ¬ Promoted (run step (start quiet) revised).pairs p) ∧
    ¬ (run step (start quiet) recaptured).Annotated fun r a =>
      a.coverage.coverage = .full ↔
        ∀ p ∈ pairs_of r.members, Promoted (run step (start quiet) recaptured).pairs p := by
  decide +kernel

end NetCoreNoc.Operate.Labels
