import Mathlib
import NetCoreNoc.Correlate.Affinity
import NetCoreNoc.Evaluation.Seal
import NetCoreNoc.Operate.Membership

/-! Operator feedback (`Engine.apply_feedback`, `store/feedback.py`): the rows on record, and what their verdicts have
done to what is learned, while requests fail after the engine was asked and processes restart. -/
namespace NetCoreNoc.Operate.Feedback
open Runs Writeback Situations Correlate
open Json (Str)
open Evaluation.Holdout (comma_joined)

inductive Verdict where
  | confirm
  | split
  deriving DecidableEq, Repr

/-- The identity of a bag: a digest over its members as a set. -/
def bag_key (alarm_ids : List Aid) : Str := Sha256.sha256 (comma_joined (alarm_ids.dedup.insertionSort (· ≤ ·)))

/-- Neither the order nor a repetition is part of it. -/
theorem bag_key_congr {ids ids' : List Aid} (h : ids.toFinset = ids'.toFinset) : bag_key ids = bag_key ids' := by
  have hperm : (ids.dedup.insertionSort (· ≤ ·)).Perm (ids'.dedup.insertionSort (· ≤ ·)) :=
    (List.perm_insertionSort _ _).trans
      ((List.toFinset_eq_iff_perm_dedup.mp h).trans (List.perm_insertionSort _ _).symm)
  have hsorted (l : List Aid) : (l.insertionSort (· ≤ ·)).Pairwise (· ≤ ·) := List.pairwise_insertionSort _ _
  exact congrArg (fun l => Sha256.sha256 (comma_joined l)) (hperm.eq_of_pairwise' (hsorted _) (hsorted _))

/-- `Exclusion.marked_positions` -/
def marked_positions (excluded bag : List Aid) : Finset ℕ :=
  (Finset.range bag.length).filter fun i => bag[i]?.any (· ∈ excluded)

/-- A row, with the bag and the marks that are recorded beside it. -/
structure Row where
  situation_id : Sid
  verdict : Verdict
  bag_key : Str
  bag : List (Aid × Place)
  marked : Option (Finset ℕ)
  deriving DecidableEq

namespace Row
variable (r : Row)

def items : List Place := r.bag.map Prod.snd

/-- What the index is unique over. -/
def index : Sid × Verdict × Str := (r.situation_id, r.verdict, r.bag_key)

/-- A confirm reinforces, and the clock stays; a split penalizes. -/
def effect (l : Learner) : Learner := match r.verdict with
  | .confirm => l.learn_epoch r.items false
  | .split => l.penalize r.items r.marked

/-- The row asserts no pair: its bag has less than two members, or a split marks none or all of them. -/
def Moot : Prop := match r.verdict with
  | .confirm => combinations (r.items.take EPOCH_PAIR_CAP) = []
  | .split => (combinations (r.items.take EPOCH_PAIR_CAP).zipIdx).filter
      (fun p => r.marked.all fun s => decide (p.1.2 ∈ s) != decide (p.2.2 ∈ s)) = []

instance : DecidablePred Moot := fun r => by
  unfold Moot
  split <;> infer_instance

end Row

/-- What else teaches the learner: its clock, the traps and the situations that close. -/
inductive Lesson where
  | advance_to (ts : ℚ)
  | activation (item : Place)
  | pairs (new : Place) (others : List Place) (storm : Bool)
  | epoch (members : List Place)

def Lesson.teach (l : Learner) : Lesson → Learner
  | .advance_to ts => l.advance_to ts
  | .activation item => l.observe_activation item
  | .pairs new others storm => l.observe_pairs new others storm
  | .epoch members => l.learn_epoch members true

/-- The engine and its learner in memory, the saved matrices, and the rows. -/
structure Desk (E : Type) where
  engine : Engine E
  learner : Learner := {}
  edge_class : Entries Sides Mass := .empty
  edge_device : Entries Sides Mass := .empty
  matrix_class : Option MatrixState := none
  matrix_device : Option MatrixState := none
  feedback : List Row := []

/-- What happens. A request fails after the engine was asked where it does not commit; one that fails before leaves
nothing and is no step. -/
inductive Op (E : Type) where
  | lesson (lesson : Lesson)
  | membership (op : EngineOp E)
  | post (sid : Sid) (verdict : Verdict) (exclusion : Option (List Aid)) (commits : Bool)
  /-- the maintenance pass saves the learner -/
  | save
  | restart

/-- What `Matrix.load_state` makes of what was saved. -/
def loaded (state : Option MatrixState) (edges : Entries Sides Mass) : Matrix :=
  (state.map (Matrix.load_state · edges)).getD {}

section Desk
variable {E : Type} (s : Desk E)

/-- The bag from the engine, or from the tables where the engine does not hold the situation. -/
def server_bag (e : Engine E) (sid : Sid) : List (Aid × Place) :=
  match e.members sid with
  | some members => members.map fun m => (m.alarm_id, m.class_id, m.device_id)
  | none => ((e.store.alarmsOf sid).insertionSort (· ≤ ·)).filterMap fun a =>
      (e.store.alarm a).map fun r => (a, r.class_id, r.ne_id)

/-- The row that a post inserts: none where there is no such situation, and none where it is on record. -/
def Desk.recorded (sid : Sid) (verdict : Verdict) (exclusion : Option (List Aid)) : Option Row :=
  let key := bag_key (s.engine.store.alarmsOf sid)
  if (s.engine.store.situation sid).isSome ∧ (sid, verdict, key) ∉ s.feedback.map Row.index then
    let bag := server_bag s.engine sid
    -- an exclusion that came with a confirm is dropped
    let marked := if verdict = .split then exclusion.map (marked_positions · (bag.map Prod.fst)) else none
    some ⟨sid, verdict, key, bag, marked⟩
  else none

/-- The effect on what is learned stays in memory where the row is rolled back. -/
def Desk.apply_feedback (sid : Sid) (verdict : Verdict) (exclusion : Option (List Aid)) (commits : Bool) : Desk E :=
  match s.recorded sid verdict exclusion with
  | some row => { s with
      learner := row.effect s.learner
      feedback := if commits then s.feedback ++ [row] else s.feedback }
  | none => s

def Desk.save : Desk E := { s with
  learner := { s.learner with A := s.learner.A.flushed, E := s.learner.E.flushed }
  edge_class := s.edge_class.upsert s.learner.A.rows
  edge_device := s.edge_device.upsert s.learner.E.rows
  matrix_class := some s.learner.A.state
  matrix_device := some s.learner.E.state }

def Desk.restart : Desk E := { s with
  engine := s.engine.reload
  learner := ⟨loaded s.matrix_class s.edge_class, loaded s.matrix_device s.edge_device, false⟩ }

variable [Zero E] [Add E] [Div E] [NatCast E] [BEq E] [LT E] [DecidableLT E]

def Desk.step : Op E → Desk E
  | .lesson lesson => { s with learner := lesson.teach s.learner }
  | .membership op => { s with engine := s.engine.step op }
  | .post sid verdict exclusion commits => s.apply_feedback sid verdict exclusion commits
  | .save => s.save
  | .restart => s.restart

end Desk

/-- What the matrices are to stand for. -/
inductive Event where
  | lesson (lesson : Lesson)
  | row (row : Row)
  | restart

def Event.apply (l : Learner) : Event → Learner
  | .lesson x => x.teach l
  | .row r => r.effect l
  | .restart => { l with clocked := false }

def replay (events : List Event) : Learner := events.foldl Event.apply {}

def Event.row? : Event → Option Row
  | .row r => some r
  | _ => none

def rows (events : List Event) : List Row := events.filterMap Event.row?

/-- The desk, beside the lessons that are in force and the rows that were committed, each once and in their order. A
restart goes back to the lessons that were saved; the rows stay committed. -/
structure Ledger (E : Type) where
  desk : Desk E
  taught : List Event := []
  /-- so many of them are saved -/
  kept : ℕ := 0

/-- The rows that have been committed since the matrices were saved. -/
def Ledger.unsaved {E : Type} (l : Ledger E) : List Row := rows (l.taught.drop l.kept)

def start {E : Type} (engine : Engine E) : Ledger E := { desk := { engine := engine } }

section Ledger
variable {E : Type} [Zero E] [Add E] [Div E] [NatCast E] [BEq E] [LT E] [DecidableLT E]

def step (l : Ledger E) (op : Op E) : Ledger E :=
  let desk := l.desk.step op
  match op with
  | .lesson lesson => { l with desk := desk, taught := l.taught ++ [.lesson lesson] }
  | .membership _ => { l with desk := desk }
  | .post sid verdict exclusion commits =>
    let row := if commits then l.desk.recorded sid verdict exclusion else none
    { l with desk := desk, taught := l.taught ++ row.toList.map .row }
  | .save => { l with desk := desk, kept := l.taught.length }
  | .restart => { l with desk := desk, taught := l.taught.take l.kept ++ (l.unsaved.map .row ++ [.restart]) }

end Ledger

/-- Two matrices report the same masses, as of the same epoch. -/
structure Alike (m m' : Matrix) : Prop where
  epoch : m.epoch = m'.epoch
  mass : ∀ key, m.mass key = m'.mass key
  activation : ∀ item, m.activation item = m'.activation item
  activations : m.activations = m'.activations

/-- Each committed row has had its effect once, and nothing else has: a post of what is on record does nothing, and
what is on record is about the bag that it names. -/
structure Counted {E : Type} [Zero E] [Add E] [Div E] [NatCast E] [BEq E] [LT E] [DecidableLT E] (l : Ledger E) :
    Prop where
  rows : rows l.taught = l.desk.feedback
  unique : (l.desk.feedback.map Row.index).Nodup
  classes : Alike l.desk.learner.A (replay l.taught).A
  elements : Alike l.desk.learner.E (replay l.taught).E
  named : ∀ r ∈ l.desk.feedback, r.bag_key = bag_key (r.bag.map Prod.fst)
  repeated : ∀ r ∈ l.desk.feedback, bag_key (l.desk.engine.store.alarmsOf r.situation_id) = r.bag_key →
    ∀ exclusion commits, l.desk.step (.post r.situation_id r.verdict exclusion commits) = l.desk

/-- A row that a request inserts is committed, and the engine holds the members that the table has; or the row asserts
nothing. No restart comes between a row that asserts something and the next save. -/
def Sure {E : Type} (l : Ledger E) : Op E → Prop
  | .post sid verdict exclusion commits => ∀ row ∈ l.desk.recorded sid verdict exclusion,
    if commits then (row.bag.map Prod.fst).toFinset = (l.desk.engine.store.alarmsOf sid).toFinset else row.Moot
  | .restart => ∀ row ∈ l.unsaved, row.Moot
  | _ => True

instance {E : Type} (l : Ledger E) : DecidablePred (Sure l)
  | .post sid verdict exclusion commits => inferInstanceAs (Decidable (∀ row ∈ l.desk.recorded sid verdict exclusion,
    if commits then (row.bag.map Prod.fst).toFinset = (l.desk.engine.store.alarmsOf sid).toFinset else row.Moot))
  | .restart => inferInstanceAs (Decidable (∀ row ∈ l.unsaved, row.Moot))
  | .lesson _ | .membership _ | .save => .isTrue trivial

section Learning
variable {m m' : Matrix} {r : Reference}

/-- What a matrix reports, as a reference. -/
private def reading (m : Matrix) : Reference := ⟨m.epoch, m.activations, m.mass, m.activation⟩

private theorem reads_self (m : Matrix) : Reads m (reading m) := ⟨rfl, rfl, fun _ => rfl, fun _ => rfl⟩

private theorem alike_of_reads (h : Reads m r) (h' : Reads m' r) : Alike m m' :=
  ⟨h.epoch.trans h'.epoch.symm, fun key => (h.pairs key).trans (h'.pairs key).symm,
    fun item => (h.marginals item).trans (h'.marginals item).symm, h.total.trans h'.total.symm⟩

private theorem Alike.reads (h : Alike m m') : Reads m' (reading m) :=
  ⟨h.epoch.symm, h.activations.symm, fun key => (h.mass key).symm, fun item => (h.activation item).symm⟩

/-- What a reference can follow keeps two matrices alike. -/
private theorem Alike.map (h : Alike m m') {f : Matrix → Matrix} {g : Reference → Reference}
    (hf : ∀ m r, Reads m r → Reads (f m) (g r)) : Alike (f m) (f m') :=
  alike_of_reads (hf _ _ (reads_self m)) (hf _ _ h.reads)

private theorem reads_observe (weight : ℚ) (keys : List Sides) (h : Reads m r) :
    Reads (keys.foldl (·.observe_pair weight ·) m) (keys.foldl (·.observe_pair weight ·) r) := by
  induction keys generalizing m r with
  | nil => exact h
  | cons key keys ih => exact ih (h.observe_pair weight key)

private theorem reads_scale (factor : ℚ) (keys : List Sides) (h : Reads m r) :
    Reads (keys.foldl (·.scale_pair factor ·) m) (keys.foldl (·.scale_pair factor ·) r) := by
  induction keys generalizing m r with
  | nil => exact h
  | cons key keys ih => exact ih (h.scale_pair factor key)

/-- The clock, which rebases a matrix that counted something else before. -/
private theorem Alike.advance (h : Alike m m') (clocked : Bool) (epoch : ℤ) :
    Alike ((if !clocked && m.epoch < epoch - 24 * 365 * 10 then m.rebase epoch else m).advance_to epoch)
      ((if !clocked && m'.epoch < epoch - 24 * 365 * 10 then m'.rebase epoch else m').advance_to epoch) := by
  refine Alike.map ?_ fun _ _ hr => hr.advance_to epoch
  rw [h.epoch]
  split
  · exact h.map fun _ _ hr => hr.rebase epoch
  · exact h

/-- Two learners report the same. -/
private structure Same (l l' : Learner) : Prop where
  A : Alike l.A l'.A
  E : Alike l.E l'.E
  clocked : l.clocked = l'.clocked

variable {l l' : Learner}

private theorem Same.learn_epoch (h : Same l l') (members : List Place) (advance_epoch : Bool) :
    Same (l.learn_epoch members advance_epoch) (l'.learn_epoch members advance_epoch) := by
  have htick {m m' : Matrix} (hm : Alike m m') :
      Alike (if advance_epoch then m.tick else m) (if advance_epoch then m'.tick else m') := by
    split
    · exact hm.map fun _ _ hr => hr.tick
    · exact hm
  exact ⟨(htick h.A).map fun _ _ => reads_observe _ _, (htick h.E).map fun _ _ => reads_observe _ _, h.clocked⟩

private theorem Same.penalize (h : Same l l') (members : List Place) (marked : Option (Finset ℕ)) :
    Same (l.penalize members marked) (l'.penalize members marked) :=
  ⟨h.A.map fun _ _ => reads_scale _ _, h.E.map fun _ _ => reads_scale _ _, h.clocked⟩

private theorem Same.teach (h : Same l l') (lesson : Lesson) : Same (lesson.teach l) (lesson.teach l') := by
  cases lesson with
  | advance_to ts =>
    have hA := h.A.advance l.clocked ⌊ts / EPOCH_S⌋
    have hE := h.E.advance l.clocked ⌊ts / EPOCH_S⌋
    refine ⟨?_, ?_, rfl⟩
    · show Alike _ ((if !l'.clocked && _ then _ else _ : Matrix).advance_to _)
      rwa [← h.clocked]
    · show Alike _ ((if !l'.clocked && _ then _ else _ : Matrix).advance_to _)
      rwa [← h.clocked]
  | activation item =>
    exact ⟨h.A.map fun _ _ hr => hr.observe_occurrence item.1, h.E.map fun _ _ hr => hr.observe_occurrence item.2,
      h.clocked⟩
  | pairs new others storm =>
    exact ⟨h.A.map fun _ _ => reads_observe _ _, h.E.map fun _ _ => reads_observe _ _, h.clocked⟩
  | epoch members => exact h.learn_epoch members true

private theorem Same.effect (h : Same l l') (row : Row) : Same (row.effect l) (row.effect l') := by
  unfold Row.effect
  split
  · exact h.learn_epoch _ false
  · exact h.penalize _ _

/-- A row that asserts no pair leaves what is learned. -/
private theorem effect_moot {row : Row} (h : row.Moot) (l : Learner) : row.effect l = l := by
  unfold Row.Moot at h
  unfold Row.effect
  split
  · rename_i hv
    rw [hv] at h
    unfold Learner.learn_epoch
    rw [h]
    rfl
  · rename_i hv
    rw [hv] at h
    unfold Learner.penalize
    dsimp only
    rw [h]
    rfl

variable {edges : Entries Sides Mass}

/-- A matrix and its state, once it has been saved. -/
private theorem saved_alike {m : Matrix} (hb : m.Backed edges) {m' : Matrix}
    (h : Alike m m') : Alike (loaded (some m.state) (edges.upsert m.rows)) m' :=
  alike_of_reads ((reads_self m).saved hb) h.reads

private theorem flushed_alike (h : Alike m m') : Alike m.flushed m' := ⟨h.epoch, h.mass, h.activation, h.activations⟩

private theorem flushed_backed (hb : m.Backed edges) :
    m.flushed.Backed (edges.upsert m.rows) :=
  Table.synced_of_agrees rfl (Table.Synced.flush hb (Matrix.settled_decayed m))

private theorem loaded_backed {state : Option MatrixState}
    (hfresh : state = none → ∀ key, edges.get key = none) : (loaded state edges).Backed edges := by
  unfold loaded
  cases state with
  | none =>
    refine Table.synced_of_agrees rfl fun key => ?_
    rw [hfresh rfl key]
    rfl
  | some state => exact Table.synced_of_agrees rfl fun _ => rfl

private theorem backed_teach {edge_class edge_device : Entries Sides Mass} (h : l.Backed edge_class edge_device)
    (lesson : Lesson) : (lesson.teach l).Backed edge_class edge_device := by
  cases lesson with
  | advance_to ts => exact h.advance_to ts
  | activation item => exact ⟨h.A, h.E⟩
  | pairs new others storm => exact h.observe_pairs new others storm
  | epoch members => exact h.learn_epoch members true

private theorem backed_effect {edge_class edge_device : Entries Sides Mass} (h : l.Backed edge_class edge_device)
    (row : Row) : (row.effect l).Backed edge_class edge_device := by
  unfold Row.effect
  split
  · exact h.learn_epoch _ false
  · exact h.penalize _ _

end Learning

private theorem replay_append (events more : List Event) :
    replay (events ++ more) = more.foldl Event.apply (replay events) := List.foldl_append

private theorem rows_append (events more : List Event) : rows (events ++ more) = rows events ++ rows more :=
  List.filterMap_append

private theorem rows_map (l : List Row) : rows (l.map .row) = l := by
  unfold rows
  rw [List.filterMap_map]
  exact List.filterMap_some

private theorem foldl_moot {l : List Row} (h : ∀ row ∈ l, row.Moot) (learner : Learner) :
    (l.map Event.row).foldl Event.apply learner = learner := by
  induction l with
  | nil => rfl
  | cons row l ih =>
    rw [List.map_cons, List.foldl_cons]
    have hrow : Event.apply learner (.row row) = learner := effect_moot (h row List.mem_cons_self) learner
    rw [hrow]
    exact ih fun r hr => h r (List.mem_cons_of_mem _ hr)

/-- What memory and what is saved stand for. -/
private structure Even {E : Type} (l : Ledger E) : Prop where
  rows : rows l.taught = l.desk.feedback
  unique : (l.desk.feedback.map Row.index).Nodup
  named : ∀ r ∈ l.desk.feedback, r.bag_key = bag_key (r.bag.map Prod.fst)
  current : Same l.desk.learner (replay l.taught)
  kept : l.kept ≤ l.taught.length
  classes : Alike (loaded l.desk.matrix_class l.desk.edge_class) (replay (l.taught.take l.kept)).A
  elements : Alike (loaded l.desk.matrix_device l.desk.edge_device) (replay (l.taught.take l.kept)).E
  backed : l.desk.learner.Backed l.desk.edge_class l.desk.edge_device
  first_class : l.desk.matrix_class = none → ∀ key, l.desk.edge_class.get key = none
  first_device : l.desk.matrix_device = none → ∀ key, l.desk.edge_device.get key = none

section Steps
variable {E : Type} {l : Ledger E}

/-- What is inserted names a situation, a verdict and a bag that are not on record together. -/
private theorem recorded_some {s : Desk E} {sid : Sid} {verdict : Verdict} {exclusion : Option (List Aid)} {row : Row}
    (h : s.recorded sid verdict exclusion = some row) :
    row.index ∉ s.feedback.map Row.index ∧ row.bag_key = bag_key (s.engine.store.alarmsOf sid) := by
  unfold Desk.recorded at h
  dsimp only at h
  split at h
  · rename_i hnew
    obtain rfl := Option.some.inj h
    exact ⟨hnew.2, rfl⟩
  · exact nomatch h

/-- More is taught, and nothing else changes of what is saved. -/
private theorem Even.told (h : Even l) {s : Desk E} (more : List Event) (hedges : s.edge_class = l.desk.edge_class ∧
      s.edge_device = l.desk.edge_device ∧ s.matrix_class = l.desk.matrix_class ∧
      s.matrix_device = l.desk.matrix_device)
    (hrows : Feedback.rows (l.taught ++ more) = s.feedback) (hunique : (s.feedback.map Row.index).Nodup)
    (hnamed : ∀ r ∈ s.feedback, r.bag_key = bag_key (r.bag.map Prod.fst))
    (hcurrent : Same s.learner (replay (l.taught ++ more)))
    (hbacked : s.learner.Backed s.edge_class s.edge_device) :
    Even { l with desk := s, taught := l.taught ++ more } := by
  obtain ⟨hclass, hdevice, hmatrix_class, hmatrix_device⟩ := hedges
  have htake : (l.taught ++ more).take l.kept = l.taught.take l.kept := List.take_append_of_le_length h.kept
  refine ⟨hrows, hunique, hnamed, hcurrent, ?_, ?_, ?_, hbacked, ?_, ?_⟩
  · exact h.kept.trans (by rw [List.length_append]; omega)
  · show Alike (loaded s.matrix_class s.edge_class) (replay ((l.taught ++ more).take l.kept)).A
    rw [htake, hclass, hmatrix_class]
    exact h.classes
  · show Alike (loaded s.matrix_device s.edge_device) (replay ((l.taught ++ more).take l.kept)).E
    rw [htake, hdevice, hmatrix_device]
    exact h.elements
  · show s.matrix_class = none → _
    rw [hclass, hmatrix_class]
    exact h.first_class
  · show s.matrix_device = none → _
    rw [hdevice, hmatrix_device]
    exact h.first_device

private theorem Even.post (h : Even l) {sid : Sid} {verdict : Verdict} {exclusion : Option (List Aid)}
    {commits : Bool} (hsure : Sure l (.post sid verdict exclusion commits)) :
    Even { l with
      desk := l.desk.apply_feedback sid verdict exclusion commits
      taught := l.taught ++ (if commits then l.desk.recorded sid verdict exclusion else none).toList.map .row } := by
  unfold Desk.apply_feedback
  split
  · rename_i row hrow
    have hsure := hsure row hrow
    obtain ⟨hfresh, hkey⟩ := recorded_some hrow
    rw [hrow]
    cases commits with
    | true =>
      refine h.told [.row row] ⟨rfl, rfl, rfl, rfl⟩ ?_ ?_ ?_ ?_ (backed_effect h.backed row)
      · rw [rows_append, h.rows]
        rfl
      · show ((l.desk.feedback ++ [row]).map Row.index).Nodup
        rw [List.map_append, List.nodup_append']
        exact ⟨h.unique, List.nodup_singleton _, List.disjoint_singleton.mpr hfresh⟩
      · intro r hr
        rcases List.mem_append.mp hr with hr | hr
        · exact h.named r hr
        · obtain rfl := List.mem_singleton.mp hr
          rw [if_pos rfl] at hsure
          exact hkey.trans (bag_key_congr hsure.symm)
      · rw [replay_append]
        exact h.current.effect row
    | false =>
      -- what is rolled back asserted nothing
      have hmoot : row.effect l.desk.learner = l.desk.learner := effect_moot hsure _
      refine h.told [] ⟨rfl, rfl, rfl, rfl⟩ ?_ h.unique h.named ?_ ?_
      · rw [List.append_nil]
        exact h.rows
      · show Same (row.effect l.desk.learner) _
        rw [List.append_nil, hmoot]
        exact h.current
      · show (row.effect l.desk.learner).Backed _ _
        rw [hmoot]
        exact h.backed
  · rename_i hnone
    rw [hnone, ite_self]
    exact h.told [] ⟨rfl, rfl, rfl, rfl⟩ (by rw [List.append_nil]; exact h.rows) h.unique h.named
      (by rw [List.append_nil]; exact h.current) h.backed

private theorem Even.save (h : Even l) : Even { l with desk := l.desk.save, kept := l.taught.length } := by
  have hall : l.taught.take l.taught.length = l.taught := List.take_length
  refine ⟨h.rows, h.unique, h.named, ?_, le_rfl, ?_, ?_, ?_, nofun, nofun⟩
  · exact ⟨flushed_alike h.current.A, flushed_alike h.current.E, h.current.clocked⟩
  · show Alike _ (replay (l.taught.take l.taught.length)).A
    rw [hall]
    exact saved_alike h.backed.A h.current.A
  · show Alike _ (replay (l.taught.take l.taught.length)).E
    rw [hall]
    exact saved_alike h.backed.E h.current.E
  · exact ⟨flushed_backed h.backed.A, flushed_backed h.backed.E⟩

private theorem Even.restart (h : Even l) (hsure : ∀ row ∈ l.unsaved, row.Moot) :
    Even { l with
      desk := l.desk.restart, taught := l.taught.take l.kept ++ (l.unsaved.map .row ++ [.restart]) } := by
  have hlength : (l.taught.take l.kept).length = l.kept := List.length_take_of_le h.kept
  have htake : (l.taught.take l.kept ++ (l.unsaved.map Event.row ++ [Event.restart])).take l.kept =
      l.taught.take l.kept :=
    List.take_left' hlength
  refine ⟨?_, h.unique, h.named, ?_, ?_, ?_, ?_, ?_, h.first_class, h.first_device⟩
  · -- the rows before and after the last save
    show Feedback.rows (l.taught.take l.kept ++ (l.unsaved.map Event.row ++ [Event.restart])) = l.desk.feedback
    rw [← h.rows, rows_append, rows_append, rows_map]
    conv_rhs => rw [← List.take_append_drop l.kept l.taught, rows_append]
    exact congrArg _ (List.append_nil _)
  · show Same _ (replay (l.taught.take l.kept ++ (l.unsaved.map Event.row ++ [Event.restart])))
    rw [replay_append, List.foldl_append, foldl_moot hsure]
    exact ⟨h.classes, h.elements, rfl⟩
  · show l.kept ≤ (l.taught.take l.kept ++ _).length
    rw [List.length_append, hlength]
    omega
  · show Alike _ (replay ((l.taught.take l.kept ++ (l.unsaved.map Event.row ++ [Event.restart])).take l.kept)).A
    rw [htake]
    exact h.classes
  · show Alike _ (replay ((l.taught.take l.kept ++ (l.unsaved.map Event.row ++ [Event.restart])).take l.kept)).E
    rw [htake]
    exact h.elements
  · exact ⟨loaded_backed h.first_class, loaded_backed h.first_device⟩

variable [Zero E] [Add E] [Div E] [NatCast E] [BEq E] [LT E] [DecidableLT E]

private theorem even_step (h : Even l) {op : Op E} (hsure : Sure l op) : Even (step l op) := by
  cases op with
  | lesson lesson =>
    refine h.told [.lesson lesson] ⟨rfl, rfl, rfl, rfl⟩ ?_ h.unique h.named ?_ (backed_teach h.backed lesson)
    · rw [rows_append, h.rows]
      exact List.append_nil _
    · rw [replay_append]
      exact h.current.teach lesson
  | membership op =>
    exact ⟨h.rows, h.unique, h.named, h.current, h.kept, h.classes, h.elements, h.backed, h.first_class,
      h.first_device⟩
  | post sid verdict exclusion commits => exact h.post hsure
  | save => exact h.save
  | restart => exact h.restart hsure

omit [Zero E] [Add E] [Div E] [NatCast E] [BEq E] [LT E] [DecidableLT E] in
private theorem even_start (engine : Engine E) : Even (start engine) := by
  have hempty : Alike ({} : Matrix) {} := ⟨rfl, fun _ => rfl, fun _ => rfl, rfl⟩
  have hbacked : (loaded none .empty).Backed .empty := loaded_backed fun _ _ => rfl
  exact ⟨rfl, List.nodup_nil, fun _ hr => (List.not_mem_nil hr).elim, ⟨hempty, hempty, rfl⟩, le_rfl, hempty, hempty,
    ⟨hbacked, hbacked⟩, fun _ _ => rfl, fun _ _ => rfl⟩

private theorem repeated_post {s : Desk E} {r : Row} (hr : r ∈ s.feedback)
    (hkey : bag_key (s.engine.store.alarmsOf r.situation_id) = r.bag_key) (exclusion : Option (List Aid))
    (commits : Bool) : s.step (.post r.situation_id r.verdict exclusion commits) = s := by
  have hnone : s.recorded r.situation_id r.verdict exclusion = none := by
    unfold Desk.recorded
    dsimp only
    rw [hkey]
    exact if_neg fun h => h.2 (List.mem_map_of_mem hr)
  show s.apply_feedback .. = s
  unfold Desk.apply_feedback
  rw [hnone]

theorem feedback_counted (engine : Engine E) (ops : List (Op E)) (h : Meets step Sure (start engine) ops) :
    Counted (run step (start engine) ops) := by
  have heven : Even (run step (start engine) ops) :=
    run_invariant (I := Even) (fun _ _ hs ht => even_step hs ht) _ ops (even_start engine) h
  exact ⟨heven.rows, heven.unique, heven.current.A, heven.current.E, heven.named,
    fun r hr hkey => repeated_post hr hkey⟩

end Steps

private def idle : Engine ℚ := Engine.fresh Engine.empty.1 Engine.clustered

/-- Three alarms in one situation, and one in another. -/
private def bagged : List (Op ℚ) := [
  .membership (.assign ⟨1, 1, 1, 0⟩ []), .membership (.assign ⟨2, 2, 2, 1⟩ [⟨1, 1, true⟩]),
  .membership (.assign ⟨3, 3, 3, 2⟩ [⟨1, 1, true⟩]), .membership (.assign ⟨4, 4, 4, 3⟩ [])]

/-- A confirm is committed and saved, is posted again, and the process restarts. -/
theorem feedback_counted_confirmed : Counted (run step (start idle)
    (bagged ++ [.post 1 .confirm none true, .save, .post 1 .confirm none false, .restart])) :=
  feedback_counted idle _ (by decide +kernel)

/-- A request fails after the engine was asked, and is made again. -/
private def twice : List (Op ℚ) := bagged ++ [.post 1 .confirm none false, .post 1 .confirm none true]

/-- A process restarts before what it learned is saved. -/
private def lost : List (Op ℚ) := bagged ++ [.post 1 .confirm none true, .restart]

/-- The tables with three alarms in one situation, and one in another. -/
private def tables : Tables where
  situation sid := if sid = 1 ∨ sid = 2 then some ⟨.new, 0, none, none, none, none⟩ else none
  next := 3
  situation_alarm := [(1, 1), (1, 2), (1, 3), (2, 4)]

private theorem tables_sequenced : tables.Sequenced := by
  intro sid hsid
  have hlt : 3 ≤ sid := hsid
  have hno : ¬ (sid = 1 ∨ sid = 2) := by
    rintro (rfl | rfl)
    · exact absurd hlt (by decide)
    · exact absurd hlt (by decide)
  show (if sid = 1 ∨ sid = 2 then _ else none : Option Situation).map _ = none
  rw [if_neg hno]
  rfl

/-- A request that moves an alarm fails after it, the tables go back, and the engine keeps the move. -/
private def strayed : List (Op ℚ) := bagged ++ [.membership (.move [3] 1 2 5),
  .membership (.write ⟨tables, tables_sequenced⟩), .post 1 .confirm none true]

/-- The masses of a pair are raised twice, or not at all; a row is about another bag than the one it names. -/
theorem feedback_miscounted : ¬ Counted (run step (start idle) twice) ∧ ¬ Counted (run step (start idle) lost) ∧
    ¬ Counted (run step (start idle) strayed) := by
  refine ⟨fun h => ?_, fun h => ?_, fun h => ?_⟩
  · have hmass := h.classes.mass (sides 1 2)
    revert hmass
    decide +kernel
  · have hmass := h.classes.mass (sides 1 2)
    revert hmass
    decide +kernel
  · have hnamed := h.named
    revert hnamed
    decide +kernel

end NetCoreNoc.Operate.Feedback
