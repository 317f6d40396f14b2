import Mathlib
import NetCoreNoc.Runs
import NetCoreNoc.Tables
import NetCoreNoc.Correlate.Recall
import NetCoreNoc.Operate.League
import NetCoreNoc.Model.Derive

/-! What is kept of each activation (`engine/dataset/capture.py`, `store/dataset.py`): rows, in transactions that may
be undone, and in memory the observations and the counts by which more rows are written. -/
namespace NetCoreNoc.Dataset.Capture
open Tables Runs Correlate Operate.Lifecycle

def MAX_CANDIDATES : ℕ := 100
def MAX_SINK_PAIRS_PER_SITUATION : ℕ := Model.MAX_PAIRS_PER_BAG * 4

/-- The constants that a period of capture shares. -/
structure RunKey where
  scorer_config_id : Option ℕ
  scorer_params_hash : Option String
  sink_days : ℚ
  sink_rows : ℕ
  training_days : ℚ
  audit_days : ℚ
  deriving DecidableEq

structure CaptureRun where
  id : ℕ
  key : RunKey

/-- A row of `dataset_observation`; its lifecycle is `dataset` once it is promoted. -/
structure Observation where
  id : ℕ
  capture_run_id : ℕ
  alarm_id : ℕ
  ne_id : ℕ
  entity_id : ℕ
  class_id : ℕ
  observed_at : ℚ
  alarm_count : ℕ
  severity : Option String
  severity_rank : Option ℤ
  inst : String
  trap_oid : String
  source_address : String
  varbinds : List (String × String)
  promoted_at : Option ℚ := none

/-- A row of `dataset_pair`; its lifecycle is `dataset` once it is promoted. -/
structure Pair (F : Type) where
  capture_run_id : ℕ
  alarm_a : ℕ
  alarm_b : ℕ
  observation_a : Option ℕ
  observation_b : Option ℕ
  situation_id : Option ℕ
  delta_t_s : ℚ
  class_affinity : F
  entity_affinity : F
  a_epoch : ℕ
  e_epoch : ℕ
  score : F
  incumbent_linked : Bool
  storm : Bool
  truncated : Bool
  evaluated_at : ℚ
  /-- as scored; its text has nine decimals -/
  features : Option (List F)
  promoted_at : Option ℚ := none

structure Database (F : Type) where
  capture_run : List CaptureRun := []
  dataset_observation : List Observation := []
  dataset_pair : List (Pair F) := []

/-- A candidate pair and its verdict. -/
structure EvaluatedPair (F : Type) where
  other : Recall.Activation
  result : Option (Verdict F)
  vector : Option (List F) := none
  margin : F
  accepted : Bool := false

/-- What the correlator decided: the alarms that it linked and considered, and every pair that it evaluated. -/
structure CorrelationResult (F : Type) where
  links : List ℕ
  considered : List ℕ
  storm : Bool
  evaluated : List (EvaluatedPair F)

structure TrapEvent where
  device : String
  trap_oid : String
  varbinds : List (String × String)

/-- What the engine hands to `record`. -/
structure Activation (F : Type) where
  entry : Recall.Activation
  event : TrapEvent
  outcome : CorrelationResult F
  a_epoch : ℕ
  e_epoch : ℕ
  ne_id : ℕ
  count : ℕ
  severity : Option String
  severity_rank : Option ℤ
  inst : String

/-- What each statement of a capture fails with, where it fails. -/
structure Faults where
  observation : Option String := none
  count : Option String := none
  pairs : Option String := none
  deriving DecidableEq

/-- `Capture` -/
structure Memory where
  enabled : Bool := true
  run_id : Option ℕ := none
  errors : ℕ := 0
  last_error : String := ""
  observations : Table ℕ ℕ := .empty
  per_situation : Table ℕ ℕ := .empty
  pairs_over_cap : ℕ := 0

/-- The tables as they are committed and as the transaction sees them; no rollback sets a sequence back. -/
structure Store (F : Type) where
  committed : Database F := {}
  working : Database F := {}
  next_run : ℕ := 1
  next_observation : ℕ := 1

namespace EvaluatedPair
variable {F : Type} [Zero F] (p : EvaluatedPair F)

omit [Zero F] in
def linked : Bool := p.result.elim p.accepted (·.linked)

omit [Zero F] in
def score : F := p.result.elim p.margin (·.score)

end EvaluatedPair

section Rows
variable {F : Type} [Zero F]

/-- The first term of a name. -/
def value_of (result : Verdict F) (name : String) : F := ((result.terms.find? (·.name = name)).map (·.value)).getD 0

/-- The features where there are some, of which two are affinities, and else the values of the verdict's terms. -/
def affinities (p : EvaluatedPair F) : F × F := match p.vector with
  | some v => (v.getD 4 0, v.getD 5 0)
  | none => p.result.elim (0, 0) fun result => (value_of result "class_affinity", value_of result "entity_affinity")

/-- The row of an evaluated pair. -/
def row (run obs_b : ℕ) (observations : Table ℕ ℕ) (a : Activation F) (situation_id : Option ℕ)
    (p : EvaluatedPair F) : Pair F where
  capture_run_id := run
  alarm_a := p.other.alarm_id
  alarm_b := a.entry.alarm_id
  observation_a := observations.get p.other.alarm_id
  observation_b := some obs_b
  situation_id := situation_id
  delta_t_s := |a.entry.ts - p.other.ts|
  class_affinity := (affinities p).1
  entity_affinity := (affinities p).2
  a_epoch := a.a_epoch
  e_epoch := a.e_epoch
  score := p.score
  incumbent_linked := p.linked
  storm := a.outcome.storm
  truncated := p.linked && p.other.alarm_id ∉ a.outcome.links
  evaluated_at := a.entry.ts
  features := p.vector

/-- The loop over the evaluated pairs: the rows that there is room for, and the pairs that are refused. -/
def fill {α β : Type} (row : α → β) (room : Option ℕ) : List α → List β → List β × List α
  | [], rows => (rows, [])
  | p :: rest, rows =>
    if room.any (· ≤ rows.length) then (rows, p :: rest) else fill row room rest (rows ++ [row p])

end Rows

/-- A sink pair of a situation. -/
def Pair.sunk {F : Type} (p : Pair F) (sid : ℕ) : Bool := p.promoted_at.isNone && p.situation_id = some sid

namespace Database
variable {F : Type} (db : Database F)

def sink_pairs_for_situation (sid : ℕ) : ℕ := db.dataset_pair.countP (·.sunk sid)

def latest_capture_run : Option CaptureRun := db.capture_run.argmax (·.id)

/-- The observations that promoted pairs of a situation refer to. -/
def referenced (sid : ℕ) : List ℕ :=
  (db.dataset_pair.filter fun p => p.promoted_at.isSome && p.situation_id = some sid).flatMap fun p =>
    p.observation_a.toList ++ p.observation_b.toList

def promote_pairs (sid : ℕ) (ts : ℚ) : Database F := { db with
  dataset_pair := db.dataset_pair.map fun p => if p.sunk sid then { p with promoted_at := some ts } else p }

def promote_observations (sid : ℕ) (ts : ℚ) : Database F := { db with
  dataset_observation := db.dataset_observation.map fun o =>
    if o.promoted_at.isNone && o.id ∈ db.referenced sid then { o with promoted_at := some ts } else o }

/-- The pairs are promoted, and then the observations that they refer to. -/
def promote_for_situation (sid : ℕ) (ts : ℚ) : Database F := (db.promote_pairs sid ts).promote_observations sid ts

/-- The references of a row to observations are met. -/
def met (p : Pair F) : Bool :=
  p.observation_a.all (· ∈ db.dataset_observation.map (·.id)) &&
    p.observation_b.all (· ∈ db.dataset_observation.map (·.id))

end Database

def FOREIGN_KEY : String := "ForeignKeyViolationError"

namespace Store
variable {F : Type} (s : Store F)

/-- What a failure undoes in the tables, back to a savepoint. -/
def undone (before : Store F) : Store F := { s with working := before.working }

def open_capture_run (key : RunKey) : Store F × ℕ :=
  ({ s with
    working := { s.working with capture_run := s.working.capture_run ++ [⟨s.next_run, key⟩] }
    next_run := s.next_run + 1 }, s.next_run)

def observation_row (run : ℕ) (a : Activation F) : Observation where
  id := s.next_observation
  capture_run_id := run
  alarm_id := a.entry.alarm_id
  ne_id := a.ne_id
  entity_id := a.entry.entity_id
  class_id := a.entry.class_id
  observed_at := a.entry.ts
  alarm_count := a.count
  severity := a.severity
  severity_rank := a.severity_rank
  inst := a.inst
  trap_oid := a.event.trap_oid
  source_address := a.event.device
  varbinds := a.event.varbinds

def add_observation (run : ℕ) (a : Activation F) (fault : Option String) : Except String (Store F × ℕ) :=
  match fault with
  | some e => .error e
  | none =>
    if run ∉ s.working.capture_run.map (·.id) then .error FOREIGN_KEY
    else .ok ({ s with
      working := { s.working with dataset_observation := s.working.dataset_observation ++ [s.observation_row run a] }
      next_observation := s.next_observation + 1 }, s.next_observation)

def add_pairs (run : ℕ) (rows : List (Pair F)) (fault : Option String) : Except String (Store F) :=
  match fault with
  | some e => .error e
  | none =>
    if rows.any fun p => run ∉ s.working.capture_run.map (·.id) || !s.working.met p then .error FOREIGN_KEY
    else .ok { s with working := { s.working with dataset_pair := s.working.dataset_pair ++ rows } }

end Store

namespace Memory
variable {F : Type} (c : Memory)

def degrade (e : String) : Memory := { c with errors := c.errors + 1, last_error := e }

/-- `_held_for`, counted once. -/
def held_for (db : Database F) (sid : ℕ) (fault : Option String) : Except String (Memory × ℕ) :=
  match c.per_situation.get sid with
  | some held => .ok (c, held)
  | none => match fault with
    | some e => .error e
    | none =>
      let held := db.sink_pairs_for_situation sid
      .ok ({ c with per_situation := c.per_situation.upsert sid 0 fun _ => held }, held)

/-- The room that is left for a pair, where it has a situation. -/
def room_for (db : Database F) (fault : Option String) : Option ℕ → Except String (Memory × Option ℕ)
  | none => .ok (c, none)
  | some sid => (c.held_for db sid fault).map fun held => (held.1, some (MAX_SINK_PAIRS_PER_SITUATION - held.2))

def forget_observations (live : List ℕ) : Memory :=
  if MAX_CANDIDATES * 4 < c.observations.size then { c with
    observations := c.observations.keep (c.observations.entries.filter (·.1 ∈ live)) List.filter_sublist.subperm }
  else c

def forget_counts : Memory :=
  if MAX_CANDIDATES * 4 < c.per_situation.size then { c with per_situation := .empty } else c

def forget_outside (live : List ℕ) : Memory := (c.forget_observations live).forget_counts

/-- The count of a situation after more of its pairs are written. -/
def holds (sid : Option ℕ) (written : ℕ) : Memory :=
  { c with per_situation := sid.elim c.per_situation fun sid => c.per_situation.upsert sid 0 (· + written) }

end Memory

/-- What a capture comes to: the memory and the tables, and the pairs that it refused, none where it is undone. -/
structure Captured (F : Type) where
  memory : Memory
  store : Store F
  refused : List (EvaluatedPair F) := []

/-- The rows of the pairs, once the observation of an activation has its own. -/
def record_pairs {F : Type} [Zero F] (c : Memory) (before s : Store F) (run obs_b : ℕ) (a : Activation F)
    (situation_id : Option ℕ) (faults : Faults) : Captured F :=
  match c.room_for s.working faults.count situation_id with
  | .error e => ⟨c.degrade e, s.undone before, []⟩
  | .ok (c, room) =>
    let (rows, refused) := fill (row run obs_b c.observations a situation_id) room a.outcome.evaluated []
    let c := { c with pairs_over_cap := c.pairs_over_cap + refused.length }
    match s.add_pairs run rows faults.pairs with
    | .error e => ⟨c.degrade e, s.undone before, []⟩
    | .ok written =>
      ⟨(c.holds situation_id rows.length).forget_outside (a.outcome.considered ++ [a.entry.alarm_id]), written,
        refused⟩

/-- `Capture.record` -/
def record {F : Type} [Zero F] (c : Memory) (s : Store F) (a : Activation F) (situation_id : Option ℕ)
    (faults : Faults) : Captured F :=
  match c.enabled, c.run_id with
  | true, some run => match s.add_observation run a faults.observation with
    | .error e => ⟨c.degrade e, s, []⟩
    | .ok (observed, obs_b) =>
      record_pairs { c with observations := c.observations.upsert a.entry.alarm_id 0 fun _ => obs_b } s observed run
        obs_b a situation_id faults
  | _, _ => ⟨c, s, []⟩

/-- `Capture.open_run` -/
def open_run {F : Type} (c : Memory) (s : Store F) (key : RunKey) (fault : Option String) : Memory × Store F :=
  if !c.enabled then (c, s)
  else match fault with
    | some e => (c.degrade e, s)
    | none =>
      if c.run_id.isSome && s.working.latest_capture_run.any (·.key = key) then (c, s)
      else ({ c with run_id := some (s.open_capture_run key).2 }, (s.open_capture_run key).1)

/-- What is done of the run where a transaction was rolled back (`membership.reload`). -/
def reload {F : Type} (c : Memory) (s : Store F) (key : RunKey) (fault : Option String) : Memory × Store F :=
  if c.run_id.isNone || s.working.latest_capture_run.any fun r => some r.id = c.run_id then (c, s)
  else open_run { c with run_id := none } s key fault

/-- The capture of a process, its tables, and the pairs that it refused by the captures that stand. -/
structure System (F : Type) where
  memory : Memory := {}
  store : Store F := {}
  /-- the situation of each alarm, in memory and as it is committed -/
  sit_of : ℕ → Option ℕ := fun _ => none
  saved_sit_of : ℕ → Option ℕ := fun _ => none
  /-- a transaction holds the lock -/
  busy : Bool := false
  /-- of each refused pair, how many sink pairs its situation then held -/
  refused : List ℕ := []
  saved_refused : List ℕ := []

inductive Event (F : Type) where
  /-- an alarm in a batch, which joins a situation or stays in its own -/
  | activation (a : Activation F) (joins : Option ℕ) (faults : Faults)
  | merge (dst src : ℕ)
  | commit
  | rollback (key : RunKey) (fault : Option String)
  /-- a label, in a transaction of its own -/
  | label (sid : ℕ) (ts : ℚ)
  /-- the maintenance pass looks after the run -/
  | maintenance (key : RunKey) (fault : Option String)
  | restart (enabled : Bool) (key : RunKey) (fault : Option String)

namespace System
variable {F : Type}

/-- Nothing is captured, and no process runs. -/
def initial : System F := {}

variable (s : System F)

/-- What is left of a transaction that does not commit. -/
def abandoned : System F := { s with
  store := { s.store with working := s.store.committed }
  sit_of := s.saved_sit_of
  refused := s.saved_refused
  busy := false }

def committed : System F := { s with
  store := { s.store with committed := s.store.working }
  saved_sit_of := s.sit_of
  saved_refused := s.refused
  busy := false }

def with_run (r : Memory × Store F) : System F := { s with memory := r.1, store := r.2 }

/-- The situation that an activation lands in. -/
def lands (a : Activation F) (joins : Option ℕ) : Option ℕ := joins.or (s.sit_of a.entry.alarm_id)

end System

namespace System
variable {F : Type} [Zero F] (s : System F)

def activate (a : Activation F) (joins : Option ℕ) (faults : Faults) : System F :=
  let situation_id := s.lands a joins
  let r := record s.memory s.store a situation_id faults
  { s with
    memory := r.memory
    store := r.store
    sit_of := Function.update s.sit_of a.entry.alarm_id situation_id
    refused := s.refused ++ r.refused.map fun _ => situation_id.elim 0 r.store.working.sink_pairs_for_situation
    busy := true }

def step : Event F → System F
  | .activation a joins faults => s.activate a joins faults
  | .merge dst src => { s with
      sit_of := fun a => if s.sit_of a = some src then some dst else s.sit_of a
      busy := true }
  | .commit => s.committed
  | .rollback key fault => s.abandoned.with_run (reload s.memory s.abandoned.store key fault)
  | .label sid ts =>
    if s.busy then s
    else committed { s with store := { s.store with working := s.store.working.promote_for_situation sid ts } }
  | .maintenance key fault =>
    if s.busy then s else { s.with_run (open_run s.memory s.store key fault) with busy := true }
  | .restart enabled key fault =>
    { s.abandoned with refused := [], saved_refused := [] }.with_run
      (open_run { enabled := enabled } s.abandoned.store key fault)

end System

/-- A reference of a pair is to an observation of its alarm. -/
def Names {F : Type} (db : Database F) (reference : Option ℕ) (alarm : ℕ) : Prop :=
  ∀ id, reference = some id → ∃ o ∈ db.dataset_observation, o.id = id ∧ o.alarm_id = alarm

/-- No situation holds more sink pairs than it may, and every reference of a pair is met. -/
structure Kept {F : Type} (db : Database F) : Prop where
  capped : ∀ sid, db.sink_pairs_for_situation sid ≤ MAX_SINK_PAIRS_PER_SITUATION
  named : ∀ p ∈ db.dataset_pair, Names db p.observation_a p.alarm_a ∧ Names db p.observation_b p.alarm_b

/-- Each refused pair was one too many, and each is counted. -/
structure Accounted {F : Type} (s : System F) : Prop where
  full : ∀ held ∈ s.refused, held = MAX_SINK_PAIRS_PER_SITUATION
  counted : s.memory.pairs_over_cap = s.refused.length

namespace Memory
variable {F : Type} (c : Memory) (db : Database F)

/-- A capture gets as far as the pairs of a situation. -/
def Reaches (sid : ℕ) (faults : Faults) : Prop :=
  c.enabled = true ∧ (∃ run ∈ c.run_id, run ∈ db.capture_run.map (·.id)) ∧ faults.observation = none ∧
    (faults.count = none ∨ (c.per_situation.get sid).isSome)

/-- Of the first pairs of an activation, none is with an alarm whose observation is remembered and gone. -/
def Present (a : Activation F) (n : ℕ) : Prop :=
  ∀ p ∈ a.outcome.evaluated.take n, p.other.alarm_id ≠ a.entry.alarm_id →
    ∀ id ∈ c.observations.get p.other.alarm_id, id ∈ db.dataset_observation.map (·.id)

end Memory

namespace System
variable {F : Type} (s : System F)

/-- The step leaves the counts in memory true. -/
def Clean : Event F → Prop
  | .activation a joins faults => ∀ sid ∈ s.lands a joins,
    let room := MAX_SINK_PAIRS_PER_SITUATION - s.store.working.sink_pairs_for_situation sid
    s.memory.Reaches s.store.working sid faults → room < a.outcome.evaluated.length →
      faults.pairs = none ∧ s.memory.Present s.store.working a room
  | .rollback _ _ => s.refused = s.saved_refused ∧ ∀ sid, (s.memory.per_situation.get sid).isSome →
    s.store.working.sink_pairs_for_situation sid = s.store.committed.sink_pairs_for_situation sid
  | .label sid _ => s.busy = true ∨ s.memory.per_situation.get sid = none ∨
    s.store.working.sink_pairs_for_situation sid = 0
  | _ => True

end System

section Writes
variable {F : Type}

theorem fill_eq {α β : Type} (row : α → β) (room : Option ℕ) (l : List α) (rows : List β) :
    fill row room l rows = (rows ++ (l.take (room.elim l.length (· - rows.length))).map row,
      l.drop (room.elim l.length (· - rows.length))) := by
  induction l generalizing rows with
  | nil =>
    rw [List.take_nil, List.drop_nil, List.map_nil, List.append_nil]
    rfl
  | cons p l ih =>
    unfold fill
    cases room with
    | none =>
      refine (ih (rows ++ [row p])).trans ?_
      simp only [Option.elim_none, List.length_cons, List.take_succ_cons, List.drop_succ_cons, List.take_length,
        List.drop_length, List.map_cons, List.append_assoc, List.cons_append, List.nil_append]
    | some r =>
      simp only [Option.any_some, decide_eq_true_eq, Option.elim_some]
      split
      · next h => rw [Nat.sub_eq_zero_of_le h, List.take_zero, List.map_nil, List.append_nil, List.drop_zero]
      · next h =>
        refine (ih (rows ++ [row p])).trans ?_
        have hr : r - rows.length = (r - (rows.length + 1)) + 1 := by omega
        rw [Option.elim_some, List.length_append, List.length_singleton, hr, List.take_succ_cons, List.drop_succ_cons,
          List.map_cons, List.append_assoc, List.singleton_append]

namespace Database
variable (db : Database F)

theorem sunk_row [Zero F] (run obs_b : ℕ) (observations : Table ℕ ℕ) (a : Activation F) (situation_id : Option ℕ)
    (p : EvaluatedPair F) (sid : ℕ) :
    (row run obs_b observations a situation_id p).sunk sid = decide (situation_id = some sid) := rfl

/-- The rows of an activation count for its situation alone. -/
theorem sink_rows [Zero F] (run obs_b : ℕ) (observations : Table ℕ ℕ) (a : Activation F) (situation_id : Option ℕ)
    (kept : List (EvaluatedPair F)) (sid : ℕ) :
    (kept.map (row run obs_b observations a situation_id)).countP (·.sunk sid) =
      if situation_id = some sid then kept.length else 0 := by
  rw [List.countP_map]
  split
  · next h => exact List.countP_eq_length.mpr fun p _ => decide_eq_true h
  · next h => exact List.countP_eq_zero.mpr fun p _ => by simpa [sunk_row] using h

theorem sink_promote (sid x : ℕ) (ts : ℚ) : (db.promote_for_situation sid ts).sink_pairs_for_situation x =
    if x = sid then 0 else db.sink_pairs_for_situation x := by
  change (db.dataset_pair.map fun p => if p.sunk sid then { p with promoted_at := some ts } else p).countP
    (·.sunk x) = _
  rw [List.countP_map]
  split
  · next h =>
    refine List.countP_eq_zero.mpr fun p _ => ?_
    rw [Function.comp_apply, h]
    split
    · simp [Pair.sunk]
    · assumption
  · next h =>
    refine List.countP_congr fun p _ => ?_
    rw [Function.comp_apply]
    split
    · next hp =>
      have hsid : p.situation_id = some sid := of_decide_eq_true (Bool.and_eq_true_iff.mp hp).2
      simp [Pair.sunk, hsid, Ne.symm h]
    · exact Iff.rfl

end Database

namespace Memory
variable (c : Memory)

theorem get_forget_observations (live : List ℕ) {alarm id : ℕ}
    (h : (c.forget_outside live).observations.get alarm = some id) : c.observations.get alarm = some id := by
  have hcounts (c : Memory) : c.forget_counts.observations = c.observations := by
    unfold forget_counts
    split <;> rfl
  rw [forget_outside, hcounts, forget_observations] at h
  split at h
  · have hmem := (Table.get_keep c.observations alarm (h := List.filter_sublist.subperm)).mp h
    exact (Table.get_eq_some _ _).mpr (List.mem_of_mem_filter hmem)
  · exact h

theorem get_forget_counts (live : List ℕ) {sid n : ℕ} (h : (c.forget_outside live).per_situation.get sid = some n) :
    c.per_situation.get sid = some n := by
  have hobs : (c.forget_observations live).per_situation = c.per_situation := by
    unfold forget_observations
    split <;> rfl
  rw [forget_outside, forget_counts] at h
  split at h
  · have hnone : (none : Option ℕ) = some n := h
    cases hnone
  · rwa [hobs] at h

@[simp] theorem forget_over (live : List ℕ) : (c.forget_outside live).pairs_over_cap = c.pairs_over_cap := by
  unfold forget_outside forget_counts forget_observations
  split <;> split <;> rfl

/-- The count that a situation is taken to have: the one in memory, or else that of the table. -/
def Taken {F : Type} (db : Database F) (sid held : ℕ) : Prop :=
  c.per_situation.get sid = some held ∨ c.per_situation.get sid = none ∧ held = db.sink_pairs_for_situation sid

theorem get_holds (sid : Option ℕ) (written x : ℕ) : (c.holds sid written).per_situation.get x =
    if sid = some x then some ((c.per_situation.get x).getD 0 + written) else c.per_situation.get x := by
  cases sid with
  | none => rfl
  | some sid =>
    change (c.per_situation.upsert sid 0 (· + written)).get x = _
    rcases eq_or_ne x sid with rfl | hne
    · rw [if_pos rfl, Table.get_upsert_self]
    · rw [if_neg fun h => hne (Option.some.inj h).symm, Table.get_upsert_of_ne _ _ _ _ _ hne]

/-- The room for a situation is what its count leaves, and of the counts in memory no other changes. -/
theorem room_for_ok {db : Database F} {fault : Option String} {sid : Option ℕ} {c' : Memory} {room : Option ℕ}
    (h : c.room_for db fault sid = .ok (c', room)) :
    c'.observations = c.observations ∧ c'.pairs_over_cap = c.pairs_over_cap ∧
      (∀ x n, c'.per_situation.get x = some n → c.Taken db x n) ∧
      (sid = none ∧ room = none ∨ ∃ x held, sid = some x ∧ c'.per_situation.get x = some held ∧
        room = some (MAX_SINK_PAIRS_PER_SITUATION - held) ∧
        (fault = none ∨ (c.per_situation.get x).isSome)) := by
  cases sid with
  | none =>
    cases h
    exact ⟨rfl, rfl, fun x n hx => .inl hx, .inl ⟨rfl, rfl⟩⟩
  | some x =>
    rcases hget : c.per_situation.get x with _ | held
    · rcases fault with _ | e <;> simp only [room_for, held_for, hget] at h
      · cases h
        refine ⟨rfl, rfl, fun y n hy => ?_, .inr ⟨x, _, rfl, Table.get_upsert_self _ _ _ _, rfl, .inl rfl⟩⟩
        rcases eq_or_ne y x with rfl | hne
        · have hn := (Table.get_upsert_self _ _ _ _).symm.trans hy
          exact .inr ⟨hget, (Option.some.inj hn).symm⟩
        · exact .inl ((Table.get_upsert_of_ne _ _ _ _ _ hne).symm.trans hy)
      · cases h
    · simp only [room_for, held_for, hget] at h
      cases h
      exact ⟨rfl, rfl, fun y n hy => .inl hy, .inr ⟨x, held, rfl, hget, rfl, .inr (hget ▸ rfl)⟩⟩

end Memory

/-- The memory with the observation of an activation. -/
def observed (c : Memory) (s : Store F) (a : Activation F) : Table ℕ ℕ :=
  c.observations.upsert a.entry.alarm_id 0 fun _ => s.next_observation

theorem get_observed {c : Memory} {s : Store F} {a : Activation F} {alarm id : ℕ}
    (h : (observed c s a).get alarm = some id) :
    alarm ≠ a.entry.alarm_id ∧ c.observations.get alarm = some id ∨
      alarm = a.entry.alarm_id ∧ id = s.next_observation := by
  unfold observed at h
  rcases eq_or_ne alarm a.entry.alarm_id with rfl | hne
  · exact .inr ⟨rfl, (Option.some.inj ((Table.get_upsert_self _ _ _ _).symm.trans h)).symm⟩
  · exact .inl ⟨hne, (Table.get_upsert_of_ne _ _ _ _ _ hne).symm.trans h⟩

variable [Zero F] (c : Memory) (s : Store F) (a : Activation F) (situation_id : Option ℕ) (faults : Faults)
  (r : Captured F)

/-- A capture that leaves the tables as they were. It counts pairs as refused where their rows were to be written. -/
structure Undone : Prop where
  refused : r.refused = []
  committed : r.store.committed = s.committed
  working : r.store.working = s.working
  fresh : s.next_observation ≤ r.store.next_observation
  remembered : ∀ alarm id, r.memory.observations.get alarm = some id → c.observations.get alarm = some id ∨
    alarm = a.entry.alarm_id ∧ id = s.next_observation ∧ id < r.store.next_observation
  counts : ∀ sid n, r.memory.per_situation.get sid = some n → c.Taken s.working sid n
  excess : r.memory.pairs_over_cap = c.pairs_over_cap ∨ ∃ sid held, situation_id = some sid ∧
    c.Taken s.working sid held ∧ c.Reaches s.working sid faults ∧
    MAX_SINK_PAIRS_PER_SITUATION - held < a.outcome.evaluated.length ∧
    ¬ (faults.pairs = none ∧ c.Present s.working a (MAX_SINK_PAIRS_PER_SITUATION - held))

/-- A capture that is written. -/
structure Written (run : ℕ) (kept : List (EvaluatedPair F)) : Prop where
  committed : r.store.committed = s.committed
  capture_run : r.store.working.capture_run = s.working.capture_run
  observations : r.store.working.dataset_observation = s.working.dataset_observation ++ [s.observation_row run a]
  pairs : r.store.working.dataset_pair =
    s.working.dataset_pair ++ kept.map (row run s.next_observation (observed c s a) a situation_id)
  fresh : r.store.next_observation = s.next_observation + 1
  met : ∀ p ∈ kept, r.store.working.met (row run s.next_observation (observed c s a) a situation_id p) = true
  remembered : ∀ alarm id, r.memory.observations.get alarm = some id → (observed c s a).get alarm = some id
  counts : ∀ sid n, r.memory.per_situation.get sid = some n → ∃ held, c.Taken s.working sid held ∧
    n = held + if situation_id = some sid then kept.length else 0
  excess : r.memory.pairs_over_cap = c.pairs_over_cap + r.refused.length
  room : situation_id = none ∧ r.refused = [] ∨ ∃ sid held, situation_id = some sid ∧ c.Taken s.working sid held ∧
    kept = a.outcome.evaluated.take (MAX_SINK_PAIRS_PER_SITUATION - held) ∧
    r.refused = a.outcome.evaluated.drop (MAX_SINK_PAIRS_PER_SITUATION - held)

/-- A row that is not met is of a pair with an alarm whose observation is gone. -/
theorem not_present {run n : ℕ} {db : Database F}
    (hdb : db.dataset_observation = s.working.dataset_observation ++ [s.observation_row run a])
    {kept : List (EvaluatedPair F)} (hkept : kept = a.outcome.evaluated.take n) {p : EvaluatedPair F} (hp : p ∈ kept)
    (hmet : db.met (row run s.next_observation (observed c s a) a situation_id p) = false) :
    ¬ c.Present s.working a n := by
  intro hpresent
  have hids : db.dataset_observation.map (·.id) =
      s.working.dataset_observation.map (·.id) ++ [s.next_observation] := by
    rw [hdb, List.map_append]
    rfl
  have htrue : db.met (row run s.next_observation (observed c s a) a situation_id p) = true := by
    unfold Database.met
    rw [hids, Bool.and_eq_true_iff, Option.all_eq_true, Option.all_eq_true]
    refine ⟨fun id hid => decide_eq_true ?_, fun id hid => decide_eq_true ?_⟩
    · rcases get_observed hid with ⟨hne, hget⟩ | ⟨-, rfl⟩
      · exact List.mem_append_left _ (hpresent p (hkept ▸ hp) hne id hget)
      · exact List.mem_append_right _ (List.mem_singleton_self _)
    · rw [← Option.some.inj hid]
      exact List.mem_append_right _ (List.mem_singleton_self _)
  rw [htrue] at hmet
  cases hmet

/-- What a capture comes to, once its observation has a row. -/
theorem record_pairs_cases {run : ℕ} (henabled : c.enabled = true) (hrun : c.run_id = some run)
    (hfault : faults.observation = none) (hmem : run ∈ s.working.capture_run.map (·.id)) {seen : Store F}
    (hseen : seen = { s with
      working := { s.working with
        dataset_observation := s.working.dataset_observation ++ [s.observation_row run a] }
      next_observation := s.next_observation + 1 })
    (hr : r = record_pairs { c with observations := observed c s a } s seen run s.next_observation a situation_id
      faults) :
    Undone c s a situation_id faults r ∨ ∃ kept, Written c s a situation_id r run kept := by
  have hremembered (alarm id : ℕ) (h : (observed c s a).get alarm = some id) :
      c.observations.get alarm = some id ∨ alarm = a.entry.alarm_id ∧ id = s.next_observation ∧
        id < seen.next_observation := by
    rcases get_observed h with ⟨-, h⟩ | ⟨rfl, rfl⟩
    · exact .inl h
    · exact .inr ⟨rfl, rfl, hseen ▸ Nat.lt_succ_self _⟩
  have hfresh : s.next_observation ≤ seen.next_observation := hseen ▸ Nat.le_succ _
  have hcommitted : seen.committed = s.committed := hseen ▸ rfl
  unfold record_pairs at hr
  rcases hroom : Memory.room_for { c with observations := observed c s a } seen.working faults.count situation_id with
    e | ⟨c', room⟩
  · rw [hroom] at hr
    subst hr
    exact .inl ⟨rfl, hcommitted, rfl, hfresh, hremembered, fun sid n h => .inl h, .inl rfl⟩
  rw [hroom] at hr
  obtain ⟨hobs, hover, hcounts, hheld⟩ := Memory.room_for_ok _ hroom
  simp only [fill_eq, List.length_nil, List.nil_append] at hr
  change c'.observations = observed c s a at hobs
  rw [hobs] at hr
  have hbase : seen.working.dataset_pair = s.working.dataset_pair := hseen ▸ rfl
  have hsink (sid : ℕ) : seen.working.sink_pairs_for_situation sid = s.working.sink_pairs_for_situation sid := by
    rw [Database.sink_pairs_for_situation, Database.sink_pairs_for_situation, hbase]
  have htaken (sid n : ℕ) (h : c'.per_situation.get sid = some n) : c.Taken s.working sid n :=
    (hcounts sid n h).imp_right fun h => ⟨h.1, (hsink sid) ▸ h.2⟩
  set kept := a.outcome.evaluated.take (room.elim a.outcome.evaluated.length (· - 0)) with hkept
  set refused := a.outcome.evaluated.drop (room.elim a.outcome.evaluated.length (· - 0)) with hrefused
  rcases hpairs : seen.add_pairs run
    (kept.map (row run s.next_observation (observed c s a) a situation_id)) faults.pairs with e | written
  · rw [hpairs] at hr
    subst hr
    refine .inl ⟨rfl, hcommitted, rfl, hfresh, hremembered, htaken, ?_⟩
    rcases hheld with ⟨hsid, rfl⟩ | ⟨sid, held, hsid, hheld, rfl, hcount⟩
    · -- without a situation nothing is refused
      left
      change c'.pairs_over_cap + refused.length = c.pairs_over_cap
      rw [hrefused, Option.elim_none, List.drop_length, hover]
      rfl
    · by_cases hroom : MAX_SINK_PAIRS_PER_SITUATION - held < a.outcome.evaluated.length
      · refine .inr ⟨sid, held, hsid, htaken sid held hheld, ⟨henabled, ⟨run, hrun, hmem⟩, hfault, hcount⟩, hroom, ?_⟩
        rintro ⟨hnone, hpresent⟩
        rw [hnone] at hpairs
        simp only [Store.add_pairs] at hpairs
        split at hpairs
        · next hany =>
          obtain ⟨p, hp, hbad⟩ := List.any_eq_true.mp hany
          obtain ⟨q, hq, rfl⟩ := List.mem_map.mp hp
          have hruns : seen.working.capture_run = s.working.capture_run := hseen ▸ rfl
          rw [hruns, Bool.or_eq_true, decide_eq_true_eq, or_iff_right (not_not.mpr hmem), Bool.not_eq_true'] at hbad
          exact not_present c s a situation_id (hseen ▸ rfl) hkept hq hbad hpresent
        · cases hpairs
      · left
        change c'.pairs_over_cap + refused.length = c.pairs_over_cap
        rw [hrefused, Option.elim_some, Nat.sub_zero, List.drop_of_length_le (not_lt.mp hroom), hover]
        rfl
  · rw [hpairs] at hr
    subst hr
    refine .inr ⟨kept, ?_⟩
    unfold Store.add_pairs at hpairs
    split at hpairs
    · cases hpairs
    split at hpairs
    · cases hpairs
    next hmet =>
    cases hpairs
    refine ⟨hcommitted, hseen ▸ rfl, hseen ▸ rfl, hbase ▸ rfl, hseen ▸ rfl, fun p hp => ?_, fun alarm id h => ?_,
      fun sid n h => ?_, ?_, ?_⟩
    · refine by_contra fun hbad => hmet (List.any_eq_true.mpr ⟨_, List.mem_map_of_mem hp, ?_⟩)
      rw [Bool.or_eq_true, Bool.not_eq_true']
      exact .inr (Bool.eq_false_of_not_eq_true hbad)
    · exact Memory.get_forget_observations _ _ h
    · have hget := Memory.get_forget_counts _ _ h
      rw [Memory.get_holds, List.length_map] at hget
      split at hget
      · next hsid =>
        rcases hheld with ⟨hnone, -⟩ | ⟨x, held, hx, hheld, -⟩
        · exact absurd (hsid.symm.trans hnone) (Option.some_ne_none sid)
        cases Option.some.inj (hsid.symm.trans hx)
        refine ⟨held, htaken sid held hheld, ?_⟩
        have hn : (c'.per_situation.get sid).getD 0 + kept.length = n := Option.some.inj hget
        rw [hheld] at hn
        rw [if_pos hsid]
        exact hn.symm
      · next hsid => exact ⟨n, htaken sid n hget, by rw [if_neg hsid, add_zero]⟩
    · rw [Memory.forget_over]
      exact congrArg (· + refused.length) hover
    · rcases hheld with ⟨hsid, rfl⟩ | ⟨sid, held, hsid, hheld, rfl, -⟩
      · exact .inl ⟨hsid, List.drop_length⟩
      · exact .inr ⟨sid, held, hsid, htaken sid held hheld, rfl, rfl⟩

/-- What a capture comes to. -/
theorem record_cases : Undone c s a situation_id faults (record c s a situation_id faults) ∨
    ∃ run kept, Written c s a situation_id (record c s a situation_id faults) run kept := by
  have hidle (c' : Memory) (h : c'.observations = c.observations) (h' : c'.per_situation = c.per_situation)
      (h'' : c'.pairs_over_cap = c.pairs_over_cap) : Undone c s a situation_id faults ⟨c', s, []⟩ :=
    ⟨rfl, rfl, rfl, le_rfl, fun alarm id he => .inl (h ▸ he), fun sid n he => .inl (h' ▸ he), .inl h''⟩
  unfold record
  split
  rotate_left
  · exact .inl (hidle c rfl rfl rfl)
  rename_i run henabled hrun
  rcases hfault : faults.observation with _ | e
  rotate_left
  · exact .inl (hidle _ rfl rfl rfl)
  by_cases hmem : run ∉ s.working.capture_run.map (·.id)
  · simp only [Store.add_observation, if_pos hmem]
    exact .inl (hidle _ rfl rfl rfl)
  simp only [Store.add_observation, if_neg hmem]
  refine (record_pairs_cases c s a situation_id faults _ henabled hrun hfault (not_not.mp hmem) rfl rfl).imp_right ?_
  exact fun h => ⟨run, h⟩

end Writes

end NetCoreNoc.Dataset.Capture
