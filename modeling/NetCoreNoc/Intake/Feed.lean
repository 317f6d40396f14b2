import Mathlib
import NetCoreNoc.Runs

/-! The engine's intake from the spool (`engine/operate/intake.py`) against the task that classifies
what it delivers (`Engine.run`) and the supervisor that restarts that task. -/
namespace NetCoreNoc.Intake

/-- What a record decodes to: nothing to classify, a record that is not valid, or an event. -/
inductive Result (I : Type) where
  | ignored
  | invalid (reason : String)
  | event (event : I)

structure QueueItem (I : Type) where
  /-- the identity of the object -/
  id : Nat
  event : I
  /-- the record it was read from, which the code does not keep with it -/
  record : Nat

structure SpoolFeed (I : Type) where
  queue : List (QueueItem I) := []
  /-- the last record classified -/
  cursor : Nat
  /-- while the cursor is below this, one record at a time -/
  isolate_until : Nat := 0
  /-- delivered, not yet committed -/
  pending : List (QueueItem I × Nat) := []
  seq_of : Nat → Option Nat := fun _ => none
  runs : Nat := 0

namespace SpoolFeed
variable {I : Type} (f : SpoolFeed I)

/-- `stage`: the cursor that is written for a prefix of what was delivered. -/
def stage (items : List (QueueItem I)) : Option Nat := items.getLast?.bind fun item => f.seq_of item.id

def committed : Option Nat → SpoolFeed I
  | none => f
  | some position =>
    let cursor := max f.cursor position
    let gone := f.pending.takeWhile (·.2 ≤ cursor)
    { f with
      cursor := cursor
      pending := f.pending.dropWhile (·.2 ≤ cursor)
      seq_of := fun id => if gone.any (·.1.id = id) then none else f.seq_of id }

/-- `queue.put`, and the record of what was delivered. -/
def put (item : QueueItem I) : SpoolFeed I := { f with
  queue := f.queue ++ [item]
  pending := f.pending ++ [(item, item.record)]
  seq_of := Function.update f.seq_of item.id (some item.record) }

end SpoolFeed

/-- The feed and what is around it: the spool on disk, the database, the engine's task. -/
structure Pipeline (P I : Type) where
  feed : SpoolFeed I
  /-- the records that are durable, in the order of their numbers -/
  spool : List (Nat × P) := []
  /-- how far the pump has read, once it runs -/
  pump : Option Nat := none
  /-- a record that is in the dead-letter file, which the cursor has not passed yet -/
  setting : Option Nat := none
  dead_letter : List (Nat × String) := []
  /-- the cursor in the database -/
  stored : Nat
  /-- the records whose effects are in the database -/
  applied : List Nat := []
  /-- the engine's task runs -/
  up : Bool := false
  /-- what is off the queue and not committed: what the engine has in hand, or had when it ended -/
  batch : List (QueueItem I) := []
  /-- how many of these the open transaction has processed -/
  taken : Nat := 0
  /-- the records whose effects are in the open transaction -/
  effects : List Nat := []
  /-- the cursor that the open transaction wrote -/
  staged : Option (Option Nat) := none

inductive IntakeOp (P : Type) where
  /-- the writer makes a record durable -/
  | write (seq : Nat) (payload : P)
  /-- the pump hands on the next record, as an object with this identity, or still waits -/
  | deliver (id : Nat)
  /-- the pump commits the cursor past the record that it set aside -/
  | settle
  /-- the engine takes the next item off the queue -/
  | take
  /-- the engine processes the next item of its batch -/
  | process
  | stage
  | commit
  /-- a storage error: the transaction is rolled back, and will be retried -/
  | rollback
  /-- the engine's task ends in any other exception, its transaction rolled back -/
  | crash
  /-- the supervisor starts the engine's task, or starts it again -/
  | rewind (reason : String)
  /-- `rewind` fails, where it writes to the database, and leaves the engine down -/
  | rewind_fails (reason : String)

namespace Pipeline
variable {P I : Type} (decode : P → Result I) (maxsize : Nat) (w : Pipeline P I)

/-- `_deliver`. It waits while the queue is full, and until what it delivered is committed where it
must: before an invalid record, and one at a time during isolation. -/
def deliver (id : Nat) : Pipeline P I :=
  match w.pump, w.setting with
  | some position, none =>
    match w.spool.find? (position < ·.1) with
    | none => w
    | some (seq, payload) => match decode payload with
      | .ignored => { w with pump := some seq }
      | .invalid reason =>
        if w.feed.pending.isEmpty then { w with
          pump := some seq, setting := some seq, dead_letter := w.dead_letter ++ [(seq, reason)] }
        else w
      | .event event =>
        if seq ≤ w.feed.isolate_until && !w.feed.pending.isEmpty then w
        else if 0 < maxsize && maxsize ≤ w.feed.queue.length then w
        -- no two objects in use have one identity
        else if w.feed.pending.any (·.1.id = id) then w
        else { w with pump := some seq, feed := w.feed.put ⟨id, event, seq⟩ }
  | _, _ => w

/-- `_set_aside(…, advance=True)`, once the record is in the file. -/
def advance (seq : Nat) : Pipeline P I :=
  { w with stored := seq, feed := { w.feed with cursor := max w.feed.cursor seq } }

/-- The record that the engine crashed on goes into the dead-letter file. -/
def dead (seq : Nat) (reason : String) : Pipeline P I :=
  { w with dead_letter := w.dead_letter ++ [(seq, "the engine crashed on it (" ++ reason ++ ")")] }

/-- What `rewind` does about the records in flight, after a crash. If records were already delivered one
at a time, the one in flight is set aside; otherwise those in flight are to be replayed one at a time. -/
def isolate (reason : String) : Pipeline P I :=
  let in_flight := w.feed.pending.length - w.feed.queue.length
  if 0 < w.feed.runs && 0 < in_flight then
    if w.feed.cursor < w.feed.isolate_until && in_flight = 1 then
      match w.feed.pending with
      | [] => w
      | (_, seq) :: _ => (w.dead seq reason).advance seq
    else match w.feed.pending[in_flight - 1]? with
      | some (_, seq) => { w with feed := { w.feed with isolate_until := seq } }
      | none => w
  else w

/-- What was in memory is discarded, and the pump reads again from the cursor. -/
def reopen : Pipeline P I := { w with
  feed := { w.feed with queue := [], pending := [], seq_of := fun _ => none, runs := w.feed.runs + 1 }
  pump := some w.feed.cursor
  setting := none
  up := true
  batch := [] }

def rewind (reason : String) : Pipeline P I := (w.isolate reason).reopen

/-- The pump is stopped and the queue is empty, so all that was delivered now counts as in flight. -/
def strand : Pipeline P I := { w with
  feed := { w.feed with queue := [], runs := w.feed.runs + 1 }
  setting := none
  batch := w.feed.pending.map (·.1) }

/-- What a `rewind` leaves that fails: only the one that sets a record aside writes to the database, and
the record is in the file by then. -/
def abandon (reason : String) : Pipeline P I :=
  let in_flight := w.feed.pending.length - w.feed.queue.length
  if 0 < w.feed.runs && w.feed.cursor < w.feed.isolate_until && in_flight = 1 then
    match w.feed.pending with
    | [] => w
    | (_, seq) :: _ => (w.dead seq reason).strand
  else w

/-- What ends the open transaction without its effects. -/
def undo : Pipeline P I := { w with taken := 0, effects := [], staged := none }

def step : IntakeOp P → Pipeline P I
  | .write seq payload =>
    if w.spool.all (·.1 < seq) then { w with spool := w.spool ++ [(seq, payload)] } else w
  | .deliver id => w.deliver decode maxsize id
  | .settle => match w.setting with
    | some seq => { w.advance seq with setting := none }
    | none => w
  | .take => match w.feed.queue with
    | item :: queue =>
      if w.up && w.taken = 0 then { w with
        feed := { w.feed with queue := queue }, batch := w.batch ++ [item] }
      else w
    | [] => w
  | .process => match w.batch[w.taken]? with
    | some item =>
      if w.up && w.staged.isNone then { w with
        taken := w.taken + 1, effects := w.effects ++ [item.record] }
      else w
    | none => w
  | .stage =>
    if w.up && 0 < w.taken && w.staged.isNone then
      { w with staged := some (w.feed.stage (w.batch.take w.taken)) }
    else w
  | .commit => match w.staged with
    | some position => { w with
        stored := position.getD w.stored
        applied := w.applied ++ w.effects
        feed := w.feed.committed position
        batch := w.batch.drop w.taken
        taken := 0, effects := [], staged := none }
    | none => w
  | .rollback => if w.up then w.undo else w
  | .crash => if w.up then { w.undo with up := false } else w
  | .rewind reason => if w.up then w else w.rewind reason
  | .rewind_fails reason => if w.up then w else w.abandon reason

/-- A feed that resumes after the cursor that the database holds. -/
def opened (cursor : Nat) : Pipeline P I := { feed := { cursor := cursor }, stored := cursor }

end Pipeline

/-- The events among the records after one number and up to another. -/
def events {P I : Type} (decode : P → Result I) (spool : List (Nat × P)) (lo hi : Nat) : List (Nat × I) :=
  spool.filterMap fun r => if lo < r.1 && r.1 ≤ hi then
    match decode r.2 with
    | .event event => some (r.1, event)
    | _ => none
  else none

end NetCoreNoc.Intake
