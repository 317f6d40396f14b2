import Mathlib
import NetCoreNoc.Runs

/-! The writer's connection (`store/db.py`): implicit transactions over one server session.
Writes are opaque values; the session keeps those of the open transaction and, for each savepoint,
what the transaction held when it was set. -/
namespace NetCoreNoc.Store
variable {α : Type}

/-- What becomes of a statement or of a savepoint command once it is issued. -/
inductive Reply where
  /-- the server runs it -/
  | ok
  /-- the server answers with an error, which aborts an open transaction -/
  | error
  /-- the driver refuses it and sends nothing -/
  | refused
  /-- the awaiting task is cancelled, and the server stops the statement -/
  | cancelled
  /-- the awaiting task is cancelled, but the server has run it by then -/
  | overtaken
  /-- the connection drops -/
  | lost
  deriving DecidableEq, Repr

/-- What becomes of a `COMMIT`: cancelled, the server still ends the transaction by it. -/
inductive CommitReply where
  | ok | error | cancelled | lost
  deriving DecidableEq, Repr

/-- How an operation ends for its caller: `pgError` is an `asyncpg.PostgresError`. -/
inductive Outcome where
  | done | pgError | otherError
  deriving DecidableEq, Repr

/-- An open transaction of the server. All savepoints carry the one name the wrapper uses, so only
their order matters: `marks` holds the innermost first. -/
structure Transaction (α : Type) where
  writes : List α := []
  marks : List (List α) := []
  aborted : Bool := false
  deriving DecidableEq, Repr

structure Server (α : Type) where
  alive : Bool := true
  committed : List α := []
  tx : Option (Transaction α) := none
  /-- how many transactions were begun -/
  begun : ℕ := 0
  deriving DecidableEq, Repr

namespace Server

/-- A dropped connection takes its transaction with it. -/
def drop (s : Server α) : Server α := { s with alive := false, tx := none }

def abort (s : Server α) : Server α :=
  { s with tx := s.tx.map fun t => { t with aborted := true } }

/-- An error inside a transaction aborts it. -/
def fail (s : Server α) : Server α × Outcome := (s.abort, .pgError)

def BEGIN (s : Server α) : Server α × Outcome :=
  if s.alive then
    match s.tx with
    | none => ({ s with tx := some {}, begun := s.begun + 1 }, .done)
    | some _ => (s, .done)
  else (s, .otherError)

def ROLLBACK (s : Server α) : Server α × Outcome :=
  if s.alive then ({ s with tx := none }, .done) else (s, .otherError)

/-- A `COMMIT` of an aborted transaction rolls it back and is answered without an error. -/
def COMMIT (s : Server α) : Server α × Outcome :=
  if s.alive then
    match s.tx with
    | none => (s, .done)
    | some t =>
      ({ s with tx := none, committed := if t.aborted then s.committed else s.committed ++ t.writes },
        .done)
  else (s, .otherError)

/-- What becomes of a command, given what it does when the server runs it. -/
def answer (s : Server α) (r : Reply) (runs : Server α × Outcome) : Server α × Outcome :=
  if s.alive then
    match r with
    | .ok => runs
    | .error => s.fail
    | .refused => (s, .otherError)
    | .cancelled => (s.abort, .otherError)
    | .overtaken => (runs.1, .otherError)
    | .lost => (s.drop, .pgError)
  else (s, .otherError)

/-- What `SAVEPOINT` does when it is run. -/
def marked (s : Server α) : Server α × Outcome :=
  match s.tx with
  | some ⟨w, ms, false⟩ => ({ s with tx := some ⟨w, w :: ms, false⟩ }, .done)
  | _ => s.fail

/-- What `RELEASE` does: the newest savepoint goes. -/
def released (s : Server α) : Server α × Outcome :=
  match s.tx with
  | some ⟨w, _ :: ms, false⟩ => ({ s with tx := some ⟨w, ms, false⟩ }, .done)
  | _ => s.fail

/-- What `ROLLBACK TO` does: it revives an aborted transaction and keeps the savepoint it goes back to. -/
def returned (s : Server α) : Server α × Outcome :=
  match s.tx with
  | some ⟨_, m :: ms, _⟩ => ({ s with tx := some ⟨m, m :: ms, false⟩ }, .done)
  | _ => s.fail

def SAVEPOINT (s : Server α) (r : Reply) : Server α × Outcome := s.answer r s.marked
def RELEASE (s : Server α) (r : Reply) : Server α × Outcome := s.answer r s.released
def ROLLBACK_TO (s : Server α) (r : Reply) : Server α × Outcome := s.answer r s.returned

/-- One statement, with the writes it makes. Outside a transaction it commits on its own. -/
def statement (s : Server α) (ws : List α) (r : Reply) : Server α × Outcome :=
  s.answer r <| match s.tx with
    | none => ({ s with committed := s.committed ++ ws }, .done)
    | some ⟨w, ms, false⟩ => ({ s with tx := some ⟨w ++ ws, ms, false⟩ }, .done)
    | some ⟨_, _, true⟩ => s.fail

theorem released_cases (s : Server α) :
    (∃ w m ms, s.tx = some ⟨w, m :: ms, false⟩ ∧ s.released = ({ s with tx := some ⟨w, ms, false⟩ }, .done)) ∨
      (∀ t, s.tx = some t → t.aborted = false → t.marks = []) ∧ s.released = s.fail := by
  unfold released
  split
  · rename_i w m ms htx
    exact .inl ⟨w, m, ms, htx, rfl⟩
  · rename_i hnone
    refine .inr ⟨fun ⟨w, ms, aborted⟩ ht hab => ?_, rfl⟩
    obtain rfl : aborted = false := hab
    cases ms with
    | nil => rfl
    | cons m ms => exact absurd ht (hnone w m ms)

theorem returned_cases (s : Server α) :
    (∃ w m ms aborted, s.tx = some ⟨w, m :: ms, aborted⟩ ∧
      s.returned = ({ s with tx := some ⟨m, m :: ms, false⟩ }, .done)) ∨
      (∀ t, s.tx = some t → t.marks = []) ∧ s.returned = s.fail := by
  unfold returned
  split
  · rename_i w m ms aborted htx
    exact .inl ⟨w, m, ms, aborted, htx, rfl⟩
  · rename_i hnone
    refine .inr ⟨fun ⟨w, ms, aborted⟩ ht => ?_, rfl⟩
    cases ms with
    | nil => rfl
    | cons m ms => exact absurd ht (hnone w m ms aborted)

end Server

/-- `Connection`, with `implicit` true: the writer. -/
structure Connection (α : Type) where
  server : Server α := {}
  /-- `_open` -/
  opened : Bool := false
  /-- `_failed` -/
  failed : Bool := false
  deriving DecidableEq, Repr

namespace Connection

/-- `_begin`: undo a transaction that failed and was left open, then open one if none is. -/
def begin_ (c : Connection α) : Connection α × Outcome :=
  let (c, o) :=
    if c.failed then
      let (server, o) := c.server.ROLLBACK
      ({ server, opened := false, failed := false }, o)
    else (c, .done)
  match o with
  | .done =>
    if c.opened then (c, .done)
    else
      match c.server.BEGIN with
      | (server, .done) => ({ c with server, opened := true }, .done)
      | (server, o) => ({ c with server }, o)
  | o => (c, o)

/-- `_run`. -/
def run_ (c : Connection α) (ws : List α) (r : Reply) : Connection α × Outcome :=
  match c.server.statement ws r with
  | (server, .pgError) => ({ c with server, failed := c.opened }, .pgError)
  | (server, o) => ({ c with server }, o)

/-- `execute`: `writes` is what `translate` says of the statement. -/
def execute (c : Connection α) (writes : Bool) (w : α) (r : Reply) : Connection α × Outcome :=
  if writes || c.failed then
    match c.begin_ with
    | (c, .done) => c.run_ (if writes then [w] else []) r
    | (c, o) => (c, o)
  else c.run_ [] r

def executemany (c : Connection α) (rows : List α) (r : Reply) : Connection α × Outcome :=
  if rows.isEmpty then (c, .done)
  else
    match c.begin_ with
    | (c, .done) =>
      match c.server.statement rows r with
      | (server, .pgError) => ({ c with server, failed := true }, .pgError)
      | (server, o) => ({ c with server }, o)
    | (c, o) => (c, o)

/-- `savepoint`, up to the `yield`: its command stands outside the `try`, and outside `_run`. -/
def enter (c : Connection α) (r : Reply) : Connection α × Outcome :=
  match c.begin_ with
  | (c, .done) => ({ c with server := (c.server.SAVEPOINT r).1 }, (c.server.SAVEPOINT r).2)
  | (c, o) => (c, o)

/-- The block ended normally: its savepoint is released. -/
def leave (c : Connection α) (r : Reply) : Connection α × Outcome :=
  ({ c with server := (c.server.RELEASE r).1 }, (c.server.RELEASE r).2)

/-- The block raised: back to its savepoint. The outcome is the rollback's own. -/
def leaveFailed (c : Connection α) (r : Reply) : Connection α × Outcome :=
  match c.server.ROLLBACK_TO r with
  | (server, .done) => ({ c with server, failed := false }, .done)
  | (server, o) => ({ c with server }, o)

/-- `commit`. A failed transaction is rolled back and reported, never sent a `COMMIT`. -/
def commit (c : Connection α) (r : CommitReply) : Connection α × Outcome :=
  if c.failed then
    ({ server := c.server.ROLLBACK.1, opened := false, failed := false }, .pgError)
  else if c.opened then
    match r with
    | .ok => ({ c with server := c.server.COMMIT.1, opened := false }, c.server.COMMIT.2)
    | .error => ({ c with server := c.server.ROLLBACK.1, opened := false }, .pgError)
    | .cancelled => ({ c with server := c.server.COMMIT.1, opened := false }, .otherError)
    | .lost => ({ c with server := c.server.drop, opened := false }, .pgError)
  else (c, .done)

/-- `rollback`; a closed connection is sent nothing. -/
def rollback (c : Connection α) : Connection α × Outcome :=
  if c.opened then
    ({ server := if c.server.alive then c.server.ROLLBACK.1 else c.server,
       opened := false, failed := false }, .done)
  else (c, .done)

end Connection

/-- What the holders of a connection do with it, and the connection dropping under them. -/
inductive Op (α : Type) where
  | begin
  | execute (writes : Bool) (w : α) (r : Reply)
  | executemany (rows : List α) (r : Reply)
  | enter (r : Reply)
  | leave (r : Reply)
  | leaveFailed (r : Reply)
  | commit (r : CommitReply)
  | rollback
  | dropped
  deriving DecidableEq, Repr

def Connection.apply (c : Connection α) : Op α → Connection α × Outcome
  | .begin => c.begin_
  | .execute writes w r => c.execute writes w r
  | .executemany rows r => c.executemany rows r
  | .enter r => c.enter r
  | .leave r => c.leave r
  | .leaveFailed r => c.leaveFailed r
  | .commit r => c.commit r
  | .rollback => c.rollback
  | .dropped => ({ c with server := c.server.drop }, .done)

/-- Whether the operation goes through `_begin`. -/
def Op.begins (c : Connection α) : Op α → Bool
  | .begin | .enter _ => true
  | .execute writes _ _ => writes || c.failed
  | .executemany rows _ => !rows.isEmpty
  | _ => false

end NetCoreNoc.Store
