import Mathlib
import NetCoreNoc.Spool.Frame

/-! The spool directory, its one writer and a reader (`ingest/spool.py`). The two share the files
and nothing else, so each takes small steps. A recovery is one step, and so is what a reader does at the
end of a segment, from its listing to its next file. -/
namespace NetCoreNoc.Spool

/-- The files by inode, and what `segments` lists: first sequence number and inode, oldest first. An
unlinked file stays for whoever holds it open. -/
structure Disk where
  files : List Bytes := []
  dir : List (Nat × Nat) := []
  deriving DecidableEq, Repr

namespace Disk

def bytes (d : Disk) (ino : Nat) : Bytes := d.files.getD ino []

def write (d : Disk) (ino : Nat) (b : Bytes) : Disk := { d with files := d.files.set ino b }

def unlink (d : Disk) (first : Nat) : Disk := { d with dir := d.dir.filter (·.1 ≠ first) }

/-- `os.open` with `O_CREAT`: the segment of that name, new and empty if there is none. -/
def openAppend (d : Disk) (first : Nat) : Disk × Nat :=
  match d.dir.lookup first with
  | some ino => (d, ino)
  | none =>
    (⟨d.files ++ [[]], d.dir.filter (·.1 < first) ++ (first, d.files.length) ::
      d.dir.filter (first < ·.1)⟩, d.files.length)

def usage (d : Disk) : Nat := (d.dir.map fun e => (d.bytes e.2).length).sum

end Disk

/-- Payloads as records, numbered on from a sequence number. -/
def number (seq : Nat) : List Bytes → List Record
  | [] => []
  | p :: ps => (seq, p) :: number (seq + 1) ps

/-- `SpoolWriter` in its process. -/
structure SpoolWriter where
  maxBytes : Nat
  nextSeq : Nat
  torn : Nat := 0
  /-- `_fd`, by its inode -/
  ino : Nat := 0
  /-- `_size` -/
  size : Nat := 0
  used : Nat := 0
  deriving DecidableEq, Repr

/-- Where the writer's process is. -/
inductive Writer where
  | down
  /-- before `_open_segment`, at a start or when a segment is full -/
  | opening (w : SpoolWriter) (starting : Bool)
  | idle (w : SpoolWriter)
  /-- in `append`: what of the group's bytes is still to be written -/
  | writing (w : SpoolWriter) (group : List Bytes) (view : Bytes)
  deriving DecidableEq, Repr

inductive WriterOp where
  | start (maxBytes : Nat)
  | openSegment
  | refreshUsage
  | append (group : List Bytes)
  /-- `os.write` takes the next bytes -/
  | write (n : Nat)
  /-- `os.fdatasync` returns -/
  | sync
  /-- the write or the sync raises `OSError` -/
  | fail
  /-- the process ends -/
  | crash
  deriving DecidableEq, Repr

/-- `_recover`: the directory after it, `next_seq` and the bytes cut off. -/
def recover (d : Disk) : Disk × Nat × Nat :=
  match d.dir.getLast? with
  | none => (d, 1, 0)
  | some (first, ino) =>
    let data := d.bytes ino
    let (records, rest, _) := parse data
    let d := d.write ino (data.take (data.length - rest.length))
    match records.getLast? with
    | some r => (d, r.1 + 1, rest.length)
    | none => (d.unlink first, first, rest.length)

/-- Whether `frame` can pack the group's records, which it does before anything is written. -/
def Packs (seq : Nat) (group : List Bytes) : Prop :=
  seq + group.length ≤ 2 ^ 64 ∧ ∀ p ∈ group, p.length < 2 ^ 32

instance (seq : Nat) (group : List Bytes) : Decidable (Packs seq group) :=
  inferInstanceAs (Decidable (_ ∧ _))

/-- `append` has made its records durable. -/
def SpoolWriter.appended (w : SpoolWriter) (group : List Bytes) : SpoolWriter :=
  let len := (frames (number w.nextSeq group)).length
  { w with nextSeq := w.nextSeq + group.length, size := w.size + len, used := w.used + len }

/-- One step of the writer; an operation that is not its next one changes nothing. -/
def Writer.step (d : Disk) (wr : Writer) (op : WriterOp) : Disk × Writer :=
  match op with
  | .crash => (d, .down)
  | .start maxBytes =>
    match wr with
    | .down => ((recover d).1,
        .opening { maxBytes, nextSeq := (recover d).2.1, torn := (recover d).2.2 } true)
    | wr => (d, wr)
  | .openSegment =>
    match wr with
    | .opening w starting =>
      let (d, ino) := d.openAppend w.nextSeq
      let used := if starting then d.usage else w.used
      (d, .idle { w with ino, size := (d.bytes ino).length, used })
    | wr => (d, wr)
  | .refreshUsage =>
    match wr with
    | .idle w => (d, .idle { w with used := d.usage })
    | wr => (d, wr)
  | .append group =>
    match wr with
    | .idle w =>
      if w.used ≥ w.maxBytes then (d, .idle w)
      else if Packs w.nextSeq group then (d, .writing w group (frames (number w.nextSeq group)))
      else (d, .idle w)
    | wr => (d, wr)
  | .write n =>
    match wr with
    | .writing w group view =>
      (d.write w.ino (d.bytes w.ino ++ view.take n), .writing w group (view.drop n))
    | wr => (d, wr)
  | .sync =>
    match wr with
    | .writing w group [] =>
      (d, if (w.appended group).size ≥ SEGMENT_BYTES then .opening (w.appended group) false
        else .idle (w.appended group))
    | wr => (d, wr)
  | .fail =>
    match wr with
    | .writing w _ _ => (d.write w.ino ((d.bytes w.ino).take w.size), .idle w)
    | wr => (d, wr)

/-- An open segment: `_file` with its position, and `_first`. -/
structure Handle where
  ino : Nat
  pos : Nat
  first : Nat
  deriving DecidableEq, Repr

/-- Where the reader is in `read`: outside it, at its loop, or at the end of the file. -/
inductive Phase where
  | idle | reading | ended
  deriving DecidableEq, Repr

/-- `SpoolReader`, with the arguments and the result of the call of `read` under way. -/
structure SpoolReader where
  after : Nat
  torn : Nat := 0
  corrupt : Nat := 0
  skipped : Nat := 0
  file : Option Handle := none
  /-- `_buffer` from `_offset` on -/
  buffer : Bytes := []
  limit : Nat := 0
  out : List Record := []
  phase : Phase := .idle
  deriving DecidableEq, Repr

namespace SpoolReader

/-- `_open`: the segment that holds `want`, else the oldest; `none` when there is no segment. -/
def openFile (d : Disk) (r : SpoolReader) (want : Nat) : Option SpoolReader :=
  match d.dir with
  | [] => none
  | oldest :: _ =>
    let holding := d.dir.filter (·.1 ≤ want)
    let e := holding.getLastD oldest
    let skipped := if holding.isEmpty then r.skipped + (e.1 - want) else r.skipped
    some { r with skipped, file := some ⟨e.2, 0, e.1⟩, buffer := [] }

/-- What `read` does with the records `parse` gave it. -/
def accept (r : SpoolReader) (records : List Record) : SpoolReader :=
  records.foldl (fun r (seq, payload) =>
    if seq > r.after then { r with out := r.out ++ [(seq, payload)], after := seq } else r) r

/-- How far `_resync` steps: over the record when its length leads to an intact one. -/
def resyncStep (buffer : Bytes) : Nat :=
  let length := (unpack buffer).length
  let jump := HEADER_SIZE + length
  if length ≤ MAX_PAYLOAD ∧ (parse (buffer.drop jump)).1 ≠ [] then jump else 1

def resync (r : SpoolReader) : SpoolReader :=
  { r with corrupt := r.corrupt + resyncStep r.buffer, buffer := r.buffer.drop (resyncStep r.buffer) }

/-- The listing of `_finished`: the segments after the open one, itself among them when a file of
the same name has replaced it. -/
def later (d : Disk) (h : Handle) : List (Nat × Nat) :=
  let found := d.dir.filter (h.first ≤ ·.1)
  let replaced := match found with
    | [] => false
    | e :: _ => e.1 == h.first && e.2 != h.ino
  found.filter fun e => h.first < e.1 || replaced

/-- `_finished`, back at the loop or out of it. -/
def finished (d : Disk) (r : SpoolReader) (h : Handle) : SpoolReader :=
  match later d h with
  | [] => { r with phase := .idle }
  | e :: _ =>
    let rest := (d.bytes h.ino).drop h.pos
    if rest ≠ [] then
      { r with buffer := r.buffer ++ rest, file := some { h with pos := h.pos + rest.length },
               phase := .reading }
    else
      let r := { r with torn := r.torn + r.buffer.length, file := none,
                        skipped := r.skipped + (e.1 - (r.after + 1)) }
      match r.openFile d e.1 with
      | some r => { r with phase := .reading }
      | none => { r with phase := .idle }

/-- One turn of the loop of `read`; `_finished` is a turn of its own. Back in `.idle`, the call has
returned `out`. -/
def turn (d : Disk) (r : SpoolReader) : SpoolReader :=
  match r.phase, r.file with
  | .idle, _ => r
  | .reading, none =>
    if r.limit ≤ r.out.length then { r with phase := .idle }
    else (r.openFile d (r.after + 1)).getD { r with phase := .idle }
  | .reading, some h =>
    if r.limit ≤ r.out.length then { r with phase := .idle }
    else
      let (records, rest, corrupt) := parse r.buffer
      let r := accept { r with buffer := rest } records
      if corrupt then r.resync
      else if records ≠ [] then r
      else
        let chunk := ((d.bytes h.ino).drop h.pos).take READ_CHUNK
        if chunk ≠ [] then
          { r with buffer := r.buffer ++ chunk, file := some { h with pos := h.pos + chunk.length } }
        else { r with phase := .ended }
  | .ended, some h => r.finished d h
  | .ended, none => { r with phase := .idle }

/-- A call of `read`. -/
def call (r : SpoolReader) (limit : Nat) : SpoolReader :=
  match r.phase with
  | .idle => { r with limit, out := [], phase := .reading }
  | _ => r

end SpoolReader

end NetCoreNoc.Spool
