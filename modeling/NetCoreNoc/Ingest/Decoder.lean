import Mathlib
import NetCoreNoc.Runs
import NetCoreNoc.Ingest.Receiver
import NetCoreNoc.Json.Dumps

/-! The decoder process, seen from the main process (`ingest/decoder.py`): a batch in one exchange, or one record at a
time once it has failed, and the counters that are kept over the processes started one after the other. -/
namespace NetCoreNoc.Ingest.Decoding
open Json Records Tables Runs
open Spool (Bytes toBytes fromBytes toBytes_length fromBytes_toBytes)

/-! Frames -/

/-- `_LENGTH.size` -/
def LENGTH_SIZE : ℕ := 4

/-- The frames of the payloads; a length beyond 32 bits is a `struct.error`. -/
def framed : List Bytes → Option Bytes
  | [] => some []
  | p :: payloads =>
    if p.length < 2 ^ 32 then (framed payloads).map fun rest => toBytes LENGTH_SIZE p.length ++ p ++ rest
    else none

/-- `_frames` -/
def frames (payloads : List Bytes) : Option Bytes := (framed payloads).map (0x44 :: ·)

/-- The loop of `_unframe`; less than a length at the end is a `struct.error`. -/
def unframed (blob : Bytes) : Option (List Bytes) :=
  if blob = [] then some []
  else if blob.length < LENGTH_SIZE then none
  else
    let length := fromBytes (blob.take LENGTH_SIZE)
    (unframed ((blob.drop LENGTH_SIZE).drop length)).map ((blob.drop LENGTH_SIZE).take length :: ·)
termination_by blob.length
decreasing_by
  simp only [List.length_drop, LENGTH_SIZE] at *
  have := List.length_pos_of_ne_nil ‹_›
  omega

/-- `_unframe` -/
def unframe (blob : Bytes) : Option (List Bytes) := unframed (blob.drop 1)

theorem unframed_framed {payloads : List Bytes} {blob : Bytes} (h : framed payloads = some blob) :
    unframed blob = some payloads := by
  induction payloads generalizing blob with
  | nil =>
    obtain rfl := Option.some.inj h
    rw [unframed, if_pos rfl]
  | cons p payloads ih =>
    rw [framed] at h
    split_ifs at h with hlength
    obtain ⟨rest, hrest, rfl⟩ := Option.map_eq_some_iff.mp h
    have hsize : (toBytes LENGTH_SIZE p.length).length = LENGTH_SIZE := toBytes_length _ _
    have hshort : ¬ (toBytes LENGTH_SIZE p.length ++ p ++ rest).length < LENGTH_SIZE := by
      rw [List.length_append, List.length_append, hsize]
      omega
    have hne : toBytes LENGTH_SIZE p.length ++ p ++ rest ≠ [] := fun he => hshort (he ▸ by decide)
    rw [unframed, if_neg hne, if_neg hshort, List.append_assoc, List.take_left' hsize, List.drop_left' hsize,
      fromBytes_toBytes LENGTH_SIZE p.length hlength]
    dsimp only
    rw [List.take_left' rfl, List.drop_left' rfl, ih hrest]
    rfl

theorem framed_isSome (payloads : List Bytes) : (framed payloads).isSome ↔ ∀ p ∈ payloads, p.length < 2 ^ 32 := by
  induction payloads with
  | nil => exact iff_of_true rfl nofun
  | cons p payloads ih =>
    rw [framed, List.forall_mem_cons, ← ih]
    split_ifs with h
    · rw [Option.isSome_map]
      exact (and_iff_right h).symm
    · exact iff_of_false nofun fun hc => h hc.1

theorem unframe_frames (payloads : List Bytes) :
    (frames payloads).bind unframe = some payloads ↔ ∀ p ∈ payloads, p.length < 2 ^ 32 := by
  rw [← framed_isSome, frames]
  cases h : framed payloads with
  | none => exact iff_of_false nofun nofun
  | some blob => exact iff_of_true (unframed_framed h) rfl

/-! The answer, and what is read of it -/

/-- One record's outcome; an error stands for the text that quotes it. -/
inductive Result (F : Type) where
  | event (item : QueueItem F)
  | nothing
  | text (s : Str)
  /-- not a valid event -/
  | not_event (e : Raised)
  /-- the decoder returned an invalid event -/
  | invalid (e : Raised)

/-- What the running process has counted, as of its last answer. -/
structure Counted where
  accepted : ℤ := 0
  quarantined : ℤ := 0
  reasons : Table Str ℤ := Table.empty

def Counted.add (c d : Counted) : Counted where
  accepted := c.accepted + d.accepted
  quarantined := c.quarantined + d.quarantined
  reasons := c.reasons.add d.reasons

section
variable {F : Type}

/-- The JSON array that the process sends. -/
def answer (decoded : List (Doc F)) (r : Receiver F) : Doc F := .list [.str (lit "e"), .list decoded,
  .obj [(lit "accepted", .int r.accepted), (lit "quarantined", .int r.quarantined)],
  .obj (r.reasons.entries.map fun e => (lit e.1, .int e.2))]

/-- What a `not a raw record` says, within 200 characters. -/
def not_raw (entry : Str) : Str := (lit "not a raw record: " ++ entry).take 200

/-- A `ValueError` becomes a result. -/
def caught (result : Raised → Result F) : Except Raised (QueueItem F) → Except Raised (Result F)
  | .ok item => .ok (.event item)
  | .error .overflow => .error .overflow
  | .error e => .ok (result e)

def wholes : List (Str × Doc F) → Option (List (Str × ℤ))
  | [] => some []
  | (k, j) :: l => (whole j).toOption.bind fun n => (wholes l).map ((k, n) :: ·)

/-- The counters of an answer, unless they are not counts. -/
def counters : Doc F → Doc F → Option Counted
  | .obj counters, .obj reasons => do
    let accepted ← (counters.lookup (lit "accepted")).bind fun j => (whole j).toOption
    let quarantined ← (counters.lookup (lit "quarantined")).bind fun j => (whole j).toOption
    let reasons ← wholes reasons
    some ⟨accepted, quarantined, Table.empty.merge 0 (fun n _ => n) reasons⟩
  | _, _ => none

variable [PyFloat F] [PyConvert F]

/-- `local`, of one record. -/
def local_result (payload : Bytes) : Except Raised (Result F) := caught .not_event (load payload)

def local_results : List Bytes → Except Raised (List (Result F))
  | [] => .ok []
  | payload :: payloads => do
    let result ← local_result payload
    let results ← local_results payloads
    .ok (result :: results)

def read_entry : Doc F → Except Raised (Result F)
  | .null => .ok .nothing
  | .str entry => .ok (.text (not_raw entry))
  | entry => caught .invalid (Records.decode entry)

def read_entries : List (Doc F) → Except Raised (List (Result F))
  | [] => .ok []
  | entry :: decoded => do
    let result ← read_entry entry
    let results ← read_entries decoded
    .ok (result :: results)

/-- An answer to so many records, unless it is a `DecoderError`. -/
def read_answer (n : ℕ) : Doc F → Option (Counted × Except Raised (List (Result F)))
  | .list [.str tag, .list decoded, c, reasons] =>
    if tag = lit "e" ∧ decoded.length = n then (counters c reasons).map fun c => (c, read_entries decoded) else none
  | _ => none

end

/-! The pool -/

/-- `Decoder`, with the process that runs, as of its last answer, and those that ended. -/
structure Decoder (F : Type) where
  /-- the counters since start, of the processes that ended -/
  base : Counted := {}
  counted : Counted := {}
  restarts : ℕ := 0
  unreadable : ℕ := 0
  process : Receiver F := {}
  ended : List (Receiver F) := []

/-- What leaves a method in place of a result. -/
inductive Fault where
  | decoder_error
  | struct_error
  | raised (e : Raised)
  deriving DecidableEq

namespace Decoder
variable {F : Type} (d : Decoder F)

def counts : Counted := d.base.add d.counted

/-- `_restart`; the process starts. -/
def restart : Decoder F :=
  { d with
    base := d.base.add d.counted, counted := {}, restarts := d.restarts + 1
    process := {}, ended := d.ended ++ [d.process] }

end Decoder

namespace Setting
variable {F : Type} [PyFloat F] [PyPack F] [PyConvert F] (S : Setting F) (d : Decoder F)

/-- `_roundtrip`, with whether the process dies or hangs of something else than a record. -/
def roundtrip (payloads : List Bytes) (dies : Bool) : Decoder F × Except Fault (List (Result F)) :=
  match frames payloads with
  | none => (d, .error .struct_error)
  | some blob =>
    if dies then (d, .error .decoder_error)
    else
      match (unframe blob).bind fun payloads => S.decode_batch d.process payloads with
      | none => (d, .error .decoder_error)
      | some (decoded, r) =>
        match read_answer payloads.length (back (answer decoded r)) with
        | none => (d, .error .decoder_error)
        | some (counted, results) => ({ d with process := r, counted := counted }, results.mapError .raised)

/-- A failed exchange of one record: it is quarantined by its metadata. -/
def hold (payload : Bytes) : Decoder F × Except Fault (List (Result F)) :=
  ({ d.restart with unreadable := d.unreadable + 1 },
    ((S.unreadable payload "decoder-failed").map fun item => [.event item]).mapError .raised)

/-- `decode` of one record. -/
def decode_one (payload : Bytes) (dies : Bool) : Decoder F × Except Fault (List (Result F)) :=
  if is_raw payload then
    match S.roundtrip d [payload] dies with
    | (d, .error .decoder_error) => S.hold d payload
    | out => out
  else (d, (local_results [payload]).mapError .raised)

/-- One at a time, to find the one it cannot get through. -/
def singly (d : Decoder F) : List Bytes → (ℕ → Bool) → Decoder F × Except Fault (List (Result F))
  | [], _ => (d, .ok [])
  | payload :: payloads, dies =>
    match S.decode_one d payload (dies 0) with
    | (d, .error e) => (d, .error e)
    | (d, .ok out) =>
      let (d, rest) := singly d payloads fun n => dies (n + 1)
      (d, rest.map (out ++ ·))

/-- `decode`; a process may die at each of its exchanges. -/
def decode (payloads : List Bytes) (dies : ℕ → Bool) : Decoder F × Except Fault (List (Result F)) :=
  if payloads.any is_raw then
    match payloads with
    | [payload] => S.decode_one d payload (dies 0)
    | _ =>
      match S.roundtrip d payloads (dies 0) with
      | (d, .error .decoder_error) => S.singly d.restart payloads fun n => dies (n + 1)
      | out => out
  else (d, (local_results payloads).mapError .raised)

end Setting

end NetCoreNoc.Ingest.Decoding
