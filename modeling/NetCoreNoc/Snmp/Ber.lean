import Mathlib

/-! The BER that the receiver walks by hand (`ingest/ber.py`). -/
namespace NetCoreNoc.Snmp

abbrev Bytes := List UInt8

/-- `data[start:stop]`. -/
def slice (data : Bytes) (start stop : Nat) : Bytes := (data.take stop).drop start

/-- `int.from_bytes(b, "big")`. -/
def fromBig (b : Bytes) : Nat := b.foldl (fun n x => n * 256 + x.toNat) 0

/-- `int.from_bytes(b, "big", signed=True)`. -/
def fromSigned (b : Bytes) : Int :=
  match b with
  | [] => 0
  | x :: _ => if x.toNat < 128 then fromBig b else fromBig b - 256 ^ b.length

inductive BerError where
  | truncated
  | tag (expected found : UInt8)
  | badLength
  | badInteger
  deriving DecidableEq, Repr

/-- `Tlv`; `stop` is its `end`. -/
structure Tlv where
  tag : UInt8
  offset : Nat
  start : Nat
  stop : Nat
  deriving DecidableEq, Repr

/-- `read_length`: a length at an offset, and where its content begins. -/
def readLength (data : Bytes) (i : Nat) : Option (Nat × Nat) :=
  match data[i]? with
  | none => none
  | some first =>
    if first < 0x80 then some (first.toNat, i + 1)
    else
      let count := (first &&& 0x7F).toNat
      if count = 0 ∨ count > 4 ∨ i + 1 + count > data.length then none
      else some (fromBig (slice data (i + 1) (i + 1 + count)), i + 1 + count)

def tlv (data : Bytes) (i : Nat) (tag : Option UInt8) : Except BerError Tlv :=
  match data[i]? with
  | none => .error .truncated
  | some found =>
    match tag with
    | some expected =>
      if found ≠ expected then .error (.tag expected found) else content found
    | none => content found
where
  content (found : UInt8) : Except BerError Tlv :=
    match readLength data (i + 1) with
    | none => .error .badLength
    | some (length, start) =>
      if start + length > data.length then .error .badLength
      else .ok ⟨found, i, start, start + length⟩

/-- `integer`. -/
def integer (data : Bytes) (element : Tlv) : Except BerError Int :=
  let content := slice data element.start element.stop
  if 1 ≤ content.length ∧ content.length ≤ 8 then .ok (fromSigned content) else .error .badInteger

/-- A definite or indefinite length: where the content begins. -/
def contentAt (data : Bytes) (i : Nat) : Option Nat :=
  match data[i]? with
  | none => none
  | some first => some (if first < 0x80 then i + 1 else i + 1 + (first &&& 0x7F).toNat)

/-- What the BER of a message says its version is: a SEQUENCE, and in it an INTEGER of any length,
its own length in either form. -/
def versionOf (data : Bytes) : Option Int := do
  guard (data[0]? = some 0x30)
  let offset ← contentAt data 1
  guard (data[offset]? = some 0x02)
  let first ← data[offset + 1]?
  if first < 0x80 then
    some (fromSigned (slice data (offset + 2) (offset + 2 + first.toNat)))
  else
    let start := offset + 2 + (first &&& 0x7F).toNat
    some (fromSigned (slice data start (start + fromBig (slice data (offset + 2) start))))

end NetCoreNoc.Snmp
