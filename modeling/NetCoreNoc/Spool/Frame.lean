import Mathlib
import NetCoreNoc.Parsing

/-! The spool's records on disk (`ingest/spool.py`): a header of length, checksum and sequence
number, then the payload. -/
namespace NetCoreNoc.Spool
open Parsing

abbrev Bytes := List UInt8

/-- A sequence number and its payload. -/
abbrev Record := Nat × Bytes

/-- The size of `struct.Struct("<IIQ")`. -/
def HEADER_SIZE : Nat := 16
def SEGMENT_BYTES : Nat := 64 * 1024 * 1024
def MAX_PAYLOAD : Nat := 256 * 1024
def READ_CHUNK : Nat := 1024 * 1024

/-- The low `k` bytes of a number, the lowest first. -/
def toBytes : Nat → Nat → Bytes
  | 0, _ => []
  | k + 1, n => UInt8.ofNat n :: toBytes k (n / 256)

def fromBytes : Bytes → Nat
  | [] => 0
  | b :: bs => b.toNat + 256 * fromBytes bs

@[simp] theorem toBytes_length (k n : Nat) : (toBytes k n).length = k := by
  induction k generalizing n with
  | zero => rfl
  | succ k ih => simp [toBytes, ih]

theorem fromBytes_toBytes (k n : Nat) (h : n < 256 ^ k) : fromBytes (toBytes k n) = n := by
  induction k generalizing n with
  | zero =>
    rw [Nat.pow_zero] at h
    simp only [toBytes, fromBytes]
    omega
  | succ k ih =>
    have hd : n / 256 < 256 ^ k := Nat.div_lt_of_lt_mul (by rw [Nat.pow_succ] at h; omega)
    simp only [toBytes, fromBytes, ih _ hd, UInt8.toNat_ofNat']
    omega

/-- One bit of the reflected CRC-32. -/
def crcBit (c : Nat) : Nat :=
  if c % 2 = 1 then Nat.xor (c / 2) 0xEDB88320 else c / 2

def crcByte (c : Nat) (b : UInt8) : Nat :=
  crcBit (crcBit (crcBit (crcBit (crcBit (crcBit (crcBit (crcBit (Nat.xor c b.toNat))))))))

/-- `zlib.crc32(data, value)`. -/
def crc32 (data : Bytes) (value : Nat) : Nat :=
  Nat.xor (data.foldl crcByte (Nat.xor value 0xFFFFFFFF)) 0xFFFFFFFF

/-- What a record's header carries for a checksum. -/
def checksum (seq : Nat) (payload : Bytes) : Nat := crc32 payload (crc32 (toBytes 8 seq) 0)

private theorem crcBit_lt {c : Nat} (h : c < 2 ^ 32) : crcBit c < 2 ^ 32 := by
  unfold crcBit
  split
  · exact Nat.xor_lt_two_pow (by omega) (by decide)
  · omega

private theorem crcByte_lt {c : Nat} (h : c < 2 ^ 32) (b : UInt8) : crcByte c b < 2 ^ 32 := by
  have hb : b.toNat < 2 ^ 32 := b.toNat_lt.trans (by decide)
  unfold crcByte
  iterate 8 apply crcBit_lt
  exact Nat.xor_lt_two_pow h hb

private theorem foldl_crcByte_lt (data : Bytes) {c : Nat} (h : c < 2 ^ 32) :
    data.foldl crcByte c < 2 ^ 32 := by
  induction data generalizing c with
  | nil => exact h
  | cons b data ih => exact ih (crcByte_lt h b)

theorem crc32_lt (data : Bytes) {value : Nat} (h : value < 2 ^ 32) : crc32 data value < 2 ^ 32 :=
  Nat.xor_lt_two_pow (foldl_crcByte_lt data (Nat.xor_lt_two_pow h (by decide))) (by decide)

theorem checksum_lt (seq : Nat) (payload : Bytes) : checksum seq payload < 2 ^ 32 :=
  crc32_lt _ (crc32_lt _ (by decide))

/-- `frame`, for numbers that `HEADER.pack` takes. -/
def frame (seq : Nat) (payload : Bytes) : Bytes :=
  toBytes 4 payload.length ++ toBytes 4 (checksum seq payload) ++ toBytes 8 seq ++ payload

structure Header where
  length : Nat
  crc : Nat
  seq : Nat
  deriving DecidableEq, Repr

/-- `HEADER.unpack_from`, at the front of a buffer. -/
def unpack (buffer : Bytes) : Header :=
  ⟨fromBytes (buffer.take 4), fromBytes ((buffer.drop 4).take 4), fromBytes ((buffer.drop 8).take 8)⟩

/-- One turn of the loop of `parse`, on the buffer from its offset on. -/
def front (buffer : Bytes) : Front Record UInt8 :=
  if buffer.length < HEADER_SIZE then .short
  else if (unpack buffer).length > MAX_PAYLOAD then .corrupt
  else if HEADER_SIZE + (unpack buffer).length > buffer.length then .short
  else
    let payload := (buffer.drop HEADER_SIZE).take (unpack buffer).length
    if checksum (unpack buffer).seq payload ≠ (unpack buffer).crc then .corrupt
    else .intact ((unpack buffer).seq, payload) (buffer.drop (HEADER_SIZE + (unpack buffer).length))

theorem unpack_append {b : Bytes} (h : HEADER_SIZE ≤ b.length) (c : Bytes) :
    unpack (b ++ c) = unpack b := by
  unfold HEADER_SIZE at h
  have h4 : (b ++ c).take 4 = b.take 4 := List.take_append_of_le_length (by omega)
  have hc : ((b ++ c).drop 4).take 4 = (b.drop 4).take 4 := by
    rw [List.drop_append_of_le_length (by omega), List.take_append_of_le_length (by simp; omega)]
  have hs : ((b ++ c).drop 8).take 8 = (b.drop 8).take 8 := by
    rw [List.drop_append_of_le_length (by omega), List.take_append_of_le_length (by simp; omega)]
  simp only [unpack, h4, hc, hs]

/-- Once a header and the payload it announces are there, what follows changes nothing. -/
private theorem front_append {b : Bytes} (c : Bytes) (h : front b ≠ .short) :
    front (b ++ c) = match front b with
      | .intact r rest => .intact r (rest ++ c)
      | v => v := by
  unfold front at h ⊢
  by_cases h1 : b.length < HEADER_SIZE
  · simp [h1] at h
  · have h1' : ¬ (b ++ c).length < HEADER_SIZE := by simp only [List.length_append]; omega
    rw [if_neg h1, if_neg h1', unpack_append (by omega) c]
    rw [if_neg h1] at h
    by_cases h2 : (unpack b).length > MAX_PAYLOAD
    · simp only [if_pos h2]
    · rw [if_neg h2] at h ⊢
      by_cases h3 : HEADER_SIZE + (unpack b).length > b.length
      · simp [h3] at h
      · have h3' : ¬ HEADER_SIZE + (unpack b).length > (b ++ c).length := by
          simp only [List.length_append]
          omega
        have hp : ((b ++ c).drop HEADER_SIZE).take (unpack b).length =
            (b.drop HEADER_SIZE).take (unpack b).length := by
          rw [List.drop_append_of_le_length (by omega),
            List.take_append_of_le_length (by simp; omega)]
        have hr : (b ++ c).drop (HEADER_SIZE + (unpack b).length) =
            b.drop (HEADER_SIZE + (unpack b).length) ++ c :=
          List.drop_append_of_le_length (by omega)
        simp only [if_neg h2, if_neg h3, if_neg h3', hp, hr]
        by_cases h4 : checksum (unpack b).seq ((b.drop HEADER_SIZE).take (unpack b).length) =
            (unpack b).crc
        · simp [h4]
        · simp [h4]

theorem front_intact {b rest : Bytes} {r : Record} (h : front b = .intact r rest) :
    rest.length + HEADER_SIZE ≤ b.length := by
  unfold front at h
  split at h
  · exact absurd h (by simp)
  · split at h
    · exact absurd h (by simp)
    · split at h
      · exact absurd h (by simp)
      · simp only at h
        split at h
        · exact absurd h (by simp)
        · simp only [Front.intact.injEq] at h
          rw [← h.2, List.length_drop]
          omega

/-- The records that `frame` can write and `parse` accepts. -/
def Fits (r : Record) : Prop := r.1 < 2 ^ 64 ∧ r.2.length ≤ MAX_PAYLOAD

private theorem drop_toBytes {i k : Nat} (h : k ≤ i) (n : Nat) : (toBytes k n).drop i = [] :=
  List.drop_eq_nil_of_le (by simpa using h)

theorem unpack_frame {r : Record} (h : Fits r) (c : Bytes) :
    unpack (frame r.1 r.2 ++ c) = ⟨r.2.length, checksum r.1 r.2, r.1⟩ := by
  have hl : r.2.length < 256 ^ 4 := lt_of_le_of_lt h.2 (by decide)
  have hc : checksum r.1 r.2 < 256 ^ 4 := (checksum_lt _ _).trans_le (by decide)
  have hs : r.1 < 256 ^ 8 := h.1.trans_le (by decide)
  simp [unpack, frame, List.drop_append, fromBytes_toBytes _ _ hl,
    fromBytes_toBytes _ _ hc, fromBytes_toBytes _ _ hs, drop_toBytes]

theorem frame_length (seq : Nat) (payload : Bytes) :
    (frame seq payload).length = HEADER_SIZE + payload.length := by
  simp only [frame, List.length_append, toBytes_length, HEADER_SIZE]

theorem front_frame {r : Record} (c : Bytes) (h : Fits r) :
    front (frame r.1 r.2 ++ c) = .intact r c := by
  have hl : (frame r.1 r.2 ++ c).length = HEADER_SIZE + r.2.length + c.length := by
    rw [List.length_append, frame_length]
  have hd : (frame r.1 r.2 ++ c).drop HEADER_SIZE = r.2 ++ c := by
    simp [frame, HEADER_SIZE, List.drop_append, drop_toBytes]
  unfold front
  rw [unpack_frame h, hl, hd, ← List.drop_drop, hd, if_neg (by omega), if_neg (by simpa using h.2),
    if_neg (by simp)]
  simp

/-- The spool's records as a coding: `parse` is its incremental parser. -/
def records : Coding Record UInt8 where
  front := front
  shrinks h := by
    have hle := front_intact h
    unfold HEADER_SIZE at hle
    omega
  corrupt_append c h := by
    rw [front_append c (by simp [h]), h]
  intact_append c h := by
    rw [front_append c (by simp [h]), h]
  encode r := frame r.1 r.2
  fits := Fits
  front_encode c h := front_frame c h
  front_nil := rfl

/-- `parse`, on the buffer from its offset on: the intact records, what is left, and whether what
is left is corrupt. -/
def parse (buffer : Bytes) : List Record × Bytes × Bool := records.parse buffer

/-- Records one after another in a segment. -/
def frames (rs : List Record) : Bytes := records.encodes rs

end NetCoreNoc.Spool
