import Mathlib
import NetCoreNoc.Snmp.Receiver

/-! What is kept of a datagram that was refused (`blank_community` and `quarantine_packet` in
`ingest/receiver.py`). A read of an octet that is not there is an error here, as it is in the source. -/
namespace NetCoreNoc.Snmp

def MAX_QUARANTINE_BYTES : Nat := 4096

/-- `data[i]`, or the index that is out of range. -/
def octet (data : Bytes) (i : Nat) : Except Nat UInt8 := match data[i]? with
  | some b => .ok b
  | none => .error i

/-- `read_length`, read by read. -/
def read_length (data : Bytes) (i : Nat) : Except Nat (Option (Nat × Nat)) :=
  if data.length ≤ i then .ok none
  else do
    let first ← octet data i
    if first < 0x80 then return some (first.toNat, i + 1)
    let count := (first &&& 0x7F).toNat
    if count = 0 ∨ count > 4 ∨ i + 1 + count > data.length then return none
    return some (fromBig (slice data (i + 1) (i + 1 + count)), i + 1 + count)

/-- The length of an element that must have a tag, where there is one. -/
def element (data : Bytes) (i : Nat) (tag : UInt8) : Except Nat (Option (Nat × Nat)) :=
  if data.length ≤ i then .ok none
  else do
    let found ← octet data i
    if found ≠ tag then return none
    read_length data (i + 1)

/-- The walk of `blank_community`: where the community's octets begin, and how many there are. -/
def locate (data : Bytes) : Except Nat (Option (Nat × Nat)) := do
  let some (_, i) ← element data 0 0x30 | return none
  let some (length, start) ← element data i 0x02 | return none
  let some (length, start) ← element data (start + length) 0x04 | return none
  if start + length > data.length then return none
  return some (start, length)

/-- Its loop. -/
def blanked (data : Bytes) (start length : Nat) : Bytes := (List.range' start length).foldl (fun b i => b.set i 0) data

def blank_community (data : Bytes) : Option Bytes := match locate data with
  | .ok (some (start, length)) => some (blanked data start length)
  | _ => none

/-- `raw` -/
def kept (data : Bytes) : Bytes := ((blank_community data).map (·.take MAX_QUARANTINE_BYTES)).getD []

/-- What `sha256` is taken of. -/
def digested (data : Bytes) : Bytes := if (blank_community data).isSome then kept data else data

/-- What `first8` shows. -/
def leading (data : Bytes) : Bytes := if (blank_community data).isSome then (kept data).take 8 else data.take 4

structure QuarantinedPacket where
  source : String
  raw : Bytes
  reason : String
  ts : ℚ
  sha256 : String
  length : Nat
  first8 : String
  sanitized : Bool

def quarantine_packet (P : Platform) (source : String) (data : Bytes) (reason : String) (ts : ℚ) : QuarantinedPacket where
  source := source
  raw := kept data
  reason := reason
  ts := ts
  sha256 := hex (P.digest .SHA256 (digested data))
  length := data.length
  first8 := hex (leading data)
  sanitized := (blank_community data).isSome

/-- The length octets of BER in the definite form, of at most four octets after the first. -/
inductive Definite : Bytes → Nat → Prop where
  | short {b : UInt8} : b < 0x80 → Definite [b] b.toNat
  | long {first : UInt8} {b : Bytes} : 1 ≤ b.length → b.length ≤ 4 → first.toNat = 0x80 + b.length →
      Definite (first :: b) (fromBig b)

/-- A message in plain BER, up to its community: a SEQUENCE, an INTEGER and an OCTET STRING, with definite lengths. -/
def Plain (data head community : Bytes) : Prop := ∃ sequence size inner version outer rest,
  Definite sequence size ∧ Definite inner version.length ∧ Definite outer community.length ∧
    head = 0x30 :: sequence ++ 0x02 :: inner ++ version ++ 0x04 :: outer ∧ data = head ++ community ++ rest

private theorem low_bits (b : UInt8) : (b &&& 0x7F).toNat = b.toNat % 128 := by
  rw [UInt8.toNat_and]
  exact Nat.and_two_pow_sub_one_eq_mod _ 7

/-- The octets after one that stands behind a prefix. -/
private theorem slice_after (pre t : Bytes) (first : UInt8) (k : Nat) :
    slice (pre ++ first :: t) (pre.length + 1) (pre.length + 1 + k) = t.take k := by
  have hpre : pre ++ first :: t = (pre ++ [first]) ++ t := by simp
  have hlength : pre.length + 1 = (pre ++ [first]).length := by simp
  unfold slice
  rw [hpre, hlength, List.take_length_add_append, List.drop_left]

theorem read_length_eq (data : Bytes) (i : Nat) : read_length data i = .ok (readLength data i) := by
  unfold read_length readLength octet
  cases hget : data[i]? with
  | none => rw [if_pos (List.getElem?_eq_none_iff.mp hget)]
  | some first =>
    rw [if_neg (not_le.mpr (List.getElem?_eq_some_iff.mp hget).1)]
    simp only [bind, Except.bind, pure, Except.pure, apply_ite Except.ok]

theorem readLength_definite {octets : Bytes} {n : Nat} (h : Definite octets n) (pre rest : Bytes) :
    readLength (pre ++ (octets ++ rest)) pre.length = some (n, pre.length + octets.length) := by
  have hget (first : UInt8) (t : Bytes) : (pre ++ first :: t)[pre.length]? = some first := by simp
  unfold readLength
  cases h with
  | @short b hb =>
    rw [List.singleton_append, hget]
    exact if_pos hb
  | @long first b hpos hfour hfirst =>
    rw [List.cons_append, hget]
    have hlong : ¬ first < 0x80 := by
      rw [UInt8.lt_iff_toNat_lt, hfirst]
      show ¬ 128 + b.length < 128
      omega
    have hcount : (first &&& 0x7F).toNat = b.length := by
      rw [low_bits, hfirst]
      omega
    have hslice : slice (pre ++ first :: (b ++ rest)) (pre.length + 1) (pre.length + 1 + b.length) = b := by
      rw [slice_after, List.take_left]
    have hfits : ¬ (b.length = 0 ∨ b.length > 4 ∨ pre.length + 1 + b.length > (pre ++ first :: (b ++ rest)).length) := by
      simp only [List.length_append, List.length_cons]
      omega
    simp only [hlong, if_false, hcount, hfits, hslice, List.length_cons]
    rw [add_assoc, add_comm 1]

theorem definite_of_readLength {pre t : Bytes} {n j : Nat} (h : readLength (pre ++ t) pre.length = some (n, j)) :
    ∃ octets rest, t = octets ++ rest ∧ Definite octets n ∧ j = pre.length + octets.length := by
  unfold readLength at h
  cases t with
  | nil => simp at h
  | cons first t =>
    have hget : (pre ++ first :: t)[pre.length]? = some first := by simp
    simp only [hget] at h
    split at h
    · rename_i hshort
      obtain ⟨rfl, rfl⟩ := Prod.mk.inj (Option.some.inj h)
      exact ⟨[first], t, rfl, .short hshort, rfl⟩
    · rename_i hlong
      split at h
      · exact absurd h nofun
      · rename_i hcount
        obtain ⟨rfl, rfl⟩ := Prod.mk.inj (Option.some.inj h)
        rw [UInt8.lt_iff_toNat_lt] at hlong
        have hbits := low_bits first
        have hfirst := first.toNat_lt
        change ¬ first.toNat < 128 at hlong
        simp only [List.length_append, List.length_cons] at hcount
        have hlength : (t.take (first &&& 0x7F).toNat).length = (first &&& 0x7F).toNat := by
          rw [List.length_take]
          omega
        refine ⟨first :: t.take (first &&& 0x7F).toNat, t.drop (first &&& 0x7F).toNat, ?_, ?_, ?_⟩
        · rw [List.cons_append, List.take_append_drop]
        · rw [slice_after]
          exact .long (by omega) (by omega) (by omega)
        · rw [List.length_cons, hlength]
          omega

/-- The octets that an element's length takes, where it has the tag. -/
private def lengthAt (data : Bytes) (i : Nat) (tag : UInt8) : Option (Nat × Nat) :=
  if data[i]? = some tag then readLength data (i + 1) else none

private theorem element_eq (data : Bytes) (i : Nat) (tag : UInt8) : element data i tag = .ok (lengthAt data i tag) := by
  unfold element lengthAt octet
  cases hget : data[i]? with
  | none => rw [if_pos (List.getElem?_eq_none_iff.mp hget), if_neg nofun]
  | some found =>
    rw [if_neg (not_le.mpr (List.getElem?_eq_some_iff.mp hget).1)]
    simp only [bind, Except.bind, pure, Except.pure, read_length_eq, ← apply_ite Except.ok, ne_eq, ite_not, Option.some.injEq]

private theorem lengthAt_iff (pre t : Bytes) {tag : UInt8} {n j : Nat} : lengthAt (pre ++ t) pre.length tag = some (n, j) ↔
    ∃ octets rest, t = tag :: octets ++ rest ∧ Definite octets n ∧ j = (pre ++ tag :: octets).length := by
  unfold lengthAt
  constructor
  · intro h
    split at h
    · rename_i hget
      cases t with
      | nil => simp at hget
      | cons first t =>
        obtain rfl : first = tag := by simpa using hget
        rw [List.append_cons, show pre.length + 1 = (pre ++ [first]).length by simp] at h
        obtain ⟨octets, rest, rfl, hdefinite, rfl⟩ := definite_of_readLength h
        exact ⟨octets, rest, rfl, hdefinite, by simp; omega⟩
    · exact absurd h nofun
  · rintro ⟨octets, rest, rfl, hdefinite, rfl⟩
    rw [if_pos (by simp)]
    have hread := readLength_definite hdefinite (pre ++ [tag]) rest
    simp only [List.append_assoc, List.length_append, List.length_singleton, List.singleton_append] at hread
    rw [List.cons_append, hread]
    simp only [List.length_append, List.length_cons, Option.some.injEq, Prod.mk.injEq, true_and]
    omega

/-- What the walk finds. -/
private def found (data : Bytes) : Option (Nat × Nat) := do
  let (_, i) ← lengthAt data 0 0x30
  let (length, start) ← lengthAt data i 0x02
  let (length, start) ← lengthAt data (start + length) 0x04
  if start + length > data.length then none else some (start, length)

private theorem locate_eq (data : Bytes) : locate data = .ok (found data) := by
  unfold locate found
  simp only [element_eq, bind, Except.bind, pure, Except.pure, Option.bind]
  rcases lengthAt data 0 0x30 with _ | ⟨_, i⟩
  · rfl
  dsimp only
  rcases lengthAt data i 0x02 with _ | ⟨length, start⟩
  · rfl
  dsimp only
  rcases lengthAt data (start + length) 0x04 with _ | ⟨length, start⟩
  · rfl
  dsimp only
  split <;> rfl

variable {data : Bytes}

private theorem found_eq_some {start length : Nat} (h : found data = some (start, length)) :
    start + length ≤ data.length ∧ ∃ size i inner j, lengthAt data 0 0x30 = some (size, i) ∧
      lengthAt data i 0x02 = some (inner, j) ∧ lengthAt data (j + inner) 0x04 = some (length, start) := by
  unfold found at h
  obtain ⟨⟨size, i⟩, hsequence, h⟩ := Option.bind_eq_some_iff.mp h
  obtain ⟨⟨inner, j⟩, hversion, h⟩ := Option.bind_eq_some_iff.mp h
  obtain ⟨⟨length', start'⟩, hcommunity, h⟩ := Option.bind_eq_some_iff.mp h
  dsimp only at h
  split at h
  · exact absurd h nofun
  · rename_i hfits
    obtain ⟨rfl, rfl⟩ := Prod.mk.inj (Option.some.inj h)
    exact ⟨not_lt.mp hfits, size, i, inner, j, hsequence, hversion, hcommunity⟩

/-- No read of the walk is out of range, and what it finds is in the datagram. -/
theorem locate_in_range (data : Bytes) : ∃ result, locate data = .ok result ∧ ∀ p ∈ result, p.1 + p.2 ≤ data.length :=
  ⟨found data, locate_eq data, fun _ hp => (found_eq_some hp).1⟩

private theorem lt_of_lengthAt {i : Nat} {tag : UInt8} {p : Nat × Nat} (h : lengthAt data i tag = some p) :
    i < data.length := by
  unfold lengthAt at h
  split at h
  · exact (List.getElem?_eq_some_iff.mp ‹_›).1
  · exact absurd h nofun

/-- So many octets after a prefix. -/
private theorem content_after {pre t : Bytes} {n : Nat} (h : pre.length + n ≤ (pre ++ t).length) :
    ∃ content rest, t = content ++ rest ∧ content.length = n := by
  rw [List.length_append] at h
  exact ⟨t.take n, t.drop n, (List.take_append_drop ..).symm, List.length_take_of_le (by omega)⟩

/-- The walk finds the community of a message in plain BER, and nothing else. -/
theorem locate_iff {start length : Nat} : locate data = .ok (some (start, length)) ↔
    ∃ head community, Plain data head community ∧ start = head.length ∧ length = community.length := by
  rw [locate_eq, Except.ok.injEq]
  constructor
  · intro h
    obtain ⟨hfits, size, i, inner, j, hsequence, hversion, hcommunity⟩ := found_eq_some h
    obtain ⟨o₁, t₁, hdata, h₁, rfl⟩ := (lengthAt_iff [] data).mp hsequence
    rw [List.nil_append] at hversion
    obtain ⟨o₂, t₂, rfl, h₂, rfl⟩ := (lengthAt_iff (0x30 :: o₁) t₁).mp (hdata ▸ hversion)
    have hdata : data = (0x30 :: o₁ ++ 0x02 :: o₂) ++ t₂ := by rw [hdata]; simp
    obtain ⟨version, t₃, rfl, rfl⟩ := content_after (hdata ▸ (lt_of_lengthAt hcommunity).le)
    rw [← List.length_append] at hcommunity
    have hdata : data = (0x30 :: o₁ ++ 0x02 :: o₂ ++ version) ++ t₃ := by rw [hdata]; simp
    obtain ⟨o₃, t₄, rfl, h₃, rfl⟩ := (lengthAt_iff _ t₃).mp (hdata ▸ hcommunity)
    have hdata : data = (0x30 :: o₁ ++ 0x02 :: o₂ ++ version ++ 0x04 :: o₃) ++ t₄ := by rw [hdata]; simp
    obtain ⟨community, rest, rfl, rfl⟩ := content_after (hdata ▸ hfits)
    refine ⟨_, community, ⟨o₁, size, o₂, version, o₃, rest, h₁, h₂, h₃, rfl, ?_⟩, rfl, rfl⟩
    rw [hdata, List.append_assoc _ community]
  · rintro ⟨head, community, ⟨o₁, size, o₂, version, o₃, rest, h₁, h₂, h₃, rfl, hdata⟩, rfl, rfl⟩
    have hsequence : lengthAt data 0 0x30 = some (size, (0x30 :: o₁).length) := by
      rw [show data = [] ++ (0x30 :: o₁ ++ (0x02 :: o₂ ++ version ++ 0x04 :: o₃ ++ community ++ rest)) by simp [hdata]]
      exact (lengthAt_iff [] _).mpr ⟨o₁, _, rfl, h₁, rfl⟩
    have hversion : lengthAt data (0x30 :: o₁).length 0x02 = some (version.length, (0x30 :: o₁ ++ 0x02 :: o₂).length) := by
      rw [show data = 0x30 :: o₁ ++ (0x02 :: o₂ ++ (version ++ 0x04 :: o₃ ++ community ++ rest)) by simp [hdata]]
      exact (lengthAt_iff _ _).mpr ⟨o₂, _, rfl, h₂, rfl⟩
    have hcommunity : lengthAt data ((0x30 :: o₁ ++ 0x02 :: o₂).length + version.length) 0x04 =
        some (community.length, (0x30 :: o₁ ++ 0x02 :: o₂ ++ version ++ 0x04 :: o₃).length) := by
      rw [← List.length_append,
        show data = (0x30 :: o₁ ++ 0x02 :: o₂ ++ version) ++ (0x04 :: o₃ ++ (community ++ rest)) by simp [hdata]]
      exact (lengthAt_iff _ _).mpr ⟨o₃, _, rfl, h₃, rfl⟩
    unfold found
    simp only [hsequence, hversion, hcommunity, Option.bind_eq_bind, Option.bind_some]
    refine if_neg ?_
    rw [hdata]
    simp only [List.length_append, List.length_cons]
    omega

/-- What the loop leaves: zeros in the range, and the rest. -/
theorem getElem?_blanked (data : Bytes) (start length i : Nat) : (blanked data start length)[i]? =
    if start ≤ i ∧ i < start + length then data[i]?.map fun _ => 0 else data[i]? := by
  unfold blanked
  induction length generalizing data start with
  | zero => rw [if_neg (by omega)]; rfl
  | succ length ih =>
    rw [List.range'_succ, List.foldl_cons, ih, List.getElem?_set]
    rcases eq_or_ne start i with rfl | hne
    · have hout : ¬ (start + 1 ≤ start ∧ start < start + 1 + length) := by omega
      have hin : start ≤ start ∧ start < start + (length + 1) := by omega
      rw [if_neg hout, if_pos rfl, if_pos hin]
      rcases lt_or_ge start data.length with hlt | hge
      · rw [if_pos hlt, List.getElem?_eq_getElem hlt]
        rfl
      · rw [if_neg (not_lt.mpr hge), List.getElem?_eq_none hge]
        rfl
    · have hrange : start + 1 ≤ i ∧ i < start + 1 + length ↔ start ≤ i ∧ i < start + (length + 1) := by omega
      simp only [if_neg hne, hrange]

theorem length_blanked (data : Bytes) (start length : Nat) : (blanked data start length).length = data.length := by
  unfold blanked
  induction length generalizing data start with
  | zero => rfl
  | succ length ih =>
    rw [List.range'_succ, List.foldl_cons, ih, List.length_set]

/-- The v1 or the v2c decoder reads a community from a datagram. -/
def Platform.Reads (P : Platform) (data community : Bytes) : Prop :=
  (∃ m, P.decodeV1 data = some m ∧ m.community = community) ∨ (∃ m, P.decodeV2c data = some m ∧ m.community = community)

/-- Where the decoders of a platform find the octets of a community: it is these octets, and in plain BER they are the
content of the OCTET STRING. -/
structure Platform.Octets (P : Platform) where
  positions : Bytes → List Nat
  stand : ∀ {data community}, P.Reads data community → (positions data).map (data[·]?) = community.map some
  plain : ∀ {data community head content}, P.Reads data community → Plain data head content →
    positions data = List.range' head.length content.length

/-- A packet that is made to be kept differs from the datagram only in the octets, and nothing that is kept shows one. -/
structure Redacted (data : Bytes) (octets : List Nat) : Prop where
  packet : ∀ b ∈ blank_community data, b.length = data.length ∧ ∀ i ∉ octets, b[i]? = data[i]?
  stored : ∀ i ∈ octets, ∀ bytes ∈ [kept data, leading data, digested data], bytes.getD i 0 = 0

private theorem getD_take {b : Bytes} {i : Nat} (h : b.getD i 0 = 0) (n : Nat) : (b.take n).getD i 0 = 0 := by
  rw [List.getD_eq_getElem?_getD, List.getElem?_take] at *
  split
  · exact h
  · rfl

/-- What stands at the positions of a part. -/
private theorem map_getElem?_part (head content rest : Bytes) :
    (List.range' head.length content.length).map ((head ++ content ++ rest)[·]?) = content.map some := by
  apply List.ext_getElem?
  intro i
  rw [List.getElem?_map, List.getElem?_map, List.append_assoc]
  rcases lt_or_ge i content.length with hlt | hge
  · rw [List.getElem?_range' hlt, Option.map_some, Nat.one_mul, List.getElem?_append_right (by omega), Nat.add_sub_cancel_left,
      List.getElem?_append_left hlt, List.getElem?_eq_getElem hlt]
    rfl
  · rw [List.getElem?_eq_none (by simpa using hge), List.getElem?_eq_none hge]
    rfl

section Redaction
variable {P : Platform} {data community : Bytes}

/-- The octets of a community are all zero where the datagram shows none of them. -/
private theorem zero_iff (L : P.Octets) (h : P.Reads data community) :
    (∀ i ∈ L.positions data, data.getD i 0 = 0) ↔ ∀ b ∈ community, b = 0 := by
  have hstand := L.stand h
  constructor
  · intro hzero b hb
    have hmem : some b ∈ (L.positions data).map (data[·]?) := hstand ▸ List.mem_map_of_mem hb
    obtain ⟨i, hi, hget⟩ := List.mem_map.mp hmem
    simpa [List.getD_eq_getElem?_getD, hget] using hzero i hi
  · intro hzero i hi
    have hmem : data[i]? ∈ community.map some := hstand ▸ List.mem_map_of_mem hi
    obtain ⟨b, hb, hget⟩ := List.mem_map.mp hmem
    rw [List.getD_eq_getElem?_getD, ← hget]
    exact hzero b hb

/-- The community of plain BER is redacted. -/
private theorem redacted_plain (L : P.Octets) (h : P.Reads data community) {head content : Bytes}
    (hplain : Plain data head content) : Redacted data (L.positions data) := by
  have hblank : blank_community data = some (blanked data head.length content.length) := by
    unfold blank_community
    rw [locate_iff.mpr ⟨head, content, hplain, rfl, rfl⟩]
  rw [L.plain h hplain]
  refine ⟨fun b hb => ?packet, fun i hi => ?stored⟩
  case packet =>
    rw [hblank] at hb
    obtain rfl := Option.some.inj hb
    refine ⟨length_blanked .., fun i hi => ?_⟩
    rw [getElem?_blanked]
    exact if_neg fun hin => hi (List.mem_range'_1.mpr hin)
  case stored =>
    have hzero : (blanked data head.length content.length).getD i 0 = 0 := by
      rw [List.getD_eq_getElem?_getD, getElem?_blanked, if_pos (List.mem_range'_1.mp hi)]
      cases data[i]? <;> rfl
    have hkept : kept data = (blanked data head.length content.length).take MAX_QUARANTINE_BYTES := by
      unfold kept
      rw [hblank]
      rfl
    have hsome : (blank_community data).isSome := by rw [hblank]; rfl
    have hraw : (kept data).getD i 0 = 0 := hkept ▸ getD_take hzero _
    have hleading : leading data = (kept data).take 8 := if_pos hsome
    have hdigested : digested data = kept data := if_pos hsome
    rw [hleading, hdigested]
    simp only [List.mem_cons, List.not_mem_nil, or_false, forall_eq_or_imp, forall_eq]
    exact ⟨hraw, getD_take hraw 8, hraw⟩

/-- No read of the walk leaves the bytes; and a datagram that a community is read from is redacted exactly if it is
plain BER up to the community, or the community shows nothing. -/
theorem redacted_iff (L : P.Octets) : (∀ bytes, ∃ result, locate bytes = .ok result) ∧
    ∀ data community, P.Reads data community →
      (Redacted data (L.positions data) ↔ (∃ head, Plain data head community) ∨ ∀ b ∈ community, b = 0) := by
  refine ⟨fun bytes => (locate_in_range bytes).imp fun _ h => h.1, fun data community h => ?_⟩
  by_cases hplain : ∃ head content, Plain data head content
  · obtain ⟨head, content, hplain⟩ := hplain
    have hcontent : content = community := by
      have hstand := L.stand h
      rw [L.plain h hplain] at hstand
      obtain ⟨_, _, _, _, _, rest, _, _, _, _, hdata⟩ := hplain
      rw [hdata, map_getElem?_part] at hstand
      exact List.map_injective_iff.mpr (Option.some_injective _) hstand
    exact iff_of_true (redacted_plain L h hplain) (.inl ⟨head, hcontent ▸ hplain⟩)
  · have hnone : blank_community data = none := by
      obtain ⟨result, hresult, -⟩ := locate_in_range data
      unfold blank_community
      rw [hresult]
      cases result with
      | none => rfl
      | some p =>
        obtain ⟨head, content, hp, -⟩ := locate_iff.mp hresult
        exact absurd ⟨head, content, hp⟩ hplain
    have hkept : kept data = [] := by
      unfold kept
      rw [hnone]
      rfl
    have hleading : leading data = data.take 4 := if_neg (by simp [hnone])
    have hdigested : digested data = data := if_neg (by simp [hnone])
    rw [or_iff_right fun ⟨head, hp⟩ => hplain ⟨head, community, hp⟩, ← zero_iff L h]
    refine ⟨fun hr i hi => ?digest, fun hzero => ⟨fun b hb => ?packet, fun i hi => ?stored⟩⟩
    case digest => exact hr.stored i hi data (by simp [hdigested])
    case packet => exact absurd (hnone ▸ hb) nofun
    case stored =>
      rw [hkept, hleading, hdigested]
      simp only [List.mem_cons, List.not_mem_nil, or_false, forall_eq_or_imp, forall_eq]
      exact ⟨rfl, getD_take (hzero i hi) 4, hzero i hi⟩

end Redaction

/-- A v2c trap under the community `public`, in a SEQUENCE of definite length. -/
def definiteTrap : Bytes :=
  [0x30, 0x31, 0x02, 0x01, 0x01, 0x04, 0x06, 0x70, 0x75, 0x62, 0x6C, 0x69, 0x63, 0xA7, 0x24, 0x02, 0x01, 0x01, 0x02, 0x01, 0x00,
    0x02, 0x01, 0x00, 0x30, 0x19, 0x30, 0x17, 0x06, 0x0A, 0x2B, 0x06, 0x01, 0x06, 0x03, 0x01, 0x01, 0x04, 0x01, 0x00, 0x06, 0x09,
    0x2B, 0x06, 0x01, 0x06, 0x03, 0x01, 0x01, 0x05, 0x03]

/-- The same, in one of indefinite length. -/
def indefiniteTrap : Bytes := 0x30 :: 0x80 :: definiteTrap.drop 2 ++ [0x00, 0x00]

/-- What both decode to. -/
def publicTrap : Message :=
  ⟨1, [0x70, 0x75, 0x62, 0x6C, 0x69, 0x63],
    ⟨"SNMPv2TrapPDU", true, [⟨SNMP_TRAP_OID, "ObjectIdentifier", "1.3.6.1.6.3.1.1.5.3"⟩]⟩⟩

def decodePublic (data : Bytes) : Option Message :=
  if data = definiteTrap ∨ data = indefiniteTrap then some publicTrap else none

private theorem decodePublic_version {m : Message} {v : Int} (hm : decodePublic data = some m)
    (hv : versionOf data = some v) : m.version = v := by
  unfold decodePublic at hm
  split at hm
  · rename_i hd
    obtain rfl := Option.some.inj hm
    have hdefinite : versionOf definiteTrap = some 1 := by decide
    have hindefinite : versionOf indefiniteTrap = some 1 := by decide
    rcases hd with rfl | rfl
    · exact Option.some.inj (hdefinite.symm.trans hv)
    · exact Option.some.inj (hindefinite.symm.trans hv)
  · exact absurd hm nofun

def noMessageV1 (_ : Bytes) : Option MessageV1 := none

private theorem noMessageV1_version {m : MessageV1} {v : Int} (hm : noMessageV1 data = some m)
    (_ : versionOf data = some v) : m.version = v := absurd hm nofun

def zeroDigest (auth : Auth) (_ : Bytes) : Bytes := List.replicate auth.digestSize 0

private theorem zeroDigest_length (auth : Auth) (b : Bytes) : (zeroDigest auth b).length = auth.digestSize :=
  List.length_replicate

/-- A platform that decodes these two datagrams. -/
def publicPlatform : Platform where
  decodeV1 := noMessageV1
  decodeV2c := decodePublic
  decodeScoped _ := none
  digest := zeroDigest
  hmac _ _ _ := []
  ciphers := none
  isDigit := Char.isDigit
  version_v1 := noMessageV1_version
  version_v2c := decodePublic_version
  digest_length := zeroDigest_length

private theorem publicPlatform_reads {data community : Bytes} (h : publicPlatform.Reads data community) :
    (data = definiteTrap ∨ data = indefiniteTrap) ∧ community = publicTrap.community := by
  rcases h with ⟨m, hm, -⟩ | ⟨m, hm, rfl⟩
  · exact absurd hm nofun
  · change decodePublic data = some m at hm
    unfold decodePublic at hm
    split at hm
    · exact ⟨‹_›, by rw [← Option.some.inj hm]⟩
    · exact absurd hm nofun

/-- Both have the community from the eighth octet on. -/
def publicOctets : publicPlatform.Octets where
  positions _ := List.range' 7 6
  stand h := by
    obtain ⟨rfl | rfl, rfl⟩ := publicPlatform_reads h <;> decide
  plain h hplain := by
    have hlocate := locate_iff.mpr ⟨_, _, hplain, rfl, rfl⟩
    obtain ⟨rfl | rfl, -⟩ := publicPlatform_reads h
    · have hfound : locate definiteTrap = .ok (some (7, 6)) := by decide
      obtain ⟨hstart, hlength⟩ := Prod.mk.inj (Option.some.inj (Except.ok.inj (hfound.symm.trans hlocate)))
      rw [← hstart, ← hlength]
    · have hfound : locate indefiniteTrap = .ok none := by decide
      exact absurd (Except.ok.inj (hfound.symm.trans hlocate)) nofun

/-- The digest of the indefinite one is taken of its community. -/
theorem indefinite_not_redacted : ¬ Redacted indefiniteTrap (publicOctets.positions indefiniteTrap) := by
  intro h
  have hdigested : (digested indefiniteTrap).getD 7 0 = 0 := h.stored 7 (by decide) _ (by simp)
  exact absurd hdigested (by decide)

theorem definite_redacted : Redacted definiteTrap (publicOctets.positions definiteTrap) := by
  have hreads : publicPlatform.Reads definiteTrap publicTrap.community := .inr ⟨publicTrap, by decide, rfl⟩
  have hplain : Plain definiteTrap [0x30, 0x31, 0x02, 0x01, 0x01, 0x04, 0x06] publicTrap.community :=
    ⟨[0x31], 0x31, [1], [1], [6], definiteTrap.drop 13, .short (by decide), .short (by decide), .short (by decide), rfl, rfl⟩
  exact ((redacted_iff publicOctets).2 definiteTrap publicTrap.community hreads).mpr (.inl ⟨_, hplain⟩)

end NetCoreNoc.Snmp
