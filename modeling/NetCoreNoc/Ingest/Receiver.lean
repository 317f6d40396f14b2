import Mathlib
import NetCoreNoc.Tables
import NetCoreNoc.Ingest.Records
import NetCoreNoc.Snmp.Quarantine
import NetCoreNoc.Snmp.Reasons

/-! The receiver inside the decoder process: `datagram_received` in `ingest/receiver.py`, with no allowlist and a list
for its queue, and `_decode_batch` in `ingest/decoder.py`. -/
namespace NetCoreNoc.Ingest.Decoding
open Json Records Tables
open Spool (Bytes)

def is_raw (payload : Bytes) : Bool := payload.head? = some R

/-! Strings of the receiver's in Python's code points -/

def unlit (s : Str) : String := String.ofList (s.map fun c => Char.ofNat c.val)

theorem chr_val (c : Char) : (chr c).val = c.toNat ∧ ¬ isHigh (chr c) := by
  have hvalid : c.toNat.isValidChar := c.valid
  have hval : (chr c).val = c.toNat := by
    rw [chr, Fin.val_ofNat]
    exact Nat.mod_eq_of_lt (by rcases hvalid with h | h <;> omega)
  refine ⟨hval, fun h => ?_⟩
  rw [isHigh, hval, decide_eq_true_eq] at h
  rcases hvalid with hc | hc <;> omega

theorem joined_lit (s : String) : joined (lit s) = lit s := by
  refine (joined_eq_iff _).mpr (List.Pairwise.isChain (List.pairwise_of_forall_mem_list fun c hc d _ h => ?_))
  obtain ⟨c, -, rfl⟩ := List.mem_map.mp hc
  exact (chr_val c).2 h.1

theorem lit_injective : Function.Injective lit := by
  have hchr : Function.Injective chr := fun c d h => by
    refine Char.toNat_inj.mp ?_
    rw [← (chr_val c).1, ← (chr_val d).1, h]
  exact fun s t h => String.toList_inj.mp (hchr.list_map h)

/-- Where the process runs: the libraries, the key and the policy it is started with, a float in seconds, and the
datagrams that stop it in code that is not the repository's. -/
structure Setting (F : Type) where
  platform : Snmp.Platform
  community_key : Option Bytes
  policy : Snmp.SnmpPolicy
  inet_ntop : Family → Bytes → String
  seconds : F → ℚ
  stops : Snmp.UsmState → Datagram F → Bool

def MAX_REASONS : ℕ := 64

/-- `TrapReceiver`: what it remembers of SNMPv3 and what it has counted, and the items it has handed on. -/
structure Receiver (F : Type) where
  usm : Snmp.UsmState := {}
  accepted : ℕ := 0
  quarantined : ℕ := 0
  reasons : Table String ℕ := Table.empty
  sent : List (QueueItem F) := []

/-- `_refused` -/
def Receiver.refused {F : Type} (r : Receiver F) (reason : String) : Receiver F :=
  if (r.reasons.get reason).isSome ∨ r.reasons.size < MAX_REASONS then
    { r with reasons := r.reasons.upsert reason 0 (· + 1) }
  else r

section
variable {F : Type}

/-- An event of the receiver's; its time is the record's. -/
def trap_of (ts : F) (e : Snmp.TrapEvent) : QueueItem F := .trap {
  device := lit e.device
  trap_oid := lit e.trap_oid
  inst := lit e.inst
  ts := ts
  varbinds := e.varbinds.map fun vb => ⟨lit vb.oid, lit vb.kind, lit vb.value⟩
  community_tag := lit e.community_tag }

def packet_of (ts : F) (q : Snmp.QuarantinedPacket) : QueueItem F := .packet {
  source := lit q.source
  raw := q.raw
  reason := lit q.reason
  ts := ts
  sha256 := lit q.sha256
  length := q.length
  first8 := lit q.first8
  sanitized := q.sanitized }

/-- An item's strings survive the way through JSON. -/
theorem joined_of (ts : F) :
    (∀ e, (trap_of ts e).joined = trap_of ts e) ∧ ∀ q, (packet_of ts q).joined = packet_of ts q := by
  refine ⟨fun e => ?_, fun q => ?_⟩
  · have hvbs : (e.varbinds.map fun vb => (⟨lit vb.oid, lit vb.kind, lit vb.value⟩ : Varbind)).map Varbind.joined =
        e.varbinds.map fun vb => ⟨lit vb.oid, lit vb.kind, lit vb.value⟩ := by
      rw [List.map_map]
      exact List.map_congr_left fun vb _ => by simp only [Function.comp, Varbind.joined, joined_lit]
    simp only [trap_of, QueueItem.joined, joined_lit, hvbs]
  · simp only [packet_of, QueueItem.joined, joined_lit]

end

namespace Setting
variable {F : Type} (S : Setting F)

/-- `datagram_received`; an error that it does not catch ends the process. -/
def datagram_received (r : Receiver F) (d : Datagram F) : Option (QueueItem F × Receiver F) :=
  if S.stops r.usm d then none
  else
    let source := unlit d.source
    match Snmp.parseTrap S.platform source d.datagram (S.seconds d.ts) S.community_key S.policy r.usm with
    | (.ok e, usm) =>
      let item := trap_of d.ts e
      some (item, { r with usm := usm, accepted := r.accepted + 1, sent := r.sent ++ [item] })
    | (.error (.refused reason), usm) =>
      let item := packet_of d.ts (Snmp.quarantine_packet S.platform source d.datagram reason (S.seconds d.ts))
      let r := { r with usm := usm, quarantined := r.quarantined + 1, sent := r.sent ++ [item] }
      some (item, r.refused reason)
    | (.error .valueError, _) => none

section
variable {S} {r r' : Receiver F} {d : Datagram F} {item : QueueItem F}

/-- The receiver hands on an event, or the packet of a refusal. -/
theorem received_cases (h : S.datagram_received r d = some (item, r')) :
    (∃ e usm, item = trap_of d.ts e ∧
      r' = { r with usm := usm, accepted := r.accepted + 1, sent := r.sent ++ [item] }) ∨
    ∃ q usm, Snmp.Lettered q.reason ∧ item = packet_of d.ts q ∧
      r' = { r with usm := usm, quarantined := r.quarantined + 1, sent := r.sent ++ [item] }.refused q.reason := by
  have hreason := Snmp.refuses_parseTrap S.platform (unlit d.source) d.datagram (S.seconds d.ts) S.community_key
    S.policy r.usm
  unfold datagram_received at h
  split at h
  · cases h
  dsimp only at h
  generalize Snmp.parseTrap S.platform (unlit d.source) d.datagram (S.seconds d.ts) S.community_key S.policy r.usm =
    parsed at hreason h
  obtain ⟨(reason | _) | e, usm⟩ := parsed
  · obtain ⟨rfl, rfl⟩ := Prod.mk.inj (Option.some.inj h)
    exact .inr ⟨_, usm, hreason reason rfl, rfl, rfl⟩
  · cases h
  · obtain ⟨rfl, rfl⟩ := Prod.mk.inj (Option.some.inj h)
    exact .inl ⟨e, usm, rfl, rfl⟩

theorem received_sent (h : S.datagram_received r d = some (item, r')) : r'.sent = r.sent ++ [item] := by
  rcases received_cases h with ⟨e, usm, rfl, rfl⟩ | ⟨q, usm, -, rfl, rfl⟩
  · rfl
  · rw [Receiver.refused]
    split <;> rfl

end

variable [PyFloat F] [PyPack F]

def unraw (payload : Bytes) : Except Raised (Datagram F) :=
  Records.unraw (fun family address => lit (S.inet_ntop family address)) payload

def unreadable (payload : Bytes) (reason : String) : Except Raised (QueueItem F) :=
  (S.unraw payload).map fun d => .packet {
    source := d.source
    raw := []
    reason := lit reason
    ts := d.ts
    sha256 := lit (Snmp.hex (S.platform.digest .SHA256 d.datagram))
    length := d.datagram.length
    first8 := lit (Snmp.hex (d.datagram.take 8))
    sanitized := false }

/-- `str(exc)` of the one kind of error that `unraw` raises. -/
def message : Raised → Str
  | .value text => lit text
  | _ => []

/-- A record of a batch: its entry in the answer. -/
def decode_record (r : Receiver F) (payload : Bytes) : Option (Doc F × Receiver F) :=
  match S.unraw payload with
  | .error e => some (.str (message e), r)
  | .ok d => (S.datagram_received r d).map fun out => (as_list out.1, out.2)

/-- `_decode_batch` -/
def decode_batch (r : Receiver F) : List Bytes → Option (List (Doc F) × Receiver F)
  | [] => some ([], r)
  | payload :: payloads =>
    match S.decode_record r payload with
    | none => none
    | some (entry, r) => (decode_batch r payloads).map fun out => (entry :: out.1, out.2)

end Setting

/-! What is counted -/

section
variable {F : Type}

def is_trap : QueueItem F → Bool
  | .trap _ => true
  | .packet _ => false

def refused_for (reason : String) : QueueItem F → Bool
  | .trap _ => false
  | .packet q => q.reason = lit reason

/-- Each item handed on is counted once; one of a reason beyond the last that is told apart is left out of those. -/
structure Receiver.Exact (r : Receiver F) : Prop where
  accepted : r.accepted = r.sent.countP is_trap
  quarantined : r.quarantined = r.sent.countP (!is_trap ·)
  reasons : ∀ reason, r.reasons.count reason = r.sent.countP (refused_for reason) ∨
    r.reasons.get reason = none ∧ MAX_REASONS ≤ r.reasons.size

theorem exact_start : ({} : Receiver F).Exact := ⟨rfl, rfl, fun _ => .inl rfl⟩

theorem Receiver.Exact.trap {r : Receiver F} (h : r.Exact) (usm : Snmp.UsmState) (ts : F) (e : Snmp.TrapEvent) :
    ({ r with usm := usm, accepted := r.accepted + 1, sent := r.sent ++ [trap_of ts e] } : Receiver F).Exact where
  accepted := by simp [h.accepted, is_trap, trap_of]
  quarantined := by simp [h.quarantined, is_trap, trap_of]
  reasons reason := by simpa [refused_for, trap_of] using h.reasons reason

theorem Receiver.Exact.packet {r : Receiver F} (h : r.Exact) (usm : Snmp.UsmState) (ts : F)
    (q : Snmp.QuarantinedPacket) : (({ r with
      usm := usm, quarantined := r.quarantined + 1, sent := r.sent ++ [packet_of ts q] } :
        Receiver F).refused q.reason).Exact := by
  have haccepted : r.accepted = (r.sent ++ [packet_of ts q]).countP is_trap := by
    simp [h.accepted, is_trap, packet_of]
  have hquarantined : r.quarantined + 1 = (r.sent ++ [packet_of ts q]).countP (!is_trap ·) := by
    simp [h.quarantined, is_trap, packet_of]
  have hself : (r.sent ++ [packet_of ts q]).countP (refused_for q.reason) =
      r.sent.countP (refused_for q.reason) + 1 := by
    simp [refused_for, packet_of]
  have hother (reason : String) (hne : reason ≠ q.reason) :
      (r.sent ++ [packet_of ts q]).countP (refused_for reason) = r.sent.countP (refused_for reason) := by
    simp [refused_for, packet_of, lit_injective.eq_iff, hne.symm]
  unfold Receiver.refused
  split
  · rename_i hroom
    refine ⟨haccepted, hquarantined, fun reason => ?_⟩
    dsimp only at hroom ⊢
    rcases eq_or_ne reason q.reason with rfl | hne
    · rcases h.reasons q.reason with hcount | ⟨hnone, hfull⟩
      · left
        rw [hself, ← hcount, Table.count, Table.get_upsert_self]
        rfl
      · rw [hnone] at hroom
        exact absurd (hroom.resolve_left Bool.false_ne_true) hfull.not_gt
    · rw [hother reason hne, Table.count, Table.get_upsert_of_ne _ _ _ _ _ hne]
      exact (h.reasons reason).imp_right fun hr => ⟨hr.1, hr.2.trans (Table.size_upsert _ _ _ _)⟩
  · rename_i hfull
    obtain ⟨hnone, hsize⟩ := not_or.mp hfull
    refine ⟨haccepted, hquarantined, fun reason => ?_⟩
    rcases eq_or_ne reason q.reason with rfl | hne
    · exact .inr ⟨Option.not_isSome_iff_eq_none.mp hnone, not_lt.mp hsize⟩
    · rw [hother reason hne]
      exact h.reasons reason

theorem Receiver.Exact.received {S : Setting F} {r r' : Receiver F} {d : Datagram F}
    {item : QueueItem F} (h : r.Exact) (hr : S.datagram_received r d = some (item, r')) : r'.Exact := by
  rcases Setting.received_cases hr with ⟨e, usm, rfl, rfl⟩ | ⟨q, usm, -, rfl, rfl⟩
  · exact h.trap usm d.ts e
  · exact h.packet usm d.ts q

end

end NetCoreNoc.Ingest.Decoding
