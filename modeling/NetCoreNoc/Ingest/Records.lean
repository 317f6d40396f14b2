import Mathlib
import NetCoreNoc.Base64
import NetCoreNoc.Json.Dumps
import NetCoreNoc.Json.Encoding
import NetCoreNoc.Json.Limits
import NetCoreNoc.Json.Whole
import NetCoreNoc.Spool.Frame

/-! The records of the spool and of the decoder's answers (`ingest/records.py`): raw datagrams, and events as JSON
arrays. -/
namespace NetCoreNoc.Ingest.Records
open Json Base64
open Spool (Bytes toBytes fromBytes toBytes_length fromBytes_toBytes)

/-- `float` of an `int`, where it is no `OverflowError`. -/
class PyConvert (F : Type) where
  ofInt : ℤ → Option F

class LawfulPyConvert (F : Type) [PyFloat F] [PyConvert F] : Prop where
  finite : ∀ (n : ℤ) (x : F), PyConvert.ofInt n = some x → PyFloat.isfinite x = true

/-- `struct` of `<d` -/
class PyPack (F : Type) where
  pack : F → Bytes
  unpack : Bytes → F

class LawfulPyPack (F : Type) [PyFloat F] [PyPack F] : Prop where
  length_pack : ∀ x : F, (PyPack.pack x).length = 8
  unpack_pack : ∀ x : F, PyFloat.isfinite x = true → PyPack.unpack (PyPack.pack x) = x

structure Varbind where
  oid : Str
  kind : Str
  value : Str
  deriving DecidableEq

structure TrapEvent (F : Type) where
  device : Str
  trap_oid : Str
  inst : Str
  ts : F
  varbinds : List Varbind
  community_tag : Str
  deriving DecidableEq

structure QuarantinedPacket (F : Type) where
  source : Str
  raw : Bytes
  reason : Str
  ts : F
  sha256 : Str
  length : ℤ
  first8 : Str
  sanitized : Bool
  deriving DecidableEq

inductive QueueItem (F : Type) where
  | trap (event : TrapEvent F)
  | packet (packet : QuarantinedPacket F)
  deriving DecidableEq

/-- What a record's reading raises: a `ValueError`, with the text of this module's own, or an `OverflowError`. -/
inductive Raised where
  | value (text : String)
  | binascii
  | overflow
  deriving DecidableEq

def Raised.IsValueError : Raised → Prop
  | .overflow => False
  | _ => True

/-! Raw records -/

inductive Family where
  | AF_INET
  | AF_INET6
  deriving DecidableEq

def Family.size : Family → ℕ
  | .AF_INET => 4
  | .AF_INET6 => 16

/-- The arguments of `raw`, and what `unraw` returns. -/
structure Datagram (F : Type) where
  source : Str
  port : ℕ
  ts : F
  datagram : Bytes
  deriving DecidableEq

def family (source : Str) : Family := if chr ':' ∈ source then .AF_INET6 else .AF_INET

/-- `RAW.size` -/
def RAW_SIZE : ℕ := 11

def R : UInt8 := 0x52

def FAMILY (length : UInt8) : Option Family :=
  if length = 4 then some .AF_INET else if length = 16 then some .AF_INET6 else none

section
variable {F : Type} [PyFloat F] [PyPack F] (inet_pton : Family → Str → Option Bytes) (inet_ntop : Family → Bytes → Str)

/-- A port beyond 16 bits is a `struct.error`. -/
def raw (d : Datagram F) : Option Bytes :=
  match inet_pton (family d.source) d.source with
  | none => none
  | some address =>
    if d.port < 65536 then
      some (R :: PyPack.pack d.ts ++ toBytes 1 address.length ++ toBytes 2 d.port ++ address ++ d.datagram)
    else none

def unraw (payload : Bytes) : Except Raised (Datagram F) :=
  if payload.head? ≠ some R ∨ payload.length < 1 + RAW_SIZE then .error (.value "not a raw record")
  else
    match FAMILY (payload.getD 9 0) with
    | none => .error (.value "a raw record with no valid address or time")
    | some family =>
      if payload.length < 1 + RAW_SIZE + family.size ∨
          PyFloat.isfinite (PyPack.unpack (F := F) ((payload.drop 1).take 8)) = false then
        .error (.value "a raw record with no valid address or time")
      else .ok {
        source := inet_ntop family ((payload.drop (1 + RAW_SIZE)).take family.size)
        port := fromBytes ((payload.drop 10).take 2)
        ts := PyPack.unpack ((payload.drop 1).take 8)
        datagram := payload.drop (1 + RAW_SIZE + family.size) }

/-- The address is as the library writes the one that it reads. -/
def Canonical (source : Str) : Prop :=
  ∃ address, inet_pton (family source) source = some address ∧ address.length = (family source).size ∧
    inet_ntop (family source) address = source

variable {inet_pton inet_ntop}

theorem unraw_raw [LawfulPyPack F] {d : Datagram F} (hsource : Canonical inet_pton inet_ntop d.source)
    (hport : d.port < 65536) (hts : PyFloat.isfinite d.ts = true) :
    ∃ payload ∈ raw inet_pton d, unraw inet_ntop payload = .ok d := by
  obtain ⟨address, hpton, hlength, hntop⟩ := hsource
  obtain ⟨p0, p1, p2, p3, p4, p5, p6, p7, hpack⟩ : ∃ a b c d' e f g h, PyPack.pack d.ts = [a, b, c, d', e, f, g, h] := by
    have h8 := LawfulPyPack.length_pack d.ts
    match PyPack.pack d.ts, h8 with
    | [a, b, c, d', e, f, g, h], _ => exact ⟨a, b, c, d', e, f, g, h, rfl⟩
  obtain ⟨q0, q1, hq⟩ : ∃ a b, toBytes 2 d.port = [a, b] := ⟨_, _, rfl⟩
  have hunpack := LawfulPyPack.unpack_pack d.ts hts
  have hport' : fromBytes [q0, q1] = d.port := hq ▸ fromBytes_toBytes 2 d.port (by omega)
  have hfamily : FAMILY (UInt8.ofNat address.length) = some (family d.source) := by
    rw [hlength]
    cases family d.source <;> rfl
  refine ⟨_, by rw [raw, hpton]; exact if_pos hport, ?_⟩
  rw [hpack] at hunpack ⊢
  rw [hq, unraw]
  have hhead : ¬ ((R :: [p0, p1, p2, p3, p4, p5, p6, p7] ++ toBytes 1 address.length ++ [q0, q1] ++ address ++
      d.datagram).head? ≠ some R ∨ (R :: [p0, p1, p2, p3, p4, p5, p6, p7] ++ toBytes 1 address.length ++ [q0, q1] ++
        address ++ d.datagram).length < 1 + RAW_SIZE) := by
    simp only [RAW_SIZE, List.cons_append, List.head?_cons, ne_eq, not_true_eq_false, false_or, List.length_cons,
      List.length_append, toBytes_length, List.length_nil]
    omega
  rw [if_neg hhead]
  simp only [toBytes, List.cons_append, List.nil_append, List.getD_cons_succ, List.getD_cons_zero, hfamily,
    List.drop_succ_cons, List.drop_zero, List.take_succ_cons, List.take_zero, hunpack, hts, List.length_cons,
    List.length_append, RAW_SIZE, Nat.reduceAdd, hport', ← hlength]
  rw [if_neg (by rintro (h | h); omega; exact Bool.noConfusion h), List.take_left' rfl, Nat.add_comm 12]
  simp only [List.drop_succ_cons, List.drop_left' rfl, hntop]

end

/-! Events -/

theorem ok_bind {α β : Type} (a : α) (f : α → Except Raised β) : (Except.ok a : Except Raised α) >>= f = f a := rfl

theorem bind_ok {α β : Type} {x : Except Raised α} {f : α → Except Raised β} {b : β} :
    x >>= f = .ok b ↔ ∃ a, x = .ok a ∧ f a = .ok b := by
  cases x with
  | ok a => exact ⟨fun h => ⟨a, rfl, h⟩, fun ⟨_, h, h'⟩ => Except.ok.inj h ▸ h'⟩
  | error e => exact ⟨nofun, fun ⟨_, h, _⟩ => nomatch h⟩

theorem bind_error {α β : Type} {x : Except Raised α} {f : α → Except Raised β} {e : Raised} :
    x >>= f = .error e ↔ x = .error e ∨ ∃ a, x = .ok a ∧ f a = .error e := by
  cases x with
  | ok a => exact ⟨fun h => .inr ⟨a, rfl, h⟩, fun h => h.elim nofun fun ⟨_, h, h'⟩ => Except.ok.inj h ▸ h'⟩
  | error e' =>
    refine ⟨fun h => .inl (congrArg Except.error (Except.error.inj h)), ?_⟩
    rintro (h | ⟨_, h, _⟩)
    · exact congrArg Except.error (Except.error.inj h)
    · cases h

section
variable {F : Type}

def Varbind.list (vb : Varbind) : Doc F := .list [.str vb.oid, .str vb.kind, .str vb.value]

def as_list : QueueItem F → Doc F
  | .trap item => .list [.str (lit "t"), .str item.device, .str item.trap_oid, .str item.inst, .float item.ts,
    .str item.community_tag, .list (item.varbinds.map Varbind.list)]
  | .packet item => .list [.str (lit "q"), .str item.source, .str (b64encode item.raw), .str item.reason,
    .float item.ts, .str item.sha256, .int item.length, .str item.first8, .bool item.sanitized]

def string : Doc F → Except Raised Str
  | .str s => .ok s
  | _ => .error (.value "expected a string")

def whole : Doc F → Except Raised ℤ
  | .int n => .ok n
  | _ => .error (.value "expected a whole number")

def base64 (s : Str) : Except Raised Bytes :=
  match b64decode s with
  | some l => .ok l
  | none => .error .binascii

def varbind : Doc F → Except Raised Varbind
  | .list [oid, kind, value] => do
    let oid ← string oid
    let kind ← string kind
    let value ← string value
    .ok ⟨oid, kind, value⟩
  | _ => .error (.value "a varbind is not [oid, kind, value]")

def varbinds : List (Doc F) → Except Raised (List Varbind)
  | [] => .ok []
  | vb :: l => do
    let vb ← varbind vb
    let l ← varbinds l
    .ok (vb :: l)

theorem string_ok {j : Doc F} {s : Str} : string j = .ok s ↔ j = .str s := by
  cases j <;> simp [string]

theorem string_error {j : Doc F} : string j ≠ .error .overflow := by
  cases j <;> simp [string]

theorem whole_ok {j : Doc F} {n : ℤ} : whole j = .ok n ↔ j = .int n := by
  cases j <;> simp [whole]

theorem whole_error {j : Doc F} : whole j ≠ .error .overflow := by
  cases j <;> simp [whole]

theorem base64_ok {s : Str} {l : Bytes} : base64 s = .ok l ↔ b64decode s = some l := by
  cases h : b64decode s <;> simp [base64, h]

theorem base64_error {s : Str} : base64 s ≠ .error .overflow := by
  cases h : b64decode s <;> simp [base64, h]

theorem varbind_ok {j : Doc F} {vb : Varbind} : varbind j = .ok vb ↔ j = vb.list := by
  unfold varbind
  split
  · simp only [bind_ok, string_ok, Except.ok.injEq, Varbind.list, Doc.list.injEq, List.cons.injEq, and_true]
    constructor
    · rintro ⟨oid, rfl, kind, rfl, value, rfl, rfl⟩
      exact ⟨rfl, rfl, rfl⟩
    · rintro ⟨rfl, rfl, rfl⟩
      exact ⟨_, rfl, _, rfl, _, rfl, rfl⟩
  · next h => exact iff_of_false nofun fun he => h _ _ _ he

theorem varbind_error {j : Doc F} : varbind j ≠ .error .overflow := by
  unfold varbind
  split
  · simp [bind_error, string_error]
  · simp

theorem varbinds_ok {l : List (Doc F)} {vbs : List Varbind} : varbinds l = .ok vbs ↔ l = vbs.map Varbind.list := by
  induction l generalizing vbs with
  | nil => cases vbs <;> simp [varbinds]
  | cons j l ih =>
    simp only [varbinds, bind_ok, varbind_ok, ih, Except.ok.injEq]
    constructor
    · rintro ⟨vb, rfl, l, rfl, rfl⟩
      rfl
    · intro h
      cases vbs with
      | nil => cases h
      | cons vb vbs =>
        obtain ⟨hvb, hl⟩ := List.cons.inj h
        exact ⟨vb, hvb, vbs, hl, rfl⟩

theorem varbinds_error {l : List (Doc F)} : varbinds l ≠ .error .overflow := by
  induction l with
  | nil => simp [varbinds]
  | cons j l ih => simp [varbinds, bind_error, varbind_error, ih]

variable [PyFloat F] [PyConvert F]

def number : Doc F → Except Raised F
  | .int n =>
    match PyConvert.ofInt n with
    | some x => .ok x
    | none => .error .overflow
  | .float x => if PyFloat.isfinite x then .ok x else .error (.value "expected a finite number")
  | _ => .error (.value "expected a number")

def decode : Doc F → Except Raised (QueueItem F)
  | .list [.str tag, device, trap_oid, inst, ts, community_tag, vbs] =>
    if tag = lit "t" then
      match vbs with
      | .list vbs => do
        let built ← varbinds vbs
        let device ← string device
        let trap_oid ← string trap_oid
        let inst ← string inst
        let ts ← number ts
        let community_tag ← string community_tag
        .ok (.trap ⟨device, trap_oid, inst, ts, built, community_tag⟩)
      | _ => .error (.value "varbinds are not a list")
    else .error (.value "unknown event kind")
  | .list [.str tag, source, raw, reason, ts, sha256, length, first8, sanitized] =>
    if tag = lit "q" then
      match sanitized with
      | .bool sanitized => do
        let source ← string source
        let raw ← string raw
        let raw ← base64 raw
        let reason ← string reason
        let ts ← number ts
        let sha256 ← string sha256
        let length ← whole length
        let first8 ← string first8
        .ok (.packet ⟨source, raw, reason, ts, sha256, length, first8, sanitized⟩)
      | _ => .error (.value "sanitized is not a boolean")
    else .error (.value "unknown event kind")
  | .list (_ :: _) => .error (.value "unknown event kind")
  | _ => .error (.value "not an event")

def load (payload : Bytes) : Except Raised (QueueItem F) :=
  match loadsBytes payload with
  | some j => decode j
  | none => .error (.value "not JSON")

/-- The array holds no dictionary, so whether keys are sorted is no matter. -/
def encode [PyOrder F] (item : QueueItem F) : Option Bytes := (dumps (as_list item).value).map encodeStr

attribute [local simp] decode

theorem number_error {j : Doc F} : number j = .error .overflow ↔ ∃ n, j = .int n ∧ PyConvert.ofInt (F := F) n = none := by
  cases j with
  | int n => cases hn : PyConvert.ofInt (F := F) n <;> simp [number, hn]
  | float x => cases hx : PyFloat.isfinite x <;> simp [number, hx]
  | _ => simp [number]

theorem number_finite [LawfulPyConvert F] {j : Doc F} {x : F} (h : number j = .ok x) : PyFloat.isfinite x = true := by
  cases j with
  | int n =>
    rw [number] at h
    split at h
    · next y hy => exact Except.ok.inj h ▸ LawfulPyConvert.finite n y hy
    · cases h
  | float y =>
    rw [number] at h
    split_ifs at h with hy
    exact Except.ok.inj h ▸ hy
  | _ => cases h

def Varbind.strings (vb : Varbind) : List Str := [vb.oid, vb.kind, vb.value]

/-- An event's array whose fields are all of their types, and its strings. -/
inductive Event : Doc F → List Str → Prop
  | trap (device trap_oid inst community_tag : Str) (vbs : List Varbind) (ts : Doc F) (x : F) : number ts = .ok x →
    Event (.list [.str (lit "t"), .str device, .str trap_oid, .str inst, ts, .str community_tag,
      .list (vbs.map Varbind.list)]) ([device, trap_oid, inst, community_tag] ++ vbs.flatMap Varbind.strings)
  | packet (source reason sha256 first8 : Str) (length : ℤ) (sanitized : Bool) (raw : Str) (l : Bytes) (ts : Doc F)
    (x : F) : b64decode raw = some l → number ts = .ok x →
    Event (.list [.str (lit "q"), .str source, .str raw, .str reason, ts, .str sha256, .int length, .str first8,
      .bool sanitized]) [source, reason, sha256, first8]

/-- An event's array whose time stamp is an integer beyond every float, and whose fields before it are of their
types. -/
inductive Huge : Doc F → Prop
  | trap (device trap_oid inst : Str) (vbs : List Varbind) (community_tag : Doc F) {n : ℤ} :
    PyConvert.ofInt (F := F) n = none → Huge (.list [.str (lit "t"), .str device, .str trap_oid, .str inst, .int n,
      community_tag, .list (vbs.map Varbind.list)])
  | packet (source reason : Str) (sanitized : Bool) (sha256 length first8 : Doc F) {raw : Str} {l : Bytes} {n : ℤ} :
    b64decode raw = some l → PyConvert.ofInt (F := F) n = none → Huge (.list [.str (lit "q"), .str source, .str raw,
      .str reason, .int n, sha256, length, first8, .bool sanitized])

def QueueItem.strings : QueueItem F → List Str
  | .trap item => [item.device, item.trap_oid, item.inst, item.community_tag] ++ item.varbinds.flatMap Varbind.strings
  | .packet item => [item.source, item.reason, item.sha256, item.first8]

def QueueItem.ts : QueueItem F → F
  | .trap item => item.ts
  | .packet item => item.ts

/-- A length of no more digits than Python writes. -/
def QueueItem.Within : QueueItem F → Prop
  | .trap _ => True
  | .packet item => digitCount item.length ≤ MAX_STR_DIGITS

theorem decode_overflow {j : Doc F} : decode j = .error .overflow ↔ Huge j := by
  constructor
  · intro h
    unfold decode at h
    split at h
    · split_ifs at h with htag
      · subst htag
        split at h
        · simp only [bind_error, varbinds_ok, string_ok, varbinds_error, string_error, number_error, reduceCtorEq,
            false_or, and_false, exists_false, or_false] at h
          obtain ⟨vbs, rfl, device, rfl, trap_oid, rfl, inst, rfl, n, rfl, hn⟩ := h
          exact .trap _ _ _ _ _ hn
        · cases h
      · cases h
    · split_ifs at h with htag
      · subst htag
        split at h
        · simp only [bind_error, string_ok, string_error, base64_ok, base64_error, number_error, whole_error,
            reduceCtorEq, false_or, and_false, exists_false, or_false] at h
          obtain ⟨source, rfl, raw, rfl, l, hl, reason, rfl, n, rfl, hn⟩ := h
          exact .packet _ _ _ _ _ _ hl hn
        · cases h
      · cases h
    · cases h
    · cases h
  · rintro (⟨device, trap_oid, inst, vbs, community_tag, hn⟩ | ⟨source, reason, sanitized, sha256, length, first8, hl, hn⟩)
    · have hvbs : varbinds (vbs.map (Varbind.list (F := F))) = .ok vbs := varbinds_ok.mpr rfl
      simp only [decode, if_true, hvbs, string, number, hn]
      rfl
    · simp only [decode, if_true, string, ok_bind, base64, hl, number, hn]
      rfl

variable {item : QueueItem F}

theorem decode_ok {j : Doc F} (h : decode j = .ok item) :
    Event j item.strings ∧ (∃ t, number t = .ok item.ts) ∧ (Fits MAX_STR_DIGITS j → item.Within) := by
  unfold decode at h
  split at h
  · split_ifs at h with htag
    subst htag
    split at h
    · simp only [bind_ok, varbinds_ok, string_ok, Except.ok.injEq] at h
      obtain ⟨vbs, rfl, device, rfl, trap_oid, rfl, inst, rfl, x, hx, community_tag, rfl, rfl⟩ := h
      exact ⟨.trap _ _ _ _ _ _ _ hx, ⟨_, hx⟩, fun _ => trivial⟩
    · cases h
  · split_ifs at h with htag
    subst htag
    split at h
    · simp only [bind_ok, string_ok, base64_ok, whole_ok, Except.ok.injEq] at h
      obtain ⟨source, rfl, raw, rfl, l, hl, reason, rfl, x, hx, sha256, rfl, n, rfl, first8, rfl, rfl⟩ := h
      refine ⟨.packet _ _ _ _ _ _ _ _ _ _ hl hx, ⟨_, hx⟩, fun hf => ?_⟩
      exact hf.2.2.2.2.2.2.1.resolve_left (by decide)
    · cases h
  · cases h
  · cases h

theorem decode_event {j : Doc F} {strs : List Str} (h : Event j strs) : ∃ item, decode j = .ok item ∧ item.strings = strs := by
  cases h with
  | trap device trap_oid inst community_tag vbs ts x hx =>
    have hvbs : varbinds (vbs.map (Varbind.list (F := F))) = .ok vbs := varbinds_ok.mpr rfl
    refine ⟨.trap ⟨device, trap_oid, inst, x, vbs, community_tag⟩, ?_, rfl⟩
    simp only [decode, if_true, hvbs, string, ok_bind, hx]
  | packet source reason sha256 first8 length sanitized raw l ts x hl hx =>
    refine ⟨.packet ⟨source, l, reason, x, sha256, length, first8, sanitized⟩, ?_, rfl⟩
    simp only [decode, if_true, string, ok_bind, base64, hl, whole, hx]

def Varbind.joined (vb : Varbind) : Varbind := ⟨Json.joined vb.oid, Json.joined vb.kind, Json.joined vb.value⟩

/-- An item as its array reads. -/
def QueueItem.joined : QueueItem F → QueueItem F
  | .trap item => .trap { item with
    device := Json.joined item.device
    trap_oid := Json.joined item.trap_oid
    inst := Json.joined item.inst
    varbinds := item.varbinds.map Varbind.joined
    community_tag := Json.joined item.community_tag }
  | .packet item => .packet { item with
    source := Json.joined item.source
    reason := Json.joined item.reason
    sha256 := Json.joined item.sha256
    first8 := Json.joined item.first8 }

omit [PyFloat F] [PyConvert F] in
theorem joined_varbinds (l : List Varbind) :
    l.map Varbind.joined = l ↔ ∀ s ∈ l.flatMap Varbind.strings, Apart s := by
  induction l with
  | nil => exact iff_of_true rfl nofun
  | cons vb l ih =>
    obtain ⟨oid, kind, value⟩ := vb
    simp only [List.map_cons, List.cons.injEq, ih, List.flatMap_cons, List.forall_mem_append, Varbind.joined,
      Varbind.mk.injEq, joined_eq_iff, Varbind.strings, List.forall_mem_cons, List.not_mem_nil, false_implies,
      implies_true, and_true]

omit [PyFloat F] [PyConvert F] in
theorem joined_eq (item : QueueItem F) : item.joined = item ↔ ∀ s ∈ item.strings, Apart s := by
  cases item with
  | trap item =>
    obtain ⟨device, trap_oid, inst, ts, vbs, community_tag⟩ := item
    simp only [QueueItem.joined, QueueItem.trap.injEq, TrapEvent.mk.injEq, joined_eq_iff, joined_varbinds,
      QueueItem.strings, List.forall_mem_append, List.forall_mem_cons, List.not_mem_nil, false_implies, implies_true,
      and_true, true_and]
    tauto
  | packet item =>
    obtain ⟨source, raw, reason, ts, sha256, length, first8, sanitized⟩ := item
    simp only [QueueItem.joined, QueueItem.packet.injEq, QuarantinedPacket.mk.injEq, joined_eq_iff, QueueItem.strings,
      List.forall_mem_cons, List.not_mem_nil, false_implies, implies_true, and_true, true_and]

omit [PyFloat F] [PyConvert F] in
theorem back_varbinds (l : List Varbind) :
    backItems (l.map (Varbind.list (F := F))) = (l.map Varbind.joined).map Varbind.list := by
  induction l with
  | nil => rfl
  | cons vb l ih =>
    rw [List.map_cons, List.map_cons, List.map_cons, backItems, ih]
    rfl

omit [PyFloat F] [PyConvert F] in
/-- Base64 has no surrogates. -/
theorem joined_base64 (l : Bytes) : Json.joined (b64encode l) = b64encode l := by
  have hlow : ∀ c ∈ b64encode l, ¬ isHigh c := by
    intro c hc hhigh
    have := b64encode_ascii l c hc
    simp only [isHigh, decide_eq_true_eq] at hhigh
    omega
  have hpairs : (b64encode l).Pairwise fun c d => ¬ (isHigh c ∧ isLow d) :=
    List.pairwise_of_forall_mem_list fun c hc _ _ hp => hlow c hc hp.1
  exact (joined_eq_iff _).mpr hpairs.isChain

theorem decode_back (h : PyFloat.isfinite item.ts = true) :
    decode (back (as_list item)) = .ok item.joined := by
  cases item with
  | trap item =>
    have htag : Json.joined (lit "t") = lit "t" := rfl
    have hvbs : varbinds (backItems (item.varbinds.map (Varbind.list (F := F)))) = .ok (item.varbinds.map Varbind.joined) :=
      varbinds_ok.mpr (back_varbinds item.varbinds)
    have hts : number (.float item.ts) = .ok item.ts := if_pos h
    simp only [as_list, back, backItems, htag, decode, if_true, hvbs, string, ok_bind, hts]
    rfl
  | packet item =>
    have htag : Json.joined (lit "q") = lit "q" := rfl
    have hts : number (.float item.ts) = .ok item.ts := if_pos h
    simp only [as_list, back, backItems, htag, decode, if_true, string, ok_bind, base64, joined_base64,
      b64decode_b64encode, whole, hts]
    rfl

omit [PyFloat F] [PyConvert F] in
theorem fits_as_list (h : item.Within) : Fits MAX_STR_DIGITS (as_list item) := by
  have hvbs (l : List Varbind) : FitsAll (F := F) MAX_STR_DIGITS (l.map Varbind.list) := by
    induction l with
    | nil => trivial
    | cons vb l ih => exact ⟨⟨trivial, trivial, trivial, trivial⟩, ih⟩
  cases item with
  | trap item => exact ⟨trivial, trivial, trivial, trivial, trivial, trivial, hvbs _, trivial⟩
  | packet item => exact ⟨trivial, trivial, trivial, trivial, trivial, trivial, .inr h, trivial, trivial, trivial⟩

variable [PyOrder F]

omit [PyConvert F] in
theorem doc_as_list (item : QueueItem F) : (as_list item).value.doc = some (as_list item) ∧ item.Within ∨
    (as_list item).value.doc = none ∧ ¬ item.Within := by
  have hvbs (l : List Varbind) : itemDocs (itemValues (l.map (Varbind.list (F := F)))) = some (l.map Varbind.list) := by
    induction l with
    | nil => rfl
    | cons vb l ih =>
      rw [List.map_cons, itemValues, itemDocs, ih]
      rfl
  cases item with
  | trap item =>
    refine .inl ⟨?_, trivial⟩
    simp only [as_list, Doc.value, itemValues, Value.doc, itemDocs, hvbs, Option.map_some]
  | packet item =>
    by_cases h : digitCount item.length ≤ MAX_STR_DIGITS
    · refine .inl ⟨?_, h⟩
      simp only [as_list, Doc.value, itemValues, Value.doc, itemDocs, h, if_true, Option.map_some]
    · refine .inr ⟨?_, h⟩
      simp only [as_list, Doc.value, itemValues, Value.doc, itemDocs, h, if_false, Option.map_none]

/-- An event reads as itself where no high surrogate stands before a low one, and its length can be written. -/
theorem load_encode [LawfulPyFloat F] (h : PyFloat.isfinite item.ts = true) :
    (∃ payload ∈ encode item, load payload = .ok item) ↔ (∀ s ∈ item.strings, Apart s) ∧ item.Within := by
  rcases doc_as_list item with ⟨hdoc, hwithin⟩ | ⟨hdoc, hwithin⟩
  · have hencode : encode item = some (encodeStr (text (as_list item))) := by
      rw [encode, dumps, hdoc]
      rfl
    have hload : load (encodeStr (text (as_list item))) = .ok item.joined := by
      rw [load, loadsBytes_text (fits_as_list hwithin)]
      exact decode_back h
    simp only [hencode, Option.mem_def, Option.some.injEq, exists_eq_left', hload, Except.ok.injEq, joined_eq, hwithin,
      and_true]
  · have hencode : encode item = none := by
      rw [encode, dumps, hdoc]
      rfl
    exact iff_of_false (by rw [hencode]; exact fun ⟨_, h, _⟩ => nomatch h) fun hc => hwithin hc.2

/-- A record is refused with a `ValueError`, or read as an event that reads as itself once it is encoded again. -/
def Sound (payload : Bytes) : Prop :=
  (∃ e, load (F := F) payload = .error e ∧ e.IsValueError) ∨
    ∃ item : QueueItem F, load payload = .ok item ∧ ∃ again ∈ encode item, load again = .ok item

theorem sound_iff [LawfulPyFloat F] [LawfulPyConvert F] (payload : Bytes) : Sound (F := F) payload ↔
    ∀ j ∈ loadsBytes (F := F) payload, ¬ Huge j ∧ ∀ strs, Event j strs → ∀ s ∈ strs, Apart s := by
  cases hj : loadsBytes (F := F) payload with
  | none =>
    have hload : load (F := F) payload = .error (.value "not JSON") := by rw [load, hj]
    exact iff_of_true (.inl ⟨_, hload, trivial⟩) nofun
  | some j =>
    have hload : load payload = decode j := by rw [load, hj]
    have hfits : Fits MAX_STR_DIGITS j := by
      obtain ⟨s, -, hs⟩ := Option.bind_eq_some_iff.mp hj
      exact fits_loads hs
    simp only [Option.mem_def, Option.some.injEq, forall_eq', Sound, hload]
    cases hdecode : decode j with
    | error e =>
      have hnone : ∀ strs, ¬ Event j strs := fun strs he => by
        obtain ⟨item, hitem, -⟩ := decode_event he
        exact nomatch hdecode.symm.trans hitem
      by_cases he : e = .overflow
      · subst he
        refine iff_of_false ?_ fun h => h.1 (decode_overflow.mp hdecode)
        rintro (⟨e, he, hv⟩ | ⟨item, hitem, -⟩)
        · obtain rfl := Except.error.inj he
          exact hv
        · cases hitem
      · have hv : e.IsValueError := by
          cases e <;> trivial
        refine iff_of_true (.inl ⟨e, rfl, hv⟩) ⟨fun hh => ?_, fun strs hs => absurd hs (hnone strs)⟩
        exact he (Except.error.inj (hdecode.symm.trans (decode_overflow.mpr hh)))
    | ok item =>
      obtain ⟨hevent, ⟨t, ht⟩, hwithin⟩ := decode_ok hdecode
      have hround := load_encode (number_finite ht)
      have hhuge : ¬ Huge j := fun hh => nomatch hdecode.symm.trans (decode_overflow.mpr hh)
      constructor
      · rintro (⟨e, he, -⟩ | ⟨item', hitem, hagain⟩)
        · cases he
        · obtain rfl := Except.ok.inj hitem
          refine ⟨hhuge, fun strs hs => ?_⟩
          obtain ⟨item', hitem', rfl⟩ := decode_event hs
          obtain rfl := Except.ok.inj (hdecode.symm.trans hitem')
          exact (hround.mp hagain).1
      · exact fun h => .inr ⟨item, rfl, hround.mpr ⟨h.2 _ hevent, hwithin hfits⟩⟩

/-- What the records give back: events, raw datagrams, and the records that any bytes are. -/
theorem codec_sound [LawfulPyFloat F] [LawfulPyConvert F] [PyPack F] [LawfulPyPack F]
    (inet_pton : Family → Str → Option Bytes) (inet_ntop : Family → Bytes → Str) :
    (∀ item : QueueItem F, PyFloat.isfinite item.ts = true →
      ((∃ payload ∈ encode item, load payload = .ok item) ↔ (∀ s ∈ item.strings, Apart s) ∧ item.Within)) ∧
    (∀ d : Datagram F, Canonical inet_pton inet_ntop d.source → d.port < 65536 → PyFloat.isfinite d.ts = true →
      ∃ payload ∈ raw inet_pton d, unraw inet_ntop payload = .ok d) ∧
    ∀ payload, Sound (F := F) payload ↔
      ∀ j ∈ loadsBytes (F := F) payload, ¬ Huge j ∧ ∀ strs, Event j strs → ∀ s ∈ strs, Apart s :=
  ⟨fun _ h => load_encode h, fun _ hs hp ht => unraw_raw hs hp ht, sound_iff⟩

end

/-- Whole seconds below 2 ^ 53, and the floats that are not finite. -/
inductive Stamp where
  | whole (n : Fin (2 ^ 53))
  | nan
  | infinity
  | neg_infinity
  deriving DecidableEq

def Stamp.value : Stamp → Whole
  | .whole n => .whole n.val
  | .nan => .nan
  | .infinity => .infinity
  | .neg_infinity => .neg_infinity

def Stamp.ofInt (n : ℤ) : Stamp := .whole (Fin.ofNat _ n.toNat)

instance : PyFloat Stamp where
  isfinite x := PyFloat.isfinite x.value
  nan := .nan
  infinity := .infinity
  neg_infinity := .neg_infinity
  text x := PyFloat.text x.value
  float s := Stamp.ofInt (toInt (s.takeWhile (· ≠ chr '.')))

instance : LawfulPyFloat Stamp where
  literal x hx := LawfulPyFloat.literal x.value hx
  float_text
    | .whole n, _ => by
      show Stamp.ofInt (toInt ((Whole.text (.whole n.val)).takeWhile (· ≠ chr '.'))) = .whole n
      rw [takeWhile_intText, toInt_intText]
      exact congrArg Stamp.whole (Fin.ofNat_val_eq_self n)
  special
    | .nan, _ => .inl ⟨rfl, rfl⟩
    | .infinity, _ => .inr (.inl ⟨rfl, rfl⟩)
    | .neg_infinity, _ => .inr (.inr ⟨rfl, rfl⟩)

instance : PyOrder Stamp where
  lt x y := x.value.lt y.value
  lt_int x n := x.value.lt (.whole n)
  int_lt n x := Whole.lt (.whole n) x.value

/-- The least integer that rounds beyond every float. -/
def OVERFLOW : ℕ := 2 ^ 1024 - 2 ^ 970

instance : PyConvert Stamp where
  ofInt n := if n.natAbs < OVERFLOW then some (.ofInt n) else none

instance : LawfulPyConvert Stamp where
  finite n x h := by
    change (if n.natAbs < OVERFLOW then some (Stamp.ofInt n) else none) = some x at h
    split_ifs at h
    exact Option.some.inj h ▸ rfl

/-- Zero packs as zeros. -/
instance : PyPack Stamp where
  pack
    | .whole n => toBytes 8 n.val
    | _ => toBytes 8 (2 ^ 64 - 1)
  unpack b := .whole (Fin.ofNat _ (fromBytes b))

instance : LawfulPyPack Stamp where
  length_pack x := by cases x <;> exact toBytes_length 8 _
  unpack_pack
    | .whole n, _ => by
      show Stamp.whole (Fin.ofNat _ (fromBytes (toBytes 8 n.val))) = .whole n
      rw [fromBytes_toBytes 8 n.val (by have := n.isLt; omega)]
      exact congrArg Stamp.whole (Fin.ofNat_val_eq_self n)

def linkDown : QueueItem Stamp :=
  .trap ⟨lit "10.0.0.9", lit "1.3.6.1.6.3.1.1.5.3", lit "7", .ofInt 1800000000,
    [⟨lit "1.3.6.1.2.1.2.2.1.1.7", lit "Integer32", lit "7"⟩], []⟩

def AGENT : Str := lit "10.0.0.9"

theorem codec_sound_linkDown : (∃ payload ∈ encode linkDown, load payload = .ok linkDown) ∧
    (∃ payload ∈ raw (fun _ s => if s = AGENT then some [10, 0, 0, 9] else none) ⟨AGENT, 162, Stamp.ofInt 0, [0x30]⟩,
      unraw (fun _ _ => AGENT) payload = .ok ⟨AGENT, 162, Stamp.ofInt 0, [0x30]⟩) ∧
    Sound (F := Stamp) (encodeStr (lit "[1]")) := by
  have h := codec_sound (F := Stamp) (fun _ s => if s = AGENT then some [10, 0, 0, 9] else none) (fun _ _ => AGENT)
  refine ⟨(h.1 linkDown rfl).mpr ⟨by decide +kernel, trivial⟩, h.2.1 _ ⟨[10, 0, 0, 9], rfl, rfl, rfl⟩ (by decide) rfl,
    (h.2.2 _).mpr fun j hj => ?_⟩
  have hlist : loadsBytes (F := Stamp) (encodeStr (lit "[1]")) = some (.list [.int 1]) := rfl
  obtain rfl := Option.some.inj (hlist.symm.trans hj)
  exact ⟨nofun, nofun⟩

/-- A trap whose device name has a surrogate pair in two halves. -/
def halves : QueueItem Stamp := .trap ⟨[0xd83d, 0xde00], [], [], .ofInt 0, [], []⟩

/-- An array whose time stamp is ten to the four hundred. -/
def hugeStamp : Bytes :=
  encodeStr (lit "[\"t\",\"\",\"\",\"\",1" ++ List.replicate 400 (chr '0') ++ lit ",\"\",[]]")

theorem codec_unsound : ¬ (∃ payload ∈ encode halves, load payload = .ok halves) ∧ ¬ Sound (F := Stamp) hugeStamp := by
  have hload : load (F := Stamp) hugeStamp = .error .overflow := by decide +kernel
  refine ⟨fun h => absurd ((load_encode rfl).mp h).1 (by decide +kernel), ?_⟩
  rintro (⟨e, he, hv⟩ | ⟨item, hitem, -⟩)
  · obtain rfl := Except.error.inj (hload.symm.trans he)
    exact hv
  · exact nomatch hload.symm.trans hitem

end NetCoreNoc.Ingest.Records
