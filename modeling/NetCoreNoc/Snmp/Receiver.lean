import Mathlib
import NetCoreNoc.Snmp.Usm

/-! What one datagram becomes (`ingest/receiver.py`), and which datagrams the policy admits. -/
namespace NetCoreNoc.Snmp

/-- `TrapEvent`; `inst` is its `instance`. -/
structure TrapEvent where
  device : String
  trap_oid : String
  inst : String
  ts : ℚ
  varbinds : List Varbind
  community_tag : String
  deriving DecidableEq

def COMMUNITY_TAG_HEX : Nat := 12
def MAX_INSTANCE_CHARS : Nat := 120
def SNMP_TRAP_OID : String := "1.3.6.1.6.3.1.1.4.1.0"
def SYS_UPTIME_OID : String := "1.3.6.1.2.1.1.3.0"
def IF_INDEX_PREFIX : String := "1.3.6.1.2.1.2.2.1.1."
def SNMP_TRAP_ADDRESS_OID : String := "1.3.6.1.6.3.18.1.3.0"
def SNMP_TRAP_ENTERPRISE_OID : String := "1.3.6.1.6.3.1.1.4.3.0"

/-- `_peek_version`: the version, where it is an INTEGER of one octet. -/
def peekVersion (data : Bytes) : Option UInt8 :=
  if data.length < 5 ∨ data.getD 0 0 ≠ 0x30 then none
  else
    let first := data.getD 1 0
    let offset := 2 + if first &&& 0x80 ≠ 0 then (first &&& 0x7F).toNat else 0
    if data.length < offset + 3 ∨ data.getD offset 0 ≠ 0x02 ∨ data.getD (offset + 1) 0 ≠ 0x01 then none
    else data[offset + 2]?

/-- `_decode_failure_reason`. -/
def decodeFailureReason (data : Bytes) : String :=
  match peekVersion data with
  | none => "ber-decode-failed"
  | some version =>
    if version ≠ 1 then "unsupported-snmp-version-" ++ toString version.toNat
    else "malformed-v2c-message"

def hexDigit (n : Nat) : Char := if n < 10 then Char.ofNat (48 + n) else Char.ofNat (87 + n)

/-- `hexdigest`. -/
def hex (b : Bytes) : String :=
  String.ofList (b.flatMap fun x => [hexDigit (x.toNat / 16), hexDigit (x.toNat % 16)])

/-- `str.strip` takes these off. -/
def isSpace (c : Char) : Bool :=
  let n := c.toNat
  (9 ≤ n ∧ n ≤ 13) ∨ (28 ≤ n ∧ n ≤ 32) ∨ n = 0x85 ∨ n = 0xA0 ∨ n = 0x1680 ∨
    (0x2000 ≤ n ∧ n ≤ 0x200A) ∨ n = 0x2028 ∨ n = 0x2029 ∨ n = 0x202F ∨ n = 0x205F ∨ n = 0x3000

def strip (s : List Char) : List Char :=
  ((s.dropWhile isSpace).reverse.dropWhile isSpace).reverse

/-- `SEVERITY_VOCAB`. -/
def SEVERITY_VOCAB : List (String × Nat) :=
  [("critical", 0), ("major", 1), ("minor", 2), ("warning", 3), ("indeterminate", 4), ("cleared", 4)]

/-- `severity_rank`; no letter outside ASCII has one of the vocabulary's for its lower case. -/
def severityRank (value : String) : Option Nat :=
  SEVERITY_VOCAB.lookup (String.ofList ((strip value.toList).map Char.toLower))

section
variable (P : Platform)

/-- `str.isdigit`. -/
def isdigit (s : List Char) : Bool := s ≠ [] ∧ s.all P.isDigit

/-- Every part of a dotted OID is digits. -/
def dotted (oid : String) : Bool := (oid.toList.splitOn '.').all (isdigit P)

/-- `_instance_of`. -/
def instanceOf (varbinds : List Varbind) : String :=
  let cut (s : String) : String := String.ofList (s.toList.take MAX_INSTANCE_CHARS)
  match varbinds.find? fun vb => IF_INDEX_PREFIX.toList.isPrefixOf vb.oid.toList with
  | some vb => cut vb.value
  | none =>
    let payload := varbinds.filter fun vb => vb.oid ≠ SYS_UPTIME_OID ∧ vb.oid ≠ SNMP_TRAP_OID
    let payload := payload.filter fun vb =>
      ¬ (['.', '0'].isSuffixOf vb.oid.toList ∧ isdigit P (vb.value.toList.dropWhile (· = '-')))
    match payload.find? fun vb => severityRank vb.value = none with
    | some vb => cut vb.value
    | none => (payload.head?.map (cut ·.value)).getD ""

/-- `community_digest`. -/
def communityDigest (community : Bytes) (key : Option Bytes) : String :=
  match key with
  | none => ""
  | some key => hex (P.hmac .SHA256 key community)

def tagOf (digest : String) : String := String.ofList (digest.toList.take COMMUNITY_TAG_HEX)

/-- The policy accepts a community when it names none, or this one. -/
def accepts (community : Bytes) (key : Option Bytes) (policy : SnmpPolicy) : Bool :=
  policy.communities = [] ∨ communityDigest P community key ∈ policy.digests

/-- `_accepted_tag`. -/
def acceptedTag (community : Bytes) (key : Option Bytes) (policy : SnmpPolicy) :
    Except String String :=
  if accepts P community key policy then .ok (tagOf (communityDigest P community key))
  else .error "community-not-accepted"

/-- The value of the last `snmpTrapOID.0`. -/
def trapOid (varbinds : List Varbind) : String :=
  varbinds.foldl (fun oid vb => if vb.oid = SNMP_TRAP_OID then vb.value else oid) ""

/-- `_event_from_pdu`. -/
def eventFromPdu (source : String) (varbinds : List Varbind) (ts : ℚ) (tag : String) :
    Except String TrapEvent :=
  let oid := trapOid varbinds
  if oid = "" then .error "missing-trap-oid"
  else if ¬ dotted P oid then .error "bad-trap-oid"
  else .ok ⟨source, oid, instanceOf P varbinds, ts, varbinds, tag⟩

/-- `_parse_v2c`. -/
def parseV2c (source : String) (data : Bytes) (ts : ℚ) (key : Option Bytes) (policy : SnmpPolicy) :
    Except String TrapEvent :=
  match P.decodeV2c data with
  | none => .error (decodeFailureReason data)
  | some message =>
    if ¬ message.pdu.trap then .error ("not-a-trap-pdu:" ++ message.pdu.kind)
    else
      match acceptedTag P message.community key policy with
      | .error reason => .error reason
      | .ok tag => eventFromPdu P source message.pdu.varbinds ts tag

/-- `_v1_trap_oid`. -/
def v1TrapOid (enterprise : String) (generic specific : Int) : String :=
  if 0 ≤ generic ∧ generic < 6 then "1.3.6.1.6.3.1.1.5." ++ toString (generic + 1)
  else enterprise ++ ".0." ++ toString specific

/-- `_parse_v1`. -/
def parseV1 (source : String) (data : Bytes) (ts : ℚ) (key : Option Bytes) (policy : SnmpPolicy) :
    Except String TrapEvent :=
  match P.decodeV1 data with
  | none => .error "malformed-v1-message"
  | some message =>
    if ¬ message.trap then .error ("not-a-trap-pdu:" ++ message.kind)
    else
      match acceptedTag P message.community key policy with
      | .error reason => .error reason
      | .ok tag =>
        let oid := v1TrapOid message.enterprise message.generic message.specific
        if ¬ dotted P oid then .error "bad-trap-oid"
        else
          let varbinds := [⟨SYS_UPTIME_OID, "TimeTicks", toString message.timestamp⟩,
            ⟨SNMP_TRAP_OID, "ObjectIdentifier", oid⟩] ++ message.varbinds ++
            [⟨SNMP_TRAP_ADDRESS_OID, "IpAddress", message.agent⟩,
              ⟨SNMP_TRAP_ENTERPRISE_OID, "ObjectIdentifier", message.enterprise⟩]
          .ok ⟨source, oid, instanceOf P varbinds, ts, varbinds, tag⟩

/-- `raise TrapParseError`. -/
def refuse {α : Type} : Except String α → Except Raised α
  | .ok a => .ok a
  | .error reason => .error (.refused reason)

/-- `_parse_v3`. -/
def parseV3 (source : String) (data : Bytes) (ts : ℚ) (key : Option Bytes) (policy : SnmpPolicy)
    (state : UsmState) : Except Raised TrapEvent × UsmState :=
  match process P data policy state ts with
  | (.error e, state) => (.error e, state)
  | (.ok (pdu, user), state) =>
    if ¬ pdu.trap then (.error (.refused ("not-a-trap-pdu:" ++ pdu.kind)), state)
    else
      let tag := tagOf (communityDigest P ("usm:" ++ user.name).toUTF8.toList key)
      (refuse (eventFromPdu P source pdu.varbinds ts tag), state)

/-- `parse_trap`. -/
def parseTrap (source : String) (data : Bytes) (ts : ℚ) (key : Option Bytes) (policy : SnmpPolicy)
    (state : UsmState) : Except Raised TrapEvent × UsmState :=
  match peekVersion data with
  | some 0 =>
    if ¬ policy.v1 then (.error (.refused "snmp-v1-not-accepted"), state)
    else (refuse (parseV1 P source data ts key policy), state)
  | some 3 =>
    if ¬ policy.v3 then (.error (.refused "snmp-v3-not-accepted"), state)
    else parseV3 P source data ts key policy state
  | some 1 =>
    if ¬ policy.v2c then (.error (.refused "snmp-v2c-not-accepted"), state)
    else (refuse (parseV2c P source data ts key policy), state)
  | _ => (refuse (parseV2c P source data ts key policy), state)

end
end NetCoreNoc.Snmp
