import Mathlib
import NetCoreNoc.Snmp.Ber

/-! What the receiver accepts (`ingest/snmpconf.py`), and the User-based Security Model on its side of
an SNMPv3 message (`ingest/usm.py`). -/
namespace NetCoreNoc.Snmp

/-- `AUTH_PROTOCOLS`. -/
inductive Auth where
  | MD5 | SHA | SHA224 | SHA256 | SHA384 | SHA512
  deriving DecidableEq, Repr

/-- The digest's size. -/
def Auth.digestSize : Auth → Nat
  | .MD5 => 16 | .SHA => 20 | .SHA224 => 28 | .SHA256 => 32 | .SHA384 => 48 | .SHA512 => 64

/-- The truncated MAC's length. -/
def Auth.macLength : Auth → Nat
  | .MD5 | .SHA => 12 | .SHA224 => 16 | .SHA256 => 24 | .SHA384 => 32 | .SHA512 => 48

/-- `PRIV_PROTOCOLS`. -/
inductive Priv where
  | DES | DES3 | AES128 | AES192 | AES256 | AES192C | AES256C
  deriving DecidableEq, Repr

/-- `_KEY_SIZE`. -/
def Priv.keySize : Priv → Nat
  | .DES => 16 | .DES3 => 32 | .AES128 => 16 | .AES192 | .AES192C => 24 | .AES256 | .AES256C => 32

/-- `_REEDER`. -/
def Priv.reeder : Priv → Bool
  | .DES3 | .AES192C | .AES256C => true
  | _ => false

/-- `UsmUser`; `user_problems` refuses privacy without authentication. -/
structure UsmUser where
  name : String
  auth : Option Auth := none
  priv : Option Priv := none
  auth_key : Bytes := []
  priv_key : Bytes := []
  engine_id : Option Bytes := none
  priv_auth : priv.isSome → auth.isSome := by decide

/-- 0 noAuthNoPriv, 1 authNoPriv, 2 authPriv. -/
def UsmUser.level (u : UsmUser) : Nat :=
  match u.auth, u.priv with
  | none, _ => 0
  | some _, none => 1
  | some _, some _ => 2

structure Community where
  digest : String
  hint : String
  deriving DecidableEq, Repr

structure SnmpPolicy where
  v1 : Bool := true
  v2c : Bool := true
  v3 : Bool := true
  communities : List Community := []
  users : List (Bytes × UsmUser) := []
  time_window : Bool := true

def SnmpPolicy.digests (p : SnmpPolicy) : List String := p.communities.map (·.digest)

/-- `Varbind`: its OID, the name of its type, and its value, each as printed. -/
structure Varbind where
  oid : String
  kind : String
  value : String
  deriving DecidableEq, Repr

/-- A PDU of the v2 syntax, as decoded: the name of its type, and whether that is `TrapPDU`. -/
structure Pdu where
  kind : String
  trap : Bool
  varbinds : List Varbind
  deriving DecidableEq, Repr

/-- A v2c message as decoded. -/
structure Message where
  version : Int
  community : Bytes
  pdu : Pdu
  deriving DecidableEq, Repr

/-- A v1 message as decoded, with the fields of its Trap-PDU. -/
structure MessageV1 where
  version : Int
  community : Bytes
  kind : String
  trap : Bool
  enterprise : String
  generic : Int
  specific : Int
  timestamp : Int
  agent : String
  varbinds : List Varbind
  deriving DecidableEq, Repr

/-- The ciphers of `cryptography`: DES and 3DES in CBC, AES in CFB, of a key, an IV and the data. -/
structure Ciphers where
  tripleDes : Bytes → Bytes → Bytes → Bytes
  aes : Bytes → Bytes → Bytes → Bytes

/-- What the receiver calls and this repository does not hold: `pyasn1` with the syntax of `pysnmp`,
`hashlib`, `hmac`, `cryptography` and Unicode's digits. A message whose BER gives a version decodes
to that version, which the syntax does not constrain. -/
structure Platform where
  decodeV1 : Bytes → Option MessageV1
  decodeV2c : Bytes → Option Message
  decodeScoped : Bytes → Option Pdu
  digest : Auth → Bytes → Bytes
  hmac : Auth → Bytes → Bytes → Bytes
  ciphers : Option Ciphers
  isDigit : Char → Bool
  version_v1 : ∀ {data m v}, decodeV1 data = some m → versionOf data = some v → m.version = v
  version_v2c : ∀ {data m v}, decodeV2c data = some m → versionOf data = some v → m.version = v
  digest_length : ∀ a b, (digest a b).length = a.digestSize

def FLAG_AUTH : UInt8 := 0x01
def FLAG_PRIV : UInt8 := 0x02
def USM_SECURITY_MODEL : Int := 3
def TIME_WINDOW_S : Int := 150
def MAX_BOOTS : Int := 2147483647
def CACHE_ENTRIES : Nat := 4096

/-- What decrypting, and so `process` and `parse_trap`, may raise: `UsmError` or `TrapParseError` with
its reason, or a `ValueError` that nothing on the way catches. The functions that raise the former
alone return an `Except String`. -/
inductive Raised where
  | refused (reason : String)
  | valueError
  deriving DecidableEq, Repr

/-- `Header`. -/
structure Header where
  flags : UInt8
  engine_id : Bytes
  boots : Int
  engine_time : Int
  user : Bytes
  auth_params : Bytes
  auth_offset : Nat
  priv_params : Bytes
  data_tag : UInt8
  data : Bytes
  deriving DecidableEq, Repr

/-- `except ber.BerError`. -/
def malformed {α : Type} : Except BerError α → Except String α
  | .ok a => .ok a
  | .error _ => .error "v3-malformed"

def parseHeader (data : Bytes) : Except String Header := do
  let outer ← malformed (tlv data 0 (some 0x30))
  let version ← malformed (tlv data outer.start (some 0x02))
  if (← malformed (integer data version)) ≠ 3 then throw "v3-malformed"
  let globl ← malformed (tlv data version.stop (some 0x30))
  let msgId ← malformed (tlv data globl.start (some 0x02))
  let maxSize ← malformed (tlv data msgId.stop (some 0x02))
  let flags ← malformed (tlv data maxSize.stop (some 0x04))
  let model ← malformed (tlv data flags.stop (some 0x02))
  if (← malformed (integer data model)) ≠ USM_SECURITY_MODEL then
    throw "v3-unsupported-security-model"
  let params ← malformed (tlv data globl.stop (some 0x04))
  let usm ← malformed (tlv data params.start (some 0x30))
  let engine ← malformed (tlv data usm.start (some 0x04))
  let boots ← malformed (tlv data engine.stop (some 0x02))
  let clock ← malformed (tlv data boots.stop (some 0x02))
  let user ← malformed (tlv data clock.stop (some 0x04))
  let auth ← malformed (tlv data user.stop (some 0x04))
  let priv ← malformed (tlv data auth.stop (some 0x04))
  let body ← malformed (tlv data params.stop none)
  let bootsValue ← malformed (integer data boots)
  let timeValue ← malformed (integer data clock)
  match slice data flags.start flags.stop with
  | [flag] =>
    if body.tag ≠ 0x30 ∧ body.tag ≠ 0x04 then throw "v3-malformed"
    if ¬ (0 ≤ bootsValue ∧ bootsValue ≤ MAX_BOOTS ∧ 0 ≤ timeValue ∧ timeValue ≤ MAX_BOOTS) then
      throw "v3-malformed"
    pure {
      flags := flag, engine_id := slice data engine.start engine.stop, boots := bootsValue
      engine_time := timeValue, user := slice data user.start user.stop
      auth_params := slice data auth.start auth.stop, auth_offset := auth.start
      priv_params := slice data priv.start priv.stop, data_tag := body.tag
      data := slice data (if body.tag = 0x04 then body.start else body.offset) body.stop }
  | _ => throw "v3-malformed"

section
variable (P : Platform)

/-- `master_key`: the hash of a secret repeated to 1 MiB. -/
def masterKey (secret : Bytes) (auth : Auth) : Bytes :=
  P.digest auth ((List.replicate (1048576 / secret.length + 1) secret).flatten.take 1048576)

def localize (master engineId : Bytes) (auth : Auth) : Bytes :=
  P.digest auth (master ++ engineId ++ master)

/-- Reeder's extension, at most `n` times. -/
def reederKey (auth : Auth) (engineId : Bytes) (size : Nat) : Nat → Bytes → Bytes
  | 0, key => key
  | n + 1, key =>
    if key.length < size then
      reederKey auth engineId size n (key ++ localize P (masterKey P key auth) engineId auth)
    else key

/-- Blumenthal's extension, `n` times. -/
def blumenthalKey (auth : Auth) : Nat → Bytes → Bytes
  | 0, key => key
  | n + 1, key => blumenthalKey auth n (key ++ P.digest auth key)

/-- `privacy_key`. -/
def privacyKey (priv_key engineId : Bytes) (auth : Auth) (priv : Priv) : Bytes :=
  let key := localize P priv_key engineId auth
  let size := priv.keySize
  let key := if priv.reeder then reederKey P auth engineId size size key
    else blumenthalKey P auth ((size + key.length - 1) / key.length - 1) key
  key.take size

end

/-- What is cached under a user's name and master keys, for an engine. -/
abbrev Slot := String × Bytes × Bytes × Bytes

/-- `UsmState`: localized keys and senders' clocks, the least recently used first. -/
structure UsmState where
  keys : List (Slot × (Bytes × Bytes)) := []
  clocks : List (Bytes × (Int × Int × ℚ)) := []

/-- `OrderedDict`: an entry set and moved to the end. -/
def moveToEnd {κ ν : Type} [DecidableEq κ] (k : κ) (v : ν) (l : List (κ × ν)) : List (κ × ν) :=
  l.filter (·.1 ≠ k) ++ [(k, v)]

/-- The first entries go once there are too many. -/
def bounded {α : Type} (l : List α) : List α := if l.length > CACHE_ENTRIES then l.drop 1 else l

section
variable (P : Platform)

/-- `UsmState.keys`: the authentication and the privacy key, localized once and then cached. -/
def UsmState.keysFor (state : UsmState) (user : UsmUser) (engineId : Bytes) :
    (Bytes × Bytes) × UsmState :=
  let slot := (user.name, user.auth_key, user.priv_key, engineId)
  match state.keys.lookup slot with
  | none =>
    let auth := match user.auth with
      | some a => localize P user.auth_key engineId a
      | none => []
    let priv := match user.auth, user.priv with
      | some a, some p => privacyKey P user.priv_key engineId a p
      | _, _ => []
    ((auth, priv), { state with keys := bounded (state.keys ++ [(slot, (auth, priv))]) })
  | some found => (found, { state with keys := moveToEnd slot found state.keys })

end

/-- `int(x)`. -/
def truncate (x : ℚ) : Int := x.num.tdiv x.den

/-- `in_window`. -/
def UsmState.inWindow (state : UsmState) (engineId : Bytes) (boots engineTime : Int) (now : ℚ) :
    Bool × UsmState :=
  let learn := { state with
    clocks := bounded (moveToEnd engineId (boots, engineTime, now) state.clocks) }
  if boots ≥ MAX_BOOTS then (false, state)
  else
    match state.clocks.lookup engineId with
    | none => (true, learn)
    | some (knownBoots, knownTime, seenAt) =>
      let estimate := knownTime + truncate (now - seenAt)
      let behind := boots = knownBoots ∧ engineTime < estimate - TIME_WINDOW_S
      if boots < knownBoots ∨ behind then (false, state)
      else if boots = knownBoots ∧ engineTime ≤ estimate then
        (true, { state with
          clocks := moveToEnd engineId (knownBoots, knownTime, seenAt) state.clocks })
      else (true, learn)

/-- The security level a message's flags claim. -/
def Header.level (h : Header) : Nat :=
  if h.flags &&& FLAG_PRIV ≠ 0 then 2 else if h.flags &&& FLAG_AUTH ≠ 0 then 1 else 0

/-- `process`, up to the level: the user a header names. -/
def userOf (policy : SnmpPolicy) (header : Header) : Except String UsmUser :=
  match policy.users.lookup header.user with
  | none => .error "v3-unknown-user"
  | some user =>
    if user.engine_id.isSome ∧ user.engine_id ≠ some header.engine_id then
      .error "v3-unknown-engine-id"
    else if header.flags &&& FLAG_PRIV ≠ 0 ∧ header.flags &&& FLAG_AUTH = 0 then
      .error "v3-malformed"
    else if header.level < user.level then .error "v3-security-level-too-low"
    else if header.level > user.level then .error "v3-unsupported-security-level"
    else .ok user

section
variable (P : Platform)

/-- The message with the bytes of its MAC zeroed. -/
def zeroed (data : Bytes) (header : Header) (length : Nat) : Bytes :=
  data.take header.auth_offset ++ List.replicate length 0 ++ data.drop (header.auth_offset + length)

/-- The message's MAC is the one that the key gives. -/
def verified (data : Bytes) (header : Header) (auth : Auth) (key : Bytes) : Bool :=
  header.auth_params.length = auth.macLength ∧
    (P.hmac auth key (zeroed data header auth.macLength)).take auth.macLength = header.auth_params

/-- `process`, the MAC and the clock. -/
def authenticate (data : Bytes) (policy : SnmpPolicy) (state : UsmState) (now : ℚ) (header : Header)
    (user : UsmUser) (auth_key : Bytes) : Except String Unit × UsmState :=
  match user.auth with
  | none => (.ok (), state)
  | some auth =>
    if verified P data header auth auth_key then
      if policy.time_window then
        let (fresh, state) := state.inWindow header.engine_id header.boots header.engine_time now
        (if fresh then .ok () else .error "v3-not-in-time-window", state)
      else (.ok (), state)
    else (.error "v3-authentication-failed", state)

/-- Whether `cryptography` and the IV take a key of this length. -/
def Priv.takes (priv : Priv) (key : Bytes) : Bool :=
  match priv with
  | .DES => 16 ≤ key.length
  | .DES3 => 32 ≤ key.length
  | _ => key.length = 16 ∨ key.length = 24 ∨ key.length = 32

/-- `int.to_bytes(4, "big")`. -/
def toBig4 (n : Nat) : Bytes :=
  [UInt8.ofNat (n / 2 ^ 24), UInt8.ofNat (n / 2 ^ 16), UInt8.ofNat (n / 2 ^ 8), UInt8.ofNat n]

/-- `decrypt`. -/
def decrypt (priv : Priv) (key : Bytes) (header : Header) : Except Raised Bytes :=
  match P.ciphers with
  | none => .error (.refused "v3-privacy-unavailable")
  | some ciphers =>
    let salt := header.priv_params
    if salt.length ≠ 8 then .error (.refused "v3-decryption-failed")
    else if (priv = .DES ∨ priv = .DES3) ∧ header.data.length % 8 ≠ 0 then
      .error (.refused "v3-decryption-failed")
    else if ¬ priv.takes key then .error .valueError
    else
      match priv with
      | .DES => .ok (ciphers.tripleDes (key.take 8 ++ key.take 8 ++ key.take 8)
          (List.zipWith (· ^^^ ·) (slice key 8 16) salt) header.data)
      | .DES3 => .ok (ciphers.tripleDes (key.take 24)
          (List.zipWith (· ^^^ ·) (slice key 24 32) salt) header.data)
      | _ => .ok (ciphers.aes key
          (toBig4 header.boots.toNat ++ toBig4 header.engine_time.toNat ++ salt) header.data)

/-- `process`, the scoped PDU: of a private message its decryption. -/
def scopedOf (header : Header) (user : UsmUser) (priv_key : Bytes) : Except Raised Bytes :=
  match user.auth, user.priv with
  | some _, some priv =>
    if header.data_tag ≠ 0x04 then .error (.refused "v3-malformed")
    else decrypt P priv priv_key header
  | _, _ =>
    if header.data_tag ≠ 0x30 then .error (.refused "v3-malformed") else .ok header.data

/-- `process`: the PDU of a v3 message and the user it came from. -/
def process (data : Bytes) (policy : SnmpPolicy) (state : UsmState) (now : ℚ) :
    Except Raised (Pdu × UsmUser) × UsmState :=
  match parseHeader data with
  | .error reason => (.error (.refused reason), state)
  | .ok header =>
    match userOf policy header with
    | .error reason => (.error (.refused reason), state)
    | .ok user =>
      let (keys, state) := state.keysFor P user header.engine_id
      match authenticate P data policy state now header user keys.1 with
      | (.error reason, state) => (.error (.refused reason), state)
      | (.ok _, state) =>
        match scopedOf P header user keys.2 with
        | .error e => (.error e, state)
        | .ok plain =>
          match P.decodeScoped plain with
          | none => (.error (.refused
              (if user.level = 2 then "v3-decryption-failed" else "v3-malformed")), state)
          | some pdu => (.ok (pdu, user), state)

end
end NetCoreNoc.Snmp
