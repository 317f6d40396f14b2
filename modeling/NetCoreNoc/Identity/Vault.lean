import Mathlib
import NetCoreNoc.Base64
import NetCoreNoc.Json.Numbers
import NetCoreNoc.Json.Utf8
import NetCoreNoc.Policies.Snmp
import NetCoreNoc.Text

/-! What one secret key seals, and what opens under it (`crosscutting/vault.py`). -/
namespace NetCoreNoc.Sealing
open Json Base64 Text

abbrev Bytes := List UInt8

def KEY_BYTES : ℕ := 32
def PREFIX : Str := lit "nc1:"
def NONCE : ℕ := 12
def KID : ℕ := 4
def TAG : ℕ := 16

/-- What `cryptography`, `hmac` and `str.lower` compute. -/
structure Primitives where
  /-- `AESGCM(key).encrypt(nonce, data, associated_data)` -/
  encrypt : Bytes → Bytes → Bytes → Bytes → Bytes
  /-- `AESGCM(key).decrypt(nonce, data, associated_data)`, where it raises no `InvalidTag` -/
  decrypt : Bytes → Bytes → Bytes → Bytes → Option Bytes
  /-- `HKDF(SHA256, length=32, salt=None, info=purpose).derive(key)` -/
  derive : Bytes → Bytes → Bytes
  hmac_sha256 : Bytes → Bytes → Bytes
  lower : Str → Str

/-- AES-GCM adds a tag to what it seals, and opens nothing else: its plaintext and its tag follow from one another. -/
structure Primitives.Lawful (c : Primitives) : Prop where
  decrypt_eq_some : ∀ key nonce sealed bound data,
    c.decrypt key nonce sealed bound = some data ↔ sealed = c.encrypt key nonce data bound
  length_encrypt : ∀ key nonce data bound, (c.encrypt key nonce data bound).length = data.length + TAG
  length_derive : ∀ key purpose, (c.derive key purpose).length = KEY_BYTES

inductive Raised where
  | VaultError (message : Str)
  | UnicodeError
  | IntegrityError
  | ValueError
  deriving DecidableEq

/-- What `secrets.token_bytes(12)` draws. -/
abbrev Nonce := { l : Bytes // l.length = NONCE }

structure Vault where
  seal_key : Bytes
  index_key : Bytes
  pepper_key : Bytes
  wrap_key : Bytes
  kid : Bytes
  deriving DecidableEq

namespace Vault

def from_key (c : Primitives) (key : Bytes) : Except Raised Vault :=
  if key.length ≠ KEY_BYTES then
    .error (.VaultError (lit "a secret key is 32 bytes; this one is " ++ natText key.length))
  else .ok {
    seal_key := c.derive key (encodeStr (lit "netcorenoc seal v1"))
    index_key := c.derive key (encodeStr (lit "netcorenoc index v1"))
    pepper_key := c.derive key (encodeStr (lit "netcorenoc pepper v1"))
    wrap_key := c.derive key (encodeStr (lit "netcorenoc credential outer v1"))
    kid := (c.derive key (encodeStr (lit "netcorenoc key id v1"))).take KID }

variable (c : Primitives) (v : Vault) (nonce : Nonce) (place : Str)

/-- What `unwrap` and `open` do with the bytes: `kid`, nonce, then ciphertext and tag. -/
def decrypted (key : Bytes) (truncated other failed : Str) (raw : Bytes) : Except Raised Bytes :=
  if raw.length < KID + NONCE + TAG then .error (.VaultError (place ++ truncated))
  else if raw.take KID ≠ v.kid then .error (.VaultError (place ++ other))
  else match c.decrypt key ((raw.drop KID).take NONCE) (raw.drop (KID + NONCE)) (encodeStr place) with
    | some data => .ok data
    | none => .error (.VaultError (place ++ failed))

/-- `seal`, of bytes -/
def sealed (data : Bytes) : Str :=
  PREFIX ++ urlsafe_b64encode (v.kid ++ nonce.val ++ c.encrypt v.seal_key nonce.val data (encodeStr place))

/-- `open` -/
def opened (token : Str) : Except Raised Bytes :=
  if ¬ PREFIX.isPrefixOf token then .error (.VaultError (place ++ lit ": not a sealed value"))
  else match urlsafe_b64decode (token.drop PREFIX.length) with
    | none => .error (.VaultError (place ++ lit ": a sealed value is malformed"))
    | some raw => v.decrypted c place v.seal_key (lit ": a sealed value is truncated")
      (lit ": sealed with another secret key — NETCORENOC_SECRET_KEY_FILE does not hold the key this database was written with")
      (lit ": a sealed value failed authentication") raw

def seal_text (value : Str) : Except Raised Str :=
  match encodeUtf8 value with
  | some data => .ok (v.sealed c nonce place data)
  | none => .error .UnicodeError

def open_text (token : Str) : Except Raised Str := do
  let data ← v.opened c place token
  match decodeUtf8 data with
  | some value => .ok value
  | none => .error .UnicodeError

/-- `index` -/
def index (value : Str) : Str := Policies.Snmp.hex (c.hmac_sha256 v.index_key (encodeStr place ++ [0] ++ encodeStr value))

end Vault

def is_sealed (value : Str) : Bool := PREFIX.isPrefixOf value

/-! What opens -/

section Cut
variable {kid nonce rest : Bytes} (hkid : kid.length = KID)
include hkid

private theorem take_kid : (kid ++ nonce ++ rest).take KID = kid := by
  rw [List.append_assoc, ← hkid, List.take_left]

variable (hnonce : nonce.length = NONCE)
include hnonce

private theorem drop_kid : ((kid ++ nonce ++ rest).drop KID).take NONCE = nonce := by
  rw [List.append_assoc, ← hkid, List.drop_left, ← hnonce, List.take_left]

private theorem drop_nonce : (kid ++ nonce ++ rest).drop (KID + NONCE) = rest := by
  rw [← hkid, ← hnonce, ← List.length_append, List.drop_left]

end Cut

/-- Bytes that are long enough are a key's identifier, a nonce and the rest. -/
private theorem cut (raw : Bytes) (h : KID + NONCE ≤ raw.length) :
    ∃ nonce : Nonce, (raw.drop KID).take NONCE = nonce.val ∧ raw = raw.take KID ++ nonce.val ++ raw.drop (KID + NONCE) := by
  refine ⟨⟨(raw.drop KID).take NONCE, ?_⟩, rfl, ?_⟩
  · rw [List.length_take, List.length_drop]
    exact Nat.min_eq_left (Nat.le_sub_of_add_le' h)
  · rw [List.append_assoc, ← List.drop_drop, List.take_append_drop, List.take_append_drop]

namespace Vault
variable {c : Primitives} (hc : c.Lawful) {v : Vault} (hv : v.kid.length = KID) {place : Str}

theorem length_kid (hc : c.Lawful) {key : Bytes} (h : from_key c key = .ok v) : v.kid.length = KID := by
  unfold from_key at h
  split at h
  · cases h
  · obtain rfl := Except.ok.inj h
    rw [List.length_take, hc.length_derive]
    rfl

include hc hv

theorem decrypted_eq_ok {key raw data : Bytes} {truncated other failed : Str} :
    v.decrypted c place key truncated other failed raw = .ok data ↔
      ∃ nonce : Nonce, raw = v.kid ++ nonce.val ++ c.encrypt key nonce.val data (encodeStr place) := by
  constructor
  · intro h
    unfold decrypted at h
    split_ifs at h with hlength hkid
    split at h
    · rename_i data' hdata
      obtain rfl := Except.ok.inj h
      obtain ⟨nonce, hnonce, hcut⟩ := cut raw (by unfold TAG at hlength; omega)
      rw [hnonce, hc.decrypt_eq_some] at hdata
      refine ⟨nonce, ?_⟩
      rw [← hdata, ← not_not.mp hkid]
      exact hcut
    · cases h
  · rintro ⟨nonce, rfl⟩
    have hlength : ¬ (v.kid ++ nonce.val ++ c.encrypt key nonce.val data (encodeStr place)).length < KID + NONCE + TAG := by
      rw [List.length_append, List.length_append, hv, nonce.property, hc.length_encrypt]
      omega
    unfold decrypted
    simp only [hlength, if_false, take_kid hv, ne_eq, not_true_eq_false, drop_kid hv nonce.property,
      drop_nonce hv nonce.property, (hc.decrypt_eq_some _ _ _ _ _).mpr rfl]

/-- What opens is what was sealed with some nonce, and nothing else. -/
theorem opened_eq_ok {token : Str} {data : Bytes} : v.opened c place token = .ok data ↔
    PREFIX.isPrefixOf token ∧ ∃ nonce : Nonce, urlsafe_b64decode (token.drop PREFIX.length) =
      some (v.kid ++ nonce.val ++ c.encrypt v.seal_key nonce.val data (encodeStr place)) := by
  unfold opened
  split
  · rename_i hpre
    exact iff_of_false (fun h => by cases h) fun h => hpre h.1
  · rename_i hpre
    rw [and_iff_right (not_not.mp hpre)]
    cases hraw : urlsafe_b64decode (token.drop PREFIX.length) with
    | none =>
      refine iff_of_false (fun h => by cases h) ?_
      rintro ⟨_, h⟩
      cases h
    | some raw =>
      simp only [Option.some.injEq]
      exact decrypted_eq_ok hc hv

variable (nonce : Nonce)

theorem opened_sealed (data : Bytes) : v.opened c place (v.sealed c nonce place data) = .ok data := by
  rw [opened_eq_ok hc hv]
  refine ⟨List.isPrefixOf_iff_prefix.mpr (List.prefix_append _ _), nonce, ?_⟩
  rw [sealed, List.drop_left, urlsafe_b64decode_encode]

theorem open_seal_text {value token : Str} (h : v.seal_text c nonce place value = .ok token) :
    v.open_text c place token = .ok value := by
  unfold seal_text at h
  split at h
  · rename_i data hdata
    obtain rfl := Except.ok.inj h
    rw [open_text, opened_sealed hc hv]
    show (match decodeUtf8 data with | some value => Except.ok value | none => .error Raised.UnicodeError) = _
    rw [decodeUtf8_encode hdata]
  · cases h

end Vault

section Token
variable (c : Primitives) (v : Vault) (nonce : Nonce) (place : Str) (data : Bytes)

theorem is_sealed_sealed : is_sealed (v.sealed c nonce place data) :=
  List.isPrefixOf_iff_prefix.mpr (List.prefix_append _ _)

theorem sealed_ascii : ∀ x ∈ v.sealed c nonce place data, Ascii x := by
  intro x hx
  rcases List.mem_append.mp hx with hx | hx
  · exact ascii_word rfl x hx
  · exact urlsafe_ascii _ x hx

end Token

/-! A cipher that hides nothing -/

def tag (key bound : Bytes) : Bytes := (key ++ bound ++ List.replicate TAG 0).take TAG

theorem length_tag (key bound : Bytes) : (tag key bound).length = TAG := by
  rw [tag, List.length_take, List.length_append, List.length_replicate]
  exact Nat.min_eq_left (Nat.le_add_left _ _)

def bare_encrypt (key _nonce data bound : Bytes) : Bytes := data ++ tag key bound

def bare_decrypt (key _nonce sealed bound : Bytes) : Option Bytes :=
  if sealed.drop (sealed.length - TAG) = tag key bound then some (sealed.take (sealed.length - TAG)) else none

theorem bare_decrypt_eq_some (key nonce sealed bound data : Bytes) :
    bare_decrypt key nonce sealed bound = some data ↔ sealed = bare_encrypt key nonce data bound := by
  unfold bare_decrypt bare_encrypt
  constructor
  · intro h
    split at h
    · rename_i htag
      obtain rfl := Option.some.inj h
      rw [← htag, List.take_append_drop]
    · cases h
  · rintro rfl
    have hlength : (data ++ tag key bound).length - TAG = data.length := by
      rw [List.length_append, length_tag, Nat.add_sub_cancel]
    rw [hlength, List.drop_left, List.take_left, if_pos rfl]

theorem length_bare_encrypt (key nonce data bound : Bytes) : (bare_encrypt key nonce data bound).length = data.length + TAG := by
  rw [bare_encrypt, List.length_append, length_tag]

def bare : Primitives where
  encrypt := bare_encrypt
  decrypt := bare_decrypt
  derive key _ := (key ++ List.replicate KEY_BYTES 0).take KEY_BYTES
  hmac_sha256 key message := key ++ message
  lower := id

theorem bare_lawful : bare.Lawful where
  decrypt_eq_some := bare_decrypt_eq_some
  length_encrypt := length_bare_encrypt
  length_derive key _ := by
    show ((key ++ List.replicate KEY_BYTES 0).take KEY_BYTES).length = _
    rw [List.length_take, List.length_append, List.length_replicate]
    exact Nat.min_eq_left (Nat.le_add_left _ _)

end NetCoreNoc.Sealing
