import Mathlib
import NetCoreNoc.Identity.Vault
import NetCoreNoc.Relational
import NetCoreNoc.Runs

/-! Personal data and secrets in the database, sealed (`store/sealing.py`, with the writes of `store/people.py`,
`store/recovery.py`, `store/learned.py` and `store/auth.py`, and the start of `runner.py`). -/
namespace NetCoreNoc.Sealing
open Json Tables Text
open Policies.Snmp (hex)

def EMAIL : Str := lit "app_user.email"
def DISPLAY_NAME : Str := lit "app_user.display_name"
def AVATAR : Str := lit "user_avatar.image"
def COMMUNITY_HMAC_KEY : Str := lit "community_hmac_key"
def SECRET_META : List Str := [lit "config.email", lit "config.snmp", COMMUNITY_HMAC_KEY]
def KID_META : Str := lit "vault.kid"
def AUDIT_ANCHOR_META : Str := lit "audit.sealed_from"

/-- `f"meta:{key}"` -/
def place_of (key : Str) : Str := lit "meta:" ++ key

structure Person where
  email : Option Str := none
  email_index : Option Str := none
  display_name : Option Str := none
  deriving DecidableEq

/-- What a copy of the database shows of people and secrets, and the last row of the audit log. -/
structure Database where
  app_user : Table ℕ Person := .empty
  user_avatar : Table ℕ Bytes := .empty
  meta_table : Table Str Str := .empty
  last_audit : ℕ := 0

/-- A key of `meta` that is written by `set_meta`. -/
abbrev Setting := { key : Str // key ≠ KID_META ∧ key ≠ AUDIT_ANCHOR_META }

inductive Write where
  /-- an account, under the id that the database gives it -/
  | create_user (id : ℕ)
  | delete_user (id : ℕ)
  | set_user_email (id : ℕ) (email : Option Str) (nonce : Nonce)
  | set_display_name (id : ℕ) (name : Option Str) (nonce : Nonce)
  | put_avatar (id : ℕ) (image : Bytes) (nonce : Nonce)
  | delete_avatar (id : ℕ)
  | set_meta (key : Setting) (value : Str) (nonce : Nonce)
  | del_meta (key : Setting)
  /-- what `os.urandom(32)` draws, where no key is stored -/
  | community_hmac_key (key : Bytes) (nonce : Nonce)
  | audit

section Columns
variable (c : Primitives) (v : Vault) (nonce : Nonce) (place : Str)

/-- `seal_text` of `None` is `None`. -/
def seal_text : Option Str → Except Raised (Option Str)
  | none => .ok none
  | some value => (v.seal_text c nonce place value).map some

/-- A plain value that an earlier release wrote reads as it is. -/
def open_text : Option Str → Except Raised (Option Str)
  | none => .ok none
  | some value => if is_sealed value then (v.open_text c place value).map some else .ok (some value)

def seal_bytes (data : Bytes) : Bytes := encodeStr (v.sealed c nonce place data)

def is_sealed_bytes (data : Bytes) : Bool := (encodeStr PREFIX).isPrefixOf data

/-- `data.decode("ascii")` -/
def decode_ascii (data : Bytes) : Option Str :=
  if data.all (· < 0x80) then some (data.map fun b => Fin.ofNat _ b.toNat) else none

def open_bytes (data : Bytes) : Except Raised Bytes :=
  if is_sealed_bytes data then
    match decode_ascii data with
    | some token => v.opened c place token
    | none => .error .UnicodeError
  else .ok data

def email_index (email : Option Str) : Option Str := email.map fun e => v.index c EMAIL (c.lower (strip e))

end Columns

namespace Database
variable (c : Primitives) (v : Vault) (db : Database)

/-! The writes -/

def set_user (id : ℕ) (f : Person → Person) : Database := { db with app_user := db.app_user.update (fun k _ => k = id) f }

def set_user_email (id : ℕ) (email : Option Str) (nonce : Nonce) : Except Raised Database := do
  let stored ← seal_text c v nonce EMAIL email
  .ok (db.set_user id fun u => { u with email := stored, email_index := email_index c v email })

def set_display_name (id : ℕ) (name : Option Str) (nonce : Nonce) : Except Raised Database := do
  let stored ← seal_text c v nonce DISPLAY_NAME name
  .ok (db.set_user id fun u => { u with display_name := stored })

/-- A photo is of an account. -/
def put_avatar (id : ℕ) (image : Bytes) (nonce : Nonce) : Except Raised Database :=
  let stored := seal_bytes c v nonce AVATAR image
  if (db.app_user.get id).isSome then .ok { db with user_avatar := db.user_avatar.upsert id stored fun _ => stored }
  else .error .IntegrityError

def put (key value : Str) : Database := { db with meta_table := db.meta_table.upsert key value fun _ => value }

def set_meta (key value : Str) (nonce : Nonce) : Except Raised Database :=
  if key ∈ SECRET_META then do
    let stored ← v.seal_text c nonce (place_of key) value
    .ok (db.put key stored)
  else .ok (db.put key value)

/-- The key is made once. -/
def community_hmac_key (key : Bytes) (nonce : Nonce) : Except Raised Database :=
  if (db.meta_table.get COMMUNITY_HMAC_KEY).isSome then .ok db else do
    let stored ← v.seal_text c nonce (place_of COMMUNITY_HMAC_KEY) (hex key)
    .ok (db.put COMMUNITY_HMAC_KEY stored)

def write : Write → Except Raised Database
  | .create_user id => match db.app_user.insert id {} with
    | some app_user => .ok { db with app_user }
    | none => .error .IntegrityError
  | .delete_user id => .ok { db with
      app_user := db.app_user.delete fun k _ => k = id
      user_avatar := db.user_avatar.delete fun k _ => k = id }
  | .set_user_email id email nonce => db.set_user_email c v id email nonce
  | .set_display_name id name nonce => db.set_display_name c v id name nonce
  | .put_avatar id image nonce => db.put_avatar c v id image nonce
  | .delete_avatar id => .ok { db with user_avatar := db.user_avatar.delete fun k _ => k = id }
  | .set_meta key value nonce => db.set_meta c v key value nonce
  | .del_meta key => .ok { db with meta_table := db.meta_table.delete fun k _ => k = key.val }
  | .community_hmac_key key nonce => db.community_hmac_key c v key nonce
  | .audit => .ok { db with last_audit := db.last_audit + 1 }

/-! The reads -/

/-- `person`: an address and a name -/
def person (id : ℕ) : Except Raised (Option (Option Str × Option Str)) :=
  match db.app_user.get id with
  | none => .ok none
  | some u => do
    let email ← open_text c v EMAIL u.email
    let display_name ← open_text c v DISPLAY_NAME u.display_name
    .ok (some (email, display_name))

def get_avatar (id : ℕ) : Except Raised (Option Bytes) :=
  match db.user_avatar.get id with
  | none => .ok none
  | some stored => (open_bytes c v AVATAR stored).map some

def get_meta (key : Str) : Except Raised (Option Str) :=
  if key ∈ SECRET_META then open_text c v (place_of key) (db.meta_table.get key) else .ok (db.meta_table.get key)

/-! The start -/

/-- What is drawn for the value of a place and a row. -/
abbrev Draw := Str → ℕ → Nonce

variable (draw : Draw)

/-- The key that sealed the database is recorded once, with where the sealed rows of the audit log begin. -/
def check_vault : Except Raised Database :=
  match db.meta_table.get KID_META with
  | none => do
    let anchor ← v.seal_text c (draw AUDIT_ANCHOR_META 0) (place_of AUDIT_ANCHOR_META) (natText (db.last_audit + 1))
    if (db.meta_table.get AUDIT_ANCHOR_META).isSome then .error .IntegrityError
    else .ok ((db.put KID_META (hex v.kid)).put AUDIT_ANCHOR_META anchor)
  | some kid =>
    if kid = hex v.kid then .ok db
    else .error (.VaultError (lit "this database was sealed with secret key " ++ kid ++
      lit ", and the key file holds key " ++ hex v.kid ++
      lit ": restore the key file the appliance was using (NETCORENOC_SECRET_KEY_FILE, or secret.key in " ++
      lit "NETCORENOC_DATA_DIR). Without it the sealed values and every password are unreadable — see " ++
      lit "docs/troubleshoot.md, 'The secret key'."))

def plain : Option Str → Bool
  | none => false
  | some value => !is_sealed value

/-- The rows of `app_user` that `seal_plaintext` reads -/
def unsealed (_ : ℕ) (u : Person) : Bool :=
  plain u.email || plain u.display_name || (u.email.isSome && u.email_index.isNone)

def seal_person (id : ℕ) (u : Person) : Except Raised Person := do
  let email ← open_text c v EMAIL u.email
  let name ← open_text c v DISPLAY_NAME u.display_name
  let stored ← seal_text c v (draw EMAIL id) EMAIL email
  let display_name ← seal_text c v (draw DISPLAY_NAME id) DISPLAY_NAME name
  .ok { email := stored, email_index := email_index c v email, display_name }

def unsealed_secret (key value : Str) : Bool := key ∈ SECRET_META && !is_sealed value

/-- How many values `seal_plaintext` counts -/
def count_unsealed : ℕ :=
  ((db.app_user.entries.filter fun e => unsealed e.1 e.2).map fun e =>
    e.2.email.toList.length + e.2.display_name.toList.length).sum +
  (db.user_avatar.entries.filter fun e => !is_sealed_bytes e.2).length +
  (db.meta_table.entries.filter fun e => unsealed_secret e.1 e.2).length

/-- The database, and how many values were sealed -/
def seal_plaintext : Except Raised (Database × ℕ) := do
  let app_user ← db.app_user.rewriteWhere unsealed (seal_person c v draw)
  let user_avatar ← db.user_avatar.rewriteWhere (fun _ image => !is_sealed_bytes image)
    fun id image => .ok (seal_bytes c v (draw AVATAR id) AVATAR image)
  let meta_table ← db.meta_table.rewriteWhere unsealed_secret
    fun key value => v.seal_text c (draw key 0) (place_of key) value
  .ok ({ db with app_user, user_avatar, meta_table }, db.count_unsealed)

def open_vault : Except Raised (Database × ℕ) := do
  let db ← db.check_vault c v draw
  db.seal_plaintext c v draw

end Database

/-! The appliance -/

structure Appliance where
  db : Database
  current : Option Vault := none

inductive Act where
  /-- A start with the key that the key file holds. -/
  | start (key : Bytes) (draw : Database.Draw)
  | stop
  | write (w : Write)

/-- A write or a start that raises is rolled back, and the appliance does not come up. -/
def Appliance.step (c : Primitives) (s : Appliance) : Act → Appliance
  | .start key draw => match Vault.from_key c key with
    | .error _ => { s with current := none }
    | .ok v => match s.db.open_vault c v draw with
      | .ok (db, _) => ⟨db, some v⟩
      | .error _ => { s with current := none }
  | .stop => { s with current := none }
  | .write w => match s.current with
    | none => s
    | some v => { s with db := (s.db.write c v w).toOption.getD s.db }

end NetCoreNoc.Sealing
