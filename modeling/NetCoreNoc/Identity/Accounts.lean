import Mathlib
import NetCoreNoc.Relational
import NetCoreNoc.Text

/-! Who may sign in (`store/auth.py`, `store/recovery.py`): accounts, sessions and reset links as the database keeps
them, and the statements that change them. -/
namespace NetCoreNoc.Identity
open Tables Json Text

def MIN_PASSWORD : ℕ := 12
def MAX_PASSWORD : ℕ := 128
def IDLE_TIMEOUT_S : ℚ := 30 * 60
def TOUCH_EVERY_S : ℚ := 30
def ABSOLUTE_TIMEOUT_S : ℚ := 12 * 60 * 60
def RESET_GRACE_S : ℚ := 86400
def MAX_ACCOUNTS_PER_EMAIL : ℕ := 5

inductive Role where
  | admin
  | editor
  | viewer
  deriving DecidableEq

/-- What the appliance computes with its secret key: scrypt over a salt and a password, and the digests that tokens and
addresses are looked up by. -/
structure Crypto (D H : Type) where
  hash_password : List UInt8 → Str → H
  verify_password : Str → H → Bool
  needs_rehash : H → Bool
  hash_token : Str → D
  email_index : Str → D

structure User (D H : Type) where
  username : Str
  password_hash : H
  role : Role
  must_change_password : Bool
  disabled : Bool := false
  email : Option Str := none
  email_index : Option D := none
  deriving DecidableEq

structure Session where
  user_id : ℕ
  idle_expiry : ℚ
  absolute_expiry : ℚ
  deriving DecidableEq

structure Reset where
  user_id : ℕ
  created_at : ℚ
  expires_at : ℚ
  used_at : Option ℚ := none
  deriving DecidableEq

/-- The rows that say who may sign in, sessions and links by the digests of their tokens. -/
structure Database (D H : Type) where
  app_user : Serial (User D H) := .empty
  session : Table D Session := .empty
  password_reset : Table D Reset := .empty

def User.enabled_admin {D H : Type} (u : User D H) : Bool := u.role = .admin ∧ ¬ u.disabled

namespace Database
variable {D H : Type} [DecidableEq D] (db : Database D H) (c : Crypto D H)

def users : List (ℕ × User D H) := db.app_user.rows.entries

def count_enabled_admins (excluding : Option ℕ) : ℕ :=
  (db.users.filter fun u => u.2.enabled_admin ∧ excluding ≠ some u.1).length

def create_user (username : Str) (password_hash : H) (role : Role) (must_change_password : Bool) : Database D H := { db with
  app_user := db.app_user.insert { username, password_hash, role, must_change_password } }

def get_user_by_name (username : Str) : Option (ℕ × User D H) := db.users.find? fun u => u.2.username = username

def get_user (user_id : ℕ) : Option (User D H) := db.app_user.get user_id

/-- `UPDATE app_user SET … WHERE id=?` -/
def set_user (user_id : ℕ) (f : User D H → User D H) : Database D H := { db with
  app_user := db.app_user.update (fun id _ => id = user_id) f }

def rehash_password (user_id : ℕ) (password_hash : H) : Database D H :=
  db.set_user user_id fun u => { u with password_hash }

def update_user_password (user_id : ℕ) (password_hash : H) : Database D H :=
  db.set_user user_id fun u => { u with password_hash, must_change_password := false }

def set_user_role (user_id : ℕ) (role : Role) : Database D H := db.set_user user_id fun u => { u with role }

/-- Sessions and links go with the account. -/
def delete_user (user_id : ℕ) : Database D H where
  app_user := db.app_user.delete fun id _ => id = user_id
  session := db.session.delete fun _ r => r.user_id = user_id
  password_reset := db.password_reset.delete fun _ r => r.user_id = user_id

def create_session (session_hash : D) (row : Session) : Option (Database D H) :=
  (db.session.insert session_hash row).map fun session => { db with session }

/-- A session, with the account it is for -/
def get_session (session_hash : D) : Option (Session × User D H) :=
  (db.session.get session_hash).bind fun r => (db.get_user r.user_id).map fun u => (r, u)

def touch_session (session_hash : D) (idle_expiry : ℚ) : Database D H := { db with
  session := db.session.update (fun h _ => h = session_hash) fun r => { r with idle_expiry } }

def delete_session (session_hash : D) : Database D H := { db with session := db.session.erase session_hash }

def revoke_user_sessions (user_id : ℕ) : Database D H := { db with
  session := db.session.delete fun _ r => r.user_id = user_id }

def purge_expired_sessions (now : ℚ) : Database D H := { db with
  session := db.session.delete fun _ r => r.absolute_expiry < now ∨ r.idle_expiry < now }

def withdraw_resets (user_id : ℕ) : Database D H := { db with
  password_reset := db.password_reset.delete fun _ r => r.user_id = user_id ∧ r.used_at = none }

def set_user_email (user_id : ℕ) (email : Option Str) : Database D H :=
  (db.set_user user_id fun u => { u with email, email_index := email.map c.email_index }).withdraw_resets user_id

def replace_password (user_id : ℕ) (password_hash : H) : Database D H :=
  (db.set_user user_id fun u => { u with password_hash, must_change_password := true }).withdraw_resets user_id

/-- By username; by address where nobody has that username -/
def recovery_accounts (login : Str) : List (ℕ × User D H) :=
  ((db.users.filter fun u => ¬ u.2.disabled ∧ u.2.email.isSome ∧
    (u.2.username = login ∨ (u.2.email_index = some (c.email_index login) ∧ (db.get_user_by_name login).isNone))).insertionSort
      fun u v => u.1 ≤ v.1).take MAX_ACCOUNTS_PER_EMAIL

def reset_requested_since (user_id : ℕ) (since : ℚ) : Bool :=
  db.password_reset.entries.any fun e => e.2.user_id = user_id ∧ since ≤ e.2.created_at

def create_reset (user_id : ℕ) (token_hash : D) (now expires_at : ℚ) : Option (Database D H) :=
  ((db.password_reset.delete fun _ r => (r.user_id = user_id ∧ r.used_at = none) ∨ r.expires_at < now - RESET_GRACE_S).insert
    token_hash { user_id, created_at := now, expires_at }).map fun password_reset => { db with password_reset }

/-- The row that `take_reset` marks, and reads its account from -/
def usable (token_hash : D) (now : ℚ) : Option Reset :=
  (db.password_reset.get token_hash).filter fun r => r.used_at = none ∧ now < r.expires_at

def mark_used (token_hash : D) (now : ℚ) : Database D H := { db with
  password_reset := db.password_reset.update (fun h r => h = token_hash ∧ r.used_at = none ∧ now < r.expires_at)
    fun r => { r with used_at := some now } }

def take_reset (token_hash : D) (now : ℚ) : Option (ℕ × User D H) × Database D H :=
  match db.usable token_hash now with
  | none => (none, db)
  | some row =>
    (((db.get_user row.user_id).filter fun u => ¬ u.disabled).map fun u => (row.user_id, u), db.mark_used token_hash now)

end Database

end NetCoreNoc.Identity
