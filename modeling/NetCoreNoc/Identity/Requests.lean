import Mathlib
import NetCoreNoc.Api.Throttle
import NetCoreNoc.Identity.Accounts
import NetCoreNoc.Runs

/-! The requests that create accounts, sign people in and out, and change their passwords (`crosscutting/auth.py`,
`crosscutting/administration.py`, `api/routes`), each of them one transaction. -/
namespace NetCoreNoc.Identity
open Tables Json Text Api.Throttle

def LINK_TTL_S : ℚ := 30 * 60
def ACCOUNT_COOLDOWN_S : ℚ := 120

structure Server (D H : Type) where
  db : Database D H := {}
  throttle : LoginThrottle Str Str := {}

/-- What a request draws at random. -/
structure Fresh where
  salt : List UInt8
  token : Str

/-- A request that is refused -/
structure Refusal where
  status : ℕ
  detail : String
  deriving DecidableEq

def BEYOND_GRANT : String := "you cannot create, promote or take over an account with more access than you hold"

def LAST_ADMIN_REFUSAL : String :=
  "this is the only enabled admin; promote or create another admin first, or the appliance would have no one who can " ++
    "administer it"

def INVALID_LINK : String := "This link is invalid, already used or expired. Ask for a new one."

def beyond : Refusal := ⟨403, BEYOND_GRANT⟩
def no_such_user : Refusal := ⟨404, "no such user"⟩

def validate_password (password : Str) : Option String :=
  if password.length < MIN_PASSWORD then some s!"password must be at least {MIN_PASSWORD} characters"
  else if MAX_PASSWORD < password.length then some s!"password must be at most {MAX_PASSWORD} characters"
  else none

/-- The domain of an address is a host and letters after its last dot; `$` also stands before a line feed at the end. -/
def valid_domain (text : Str) : Bool :=
  let domain := if text.getLast? = some (chr '\n') then text.dropLast else text
  let top := domain.rtakeWhile isLetter
  let host := domain.rdropWhile isLetter
  2 ≤ top.length ∧ top.length ≤ 63 ∧ host.getLast? = some (chr '.') ∧ 2 ≤ host.length ∧ host.length ≤ 254 ∧
    host.all fun c => isLetter c ∨ isDigit c ∨ c = chr '.' ∨ c = chr '-'

def valid_address (text : Str) : Bool :=
  let name := text.takeWhile (· ≠ chr '@')
  text.length ≤ 254 ∧ 1 ≤ name.length ∧ name.length ≤ 64 ∧
    (name.all fun c => ¬ isWhite c ∧ c ∉ lit "<>\"',;:") ∧ name.length < text.length ∧
    valid_domain (text.drop (name.length + 1))

section
variable {D H : Type} [DecidableEq D] (c : Crypto D H) (s : Server D H) (fresh : Fresh)

inductive LoginOutcome where
  | ok (user_id : ℕ) (role : Role)
  | fail
  | locked
  | must_change
  | policy (message : String)
  /-- the count of failures or the digest of the token is refused, and the transaction rolled back -/
  | raised
  deriving DecidableEq

def open_session (db : Database D H) (user_id : ℕ) (token : Str) (now : ℚ) : Option (Database D H) :=
  db.create_session (c.hash_token token)
    { user_id, idle_expiry := now + IDLE_TIMEOUT_S, absolute_expiry := now + ABSOLUTE_TIMEOUT_S }

/-- Where a login ends that was let in, with what it has written. -/
def let_in (db : Database D H) (user_id : ℕ) (role : Role) (now : ℚ) : LoginOutcome × Server D H :=
  match open_session c db user_id fresh.token now with
  | some db => (.ok user_id role, { s with db })
  | none => (.raised, s)

omit [DecidableEq D] in
def failed (username source_ip : Str) (now : ℚ) : LoginOutcome × Server D H :=
  match s.throttle.record_failure username source_ip now with
  | (.ok (), throttle) => (.fail, { s with throttle })
  | (.error _, throttle) => (.raised, { s with throttle })

/-- A login past its password -/
def admitted (user_id : ℕ) (user : User D H) (password : Str) (new_password : Option Str) (now : ℚ) :
    LoginOutcome × Server D H :=
  if user.must_change_password then
    if new_password.getD [] = [] then (.must_change, s)
    else match validate_password (new_password.getD []) with
    | some message => (.policy message, s)
    | none => let_in c s fresh ((s.db.update_user_password user_id (c.hash_password fresh.salt
        (new_password.getD []))).revoke_user_sessions user_id) user_id user.role now
  else let_in c s fresh (if c.needs_rehash user.password_hash then
    s.db.rehash_password user_id (c.hash_password fresh.salt password) else s.db) user_id user.role now

def perform_login (username password : Str) (new_password : Option Str) (source_ip : Str) (now : ℚ) :
    LoginOutcome × Server D H :=
  if 0 < s.throttle.locked_for username source_ip now then (.locked, s)
  else match s.db.get_user_by_name username with
  | none => failed s username source_ip now
  | some (user_id, user) =>
    if user.disabled ∨ ¬ c.verify_password password user.password_hash then failed s username source_ip now
    else admitted c { s with throttle := s.throttle.record_success username source_ip } fresh user_id user password
      new_password now

structure Principal where
  user_id : ℕ
  actor : Str
  role : Role
  must_change_password : Bool
  deriving DecidableEq

/-- What resolving a session leaves to write. -/
inductive SessionWrite (D : Type) where
  | delete (session_hash : D)
  | touch (session_hash : D) (idle_expiry : ℚ)
  deriving DecidableEq

def resolve_session (db : Database D H) (token : Str) (now : ℚ) : Option Principal × Option (SessionWrite D) :=
  match db.get_session (c.hash_token token) with
  | none => (none, none)
  | some (row, user) =>
    if user.disabled then (none, none)
    else if row.absolute_expiry < now ∨ row.idle_expiry < now then (none, some (.delete (c.hash_token token)))
    else (some ⟨row.user_id, user.username, user.role, user.must_change_password⟩,
      if TOUCH_EVERY_S ≤ now - (row.idle_expiry - IDLE_TIMEOUT_S) then
        some (.touch (c.hash_token token) (now + IDLE_TIMEOUT_S)) else none)

def logout (cookie : Option Str) : Server D H := match cookie with
  | some token => if token = [] then s else { s with db := s.db.delete_session (c.hash_token token) }
  | none => s

/-- `within`: the roles whose whole ceiling the caller holds -/
def create_user (within : Role → Bool) (username password : Str) (role : Role) : Except Refusal ℕ × Server D H :=
  if ¬ within role then (.error beyond, s)
  else match validate_password password with
  | some message => (.error ⟨400, message⟩, s)
  | none =>
    if (s.db.get_user_by_name username).isSome then (.error ⟨409, "username already exists"⟩, s)
    else (.ok s.db.app_user.next,
      { s with db := s.db.create_user username (c.hash_password fresh.salt password) role true })

omit [DecidableEq D] in
def would_remove_last_admin (db : Database D H) (user_id : ℕ) (user : User D H) (new_role : Option Role)
    (deleting disabling : Bool) : Bool :=
  if ¬ user.enabled_admin then false
  else if ¬ deleting ∧ ¬ disabling ∧ new_role = some .admin then false
  else db.count_enabled_admins (some user_id) = 0

def change_role (within : Role → Bool) (uid : ℕ) (role : Role) : Except Refusal Unit × Server D H :=
  if ¬ within role then (.error beyond, s)
  else match s.db.get_user uid with
  | none => (.error no_such_user, s)
  | some user =>
    if ¬ within user.role then (.error beyond, s)
    else if would_remove_last_admin s.db uid user (some role) false false then (.error ⟨400, LAST_ADMIN_REFUSAL⟩, s)
    else (.ok (), { s with db := (s.db.set_user_role uid role).revoke_user_sessions uid })

def delete_user (caller : Option ℕ) (uid : ℕ) : Except Refusal Unit × Server D H :=
  if caller = some uid then (.error ⟨400, "cannot delete your own account"⟩, s)
  else match s.db.get_user uid with
  | none => (.error no_such_user, s)
  | some user =>
    if would_remove_last_admin s.db uid user none true false then (.error ⟨400, LAST_ADMIN_REFUSAL⟩, s)
    else (.ok (), { s with db := (s.db.revoke_user_sessions uid).delete_user uid })

def change_password (caller : Option ℕ) (old_password new_password : Str) : Except Refusal Unit × Server D H :=
  match caller with
  | none => (.error ⟨403, "service tokens have no password"⟩, s)
  | some uid => match validate_password new_password with
    | some message => (.error ⟨400, message⟩, s)
    | none => match (s.db.get_user uid).filter fun user => c.verify_password old_password user.password_hash with
      | none => (.error ⟨400, "current password incorrect"⟩, s)
      | some _ => (.ok (), { s with
          db := (s.db.update_user_password uid (c.hash_password fresh.salt new_password)).revoke_user_sessions uid })

def reset_user_password (caller : Option ℕ) (within : Role → Bool) (uid : ℕ) : Except Refusal Str × Server D H :=
  if caller = some uid then (.error ⟨400, "change your own password under Account"⟩, s)
  else match s.db.get_user uid with
  | none => (.error no_such_user, s)
  | some user =>
    if ¬ within user.role then (.error beyond, s)
    else (.ok fresh.token, { s with
      db := (s.db.replace_password uid (c.hash_password fresh.salt fresh.token)).revoke_user_sessions uid })

/-- `_reset_password`, at the command line; none where no account has the name -/
def cli_reset (username : Str) : Option Str × Server D H :=
  match s.db.get_user_by_name username with
  | none => (none, s)
  | some (uid, _) => (some fresh.token, { s with
      db := (s.db.replace_password uid (c.hash_password fresh.salt fresh.token)).revoke_user_sessions uid })

/-- `_set_name`, of one's own profile or of another's; the address is `none` where the request does not carry it. -/
def set_profile (own : Bool) (within : Role → Bool) (uid : ℕ) (email : Option (Option Str)) (current_password : Option Str) :
    Except Refusal Unit × Server D H :=
  match s.db.get_user uid with
  | none => (.error no_such_user, s)
  | some user => match email with
    | none => (.ok (), s)
    | some text =>
      let email := (some (strip (text.getD []))).filter (· ≠ [])
      if email.any fun address => ¬ valid_address address then (.error ⟨400, "that is not an email address"⟩, s)
      else if ¬ own ∧ email ≠ user.email ∧ ¬ within user.role then (.error beyond, s)
      else if own ∧ email ≠ user.email ∧ ¬ c.verify_password (current_password.getD []) user.password_hash then
        (.error ⟨400, "enter your current password to change the recovery email"⟩, s)
      else (.ok (), { s with db := s.db.set_user_email c uid email })

/-- A mail with a link -/
structure Letter where
  recipient : Option Str
  user_id : ℕ
  username : Str
  token : Str
  deriving DecidableEq

/-- The loop over the accounts that a request names; a digest that is taken raises. -/
def send_links (now : ℚ) (token : ℕ → Str) : List (ℕ × User D H) → Database D H → Option (Database D H × List Letter)
  | [], db => some (db, [])
  | (uid, account) :: rest, db =>
    if db.reset_requested_since uid (now - ACCOUNT_COOLDOWN_S) then send_links now token rest db
    else do
      let db ← db.create_reset uid (c.hash_token (token uid)) now (now + LINK_TTL_S)
      let (db, outbox) ← send_links now token rest db
      some (db, ⟨account.email, uid, account.username, token uid⟩ :: outbox)

/-- `offered`: recovery is configured and switched on -/
def request_reset (offered : Bool) (login : Str) (now : ℚ) (token : ℕ → Str) : List Letter × Server D H :=
  match send_links c now token (if offered then s.db.recovery_accounts c (strip login) else []) s.db with
  | some (db, outbox) => (outbox, { s with db })
  | none => ([], s)

def confirm_reset (token new_password : Str) (now : ℚ) : Except Refusal ℕ × Server D H :=
  match validate_password new_password with
  | some message => (.error ⟨400, message⟩, s)
  | none => match s.db.take_reset (c.hash_token token) now with
    | (none, db) => (.error ⟨400, INVALID_LINK⟩, { s with db })
    | (some (uid, _), db) => (.ok uid, { s with
        db := (db.update_user_password uid (c.hash_password fresh.salt new_password)).revoke_user_sessions uid })

def BOOTSTRAP_USERNAME : Str := lit "admin"
def RECOVERY_USERNAME : Str := lit "recovery-admin"

/-- `recovery-admin-2` and so on -/
def numbered (suffix : ℕ) : Str := RECOVERY_USERNAME ++ lit "-" ++ natText suffix

omit [DecidableEq D] in
/-- The first of so many numbered names that nobody holds -/
def free_suffix (db : Database D H) : ℕ → ℕ → ℕ
  | 0, suffix => suffix
  | fuel + 1, suffix =>
    if (db.get_user_by_name (numbered suffix)).isNone then suffix else free_suffix db fuel (suffix + 1)

omit [DecidableEq D] in
/-- One of as many names as there are accounts and one more is free. -/
def free_username (db : Database D H) : Str :=
  if (db.get_user_by_name BOOTSTRAP_USERNAME).isNone then BOOTSTRAP_USERNAME
  else if (db.get_user_by_name RECOVERY_USERNAME).isNone then RECOVERY_USERNAME
  else numbered (free_suffix db (db.users.length + 1) 2)

omit [DecidableEq D] in
def bootstrap_admin (db : Database D H) : Option (Str × Str) × Database D H :=
  if 0 < db.count_enabled_admins none then (none, db)
  else (some (free_username db, fresh.token),
    db.create_user (free_username db) (c.hash_password fresh.salt fresh.token) .admin true)

end

/-- What happens to the server: a request, with the principal it was resolved to before, a write that resolving a
session left, the hourly purge, or a start of the process. -/
inductive Act (D : Type) where
  | create_user (within : Role → Bool) (username password : Str) (role : Role) (fresh : Fresh)
  | change_role (within : Role → Bool) (uid : ℕ) (role : Role)
  | delete_user (caller : Option ℕ) (uid : ℕ)
  | login (username password : Str) (new_password : Option Str) (source_ip : Str) (now : ℚ) (fresh : Fresh)
  | logout (cookie : Option Str)
  | change_password (caller : Option ℕ) (old_password new_password : Str) (fresh : Fresh)
  | reset_user_password (caller : Option ℕ) (within : Role → Bool) (uid : ℕ) (fresh : Fresh)
  | cli_reset (username : Str) (fresh : Fresh)
  | set_profile (own : Bool) (within : Role → Bool) (uid : ℕ) (email : Option (Option Str)) (current_password : Option Str)
  | request_reset (offered : Bool) (login : Str) (now : ℚ) (token : ℕ → Str)
  | confirm_reset (token new_password : Str) (now : ℚ) (fresh : Fresh)
  | settle (write : SessionWrite D)
  | purge (now : ℚ)
  | start (fresh : Fresh)

variable {D H : Type} [DecidableEq D] (c : Crypto D H)

def step (s : Server D H) : Act D → Server D H
  | .create_user within username password role fresh => (create_user c s fresh within username password role).2
  | .change_role within uid role => (change_role s within uid role).2
  | .delete_user caller uid => (delete_user s caller uid).2
  | .login username password new_password source_ip now fresh =>
    (perform_login c s fresh username password new_password source_ip now).2
  | .logout cookie => logout c s cookie
  | .change_password caller old_password new_password fresh =>
    (change_password c s fresh caller old_password new_password).2
  | .reset_user_password caller within uid fresh => (reset_user_password c s fresh caller within uid).2
  | .cli_reset username fresh => (cli_reset c s fresh username).2
  | .set_profile own within uid email current_password => (set_profile c s own within uid email current_password).2
  | .request_reset offered login now token => (request_reset c s offered login now token).2
  | .confirm_reset token new_password now fresh => (confirm_reset c s fresh token new_password now).2
  | .settle (.delete session_hash) => { s with db := s.db.delete_session session_hash }
  | .settle (.touch session_hash idle_expiry) => { s with db := s.db.touch_session session_hash idle_expiry }
  | .purge now => { s with db := s.db.purge_expired_sessions now }
  | .start fresh => { db := (bootstrap_admin c fresh s.db).2 }

/-! A key that hides nothing, to run the server with -/

def plain : Crypto Str Str where
  hash_password _ password := password
  verify_password password stored := password = stored
  needs_rehash _ := false
  hash_token token := token
  email_index address := address

def drawn (token : String) : Fresh := ⟨[], lit token⟩

/-- The administrator of a first start signs in. -/
def signed_in : List (Act Str) :=
  [.start (drawn "temporary"),
    .login (lit "admin") (lit "temporary") (some (lit "correct horse")) (lit "10.0.0.1") 100 (drawn "first")]

/-- They give an address, and forget the password. -/
def forgotten : List (Act Str) :=
  signed_in ++ [.set_profile true (fun _ => true) 1 (some (some (lit "ops@example.org"))) (some (lit "correct horse")),
    .request_reset true (lit " admin ") 1000 fun _ => lit "link"]

end NetCoreNoc.Identity
