import Mathlib
import NetCoreNoc.Runs

/-! The credential vault, the leases agents hold on it, and the routes between whose reads and writes others run
(`api/noc_gate.py`, `api/routes/{secrets,noc_access,noc_exec}.py`, `store/{noc_vault,noc_access}.py`). -/
namespace NetCoreNoc.Noc

/-- `KINDS`, with one kind for each AI provider. -/
inductive CredentialKind where
  | ssh_password
  | ssh_key
  | sftp
  | snmp_community
  | snmp_v3
  | api_token
  | smtp
  | other
  | ai (provider : String)
  deriving DecidableEq, Repr

inductive Group where
  | device
  | ai
  deriving DecidableEq, Repr

def CredentialKind.group : CredentialKind → Group
  | .ai _ => .ai
  | _ => .device

inductive AccessLevel where
  | view_only
  | diagnostic
  | operator
  | root
  deriving DecidableEq, Repr

/-- A key a device presented. -/
structure HostKey where
  text : String
  given : text ≠ ""
  deriving DecidableEq

abbrev Fields := List (String × String)

/-- What a custodian's form says of a credential, as `_bound` leaves it. -/
structure Meta where
  name : String
  description : String := ""
  kind : CredentialKind
  access_level : AccessLevel := .view_only
  host : String
  port : ℕ
  protocol_version : String := ""
  monitor : Bool := true
  deriving DecidableEq

structure SecretIn where
  shown : Meta
  fields : Option Fields
  deriving DecidableEq

structure Binding where
  ref : String
  kind : CredentialKind
  host : String
  port : ℕ
  protocol_version : String
  access_level : AccessLevel
  deriving DecidableEq

def binding (ref : String) (m : Meta) : Binding :=
  ⟨ref, m.kind, m.host, m.port, m.protocol_version, m.access_level⟩

/-- A sealed credential opens under the binding it was sealed for, and under no other. -/
structure Sealed where
  binding : Binding
  payload : Fields
  deriving DecidableEq

def Sealed.unseal (b : Binding) (s : Sealed) : Option Fields := if s.binding = b then some s.payload else none

/-- A row of `noc_secret`. The last two fields are the history of the row, which no query reads. -/
structure Secret where
  id : ℕ
  ref : String
  shown : Meta
  sealed : Sealed
  version : ℕ := 1
  agent_access : Bool := false
  host_key : Option HostKey := none
  /-- how often agents were switched off or the credential was changed -/
  endings : ℕ := 0
  /-- the clock of the latest switch-off -/
  off_at : Option ℚ := none
  deriving DecidableEq

/-- The claims of a lease, which it carries signed. -/
structure Claims where
  jti : ℕ
  sub : String
  sid : ℕ
  ref : String
  ver : ℕ
  kind : CredentialKind
  host : String
  port : ℕ
  scope : AccessLevel
  nbf : ℤ
  exp : ℤ
  deriving DecidableEq

/-- A row of `noc_lease`; `endings` are the credential's when its row was read for the lease. -/
structure Lease where
  id : ℕ
  jti : ℕ
  secret_id : ℕ
  subject_ref : String
  expires_at : ℤ
  revoked : Bool := false
  endings : ℕ
  deriving DecidableEq

def MIN_TTL_S : ℕ := 60
def MAX_TTL_S : ℕ := 3600
def LEEWAY_S : ℚ := 30
def MAX_LIVE_LEASES : ℕ := 20
def LEASE_GRACE_S : ℚ := 30 * 86400

/-- `ExecIn.action` -/
inductive Action where
  | ssh
  | snmp_get
  | reach
  deriving DecidableEq, Repr

def Action.wanted : Action → CredentialKind → Bool
  | .ssh, k => k = .ssh_password ∨ k = .ssh_key
  | .snmp_get, k => k = .snmp_community ∨ k = .snmp_v3
  | .reach, _ => true

/-- A request between its reads and its write, with what it read. -/
inductive VaultRequest where
  /-- the agent grant is checked and the row is not read yet -/
  | asking (subject : String) (secret_id ttl_s : ℕ)
  | leasing (row : Secret) (subject : String) (ttl_s : ℕ) (now : ℚ)
  /-- the lease is checked and the sealed row is not read yet -/
  | acting (claims : Claims) (secret : Secret) (action : Action)
  /-- the device has answered, with a key to pin if there is one -/
  | answered (secret_id : ℕ) (host_key : Option HostKey)
  | updating (current : Secret) (body : SecretIn) (sealed : Sealed)
  deriving DecidableEq

/-- What the routes have done with credentials, as they did it. -/
inductive Deed where
  /-- the row a device act opened, and the claims of the lease it was for -/
  | acted (claims : Claims) (row : Secret)
  /-- a lease was checked and found usable -/
  | used (lease : Lease) (row : Secret)
  /-- an update wrote over the row it found -/
  | updated (read found written : Secret)
  /-- an act that had seen no pinned key pinned one over what it found -/
  | pinned (found : Option HostKey) (key : HostKey)
  deriving DecidableEq

structure Vault where
  secrets : ℕ → Option Secret := fun _ => none
  next_secret : ℕ := 1
  leases : List Lease := []
  next_lease : ℕ := 1
  /-- every lease the appliance has signed; a token with other claims has a bad signature -/
  issued : List Claims := []
  /-- who holds the `agent` grant -/
  agents : List String := []
  flight : List VaultRequest := []
  /-- the newest first -/
  deeds : List Deed := []

namespace Vault
variable (s : Vault)

def put (row : Secret) : Vault := { s with secrets := Function.update s.secrets row.id (some row) }

def did (deed : Deed) : Vault := { s with deeds := deed :: s.deeds }

def suspend (request : VaultRequest) : Vault := { s with flight := s.flight ++ [request] }

/-- A request is over: answered or refused. -/
def finish (i : ℕ) : Vault := { s with flight := s.flight.eraseIdx i }

def noc_create_secret (ref : String) (body : Meta) (sealed : Sealed) : Vault :=
  { s.put { id := s.next_secret, ref, shown := body, sealed } with next_secret := s.next_secret + 1 }

/-- The leases of a deleted credential go with it. -/
def noc_delete_secret (secret_id : ℕ) : Vault := { s with
  secrets := Function.update s.secrets secret_id none
  leases := s.leases.filter fun l => l.secret_id ≠ secret_id }

def noc_live_leases (subject : String) (now : ℚ) : ℕ :=
  s.leases.countP fun l => l.subject_ref = subject ∧ ¬ l.revoked ∧ now < l.expires_at

/-- The live leases that `which` picks are ended. -/
def revoke (which : Lease → Bool) (now : ℚ) : Vault := { s with
  leases := s.leases.map fun l => if which l ∧ now < l.expires_at then { l with revoked := true } else l }

def noc_revoke_secret_leases (secret_id : ℕ) : ℚ → Vault := s.revoke fun l => l.secret_id = secret_id

def noc_revoke_subject_leases (subject : String) : ℚ → Vault := s.revoke fun l => l.subject_ref = subject

def noc_revoke_lease (lease_id : ℕ) : Vault := { s with
  leases := s.leases.map fun l => if l.id = lease_id then { l with revoked := true } else l }

/-- The row of a new lease, once the rows of leases long over are gone. -/
def noc_create_lease (claims : Claims) (endings : ℕ) (now : ℚ) : Vault := { s with
  leases := s.leases.filter (fun l => ¬ (l.expires_at : ℚ) < now - LEASE_GRACE_S) ++
    [{ id := s.next_lease, jti := claims.jti, secret_id := claims.sid, subject_ref := claims.sub,
       expires_at := claims.exp, endings }]
  next_lease := s.next_lease + 1 }

def noc_set_grant (subject : String) (enabled : Bool) : Vault := { s with
  agents := if enabled then s.agents.insert subject else s.agents.filter (· ≠ subject) }

end Vault

/-- A credential an agent may lease. -/
def device (row : Secret) : Bool := row.agent_access ∧ row.shown.kind.group ≠ .ai

/-- `lease.decode`: the signature and the clock, not the store's row. -/
def decode (issued : List Claims) (claims : Claims) (now : ℚ) : Except String Claims :=
  if claims ∉ issued then .error "bad signature"
  else if now > claims.exp + LEEWAY_S then .error "expired"
  else if now + LEEWAY_S < claims.nbf then .error "not yet valid"
  else .ok claims

/-- Who presents a lease: the principal's reference, and whether it is a custodian's. -/
structure Caller where
  ref : String
  custodian : Bool := false
  deriving DecidableEq

/-- The check of a lease: its row and its credential's, or the sentence why it may not be used now. -/
def lease_state (s : Vault) (caller : Caller) (claims : Claims) (now : ℚ) : Except String (Lease × Secret) :=
  match decode s.issued claims now with
  | .error reason => .error reason
  | .ok _ =>
    match s.leases.find? fun l => l.jti = claims.jti with
    | none => .error "unknown"
    | some row =>
      if row.secret_id ≠ claims.sid then .error "unknown"
      else if ¬ caller.custodian ∧ caller.ref ≠ claims.sub then .error "issued to another agent"
      else if row.revoked then .error "revoked"
      else if now > row.expires_at then .error "expired"
      else match s.secrets claims.sid with
        | none => .error "the credential changed or agents lost access to it"
        | some secret =>
          if ¬ secret.agent_access ∨ secret.version ≠ claims.ver then
            .error "the credential changed or agents lost access to it"
          else if claims.sub ∉ s.agents then .error "its agent is no longer an agent"
          else .ok (row, secret)

/-- `int` of a float: towards zero. -/
def seconds (now : ℚ) : ℤ := now.num.tdiv now.den

def claims_of (jti : ℕ) (row : Secret) (subject : String) (ttl_s : ℕ) (now : ℚ) : Claims where
  jti
  sub := subject
  sid := row.id
  ref := row.ref
  ver := row.version
  kind := row.shown.kind
  host := row.shown.host
  port := row.shown.port
  scope := row.shown.access_level
  nbf := seconds now
  exp := seconds now + ttl_s

/-- Whether an edit changes what the seal is bound to. -/
def rebound (before body : Meta) : Bool :=
  before.kind ≠ body.kind ∨ before.host ≠ body.host ∨ before.port ≠ body.port ∨
    before.protocol_version ≠ body.protocol_version ∨ before.access_level ≠ body.access_level

/-- Whether an edit makes a new seal. -/
def resealed (current : Secret) (body : SecretIn) : Bool := body.fields.isSome ∨ rebound current.shown body.shown

/-- The seal an edit writes, all from the row as it was read: a new kind needs its fields, and a seal that does
not open is a conflict. -/
def reseal (current : Secret) (body : SecretIn) : Option Sealed :=
  if body.fields = none ∧ current.shown.kind ≠ body.shown.kind then none
  else if resealed current body then
    match body.fields with
    | some fields => some ⟨binding current.ref body.shown, fields⟩
    | none => (current.sealed.unseal (binding current.ref current.shown)).map
        fun payload => ⟨binding current.ref body.shown, payload⟩
  else some current.sealed

/-- The row an update leaves of the one it finds: every editable column from the body, the rest in place. -/
def noc_update_secret (current found : Secret) (body : SecretIn) (sealed : Sealed) : Secret := { found with
  shown := body.shown
  sealed
  version := found.version + if resealed current body then 1 else 0
  -- a key pinned for one device says nothing about another
  host_key := if current.shown.host ≠ body.shown.host ∨ current.shown.port ≠ body.shown.port then none
    else found.host_key
  endings := found.endings + if resealed current body then 1 else 0 }

def noc_set_agent_access (found : Secret) (enabled : Bool) (now : ℚ) : Secret := { found with
  agent_access := enabled
  endings := if enabled then found.endings else found.endings + 1
  off_at := if enabled then found.off_at else some now }

namespace Vault
variable (s : Vault)

/-- `issue_lease` up to its read of the credential. -/
def ask (subject : String) (secret_id ttl_s : ℕ) : Vault :=
  if ttl_s < MIN_TTL_S ∨ MAX_TTL_S < ttl_s ∨ subject ∉ s.agents then s
  else s.suspend (.asking subject secret_id ttl_s)

/-- `update_secret` up to its step-up. -/
def edit (secret_id : ℕ) (body : SecretIn) : Vault :=
  match s.secrets secret_id with
  | none => s
  | some current =>
    match reseal current body with
    | none => s
    | some sealed => s.suspend (.updating current body sealed)

/-- `noc_exec` up to its second read of the credential; a reachability check needs none and acts at once.
The agent grant, read before, is read again with the lease. -/
def exec (agent : String) (claims : Claims) (action : Action) (now : ℚ) : Vault :=
  match lease_state s { ref := agent } claims now with
  | .error _ => s
  | .ok (lease, secret) =>
    let checked := s.did (.used lease secret)
    if ¬ action.wanted secret.shown.kind then checked
    else if action = .reach then (checked.did (.acted claims secret)).suspend (.answered secret.id none)
    else checked.suspend (.acting claims secret action)

def introspect (caller : Caller) (claims : Claims) (now : ℚ) : Vault :=
  match lease_state s caller claims now with
  | .error _ => s
  | .ok (lease, secret) => s.did (.used lease secret)

/-- A device shows its key to an act that has none pinned. -/
def seen (row : Secret) (key : Option HostKey) : Option HostKey := if row.host_key.isNone then key else none

/-- A request goes on: one that asks for a lease reads the credential, an act reads the sealed row and reaches the
device, which may show a key, and the others write. A refused write changes nothing. -/
def resume (i : ℕ) (key : Option HostKey) (now : ℚ) : Vault :=
  match s.flight[i]? with
  | none => s
  | some (.asking subject secret_id ttl_s) =>
    match s.secrets secret_id with
    | none => s.finish i
    | some row =>
      if ¬ device row ∨ MAX_LIVE_LEASES ≤ s.noc_live_leases subject now then s.finish i
      else (s.finish i).suspend (.leasing row subject ttl_s now)
  | some (.leasing row subject ttl_s asked) =>
    if (s.secrets row.id).isNone then s.finish i
    else
      -- the random id is drawn for this write, and was never drawn before
      let claims := claims_of s.issued.length row subject ttl_s asked
      { (s.noc_create_lease claims row.endings asked).finish i with issued := s.issued ++ [claims] }
  | some (.acting claims secret action) =>
    match s.secrets secret.id with
    | none => s.finish i
    | some row =>
      match row.sealed.unseal (binding row.ref row.shown) with
      | none => s.finish i
      | some _ => ((s.finish i).did (.acted claims row)).suspend
          (.answered secret.id (if action = .ssh then seen row key else none))
  | some (.answered secret_id (some key)) =>
    match s.secrets secret_id with
    | none => s.finish i
    | some found => ((s.finish i).put { found with host_key := some key }).did (.pinned found.host_key key)
  | some (.answered _ none) => s.finish i
  | some (.updating current body sealed) =>
    match s.secrets current.id with
    | none => s.finish i
    | some found =>
      let written := noc_update_secret current found body sealed
      let updated := ((s.finish i).put written).did (.updated current found written)
      if resealed current body then updated.noc_revoke_secret_leases current.id now else updated

def agent_access (secret_id : ℕ) (enabled : Bool) (now : ℚ) : Vault :=
  match s.secrets secret_id with
  | none => s
  | some found =>
    let switched := s.put (noc_set_agent_access found enabled now)
    if enabled then switched else switched.noc_revoke_secret_leases secret_id now

def forget_host_key (secret_id : ℕ) : Vault :=
  match s.secrets secret_id with
  | none => s
  | some found => s.put { found with host_key := none }

def set_grant (subject : String) (enabled : Bool) (now : ℚ) : Vault :=
  let granted := s.noc_set_grant subject enabled
  if enabled then granted else granted.noc_revoke_subject_leases subject now

/-- A runbook's act, on a credential that agents may use for its host. -/
def runbook (secret_id : ℕ) (key : Option HostKey) : Vault :=
  match s.secrets secret_id with
  | none => s
  | some row => if row.agent_access then s.suspend (.answered secret_id (seen row key)) else s

end Vault

inductive VaultOp where
  | create (ref : String) (body : Meta) (fields : Fields)
  | edit (secret_id : ℕ) (body : SecretIn)
  | agent_access (secret_id : ℕ) (enabled : Bool) (now : ℚ)
  | delete (secret_id : ℕ)
  | forget_host_key (secret_id : ℕ)
  | set_grant (subject : String) (enabled : Bool) (now : ℚ)
  | ask (subject : String) (secret_id ttl_s : ℕ)
  | exec (agent : String) (claims : Claims) (action : Action) (now : ℚ)
  | introspect (caller : Caller) (claims : Claims) (now : ℚ)
  | revoke_lease (lease_id : ℕ)
  | runbook (secret_id : ℕ) (key : Option HostKey)
  /-- a suspended request goes on, or is dropped where it stands -/
  | resume (i : ℕ) (key : Option HostKey) (now : ℚ)
  | drop (i : ℕ)
  deriving DecidableEq

def Vault.step (s : Vault) : VaultOp → Vault
  | .create ref body fields => s.noc_create_secret ref body ⟨binding ref body, fields⟩
  | .edit secret_id body => s.edit secret_id body
  | .agent_access secret_id enabled now => s.agent_access secret_id enabled now
  | .delete secret_id => s.noc_delete_secret secret_id
  | .forget_host_key secret_id => s.forget_host_key secret_id
  | .set_grant subject enabled now => s.set_grant subject enabled now
  | .ask subject secret_id ttl_s => s.ask subject secret_id ttl_s
  | .exec agent claims action now => s.exec agent claims action now
  | .introspect caller claims now => s.introspect caller claims now
  | .revoke_lease lease_id => s.noc_revoke_lease lease_id
  | .runbook secret_id key => s.runbook secret_id key
  | .resume i key now => s.resume i key now
  | .drop i => s.finish i

end NetCoreNoc.Noc
