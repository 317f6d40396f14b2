import Mathlib
import NetCoreNoc.Noc.Vault

/-! What a lease opens, over every interleaving of the vault's routes. -/
namespace NetCoreNoc.Noc

/-- What a lease is issued under. -/
structure Terms where
  ref : String
  version : ℕ
  host : String
  deriving DecidableEq

def Secret.terms (r : Secret) : Terms := ⟨r.ref, r.version, r.shown.host⟩

def Claims.terms (c : Claims) : Terms := ⟨c.ref, c.ver, c.host⟩

/-- The terms of one credential as they move on: a host changes with the version only. -/
def Terms.Before (a b : Terms) : Prop :=
  a.ref = b.ref ∧ a.version ≤ b.version ∧ (a.version = b.version → a.host = b.host)

namespace Terms
variable {a b c : Terms}

theorem Before.rfl : a.Before a := ⟨Eq.refl _, le_rfl, fun _ => Eq.refl _⟩

theorem Before.trans (h : a.Before b) (k : b.Before c) : a.Before c := by
  obtain ⟨href, hver, hhost⟩ := h
  obtain ⟨kref, kver, khost⟩ := k
  refine ⟨href.trans kref, hver.trans kver, fun he => ?_⟩
  have hb : a.version = b.version := by omega
  exact (hhost hb).trans (khost (hb.symm.trans he))

theorem Before.eq (h : a.Before b) (he : a.version = b.version) : a = b := by
  obtain ⟨href, -, hhost⟩ := h
  cases a
  cases b
  simp_all

end Terms

/-- The columns an update writes. -/
inductive Column where
  | name
  | description
  | kind
  | access_level
  | host
  | port
  | protocol_version
  | monitor
  | sealed
  deriving DecidableEq

instance : Fintype Column :=
  ⟨{.name, .description, .kind, .access_level, .host, .port, .protocol_version, .monitor, .sealed},
    fun c => by cases c <;> decide⟩

inductive Cell where
  | text (s : String)
  | kind (k : CredentialKind)
  | level (a : AccessLevel)
  | port (n : ℕ)
  | flag (b : Bool)
  | payload (f : Fields)
  deriving DecidableEq

/-- What a column holds; of the seal, what it seals. -/
def Secret.cell (r : Secret) : Column → Cell
  | .name => .text r.shown.name
  | .description => .text r.shown.description
  | .kind => .kind r.shown.kind
  | .access_level => .level r.shown.access_level
  | .host => .text r.shown.host
  | .port => .port r.shown.port
  | .protocol_version => .text r.shown.protocol_version
  | .monitor => .flag r.shown.monitor
  | .sealed => .payload r.sealed.payload

/-- What each deed promises. An act opens the credential at the terms of its lease, agents switched on. A lease that
is usable has seen no switch-off and no change since its credential was read for it. An update that leaves a column
as it read it finds it so. A key is pinned over another by no act. -/
def Deed.Right : Deed → Prop
  | .acted claims row => row.terms = claims.terms ∧ row.agent_access = true
  | .used lease row => lease.endings = row.endings
  | .updated read found written => ∀ c : Column, written.cell c = read.cell c → found.cell c = read.cell c
  | .pinned found key => found = none ∨ found = some key

instance : DecidablePred Deed.Right
  | .acted _ _ => inferInstanceAs (Decidable (_ ∧ _))
  | .used _ _ => inferInstanceAs (Decidable (_ = _))
  | .updated read found written =>
    inferInstanceAs (Decidable (∀ c : Column, written.cell c = read.cell c → found.cell c = read.cell c))
  | .pinned _ _ => inferInstanceAs (Decidable (_ ∨ _))

namespace Vault
variable (s : Vault)

/-- No lease a check is shown had expired by the clock of its credential's latest switch-off and not by its own. -/
def Timely (claims : Claims) (now : ℚ) : Prop :=
  ∀ lease ∈ s.leases, lease.jti = claims.jti → ∀ found ∈ s.secrets lease.secret_id, ∀ off ∈ found.off_at,
    lease.expires_at ≤ off → lease.expires_at < now

/-- A request that goes on finds what it read: a lease is written on a credential that was not switched off, unless
its version moved; an act opens the version that was checked, agents still on; an update finds the columns it
writes as it read them; a key is pinned where there is none, or the same. -/
def Found : VaultRequest → Prop
  | .asking _ _ _ => True
  | .leasing row _ _ _ => ∀ found ∈ s.secrets row.id, found.version = row.version → found.endings = row.endings
  | .acting _ secret _ => ∀ found ∈ s.secrets secret.id, found.version = secret.version ∧ found.agent_access = true
  | .answered secret_id key => ∀ k ∈ key, ∀ found ∈ s.secrets secret_id, found.host_key = none ∨ found.host_key = some k
  | .updating current _ _ =>
    ∀ found ∈ s.secrets current.id, found.shown = current.shown ∧ found.sealed = current.sealed

/-- The interleavings in which no request goes on over what another has changed under it. -/
def Undisturbed : VaultOp → Prop
  | .exec _ claims _ now => s.Timely claims now
  | .introspect _ claims now => s.Timely claims now
  | .resume i _ _ => ∀ request ∈ s.flight[i]?, s.Found request
  | _ => True

instance (claims : Claims) (now : ℚ) : Decidable (s.Timely claims now) :=
  inferInstanceAs (Decidable (∀ lease ∈ s.leases, lease.jti = claims.jti → _))

instance : DecidablePred s.Found
  | .asking _ _ _ => .isTrue trivial
  | .leasing row _ _ _ =>
    inferInstanceAs (Decidable (∀ found ∈ s.secrets row.id, found.version = row.version → found.endings = row.endings))
  | .acting _ secret _ => inferInstanceAs (Decidable
      (∀ found ∈ s.secrets secret.id, found.version = secret.version ∧ found.agent_access = true))
  | .answered secret_id key => inferInstanceAs (Decidable
      (∀ k ∈ key, ∀ found ∈ s.secrets secret_id, found.host_key = none ∨ found.host_key = some k))
  | .updating current _ _ => inferInstanceAs (Decidable
      (∀ found ∈ s.secrets current.id, found.shown = current.shown ∧ found.sealed = current.sealed))

instance : DecidablePred s.Undisturbed
  | .exec _ claims _ now => inferInstanceAs (Decidable (s.Timely claims now))
  | .introspect _ claims now => inferInstanceAs (Decidable (s.Timely claims now))
  | .resume i _ _ => inferInstanceAs (Decidable (∀ request ∈ s.flight[i]?, s.Found request))
  | .create _ _ _ | .edit _ _ | .agent_access _ _ _ | .delete _ | .forget_host_key _ | .set_grant _ _ _
  | .ask _ _ _ | .revoke_lease _ | .runbook _ _ | .drop _ => .isTrue trivial

end Vault

/-- A lease that was issued under version `ver` is over where its credential stands now, or sees no end yet. -/
def Lease.Ends (l : Lease) (ver : ℕ) (r : Secret) : Prop :=
  l.endings = r.endings ∨ ver < r.version ∨ ∃ off, r.off_at = some off ∧ l.expires_at ≤ off

/-- A row of a lease later on: the same but that it may have been revoked. -/
def Lease.Becomes (l l' : Lease) : Prop :=
  l'.jti = l.jti ∧ l'.secret_id = l.secret_id ∧ l'.expires_at = l.expires_at ∧ l'.endings = l.endings ∧
    (l'.revoked = false → l.revoked = false)

theorem Lease.Becomes.rfl {l : Lease} : l.Becomes l := ⟨Eq.refl _, Eq.refl _, Eq.refl _, Eq.refl _, fun h => h⟩

theorem Lease.Becomes.ends {l l' : Lease} (h : l.Becomes l') (ver : ℕ) (r : Secret) : l'.Ends ver r ↔ l.Ends ver r := by
  obtain ⟨-, -, hexp, hend, -⟩ := h
  rw [Lease.Ends, Lease.Ends, hexp, hend]

namespace Vault
variable {s : Vault}

/-- Terms that a credential had are terms from before where it stands now. -/
def Since (s : Vault) (i : ℕ) (t : Terms) : Prop := i < s.next_secret ∧ ∀ r, s.secrets i = some r → t.Before r.terms

def Holds (s : Vault) : VaultRequest → Prop
  | .leasing row _ _ _ => s.Since row.id row.terms
  | .acting claims secret _ => s.Since secret.id secret.terms ∧ secret.terms = claims.terms
  | _ => True

structure Inv (s : Vault) : Prop where
  placed : ∀ i r, s.secrets i = some r → r.id = i ∧ i < s.next_secret
  signed : ∀ c ∈ s.issued, c.jti < s.issued.length ∧ s.Since c.sid c.terms
  listed : ∀ l ∈ s.leases, l.jti < s.issued.length
  ended : ∀ l ∈ s.leases, l.revoked = false → ∀ c ∈ s.issued, c.jti = l.jti → c.sid = l.secret_id →
    ∀ r, s.secrets c.sid = some r → l.Ends c.ver r
  waiting : ∀ q ∈ s.flight, s.Holds q
  right : ∀ d ∈ s.deeds, d.Right

theorem Inv.did (h : s.Inv) {d : Deed} (hd : d.Right) : (s.did d).Inv :=
  ⟨h.placed, h.signed, h.listed, h.ended, h.waiting, fun e he => by
    rcases List.mem_cons.mp he with rfl | he
    · exact hd
    · exact h.right e he⟩

theorem Inv.suspend (h : s.Inv) {q : VaultRequest} (hq : s.Holds q) : (s.suspend q).Inv :=
  ⟨h.placed, h.signed, h.listed, h.ended, fun p hp => by
    rcases List.mem_append.mp hp with hp | hp
    · exact h.waiting p hp
    · exact List.mem_singleton.mp hp ▸ hq, h.right⟩

theorem Inv.finish (h : s.Inv) (i : ℕ) : (s.finish i).Inv :=
  ⟨h.placed, h.signed, h.listed, h.ended, fun q hq => h.waiting q (List.mem_of_mem_eraseIdx hq), h.right⟩

/-- Leases may be revoked, or go. -/
theorem Inv.leases (h : s.Inv) {leases : List Lease} (hl : ∀ l' ∈ leases, ∃ l ∈ s.leases, l.Becomes l') :
    ({ s with leases := leases }).Inv := by
  refine ⟨h.placed, h.signed, fun l' hl' => ?_, fun l' hl' hr c hc hj hs r hsec => ?_, h.waiting, h.right⟩
  · obtain ⟨l, hmem, hjti, -⟩ := hl l' hl'
    exact hjti ▸ h.listed l hmem
  · obtain ⟨l, hmem, hb⟩ := hl l' hl'
    have ⟨hjti, hsid, _, _, hrev⟩ := hb
    exact (hb.ends c.ver r).mpr (h.ended l hmem (hrev hr) c hc (hj.trans hjti) (hs.trans hsid) r hsec)

theorem becomes_revoke {which : Lease → Bool} {now : ℚ} {l' : Lease} (h : l' ∈ (s.revoke which now).leases) :
    ∃ l ∈ s.leases, l.Becomes l' ∧ (which l → l'.revoked = false → l.expires_at ≤ now) := by
  obtain ⟨l, hl, rfl⟩ := List.mem_map.mp h
  refine ⟨l, hl, ?_⟩
  split
  · exact ⟨⟨rfl, rfl, rfl, rfl, nofun⟩, nofun⟩
  · next hn => exact ⟨.rfl, fun hw _ => not_lt.mp fun hlt => hn ⟨hw, hlt⟩⟩

theorem Inv.revoke (h : s.Inv) (which : Lease → Bool) (now : ℚ) : (s.revoke which now).Inv :=
  h.leases fun _ hl => by
    obtain ⟨l, hmem, hb, -⟩ := becomes_revoke hl
    exact ⟨l, hmem, hb⟩

theorem Inv.noc_revoke_lease (h : s.Inv) (lease_id : ℕ) : (s.noc_revoke_lease lease_id).Inv :=
  h.leases fun l' hl => by
    obtain ⟨l, hmem, rfl⟩ := List.mem_map.mp hl
    refine ⟨l, hmem, ?_⟩
    split
    · exact ⟨rfl, rfl, rfl, rfl, nofun⟩
    · exact .rfl

/-- A credential is written over, at terms its own come before, and each lease on it that goes on ends where it did. -/
theorem Inv.rewrite (h : s.Inv) {found written : Secret} (hf : s.secrets found.id = some found)
    (hid : written.id = found.id) (ht : found.terms.Before written.terms)
    (hl : ∀ l ∈ s.leases, l.revoked = false → l.secret_id = found.id → ∀ ver, ver ≤ found.version →
      l.Ends ver found → l.Ends ver written) : (s.put written).Inv := by
  have hsecrets (i : ℕ) (r : Secret) (hr : (s.put written).secrets i = some r) :
      s.secrets i = some r ∧ i ≠ found.id ∨ r = written ∧ i = found.id := by
    simp only [put, Function.update_apply, hid] at hr
    split at hr
    · next hi => exact .inr ⟨(Option.some.inj hr).symm, hi⟩
    · next hi => exact .inl ⟨hr, hi⟩
  have hsince {i : ℕ} {t : Terms} (hs : s.Since i t) : (s.put written).Since i t := by
    refine ⟨hs.1, fun r hr => ?_⟩
    rcases hsecrets i r hr with ⟨hr, -⟩ | ⟨rfl, rfl⟩
    · exact hs.2 r hr
    · exact (hs.2 found hf).trans ht
  refine ⟨fun i r hr => ?_, fun c hc => ⟨(h.signed c hc).1, hsince (h.signed c hc).2⟩, h.listed,
    fun l hmem hrev c hc hj hs r hr => ?_, fun q hq => ?_, h.right⟩
  · rcases hsecrets i r hr with ⟨hr, -⟩ | ⟨rfl, rfl⟩
    · exact h.placed i r hr
    · exact ⟨hid, (h.placed _ _ hf).2⟩
  · rcases hsecrets c.sid r hr with ⟨hr, -⟩ | ⟨rfl, hsid⟩
    · exact h.ended l hmem hrev c hc hj hs r hr
    · rw [← hsid] at hf
      exact hl l hmem hrev (hs.symm.trans hsid) c.ver ((h.signed c hc).2.2 found hf).2.1
        (h.ended l hmem hrev c hc hj hs found hf)
  · have hq := h.waiting q hq
    cases q with
    | leasing => exact hsince hq
    | acting => exact ⟨hsince hq.1, hq.2⟩
    | _ => trivial

/-- Nothing of a credential that a lease is issued under or ends by has changed. -/
theorem Inv.touch (h : s.Inv) {found written : Secret} (hf : s.secrets found.id = some found)
    (hid : written.id = found.id) (ht : written.terms = found.terms) (he : written.endings = found.endings)
    (ho : written.off_at = found.off_at) : (s.put written).Inv := by
  refine h.rewrite hf hid (ht ▸ .rfl) fun l _ _ _ ver _ hends => ?_
  have hver : written.version = found.version := congrArg Terms.version ht
  rwa [Lease.Ends, he, ho, hver]

theorem Inv.of_secret (h : s.Inv) {i : ℕ} {r : Secret} (hr : s.secrets i = some r) : s.secrets r.id = some r := by
  rwa [(h.placed i r hr).1]

theorem Inv.since (h : s.Inv) {i : ℕ} {r : Secret} (hr : s.secrets i = some r) : s.Since r.id r.terms := by
  have hr' := h.of_secret hr
  refine ⟨(h.placed _ _ hr').2, fun r' hr'' => ?_⟩
  obtain rfl : r = r' := Option.some.inj (hr'.symm.trans hr'')
  exact .rfl

theorem Inv.create (h : s.Inv) (ref : String) (body : Meta) (sealed : Sealed) :
    (s.noc_create_secret ref body sealed).Inv := by
  have hsecrets (i : ℕ) (r : Secret) (hr : (s.noc_create_secret ref body sealed).secrets i = some r) :
      s.secrets i = some r ∧ i < s.next_secret ∨ i = s.next_secret ∧ r.id = i := by
    simp only [noc_create_secret, put, Function.update_apply] at hr
    split at hr
    · next hi => exact .inr ⟨hi, hi ▸ (Option.some.inj hr) ▸ rfl⟩
    · exact .inl ⟨hr, (h.placed i r hr).2⟩
  have hsince {i : ℕ} {t : Terms} (hs : s.Since i t) : (s.noc_create_secret ref body sealed).Since i t := by
    refine ⟨Nat.lt_succ_of_lt hs.1, fun r hr => ?_⟩
    rcases hsecrets i r hr with ⟨hr, -⟩ | ⟨rfl, -⟩
    · exact hs.2 r hr
    · exact absurd hs.1 (lt_irrefl _)
  refine ⟨fun i r hr => ?_, fun c hc => ⟨(h.signed c hc).1, hsince (h.signed c hc).2⟩, h.listed,
    fun l hmem hrev c hc hj hs r hr => ?_, fun q hq => ?_, h.right⟩
  · rcases hsecrets i r hr with ⟨hr, hi⟩ | ⟨rfl, hid⟩
    · exact ⟨(h.placed i r hr).1, Nat.lt_succ_of_lt hi⟩
    · exact ⟨hid, Nat.lt_succ_self _⟩
  · rcases hsecrets c.sid r hr with ⟨hr, -⟩ | ⟨hsid, -⟩
    · exact h.ended l hmem hrev c hc hj hs r hr
    · exact absurd (hsid ▸ (h.signed c hc).2.1) (lt_irrefl _)
  · have hq := h.waiting q hq
    cases q with
    | leasing => exact hsince hq
    | acting => exact ⟨hsince hq.1, hq.2⟩
    | _ => trivial

theorem Inv.delete (h : s.Inv) (secret_id : ℕ) : (s.noc_delete_secret secret_id).Inv := by
  have hsecrets (i : ℕ) (r : Secret) (hr : (s.noc_delete_secret secret_id).secrets i = some r) :
      s.secrets i = some r := by
    simp only [noc_delete_secret, Function.update_apply] at hr
    split at hr
    · exact nomatch hr
    · exact hr
  have hsince {i : ℕ} {t : Terms} (hs : s.Since i t) : (s.noc_delete_secret secret_id).Since i t :=
    ⟨hs.1, fun r hr => hs.2 r (hsecrets i r hr)⟩
  refine ⟨fun i r hr => h.placed i r (hsecrets i r hr), fun c hc => ⟨(h.signed c hc).1, hsince (h.signed c hc).2⟩,
    fun l hl => h.listed l (List.mem_of_mem_filter hl), fun l hl hrev c hc hj hs r hr =>
      h.ended l (List.mem_of_mem_filter hl) hrev c hc hj hs r (hsecrets c.sid r hr), fun q hq => ?_, h.right⟩
  have hq := h.waiting q hq
  cases q with
  | leasing => exact hsince hq
  | acting => exact ⟨hsince hq.1, hq.2⟩
  | _ => trivial

theorem Inv.agent_access (h : s.Inv) (secret_id : ℕ) (enabled : Bool) (now : ℚ) :
    (s.agent_access secret_id enabled now).Inv := by
  unfold Vault.agent_access
  split
  · exact h
  · next found hf =>
    have hid := (h.placed _ _ hf).1
    subst hid
    cases enabled with
    | true => exact h.touch hf rfl rfl rfl rfl
    | false =>
      have hterms : found.terms.Before (noc_set_agent_access found false now).terms := .rfl
      refine (h.revoke _ now).rewrite hf rfl hterms fun l hl hrev hsid ver _ _ => ?_
      obtain ⟨l₀, -, hb, hexp⟩ := becomes_revoke hl
      refine .inr (.inr ⟨now, rfl, ?_⟩)
      have hold := hexp (by simpa using hb.2.1.symm.trans hsid) hrev
      rwa [hb.2.2.1]

theorem Inv.lease (h : s.Inv) {row : Secret} (hs : s.Since row.id row.terms) (subject : String) (ttl_s : ℕ) (now : ℚ)
    (hg : ∀ found ∈ s.secrets row.id, found.version = row.version → found.endings = row.endings) :
    ({ s.noc_create_lease (claims_of s.issued.length row subject ttl_s now) row.endings now with
      issued := s.issued ++ [claims_of s.issued.length row subject ttl_s now] }).Inv := by
  have hlen : (s.issued ++ [claims_of s.issued.length row subject ttl_s now]).length = s.issued.length + 1 := by simp
  refine ⟨h.placed, fun c hc => ?_, fun l hl => ?_, fun l hl hrev c hc hj hsid r hr => ?_, h.waiting, h.right⟩
  · rw [hlen]
    rcases List.mem_append.mp hc with hc | hc
    · exact ⟨Nat.lt_succ_of_lt (h.signed c hc).1, (h.signed c hc).2⟩
    · obtain rfl := List.mem_singleton.mp hc
      exact ⟨Nat.lt_succ_self _, hs⟩
  · rw [hlen]
    rcases List.mem_append.mp hl with hl | hl
    · exact Nat.lt_succ_of_lt (h.listed l (List.mem_of_mem_filter hl))
    · obtain rfl := List.mem_singleton.mp hl
      exact Nat.lt_succ_self _
  · rcases List.mem_append.mp hl with hl | hl <;> rcases List.mem_append.mp hc with hc | hc
    · exact h.ended l (List.mem_of_mem_filter hl) hrev c hc hj hsid r hr
    · obtain rfl := List.mem_singleton.mp hc
      exact absurd (h.listed l (List.mem_of_mem_filter hl)) (by rw [← hj]; exact lt_irrefl _)
    · obtain rfl := List.mem_singleton.mp hl
      exact absurd (h.signed c hc).1 (by rw [hj]; exact lt_irrefl _)
    · obtain rfl := List.mem_singleton.mp hc
      obtain rfl := List.mem_singleton.mp hl
      rcases (hs.2 r hr).2.1.eq_or_lt with hver | hver
      · exact .inl (hg r hr hver.symm).symm
      · exact .inr (.inl hver)

/-- What a lease that passes its check has shown. -/
structure Usable (s : Vault) (claims : Claims) (now : ℚ) (lease : Lease) (secret : Secret) : Prop where
  signed : claims ∈ s.issued
  listed : lease ∈ s.leases
  jti : lease.jti = claims.jti
  sid : lease.secret_id = claims.sid
  unrevoked : lease.revoked = false
  unexpired : now ≤ lease.expires_at
  found : s.secrets claims.sid = some secret
  agent_access : secret.agent_access = true
  version : secret.version = claims.ver
  agent : claims.sub ∈ s.agents

variable {claims : Claims} {now : ℚ} {lease : Lease} {secret : Secret}

theorem usable_of_lease_state {caller : Caller}
    (h : lease_state s caller claims now = .ok (lease, secret)) : s.Usable claims now lease secret := by
  have hsigned : claims ∈ s.issued := by
    by_contra hn
    simp [lease_state, decode, hn] at h
  unfold lease_state at h
  split at h
  · cases h
  · split at h
    · cases h
    · next row hrow =>
      split_ifs at h with hsid hcaller hrev hexp hagent
      · split at h
        · cases h
        · next found hfound =>
          split_ifs at h with hoff
          obtain ⟨rfl, rfl⟩ : row = lease ∧ found = secret := by simpa using h
          have hjti := List.find?_some hrow
          exact ⟨hsigned, List.mem_of_find?_eq_some hrow, by simpa using hjti, not_not.mp hsid, by simpa using hrev,
            not_lt.mp hexp, hfound, by simpa using (not_or.mp hoff).1, not_not.mp (not_or.mp hoff).2, hagent⟩
      · split at h
        · cases h
        · split_ifs at h

theorem Inv.used (h : s.Inv)
    (hu : s.Usable claims now lease secret) (ht : s.Timely claims now) : (Deed.used lease secret).Right := by
  rcases h.ended lease hu.listed hu.unrevoked claims hu.signed hu.jti.symm hu.sid.symm secret hu.found with
    he | hver | ⟨off, hoff, hexp⟩
  · exact he
  · exact absurd hu.version hver.ne'
  · exact absurd (ht lease hu.listed hu.jti secret (hu.sid ▸ hu.found) off hoff hexp) (not_lt.mpr hu.unexpired)

theorem Inv.terms_eq (h : s.Inv)
    (hu : s.Usable claims now lease secret) : secret.terms = claims.terms :=
  (((h.signed claims hu.signed).2.2 secret hu.found).eq hu.version.symm).symm

theorem Inv.exec (h : s.Inv) (agent : String) {claims : Claims} (action : Action) {now : ℚ}
    (ht : s.Timely claims now) : (s.exec agent claims action now).Inv := by
  unfold Vault.exec
  split
  · exact h
  · next lease secret hstate =>
    have hu := usable_of_lease_state hstate
    have hterms := h.terms_eq hu
    have hchecked := h.did (h.used hu ht)
    have hsince := h.since hu.found
    have hacted : (Deed.acted claims secret).Right := ⟨hterms, hu.agent_access⟩
    dsimp only
    split_ifs
    · exact (hchecked.did hacted).suspend trivial
    · exact hchecked.suspend ⟨hsince, hterms⟩
    · exact hchecked

theorem Inv.introspect (h : s.Inv) (caller : Caller) {claims : Claims} {now : ℚ} (ht : s.Timely claims now) :
    (s.introspect caller claims now).Inv := by
  unfold Vault.introspect
  split
  · exact h
  · next hstate => exact h.did (h.used (usable_of_lease_state hstate) ht)

theorem Inv.runbook (h : s.Inv) (secret_id : ℕ) (key : Option HostKey) : (s.runbook secret_id key).Inv := by
  unfold Vault.runbook
  split
  · exact h
  · split
    · exact h.suspend trivial
    · exact h

theorem Inv.ask (h : s.Inv) (subject : String) (secret_id ttl_s : ℕ) : (s.ask subject secret_id ttl_s).Inv := by
  unfold Vault.ask
  split
  · exact h
  · exact h.suspend trivial

theorem Inv.edit (h : s.Inv) (secret_id : ℕ) (body : SecretIn) : (s.edit secret_id body).Inv := by
  unfold Vault.edit
  split
  · exact h
  · split
    · exact h
    · exact h.suspend trivial

theorem Inv.forget_host_key (h : s.Inv) (secret_id : ℕ) : (s.forget_host_key secret_id).Inv := by
  unfold Vault.forget_host_key
  split
  · exact h
  · next found hf =>
    have hterms : { found with host_key := none }.terms = found.terms := rfl
    exact h.touch (h.of_secret hf) rfl hterms rfl rfl

/-- An update that finds the columns it writes as it read them moves the host with the version. -/
theorem before_update {current found : Secret} (body : SecretIn) (sealed : Sealed) (hf : found.shown = current.shown) :
    found.terms.Before (noc_update_secret current found body sealed).terms := by
  refine ⟨rfl, Nat.le_add_right _ _, fun he => ?_⟩
  show found.shown.host = body.shown.host
  have hkept : ¬ resealed current body = true := fun hr => by
    simp [Secret.terms, noc_update_secret, hr] at he
  rw [hf]
  by_contra hne
  exact hkept (by simp [resealed, rebound, hne])

theorem Inv.update (h : s.Inv) {current found : Secret} (body : SecretIn) (sealed : Sealed) (now : ℚ)
    (hf : s.secrets current.id = some found) (hcur : found.shown = current.shown ∧ found.sealed = current.sealed) :
    (let written := noc_update_secret current found body sealed
      let updated := (s.put written).did (.updated current found written)
      if resealed current body then updated.noc_revoke_secret_leases current.id now else updated).Inv := by
  have hput : (s.put (noc_update_secret current found body sealed)).Inv := by
    by_cases hr : resealed current body = true
    · refine h.rewrite (h.of_secret hf) rfl (before_update body sealed hcur.1) fun l _ _ _ ver hver _ => ?_
      refine .inr (.inl ?_)
      simp only [noc_update_secret, hr, if_true]
      omega
    · refine h.rewrite (h.of_secret hf) rfl (before_update body sealed hcur.1) fun l _ _ _ ver _ hends => ?_
      simpa [Lease.Ends, noc_update_secret, hr] using hends
  have hright : (Deed.updated current found (noc_update_secret current found body sealed)).Right := by
    intro c _
    cases c <;> simp [Secret.cell, hcur]
  dsimp only
  split
  · exact (hput.did hright).revoke _ now
  · exact hput.did hright

theorem Inv.resume (h : s.Inv) (i : ℕ) (key : Option HostKey) (now : ℚ)
    (hg : ∀ request ∈ s.flight[i]?, s.Found request) : (s.resume i key now).Inv := by
  have hfin := h.finish i
  unfold Vault.resume
  split
  · exact h
  · split
    · exact hfin
    · next row hrow =>
      split
      · exact hfin
      · exact hfin.suspend (q := .leasing row _ _ now) (hfin.since hrow)
  · next row subject ttl_s asked hq =>
    split
    · exact hfin
    · exact hfin.lease (h.waiting _ (List.mem_of_getElem? hq)) subject ttl_s asked (hg _ hq)
  · next claims secret action hq =>
    split
    · exact hfin
    · next row hrow =>
      split
      · exact hfin
      · have hhold := h.waiting _ (List.mem_of_getElem? hq)
        obtain ⟨hver, hon⟩ := hg _ hq row hrow
        have hterms : secret.terms = row.terms := (hhold.1.2 row hrow).eq hver.symm
        exact (hfin.did (d := .acted claims row) ⟨hterms.symm.trans hhold.2, hon⟩).suspend trivial
  · next secret_id key hq =>
    split
    · exact hfin
    · next found hf =>
      have hright : (Deed.pinned found.host_key key).Right := hg _ hq key rfl found hf
      have hput : ((s.finish i).put { found with host_key := some key }).Inv :=
        hfin.touch (hfin.of_secret hf) rfl rfl rfl rfl
      exact hput.did hright
  · exact hfin
  · next current body sealed hq =>
    split
    · exact hfin
    · next found hf => exact hfin.update body sealed now hf (hg _ hq found hf)

theorem Inv.step (h : s.Inv) (op : VaultOp) (hg : s.Undisturbed op) : (s.step op).Inv := by
  cases op with
  | create ref body fields => exact h.create ref body _
  | edit secret_id body => exact h.edit secret_id body
  | agent_access secret_id enabled now => exact h.agent_access secret_id enabled now
  | delete secret_id => exact h.delete secret_id
  | forget_host_key secret_id => exact h.forget_host_key secret_id
  | set_grant subject enabled now =>
    have hgrant : (s.noc_set_grant subject enabled).Inv :=
      ⟨h.placed, h.signed, h.listed, h.ended, h.waiting, h.right⟩
    cases enabled with
    | true => exact hgrant
    | false => exact hgrant.revoke _ now
  | ask subject secret_id ttl_s => exact h.ask subject secret_id ttl_s
  | exec agent claims action now => exact h.exec agent action hg
  | introspect caller claims now => exact h.introspect caller hg
  | revoke_lease lease_id => exact h.noc_revoke_lease lease_id
  | runbook secret_id key => exact h.runbook secret_id key
  | resume i key now => exact h.resume i key now hg
  | drop i => exact h.finish i

theorem Inv.start : ({} : Vault).Inv where
  placed _ _ h := nomatch h
  signed _ h := nomatch h
  listed _ h := nomatch h
  ended _ h := nomatch h
  waiting _ h := nomatch h
  right _ h := nomatch h

/-- Every deed of a run is right. -/
def Kept (ops : List VaultOp) : Prop := ∀ d ∈ (Runs.run step {} ops).deeds, d.Right

instance : DecidablePred Kept := fun ops => inferInstanceAs (Decidable (∀ d ∈ (Runs.run step {} ops).deeds, d.Right))

/-- Where no request goes on over what another changed under it, every act opens the credential of its lease, no lease
outlives a switch-off or a change, no update reverts another and no act replaces a pinned key. -/
theorem run_right (ops : List VaultOp) (h : Runs.Meets step Undisturbed {} ops) : Kept ops := by
  have hstep : ∀ (s : Vault) (op : VaultOp), s.Inv → s.Undisturbed op → (s.step op).Inv := fun _ op hs => hs.step op
  exact (Runs.run_invariant hstep {} ops Inv.start h).right

end Vault

def router (host : String) : Meta := { name := "edge router", kind := .ssh_password, host, port := 22 }

def router_claims (jti : ℕ) (now : ℚ) : Claims :=
  claims_of jti { id := 1, ref := "5f1c", shown := router "10.0.0.1", sealed := ⟨binding "5f1c" (router "10.0.0.1"), []⟩ }
    "token:7" 900 now

/-- A router's credential, switched on for agents, and an agent that asks for a lease on it and has it read. -/
def asked : List VaultOp :=
  [.create "5f1c" (router "10.0.0.1") [("password", "old")], .agent_access 1 true 990, .set_grant "token:7" true 995,
    .ask "token:7" 1 900, .resume 0 none 1000]

def leased : List VaultOp := asked ++ [.resume 0 none 1000]

def key_a : HostKey := ⟨"ssh-ed25519 AAAA", by decide⟩

def key_b : HostKey := ⟨"ssh-ed25519 BBBB", by decide⟩

/-- A lease is used and its act pins the device's key; the credential moves to another host, agents go off and on, and
the agent leases it again. -/
def interleaved : List VaultOp := leased ++
  [.exec "token:7" (router_claims 0 1000) .ssh 1010, .edit 1 ⟨router "10.0.0.2", none⟩, .resume 0 (some key_a) 1011,
    .resume 1 none 1012, .resume 0 none 1013, .exec "token:7" (router_claims 0 1000) .ssh 1014,
    .agent_access 1 false 1015, .agent_access 1 true 1016, .ask "token:7" 1 900, .resume 0 none 1020,
    .resume 0 none 1020, .introspect { ref := "token:7" } { router_claims 1 1020 with ver := 2, host := "10.0.0.2" } 1030]

theorem run_right_interleaved : Vault.Kept interleaved ∧ (Runs.run Vault.step {} interleaved).deeds.length = 5 :=
  ⟨Vault.run_right interleaved (by decide +kernel), by decide +kernel⟩

/-- The credential moves to another host between the check of its lease and the act. -/
def misdirected : List VaultOp := leased ++
  [.exec "token:7" (router_claims 0 1000) .ssh 1010, .edit 1 ⟨router "10.0.0.2", none⟩, .resume 1 none 1011,
    .resume 0 none 1012]

/-- Agents go off and on while a lease waits for its write. -/
def outlived : List VaultOp := asked ++
  [.agent_access 1 false 1001, .agent_access 1 true 1002, .resume 0 none 1003,
    .introspect { ref := "token:7" } (router_claims 0 1000) 1010]

/-- A new password is written while a change of the description waits for its step-up. -/
def reverted : List VaultOp :=
  [.create "5f1c" (router "10.0.0.1") [("password", "old")],
    .edit 1 ⟨{ router "10.0.0.1" with description := "rack 4" }, none⟩,
    .edit 1 ⟨router "10.0.0.1", some [("password", "new")]⟩, .resume 1 none 1001, .resume 0 none 1002]

/-- Two acts see no pinned key, and two keys. -/
def repinned : List VaultOp := leased ++
  [.exec "token:7" (router_claims 0 1000) .ssh 1010, .exec "token:7" (router_claims 0 1000) .ssh 1010,
    .resume 0 (some key_a) 1011, .resume 0 (some key_b) 1012, .resume 0 none 1013, .resume 0 none 1014]

theorem disturbed_wrong : ¬ Vault.Kept misdirected ∧ ¬ Vault.Kept outlived ∧ ¬ Vault.Kept reverted ∧
    ¬ Vault.Kept repinned := by
  decide +kernel

end NetCoreNoc.Noc
