import Mathlib
import NetCoreNoc.Identity.Sealing
import NetCoreNoc.Origins

/-! The database that nothing is sealed in, and that the sealed one reads as it. -/
namespace NetCoreNoc.Sealing
open Json Tables Runs
open Policies.Snmp (hex)

/-- An account as its readers see it. -/
structure Named where
  email : Option Str := none
  display_name : Option Str := none
  deriving DecidableEq

/-- What the database holds, as its readers see it. -/
structure Plain where
  people : Table ℕ Named := .empty
  photos : Table ℕ Bytes := .empty
  settings : Table Str Str := .empty
  last_audit : ℕ := 0
  running : Bool := false

/-- A text with a surrogate is not written. -/
def writable : Option Str → Bool
  | none => true
  | some value => (encodeUtf8 value).isSome

namespace Plain
variable (c : Primitives) (q : Plain)

def set_person (id : ℕ) (f : Named → Named) : Plain := { q with people := q.people.update (fun k _ => k = id) f }

def put (key value : Str) : Plain := { q with settings := q.settings.upsert key value fun _ => value }

def write : Write → Plain
  | .create_user id => match q.people.insert id {} with
    | some people => { q with people }
    | none => q
  | .delete_user id => { q with
      people := q.people.delete fun k _ => k = id
      photos := q.photos.delete fun k _ => k = id }
  | .set_user_email id email _ => if writable email then q.set_person id fun n => { n with email } else q
  | .set_display_name id display_name _ => if writable display_name then q.set_person id fun n => { n with display_name } else q
  | .put_avatar id image _ =>
    if (q.people.get id).isSome then { q with photos := q.photos.upsert id image fun _ => image } else q
  | .delete_avatar id => { q with photos := q.photos.delete fun k _ => k = id }
  | .set_meta key value _ => if key.val ∈ SECRET_META ∧ ¬ writable (some value) then q else q.put key value
  | .del_meta key => { q with settings := q.settings.delete fun k _ => k = key.val }
  | .community_hmac_key key _ =>
    if (q.settings.get COMMUNITY_HMAC_KEY).isSome then q else q.put COMMUNITY_HMAC_KEY (hex key)
  | .audit => { q with last_audit := q.last_audit + 1 }

/-- The first key to start the appliance is the only one that does. -/
def step : Act → Plain
  | .start key _ => match Vault.from_key c key with
    | .error _ => { q with running := false }
    | .ok v => match q.settings.get KID_META with
      | none =>
        { (q.put KID_META (hex v.kid)).put AUDIT_ANCHOR_META (natText (q.last_audit + 1)) with running := true }
      | some kid => { q with running := kid = hex v.kid }
  | .stop => { q with running := false }
  | .write w => if q.running then q.write w else q

end Plain

/-! How the two stand to each other -/

def SECRETS : List Str := AUDIT_ANCHOR_META :: SECRET_META

section Relation
variable (c : Primitives) (v : Vault)

/-- A column that holds a token, which opens to the text. -/
def Opens (place : Str) (stored value : Option Str) : Prop :=
  Option.Rel (fun token text => is_sealed token ∧ v.open_text c place token = .ok text) stored value

variable {c v} in
theorem no_text {place : Str} : Opens c v place none none := .none

def Account (_ : ℕ) (u : Person) (n : Named) : Prop :=
  Opens c v EMAIL u.email n.email ∧ u.email_index = email_index c v n.email ∧ Opens c v DISPLAY_NAME u.display_name n.display_name

def Photo (_ : ℕ) (stored image : Bytes) : Prop := is_sealed_bytes stored ∧ open_bytes c v AVATAR stored = .ok image

def Entry (key stored value : Str) : Prop :=
  if key ∈ SECRETS then is_sealed stored ∧ v.open_text c (place_of key) stored = .ok value else stored = value

/-- Everything that is to be sealed is, and opens to what it stands for. -/
structure Holds (db : Database) (q : Plain) : Prop where
  people : Table.Related (Account c v) db.app_user q.people
  photos : Table.Related (Photo c v) db.user_avatar q.photos
  settings : Table.Related (Entry c v) db.meta_table q.settings
  last_audit : db.last_audit = q.last_audit
  owner : q.settings.get KID_META = some (hex v.kid)

end Relation

/-- A text that an earlier release wrote. -/
def Unsealed (value : Option Str) : Prop := ∀ s, value = some s → ¬ is_sealed s ∧ (encodeUtf8 s).isSome

/-- The database of an earlier release, which sealed nothing. -/
structure Earlier (db : Database) (q : Plain) : Prop where
  people : Table.Related (fun _ u n => u = { email := n.email, display_name := n.display_name } ∧
    Unsealed n.email ∧ Unsealed n.display_name) db.app_user q.people
  photos : Table.Related (fun _ stored image => stored = image ∧ ¬ is_sealed_bytes stored) db.user_avatar q.photos
  settings : Table.Related (fun key stored value => stored = value ∧ (key ∈ SECRETS → Unsealed (some stored)))
    db.meta_table q.settings
  last_audit : db.last_audit = q.last_audit
  kid : db.meta_table.get KID_META = none
  anchor : db.meta_table.get AUDIT_ANCHOR_META = none

/-! What is sealed opens -/

theorem encodeStr_append (s t : Str) : encodeStr (s ++ t) = encodeStr s ++ encodeStr t := by
  rw [encodeStr, List.flatMap_append, List.map_append]
  rfl

theorem decode_ascii_encode {s : Str} (h : ∀ c ∈ s, Ascii c) : decode_ascii (encodeStr s) = some s := by
  have hbyte (c : CodePoint) (hc : c ∈ s) : (UInt8.ofNat c.val).toNat = c.val := by
    rw [UInt8.toNat_ofNat']
    exact Nat.mod_eq_of_lt (by have := (h c hc).2; omega)
  rw [encodeStr_ascii h, decode_ascii, if_pos]
  · rw [List.map_map]
    congr 1
    conv_rhs => rw [← List.map_id s]
    apply List.map_congr_left
    intro c hc
    show Fin.ofNat _ (UInt8.ofNat c.val).toNat = c
    rw [hbyte c hc, Fin.ofNat_val_eq_self]
  · rw [List.all_map]
    exact List.all_eq_true.mpr fun c hc => decide_eq_true (ascii_byte (h c hc)).2

section Columns
variable {c : Primitives} (hc : c.Lawful) {v : Vault} (hv : v.kid.length = KID) (nonce : Nonce) (place : Str)
include hc hv

theorem seal_value_opens {value : Str} (h : writable (some value)) :
    ∃ token, v.seal_text c nonce place value = .ok token ∧ is_sealed token ∧ v.open_text c place token = .ok value := by
  obtain ⟨data, hdata⟩ := Option.isSome_iff_exists.mp h
  have hseal : v.seal_text c nonce place value = .ok (v.sealed c nonce place data) := by
    rw [Vault.seal_text, hdata]
  exact ⟨_, hseal, is_sealed_sealed c v nonce place data, Vault.open_seal_text hc hv nonce hseal⟩

theorem seal_text_opens {value : Option Str} (h : writable value) :
    ∃ stored, seal_text c v nonce place value = .ok stored ∧ Opens c v place stored value := by
  cases value with
  | none => exact ⟨none, rfl, .none⟩
  | some value =>
    obtain ⟨token, hseal, hopens⟩ := seal_value_opens hc hv nonce place h
    refine ⟨some token, ?_, .some hopens⟩
    rw [seal_text, hseal]
    rfl

omit hc hv in
theorem seal_value_refused {value : Str} (h : ¬ writable (some value)) :
    v.seal_text c nonce place value = .error .UnicodeError := by
  have hnone : encodeUtf8 value = none := by simpa [writable] using h
  rw [Vault.seal_text, hnone]

omit hc hv in
theorem seal_text_refused {value : Option Str} (h : ¬ writable value) :
    ∃ e, seal_text c v nonce place value = .error e := by
  cases value with
  | none => exact absurd rfl h
  | some value =>
    exact ⟨_, by rw [seal_text, seal_value_refused nonce place h]; rfl⟩

omit hc hv in
theorem open_text_opens {stored value : Option Str} (h : Opens c v place stored value) :
    open_text c v place stored = .ok value := by
  cases h with
  | none => rfl
  | some h =>
    rw [open_text, if_pos h.1, h.2]
    rfl

omit hc hv in
theorem open_text_unsealed {value : Option Str} (h : Unsealed value) : open_text c v place value = .ok value := by
  cases value with
  | none => rfl
  | some s => exact if_neg (h s rfl).1

omit hc hv in
theorem is_sealed_seal_bytes (data : Bytes) : is_sealed_bytes (seal_bytes c v nonce place data) := by
  rw [is_sealed_bytes, seal_bytes, Vault.sealed, encodeStr_append]
  exact List.isPrefixOf_iff_prefix.mpr (List.prefix_append _ _)

theorem open_seal_bytes (data : Bytes) : open_bytes c v place (seal_bytes c v nonce place data) = .ok data := by
  have hascii : decode_ascii (seal_bytes c v nonce place data) = some (v.sealed c nonce place data) :=
    decode_ascii_encode (sealed_ascii c v nonce place data)
  rw [open_bytes, if_pos (is_sealed_seal_bytes nonce place data), hascii]
  exact Vault.opened_sealed hc hv nonce data

end Columns

/-! The writes -/

theorem hex_writable (b : Bytes) : writable (some (hex b)) := by
  rw [writable, (Policies.Snmp.low_hex b).encode]
  rfl

theorem natText_writable (n : ℕ) : writable (some (natText n)) := by
  have hlow : Policies.Snmp.Low (natText n) := by
    intro x hx
    have hdigit := List.filter_eq_self.mp (filter_natText n) x hx
    simp only [isDigit, decide_eq_true_eq] at hdigit
    omega
  rw [writable, hlow.encode]
  rfl

section Writes
variable {c : Primitives} (hc : c.Lawful) {v : Vault} (hv : v.kid.length = KID) {db : Database} {q : Plain}
  (h : Holds c v db q)
include h

private theorem Holds.set_user {id : ℕ} {f : Person → Person} {g : Named → Named}
    (hfg : ∀ u n, Account c v id u n → Account c v id (f u) (g n)) :
    Holds c v (db.set_user id f) (q.set_person id g) := { h with
  people := h.people.update (fun _ _ _ _ => rfl) fun _ u n hun _ => hfg u n hun }

private theorem Holds.put {key stored value : Str} (hkey : key ≠ KID_META) (hvalue : Entry c v key stored value) :
    Holds c v (db.put key stored) (q.put key value) := { h with
  settings := h.settings.put hvalue
  owner := (Table.get_upsert_of_ne _ _ _ _ _ (Ne.symm hkey)).trans h.owner }

private theorem Holds.put_secret {key value stored : Str} (hkey : key ≠ KID_META) (hsecret : key ∈ SECRETS)
    (hstored : is_sealed stored ∧ v.open_text c (place_of key) stored = .ok value) :
    Holds c v (db.put key stored) (q.put key value) := by
  apply h.put hkey
  rw [Entry, if_pos hsecret]
  exact hstored

include hc hv

/-- What a write does to the sealed database is what it does to the plain one, also where it is refused. -/
theorem write_holds (w : Write) : Holds c v ((db.write c v w).toOption.getD db) (q.write w) := by
  cases w with
  | create_user id =>
    rcases h.people.insert (k := id) (v := {}) (w := {}) ⟨no_text, rfl, no_text⟩ with ⟨hdb, hq⟩ | ⟨t, u, hdb, hq, htu⟩
    · simp only [Database.write, Plain.write, hdb, hq]
      exact h
    · simp only [Database.write, Plain.write, hdb, hq]
      exact { h with people := htu }
  | delete_user id => exact { h with people := h.people.delete, photos := h.photos.delete }
  | set_user_email id email nonce =>
    by_cases hw : writable email
    · obtain ⟨stored, hstored, hopens⟩ := seal_text_opens hc hv nonce EMAIL hw
      simp only [Database.write, Database.set_user_email, hstored, Plain.write, hw, if_true]
      exact h.set_user fun u n hun => ⟨hopens, rfl, hun.2.2⟩
    · obtain ⟨e, he⟩ := seal_text_refused (c := c) (v := v) nonce EMAIL hw
      simp only [Database.write, Database.set_user_email, he, Plain.write, hw]
      exact h
  | set_display_name id name nonce =>
    by_cases hw : writable name
    · obtain ⟨stored, hstored, hopens⟩ := seal_text_opens hc hv nonce DISPLAY_NAME hw
      simp only [Database.write, Database.set_display_name, hstored, Plain.write, hw, if_true]
      exact h.set_user fun u n hun => ⟨hun.1, hun.2.1, hopens⟩
    · obtain ⟨e, he⟩ := seal_text_refused (c := c) (v := v) nonce DISPLAY_NAME hw
      simp only [Database.write, Database.set_display_name, he, Plain.write, hw]
      exact h
  | put_avatar id image nonce =>
    simp only [Database.write, Database.put_avatar, Plain.write, h.people.isSome id]
    split
    · exact { h with photos := h.photos.put ⟨is_sealed_seal_bytes nonce AVATAR image, open_seal_bytes hc hv nonce AVATAR image⟩ }
    · exact h
  | delete_avatar id => exact { h with photos := h.photos.delete }
  | set_meta key value nonce =>
    by_cases hsecret : key.val ∈ SECRET_META
    · by_cases hw : writable (some value)
      · obtain ⟨token, hseal, hopens⟩ := seal_value_opens hc hv nonce (place_of key.val) hw
        simp only [Database.write, Database.set_meta, hsecret, if_true, hseal, Plain.write, hw, not_true_eq_false,
          and_false, if_false]
        exact h.put_secret key.property.1 (List.mem_cons_of_mem _ hsecret) hopens
      · simp only [Database.write, Database.set_meta, hsecret, if_true, seal_value_refused nonce _ hw, Plain.write, hw]
        exact h
    · simp only [Database.write, Database.set_meta, hsecret, if_false, Plain.write, false_and]
      refine h.put key.property.1 ?_
      have hnot : key.val ∉ SECRETS := fun hmem => (List.mem_cons.mp hmem).elim key.property.2 hsecret
      rw [Entry, if_neg hnot]
  | del_meta key => exact { h with
      settings := h.settings.delete
      owner := by
        refine (Table.get_delete _ _ _).trans ?_
        rw [h.owner, Option.filter_some, if_pos]
        simpa using key.property.1.symm }
  | community_hmac_key key nonce =>
    simp only [Database.write, Database.community_hmac_key, Plain.write, h.settings.isSome]
    split
    · exact h
    · have hw : writable (some (hex key)) := hex_writable key
      obtain ⟨token, hseal, hopens⟩ := seal_value_opens hc hv nonce (place_of COMMUNITY_HMAC_KEY) hw
      simp only [hseal]
      exact h.put_secret (by decide) (by decide) hopens
  | audit => exact { h with last_audit := congrArg (· + 1) h.last_audit }

end Writes

/-! The start -/

section Starts
variable {c : Primitives} (hc : c.Lawful) {v : Vault} (hv : v.kid.length = KID) {db : Database} {q : Plain}
  (draw : Database.Draw)

theorem Unsealed.writable {value : Option Str} (h : Unsealed value) : writable value := by
  cases value with
  | none => rfl
  | some s => exact (h s rfl).2

theorem Opens.not_plain {place : Str} {stored value : Option Str} (h : Opens c v place stored value) :
    ¬ Database.plain stored := by
  cases h with
  | none => exact Bool.false_ne_true
  | some h => simpa [Database.plain] using h.1

theorem not_plain_unsealed {value : Option Str} (h : Unsealed value) (hp : ¬ Database.plain value) : value = none := by
  cases value with
  | none => rfl
  | some s => exact absurd (by simpa [Database.plain] using h s rfl |>.1) hp

theorem Opens.isSome {place : Str} {stored value : Option Str} (h : Opens c v place stored value) :
    stored.isSome = value.isSome := by
  cases h <;> rfl

variable {draw} in
theorem seal_plaintext_eq {app_user : Table ℕ Person} {user_avatar : Table ℕ Bytes} {meta_table : Table Str Str}
    (hpeople : db.app_user.rewriteWhere Database.unsealed (Database.seal_person c v draw) = .ok app_user)
    (hphotos : db.user_avatar.rewriteWhere (fun _ image => !is_sealed_bytes image)
      (fun id image => Except.ok (ε := Raised) (seal_bytes c v (draw AVATAR id) AVATAR image)) = .ok user_avatar)
    (hmeta : db.meta_table.rewriteWhere Database.unsealed_secret
      (fun key value => v.seal_text c (draw key 0) (place_of key) value) = .ok meta_table) :
    db.seal_plaintext c v draw = .ok ({ db with app_user, user_avatar, meta_table }, db.count_unsealed) := by
  rw [Database.seal_plaintext, hpeople, hphotos, hmeta]
  rfl

/-- Where everything is sealed, a start seals nothing. -/
theorem seal_plaintext_holds (h : Holds c v db q) (w : Vault) : db.seal_plaintext c w draw = .ok (db, 0) := by
  have hpeople (k : ℕ) (u : Person) (hu : db.app_user.get k = some u) : ¬ Database.unsealed k u := by
    obtain ⟨n, -, hemail, hindex, hname⟩ := h.people.row hu
    have hdigest : ¬ (u.email.isSome && u.email_index.isNone) := by
      rw [hindex, hemail.isSome, email_index]
      cases n.email <;> exact Bool.false_ne_true
    simp only [Database.unsealed, Bool.or_eq_true, not_or]
    exact ⟨⟨hemail.not_plain, hname.not_plain⟩, hdigest⟩
  have hphotos (k : ℕ) (image : Bytes) (hi : db.user_avatar.get k = some image) : ¬ !is_sealed_bytes image := by
    obtain ⟨n, -, hsealed, -⟩ := h.photos.row hi
    simpa using hsealed
  have hmeta (key value : Str) (hm : db.meta_table.get key = some value) : ¬ Database.unsealed_secret key value := by
    obtain ⟨n, -, hsealed⟩ := h.settings.row hm
    intro hunsealed
    obtain ⟨hkey, hplain⟩ := Bool.and_eq_true_iff.mp hunsealed
    have hsecret : key ∈ SECRETS := List.mem_cons_of_mem _ (of_decide_eq_true hkey)
    rw [Entry, if_pos hsecret] at hsealed
    simp [hsealed.1] at hplain
  have hcount {K V : Type} [DecidableEq K] {t : Table K V} {p : K → V → Bool} (hp : ∀ k x, t.get k = some x → ¬ p k x) :
      (t.entries.filter fun e => p e.1 e.2) = [] :=
    List.filter_eq_nil_iff.mpr fun e he => hp e.1 e.2 ((t.get_eq_some e.1).mpr he)
  have hnone : db.count_unsealed = 0 := by
    rw [Database.count_unsealed, hcount hpeople, hcount hphotos, hcount hmeta]
    rfl
  rw [seal_plaintext_eq (Table.rewriteWhere_none hpeople) (Table.rewriteWhere_none hphotos)
    (Table.rewriteWhere_none hmeta), hnone]

include hc hv

theorem seal_person_opens (id : ℕ) {n : Named} (hemail : Unsealed n.email) (hname : Unsealed n.display_name) :
    ∃ u, Database.seal_person c v draw id { email := n.email, display_name := n.display_name } = .ok u ∧ Account c v id u n := by
  obtain ⟨email, he, heopens⟩ := seal_text_opens hc hv (draw EMAIL id) EMAIL hemail.writable
  obtain ⟨name, hn, hnopens⟩ := seal_text_opens hc hv (draw DISPLAY_NAME id) DISPLAY_NAME hname.writable
  refine ⟨{ email, email_index := email_index c v n.email, display_name := name }, ?_, heopens, rfl, hnopens⟩
  simp only [Database.seal_person, open_text_unsealed EMAIL hemail, open_text_unsealed DISPLAY_NAME hname, he, hn, bind,
    Except.bind]

theorem seal_people (h : Earlier db q) : ∃ app_user,
    db.app_user.rewriteWhere Database.unsealed (Database.seal_person c v draw) = .ok app_user ∧
      Table.Related (Account c v) app_user q.people := by
  refine h.people.rewriteWhere ?_ ?_
  · rintro id u n ⟨rfl, hemail, hname⟩ hp
    simp only [Database.unsealed, Bool.or_eq_true, not_or] at hp
    obtain ⟨⟨he, hn⟩, -⟩ := hp
    rw [not_plain_unsealed hemail he, not_plain_unsealed hname hn, Account, not_plain_unsealed hemail he,
      not_plain_unsealed hname hn]
    exact ⟨no_text, rfl, no_text⟩
  · rintro id u n ⟨rfl, hemail, hname⟩ -
    exact seal_person_opens hc hv draw id hemail hname

theorem seal_photos (h : Earlier db q) : ∃ user_avatar,
    db.user_avatar.rewriteWhere (fun _ image => !is_sealed_bytes image)
      (fun id image => Except.ok (ε := Raised) (seal_bytes c v (draw AVATAR id) AVATAR image)) = .ok user_avatar ∧
        Table.Related (Photo c v) user_avatar q.photos := by
  refine h.photos.rewriteWhere ?_ ?_
  · rintro id stored image ⟨-, hplain⟩ hp
    exact absurd (by simpa using hplain) hp
  · rintro id stored image ⟨rfl, -⟩ -
    exact ⟨_, rfl, is_sealed_seal_bytes _ AVATAR stored, open_seal_bytes hc hv _ AVATAR stored⟩

/-- An entry of `meta` once the vault is checked: the boundary of the audit log is sealed, and nothing else. -/
private def Checked (c : Primitives) (v : Vault) (key stored value : Str) : Prop :=
  if key = AUDIT_ANCHOR_META then is_sealed stored ∧ v.open_text c (place_of key) stored = .ok value
  else stored = value ∧ (key ∈ SECRET_META → Unsealed (some stored))

omit hc hv in
private theorem Checked.entry {key stored value : Str} (h : Checked c v key stored value)
    (hp : ¬ Database.unsealed_secret key stored) : Entry c v key stored value := by
  unfold Checked at h
  split at h
  · rename_i hkey
    rw [Entry, if_pos (hkey ▸ List.mem_cons_self)]
    exact h
  · rename_i hkey
    obtain ⟨rfl, hplain⟩ := h
    rw [Entry, if_neg]
    intro hsecret
    have hmem : key ∈ SECRET_META := (List.mem_cons.mp hsecret).resolve_left hkey
    have hnot : ¬ is_sealed stored := (hplain hmem stored rfl).1
    exact hp (by simp [Database.unsealed_secret, hmem, hnot])

private theorem Checked.seal {key stored value : Str} (h : Checked c v key stored value)
    (hp : Database.unsealed_secret key stored) :
    ∃ token, v.seal_text c (draw key 0) (place_of key) stored = .ok token ∧ Entry c v key token value := by
  obtain ⟨hkey, -⟩ := Bool.and_eq_true_iff.mp hp
  have hmem : key ∈ SECRET_META := of_decide_eq_true hkey
  have hne : key ≠ AUDIT_ANCHOR_META := by
    rintro rfl
    exact absurd hmem (by decide)
  rw [Checked, if_neg hne] at h
  obtain ⟨rfl, hplain⟩ := h
  obtain ⟨token, hseal, hopens⟩ := seal_value_opens hc hv (draw key 0) (place_of key) (hplain hmem).writable
  have hsecret : key ∈ SECRETS := List.mem_cons_of_mem _ hmem
  refine ⟨token, hseal, ?_⟩
  rw [Entry, if_pos hsecret]
  exact hopens

theorem check_vault_earlier (h : Earlier db q) : ∃ anchor,
    db.check_vault c v draw = .ok ((db.put KID_META (hex v.kid)).put AUDIT_ANCHOR_META anchor) ∧
      Table.Related (Checked c v) ((db.put KID_META (hex v.kid)).put AUDIT_ANCHOR_META anchor).meta_table
        ((q.put KID_META (hex v.kid)).put AUDIT_ANCHOR_META (natText (q.last_audit + 1))).settings := by
  obtain ⟨anchor, hanchor, hopens⟩ := seal_value_opens hc hv (draw AUDIT_ANCHOR_META 0) (place_of AUDIT_ANCHOR_META)
    (natText_writable (db.last_audit + 1))
  refine ⟨anchor, ?_, ?_⟩
  · rw [Database.check_vault, h.kid]
    simp only [hanchor, h.anchor]
    rfl
  · refine Table.Related.put (Table.Related.put (h.settings.mono fun key stored value hget hrow => ?_) ?_) ?_
    · have hne : key ≠ AUDIT_ANCHOR_META := by
        rintro rfl
        rw [h.anchor] at hget
        cases hget
      rw [Checked, if_neg hne]
      exact ⟨hrow.1, fun hkey => hrow.2 (List.mem_cons_of_mem _ hkey)⟩
    · rw [Checked, if_neg (by decide)]
      exact ⟨rfl, fun hkey => absurd hkey (by decide)⟩
    · rw [Checked, if_pos rfl, ← h.last_audit]
      exact hopens

/-- The first start seals whatever an earlier release left plain. -/
theorem open_vault_earlier (h : Earlier db q) : ∃ db' n, db.open_vault c v draw = .ok (db', n) ∧
    Holds c v db' ((q.put KID_META (hex v.kid)).put AUDIT_ANCHOR_META (natText (q.last_audit + 1))) := by
  obtain ⟨anchor, hcheck, hsettings⟩ := check_vault_earlier hc hv draw h
  obtain ⟨app_user, hpeople, hpeople'⟩ := seal_people hc hv draw h
  obtain ⟨user_avatar, hphotos, hphotos'⟩ := seal_photos hc hv draw h
  obtain ⟨meta_table, hmeta, hmeta'⟩ := hsettings.rewriteWhere (fun _ _ _ hrow hp => hrow.entry hp)
    fun _ _ _ hrow hp => hrow.seal hc hv draw hp
  have hopen : db.open_vault c v draw = Database.seal_plaintext c v
      ((db.put KID_META (hex v.kid)).put AUDIT_ANCHOR_META anchor) draw := by
    rw [Database.open_vault, hcheck]
    rfl
  refine ⟨_, _, hopen.trans (seal_plaintext_eq hpeople hphotos hmeta), hpeople', hphotos', hmeta', h.last_audit, ?_⟩
  refine (Table.get_upsert_of_ne _ _ _ _ _ (by decide)).trans ?_
  rw [Plain.put, Table.get_upsert_self]

end Starts

end NetCoreNoc.Sealing
