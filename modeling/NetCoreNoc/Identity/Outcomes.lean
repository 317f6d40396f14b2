import Mathlib
import NetCoreNoc.Identity.Requests

/-! What each request comes to: refused, with the accounts as they were, or granted, with what it has written. -/
namespace NetCoreNoc.Identity
open Tables Json Text Api.Throttle

variable {D H : Type} {c : Crypto D H} {s : Server D H} {fresh : Fresh} {within : Role → Bool} {uid : ℕ}

theorem create_user_cases (username password : Str) (role : Role) :
    (∃ r, create_user c s fresh within username password role = (.error r, s)) ∨
      s.db.get_user_by_name username = none ∧ within role = true ∧
        create_user c s fresh within username password role = (.ok s.db.app_user.next,
          { s with db := s.db.create_user username (c.hash_password fresh.salt password) role true }) := by
  unfold create_user
  split
  · exact .inl ⟨_, rfl⟩
  · rename_i hwithin
    split
    · exact .inl ⟨_, rfl⟩
    · split
      · exact .inl ⟨_, rfl⟩
      · rename_i hname
        exact .inr ⟨Option.not_isSome_iff_eq_none.mp hname, not_not.mp hwithin, rfl⟩

theorem change_role_cases (role : Role) :
    (∃ r, change_role s within uid role = (.error r, s)) ∨
      ∃ user, s.db.get_user uid = some user ∧ would_remove_last_admin s.db uid user (some role) false false = false ∧
        change_role s within uid role =
          (.ok (), { s with db := (s.db.set_user_role uid role).revoke_user_sessions uid }) := by
  unfold change_role
  split
  · exact .inl ⟨_, rfl⟩
  · split
    · exact .inl ⟨_, rfl⟩
    · rename_i user huser
      split
      · exact .inl ⟨_, rfl⟩
      · split
        · exact .inl ⟨_, rfl⟩
        · rename_i hlast
          exact .inr ⟨user, huser, Bool.eq_false_iff.mpr hlast, rfl⟩

theorem delete_user_cases (caller : Option ℕ) :
    (∃ r, delete_user s caller uid = (.error r, s)) ∨
      ∃ user, s.db.get_user uid = some user ∧ would_remove_last_admin s.db uid user none true false = false ∧
        delete_user s caller uid = (.ok (), { s with db := (s.db.revoke_user_sessions uid).delete_user uid }) := by
  unfold delete_user
  split
  · exact .inl ⟨_, rfl⟩
  · split
    · exact .inl ⟨_, rfl⟩
    · rename_i user huser
      split
      · exact .inl ⟨_, rfl⟩
      · rename_i hlast
        exact .inr ⟨user, huser, Bool.eq_false_iff.mpr hlast, rfl⟩

theorem change_password_cases (caller : Option ℕ) (old_password new_password : Str) :
    (∃ r, change_password c s fresh caller old_password new_password = (.error r, s)) ∨
      ∃ uid user, caller = some uid ∧ s.db.get_user uid = some user ∧
        c.verify_password old_password user.password_hash = true ∧
        change_password c s fresh caller old_password new_password = (.ok (), { s with
          db := (s.db.update_user_password uid (c.hash_password fresh.salt new_password)).revoke_user_sessions uid }) := by
  unfold change_password
  split
  · exact .inl ⟨_, rfl⟩
  · rename_i uid
    split
    · exact .inl ⟨_, rfl⟩
    · split
      · exact .inl ⟨_, rfl⟩
      · rename_i user huser
        obtain ⟨hget, hverify⟩ := Option.filter_eq_some_iff.mp huser
        exact .inr ⟨uid, user, rfl, hget, hverify, rfl⟩

theorem reset_user_password_cases (caller : Option ℕ) :
    (∃ r, reset_user_password c s fresh caller within uid = (.error r, s)) ∨
      ∃ user, s.db.get_user uid = some user ∧ within user.role = true ∧
        reset_user_password c s fresh caller within uid = (.ok fresh.token, { s with
          db := (s.db.replace_password uid (c.hash_password fresh.salt fresh.token)).revoke_user_sessions uid }) := by
  unfold reset_user_password
  split
  · exact .inl ⟨_, rfl⟩
  · split
    · exact .inl ⟨_, rfl⟩
    · rename_i user huser
      split
      · exact .inl ⟨_, rfl⟩
      · rename_i hwithin
        exact .inr ⟨user, huser, not_not.mp hwithin, rfl⟩

theorem cli_reset_cases (username : Str) :
    s.db.get_user_by_name username = none ∧ cli_reset c s fresh username = (none, s) ∨
      ∃ uid user, s.db.get_user_by_name username = some (uid, user) ∧
        cli_reset c s fresh username = (some fresh.token, { s with
          db := (s.db.replace_password uid (c.hash_password fresh.salt fresh.token)).revoke_user_sessions uid }) := by
  unfold cli_reset
  split
  · rename_i hnone
    exact .inl ⟨hnone, rfl⟩
  · rename_i uid user huser
    exact .inr ⟨uid, user, huser, rfl⟩

theorem set_profile_cases (own : Bool) (email : Option (Option Str)) (current_password : Option Str) :
    (∃ r, set_profile c s own within uid email current_password = (.error r, s)) ∨
      email = none ∧ set_profile c s own within uid email current_password = (.ok (), s) ∨
      ∃ text user, email = some text ∧ s.db.get_user uid = some user ∧
        set_profile c s own within uid email current_password =
          (.ok (), { s with db := s.db.set_user_email c uid ((some (strip (text.getD []))).filter (· ≠ [])) }) := by
  unfold set_profile
  split
  · exact .inl ⟨_, rfl⟩
  · rename_i user huser
    split
    · exact .inr (.inl ⟨rfl, rfl⟩)
    · rename_i text
      dsimp only
      split
      · exact .inl ⟨_, rfl⟩
      · split
        · exact .inl ⟨_, rfl⟩
        · split
          · exact .inl ⟨_, rfl⟩
          · exact .inr (.inr ⟨text, user, rfl, huser, rfl⟩)

section
variable [DecidableEq D]

theorem recovery_accounts_mem {db : Database D H} {login : Str} {a : ℕ × User D H}
    (h : a ∈ db.recovery_accounts c login) : a ∈ db.users := by
  have h := (List.mem_insertionSort _).mp (List.mem_of_mem_take h)
  exact (List.mem_filter.mp h).1

theorem request_reset_cases (offered : Bool) (login : Str) (now : ℚ) (token : ℕ → Str) :
    request_reset c s offered login now token = ([], s) ∨
      ∃ db outbox accounts, (∀ a ∈ accounts, a ∈ s.db.users) ∧ send_links c now token accounts s.db = some (db, outbox) ∧
        request_reset c s offered login now token = (outbox, { s with db }) := by
  unfold request_reset
  split
  · rename_i db outbox hsent
    refine .inr ⟨db, outbox, _, ?_, hsent, rfl⟩
    intro a ha
    split at ha
    · exact recovery_accounts_mem ha
    · cases ha
  · exact .inl rfl

/-- The links of a request touch neither the accounts nor the sessions. -/
theorem send_links_kept {token : ℕ → Str} {accounts : List (ℕ × User D H)} {db db' : Database D H} {outbox : List Letter}
    (hs : send_links c now token accounts db = some (db', outbox)) :
    db'.app_user = db.app_user ∧ db'.session = db.session := by
  induction accounts generalizing db outbox with
  | nil =>
    obtain ⟨rfl, -⟩ := Prod.mk.inj (Option.some.inj hs)
    exact ⟨rfl, rfl⟩
  | cons a rest ih =>
    obtain ⟨uid, account⟩ := a
    rw [send_links] at hs
    split at hs
    · exact ih hs
    · obtain ⟨created, hcreated, hs⟩ := Option.bind_eq_some_iff.mp hs
      obtain ⟨⟨sent, letters⟩, hsent, hs⟩ := Option.bind_eq_some_iff.mp hs
      obtain ⟨rfl, -⟩ := Prod.mk.inj (Option.some.inj hs)
      obtain ⟨_, -, rfl⟩ := Option.map_eq_some_iff.mp hcreated
      have hkept := ih hsent
      exact hkept

theorem take_reset_none {db : Database D H} {token_hash : D} {now : ℚ} (h : db.usable token_hash now = none) :
    db.take_reset token_hash now = (none, db) := by
  unfold Database.take_reset
  rw [h]

theorem take_reset_some {db : Database D H} {token_hash : D} {now : ℚ} {row : Reset}
    (h : db.usable token_hash now = some row) : db.take_reset token_hash now =
      (((db.get_user row.user_id).filter fun u => ¬ u.disabled).map fun u => (row.user_id, u),
        db.mark_used token_hash now) := by
  unfold Database.take_reset
  rw [h]

theorem confirm_reset_cases (token new_password : Str) (now : ℚ) :
    (∃ r, confirm_reset c s fresh token new_password now = (.error r, s) ∧
      (validate_password new_password = none → s.db.usable (c.hash_token token) now = none)) ∨
      ∃ row, s.db.usable (c.hash_token token) now = some row ∧
        ((confirm_reset c s fresh token new_password now =
          (.error ⟨400, INVALID_LINK⟩, { s with db := s.db.mark_used (c.hash_token token) now })) ∨
        ∃ user, s.db.get_user row.user_id = some user ∧ user.disabled = false ∧
          confirm_reset c s fresh token new_password now = (.ok row.user_id, { s with
            db := (((s.db.mark_used (c.hash_token token) now).update_user_password row.user_id
              (c.hash_password fresh.salt new_password)).revoke_user_sessions row.user_id) })) := by
  unfold confirm_reset
  split
  · rename_i hinvalid
    exact .inl ⟨_, rfl, fun hvalid => nomatch hinvalid.symm.trans hvalid⟩
  · cases husable : s.db.usable (c.hash_token token) now with
    | none =>
      rw [take_reset_none husable]
      exact .inl ⟨_, rfl, fun _ => rfl⟩
    | some row =>
      refine .inr ⟨row, rfl, ?_⟩
      rw [take_reset_some husable]
      cases huser : (s.db.get_user row.user_id).filter fun u => ¬ u.disabled with
      | none => exact .inl rfl
      | some user =>
        obtain ⟨hget, henabled⟩ := Option.filter_eq_some_iff.mp huser
        exact .inr ⟨user, hget, Bool.eq_false_iff.mpr (of_decide_eq_true henabled), rfl⟩

end

theorem failed_cases (username source_ip : Str) (now : ℚ) :
    ∃ o throttle, failed s username source_ip now = (o, { s with throttle }) ∧ ∀ uid role, o ≠ .ok uid role := by
  unfold failed
  split
  · exact ⟨_, _, rfl, nofun⟩
  · exact ⟨_, _, rfl, nofun⟩

/-- What a login has written before it opens its session: a password that was due is changed, and the sessions ended;
a hash of an older scheme is rewritten. -/
inductive Prepared (c : Crypto D H) (salt : List UInt8) (db : Database D H) (uid : ℕ) (user : User D H) :
    Database D H → Prop
  | changed (new_password : Str) : user.must_change_password = true → Prepared c salt db uid user
      ((db.update_user_password uid (c.hash_password salt new_password)).revoke_user_sessions uid)
  | rehashed (password : Str) : user.must_change_password = false → Prepared c salt db uid user
      (db.rehash_password uid (c.hash_password salt password))
  | same : user.must_change_password = false → Prepared c salt db uid user db

section
variable [DecidableEq D]

theorem let_in_cases {written : Database D H} {user : User D H} (now : ℚ)
    (h : Prepared c fresh.salt s.db uid user written) :
    (∃ o, let_in c s fresh written uid user.role now = (o, s) ∧ ∀ uid role, o ≠ .ok uid role) ∨
      ∃ db opened, Prepared c fresh.salt s.db uid user db ∧ open_session c db uid fresh.token now = some opened ∧
        let_in c s fresh written uid user.role now = (.ok uid user.role, { s with db := opened }) := by
  unfold let_in
  split
  · rename_i opened hopened
    exact .inr ⟨written, opened, h, hopened, rfl⟩
  · exact .inl ⟨_, rfl, nofun⟩

theorem admitted_cases (user : User D H) (password : Str) (new_password : Option Str) (now : ℚ) :
    (∃ o, admitted c s fresh uid user password new_password now = (o, s) ∧ ∀ uid role, o ≠ .ok uid role) ∨
      ∃ db opened, Prepared c fresh.salt s.db uid user db ∧ open_session c db uid fresh.token now = some opened ∧
        admitted c s fresh uid user password new_password now = (.ok uid user.role, { s with db := opened }) := by
  unfold admitted
  split
  · rename_i hmust
    split
    · exact .inl ⟨_, rfl, nofun⟩
    · split
      · exact .inl ⟨_, rfl, nofun⟩
      · exact let_in_cases now (.changed _ hmust)
  · rename_i hmust
    have hmust := Bool.eq_false_iff.mpr hmust
    split
    · exact let_in_cases now (.rehashed _ hmust)
    · exact let_in_cases now (.same hmust)

theorem perform_login_cases (username password : Str) (new_password : Option Str) (source_ip : Str) (now : ℚ) :
    (∃ o throttle, perform_login c s fresh username password new_password source_ip now = (o, { s with throttle }) ∧
      ∀ uid role, o ≠ .ok uid role) ∨
    ∃ uid user db opened throttle, s.db.get_user_by_name username = some (uid, user) ∧ user.disabled = false ∧
      c.verify_password password user.password_hash = true ∧ Prepared c fresh.salt s.db uid user db ∧
      open_session c db uid fresh.token now = some opened ∧
      perform_login c s fresh username password new_password source_ip now = (.ok uid user.role, ⟨opened, throttle⟩) := by
  unfold perform_login
  split
  · exact .inl ⟨_, _, rfl, nofun⟩
  · split
    · exact .inl (failed_cases ..)
    · rename_i uid user huser
      split
      · exact .inl (failed_cases ..)
      · rename_i hpassword
        obtain ⟨henabled, hverify⟩ := not_or.mp hpassword
        rcases admitted_cases (s := ⟨s.db, s.throttle.record_success username source_ip⟩) user password new_password now with
          ⟨o, hout, hno⟩ | ⟨db, opened, hdb, hopened, hout⟩
        · exact .inl ⟨o, _, hout, hno⟩
        · exact .inr ⟨uid, user, db, opened, _, huser, Bool.eq_false_iff.mpr henabled, not_not.mp hverify, hdb, hopened, hout⟩

end

end NetCoreNoc.Identity
