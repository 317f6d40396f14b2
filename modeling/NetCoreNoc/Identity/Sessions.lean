import Mathlib
import NetCoreNoc.Identity.Outcomes
import NetCoreNoc.Origins

/-! A session that resolves was opened by a login of its account, and nothing has ended the account's sessions since. -/
namespace NetCoreNoc.Identity
open Tables Runs Json Text Api.Throttle

variable {D H : Type} {c : Crypto D H} {uid u : ℕ} {session_hash h : D} {since : ℚ}

section
variable [DecidableEq D]

/-- A session of an account that a login opened at a time. -/
def Database.Open (db : Database D H) (uid : ℕ) (session_hash : D) (since : ℚ) : Prop :=
  ∃ r, db.session.get session_hash = some r ∧ r.user_id = uid ∧ r.absolute_expiry = since + ABSOLUTE_TIMEOUT_S

variable {db : Database D H}

theorem open_delete {p : D → Session → Bool} : Database.Open { db with session := db.session.delete p } uid h since ↔
    ∃ r, db.session.get h = some r ∧ p h r = false ∧ r.user_id = uid ∧ r.absolute_expiry = since + ABSOLUTE_TIMEOUT_S := by
  refine exists_congr fun r => ?_
  rw [Table.get_delete, Option.filter_eq_some_iff, Bool.not_eq_true', and_assoc]

theorem open_revoke : (db.revoke_user_sessions u).Open uid h since ↔ db.Open uid h since ∧ u ≠ uid := by
  refine open_delete.trans ⟨?_, ?_⟩
  · rintro ⟨r, hr, hne, rfl, hsince⟩
    exact ⟨⟨r, hr, rfl, hsince⟩, fun h => of_decide_eq_false hne h.symm⟩
  · rintro ⟨⟨r, hr, rfl, hsince⟩, hne⟩
    exact ⟨r, hr, decide_eq_false hne.symm, rfl, hsince⟩

theorem open_delete_user : (db.delete_user u).Open uid h since ↔ db.Open uid h since ∧ u ≠ uid := open_revoke

theorem open_purge {now : ℚ} (hp : (db.purge_expired_sessions now).Open uid h since) : db.Open uid h since := by
  obtain ⟨r, hr, -, hrest⟩ := open_delete.mp hp
  exact ⟨r, hr, hrest⟩

theorem open_delete_session (hd : (db.delete_session session_hash).Open uid h since) :
    db.Open uid h since ∧ session_hash ≠ h := by
  obtain ⟨r, hr, hrest⟩ := hd
  rcases eq_or_ne h session_hash with rfl | hne
  · cases (Table.get_erase_self db.session h).symm.trans hr
  · exact ⟨⟨r, (Table.get_erase_of_ne _ _ _ hne).symm.trans hr, hrest⟩, hne.symm⟩

theorem open_touch {idle : ℚ} (ht : (db.touch_session session_hash idle).Open uid h since) : db.Open uid h since := by
  obtain ⟨r, hr, hrest⟩ := ht
  obtain ⟨r', hr', rfl⟩ := Option.map_eq_some_iff.mp ((Table.get_update ..).symm.trans hr)
  refine ⟨r', hr', ?_⟩
  split at hrest
  · exact hrest
  · exact hrest

theorem open_session_open {opened : Database D H} {user_id : ℕ} {token : Str} {now : ℚ}
    (ho : open_session c db user_id token now = some opened) (hopen : opened.Open uid h since) :
    (c.hash_token token = h ∧ user_id = uid ∧ now = since) ∨ db.Open uid h since := by
  obtain ⟨session, hinsert, rfl⟩ := Option.map_eq_some_iff.mp ho
  obtain ⟨r, hr, huser, hsince⟩ := hopen
  have hget := (Table.get_insert h hinsert).symm.trans hr
  split at hget
  · rename_i hh
    obtain rfl := Option.some.inj hget
    exact .inl ⟨hh.symm, huser, add_right_cancel hsince⟩
  · exact .inr ⟨r, hget, huser, hsince⟩

end

/-- A login that opened a session of an account. -/
def Opens [DecidableEq D] (c : Crypto D H) (uid : ℕ) (session_hash : D) (since : ℚ) (s : Server D H) (e : Act D) : Prop :=
  ∃ username password new_password source_ip fresh role, e = .login username password new_password source_ip since fresh ∧
    c.hash_token fresh.token = session_hash ∧
    (perform_login c s fresh username password new_password source_ip since).1 = .ok uid role

/-- What ends a session of an account: its own end, the account's, or a change of its role or of its password. -/
def Ends [DecidableEq D] (c : Crypto D H) (uid : ℕ) (session_hash : D) (s : Server D H) : Act D → Prop
  | .change_role within u role => u = uid ∧ (change_role s within u role).1 = .ok ()
  | .delete_user caller u => u = uid ∧ (delete_user s caller u).1 = .ok ()
  | .login username password new_password source_ip now fresh =>
    ∃ user role, s.db.get_user_by_name username = some (uid, user) ∧ user.must_change_password = true ∧
      (perform_login c s fresh username password new_password source_ip now).1 = .ok uid role
  | .logout cookie => ∃ token, cookie = some token ∧ token ≠ [] ∧ c.hash_token token = session_hash
  | .change_password caller old_password new_password fresh =>
    caller = some uid ∧ (change_password c s fresh caller old_password new_password).1 = .ok ()
  | .reset_user_password caller within u fresh =>
    u = uid ∧ ∃ temporary, (reset_user_password c s fresh caller within u).1 = .ok temporary
  | .cli_reset username _ => ∃ user, s.db.get_user_by_name username = some (uid, user)
  | .confirm_reset token new_password now fresh => (confirm_reset c s fresh token new_password now).1 = .ok uid
  | .settle (.delete h) => h = session_hash
  | .create_user .. | .set_profile .. | .request_reset .. | .settle (.touch ..) | .purge .. | .start .. => False

variable [DecidableEq D]

theorem login_open {s : Server D H} {fresh : Fresh} {username password : Str} {new_password : Option Str} {source_ip : Str}
    {now : ℚ} (hopen : (step c s (.login username password new_password source_ip now fresh)).db.Open uid h since) :
    Opens c uid h since s (.login username password new_password source_ip now fresh) ∨
      (s.db.Open uid h since ∧ ¬ Ends c uid h s (.login username password new_password source_ip now fresh)) := by
  rcases perform_login_cases (c := c) username password new_password source_ip now with
    ⟨o, throttle, hout, hno⟩ | ⟨uid', user, db, opened, throttle, hname, -, -, hdb, hopened, hout⟩
  · rw [step, hout] at hopen
    refine .inr ⟨hopen, ?_⟩
    rintro ⟨user, role, -, -, hok⟩
    exact hno uid role (by rw [← hok, hout])
  · rw [step, hout] at hopen
    rcases open_session_open hopened hopen with ⟨rfl, rfl, rfl⟩ | hbefore
    · exact .inl ⟨username, password, new_password, source_ip, fresh, user.role, rfl, rfl, by rw [hout]⟩
    · right
      -- the session was there before, so the login has not ended those of its account
      cases hdb with
      | changed new_password hmust =>
        obtain ⟨hbefore, hne⟩ := open_revoke.mp hbefore
        refine ⟨hbefore, ?_⟩
        rintro ⟨user', role, hname', -⟩
        exact hne (congrArg Prod.fst (Option.some.inj (hname.symm.trans hname')))
      | rehashed password hmust =>
        refine ⟨hbefore, ?_⟩
        rintro ⟨user', role, hname', hmust', -⟩
        obtain ⟨-, rfl⟩ := Prod.mk.inj (Option.some.inj (hname.symm.trans hname'))
        exact absurd hmust' (Bool.eq_false_iff.mp hmust)
      | same hmust =>
        refine ⟨hbefore, ?_⟩
        rintro ⟨user', role, hname', hmust', -⟩
        obtain ⟨-, rfl⟩ := Prod.mk.inj (Option.some.inj (hname.symm.trans hname'))
        exact absurd hmust' (Bool.eq_false_iff.mp hmust)

theorem step_open (s : Server D H) (e : Act D) (hopen : (step c s e).db.Open uid h since) :
    Opens c uid h since s e ∨ (s.db.Open uid h since ∧ ¬ Ends c uid h s e) := by
  cases e with
  | create_user within username password role fresh =>
    right
    rcases create_user_cases username password role with
      ⟨r, hout⟩ | ⟨-, -, hout⟩
    · rw [step, hout] at hopen
      exact ⟨hopen, id⟩
    · rw [step, hout] at hopen
      exact ⟨hopen, id⟩
  | change_role within u role =>
    right
    rcases change_role_cases role with ⟨r, hout⟩ | ⟨user, -, -, hout⟩
    · rw [step, hout] at hopen
      exact ⟨hopen, fun hends => by cases hout ▸ hends.2⟩
    · rw [step, hout] at hopen
      obtain ⟨hbefore, hne⟩ := open_revoke.mp hopen
      exact ⟨hbefore, fun hends => hne hends.1⟩
  | delete_user caller u =>
    right
    rcases delete_user_cases caller with ⟨r, hout⟩ | ⟨user, -, -, hout⟩
    · rw [step, hout] at hopen
      exact ⟨hopen, fun hends => by cases hout ▸ hends.2⟩
    · rw [step, hout] at hopen
      obtain ⟨hbefore, hne⟩ := open_delete_user.mp hopen
      exact ⟨(open_revoke.mp hbefore).1, fun hends => hne hends.1⟩
  | login username password new_password source_ip now fresh => exact login_open hopen
  | logout cookie =>
    right
    cases cookie with
    | none => exact ⟨hopen, fun ⟨_, hcookie, _⟩ => nomatch hcookie⟩
    | some token =>
      rw [step, logout] at hopen
      split at hopen
      · rename_i hempty
        exact ⟨hopen, fun ⟨_, hcookie, hne, _⟩ => hne (Option.some.inj hcookie ▸ hempty)⟩
      · obtain ⟨hbefore, hne⟩ := open_delete_session hopen
        exact ⟨hbefore, fun ⟨_, hcookie, _, hhash⟩ => hne (Option.some.inj hcookie ▸ hhash)⟩
  | change_password caller old_password new_password fresh =>
    right
    rcases change_password_cases caller old_password new_password with
      ⟨r, hout⟩ | ⟨u, user, rfl, -, -, hout⟩
    · rw [step, hout] at hopen
      exact ⟨hopen, fun hends => by cases hout ▸ hends.2⟩
    · rw [step, hout] at hopen
      obtain ⟨hbefore, hne⟩ := open_revoke.mp hopen
      exact ⟨hbefore, fun hends => hne (Option.some.inj hends.1)⟩
  | reset_user_password caller within u fresh =>
    right
    rcases reset_user_password_cases caller with
      ⟨r, hout⟩ | ⟨user, -, -, hout⟩
    · rw [step, hout] at hopen
      refine ⟨hopen, ?_⟩
      rintro ⟨-, temporary, hok⟩
      cases hout ▸ hok
    · rw [step, hout] at hopen
      obtain ⟨hbefore, hne⟩ := open_revoke.mp hopen
      exact ⟨hbefore, fun hends => hne hends.1⟩
  | cli_reset username fresh =>
    right
    rcases cli_reset_cases username with ⟨hnone, hout⟩ | ⟨u, user, hname, hout⟩
    · rw [step, hout] at hopen
      refine ⟨hopen, ?_⟩
      rintro ⟨user, hname⟩
      cases hnone.symm.trans hname
    · rw [step, hout] at hopen
      obtain ⟨hbefore, hne⟩ := open_revoke.mp hopen
      refine ⟨hbefore, ?_⟩
      rintro ⟨user', hname'⟩
      exact hne (congrArg Prod.fst (Option.some.inj (hname.symm.trans hname')))
  | set_profile own within u email current_password =>
    right
    rcases set_profile_cases own email current_password with
      ⟨r, hout⟩ | ⟨-, hout⟩ | ⟨text, user, -, -, hout⟩
    all_goals
      rw [step, hout] at hopen
      exact ⟨hopen, id⟩
  | request_reset offered login now token =>
    right
    rcases request_reset_cases (c := c) offered login now token with
      hout | ⟨db, outbox, accounts, -, hsent, hout⟩
    · rw [step, hout] at hopen
      exact ⟨hopen, id⟩
    · rw [step, hout] at hopen
      refine ⟨?_, id⟩
      rw [Database.Open, ← (send_links_kept hsent).2]
      exact hopen
  | confirm_reset token new_password now fresh =>
    right
    rcases confirm_reset_cases (c := c) token new_password now with
      ⟨r, hout, -⟩ | ⟨row, -, hout | ⟨user, -, -, hout⟩⟩
    · rw [step, hout] at hopen
      exact ⟨hopen, fun hends => by cases (congrArg Prod.fst hout).symm.trans hends⟩
    · rw [step, hout] at hopen
      exact ⟨hopen, fun hends => by cases (congrArg Prod.fst hout).symm.trans hends⟩
    · rw [step, hout] at hopen
      obtain ⟨hbefore, hne⟩ := open_revoke.mp hopen
      refine ⟨hbefore, fun hends => hne ?_⟩
      exact Except.ok.inj ((congrArg Prod.fst hout).symm.trans hends)
  | settle write =>
    right
    cases write with
    | delete session_hash => exact open_delete_session hopen
    | touch session_hash idle_expiry => exact ⟨open_touch hopen, id⟩
  | purge now => exact .inr ⟨open_purge hopen, id⟩
  | start fresh =>
    right
    rw [step, bootstrap_admin] at hopen
    split at hopen
    · exact ⟨hopen, id⟩
    · exact ⟨hopen, id⟩

/-- A token resolves within twelve hours of the login that opened its session, and only while neither the session nor
the sessions of its account have been ended since: a change of role or of password, by whoever makes it, leaves none of the
sessions that were open. -/
theorem session_descends (s : Server D H) (es : List (Act D)) (token : Str) (now : ℚ) (p : Principal)
    (write : Option (SessionWrite D))
    (hresolves : resolve_session c (run (step c) s es).db token now = (some p, write)) :
    ∃ since, now ≤ since + ABSOLUTE_TIMEOUT_S ∧
      Descends (step c) (fun s => s.db.Open p.user_id (c.hash_token token) since)
        (Opens c p.user_id (c.hash_token token) since) (Ends c p.user_id (c.hash_token token)) s es := by
  unfold resolve_session at hresolves
  split at hresolves
  · cases hresolves
  · rename_i row user hget
    split at hresolves
    · cases hresolves
    · split at hresolves
      · cases hresolves
      · rename_i hlive
        obtain rfl := Option.some.inj (congrArg Prod.fst hresolves)
        obtain ⟨r, hr, hget⟩ := Option.bind_eq_some_iff.mp hget
        obtain ⟨_, -, hrow⟩ := Option.map_eq_some_iff.mp hget
        obtain ⟨rfl, rfl⟩ := Prod.mk.inj hrow
        refine ⟨r.absolute_expiry - ABSOLUTE_TIMEOUT_S, ?_, ?_⟩
        · rw [sub_add_cancel]
          exact not_lt.mp (not_or.mp hlive).1
        · exact descends step_open s es ⟨r, hr, rfl, (sub_add_cancel ..).symm⟩

theorem signed_in_descends :
    resolve_session plain (run (step plain) {} signed_in).db (lit "first") 110 =
      (some ⟨1, lit "admin", .admin, false⟩, none) ∧
    ∃ since, 110 ≤ since + ABSOLUTE_TIMEOUT_S ∧ Descends (step plain) (fun s => s.db.Open 1 (lit "first") since)
      (Opens plain 1 (lit "first") since) (Ends plain 1 (lit "first")) {} signed_in := by
  have hresolves : resolve_session plain (run (step plain) {} signed_in).db (lit "first") 110 =
      (some ⟨1, lit "admin", .admin, false⟩, none) := by decide +kernel
  exact ⟨hresolves, session_descends {} signed_in _ _ _ _ hresolves⟩

end NetCoreNoc.Identity
