import Mathlib
import NetCoreNoc.Identity.Outcomes
import NetCoreNoc.Origins

/-! A link that changes a password was mailed to the address of the account, and nothing has withdrawn it since. -/
namespace NetCoreNoc.Identity
open Tables Runs Json Text Api.Throttle

variable {D H : Type} [DecidableEq D] {c : Crypto D H} {uid u : ℕ} {token_hash h : D} {since now : ℚ} {mailbox : Option Str}
  {db : Database D H}

/-- An unused link of an account that was made at a time. -/
def Database.Live (db : Database D H) (uid : ℕ) (token_hash : D) (since : ℚ) : Prop :=
  ∃ r, db.password_reset.get token_hash = some r ∧ r.user_id = uid ∧ r.used_at = none ∧ r.expires_at = since + LINK_TTL_S

theorem live_delete {p : D → Reset → Bool} :
    Database.Live { db with password_reset := db.password_reset.delete p } uid h since ↔
      ∃ r, db.password_reset.get h = some r ∧ p h r = false ∧ r.user_id = uid ∧ r.used_at = none ∧
        r.expires_at = since + LINK_TTL_S := by
  refine exists_congr fun r => ?_
  rw [Table.get_delete, Option.filter_eq_some_iff, Bool.not_eq_true', and_assoc]

theorem live_withdraw : (db.withdraw_resets u).Live uid h since ↔ db.Live uid h since ∧ u ≠ uid := by
  refine live_delete.trans ⟨?_, ?_⟩
  · rintro ⟨r, hr, hne, rfl, hunused, hsince⟩
    exact ⟨⟨r, hr, rfl, hunused, hsince⟩, fun h => of_decide_eq_false hne ⟨h.symm, hunused⟩⟩
  · rintro ⟨⟨r, hr, rfl, hunused, hsince⟩, hne⟩
    exact ⟨r, hr, decide_eq_false fun h => hne h.1.symm, rfl, hunused, hsince⟩

theorem live_delete_user : (db.delete_user u).Live uid h since ↔ db.Live uid h since ∧ u ≠ uid := by
  refine live_delete.trans ⟨?_, ?_⟩
  · rintro ⟨r, hr, hne, rfl, hrest⟩
    exact ⟨⟨r, hr, rfl, hrest⟩, fun h => of_decide_eq_false hne h.symm⟩
  · rintro ⟨⟨r, hr, rfl, hrest⟩, hne⟩
    exact ⟨r, hr, decide_eq_false hne.symm, rfl, hrest⟩

theorem live_create_reset {created : Database D H}
    (hc : db.create_reset u token_hash now (now + LINK_TTL_S) = some created) (hlive : created.Live uid h since) :
    (h = token_hash ∧ u = uid ∧ now = since) ∨ (db.Live uid h since ∧ u ≠ uid) := by
  obtain ⟨resets, hinsert, rfl⟩ := Option.map_eq_some_iff.mp hc
  obtain ⟨r, hr, rfl, hunused, hsince⟩ := hlive
  have hget := (Table.get_insert h hinsert).symm.trans hr
  split at hget
  · rename_i hh
    obtain rfl := Option.some.inj hget
    exact .inl ⟨hh, rfl, add_right_cancel hsince⟩
  · rw [Table.get_delete, Option.filter_eq_some_iff, Bool.not_eq_true'] at hget
    refine .inr ⟨⟨r, hget.1, rfl, hunused, hsince⟩, ?_⟩
    rintro rfl
    exact of_decide_eq_false hget.2 (.inl ⟨rfl, hunused⟩)

theorem live_mark_used (hlive : (db.mark_used token_hash now).Live uid h since) :
    db.Live uid h since ∧ (h = token_hash → db.usable token_hash now = none) := by
  obtain ⟨r, hr, huser, hunused, hsince⟩ := hlive
  obtain ⟨r', hr', rfl⟩ := Option.map_eq_some_iff.mp ((Table.get_update ..).symm.trans hr)
  split at hunused
  · cases hunused
  · rename_i hnot
    rw [if_neg hnot] at huser hsince
    refine ⟨⟨r', hr', huser, hunused, hsince⟩, ?_⟩
    rintro rfl
    rw [Database.usable, hr', Option.filter_some, if_neg]
    intro husable
    exact hnot (decide_eq_true ⟨rfl, of_decide_eq_true husable⟩)

/-- The recovery address of an account -/
def Database.address (db : Database D H) (uid : ℕ) : Option (Option Str) := (db.get_user uid).map (·.email)

omit [DecidableEq D] in
theorem address_set_user {f : User D H → User D H} (hf : u = uid → ∀ user, (f user).email = user.email) :
    (db.set_user u f).address uid = db.address uid := by
  unfold Database.address Database.get_user
  rw [Database.set_user, Serial.get_update, Option.map_map]
  congr 1
  funext user
  rw [Function.comp_apply]
  split
  · rename_i huid
    exact hf (of_decide_eq_true huid).symm user
  · rfl

omit [DecidableEq D] in
theorem address_create_user {username : Str} {password_hash : H} {role : Role} (hu : db.address uid = some mailbox) :
    (db.create_user username password_hash role true).address uid = some mailbox := by
  obtain ⟨user, huser, rfl⟩ := Option.map_eq_some_iff.mp hu
  unfold Database.address Database.get_user Database.create_user
  rw [Serial.get_insert, if_neg (db.app_user.below uid user huser).ne, show db.app_user.get uid = some user from huser]
  rfl

omit [DecidableEq D] in
theorem address_delete_user (hne : u ≠ uid) : (db.delete_user u).address uid = db.address uid := by
  unfold Database.address Database.get_user
  rw [Database.delete_user, Serial.get_delete]
  cases db.app_user.get uid with
  | none => rfl
  | some user =>
    rw [Option.filter_some, if_pos]
    exact (Bool.not_eq_true' _).mpr (decide_eq_false hne.symm)

/-- A link that is live, of an account whose address it went to. -/
def Database.Mailed (db : Database D H) (uid : ℕ) (token_hash : D) (since : ℚ) (mailbox : Option Str) : Prop :=
  db.Live uid token_hash since ∧ ∀ address, db.address uid = some address → address = mailbox

/-- A request that mailed a link of an account to an address. -/
def Mails (c : Crypto D H) (uid : ℕ) (token_hash : D) (since : ℚ) (mailbox : Option Str) (s : Server D H) (e : Act D) :
    Prop :=
  ∃ offered login token letter, e = .request_reset offered login since token ∧
    letter ∈ (request_reset c s offered login since token).1 ∧ letter.user_id = uid ∧
    c.hash_token letter.token = token_hash ∧ letter.recipient = mailbox

/-- What withdraws a link of an account: that it is used, or a later one mailed; another address; a password that is set by
an administrator; and that the account is deleted. -/
def Withdraws (c : Crypto D H) (uid : ℕ) (token_hash : D) (s : Server D H) : Act D → Prop
  | .delete_user caller u => u = uid ∧ (delete_user s caller u).1 = .ok ()
  | .reset_user_password caller within u fresh =>
    u = uid ∧ ∃ temporary, (reset_user_password c s fresh caller within u).1 = .ok temporary
  | .cli_reset username _ => ∃ user, s.db.get_user_by_name username = some (uid, user)
  | .set_profile own within u email current_password =>
    u = uid ∧ email.isSome ∧ (set_profile c s own within u email current_password).1 = .ok ()
  | .request_reset offered login now token => ∃ letter ∈ (request_reset c s offered login now token).1, letter.user_id = uid
  | .confirm_reset token new_password now _ => c.hash_token token = token_hash ∧ validate_password new_password = none ∧
    (s.db.usable token_hash now).isSome
  | .create_user .. | .change_role .. | .login .. | .logout .. | .change_password .. | .settle .. | .purge .. | .start .. =>
    False

theorem send_links_live {token : ℕ → Str} {accounts : List (ℕ × User D H)} {db db' : Database D H} {outbox : List Letter}
    (hs : send_links c now token accounts db = some (db', outbox)) (hlive : db'.Live uid h since) :
    (now = since ∧ c.hash_token (token uid) = h ∧
      ∃ account, (uid, account) ∈ accounts ∧ ⟨account.email, uid, account.username, token uid⟩ ∈ outbox) ∨
    (db.Live uid h since ∧ ∀ letter ∈ outbox, letter.user_id ≠ uid) := by
  induction accounts generalizing db outbox with
  | nil =>
    obtain ⟨rfl, rfl⟩ := Prod.mk.inj (Option.some.inj hs)
    exact .inr ⟨hlive, nofun⟩
  | cons a rest ih =>
    obtain ⟨v, account⟩ := a
    rw [send_links] at hs
    split at hs
    · rcases ih hs with ⟨hnow, hhash, account', hmem, hletter⟩ | hkept
      · exact .inl ⟨hnow, hhash, account', List.mem_cons_of_mem _ hmem, hletter⟩
      · exact .inr hkept
    · obtain ⟨created, hcreated, hs⟩ := Option.bind_eq_some_iff.mp hs
      obtain ⟨⟨sent, letters⟩, hsent, hs⟩ := Option.bind_eq_some_iff.mp hs
      obtain ⟨rfl, rfl⟩ := Prod.mk.inj (Option.some.inj hs)
      rcases ih hsent with ⟨hnow, hhash, account', hmem, hletter⟩ | ⟨hbefore, hnone⟩
      · exact .inl ⟨hnow, hhash, account', List.mem_cons_of_mem _ hmem, List.mem_cons_of_mem _ hletter⟩
      · -- the link is the one of this turn, or was there before and of another account
        rcases live_create_reset hcreated hbefore with ⟨rfl, rfl, hnow⟩ | ⟨hlive, hne⟩
        · exact .inl ⟨hnow, rfl, account, List.mem_cons_self, List.mem_cons_self⟩
        · exact .inr ⟨hlive, List.forall_mem_cons.mpr ⟨hne, hnone⟩⟩

/-- What keeps the addresses of accounts, or makes an account, keeps where a link went. -/
theorem mailed_of {db' : Database D H} (hm : db'.Mailed uid h since mailbox) (hlive : db.Live uid h since)
    (haddress : ∀ address, db.address uid = some address → db'.address uid = some address) :
    db.Mailed uid h since mailbox :=
  ⟨hlive, fun address ha => hm.2 address (haddress address ha)⟩

theorem mailed_of_set_user {db' : Database D H} {f : User D H → User D H} (hm : db'.Mailed uid h since mailbox)
    (hlive : db.Live uid h since) (husers : db'.app_user = (db.set_user u f).app_user)
    (hf : u = uid → ∀ user, (f user).email = user.email) : db.Mailed uid h since mailbox := by
  apply mailed_of hm hlive
  intro address ha
  calc
    _ = (db.set_user u f).address uid := congrArg (fun t : Serial (User D H) => (t.get uid).map (·.email)) husers
    _ = db.address uid := address_set_user hf
    _ = some address := ha

theorem request_mailed {s : Server D H} {offered : Bool} {login : Str} {token : ℕ → Str}
    (hm : (step c s (.request_reset offered login now token)).db.Mailed uid h since mailbox) :
    Mails c uid h since mailbox s (.request_reset offered login now token) ∨
      (s.db.Mailed uid h since mailbox ∧ ¬ Withdraws c uid h s (.request_reset offered login now token)) := by
  rcases request_reset_cases (c := c) (s := s) offered login now token with
    hout | ⟨db, outbox, accounts, husers, hsent, hout⟩
  · rw [step, hout] at hm
    refine .inr ⟨hm, ?_⟩
    rintro ⟨letter, hletter, -⟩
    rw [hout] at hletter
    cases hletter
  · rw [step, hout] at hm
    have haddress : db.address uid = s.db.address uid := by
      unfold Database.address Database.get_user
      rw [(send_links_kept hsent).1]
    rcases send_links_live hsent hm.1 with ⟨rfl, hhash, account, haccount, hletter⟩ | ⟨hlive, hnone⟩
    · refine .inl ⟨offered, login, token, _, rfl, by rw [hout]; exact hletter, rfl, hhash, ?_⟩
      apply hm.2
      rw [haddress, Database.address, Database.get_user]
      exact congrArg (Option.map (·.email)) ((Table.get_eq_some ..).mpr (husers _ haccount))
    · refine .inr ⟨mailed_of hm hlive fun a ha => haddress.trans ha, ?_⟩
      rintro ⟨letter, hletter, huser⟩
      rw [hout] at hletter
      exact hnone letter hletter huser

theorem step_mailed (s : Server D H) (e : Act D) (hm : (step c s e).db.Mailed uid h since mailbox) :
    Mails c uid h since mailbox s e ∨ (s.db.Mailed uid h since mailbox ∧ ¬ Withdraws c uid h s e) := by
  cases e with
  | create_user within username password role fresh =>
    right
    rcases create_user_cases (c := c) (s := s) username password role with ⟨r, hout⟩ | ⟨-, -, hout⟩
    · rw [step, hout] at hm
      exact ⟨hm, id⟩
    · rw [step, hout] at hm
      exact ⟨mailed_of hm hm.1 fun _ => address_create_user, id⟩
  | change_role within u role =>
    right
    rcases change_role_cases role with ⟨r, hout⟩ | ⟨user, -, -, hout⟩
    · rw [step, hout] at hm
      exact ⟨hm, id⟩
    · rw [step, hout] at hm
      exact ⟨mailed_of_set_user hm hm.1 rfl fun _ _ => rfl, id⟩
  | delete_user caller u =>
    right
    rcases delete_user_cases caller with ⟨r, hout⟩ | ⟨user, -, -, hout⟩
    · rw [step, hout] at hm
      exact ⟨hm, fun hw => by cases hout ▸ hw.2⟩
    · rw [step, hout] at hm
      obtain ⟨hlive, hne⟩ := live_delete_user.mp hm.1
      exact ⟨mailed_of hm hlive fun a ha => (address_delete_user hne).trans ha, fun hw => hne hw.1⟩
  | login username password new_password source_ip now fresh =>
    right
    rcases perform_login_cases (c := c) username password new_password source_ip now with
      ⟨o, throttle, hout, -⟩ | ⟨uid', user, db, opened, throttle, -, -, -, hdb, hopened, hout⟩
    · rw [step, hout] at hm
      exact ⟨hm, id⟩
    · rw [step, hout] at hm
      obtain ⟨session, -, rfl⟩ := Option.map_eq_some_iff.mp hopened
      cases hdb with
      | changed new_password hmust =>
        exact ⟨mailed_of_set_user hm hm.1 rfl fun _ _ => rfl, id⟩
      | rehashed password hmust =>
        exact ⟨mailed_of_set_user hm hm.1 rfl fun _ _ => rfl, id⟩
      | same hmust => exact ⟨hm, id⟩
  | logout cookie =>
    right
    cases cookie with
    | none => exact ⟨hm, id⟩
    | some token =>
      rw [step, logout] at hm
      split at hm
      · exact ⟨hm, id⟩
      · exact ⟨hm, id⟩
  | change_password caller old_password new_password fresh =>
    right
    rcases change_password_cases caller old_password new_password with ⟨r, hout⟩ | ⟨u, user, rfl, -, -, hout⟩
    · rw [step, hout] at hm
      exact ⟨hm, id⟩
    · rw [step, hout] at hm
      exact ⟨mailed_of_set_user hm hm.1 rfl fun _ _ => rfl, id⟩
  | reset_user_password caller within u fresh =>
    right
    rcases reset_user_password_cases caller with ⟨r, hout⟩ | ⟨user, -, -, hout⟩
    · rw [step, hout] at hm
      refine ⟨hm, ?_⟩
      rintro ⟨-, temporary, hok⟩
      cases hout ▸ hok
    · rw [step, hout] at hm
      obtain ⟨hlive, hne⟩ := live_withdraw.mp hm.1
      exact ⟨mailed_of_set_user hm hlive rfl fun _ _ => rfl, fun hw => hne hw.1⟩
  | cli_reset username fresh =>
    right
    rcases cli_reset_cases username with ⟨hnone, hout⟩ | ⟨u, user, hname, hout⟩
    · rw [step, hout] at hm
      refine ⟨hm, ?_⟩
      rintro ⟨user, hname⟩
      cases hnone.symm.trans hname
    · rw [step, hout] at hm
      obtain ⟨hlive, hne⟩ := live_withdraw.mp hm.1
      refine ⟨mailed_of_set_user hm hlive rfl fun _ _ => rfl, ?_⟩
      rintro ⟨user', hname'⟩
      exact hne (congrArg Prod.fst (Option.some.inj (hname.symm.trans hname')))
  | set_profile own within u email current_password =>
    right
    rcases set_profile_cases (c := c) own email current_password with
      ⟨r, hout⟩ | ⟨rfl, hout⟩ | ⟨text, user, rfl, -, hout⟩
    · rw [step, hout] at hm
      exact ⟨hm, fun hw => by cases hout ▸ hw.2.2⟩
    · rw [step, hout] at hm
      exact ⟨hm, fun hw => nomatch hw.2.1⟩
    · rw [step, hout] at hm
      obtain ⟨hlive, hne⟩ := live_withdraw.mp hm.1
      -- the address that changes is of another account
      exact ⟨mailed_of_set_user hm hlive rfl fun hu => absurd hu hne, fun hw => hne hw.1⟩
  | request_reset offered login now token => exact request_mailed hm
  | confirm_reset token new_password now fresh =>
    right
    rcases confirm_reset_cases (c := c) (s := s) token new_password now with
      ⟨r, hout, hnot⟩ | ⟨row, husable, hout | ⟨user, -, -, hout⟩⟩
    · rw [step, hout] at hm
      refine ⟨hm, ?_⟩
      rintro ⟨rfl, hvalid, husable⟩
      rw [hnot hvalid] at husable
      cases husable
    · rw [step, hout] at hm
      obtain ⟨hlive, hnot⟩ := live_mark_used hm.1
      refine ⟨mailed_of hm hlive fun _ ha => ha, ?_⟩
      rintro ⟨rfl, -⟩
      cases (hnot rfl).symm.trans husable
    · rw [step, hout] at hm
      obtain ⟨hlive, hnot⟩ := live_mark_used hm.1
      refine ⟨mailed_of_set_user hm hlive rfl fun _ _ => rfl, ?_⟩
      rintro ⟨rfl, -⟩
      cases (hnot rfl).symm.trans husable
  | settle write =>
    right
    cases write with
    | delete session_hash => exact ⟨hm, id⟩
    | touch session_hash idle_expiry => exact ⟨hm, id⟩
  | purge now => exact .inr ⟨hm, id⟩
  | start fresh =>
    right
    rw [step, bootstrap_admin] at hm
    split at hm
    · exact ⟨hm, id⟩
    · exact ⟨mailed_of hm hm.1 fun _ => address_create_user, id⟩

/-- A link changes the password of an account only within half an hour of the request that mailed it, to the address that
is still the account's, and only while it is the one link that was mailed: it was not used, no later one was mailed, and
neither the address nor, by an administrator, the password was changed since. -/
theorem link_descends (s : Server D H) (es : List (Act D)) (fresh : Fresh) (token new_password : Str) (now : ℚ) (uid : ℕ)
    (hok : (confirm_reset c (run (step c) s es) fresh token new_password now).1 = .ok uid) :
    ∃ since mailbox, now < since + LINK_TTL_S ∧ (run (step c) s es).db.address uid = some mailbox ∧
      Descends (step c) (fun s => s.db.Mailed uid (c.hash_token token) since mailbox)
        (Mails c uid (c.hash_token token) since mailbox) (Withdraws c uid (c.hash_token token)) s es := by
  rcases confirm_reset_cases (c := c) (s := run (step c) s es) token new_password now with
    ⟨r, hout, -⟩ | ⟨row, husable, hout | ⟨user, huser, -, hout⟩⟩
  · cases (congrArg Prod.fst hout).symm.trans hok
  · cases (congrArg Prod.fst hout).symm.trans hok
  · obtain rfl := Except.ok.inj ((congrArg Prod.fst hout).symm.trans hok)
    obtain ⟨hrow, hlive⟩ := Option.filter_eq_some_iff.mp husable
    obtain ⟨hunused, hexpires⟩ := of_decide_eq_true hlive
    have haddress : (run (step c) s es).db.address row.user_id = some user.email := by
      rw [Database.address, huser]
      rfl
    refine ⟨row.expires_at - LINK_TTL_S, user.email, by rwa [sub_add_cancel], haddress, ?_⟩
    apply descends step_mailed
    refine ⟨⟨row, hrow, rfl, hunused, (sub_add_cancel ..).symm⟩, ?_⟩
    intro address ha
    exact Option.some.inj (ha.symm.trans haddress)

theorem forgotten_descends :
    (confirm_reset plain (run (step plain) {} forgotten) (drawn "salt") (lit "link") (lit "battery staple") 2000).1 = .ok 1 ∧
    ∃ since mailbox, 2000 < since + LINK_TTL_S ∧ (run (step plain) {} forgotten).db.address 1 = some mailbox ∧
      Descends (step plain) (fun s => s.db.Mailed 1 (lit "link") since mailbox)
        (Mails plain 1 (lit "link") since mailbox) (Withdraws plain 1 (lit "link")) {} forgotten := by
  have hok : (confirm_reset plain (run (step plain) {} forgotten) (drawn "salt") (lit "link") (lit "battery staple")
      2000).1 = .ok 1 := by decide +kernel
  exact ⟨hok, link_descends {} forgotten _ _ _ _ _ hok⟩

end NetCoreNoc.Identity
