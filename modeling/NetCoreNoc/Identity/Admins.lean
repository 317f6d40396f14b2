import Mathlib
import NetCoreNoc.Identity.Outcomes

/-! After a start there is an account that administers the appliance, through every run (`crosscutting/administration.py`),
and no two accounts ever share a name. -/
namespace NetCoreNoc.Identity
open Tables Runs Json Text Api.Throttle

variable {D H : Type} {c : Crypto D H} {uid u : ℕ} {db : Database D H}

/-- An enabled administrator -/
def Database.Administered (db : Database D H) : Prop := ∃ uid user, db.get_user uid = some user ∧ user.enabled_admin = true

/-- A name is of one account. -/
def Database.Distinct (db : Database D H) : Prop :=
  ∀ i j v w, db.get_user i = some v → db.get_user j = some w → v.username = w.username → i = j

theorem mem_users {v : User D H} : (u, v) ∈ db.users ↔ db.get_user u = some v := (Table.get_eq_some ..).symm

theorem count_pos {excluding : Option ℕ} : 0 < db.count_enabled_admins excluding ↔
    ∃ uid user, db.get_user uid = some user ∧ user.enabled_admin = true ∧ excluding ≠ some uid := by
  refine List.length_pos_iff_exists_mem.trans ⟨?_, ?_⟩
  · rintro ⟨⟨uid, user⟩, hmem⟩
    obtain ⟨hin, hadmin⟩ := List.mem_filter.mp hmem
    exact ⟨uid, user, mem_users.mp hin, of_decide_eq_true hadmin⟩
  · rintro ⟨uid, user, hget, hadmin⟩
    exact ⟨(uid, user), List.mem_filter.mpr ⟨mem_users.mpr hget, decide_eq_true hadmin⟩⟩

/-- What is let through leaves an administrator: the account is none, stays one, or is not the only one. -/
theorem remaining {user : User D H} {new_role : Option Role} {deleting : Bool}
    (h : would_remove_last_admin db u user new_role deleting false = false) :
    user.enabled_admin = false ∨ (deleting = false ∧ new_role = some .admin) ∨
      ∃ other v, db.get_user other = some v ∧ v.enabled_admin = true ∧ other ≠ u := by
  unfold would_remove_last_admin at h
  split at h
  · rename_i hadmin
    exact .inl (Bool.eq_false_iff.mpr hadmin)
  · split at h
    · rename_i hstays
      exact .inr (.inl ⟨Bool.eq_false_iff.mpr hstays.1, hstays.2.2⟩)
    · obtain ⟨other, v, hget, hadmin, hne⟩ := count_pos.mp (Nat.pos_of_ne_zero (of_decide_eq_false h))
      exact .inr (.inr ⟨other, v, hget, hadmin, fun heq => hne (congrArg some heq.symm)⟩)

variable {f : User D H → User D H}

theorem get_set_user : (db.set_user u f).get_user uid =
    (db.get_user uid).map fun v => if uid = u then f v else v := by
  refine (Serial.get_update _ _ _ f).trans (congrArg (Option.map · _) ?_)
  funext v
  exact if_congr decide_eq_true_iff rfl rfl

theorem get_delete_user [DecidableEq D] (hne : uid ≠ u) : (db.delete_user u).get_user uid = db.get_user uid := by
  refine (Serial.get_delete ..).trans ?_
  cases hget : db.app_user.get uid with
  | none => exact hget.symm
  | some v => exact (Option.filter_some_pos (by rw [decide_eq_false hne]; rfl)).trans hget.symm

/-- An account's row is changed, and what makes it an administrator, or its name, is not. -/
theorem administered_set_user (h : db.Administered)
    (hf : ∀ v, db.get_user u = some v → v.enabled_admin = true → (f v).enabled_admin = true) :
    (db.set_user u f).Administered := by
  obtain ⟨uid, user, hget, hadmin⟩ := h
  refine ⟨uid, _, get_set_user.trans (congrArg _ hget), ?_⟩
  split
  · rename_i heq
    exact hf user (heq ▸ hget) hadmin
  · exact hadmin

theorem administered_create_user {username : Str} {password_hash : H} {role : Role} (h : db.Administered) :
    (db.create_user username password_hash role true).Administered := by
  obtain ⟨uid, user, hget, hadmin⟩ := h
  refine ⟨uid, user, ?_, hadmin⟩
  rw [← hget]
  exact (Serial.get_insert ..).trans (if_neg (db.app_user.below uid user hget).ne)

theorem distinct_set_user (h : db.Distinct) (hf : ∀ v, (f v).username = v.username) :
    (db.set_user u f).Distinct := by
  have hname (k : ℕ) (v : User D H) : (if k = u then f v else v).username = v.username := by
    split
    · exact hf v
    · rfl
  intro i j v w hv hw heq
  obtain ⟨v, hi, rfl⟩ := Option.map_eq_some_iff.mp (get_set_user.symm.trans hv)
  obtain ⟨w, hj, rfl⟩ := Option.map_eq_some_iff.mp (get_set_user.symm.trans hw)
  exact h i j v w hi hj (by rwa [hname, hname] at heq)

theorem get_user_by_name_none {username : Str} (h : db.get_user_by_name username = none) {v : User D H}
    (hv : db.get_user u = some v) : v.username ≠ username :=
  fun heq => List.find?_eq_none.mp h (u, v) (mem_users.mpr hv) (decide_eq_true heq)

theorem distinct_create_user {username : Str} {password_hash : H} {role : Role} (h : db.Distinct)
    (hfree : db.get_user_by_name username = none) : (db.create_user username password_hash role true).Distinct := by
  have hget (k : ℕ) : (db.create_user username password_hash role true).get_user k =
      if k = db.app_user.next then some { username, password_hash, role, must_change_password := true }
      else db.get_user k := Serial.get_insert ..
  intro i j v w hv hw heq
  rw [hget] at hv hw
  split at hv
  · rename_i hi
    split at hw
    · rename_i hj
      exact hi.trans hj.symm
    · obtain rfl := Option.some.inj hv
      exact absurd heq.symm (get_user_by_name_none hfree hw)
  · split at hw
    · obtain rfl := Option.some.inj hw
      exact absurd heq (get_user_by_name_none hfree hv)
    · exact h i j v w hv hw heq

theorem distinct_delete_user [DecidableEq D] (h : db.Distinct) : (db.delete_user u).Distinct := by
  intro i j v w hv hw heq
  have hi := (Option.filter_eq_some_iff.mp ((Serial.get_delete ..).symm.trans hv)).1
  have hj := (Option.filter_eq_some_iff.mp ((Serial.get_delete ..).symm.trans hw)).1
  exact h i j v w hi hj heq

/-! The name of the account that a start makes -/

theorem numbered_injective : Function.Injective numbered := by
  intro m n h
  rw [← toNat_natText m, ← toNat_natText n]
  exact congrArg toNat (List.append_cancel_left h)

theorem free_suffix_free {fuel k : ℕ} (h : ∃ i < fuel, db.get_user_by_name (numbered (k + i)) = none) :
    db.get_user_by_name (numbered (free_suffix db fuel k)) = none := by
  induction fuel generalizing k with
  | zero => exact absurd h.choose_spec.1 (Nat.not_lt_zero _)
  | succ fuel ih =>
    rw [free_suffix]
    split
    · rename_i hfree
      exact Option.isNone_iff_eq_none.mp hfree
    · rename_i hheld
      obtain ⟨i, hi, hfree⟩ := h
      cases i with
      | zero => exact absurd (Option.isNone_iff_eq_none.mpr hfree) hheld
      | succ i => exact ih ⟨i, Nat.lt_of_succ_lt_succ hi, by rwa [Nat.add_right_comm]⟩

/-- One of more names than there are accounts is free. -/
theorem exists_free (db : Database D H) : ∃ i < db.users.length + 1, db.get_user_by_name (numbered (2 + i)) = none := by
  by_contra hheld
  push Not at hheld
  have hsub : (Finset.range (db.users.length + 1)).image (fun i => numbered (2 + i)) ⊆
      (db.users.map fun v => v.2.username).toFinset := by
    intro name hname
    obtain ⟨i, hi, rfl⟩ := Finset.mem_image.mp hname
    obtain ⟨v, hv⟩ := Option.ne_none_iff_exists'.mp (hheld i (Finset.mem_range.mp hi))
    have hname := List.find?_some (l := db.users) hv
    rw [List.mem_toFinset, ← of_decide_eq_true hname]
    exact List.mem_map_of_mem (f := fun v : ℕ × User D H => v.2.username) (List.mem_of_find?_eq_some hv)
  have hcard := (Finset.card_le_card hsub).trans (List.toFinset_card_le _)
  have hinjective : Function.Injective fun i => numbered (2 + i) := numbered_injective.comp (add_right_injective 2)
  rw [Finset.card_image_of_injective _ hinjective, Finset.card_range, List.length_map] at hcard
  omega

theorem free_username_free (db : Database D H) : db.get_user_by_name (free_username db) = none := by
  unfold free_username
  split
  · rename_i h
    exact Option.isNone_iff_eq_none.mp h
  · split
    · rename_i h
      exact Option.isNone_iff_eq_none.mp h
    · exact free_suffix_free (exists_free db)

/-! What each request keeps -/

/-- The accounts of a database are administered, and their names distinct. -/
structure Database.Governed (db : Database D H) : Prop where
  administered : db.Administered
  distinct : db.Distinct

/-- Sessions and links have no part in it. -/
theorem governed_of {db' : Database D H} (h : db.Governed) (husers : db'.app_user = db.app_user) : db'.Governed := by
  obtain ⟨hadmin, hdistinct⟩ := h
  unfold Database.Administered Database.get_user at hadmin
  unfold Database.Distinct Database.get_user at hdistinct
  rw [← husers] at hadmin hdistinct
  exact ⟨hadmin, hdistinct⟩

theorem governed_set_user {db' : Database D H} (h : db.Governed)
    (husers : db'.app_user = (db.set_user u f).app_user)
    (hf : ∀ v, (f v).enabled_admin = v.enabled_admin ∧ (f v).username = v.username) : db'.Governed := by
  refine governed_of ⟨?_, ?_⟩ husers
  · exact administered_set_user h.administered fun v _ hv => (hf v).1.trans hv
  · exact distinct_set_user h.distinct fun v => (hf v).2

variable {s : Server D H} {within : Role → Bool}

theorem change_role_governed (role : Role) (h : s.db.Governed) : (change_role s within u role).2.db.Governed := by
  rcases change_role_cases role with ⟨r, hout⟩ | ⟨user, huser, hlast, hout⟩
  · rw [hout]
    exact h
  · rw [hout]
    refine ⟨?_, distinct_set_user h.distinct fun _ => rfl⟩
    rcases remaining hlast with hnone | ⟨-, hstays⟩ | ⟨other, v, hget, hadmin, hne⟩
    · refine administered_set_user h.administered fun v hv hadmin => ?_
      obtain rfl := Option.some.inj (huser.symm.trans hv)
      cases hnone.symm.trans hadmin
    · obtain rfl := Option.some.inj hstays
      refine administered_set_user h.administered fun v _ hadmin => ?_
      exact decide_eq_true ⟨rfl, (of_decide_eq_true hadmin).2⟩
    · refine ⟨other, v, get_set_user.trans ?_, hadmin⟩
      rw [hget, Option.map_some, if_neg hne]

theorem delete_user_governed [DecidableEq D] (caller : Option ℕ) (h : s.db.Governed) :
    (delete_user s caller u).2.db.Governed := by
  rcases delete_user_cases caller with ⟨r, hout⟩ | ⟨user, huser, hlast, hout⟩
  · rw [hout]
    exact h
  · rw [hout]
    have hrevoked : (s.db.revoke_user_sessions u).Governed := governed_of h rfl
    refine ⟨?_, distinct_delete_user hrevoked.distinct⟩
    -- whoever administers is another than the account that goes
    obtain ⟨other, v, hget, hadmin, hne⟩ : ∃ other v, s.db.get_user other = some v ∧ v.enabled_admin = true ∧ other ≠ u := by
      rcases remaining hlast with hnone | ⟨hdeleting, -⟩ | hother
      · obtain ⟨other, v, hget, hadmin⟩ := h.administered
        refine ⟨other, v, hget, hadmin, ?_⟩
        rintro rfl
        obtain rfl := Option.some.inj (huser.symm.trans hget)
        cases hnone.symm.trans hadmin
      · cases hdeleting
      · exact hother
    exact ⟨other, v, (get_delete_user hne).trans hget, hadmin⟩

variable [DecidableEq D]

theorem login_governed {fresh : Fresh} (username password : Str) (new_password : Option Str) (source_ip : Str) (now : ℚ)
    (h : s.db.Governed) : (perform_login c s fresh username password new_password source_ip now).2.db.Governed := by
  rcases perform_login_cases (c := c) username password new_password source_ip now with
    ⟨o, throttle, hout, -⟩ | ⟨uid, user, db, opened, throttle, -, -, -, hdb, hopened, hout⟩
  · rw [hout]
    exact h
  · rw [hout]
    obtain ⟨session, -, rfl⟩ := Option.map_eq_some_iff.mp hopened
    cases hdb with
    | changed new_password hmust => exact governed_set_user h rfl fun _ => ⟨rfl, rfl⟩
    | rehashed password hmust => exact governed_set_user h rfl fun _ => ⟨rfl, rfl⟩
    | same hmust => exact governed_of h rfl

theorem step_governed (s : Server D H) (e : Act D) (h : s.db.Governed) : (step c s e).db.Governed := by
  cases e with
  | create_user within username password role fresh =>
    rcases create_user_cases (c := c) (s := s) username password role with ⟨r, hout⟩ | ⟨hfree, -, hout⟩
    · rw [step, hout]
      exact h
    · rw [step, hout]
      exact ⟨administered_create_user h.administered, distinct_create_user h.distinct hfree⟩
  | change_role within u role => exact change_role_governed role h
  | delete_user caller u => exact delete_user_governed caller h
  | login username password new_password source_ip now fresh =>
    exact login_governed username password new_password source_ip now h
  | logout cookie =>
    cases cookie with
    | none => exact h
    | some token =>
      rw [step, logout]
      split
      · exact h
      · exact governed_of h rfl
  | change_password caller old_password new_password fresh =>
    rcases change_password_cases caller old_password new_password with ⟨r, hout⟩ | ⟨u, user, -, -, -, hout⟩
    · rw [step, hout]
      exact h
    · rw [step, hout]
      exact governed_set_user h rfl fun _ => ⟨rfl, rfl⟩
  | reset_user_password caller within u fresh =>
    rcases reset_user_password_cases caller with ⟨r, hout⟩ | ⟨user, -, -, hout⟩
    · rw [step, hout]
      exact h
    · rw [step, hout]
      exact governed_set_user h rfl fun _ => ⟨rfl, rfl⟩
  | cli_reset username fresh =>
    rcases cli_reset_cases username with ⟨-, hout⟩ | ⟨u, user, -, hout⟩
    · rw [step, hout]
      exact h
    · rw [step, hout]
      exact governed_set_user h rfl fun _ => ⟨rfl, rfl⟩
  | set_profile own within u email current_password =>
    rcases set_profile_cases (c := c) own email current_password with
      ⟨r, hout⟩ | ⟨-, hout⟩ | ⟨text, user, -, -, hout⟩
    · rw [step, hout]
      exact h
    · rw [step, hout]
      exact h
    · rw [step, hout]
      exact governed_set_user h rfl fun _ => ⟨rfl, rfl⟩
  | request_reset offered login now token =>
    rcases request_reset_cases (c := c) (s := s) offered login now token with
      hout | ⟨db, outbox, accounts, -, hsent, hout⟩
    · rw [step, hout]
      exact h
    · rw [step, hout]
      exact governed_of h (send_links_kept hsent).1
  | confirm_reset token new_password now fresh =>
    rcases confirm_reset_cases (c := c) (s := s) token new_password now with
      ⟨r, hout, -⟩ | ⟨row, -, hout | ⟨user, -, -, hout⟩⟩
    · rw [step, hout]
      exact h
    · rw [step, hout]
      exact governed_of h rfl
    · rw [step, hout]
      exact governed_set_user h rfl fun _ => ⟨rfl, rfl⟩
  | settle write =>
    cases write with
    | delete session_hash => exact governed_of h rfl
    | touch session_hash idle_expiry => exact governed_of h rfl
  | purge now => exact governed_of h rfl
  | start fresh =>
    rw [step, bootstrap_admin]
    split
    · exact h
    · exact ⟨administered_create_user h.administered, distinct_create_user h.distinct (free_username_free _)⟩

/-- From any database whose accounts have distinct names, whether or not it has lost its last administrator: once the
process has started there is an enabled administrator, whatever is done after that and in whatever order, and no two accounts
come to share a name. -/
theorem always_administered (s : Server D H) (hdistinct : s.db.Distinct) (fresh : Fresh) (es : List (Act D)) :
    (run (step c) (step c s (.start fresh)) es).db.Governed := by
  apply run_always step_governed
  rw [step, bootstrap_admin]
  split
  · rename_i hcount
    obtain ⟨uid, user, hget, hadmin, -⟩ := count_pos.mp hcount
    exact ⟨⟨uid, user, hget, hadmin⟩, hdistinct⟩
  · refine ⟨⟨s.db.app_user.next, _, (Serial.get_insert ..).trans (if_pos rfl), rfl⟩, ?_⟩
    exact distinct_create_user hdistinct (free_username_free _)

theorem first_administered : (run (step plain) (step plain {} (.start (drawn "temporary"))) signed_in).db.Governed :=
  always_administered {} (fun _ _ _ _ hv => nomatch hv) (drawn "temporary") signed_in

end NetCoreNoc.Identity
