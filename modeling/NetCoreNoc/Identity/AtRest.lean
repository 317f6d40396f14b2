import Mathlib
import NetCoreNoc.Identity.Sealed
import NetCoreNoc.Origins

/-! What the sealed database reads as, and what a copy of it shows, in every run of the appliance. -/
namespace NetCoreNoc.Sealing
open Json Tables Runs
open Base64 (urlsafe_b64decode)
open Policies.Snmp (hex fromhex_hex)

theorem hex_inj {a b : Bytes} (h : hex a = hex b) : a = b := by
  apply Option.some.inj
  rw [← fromhex_hex, h, fromhex_hex]

section Holds
variable {c : Primitives} {v : Vault} {db : Database} {q : Plain} (h : Holds c v db q)
include h

theorem Holds.run (running : Bool) : Holds c v db { q with running } :=
  ⟨h.people, h.photos, h.settings, h.last_audit, h.owner⟩

theorem Holds.kid : db.meta_table.get KID_META = some (hex v.kid) := by
  rcases h.settings.rows KID_META with ⟨-, hq⟩ | ⟨stored, value, hdb, hq, hentry⟩
  · rw [h.owner] at hq
    cases hq
  · have hvalue : hex v.kid = value := Option.some.inj (h.owner.symm.trans hq)
    have hnot : KID_META ∉ SECRETS := by decide
    rw [Entry, if_neg hnot] at hentry
    rw [hdb, hentry, hvalue]

/-- A start on a sealed database changes nothing: it is refused, but under the key that sealed it. -/
theorem Holds.open_vault (w : Vault) (draw : Database.Draw) :
    if v.kid = w.kid then db.open_vault c w draw = .ok (db, 0) else ∃ m, db.open_vault c w draw = .error (.VaultError m) := by
  split
  · rename_i hkid
    have hcheck : db.check_vault c w draw = .ok db := by
      rw [Database.check_vault, h.kid, hkid]
      exact if_pos rfl
    rw [Database.open_vault, hcheck]
    exact seal_plaintext_holds draw h w
  · rename_i hkid
    have hhex : hex v.kid ≠ hex w.kid := fun heq => hkid (hex_inj heq)
    rw [Database.open_vault, Database.check_vault, h.kid]
    simp only [hhex, if_false]
    exact ⟨_, rfl⟩

theorem Holds.person (id : ℕ) :
    db.person c v id = .ok ((q.people.get id).map fun n => (n.email, n.display_name)) := by
  rw [Database.person]
  rcases h.people.rows id with ⟨hdb, hq⟩ | ⟨u, n, hdb, hq, hemail, -, hname⟩ <;> rw [hdb, hq]
  · rfl
  · simp only [open_text_opens EMAIL hemail, open_text_opens DISPLAY_NAME hname]
    rfl

theorem Holds.get_avatar (id : ℕ) : db.get_avatar c v id = .ok (q.photos.get id) := by
  rw [Database.get_avatar]
  rcases h.photos.rows id with ⟨hdb, hq⟩ | ⟨stored, image, hdb, hq, -, hopens⟩ <;> rw [hdb, hq]
  simp only [hopens]
  rfl

theorem Holds.get_meta (key : Setting) : db.get_meta c v key = .ok (q.settings.get key.val) := by
  rw [Database.get_meta]
  rcases h.settings.rows key.val with ⟨hdb, hq⟩ | ⟨stored, value, hdb, hq, hentry⟩ <;> rw [hdb, hq]
  · split <;> rfl
  · split
    · rename_i hkey
      have hsecret : key.val ∈ SECRETS := List.mem_cons_of_mem _ hkey
      rw [Entry, if_pos hsecret] at hentry
      exact open_text_opens _ (.some hentry)
    · rename_i hkey
      have hnot : key.val ∉ SECRETS := fun hmem => (List.mem_cons.mp hmem).elim key.property.2 hkey
      rw [Entry, if_neg hnot] at hentry
      rw [hentry]

end Holds

/-! What a copy shows -/

section Shows
variable (c : Primitives) (v : Vault)

end Shows

section Shown
variable {c : Primitives} (hc : c.Lawful) {v : Vault} (hv : v.kid.length = KID)
include hc hv

end Shown

/-! Runs -/

/-- The appliance and what it reads as, between two acts: sealed under one key of a set, or as an earlier release left it. -/
def Refines (c : Primitives) (K : Vault → Prop) (s : Appliance) (q : Plain) : Prop :=
  (∃ v, K v ∧ Holds c v s.db q ∧ s.current = if q.running then some v else none) ∨
    (Earlier s.db q ∧ s.current = none ∧ q.running = false)

/-- The key that an act starts the appliance with. -/
def Act.Starts (c : Primitives) (e : Act) (v : Vault) : Prop := ∃ key draw, e = .start key draw ∧ Vault.from_key c key = .ok v

theorem Earlier.run {db : Database} {q : Plain} (h : Earlier db q) (running : Bool) : Earlier db { q with running } :=
  ⟨h.people, h.photos, h.settings, h.last_audit, h.kid, h.anchor⟩

theorem write_running (q : Plain) (w : Write) : (q.write w).running = q.running := by
  cases w <;> simp only [Plain.write] <;> first | rfl | (split <;> rfl)

section Step
variable {c : Primitives} (hc : c.Lawful) {K : Vault → Prop} (hlength : ∀ v, K v → v.kid.length = KID)
  (hkid : ∀ v w, K v → K w → v.kid = w.kid → v = w) {s : Appliance} {q : Plain}
include hc hlength

private theorem write_refines (w : Write) (h : Refines c K s q) : Refines c K (s.step c (.write w)) (q.step c (.write w)) := by
  rcases h with ⟨v, hv, hholds, hcurrent⟩ | ⟨hearlier, hcurrent, hrunning⟩
  · cases hrunning : q.running with
    | true =>
      rw [hrunning, if_pos rfl] at hcurrent
      simp only [Appliance.step, hcurrent, Plain.step, hrunning, if_true]
      refine .inl ⟨v, hv, write_holds hc (hlength v hv) hholds w, ?_⟩
      rw [write_running, hrunning]
      rfl
    | false =>
      rw [hrunning, if_neg Bool.false_ne_true] at hcurrent
      simp only [Appliance.step, hcurrent, Plain.step, hrunning, Bool.false_eq_true, if_false]
      refine .inl ⟨v, hv, hholds, ?_⟩
      rw [hcurrent, hrunning]
      rfl
  · simp only [Appliance.step, hcurrent, Plain.step, hrunning, Bool.false_eq_true, if_false]
    exact .inr ⟨hearlier, hcurrent, hrunning⟩

include hkid

private theorem start_refines {key : Bytes} {draw : Database.Draw} (hkey : ∀ v, Vault.from_key c key = .ok v → K v)
    (h : Refines c K s q) : Refines c K (s.step c (.start key draw)) (q.step c (.start key draw)) := by
  cases hw : Vault.from_key c key with
  | error e =>
    simp only [Appliance.step, hw, Plain.step]
    rcases h with ⟨v, hv, hholds, -⟩ | ⟨hearlier, -, -⟩
    · exact .inl ⟨v, hv, hholds.run false, rfl⟩
    · exact .inr ⟨hearlier.run false, rfl, rfl⟩
  | ok w =>
    have hKw := hkey w hw
    rcases h with ⟨v, hv, hholds, -⟩ | ⟨hearlier, -, -⟩
    · have hopen := hholds.open_vault w draw
      split at hopen
      · rename_i heq
        obtain rfl := hkid v w hv hKw heq
        simp only [Appliance.step, hw, hopen, Plain.step, hholds.owner]
        exact .inl ⟨v, hv, hholds.run _, by simp⟩
      · rename_i hne
        obtain ⟨m, hm⟩ := hopen
        have hhex : hex v.kid ≠ hex w.kid := fun heq => hne (hex_inj heq)
        simp only [Appliance.step, hw, hm, Plain.step, hholds.owner, hhex, decide_false]
        exact .inl ⟨v, hv, hholds.run false, rfl⟩
    · obtain ⟨db', n, hopen, hholds⟩ := open_vault_earlier hc (hlength w hKw) draw hearlier
      have hnone : q.settings.get KID_META = none := by
        have hsome := hearlier.settings.isSome KID_META
        rw [hearlier.kid] at hsome
        simpa using hsome.symm
      simp only [Appliance.step, hw, hopen, Plain.step, hnone]
      exact .inl ⟨w, hKw, hholds.run true, rfl⟩

theorem step_refines {e : Act} (he : ∀ v, e.Starts c v → K v) (h : Refines c K s q) :
    Refines c K (s.step c e) (q.step c e) := by
  cases e with
  | start key draw => exact start_refines hc hlength hkid (fun v hv => he v ⟨key, draw, rfl, hv⟩) h
  | stop =>
    rcases h with ⟨v, hv, hholds, -⟩ | ⟨hearlier, -, -⟩
    · exact .inl ⟨v, hv, hholds.run false, rfl⟩
    · exact .inr ⟨hearlier.run false, rfl, rfl⟩
  | write w => exact write_refines hc hlength w h

end Step

/-! What holds in every run -/

/-- A key that an act of the run starts the appliance with. -/
def Used (c : Primitives) (es : List Act) (v : Vault) : Prop := ∃ e ∈ es, e.Starts c v

/-- The identifiers of the keys of a run tell them apart. -/
def Apart (c : Primitives) (es : List Act) : Prop := ∀ v w, Used c es v → Used c es w → v.kid = w.kid → v = w

section Run
variable {c : Primitives} (hc : c.Lawful) {es : List Act} (hkids : Apart c es) {db : Database} {q : Plain}
  (h : Earlier db q) (hq : q.running = false)
include hc hkids h hq

theorem run_refines : Refines c (Used c es) (run (Appliance.step c) ⟨db, none⟩ es) (run (Plain.step c) q es) := by
  have hlength (v : Vault) (hv : Used c es v) : v.kid.length = KID := by
    obtain ⟨e, -, key, draw, -, hkey⟩ := hv
    exact Vault.length_kid hc hkey
  have hstep (s : Appliance) (q : Plain) (e : Act) (he : e ∈ es) (hR : Refines c (Used c es) s q) :
      Refines c (Used c es) (s.step c e) (q.step c e) :=
    step_refines hc hlength hkids (fun v hv => ⟨e, he, hv⟩) hR
  exact run_simulates hstep _ _ es (fun e he => he) (.inr ⟨h, rfl, hq⟩)

/-- Whatever was started, stopped and written before, a running appliance reads what a database reads that nothing is
sealed in. -/
theorem sealed_reads :
    (run (Appliance.step c) ⟨db, none⟩ es).current.isSome = (run (Plain.step c) q es).running ∧
      ∀ v, (run (Appliance.step c) ⟨db, none⟩ es).current = some v →
        (∀ id, (run (Appliance.step c) ⟨db, none⟩ es).db.person c v id =
          .ok (((run (Plain.step c) q es).people.get id).map fun n => (n.email, n.display_name))) ∧
        (∀ id, (run (Appliance.step c) ⟨db, none⟩ es).db.get_avatar c v id = .ok ((run (Plain.step c) q es).photos.get id)) ∧
        ∀ key : Setting, (run (Appliance.step c) ⟨db, none⟩ es).db.get_meta c v key =
          .ok ((run (Plain.step c) q es).settings.get key.val) := by
  rcases run_refines hc hkids h hq with ⟨v, -, hholds, hcurrent⟩ | ⟨-, hcurrent, hrunning⟩
  · refine ⟨?_, ?_⟩
    · rw [hcurrent]
      split <;> simp_all
    · intro w hw
      rw [hcurrent] at hw
      split at hw
      · obtain rfl := Option.some.inj hw
        exact ⟨hholds.person, hholds.get_avatar, hholds.get_meta⟩
      · cases hw
  · refine ⟨?_, ?_⟩
    · rw [hcurrent, hrunning]
      rfl
    · intro w hw
      rw [hcurrent] at hw
      cases hw

end Run

/-! A run -/

def drawn : Database.Draw := fun _ _ => ⟨List.replicate NONCE 7, rfl⟩

def first_key : Bytes := List.replicate KEY_BYTES 1
def other_key : Bytes := List.replicate KEY_BYTES 2

/-- An address and a mail password that were kept plain. -/
def earlier : Database where
  app_user := Table.empty.upsert 1 { email := some (lit "a@b.c") } fun _ => { email := some (lit "a@b.c") }
  meta_table := Table.empty.upsert (lit "config.email") (lit "secret") fun _ => lit "secret"

def shown : Plain where
  people := Table.empty.upsert 1 { email := some (lit "a@b.c") } fun _ => { email := some (lit "a@b.c") }
  settings := Table.empty.upsert (lit "config.email") (lit "secret") fun _ => lit "secret"

/-- The appliance starts, takes a name and a photo, is given another key file and its own again. -/
def acts : List Act := [.start first_key drawn, .write (.set_display_name 1 (some (lit "Ann")) (drawn [] 0)),
  .write (.put_avatar 1 [1, 2, 3] (drawn [] 0)), .stop, .start other_key drawn, .start first_key drawn]

theorem earlier_shown : Earlier earlier shown where
  people := Table.Related.put (fun _ => .none) ⟨rfl, fun s hs => Option.some.inj hs ▸ by decide, fun _ hs => by cases hs⟩
  photos := fun _ => .none
  settings := Table.Related.put (fun _ => .none)
    ⟨rfl, fun _ s hs => Option.some.inj hs ▸ by decide⟩
  last_audit := rfl
  kid := by decide
  anchor := by decide

theorem apart_acts : Apart bare acts := by
  have hused (v : Vault) (hv : Used bare acts v) :
      Vault.from_key bare first_key = .ok v ∨ Vault.from_key bare other_key = .ok v := by
    obtain ⟨e, he, key, draw, rfl, hkey⟩ := hv
    simp only [acts, List.mem_cons, List.not_mem_nil, or_false, Act.start.injEq, reduceCtorEq, false_or] at he
    rcases he with ⟨rfl, -⟩ | ⟨rfl, -⟩ | ⟨rfl, -⟩
    · exact .inl hkey
    · exact .inr hkey
    · exact .inl hkey
  have hkid (v w : Vault) (hv : Vault.from_key bare first_key = .ok v) (hw : Vault.from_key bare other_key = .ok w) :
      v.kid ≠ w.kid := by
    obtain rfl := Except.ok.inj hv
    obtain rfl := Except.ok.inj hw
    decide +kernel
  intro v w hv hw heq
  rcases hused v hv with hv | hv <;> rcases hused w hw with hw | hw
  · exact Except.ok.inj (hv.symm.trans hw)
  · exact absurd heq (hkid v w hv hw)
  · exact absurd heq.symm (hkid w v hw hv)
  · exact Except.ok.inj (hv.symm.trans hw)

theorem acts_read : ∃ v, (run (Appliance.step bare) ⟨earlier, none⟩ acts).current = some v ∧
    (run (Appliance.step bare) ⟨earlier, none⟩ acts).db.person bare v 1 = .ok (some (some (lit "a@b.c"), some (lit "Ann"))) := by
  obtain ⟨hrunning, hreads⟩ := sealed_reads bare_lawful apart_acts earlier_shown rfl
  obtain ⟨v, hv⟩ := Option.isSome_iff_exists.mp (hrunning.trans (by decide))
  refine ⟨v, hv, ((hreads v hv).1 1).trans ?_⟩
  decide +kernel

end NetCoreNoc.Sealing
