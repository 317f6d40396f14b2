import Mathlib
import NetCoreNoc.Runs
import NetCoreNoc.Operate.Identity

/-! Entity resolution over the cache and the table: which entity a lookup is answered with, over lookups, commits,
and resets of the caches (`get_or_create_entity` of `store/entities.py`, `recover_writer` of `store/lifecycle.py`). -/
namespace NetCoreNoc.Operate.Entities
open Runs Operate.Identity

/-- What a lookup names: a key of an element, at a level, under a parent. -/
structure Place where
  ne_id : Nat
  parent_id : Nat
  level : Nat
  key : String
  deriving DecidableEq

structure Lookup extends Place where
  key_source : String
  confidence : ℚ

/-- The store; the answers given from rows that still are; and both as the last commit left them. -/
structure Desk where
  store : Store := {}
  answers : List (Place × Nat) := []
  durable : List Entity := []
  kept : List (Place × Nat) := []

inductive Event where
  | lookup (l : Lookup)
  | level0 (ne_id : Nat) (ip : String)
  | commit
  /-- the open transaction is undone and the caches are emptied; a restart does no more -/
  | reset

namespace Desk

def step (d : Desk) : Event → Desk
  | .lookup l =>
    let got := d.store.get_or_create_entity l.ne_id l.parent_id l.level l.key l.key_source l.confidence
    { d with store := got.1, answers := (l.toPlace, got.2) :: d.answers }
  | .level0 ne_id ip => { d with store := (d.store.entity_level0 ne_id ip).1 }
  | .commit => { d with durable := d.store.entity, kept := d.answers }
  | .reset => { d with
      store := { d.store with entity := d.durable, entity0_ids := fun _ => none, entity_ids := fun _ => none }
      answers := d.kept }

/-- The rows that the cache, or else the table, leads a lookup to. -/
def Leads (s : Store) (l : Lookup) (row : Entity) : Prop := match s.entity_ids (l.ne_id, l.key) with
  | some cached => row.id = cached
  | none => row.ne_id = l.ne_id ∧ row.parent_id = some l.parent_id ∧ row.key = l.key

/-- What a lookup is led to has the parent and the level that it names. -/
def Named (d : Desk) : Event → Prop
  | .lookup l => ∀ row ∈ d.store.entity, Leads d.store l row → row.parent_id = some l.parent_id ∧ row.level = l.level
  | _ => True

instance (s : Store) (l : Lookup) (row : Entity) : Decidable (Leads s l row) := by
  unfold Leads
  split <;> infer_instance

instance (d : Desk) (e : Event) : Decidable (d.Named e) := by cases e <;> unfold Named <;> infer_instance

end Desk

/-- One entity a place, and one place an entity. -/
def Faithful (answers : List (Place × Nat)) : Prop := ∀ x ∈ answers, ∀ y ∈ answers, x.1 = y.1 ↔ x.2 = y.2

instance (answers : List (Place × Nat)) : Decidable (Faithful answers) := by unfold Faithful; infer_instance

/-- A row is of a place. -/
def Of (row : Entity) (p : Place) : Prop :=
  row.ne_id = p.ne_id ∧ row.parent_id = some p.parent_id ∧ row.level = p.level ∧ row.key = p.key

/-- The rows with a parent, against the answers that name them. -/
structure Rows (entity : List Entity) (next : Nat) (answers : List (Place × Nat)) : Prop where
  fresh : ∀ row ∈ entity, row.id < next
  ids : ∀ row ∈ entity, ∀ other ∈ entity, row.id = other.id → row = other
  unique : ∀ row ∈ entity, ∀ other ∈ entity, row.parent_id ≠ none → row.ne_id = other.ne_id →
    row.parent_id = other.parent_id → row.key = other.key → row = other
  asked : ∀ row ∈ entity, ∀ p, Of row p → (p, row.id) ∈ answers
  answered : ∀ x ∈ answers, ∃ row ∈ entity, row.id = x.2 ∧ Of row x.1

structure Sound (d : Desk) : Prop where
  rows : Rows d.store.entity d.store.next d.answers
  durable : Rows d.durable d.store.next d.kept
  cache : ∀ ne_id key id, d.store.entity_ids (ne_id, key) = some id →
    ∃ row ∈ d.store.entity, row.id = id ∧ row.ne_id = ne_id ∧ row.key = key ∧ row.parent_id ≠ none

section Rows
variable {entity : List Entity} {next : Nat} {answers : List (Place × Nat)}

private theorem Rows.faithful (h : Rows entity next answers) : Faithful answers := by
  intro x hx y hy
  obtain ⟨row, hrow, hid, hne, hparent, hlevel, hkey⟩ := h.answered x hx
  obtain ⟨other, hother, hid', hne', hparent', hlevel', hkey'⟩ := h.answered y hy
  constructor
  · intro heq
    rw [heq] at hne hparent hkey
    have hsame := h.unique row hrow other hother (by simp [hparent]) (hne.trans hne'.symm)
      (hparent.trans hparent'.symm) (hkey.trans hkey'.symm)
    rw [← hid, ← hid', hsame]
  · intro heq
    have hsame := h.ids row hrow other hother (hid.trans (heq.trans hid'.symm))
    subst hsame
    rcases x with ⟨⟨xn, xp, xl, xk⟩, xid⟩
    rcases y with ⟨⟨yn, yp, yl, yk⟩, yid⟩
    obtain rfl := hne.symm.trans hne'
    obtain rfl := Option.some.inj (hparent.symm.trans hparent')
    obtain rfl := hlevel.symm.trans hlevel'
    obtain rfl := hkey.symm.trans hkey'
    rfl

/-- A lookup answered from a row of its place. -/
private theorem Rows.found (h : Rows entity next answers) {row : Entity} {p : Place} (hrow : row ∈ entity)
    (hof : Of row p) : Rows entity next ((p, row.id) :: answers) := by
  refine ⟨h.fresh, h.ids, h.unique, fun other hother q hq => List.mem_cons_of_mem _ (h.asked other hother q hq), ?_⟩
  intro x hx
  rcases List.mem_cons.mp hx with rfl | hx
  · exact ⟨row, hrow, rfl, hof⟩
  · exact h.answered x hx

private theorem mem_append_ids (h : Rows entity next answers) (row : Entity) (hid : row.id = next) :
    ∀ a ∈ entity ++ [row], ∀ b ∈ entity ++ [row], a.id = b.id → a = b := by
  intro a ha b hb heq
  rcases List.mem_append.mp ha with ha | ha <;> rcases List.mem_append.mp hb with hb | hb
  · exact h.ids a ha b hb heq
  · have := h.fresh a ha
    rw [List.mem_singleton.mp hb] at heq
    omega
  · have := h.fresh b hb
    rw [List.mem_singleton.mp ha] at heq
    omega
  · rw [List.mem_singleton.mp ha, List.mem_singleton.mp hb]

/-- A row is inserted for an element itself. -/
private theorem Rows.level0 (h : Rows entity next answers) {row : Entity} (hid : row.id = next)
    (hparent : row.parent_id = none) : Rows (entity ++ [row]) (next + 1) answers := by
  refine ⟨fun a ha => ?_, mem_append_ids h row hid, fun a ha b hb hnone hne hp hkey => ?_, fun a ha p hp => ?_,
    fun x hx => ?_⟩
  · rcases List.mem_append.mp ha with ha | ha
    · exact Nat.lt_succ_of_lt (h.fresh a ha)
    · rw [List.mem_singleton.mp ha, hid]
      exact Nat.lt_succ_self next
  · rcases List.mem_append.mp ha with ha | ha
    · rcases List.mem_append.mp hb with hb | hb
      · exact h.unique a ha b hb hnone hne hp hkey
      · rw [List.mem_singleton.mp hb, hparent] at hp
        exact absurd hp hnone
    · rw [List.mem_singleton.mp ha] at hnone
      exact absurd hparent hnone
  · rcases List.mem_append.mp ha with ha | ha
    · exact h.asked a ha p hp
    · rw [List.mem_singleton.mp ha] at hp
      exact absurd (hparent.symm.trans hp.2.1) nofun
  · obtain ⟨a, ha, hx⟩ := h.answered x hx
    exact ⟨a, List.mem_append_left _ ha, hx⟩

/-- A row is inserted for the place that a lookup names. -/
private theorem Rows.inserted (h : Rows entity next answers) {row : Entity} {p : Place} (hid : row.id = next)
    (hof : Of row p) (hnone : ∀ a ∈ entity, ¬ (a.ne_id = p.ne_id ∧ a.parent_id = some p.parent_id ∧ a.key = p.key)) :
    Rows (entity ++ [row]) (next + 1) ((p, next) :: answers) := by
  obtain ⟨hne, hparent, hlevel, hkey⟩ := hof
  refine ⟨fun a ha => ?_, mem_append_ids h row hid, fun a ha b hb hsome hn hp hk => ?_, fun a ha q hq => ?_,
    fun x hx => ?_⟩
  · rcases List.mem_append.mp ha with ha | ha
    · exact Nat.lt_succ_of_lt (h.fresh a ha)
    · rw [List.mem_singleton.mp ha, hid]
      exact Nat.lt_succ_self next
  · rcases List.mem_append.mp ha with ha | ha <;> rcases List.mem_append.mp hb with hb | hb
    · exact h.unique a ha b hb hsome hn hp hk
    · rw [List.mem_singleton.mp hb] at hn hp hk
      exact absurd ⟨hn.trans hne, hp.trans hparent, hk.trans hkey⟩ (hnone a ha)
    · rw [List.mem_singleton.mp ha] at hn hp hk
      exact absurd ⟨hn.symm.trans hne, hp.symm.trans hparent, hk.symm.trans hkey⟩ (hnone b hb)
    · rw [List.mem_singleton.mp ha, List.mem_singleton.mp hb]
  · rcases List.mem_append.mp ha with ha | ha
    · exact List.mem_cons_of_mem _ (h.asked a ha q hq)
    · obtain rfl := List.mem_singleton.mp ha
      obtain ⟨qne, qparent, qlevel, qkey⟩ := hq
      have : q = p := by
        rcases p with ⟨pn, pp, pl, pk⟩
        rcases q with ⟨qn, qp, ql, qk⟩
        obtain rfl := hne.symm.trans qne
        obtain rfl := Option.some.inj (hparent.symm.trans qparent)
        obtain rfl := hlevel.symm.trans qlevel
        obtain rfl := hkey.symm.trans qkey
        rfl
      rw [this, hid]
      exact List.mem_cons_self
  · rcases List.mem_cons.mp hx with rfl | hx
    · exact ⟨row, by simp, hid, hne, hparent, hlevel, hkey⟩
    · obtain ⟨a, ha, hx⟩ := h.answered x hx
      exact ⟨a, List.mem_append_left _ ha, hx⟩

private theorem Rows.later (h : Rows entity next answers) {later : Nat} (hle : next ≤ later) :
    Rows entity later answers :=
  ⟨fun row hrow => (h.fresh row hrow).trans_le hle, h.ids, h.unique, h.asked, h.answered⟩

end Rows

namespace Sound
variable {d : Desk}

private theorem lookup (h : Sound d) (l : Lookup) (hn : d.Named (.lookup l)) : Sound (d.step (.lookup l)) := by
  rcases hc : d.store.entity_ids (l.ne_id, l.key) with _ | cached
  · have hleads : ∀ row, Desk.Leads d.store l row ↔
        row.ne_id = l.ne_id ∧ row.parent_id = some l.parent_id ∧ row.key = l.key := by
      intro row
      unfold Desk.Leads
      rw [hc]
    rcases hf : d.store.entity.find? fun r => r.ne_id = l.ne_id && r.parent_id = some l.parent_id && r.key = l.key
      with _ | row
    · have hnone : ∀ a ∈ d.store.entity, ¬ (a.ne_id = l.ne_id ∧ a.parent_id = some l.parent_id ∧ a.key = l.key) := by
        intro a ha
        simpa [and_assoc] using List.find?_eq_none.mp hf a ha
      have hstep : d.step (.lookup l) = { d with
          store := { d.store with
            entity := d.store.entity ++ [⟨d.store.next, l.ne_id, some l.parent_id, l.level, l.key, l.key_source, l.confidence⟩]
            next := d.store.next + 1
            entity_ids := Function.update d.store.entity_ids (l.ne_id, l.key) (some d.store.next) }
          answers := (l.toPlace, d.store.next) :: d.answers } := by
        simp only [Desk.step, Store.get_or_create_entity, hc, hf, Store.obtain]
      rw [hstep]
      refine ⟨h.rows.inserted rfl ⟨rfl, rfl, rfl, rfl⟩ hnone, h.durable.later (Nat.le_succ _), fun ne_id key x hx => ?_⟩
      dsimp only at hx
      rcases eq_or_ne (ne_id, key) (l.ne_id, l.key) with heq | hne
      · obtain ⟨rfl, rfl⟩ := Prod.mk.inj heq
        rw [Function.update_self] at hx
        exact ⟨_, List.mem_append_right _ List.mem_cons_self, Option.some.inj hx, rfl, rfl, Option.some_ne_none _⟩
      · rw [Function.update_of_ne hne] at hx
        obtain ⟨row, hrow, hrest⟩ := h.cache ne_id key x hx
        exact ⟨row, List.mem_append_left _ hrow, hrest⟩
    · have hrow := List.mem_of_find?_eq_some hf
      have hmatch : row.ne_id = l.ne_id ∧ row.parent_id = some l.parent_id ∧ row.key = l.key := by
        simpa [and_assoc] using List.find?_some hf
      have hlevel := (hn row hrow ((hleads row).mpr hmatch)).2
      have hstep : d.step (.lookup l) = { d with
          store := { d.store with entity_ids := Function.update d.store.entity_ids (l.ne_id, l.key) (some row.id) }
          answers := (l.toPlace, row.id) :: d.answers } := by
        simp only [Desk.step, Store.get_or_create_entity, hc, hf, Store.obtain]
      rw [hstep]
      refine ⟨h.rows.found hrow ⟨hmatch.1, hmatch.2.1, hlevel, hmatch.2.2⟩, h.durable, fun ne_id key x hx => ?_⟩
      dsimp only at hx
      rcases eq_or_ne (ne_id, key) (l.ne_id, l.key) with heq | hne
      · obtain ⟨rfl, rfl⟩ := Prod.mk.inj heq
        rw [Function.update_self] at hx
        exact ⟨row, hrow, Option.some.inj hx, hmatch.1, hmatch.2.2, by simp [hmatch.2.1]⟩
      · rw [Function.update_of_ne hne] at hx
        exact h.cache ne_id key x hx
  · obtain ⟨row, hrow, rfl, hne, hkey, -⟩ := h.cache _ _ _ hc
    have hleads : Desk.Leads d.store l row := by
      unfold Desk.Leads
      rw [hc]
    obtain ⟨hparent, hlevel⟩ := hn row hrow hleads
    have hstep : d.step (.lookup l) = { d with answers := (l.toPlace, row.id) :: d.answers } := by
      simp only [Desk.step, Store.get_or_create_entity, hc]
    rw [hstep]
    exact ⟨h.rows.found hrow ⟨hne, hparent, hlevel, hkey⟩, h.durable, h.cache⟩

private theorem level0 (h : Sound d) (ne_id : Nat) (ip : String) : Sound (d.step (.level0 ne_id ip)) := by
  unfold Desk.step Store.entity_level0 Store.obtain
  dsimp only
  split
  · exact h
  · split
    · exact ⟨h.rows, h.durable, h.cache⟩
    · refine ⟨h.rows.level0 rfl rfl, h.durable.later (Nat.le_succ _), fun ne_id key x hx => ?_⟩
      obtain ⟨row, hrow, hrest⟩ := h.cache ne_id key x hx
      exact ⟨row, List.mem_append_left _ hrow, hrest⟩

private theorem step (h : Sound d) (e : Event) (hn : d.Named e) : Sound (d.step e) := by
  cases e with
  | lookup l => exact h.lookup l hn
  | level0 ne_id ip => exact h.level0 ne_id ip
  | commit => exact ⟨h.rows, h.rows, h.cache⟩
  | reset => exact ⟨h.durable, h.durable, nofun⟩

/-- A lookup that is led to a row of another parent or level is answered with it. -/
private theorem unnamed (h : Sound d) (l : Lookup) (hn : ¬ d.Named (.lookup l)) :
    ¬ Faithful (d.step (.lookup l)).answers := by
  unfold Desk.Named at hn
  push Not at hn
  obtain ⟨row, hrow, hleads, hother⟩ := hn
  -- the place that the row was made for
  have hanswer : (d.step (.lookup l)).answers = (l.toPlace, row.id) :: d.answers ∧ row.parent_id ≠ none := by
    unfold Desk.Leads at hleads
    rcases hc : d.store.entity_ids (l.ne_id, l.key) with _ | cached
    · rw [hc] at hleads
      obtain ⟨hne, hparent, hkey⟩ := hleads
      refine ⟨?_, by simp [hparent]⟩
      rcases hf : d.store.entity.find? fun r => r.ne_id = l.ne_id && r.parent_id = some l.parent_id && r.key = l.key
        with _ | found
      · have := List.find?_eq_none.mp hf row hrow
        simp [hne, hparent, hkey] at this
      · have hmatch : found.ne_id = l.ne_id ∧ found.parent_id = some l.parent_id ∧ found.key = l.key := by
          simpa [and_assoc] using List.find?_some hf
        have hsame := h.rows.unique found (List.mem_of_find?_eq_some hf) row hrow (by simp [hmatch.2.1])
          (hmatch.1.trans hne.symm) (hmatch.2.1.trans hparent.symm) (hmatch.2.2.trans hkey.symm)
        simp only [Desk.step, Store.get_or_create_entity, hc, hf, Store.obtain, hsame]
    · rw [hc] at hleads
      obtain ⟨held, hheld, hid, -, -, hparent⟩ := h.cache _ _ _ hc
      have hsame := h.rows.ids held hheld row hrow (hid.trans hleads.symm)
      refine ⟨?_, hsame ▸ hparent⟩
      simp only [Desk.step, Store.get_or_create_entity, hc, hleads]
  obtain ⟨hanswer, hparent⟩ := hanswer
  obtain ⟨parent, hparent⟩ := Option.ne_none_iff_exists'.mp hparent
  intro hfaithful
  rw [hanswer] at hfaithful
  have hasked := h.rows.asked row hrow ⟨row.ne_id, parent, row.level, row.key⟩ ⟨rfl, hparent, rfl, rfl⟩
  have hplace : l.toPlace = ⟨row.ne_id, parent, row.level, row.key⟩ :=
    (hfaithful _ List.mem_cons_self _ (List.mem_cons_of_mem _ hasked)).mpr rfl
  have hnamed : l.parent_id = parent := congrArg Place.parent_id hplace
  have hlevel : l.level = row.level := congrArg Place.level hplace
  exact hother (hnamed ▸ hparent) hlevel.symm

end Sound

private theorem start_sound : Sound {} := by
  have hrows : Rows [] 1 [] := ⟨nofun, nofun, nofun, nofun, nofun⟩
  exact ⟨hrows, hrows, nofun⟩

private theorem faithful_iff (events : List Event) (d : Desk) (h : Sound d) :
    (∀ done, done <+: events → Faithful (run Desk.step d done).answers) ↔ Meets Desk.step Desk.Named d events := by
  induction events generalizing d with
  | nil =>
    refine iff_of_true (fun done hdone => ?_) trivial
    rw [List.prefix_nil.mp hdone]
    exact h.rows.faithful
  | cons e events ih =>
    constructor
    · intro hall
      have hn : d.Named e := by
        by_contra hn
        cases e with
        | lookup l => exact h.unnamed l hn (hall [.lookup l] ⟨events, rfl⟩)
        | level0 | commit | reset => exact hn trivial
      refine ⟨hn, (ih _ (h.step e hn)).mp fun done hdone => ?_⟩
      exact hall (e :: done) ((List.prefix_cons_inj e).mpr hdone)
    · rintro ⟨hn, hrest⟩ done hdone
      cases done with
      | nil => exact h.rows.faithful
      | cons first done =>
        obtain ⟨rfl, hrest'⟩ := List.cons_prefix_cons.mp hdone
        exact (ih _ (h.step first hn)).mpr hrest done hrest'

/-- In every state of a run the lookups that are answered from a row have one entity a place, and one place an
entity, if and only if none is led to a row of another parent or level. -/
theorem lookups_faithful (events : List Event) :
    (∀ done, done <+: events → Faithful (run Desk.step {} done).answers) ↔ Meets Desk.step Desk.Named {} events :=
  faithful_iff events {} start_sound

/-- A shelf and a slot in it that have one value: the slot is answered with the shelf. And after a reset of the
caches the slot has an entity of its own, which the shelf is then answered with. -/
theorem lookups_unfaithful :
    let shelf : Event := .lookup ⟨⟨1, 1, 1, "1"⟩, "1.3.6.1.4.1.9.1", 1⟩
    let slot : Event := .lookup ⟨⟨1, 2, 2, "1"⟩, "1.3.6.1.4.1.9.2", 1⟩
    ¬ Faithful (run Desk.step {} [.level0 1 "10.0.0.1", shelf, slot]).answers ∧
    ¬ Faithful (run Desk.step {} [.level0 1 "10.0.0.1", shelf, .commit, .reset, slot, shelf]).answers := by
  decide +kernel

end NetCoreNoc.Operate.Entities
