import Mathlib
import NetCoreNoc.Operate.Identity

/-! A restart and the identity of alarms: the entities of an element as a tree, the caches that agree with
it, and the same trap before and after. -/
namespace NetCoreNoc.Operate.Identity
open Writeback

/-- The values that a trap names, down the chain to the first that is absent. -/
def namedBy (event : Trap) : List String → List String
  | [] => []
  | oid :: oids => match event.varbinds.lookup oid with
    | none => []
    | some value => truncated value :: namedBy event oids

/-- No value that is named is the key of an entity elsewhere: at another level, or under another parent. -/
structure Contained (rows : List Entity) (ne_id : Nat) (values : List String) : Prop where
  distinct : values.Nodup
  placed : ∀ row ∈ rows, row.ne_id = ne_id → 1 ≤ row.level → row.key ∈ values →
    values[row.level - 1]? = some row.key
  below : ∀ row ∈ rows, row.ne_id = ne_id → 1 ≤ row.level → row.key ∈ values →
    ∀ parent ∈ rows, row.parent_id = some parent.id → 1 ≤ parent.level → values[parent.level - 1]? = some parent.key

/-- The rows are one tree an element, with keys that differ, and the caches agree with them. -/
structure Tree (s : Store) : Prop where
  lt_next : ∀ row ∈ s.entity, row.id < s.next
  unique : ∀ row ∈ s.entity, ∀ row' ∈ s.entity, row.id = row'.id → row = row'
  root : ∀ row ∈ s.entity, ∀ row' ∈ s.entity, row.ne_id = row'.ne_id → row.level = 0 → row'.level = 0 → row = row'
  top : ∀ row ∈ s.entity, row.level = 0 ↔ row.parent_id = none
  parent : ∀ row ∈ s.entity, 1 ≤ row.level → ∃ parent ∈ s.entity, row.parent_id = some parent.id ∧
    parent.ne_id = row.ne_id ∧ parent.level + 1 = row.level
  keys : ∀ row ∈ s.entity, ∀ row' ∈ s.entity, row.ne_id = row'.ne_id → 1 ≤ row.level → 1 ≤ row'.level →
    row.key = row'.key → row = row'
  cached0 : ∀ ne_id id, s.entity0_ids ne_id = some id → ∃ row ∈ s.entity, row.id = id ∧ row.ne_id = ne_id ∧ row.level = 0
  cached : ∀ ne_id key id, s.entity_ids (ne_id, key) = some id →
    ∃ row ∈ s.entity, row.id = id ∧ row.ne_id = ne_id ∧ 1 ≤ row.level ∧ row.key = key

/-- The entity of an element with a key, wherever it is. -/
def Store.held (s : Store) (ne_id : Nat) (key : String) : Option Nat :=
  (s.entity.find? fun row => row.ne_id = ne_id && 1 ≤ row.level && row.key = key).map (·.id)

def Store.rooted (s : Store) (ne_id : Nat) : Option Nat :=
  (s.entity.find? fun row => row.ne_id = ne_id && row.level = 0).map (·.id)

/-- A level of a walk: the entity that it has come to. -/
def At (s : Store) (ne_id : Nat) (values : List String) (level id : Nat) : Prop :=
  ∃ row ∈ s.entity, row.id = id ∧ row.ne_id = ne_id ∧ row.level = level ∧
    (1 ≤ level → values[level - 1]? = some row.key)

section Tree
variable {s : Store} {ne_id : Nat} {values : List String} {key : String} (h : Tree s)
include h

theorem Tree.held_iff (row : Entity) (hrow : row ∈ s.entity) (hne : row.ne_id = ne_id) (hlevel : 1 ≤ row.level)
    (hkey : row.key = key) : s.held ne_id key = some row.id := by
  rw [Store.held]
  cases hfind : s.entity.find? fun row => row.ne_id = ne_id && 1 ≤ row.level && row.key = key with
  | none =>
    have := List.find?_eq_none.mp hfind row hrow
    simp [hne, hlevel, hkey] at this
  | some row' =>
    have hp := List.find?_some hfind
    simp only [Bool.and_eq_true, decide_eq_true_eq] at hp
    rw [h.keys row' (List.mem_of_find?_eq_some hfind) row hrow (hp.1.1.trans hne.symm) hp.1.2 hlevel (hp.2.trans hkey.symm)]
    rfl

theorem Tree.rooted_iff (row : Entity) (hrow : row ∈ s.entity) (hne : row.ne_id = ne_id) (hlevel : row.level = 0) :
    s.rooted ne_id = some row.id := by
  rw [Store.rooted]
  cases hfind : s.entity.find? fun row => row.ne_id = ne_id && row.level = 0 with
  | none =>
    have := List.find?_eq_none.mp hfind row hrow
    simp [hne, hlevel] at this
  | some row' =>
    have hp := List.find?_some hfind
    simp only [Bool.and_eq_true, decide_eq_true_eq] at hp
    rw [h.root row' (List.mem_of_find?_eq_some hfind) row hrow (hp.1.trans hne.symm) hp.2 hlevel]
    rfl

/-- The row of an entity, of those that were there or the one that was inserted. -/
theorem Tree.insert (row : Entity) (hid : row.id = s.next)
    (hroot : row.level = 0 → row.parent_id = none ∧ s.rooted row.ne_id = none)
    (hparent : 1 ≤ row.level → s.held row.ne_id row.key = none ∧ ∃ parent ∈ s.entity, row.parent_id = some parent.id ∧
      parent.ne_id = row.ne_id ∧ parent.level + 1 = row.level) :
    Tree { s with entity := s.entity ++ [row], next := s.next + 1 } := by
  have hold {a : Entity} (ha : a ∈ s.entity) : a ∈ s.entity ++ [row] := List.mem_append_left _ ha
  have hcases {a : Entity} (ha : a ∈ s.entity ++ [row]) : a ∈ s.entity ∨ a = row := by simpa using ha
  have hnoroot {a : Entity} (ha : a ∈ s.entity) (hne : a.ne_id = row.ne_id) (h0 : a.level = 0) : row.level ≠ 0 := by
    intro hrow
    have hnone := (hroot hrow).2
    rw [h.rooted_iff a ha hne h0] at hnone
    exact absurd hnone (by simp)
  have hnokey {a : Entity} (ha : a ∈ s.entity) (hne : a.ne_id = row.ne_id) (h1 : 1 ≤ a.level) (hkey : a.key = row.key) :
      ¬ 1 ≤ row.level := by
    intro hrow
    have hnone := (hparent hrow).1
    rw [h.held_iff a ha hne h1 hkey] at hnone
    exact absurd hnone (by simp)
  refine ⟨fun a ha => ?_, fun a ha b hb hab => ?_, fun a ha b hb hne h0 h0' => ?_, fun a ha => ?_, fun a ha h1 => ?_,
    fun a ha b hb hne h1 h1' hkey => ?_, fun ne_id id hc => ?_, fun ne_id key id hc => ?_⟩
  · rcases hcases ha with ha | rfl
    · exact (h.lt_next a ha).trans (Nat.lt_succ_self _)
    · exact hid ▸ Nat.lt_succ_self _
  · rcases hcases ha with ha' | rfl <;> rcases hcases hb with hb' | rfl
    · exact h.unique a ha' b hb' hab
    · exact absurd (h.lt_next a ha') (by rw [hab, hid]; exact lt_irrefl _)
    · exact absurd (h.lt_next b hb') (by rw [← hab, hid]; exact lt_irrefl _)
    · rfl
  · rcases hcases ha with ha' | rfl <;> rcases hcases hb with hb' | rfl
    · exact h.root a ha' b hb' hne h0 h0'
    · exact absurd h0' (hnoroot ha' hne h0)
    · exact absurd h0 (hnoroot hb' hne.symm h0')
    · rfl
  · rcases hcases ha with ha | rfl
    · exact h.top a ha
    · refine ⟨fun h0 => (hroot h0).1, fun hnone => ?_⟩
      by_contra hlevel
      obtain ⟨-, parent, -, hp, -⟩ := hparent (Nat.one_le_iff_ne_zero.mpr hlevel)
      exact absurd (hnone.symm.trans hp) (by simp)
  · rcases hcases ha with ha | rfl
    · obtain ⟨parent, hparent, hp⟩ := h.parent a ha h1
      exact ⟨parent, hold hparent, hp⟩
    · obtain ⟨-, parent, hparent, hp⟩ := hparent h1
      exact ⟨parent, hold hparent, hp⟩
  · rcases hcases ha with ha' | rfl <;> rcases hcases hb with hb' | rfl
    · exact h.keys a ha' b hb' hne h1 h1' hkey
    · exact absurd h1' (hnokey ha' hne h1 hkey)
    · exact absurd h1 (hnokey hb' hne.symm h1' hkey.symm)
    · rfl
  · obtain ⟨a, ha, hp⟩ := h.cached0 ne_id id hc
    exact ⟨a, hold ha, hp⟩
  · obtain ⟨a, ha, hp⟩ := h.cached ne_id key id hc
    exact ⟨a, hold ha, hp⟩

theorem Tree.cache0 {row : Entity} (hrow : row ∈ s.entity) (hlevel : row.level = 0) :
    Tree { s with entity0_ids := Function.update s.entity0_ids row.ne_id (some row.id) } := by
  refine ⟨h.lt_next, h.unique, h.root, h.top, h.parent, h.keys, fun ne_id id hc => ?_, h.cached⟩
  change Function.update s.entity0_ids row.ne_id (some row.id) ne_id = some id at hc
  rw [Function.update_apply] at hc
  split at hc
  · rename_i hne
    exact ⟨row, hrow, Option.some.inj hc, hne.symm, hlevel⟩
  · exact h.cached0 ne_id id hc

theorem Tree.cache {row : Entity} (hrow : row ∈ s.entity) (hlevel : 1 ≤ row.level) :
    Tree { s with entity_ids := Function.update s.entity_ids (row.ne_id, row.key) (some row.id) } := by
  refine ⟨h.lt_next, h.unique, h.root, h.top, h.parent, h.keys, h.cached0, fun ne_id key id hc => ?_⟩
  change Function.update s.entity_ids (row.ne_id, row.key) (some row.id) (ne_id, key) = some id at hc
  rw [Function.update_apply] at hc
  split at hc
  · rename_i hkey
    obtain ⟨rfl, rfl⟩ := Prod.mk.inj hkey
    exact ⟨row, hrow, Option.some.inj hc, rfl, hlevel, rfl⟩
  · exact h.cached ne_id key id hc

end Tree

/-- What an insert-or-get has come to: the entity that was held, or one that is inserted. -/
structure Got (s : Store) (held : Option Nat) (row : Entity) (got : Store × Nat) : Prop where
  tree : Tree got.1
  id : got.2 = held.getD s.next
  rows : got.1.entity = if held.isSome then s.entity else s.entity ++ [row]
  next : got.1.next = if held.isSome then s.next else s.next + 1
  mem : ∃ row' ∈ got.1.entity, row'.id = got.2 ∧ row'.ne_id = row.ne_id ∧ row'.level = row.level ∧
    (1 ≤ row.level → row'.key = row.key)

section Got
variable {s : Store} {ne_id : Nat} {values : List String} (h : Tree s)
include h

theorem Tree.level0 (ne_id : Nat) (ip : String) : Got s (s.rooted ne_id) ⟨s.next, ne_id, none, 0, ip, "self", 1⟩
    (s.entity_level0 ne_id ip) := by
  have hgot {row : Entity} (hrow : row ∈ s.entity) (hne : row.ne_id = ne_id) (hlevel : row.level = 0) {s' : Store}
      (hs : s'.entity = s.entity) (hnext : s'.next = s.next) (htree : Tree s') :
      Got s (s.rooted ne_id) ⟨s.next, ne_id, none, 0, ip, "self", 1⟩ (s', row.id) := by
    rw [h.rooted_iff row hrow hne hlevel]
    exact ⟨htree, rfl, hs, hnext, row, hs ▸ hrow, rfl, hne, hlevel, fun h => absurd h (Nat.not_succ_le_zero 0)⟩
  rw [Store.entity_level0]
  split
  · rename_i id hc
    obtain ⟨row, hrow, rfl, hne, hlevel⟩ := h.cached0 ne_id id hc
    exact hgot hrow hne hlevel rfl rfl h
  · cases hfind : s.entity.find? fun r => r.ne_id = ne_id && r.level = 0 && r.parent_id = none with
    | some row =>
      have hrow := List.mem_of_find?_eq_some hfind
      have hp := List.find?_some hfind
      simp only [Bool.and_eq_true, decide_eq_true_eq] at hp
      obtain ⟨⟨rfl, hlevel⟩, -⟩ := hp
      exact hgot hrow rfl hlevel rfl rfl (h.cache0 hrow hlevel)
    | none =>
      have hnone : s.rooted ne_id = none := by
        rw [Store.rooted, Option.map_eq_none_iff]
        refine List.find?_eq_none.mpr fun row hrow hp => List.find?_eq_none.mp hfind row hrow ?_
        simp only [Bool.and_eq_true, decide_eq_true_eq] at hp ⊢
        exact ⟨hp, (h.top row hrow).mp hp.2⟩
      have htree := h.insert ⟨s.next, ne_id, none, 0, ip, "self", 1⟩ rfl (fun _ => ⟨rfl, hnone⟩)
        fun h1 => absurd h1 (Nat.not_succ_le_zero 0)
      have hmem : (⟨s.next, ne_id, none, 0, ip, "self", 1⟩ : Entity) ∈
          s.entity ++ [⟨s.next, ne_id, none, 0, ip, "self", 1⟩] := by simp
      rw [hnone]
      exact ⟨htree.cache0 hmem rfl, rfl, rfl, rfl, _, hmem, rfl, rfl, rfl, fun _ => rfl⟩

/-- A value of a walk that the parent has no entity for is the key of none. -/
theorem Tree.unheld {level parent_id : Nat} {key : String} (hcontained : Contained s.entity ne_id values)
    (hat : At s ne_id values level parent_id) (hkey : values[level]? = some key)
    (hfind : ∀ row ∈ s.entity, row.ne_id = ne_id → row.parent_id = some parent_id → row.key ≠ key) :
    s.held ne_id key = none := by
  rw [Store.held, Option.map_eq_none_iff]
  refine List.find?_eq_none.mpr fun row hrow hp => ?_
  simp only [Bool.and_eq_true, decide_eq_true_eq] at hp
  obtain ⟨⟨hne, hlevel⟩, rfl⟩ := hp
  have hin : row.key ∈ values := List.mem_of_getElem? hkey
  have hplace : row.level - 1 = level := by
    have hput := hcontained.placed row hrow hne hlevel hin
    exact (List.getElem?_inj (List.getElem?_eq_some_iff.mp hput).1 hcontained.distinct).mp (hput.trans hkey.symm)
  obtain ⟨above, habove, hparent, hsame, hup⟩ := h.parent row hrow hlevel
  obtain ⟨from_, hfrom, rfl, hfne, hflevel, hfkey⟩ := hat
  have hlevels : above.level = from_.level := by omega
  -- the parent of the row and the entity that the walk has come to are at one level, with one key
  have hone : above = from_ := by
    by_cases h0 : from_.level = 0
    · exact h.root above habove from_ hfrom (hsame.trans (hne.trans hfne.symm)) (hlevels.trans h0) h0
    · have h1 : 1 ≤ from_.level := Nat.one_le_iff_ne_zero.mpr h0
      have hakey := hcontained.below row hrow hne hlevel hin above habove hparent (hlevels ▸ h1)
      rw [hlevels, hflevel, hfkey (hflevel ▸ h1), Option.some_inj] at hakey
      exact h.keys above habove from_ hfrom (hsame.trans (hne.trans hfne.symm)) (hlevels ▸ h1) h1 hakey.symm
  exact hfind row hrow hne (hone ▸ hparent) rfl

theorem Tree.get_or_create {level parent_id : Nat} {key : String} (key_source : String) (confidence : ℚ)
    (hcontained : Contained s.entity ne_id values) (hat : At s ne_id values level parent_id)
    (hkey : values[level]? = some key) :
    Got s (s.held ne_id key) ⟨s.next, ne_id, some parent_id, level + 1, key, key_source, confidence⟩
      (s.get_or_create_entity ne_id parent_id (level + 1) key key_source confidence) := by
  have hgot {row : Entity} (hrow : row ∈ s.entity) (hne : row.ne_id = ne_id) (hlevel : 1 ≤ row.level)
      (hk : row.key = key) {s' : Store} (hs : s'.entity = s.entity) (hnext : s'.next = s.next) (htree : Tree s') :
      Got s (s.held ne_id key) ⟨s.next, ne_id, some parent_id, level + 1, key, key_source, confidence⟩ (s', row.id) := by
    have hplace : row.level = level + 1 := by
      have hput := hcontained.placed row hrow hne hlevel (hk ▸ List.mem_of_getElem? hkey)
      have := (List.getElem?_inj (List.getElem?_eq_some_iff.mp hput).1 hcontained.distinct).mp
        (hput.trans (hk ▸ hkey.symm))
      omega
    rw [h.held_iff row hrow hne hlevel hk]
    exact ⟨htree, rfl, hs, hnext, row, hs ▸ hrow, rfl, hne, hplace, fun _ => hk⟩
  rw [Store.get_or_create_entity]
  split
  · rename_i id hc
    obtain ⟨row, hrow, rfl, hne, hlevel, hk⟩ := h.cached ne_id key id hc
    exact hgot hrow hne hlevel hk rfl rfl h
  · cases hfind : s.entity.find? fun r => r.ne_id = ne_id && r.parent_id = some parent_id && r.key = key with
    | some row =>
      have hrow := List.mem_of_find?_eq_some hfind
      have hp := List.find?_some hfind
      simp only [Bool.and_eq_true, decide_eq_true_eq] at hp
      obtain ⟨⟨rfl, hparent⟩, rfl⟩ := hp
      have hlevel : 1 ≤ row.level := Nat.one_le_iff_ne_zero.mpr fun h0 =>
        absurd (((h.top row hrow).mp h0).symm.trans hparent) (by simp)
      exact hgot hrow rfl hlevel rfl rfl rfl (h.cache hrow hlevel)
    | none =>
      have hnone : s.held ne_id key = none := h.unheld hcontained hat hkey fun row hrow hne hparent hk =>
        List.find?_eq_none.mp hfind row hrow (by simp [hne, hparent, hk])
      obtain ⟨above, habove, rfl, hane, halevel, -⟩ := hat
      obtain ⟨row, hrow⟩ : ∃ row : Entity, row =
        ⟨s.next, ne_id, some above.id, level + 1, key, key_source, confidence⟩ := ⟨_, rfl⟩
      have htree := h.insert row (by rw [hrow]) (fun h0 => absurd h0 (by simp [hrow]))
        fun _ => by subst hrow; exact ⟨hnone, above, habove, rfl, hane, congrArg (· + 1) halevel⟩
      have hmem : row ∈ s.entity ++ [row] := by simp
      rw [hnone]
      subst hrow
      exact ⟨htree.cache hmem (Nat.le_add_left ..), rfl, rfl, rfl, _, hmem, rfl, rfl, rfl, fun _ => rfl⟩

/-- What was contained is contained with the entity that a walk inserts. -/
theorem Contained.got {level parent_id : Nat} {key key_source : String} {confidence : ℚ} {got : Store × Nat}
    (hcontained : Contained s.entity ne_id values) (hat : At s ne_id values level parent_id)
    (hkey : values[level]? = some key)
    (hgot : Got s (s.held ne_id key) ⟨s.next, ne_id, some parent_id, level + 1, key, key_source, confidence⟩ got) :
    Contained got.1.entity ne_id values ∧ At got.1 ne_id values (level + 1) got.2 := by
  constructor
  · have hrows := hgot.rows
    split at hrows
    · exact hrows ▸ hcontained
    · rw [hrows]
      have hcases {a row : Entity} (ha : a ∈ s.entity ++ [row]) : a ∈ s.entity ∨ a = row := by simpa using ha
      refine ⟨hcontained.distinct, fun row hrow hne hlevel hin => ?_, fun row hrow hne hlevel hin above habove hp h1 => ?_⟩
      · rcases hcases hrow with hrow | rfl
        · exact hcontained.placed row hrow hne hlevel hin
        · exact hkey
      · rcases hcases hrow with hrow' | rfl <;> rcases hcases habove with habove' | rfl
        · exact hcontained.below row hrow' hne hlevel hin above habove' hp h1
        · obtain ⟨q, hq, hqp, -⟩ := h.parent row hrow' hlevel
          have hid := Option.some.inj (hqp.symm.trans hp)
          exact absurd (h.lt_next q hq) (by rw [hid]; exact lt_irrefl _)
        · obtain ⟨at_, hmem, hid, -, rfl, hplace⟩ := hat
          obtain rfl := h.unique above habove' at_ hmem ((Option.some.inj hp).symm.trans hid.symm)
          exact hplace h1
        · obtain ⟨row, hrow, hid, -⟩ := hat
          exact absurd (h.lt_next row hrow) (by rw [hid, Option.some.inj hp]; exact lt_irrefl _)
  · obtain ⟨row, hrow, hid, hne, hlevel, hk⟩ := hgot.mem
    refine ⟨row, hrow, hid, hne, hlevel, fun _ => ?_⟩
    rw [Nat.add_sub_cancel, hk (Nat.le_add_left ..), hkey]

end Got

section Alike
variable {s s' : Store} {ne_id : Nat} {values : List String}

/-- A row without its confidence. -/
def Entity.place (row : Entity) : Entity := { row with confidence := 0 }

private theorem place_eq {row row' : Entity} (h : row.place = row'.place) : row.id = row'.id ∧ row.ne_id = row'.ne_id ∧
    row.parent_id = row'.parent_id ∧ row.level = row'.level ∧ row.key = row'.key := by
  obtain ⟨hid, hne, hparent, hlevel, hkey, -⟩ := Entity.mk.inj h
  exact ⟨hid, hne, hparent, hlevel, hkey⟩

/-- Two stores that differ in confidences and caches alone. -/
structure Alike (s s' : Store) : Prop where
  rows : s.entity.map (·.place) = s'.entity.map (·.place)
  next : s.next = s'.next

private theorem find_place (rows : List Entity) (p : Entity → Bool) (hp : ∀ row, p row.place = p row) :
    (rows.find? p).map (·.id) = ((rows.map (·.place)).find? p).map (·.id) := by
  have hpoint : p ∘ (·.place) = p := funext hp
  rw [List.find?_map, hpoint, Option.map_map]
  rfl

theorem Alike.held (h : Alike s s') (ne_id : Nat) (key : String) : s.held ne_id key = s'.held ne_id key := by
  rw [Store.held, Store.held, find_place _ _ fun _ => rfl, find_place s'.entity _ fun _ => rfl, h.rows]

theorem Alike.rooted (h : Alike s s') (ne_id : Nat) : s.rooted ne_id = s'.rooted ne_id := by
  rw [Store.rooted, Store.rooted, find_place _ _ fun _ => rfl, find_place s'.entity _ fun _ => rfl, h.rows]

theorem Alike.keys (h : Alike s s') (ne_id : Nat) : s.entity_keys_for_ne ne_id = s'.entity_keys_for_ne ne_id := by
  have hplace (s : Store) : s.entity_keys_for_ne ne_id = (((((s.entity.map (·.place)).filter (1 ≤ ·.level)).filter
      (·.ne_id = ne_id)).map (·.key)).toFinset) := by
    rw [Store.entity_keys_for_ne, Store.promoted, List.filter_map, List.filter_map, List.map_map]
    rfl
  rw [hplace, hplace, h.rows]

/-- What two such stores come to is alike. -/
theorem Alike.got (h : Alike s s') {held : Option Nat} {row row' : Entity} {got got' : Store × Nat}
    (hrow : row.place = row'.place) (hgot : Got s held row got) (hgot' : Got s' held row' got') :
    Alike got.1 got'.1 ∧ got.2 = got'.2 := by
  refine ⟨⟨?_, ?_⟩, ?_⟩
  · rw [hgot.rows, hgot'.rows]
    split
    · exact h.rows
    · rw [List.map_append, List.map_append, h.rows, List.map_singleton, List.map_singleton, hrow]
  · rw [hgot.next, hgot'.next, h.next]
  · rw [hgot.id, hgot'.id, h.next]

/-- What is contained in one is contained in the other. -/
theorem Alike.contained (h : Alike s s') (hcontained : Contained s.entity ne_id values) :
    Contained s'.entity ne_id values := by
  have hrow {row' : Entity} (hrow' : row' ∈ s'.entity) : ∃ row ∈ s.entity, row.place = row'.place := by
    have hmem : row'.place ∈ s.entity.map (·.place) := h.rows ▸ List.mem_map_of_mem hrow'
    exact List.mem_map.mp hmem
  refine ⟨hcontained.distinct, fun row' hrow' hne hlevel hin => ?_, fun row' hrow' hne hlevel hin above' habove' hp h1 => ?_⟩
  · obtain ⟨row, hr, hplace⟩ := hrow hrow'
    obtain ⟨-, hne', -, hl, hk⟩ := place_eq hplace
    rw [← hl, ← hk]
    exact hcontained.placed row hr (hne'.trans hne) (hl ▸ hlevel) (hk ▸ hin)
  · obtain ⟨row, hr, hplace⟩ := hrow hrow'
    obtain ⟨above, ha, haplace⟩ := hrow habove'
    obtain ⟨-, hne', hpar, hl, hk⟩ := place_eq hplace
    obtain ⟨hid, -, -, hal, hak⟩ := place_eq haplace
    rw [← hal, ← hak]
    exact hcontained.below row hr (hne'.trans hne) (hl ▸ hlevel) (hk ▸ hin) above ha (hpar.trans (hid ▸ hp)) (hal ▸ h1)

end Alike

/-- The rows are a tree, and the keys in memory are those of the rows. -/
structure Kept (r : Resolver) : Prop where
  tree : Tree r.store
  keys : ∀ ne_id, r.keys ne_id = r.store.entity_keys_for_ne ne_id

section Kept
variable {s : Store} {ne_id : Nat} {values : List String}

theorem keys_append (rows : List Entity) (row : Entity) (hrows : s.entity = rows ++ [row]) (other : Nat) :
    s.entity_keys_for_ne other = if 1 ≤ row.level ∧ row.ne_id = other then
      insert row.key (Store.entity_keys_for_ne { s with entity := rows } other)
    else Store.entity_keys_for_ne { s with entity := rows } other := by
  simp only [Store.entity_keys_for_ne, Store.promoted, hrows, List.filter_append, List.map_append, List.toFinset_append]
  by_cases hlevel : 1 ≤ row.level <;> by_cases hne : row.ne_id = other <;>
    simp [hlevel, hne, Finset.union_comm]

/-- The keys after an insert-or-get. -/
theorem Got.keys {held : Option Nat} {row : Entity} {got : Store × Nat} (hgot : Got s held row got) (other : Nat)
    (hheld : held.isSome → 1 ≤ row.level → row.key ∈ s.entity_keys_for_ne row.ne_id) :
    got.1.entity_keys_for_ne other = if 1 ≤ row.level ∧ row.ne_id = other then
      insert row.key (s.entity_keys_for_ne other) else s.entity_keys_for_ne other := by
  have hrows := hgot.rows
  split at hrows
  · rename_i hsome
    have hsame : got.1.entity_keys_for_ne other = s.entity_keys_for_ne other := by
      rw [Store.entity_keys_for_ne, Store.promoted, hrows]
      rfl
    rw [hsame]
    split
    · rename_i hrow
      exact (Finset.insert_eq_of_mem (hrow.2 ▸ hheld hsome hrow.1)).symm
    · rfl
  · exact keys_append s.entity row hrows other

theorem held_key {key : String} (h : (s.held ne_id key).isSome) : key ∈ s.entity_keys_for_ne ne_id := by
  rw [Store.held, Option.isSome_map] at h
  obtain ⟨row, hfind⟩ := Option.isSome_iff_exists.mp h
  have hp := List.find?_some hfind
  simp only [Bool.and_eq_true, decide_eq_true_eq] at hp
  rw [Store.entity_keys_for_ne, List.mem_toFinset, List.mem_map]
  refine ⟨row, List.mem_filter.mpr ⟨List.mem_filter.mpr ⟨List.mem_of_find?_eq_some hfind, ?_⟩, ?_⟩, hp.2⟩
  · exact decide_eq_true hp.1.2
  · exact decide_eq_true hp.1.1

/-- What a resolver keeps when it writes the keys of an element. -/
theorem Kept.write {r : Resolver} (hr : Kept r) (ne_id : Nat) (htree : Tree s) {keys : Finset String}
    (hkeys : s.entity_keys_for_ne ne_id = keys)
    (hother : ∀ other, other ≠ ne_id → s.entity_keys_for_ne other = r.store.entity_keys_for_ne other) :
    Kept { r with store := s, ne_entity_keys := Function.update r.ne_entity_keys ne_id (some keys) } := by
  refine ⟨htree, fun other => ?_⟩
  rw [Resolver.keys]
  dsimp only
  by_cases hne : other = ne_id
  · rw [hne, Function.update_self, hkeys]
    rfl
  · rw [Function.update_of_ne hne, hother other hne]
    exact hr.keys other

/-- The same walk in two stores that are alike. -/
theorem walk_alike (event : Trap) (chain chain' : List (String × ℚ)) (hchain : chain.map (·.1) = chain'.map (·.1))
    (level parent : Nat) (named : Option Nat × String) (r r' : Resolver) (hr : Kept r) (hr' : Kept r')
    (halike : Alike r.store r'.store) (hcontained : Contained r.store.entity ne_id values)
    (hat : At r.store ne_id values level parent) (hat' : At r'.store ne_id values level parent)
    (hvalues : values.drop level = namedBy event (chain.map (·.1))) :
    let w := Resolver.walk ne_id event chain (level + 1) parent named r
    let w' := Resolver.walk ne_id event chain' (level + 1) parent named r'
    Kept w.1 ∧ Kept w'.1 ∧ Alike w.1.store w'.1.store ∧ w.2 = w'.2 := by
  induction chain generalizing chain' level parent named r r' with
  | nil =>
    obtain rfl : chain' = [] := List.map_eq_nil_iff.mp hchain.symm
    exact ⟨hr, hr', halike, rfl⟩
  | cons link chain ih =>
    obtain ⟨link', chain', rfl⟩ : ∃ a l, chain' = a :: l := by
      cases chain' with
      | nil => exact absurd hchain (by simp)
      | cons a l => exact ⟨a, l, rfl⟩
    obtain ⟨oid, confidence⟩ := link
    obtain ⟨oid', confidence'⟩ := link'
    obtain ⟨rfl, hrest⟩ := List.cons.inj hchain
    have hkeys : r'.keys ne_id = r.keys ne_id := by rw [hr.keys, hr'.keys, halike.keys]
    simp only [Resolver.walk, hkeys]
    rw [List.map_cons, namedBy] at hvalues
    cases hlookup : event.varbinds.lookup oid with
    | none => exact ⟨hr, hr', halike, rfl⟩
    | some value =>
      rw [hlookup] at hvalues
      dsimp only at hvalues ⊢
      split
      · exact ⟨⟨hr.tree, hr.keys⟩, ⟨hr'.tree, hr'.keys⟩, halike, rfl⟩
      · have hkey : values[level]? = some (truncated value) := by
          rw [← List.head?_drop, hvalues, List.head?_cons]
        have hnext : values.drop (level + 1) = namedBy event (chain.map (·.1)) := by
          rw [← List.tail_drop, hvalues, List.tail_cons]
        have hgot := hr.tree.get_or_create oid confidence hcontained hat hkey
        have hgot' := hr'.tree.get_or_create oid confidence' (halike.contained hcontained) hat' hkey
        obtain ⟨halike', hid⟩ := halike.got (by rw [Entity.place, Entity.place, halike.next])
          hgot (halike.held ne_id _ ▸ hgot')
        obtain ⟨hcontained', hat''⟩ := hcontained.got hr.tree hat hkey hgot
        obtain ⟨-, hat'''⟩ := (halike.contained hcontained).got hr'.tree hat' hkey hgot'
        have hkept (r : Resolver) (hr : Kept r) (confidence : ℚ) {got : Store × Nat}
            (hgot : Got r.store (r.store.held ne_id (truncated value))
              ⟨r.store.next, ne_id, some parent, level + 1, truncated value, oid, confidence⟩ got) :
            Kept { r with
              store := got.1
              ne_entity_keys := Function.update r.ne_entity_keys ne_id (some (insert (truncated value) (r.keys ne_id))) } := by
          refine hr.write ne_id hgot.tree ?_ fun other hne => ?_
          · rw [hgot.keys ne_id fun hsome _ => held_key hsome, if_pos ⟨Nat.le_add_left .., rfl⟩, hr.keys]
          · rw [hgot.keys other fun hsome _ => held_key hsome, if_neg fun h => hne h.2.symm]
        have hk' := hkept r' hr' confidence' hgot'
        rw [hkeys] at hk'
        rw [← hid] at hat''' ⊢
        exact ih chain' hrest (level + 1) _ _ _ _ (hkept r hr confidence hgot) hk' halike' hcontained' hat'' hat''' hnext

/-- The keys after the level-0 entity. -/
private theorem level0_keys (h : Tree s) (ip : String) (other : Nat) :
    (s.entity_level0 ne_id ip).1.entity_keys_for_ne other = s.entity_keys_for_ne other := by
  rw [(h.level0 ne_id ip).keys other fun _ h1 => absurd h1 (Nat.not_succ_le_zero 0),
    if_neg fun h1 => absurd h1.1 (Nat.not_succ_le_zero 0)]

private theorem Contained.level0 (h : Tree s) (ip : String) (hcontained : Contained s.entity ne_id values) :
    Contained (s.entity_level0 ne_id ip).1.entity ne_id values := by
  have hrows := (h.level0 ne_id ip).rows
  split at hrows
  · exact hrows ▸ hcontained
  · rw [hrows]
    have hold {row : Entity} (hrow : row ∈ s.entity ++ [⟨s.next, ne_id, none, 0, ip, "self", 1⟩]) (h1 : 1 ≤ row.level) :
        row ∈ s.entity := by
      rcases List.mem_append.mp hrow with hrow | hrow
      · exact hrow
      · obtain rfl := List.mem_singleton.mp hrow
        exact absurd h1 (Nat.not_succ_le_zero 0)
    exact ⟨hcontained.distinct, fun row hrow hne h1 hin => hcontained.placed row (hold hrow h1) hne h1 hin,
      fun row hrow hne h1 hin above habove hp ha1 =>
        hcontained.below row (hold hrow h1) hne h1 hin above (hold habove ha1) hp ha1⟩

/-- The same trap resolved in two resolvers whose stores are alike, under one chain. -/
theorem resolve_alike {r r' : Resolver} (hr : Kept r) (hr' : Kept r') (halike : Alike r.store r'.store)
    (hoids : r.oids ne_id = r'.oids ne_id) (event : Trap)
    (hcontained : Contained r.store.entity ne_id (namedBy event (r.oids ne_id))) :
    Kept (r.resolve_entity ne_id event).1 ∧ Kept (r'.resolve_entity ne_id event).1 ∧
      Alike (r.resolve_entity ne_id event).1.store (r'.resolve_entity ne_id event).1.store ∧
      (r.resolve_entity ne_id event).2 = (r'.resolve_entity ne_id event).2 := by
  rw [Resolver.resolve_entity, Resolver.resolve_entity]
  dsimp only
  have hempty : ((r'.ne_discriminator ne_id).getD []).isEmpty = ((r.ne_discriminator ne_id).getD []).isEmpty := by
    have := congrArg List.isEmpty hoids
    rw [Resolver.oids, Resolver.oids, List.isEmpty_map, List.isEmpty_map] at this
    exact this.symm
  rw [hempty]
  split
  · exact ⟨hr, hr', halike, rfl⟩
  · have hgot := hr.tree.level0 ne_id event.device
    have hgot' := hr'.tree.level0 ne_id event.device
    obtain ⟨halike', hid⟩ := halike.got (by rw [Entity.place, Entity.place, halike.next]) hgot
      (halike.rooted ne_id ▸ hgot')
    have hkept {r : Resolver} (hr : Kept r) := hr.write ne_id (hr.tree.level0 ne_id event.device).tree
      ((level0_keys hr.tree event.device ne_id).trans (hr.keys ne_id).symm)
      fun other _ => level0_keys hr.tree event.device other
    have hat {s : Store} (h : Tree s) : At (s.entity_level0 ne_id event.device).1 ne_id (namedBy event (r.oids ne_id)) 0
        (s.entity_level0 ne_id event.device).2 := by
      obtain ⟨row, hrow, hid, hne, hlevel, -⟩ := (h.level0 ne_id event.device).mem
      exact ⟨row, hrow, hid, hne, hlevel, fun h1 => absurd h1 (Nat.not_succ_le_zero 0)⟩
    have hat' := hat hr'.tree
    rw [← hid] at hat' ⊢
    exact walk_alike event _ _ hoids 0 _ _ _ _ (hkept hr) (hkept hr') halike' (hcontained.level0 hr.tree event.device)
      (hat hr.tree) hat' rfl

theorem identify_alike {r r' : Resolver} (hr : Kept r) (hr' : Kept r') (halike : Alike r.store r'.store)
    (hoids : r.oids ne_id = r'.oids ne_id) (event : Trap)
    (hcontained : Contained r.store.entity ne_id (namedBy event (r.oids ne_id))) :
    Kept (r.identify ne_id event).1 ∧ (r.identify ne_id event).2 = (r'.identify ne_id event).2 := by
  obtain ⟨h1, h2, halike', hnamed⟩ := resolve_alike hr hr' halike hoids event hcontained
  rw [Resolver.identify, Resolver.identify]
  dsimp only
  rw [← hnamed]
  cases (r.resolve_entity ne_id event).2.1 with
  | some entity_id => exact ⟨h1, rfl⟩
  | none =>
    have hgot := h1.tree.level0 ne_id event.device
    have hgot' := h2.tree.level0 ne_id event.device
    obtain ⟨-, hid⟩ := halike'.got (by rw [Entity.place, Entity.place, halike'.next]) hgot
      (halike'.rooted ne_id ▸ hgot')
    refine ⟨⟨hgot.tree, fun other => ?_⟩, by rw [hid]⟩
    rw [level0_keys h1.tree event.device other, ← h1.keys other, Resolver.keys, Resolver.keys]
    exact congrArg _ (level0_keys h1.tree event.device other)

end Kept

/-- A promotion finds no entities of another chain, a trap names no value that is a key elsewhere, and a
restart comes when every level in force has an entity. -/
def Op.Sound (r : Resolver) : Op → Prop
  | .promote ne_id chain => r.ne_discriminator ne_id = none → chain ≠ [] → Under r.store ne_id (chain.map (·.1))
  | .reset _ => True
  | .trap ne_id event _ => Contained r.store.entity ne_id (namedBy event (r.oids ne_id))
  | .restart => ∀ ne_id, Instantiated r ne_id

section Run
variable {r : Resolver}

/-- A restart forgets the caches alone. -/
theorem Kept.restart (h : Kept r) : Kept r.restart := by
  refine ⟨⟨h.tree.lt_next, h.tree.unique, h.tree.root, h.tree.top, h.tree.parent, h.tree.keys, ?_, ?_⟩, fun _ => rfl⟩
  · exact fun _ _ hc => absurd hc (by simp [Resolver.restart])
  · exact fun _ _ _ hc => absurd hc (by simp [Resolver.restart])

theorem Recorded.same {r' : Resolver} {ne_id : Nat} (h : Recorded r ne_id) (hoids : r'.oids ne_id = r.oids ne_id)
    (hreset : ne_id ∈ r'.store.entity_reset ↔ ne_id ∈ r.store.entity_reset) (hrows : r'.store.entity = r.store.entity) :
    Recorded r' ne_id := by
  have hunder (oids : List String) : Under r'.store ne_id oids = Under r.store ne_id oids := by
    rw [Under, Under, hrows]
  rw [Recorded] at h ⊢
  rw [hoids, hreset, hunder, hunder]
  exact h

private theorem oids_write (r' : Resolver) {ne_id : Nat} (chain : Option (List (String × ℚ)))
    (h : r'.ne_discriminator = Function.update r.ne_discriminator ne_id chain) (other : Nat) :
    r'.oids other = if other = ne_id then (chain.getD []).map (·.1) else r.oids other := by
  rw [Resolver.oids, h, Function.update_apply]
  split <;> rfl

theorem step_kept (op : Op) (h : Kept r ∧ ∀ ne_id, Recorded r ne_id) (hop : op.Sound r) :
    Kept (step r op) ∧ ∀ ne_id, Recorded (step r op) ne_id := by
  obtain ⟨hkept, hrecorded⟩ := h
  cases op with
  | promote ne_id chain =>
    rw [step, Resolver.promote]
    split
    · exact ⟨hkept, hrecorded⟩
    · rename_i hfree
      rw [Bool.or_eq_true, not_or, Bool.not_eq_true, Bool.not_eq_true, Option.isSome_eq_false_iff,
        Option.isNone_iff_eq_none, List.isEmpty_eq_false_iff] at hfree
      have hunder := hop hfree.1 hfree.2
      have htree : Tree { r.store with entity_reset := r.store.entity_reset.erase ne_id } := ⟨hkept.tree.lt_next,
        hkept.tree.unique, hkept.tree.root, hkept.tree.top, hkept.tree.parent, hkept.tree.keys, hkept.tree.cached0,
        hkept.tree.cached⟩
      have hwrite := hkept.write ne_id htree rfl fun _ _ => rfl
      refine ⟨⟨hwrite.tree, hwrite.keys⟩, fun other => ?_⟩
      have hoids := fun other => oids_write { r with
        ne_discriminator := Function.update r.ne_discriminator ne_id (some chain)
        ne_entity_keys := Function.update r.ne_entity_keys ne_id (some (r.store.entity_keys_for_ne ne_id))
        store := { r.store with entity_reset := r.store.entity_reset.erase ne_id } } (some chain) rfl other
      by_cases hne : other = ne_id
      · subst hne
        rw [Recorded, hoids, if_pos rfl, Option.getD_some, if_neg fun hnil => hfree.2 (List.map_eq_nil_iff.mp hnil)]
        exact ⟨fun hmem => (Finset.mem_erase.mp hmem).1 rfl, hunder⟩
      · exact (hrecorded other).same ((hoids other).trans (if_neg hne)) (Finset.mem_erase.trans (and_iff_right hne)) rfl
  | reset ne_id =>
    have hoids : ∀ other, (step r (.reset ne_id)).oids other = if other = ne_id then [] else r.oids other := fun other =>
      oids_write _ none rfl other
    refine ⟨⟨⟨hkept.tree.lt_next, hkept.tree.unique, hkept.tree.root, hkept.tree.top, hkept.tree.parent,
      hkept.tree.keys, hkept.tree.cached0, hkept.tree.cached⟩, fun other => ?_⟩, fun other => ?_⟩
    · change (Function.update r.ne_entity_keys ne_id none other).getD (r.store.entity_keys_for_ne other) = _
      rw [Function.update_apply]
      split
      · rfl
      · exact hkept.keys other
    · by_cases hne : other = ne_id
      · rw [Recorded, hoids, if_pos hne, if_pos rfl, hne]
        exact .inl (Finset.mem_insert_self ..)
      · exact (hrecorded other).same ((hoids other).trans (if_neg hne)) (Finset.mem_insert.trans (or_iff_right hne)) rfl
  | trap ne_id event ingested =>
    cases ingested with
    | true =>
      obtain ⟨h1, -⟩ := identify_alike hkept hkept ⟨rfl, rfl⟩ rfl event hop
      exact ⟨h1, fun other => (hrecorded other).grows (Grows.identify r ne_id event)⟩
    | false =>
      obtain ⟨h1, -⟩ := resolve_alike hkept hkept ⟨rfl, rfl⟩ rfl event hop
      exact ⟨h1, fun other => (hrecorded other).grows (Grows.resolve r ne_id event)⟩
  | restart =>
    exact ⟨hkept.restart, fun other => (hrecorded other).same ((restart_chain (hrecorded other)).mpr (hop other))
      Iff.rfl rfl⟩

/-- In a run whose steps are sound, a restart keeps the chain of an element exactly when every level of it has
an entity, and then a trap that names no key of elsewhere is filed under the same entity and instance. -/
theorem restart_keeps_identity (ops : List Op) (h : Runs.Meets step Op.Sound {} ops) (ne_id : Nat) :
    let r := Runs.run step {} ops
    (r.restart.oids ne_id = r.oids ne_id ↔ Instantiated r ne_id) ∧
    (Instantiated r ne_id → ∀ event, Contained r.store.entity ne_id (namedBy event (r.oids ne_id)) →
      (r.restart.identify ne_id event).2 = (r.identify ne_id event).2) := by
  intro r
  have hstart : Kept {} ∧ ∀ ne_id, Recorded {} ne_id := by
    refine ⟨⟨⟨?_, ?_, ?_, ?_, ?_, ?_, ?_, ?_⟩, fun _ => rfl⟩, fun ne_id => .inr fun row hrow => absurd hrow List.not_mem_nil⟩
    all_goals simp
  have hstep (r : Resolver) (op : Op) (hr : Kept r ∧ ∀ ne_id, Recorded r ne_id) (hop : op.Sound r) :=
    step_kept op hr hop
  obtain ⟨hkept, hrecorded⟩ := Runs.run_invariant hstep _ ops hstart h
  have hchain := restart_chain (hrecorded ne_id)
  refine ⟨hchain, fun hall event hcontained => ?_⟩
  have hoids := hchain.mpr hall
  exact (identify_alike hkept.restart hkept ⟨rfl, rfl⟩ hoids event (hoids.symm ▸ hcontained)).2

/-- An element is promoted, and an entity is made. -/
def instantiated : List Op := [.promote 1 [("1.1", 1)], .trap 1 ⟨"10.0.0.1", "0", [("1.1", "onu-1")]⟩ true]

theorem restart_keeps_identity_instantiated :
    let r := Runs.run step {} instantiated
    r.restart.oids 1 = r.oids 1 :=
  (restart_keeps_identity instantiated
    ⟨fun _ _ row hrow => absurd hrow List.not_mem_nil,
      ⟨by decide +kernel, fun row hrow => absurd hrow List.not_mem_nil, fun row hrow => absurd hrow List.not_mem_nil⟩,
      trivial⟩ 1).1.mpr (by unfold Instantiated; decide +kernel)

/-- The discriminator of an element is reset, and another is promoted and instantiated. -/
def relearned : List Op := instantiated ++
  [.reset 1, .promote 1 [("1.2", 1)], .trap 1 ⟨"10.0.0.1", "0", [("1.2", "port-1")]⟩ true]

/-- A restart brings back the discriminator that was reset. -/
theorem restart_resurrects : ¬ ∀ (ops : List Op) (ne_id : Nat),
    let r := Runs.run step {} ops
    r.restart.oids ne_id = r.oids ne_id ∧ ∀ event, (r.restart.identify ne_id event).2 = (r.identify ne_id event).2 := by
  intro h
  have hkept := (h relearned 1).1
  have hoids : (Runs.run step {} relearned).oids 1 = ["1.2"] := by decide +kernel
  have hreset : 1 ∉ (Runs.run step {} relearned).store.entity_reset := by decide +kernel
  have hfirst : ∃ row ∈ (Runs.run step {} relearned).store.entity, row.ne_id = 1 ∧ 1 ≤ row.level ∧
      row.key_source = "1.1" := by decide +kernel
  obtain ⟨row, hrow, hne, hlevel, hsource⟩ := hfirst
  have hback : "1.1" ∈ (Runs.run step {} relearned).restart.oids 1 := by
    rw [restart_oids, if_neg hreset]
    exact List.mem_map.mpr ⟨row.group, mem_levels.mpr ⟨row, hrow, hne, hlevel, rfl⟩, hsource⟩
  rw [hkept, hoids] at hback
  exact absurd hback (by decide)

end Run
end NetCoreNoc.Operate.Identity
