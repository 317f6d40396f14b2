import Mathlib
import NetCoreNoc.Runs
import NetCoreNoc.Writeback

/-! Which entity and which dedup instance a trap names, and what a restart keeps of the learned
discriminators (`_resolve_entity`, `reset_entity` and `start` in `operate/engine.py`, the promotion sweep,
`store/entities.py`). -/
namespace NetCoreNoc.Operate.Identity
open Writeback

def MAX_ENTITIES_PER_NE : Nat := 10000
def MAX_INSTANCE_CHARS : Nat := 120

structure Entity where
  id : Nat
  ne_id : Nat
  parent_id : Option Nat
  level : Nat
  key : String
  key_source : String
  confidence : ℚ

/-- A row of a `GROUP BY`: element, level and OID. -/
abbrev Group := ℕ ×ₗ ℕ ×ₗ String

def Entity.group (row : Entity) : Group := toLex (row.ne_id, toLex (row.level, row.key_source))

/-- The rows, the reset markers of `meta`, and the caches. -/
structure Store where
  entity : List Entity := []
  next : Nat := 1
  entity_reset : Finset Nat := ∅
  entity0_ids : Nat → Option Nat := fun _ => none
  entity_ids : Nat × String → Option Nat := fun _ => none

namespace Store
variable (s : Store)

/-- The row that a `SELECT` found, or one that is inserted. -/
def obtain (found : Option Entity) (row : Nat → Entity) : Store × Nat := match found with
  | some row => (s, row.id)
  | none => ({ s with entity := s.entity ++ [row s.next], next := s.next + 1 }, s.next)

def entity_level0 (ne_id : Nat) (ip : String) : Store × Nat := match s.entity0_ids ne_id with
  | some cached => (s, cached)
  | none =>
    let got := s.obtain (s.entity.find? fun r => r.ne_id = ne_id && r.level = 0 && r.parent_id = none)
      fun id => ⟨id, ne_id, none, 0, ip, "self", 1⟩
    ({ got.1 with entity0_ids := Function.update got.1.entity0_ids ne_id (some got.2) }, got.2)

/-- The cache is by element and key, the rows by element, parent and key. -/
def get_or_create_entity (ne_id parent_id level : Nat) (key key_source : String) (confidence : ℚ) : Store × Nat :=
  match s.entity_ids (ne_id, key) with
  | some cached => (s, cached)
  | none =>
    let got := s.obtain (s.entity.find? fun r => r.ne_id = ne_id && r.parent_id = some parent_id && r.key = key)
      fun id => ⟨id, ne_id, some parent_id, level, key, key_source, confidence⟩
    ({ got.1 with entity_ids := Function.update got.1.entity_ids (ne_id, key) (some got.2) }, got.2)

def promoted : List Entity := s.entity.filter (1 ≤ ·.level)

def entity_keys_for_ne (ne_id : Nat) : Finset String :=
  ((s.promoted.filter (·.ne_id = ne_id)).map (·.key)).toFinset

def groups : Finset Group := (s.promoted.map (·.group)).toFinset

/-- One row a group, in their order, with the highest confidence. -/
def promoted_discriminators : List (Group × ℚ) :=
  (ordered s.groups).map fun g => (g, (((s.promoted.filter (·.group = g)).map (·.confidence)).max?).getD 0)

end Store

structure Trap where
  device : String
  inst : String
  varbinds : List (String × String)

/-- What the engine holds of entities. -/
structure Resolver where
  store : Store := {}
  ne_discriminator : Nat → Option (List (String × ℚ)) := fun _ => none
  ne_entity_keys : Nat → Option (Finset String) := fun _ => none
  entity_cap_hit : Finset Nat := ∅

/-- `value[:MAX_INSTANCE_CHARS]` -/
def truncated (value : String) : String := String.ofList (value.toList.take MAX_INSTANCE_CHARS)

namespace Resolver
variable (r : Resolver)

def oids (ne_id : Nat) : List String := ((r.ne_discriminator ne_id).getD []).map (·.1)

def keys (ne_id : Nat) : Finset String := (r.ne_entity_keys ne_id).getD (r.store.entity_keys_for_ne ne_id)

/-- The loop of `_resolve_entity`, down the chain from a parent. -/
def walk (ne_id : Nat) (event : Trap) : List (String × ℚ) → Nat → Nat → Option Nat × String → Resolver →
    Resolver × (Option Nat × String)
  | [], _, _, named, r => (r, named)
  | (oid, confidence) :: chain, level, parent, named, r => match event.varbinds.lookup oid with
    | none => (r, named)
    | some value =>
      if truncated value ∉ r.keys ne_id ∧ MAX_ENTITIES_PER_NE ≤ (r.keys ne_id).card then
        ({ r with entity_cap_hit := insert ne_id r.entity_cap_hit }, named)
      else
        let got := r.store.get_or_create_entity ne_id parent level (truncated value) oid confidence
        walk ne_id event chain (level + 1) got.2 (some got.2, truncated value) { r with
          store := got.1
          ne_entity_keys := Function.update r.ne_entity_keys ne_id (some (insert (truncated value) (r.keys ne_id))) }

/-- The entity, or none for that of the element itself, and the dedup instance. -/
def resolve_entity (ne_id : Nat) (event : Trap) : Resolver × (Option Nat × String) :=
  let chain := (r.ne_discriminator ne_id).getD []
  if chain.isEmpty then (r, none, event.inst)
  else
    let level0 := r.store.entity_level0 ne_id event.device
    walk ne_id event chain 1 level0.2 (none, event.inst) { r with
      store := level0.1
      ne_entity_keys := Function.update r.ne_entity_keys ne_id (some (r.keys ne_id)) }

/-- The entity and the dedup instance that `ingest` files a trap under. -/
def identify (ne_id : Nat) (event : Trap) : Resolver × (Nat × String) :=
  let named := r.resolve_entity ne_id event
  match named.2.1 with
  | some entity_id => (named.1, entity_id, named.2.2)
  | none =>
    let level0 := named.1.store.entity_level0 ne_id event.device
    ({ named.1 with store := level0.1 }, level0.2, named.2.2)

/-- `_maybe_promote`, of an element without a chain, to the one that the profiler proposes. -/
def promote (ne_id : Nat) (chain : List (String × ℚ)) : Resolver :=
  if (r.ne_discriminator ne_id).isSome || chain.isEmpty then r
  else
    { r with
      ne_discriminator := Function.update r.ne_discriminator ne_id (some chain)
      ne_entity_keys := Function.update r.ne_entity_keys ne_id (some (r.store.entity_keys_for_ne ne_id))
      store := { r.store with entity_reset := r.store.entity_reset.erase ne_id } }

def reset_entity (ne_id : Nat) : Resolver where
  store := { r.store with entity_reset := insert ne_id r.store.entity_reset }
  ne_discriminator := Function.update r.ne_discriminator ne_id none
  ne_entity_keys := Function.update r.ne_entity_keys ne_id none
  entity_cap_hit := r.entity_cap_hit.erase ne_id

/-- `self.ne_discriminator.setdefault(ne_id, []).append(...)`, unless the element was reset. -/
def reload (reset_nes : Finset Nat) (chains : Nat → Option (List (String × ℚ))) (row : Group × ℚ) :
    Nat → Option (List (String × ℚ)) :=
  let ne_id := (ofLex row.1).1
  if ne_id ∈ reset_nes then chains
  else Function.update chains ne_id (some ((chains ne_id).getD [] ++ [((ofLex (ofLex row.1).2).2, row.2)]))

/-- `start`, in a process that has no caches yet. -/
def restart : Resolver where
  store := { r.store with entity0_ids := fun _ => none, entity_ids := fun _ => none }
  ne_discriminator := r.store.promoted_discriminators.foldl (reload r.store.entity_reset) fun _ => none

end Resolver

inductive Op where
  | promote (ne_id : Nat) (chain : List (String × ℚ))
  | reset (ne_id : Nat)
  /-- a trap, and whether it is ingested or only resolved -/
  | trap (ne_id : Nat) (event : Trap) (ingested : Bool)
  | restart

def step (r : Resolver) : Op → Resolver
  | .promote ne_id chain => r.promote ne_id chain
  | .reset ne_id => r.reset_entity ne_id
  | .trap ne_id event true => (r.identify ne_id event).1
  | .trap ne_id event false => (r.resolve_entity ne_id event).1
  | .restart => r.restart

section Chain
variable {s : Store} {r : Resolver}

/-- The groups of one element, in their order. -/
def Store.levels (s : Store) (ne_id : Nat) : List Group := (ordered s.groups).filter fun g => (ofLex g).1 = ne_id

theorem mem_groups {g : Group} : g ∈ s.groups ↔ ∃ row ∈ s.entity, 1 ≤ row.level ∧ row.group = g := by
  rw [Store.groups, List.mem_toFinset, List.mem_map]
  constructor
  · rintro ⟨row, hrow, rfl⟩
    obtain ⟨hrow, hlevel⟩ := List.mem_filter.mp hrow
    exact ⟨row, hrow, of_decide_eq_true hlevel, rfl⟩
  · rintro ⟨row, hrow, hlevel, rfl⟩
    exact ⟨row, List.mem_filter.mpr ⟨hrow, decide_eq_true hlevel⟩, rfl⟩

theorem mem_levels {ne_id : Nat} {g : Group} : g ∈ s.levels ne_id ↔
    ∃ row ∈ s.entity, row.ne_id = ne_id ∧ 1 ≤ row.level ∧ row.group = g := by
  rw [Store.levels, List.mem_filter, mem_ordered, mem_groups]
  constructor
  · rintro ⟨⟨row, hrow, hlevel, rfl⟩, hne⟩
    exact ⟨row, hrow, of_decide_eq_true hne, hlevel, rfl⟩
  · rintro ⟨row, hrow, hne, hlevel, rfl⟩
    exact ⟨⟨row, hrow, hlevel, rfl⟩, decide_eq_true hne⟩

private theorem reload_oids (reset_nes : Finset Nat) (chains : Nat → Option (List (String × ℚ))) (row : Group × ℚ)
    (ne_id : Nat) : ((Resolver.reload reset_nes chains row ne_id).getD []).map (·.1) =
      ((chains ne_id).getD []).map (·.1) ++
        if ne_id ∉ reset_nes ∧ (ofLex row.1).1 = ne_id then [(ofLex (ofLex row.1).2).2] else [] := by
  rw [Resolver.reload]
  by_cases hne : (ofLex row.1).1 = ne_id
  · subst hne
    split
    · rename_i hreset
      rw [if_neg fun h => h.1 hreset, List.append_nil]
    · rename_i hreset
      rw [Function.update_self, if_pos ⟨hreset, rfl⟩]
      simp
  · have hother : ¬ (ne_id ∉ reset_nes ∧ (ofLex row.1).1 = ne_id) := fun h => hne h.2
    rw [if_neg hother, List.append_nil]
    split
    · rfl
    · rw [Function.update_of_ne (Ne.symm hne)]

/-- What a restart holds of an element: its groups, or nothing after a reset. -/
theorem restart_oids (r : Resolver) (ne_id : Nat) : r.restart.oids ne_id =
    if ne_id ∈ r.store.entity_reset then [] else (r.store.levels ne_id).map fun g => (ofLex (ofLex g).2).2 := by
  have hfold (rows : List (Group × ℚ)) (chains : Nat → Option (List (String × ℚ))) :
      (((rows.foldl (Resolver.reload r.store.entity_reset) chains) ne_id).getD []).map (·.1) =
        ((chains ne_id).getD []).map (·.1) ++ if ne_id ∈ r.store.entity_reset then [] else
          ((rows.map (·.1)).filter fun g => (ofLex g).1 = ne_id).map fun g => (ofLex (ofLex g).2).2 := by
    induction rows generalizing chains with
    | nil => simp
    | cons row rows ih =>
      rw [List.foldl_cons, ih, reload_oids, List.append_assoc, List.map_cons, List.filter_cons]
      by_cases hreset : ne_id ∈ r.store.entity_reset
      · simp [hreset]
      · by_cases hne : (ofLex row.1).1 = ne_id <;> simp [hreset, hne]
  have hgroups : r.store.promoted_discriminators.map (·.1) = ordered r.store.groups := by
    rw [Store.promoted_discriminators, List.map_map]
    exact List.map_id _
  have hrows := hfold r.store.promoted_discriminators fun _ => none
  rw [hgroups] at hrows
  exact hrows.trans (List.nil_append _)

/-- Every level of the chain in force has an entity. -/
def Instantiated (r : Resolver) (ne_id : Nat) : Prop :=
  ∀ level < (r.oids ne_id).length, ∃ row ∈ r.store.entity, row.ne_id = ne_id ∧ row.level = level + 1

/-- The entities of an element are those of a chain: each at its level, under the OID of that level. -/
def Under (s : Store) (ne_id : Nat) (oids : List String) : Prop :=
  ∀ row ∈ s.entity, row.ne_id = ne_id → 1 ≤ row.level → oids[row.level - 1]? = some row.key_source

/-- What the database says of an element is said of the chain in force. -/
def Recorded (r : Resolver) (ne_id : Nat) : Prop :=
  if r.oids ne_id = [] then ne_id ∈ r.store.entity_reset ∨ Under r.store ne_id []
  else ne_id ∉ r.store.entity_reset ∧ Under r.store ne_id (r.oids ne_id)

/-- The groups that a chain makes when all of it is instantiated. -/
def chainGroups (ne_id : Nat) (oids : List String) : List Group :=
  (oids.zipIdx 1).map fun p => toLex (ne_id, toLex (p.2, p.1))

variable {ne_id : Nat} {oids : List String}

theorem mem_chainGroups {g : Group} : g ∈ chainGroups ne_id oids ↔
    ∃ level oid, oids[level]? = some oid ∧ g = toLex (ne_id, toLex (level + 1, oid)) := by
  rw [chainGroups, List.mem_map]
  constructor
  · rintro ⟨⟨oid, level⟩, hp, rfl⟩
    obtain ⟨hle, hoid⟩ := List.mk_mem_zipIdx_iff_le_and_getElem?_sub.mp hp
    exact ⟨level - 1, oid, hoid, by rw [Nat.sub_add_cancel hle]⟩
  · rintro ⟨level, oid, hoid, rfl⟩
    refine ⟨(oid, level + 1), List.mk_mem_zipIdx_iff_le_and_getElem?_sub.mpr ⟨Nat.le_add_left .., ?_⟩, rfl⟩
    rw [Nat.add_sub_cancel, hoid]

theorem chainGroups_pairwise (ne_id : Nat) (oids : List String) : (chainGroups ne_id oids).Pairwise (· < ·) := by
  rw [chainGroups, List.pairwise_map]
  refine List.pairwise_iff_getElem.mpr fun i j hi hj hij => ?_
  rw [List.getElem_zipIdx, List.getElem_zipIdx]
  exact Prod.Lex.toLex_lt_toLex.mpr (.inr ⟨rfl, Prod.Lex.toLex_lt_toLex.mpr (.inl (Nat.add_lt_add_left hij 1))⟩)

theorem levels_subset (h : Under s ne_id oids) :
    s.levels ne_id ⊆ chainGroups ne_id oids := by
  intro g hg
  obtain ⟨row, hrow, rfl, hlevel, rfl⟩ := mem_levels.mp hg
  exact mem_chainGroups.mpr ⟨row.level - 1, row.key_source, h row hrow rfl hlevel, by
    rw [Nat.sub_add_cancel hlevel]
    rfl⟩

theorem levels_nodup (s : Store) (ne_id : Nat) : (s.levels ne_id).Nodup := (Finset.sort_nodup _ _).filter _

/-- A chain that is instantiated is what a restart finds. -/
theorem levels_chain (h : Under s ne_id oids)
    (hall : ∀ level < oids.length, ∃ row ∈ s.entity, row.ne_id = ne_id ∧ row.level = level + 1) :
    s.levels ne_id = chainGroups ne_id oids := by
  have hnodup : (chainGroups ne_id oids).Nodup := (chainGroups_pairwise ne_id oids).imp ne_of_lt
  refine List.Perm.eq_of_pairwise (fun _ _ _ _ => le_antisymm) ((Finset.pairwise_sort _ _).filter _)
    ((chainGroups_pairwise ne_id oids).imp le_of_lt) ?_
  refine (List.perm_ext_iff_of_nodup (levels_nodup s ne_id) hnodup).mpr fun g => ⟨fun hg => levels_subset h hg, fun hg => ?_⟩
  obtain ⟨level, oid, hoid, rfl⟩ := mem_chainGroups.mp hg
  obtain ⟨row, hrow, hne, hlevel⟩ := hall level (List.getElem?_eq_some_iff.mp hoid).1
  have hsource := h row hrow hne (hlevel ▸ Nat.le_add_left ..)
  rw [hlevel, Nat.add_sub_cancel, hoid, Option.some_inj] at hsource
  refine mem_levels.mpr ⟨row, hrow, hne, hlevel ▸ Nat.le_add_left .., ?_⟩
  rw [Entity.group, hne, hlevel, ← hsource]

/-- A restart keeps a recorded chain exactly when every level of it has an entity. -/
theorem restart_chain {ne_id : Nat} (h : Recorded r ne_id) :
    r.restart.oids ne_id = r.oids ne_id ↔ Instantiated r ne_id := by
  rw [restart_oids]
  by_cases hchain : r.oids ne_id = []
  · have hnone : ∀ level < (r.oids ne_id).length, ∃ row ∈ r.store.entity, row.ne_id = ne_id ∧ row.level = level + 1 := by
      rw [hchain]
      exact fun _ hlevel => absurd hlevel (Nat.not_lt_zero _)
    refine iff_of_true ?_ hnone
    rw [Recorded, if_pos hchain] at h
    split
    · rw [hchain]
    · rename_i hreset
      have hunder := h.resolve_left hreset
      rw [List.subset_nil.mp (levels_subset hunder), hchain]
      rfl
  · rw [Recorded, if_neg hchain] at h
    obtain ⟨hreset, hunder⟩ := h
    have hoids : (chainGroups ne_id (r.oids ne_id)).map (fun g => (ofLex (ofLex g).2).2) = r.oids ne_id := by
      rw [chainGroups, List.map_map]
      exact List.zipIdx_map_fst 1 _
    rw [if_neg hreset]
    constructor
    · intro hkept level hlevel
      have hlength : (chainGroups ne_id (r.oids ne_id)).length ≤ (r.store.levels ne_id).length := by
        have h1 := congrArg List.length hkept
        have h2 := congrArg List.length hoids
        rw [List.length_map] at h1 h2
        exact (h2.trans h1.symm).le
      have hperm := (List.subperm_of_subset (levels_nodup _ ne_id) (levels_subset hunder)).perm_of_length_le hlength
      obtain ⟨row, hrow, hne, -, hgroup⟩ := mem_levels.mp (hperm.mem_iff.mpr
        (mem_chainGroups.mpr ⟨level, _, List.getElem?_eq_getElem hlevel, rfl⟩))
      refine ⟨row, hrow, hne, ?_⟩
      exact congrArg (fun g : Group => (ofLex (ofLex g).2).1) hgroup
    · intro hall
      rw [levels_chain hunder hall, hoids]

end Chain

section Grows
variable {r r' r'' : Resolver} {ne_id : Nat} {oids : List String}

/-- Some entities are new: of elements, and of a chain. -/
structure Grows (ne_id : Nat) (oids : List String) (r r' : Resolver) : Prop where
  chains : r'.ne_discriminator = r.ne_discriminator
  resets : r'.store.entity_reset = r.store.entity_reset
  rows : ∃ new, r'.store.entity = r.store.entity ++ new ∧ ∀ row ∈ new, 1 ≤ row.level →
    row.ne_id = ne_id ∧ oids[row.level - 1]? = some row.key_source

theorem Grows.refl (ne_id : Nat) (oids : List String) (r : Resolver) : Grows ne_id oids r r :=
  ⟨rfl, rfl, [], (List.append_nil _).symm, fun _ h => absurd h List.not_mem_nil⟩

theorem Grows.trans (h : Grows ne_id oids r r') (h' : Grows ne_id oids r' r'') : Grows ne_id oids r r'' := by
  obtain ⟨new, hnew, hrows⟩ := h.rows
  obtain ⟨new', hnew', hrows'⟩ := h'.rows
  refine ⟨h'.chains.trans h.chains, h'.resets.trans h.resets, new ++ new', ?_, fun row hrow => ?_⟩
  · rw [hnew', hnew, List.append_assoc]
  · exact (List.mem_append.mp hrow).elim (hrows row) (hrows' row)

/-- To find a row or to insert it. -/
theorem Grows.obtained (found : Option Entity) (row : Nat → Entity)
    (hrow : ∀ id, 1 ≤ (row id).level → (row id).ne_id = ne_id ∧ oids[(row id).level - 1]? = some (row id).key_source)
    (hentity : r'.store.entity = (r.store.obtain found row).1.entity)
    (hreset : r'.store.entity_reset = (r.store.obtain found row).1.entity_reset)
    (hchains : r'.ne_discriminator = r.ne_discriminator) : Grows ne_id oids r r' := by
  cases found with
  | some row => exact ⟨hchains, hreset, [], hentity.trans (List.append_nil _).symm, fun _ h => absurd h List.not_mem_nil⟩
  | none =>
    refine ⟨hchains, hreset, [row r.store.next], hentity, fun new hnew => ?_⟩
    obtain rfl := List.mem_singleton.mp hnew
    exact hrow _

theorem Grows.level0 (ip : String) (hstore : r'.store = (r.store.entity_level0 ne_id ip).1)
    (hchains : r'.ne_discriminator = r.ne_discriminator) : Grows ne_id oids r r' := by
  rw [Store.entity_level0] at hstore
  split at hstore
  · exact ⟨hchains, congrArg Store.entity_reset hstore, [], by rw [hstore, List.append_nil], fun _ h => absurd h List.not_mem_nil⟩
  · exact Grows.obtained (r.store.entity.find? fun r => r.ne_id = ne_id && r.level = 0 && r.parent_id = none)
      (fun id => ⟨id, ne_id, none, 0, ip, "self", 1⟩) (fun _ h => absurd h (Nat.not_succ_le_zero 0))
      (by rw [hstore]) (by rw [hstore]) hchains

theorem Grows.get_or_create (parent_id level : Nat) (key key_source : String) (confidence : ℚ)
    (hoid : oids[level - 1]? = some key_source)
    (hstore : r'.store = (r.store.get_or_create_entity ne_id parent_id level key key_source confidence).1)
    (hchains : r'.ne_discriminator = r.ne_discriminator) : Grows ne_id oids r r' := by
  rw [Store.get_or_create_entity] at hstore
  split at hstore
  · exact ⟨hchains, congrArg Store.entity_reset hstore, [], by rw [hstore, List.append_nil], fun _ h => absurd h List.not_mem_nil⟩
  · exact Grows.obtained
      (r.store.entity.find? fun r => r.ne_id = ne_id && r.parent_id = some parent_id && r.key = key)
      (fun id => ⟨id, ne_id, some parent_id, level, key, key_source, confidence⟩) (fun _ _ => ⟨rfl, hoid⟩)
      (by rw [hstore]) (by rw [hstore]) hchains

theorem Grows.walk (event : Trap) (chain : List (String × ℚ)) (level parent : Nat) (named : Option Nat × String)
    (r : Resolver) (hlevel : 1 ≤ level) (hchain : oids.drop (level - 1) = chain.map (·.1)) :
    Grows ne_id oids r (Resolver.walk ne_id event chain level parent named r).1 := by
  induction chain generalizing level parent named r with
  | nil => exact Grows.refl ne_id oids r
  | cons link chain ih =>
    obtain ⟨oid, confidence⟩ := link
    rw [Resolver.walk]
    have hoid : oids[level - 1]? = some oid := by
      have := congrArg List.head? hchain
      rwa [List.head?_drop, List.map_cons, List.head?_cons] at this
    have hrest : oids.drop (level + 1 - 1) = chain.map (·.1) := by
      have := congrArg List.tail hchain
      rw [List.tail_drop, List.map_cons, List.tail_cons] at this
      rwa [Nat.add_sub_cancel, ← Nat.sub_add_cancel hlevel]
    split
    · exact Grows.refl ne_id oids r
    · split
      · exact ⟨rfl, rfl, [], (List.append_nil _).symm, fun _ h => absurd h List.not_mem_nil⟩
      · refine Grows.trans ?_ (ih (level + 1) _ _ _ (Nat.le_add_left ..) hrest)
        exact Grows.get_or_create parent level _ oid confidence hoid rfl rfl

/-- A trap adds entities of its element and of the chain in force. -/
theorem Grows.resolve (r : Resolver) (ne_id : Nat) (event : Trap) :
    Grows ne_id (r.oids ne_id) r (r.resolve_entity ne_id event).1 := by
  rw [Resolver.resolve_entity]
  dsimp only
  split
  · exact Grows.refl ..
  · refine Grows.trans ?_ (Grows.walk event ((r.ne_discriminator ne_id).getD []) 1 _ _ _ le_rfl rfl)
    exact Grows.level0 event.device rfl rfl

theorem Grows.identify (r : Resolver) (ne_id : Nat) (event : Trap) :
    Grows ne_id (r.oids ne_id) r (r.identify ne_id event).1 := by
  rw [Resolver.identify]
  dsimp only
  split
  · exact Grows.resolve r ne_id event
  · exact (Grows.resolve r ne_id event).trans (Grows.level0 event.device rfl rfl)

theorem Recorded.grows {other : Nat} (h : Recorded r other) (hgrows : Grows ne_id (r.oids ne_id) r r') :
    Recorded r' other := by
  obtain ⟨new, hnew, hrows⟩ := hgrows.rows
  have hoids : r'.oids other = r.oids other := by rw [Resolver.oids, hgrows.chains]; rfl
  have hunder (hu : Under r.store other (r.oids other)) : Under r'.store other (r.oids other) := by
    intro row hrow hne hlevel
    rw [hnew] at hrow
    rcases List.mem_append.mp hrow with hrow | hrow
    · exact hu row hrow hne hlevel
    · obtain ⟨hne', hoid⟩ := hrows row hrow hlevel
      exact hne.symm.trans hne' ▸ hoid
  rw [Recorded, hoids, hgrows.resets]
  rw [Recorded] at h
  split
  · rename_i hchain
    rw [if_pos hchain] at h
    exact h.imp id fun hu => hchain ▸ hunder (hchain.symm ▸ hu)
  · rename_i hchain
    rw [if_neg hchain] at h
    exact ⟨h.1, hunder h.2⟩

end Grows
end NetCoreNoc.Operate.Identity
