import Mathlib

/-! A table in memory whose changes reach a store later: the keys that changed are kept, and a flush
writes the entries of those keys. -/
namespace NetCoreNoc.Writeback
variable {K V W : Type} [DecidableEq K]

/-- Keys, in order. -/
def ordered {K : Type} [LinearOrder K] (keys : Finset K) : List K := keys.sort (· ≤ ·)

theorem mem_ordered {K : Type} [LinearOrder K] {keys : Finset K} {k : K} : k ∈ ordered keys ↔ k ∈ keys := Finset.mem_sort _

/-- A finite map. -/
structure Entries (K V : Type) [DecidableEq K] where
  keys : Finset K
  get : K → Option V
  mem_keys : ∀ k, k ∈ keys ↔ (get k).isSome

namespace Entries
variable (d rows : Entries K V)

def empty : Entries K V := ⟨∅, fun _ => none, by simp⟩

def size : Nat := d.keys.card

def set (k : K) (v : V) : Entries K V where
  keys := insert k d.keys
  get := Function.update d.get k (some v)
  mem_keys k' := by
    rw [Finset.mem_insert, d.mem_keys]
    rcases eq_or_ne k' k with rfl | hne
    · simp
    · simp [hne]

def map (f : K → V → V) : Entries K V where
  keys := d.keys
  get k := (d.get k).map (f k)
  mem_keys k := by rw [d.mem_keys, Option.isSome_map]

def filter (p : K → V → Bool) : Entries K V where
  keys := d.keys.filter fun k => (d.get k).any (p k)
  get k := (d.get k).filter (p k)
  mem_keys k := by
    rw [Finset.mem_filter, d.mem_keys]
    cases d.get k with
    | none => simp
    | some v => cases h : p k v <;> simp [Option.filter, h]

/-- The rows are written over what is there. -/
def upsert : Entries K V where
  keys := rows.keys ∪ d.keys
  get k := (rows.get k).or (d.get k)
  mem_keys k := by
    rw [Finset.mem_union, rows.mem_keys, d.mem_keys, Option.isSome_or, Bool.or_eq_true]

/-- The rows are merged with what is there. -/
def merge (f : V → V → V) : Entries K V where
  keys := rows.keys ∪ d.keys
  get k := match rows.get k, d.get k with
    | some v, some old => some (f v old)
    | some v, none => some v
    | none, old => old
  mem_keys k := by
    rw [Finset.mem_union, rows.mem_keys, d.mem_keys]
    cases rows.get k <;> cases d.get k <;> simp

variable {d rows} {f : V → V → V} {k k' : K}

theorem get_set (v : V) : (d.set k v).get k = some v := Function.update_self ..

theorem get_set_ne (h : k' ≠ k) (v : V) : (d.set k v).get k' = d.get k' := Function.update_of_ne h ..

theorem merge_none (h : rows.get k = none) : (d.merge rows f).get k = d.get k := by
  unfold merge
  simp only [h]

theorem merge_some {v : V} (h : rows.get k = some v) :
    (d.merge rows f).get k = some ((d.get k).elim v (f v)) := by
  unfold merge
  simp only [h]
  cases d.get k <;> rfl

/-- Two maps hold the same keys, with values that read the same. -/
def Agrees (view : V → W) (d d' : Entries K V) : Prop := ∀ k, (d.get k).map view = (d'.get k).map view

theorem Agrees.filter {view : V → W} {d d' : Entries K V} (h : d.Agrees view d') {p : K → V → Bool} {q : K → W → Bool}
    (hp : ∀ k v, p k v = q k (view v)) : (d.filter p).Agrees view (d'.filter p) := by
  have hview : ∀ (o : Option V) (k : K), (o.filter (p k)).map view = (o.map view).filter (q k) := by
    intro o k
    cases o with
    | none => rfl
    | some v => cases hv : p k v <;> simp [Option.filter, ← hp, hv]
  intro k
  show ((d.get k).filter (p k)).map view = ((d'.get k).filter (p k)).map view
  rw [hview, hview, h k]

theorem Agrees.get {d d' : Entries K V} (h : d.Agrees id d') (k : K) : d.get k = d'.get k := by
  simpa using h k

end Entries

/-- The map in memory, and the keys that changed since it was last written. -/
structure Table (K V : Type) [DecidableEq K] where
  held : Entries K V := .empty
  dirty : Finset K := ∅

namespace Table
variable (t : Table K V)

def put (k : K) (v : V) : Table K V := ⟨t.held.set k v, insert k t.dirty⟩

/-- Every entry changes. -/
def change (f : V → V) : Table K V := ⟨t.held.map fun _ => f, t.dirty ∪ t.held.keys⟩

def clean : Table K V := { t with dirty := ∅ }

/-- What a flush writes. -/
def rows (write : V → V) : Entries K V where
  keys := t.dirty ∩ t.held.keys
  get k := if k ∈ t.dirty then (t.held.get k).map write else none
  mem_keys k := by
    rw [Finset.mem_inter, t.held.mem_keys]
    by_cases h : k ∈ t.dirty <;> simp [h]

variable {t} {write : V → V} {k k' : K} {v : V}

theorem rows_clean (h : k ∉ t.dirty) : (t.rows write).get k = none := if_neg h

/-- A flush writes what is held. -/
theorem rows_held (h : (t.rows write).get k = some v) : (t.held.get k).map write = some v := by
  have h : (if k ∈ t.dirty then (t.held.get k).map write else none) = some v := h
  split at h
  · exact h
  · exact absurd h (by simp)

theorem rows_put : ((t.put k v).rows write).get k = some (write v) := by
  exact (if_pos (Finset.mem_insert_self ..)).trans (congrArg _ (Entries.get_set v))

theorem rows_put_ne (h : k' ≠ k) : ((t.put k v).rows write).get k' = (t.rows write).get k' := by
  have hget : (t.put k v).held.get k' = t.held.get k' := Entries.get_set_ne h v
  have hdirty : k' ∈ (t.put k v).dirty ↔ k' ∈ t.dirty := by simp [put, h]
  show (if _ then _ else none) = if _ then _ else none
  simp only [hdirty, hget]

/-- The store is behind the table at most at the keys that changed. -/
structure Synced (view : V → W) (t : Table K V) (store : Entries K V) : Prop where
  clean : ∀ k ∉ t.dirty, (t.held.get k).map view = (store.get k).map view
  held : t.dirty ⊆ t.held.keys

variable {view : V → W} {store : Entries K V}

theorem Synced.put (h : t.Synced view store) (k : K) (v : V) : (t.put k v).Synced view store := by
  refine ⟨fun k' hk => ?_, Finset.insert_subset_insert k h.held⟩
  obtain ⟨hne, hk⟩ := not_or.mp (Finset.mem_insert.not.mp hk)
  rw [← h.clean k' hk]
  exact congrArg _ (Entries.get_set_ne hne v)

theorem Synced.change (h : t.Synced view store) (f : V → V) : (t.change f).Synced view store := by
  refine ⟨fun k hk => ?_, Finset.union_subset h.held subset_rfl⟩
  obtain ⟨hk, hkeys⟩ := not_or.mp (Finset.mem_union.not.mp hk)
  have hnone : t.held.get k = none := by
    rw [t.held.mem_keys] at hkeys
    simpa using hkeys
  rw [← h.clean k hk]
  show ((t.held.get k).map f).map view = _
  rw [hnone]
  rfl

/-- A flush writes all that the store is behind by. -/
theorem Synced.flush (h : t.Synced view store) {write : V → V} (hwrite : ∀ v, view (write v) = view v) :
    t.held.Agrees view (store.upsert (t.rows write)) := by
  intro k
  show _ = ((if k ∈ t.dirty then (t.held.get k).map write else none).or (store.get k)).map view
  by_cases hk : k ∈ t.dirty
  · obtain ⟨v, hv⟩ := Option.isSome_iff_exists.mp ((t.held.mem_keys k).mp (h.held hk))
    rw [if_pos hk, hv]
    exact congrArg some (hwrite v).symm
  · rw [if_neg hk, Option.none_or]
    exact h.clean k hk

/-- With nothing changed, the store has what the table has. -/
theorem synced_of_agrees (hclean : t.dirty = ∅) (h : t.held.Agrees view store) : t.Synced view store :=
  ⟨fun k _ => h k, hclean ▸ Finset.empty_subset _⟩

theorem Synced.agrees (h : t.Synced view store) (hclean : t.dirty = ∅) : t.held.Agrees view store :=
  fun k => h.clean k (hclean ▸ Finset.notMem_empty k)

end Table
end NetCoreNoc.Writeback
