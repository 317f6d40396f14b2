import Mathlib

/-! Dictionaries that keep the order in which their keys were set. -/
namespace NetCoreNoc.Tables

theorem lookup_map {K L V W : Type*} [DecidableEq K] [DecidableEq L] {f : K → L} (hf : Function.Injective f)
    (g : V → W) (l : List (K × V)) (k : K) : (l.map fun e => (f e.1, g e.2)).lookup (f k) = (l.lookup k).map g := by
  induction l with
  | nil => rfl
  | cons e l ih =>
    rw [List.map_cons, List.lookup_cons, List.lookup_cons]
    rcases eq_or_ne k e.1 with rfl | hne
    · rw [beq_self_eq_true, beq_self_eq_true]
      rfl
    · rw [beq_false_of_ne hne, beq_false_of_ne (hf.ne hne), ih]

/-- Entries of distinct keys. -/
@[ext] structure Table (K V : Type*) where
  entries : List (K × V)
  nodup : (entries.map Prod.fst).Nodup

namespace Table
variable {K V : Type*}

def empty : Table K V := ⟨[], List.nodup_nil⟩

def size (t : Table K V) : ℕ := t.entries.length

variable [DecidableEq K] (t : Table K V) (k x : K)

def get : Option V := t.entries.lookup k

@[simp] theorem get_empty : (empty : Table K V).get k = none := rfl

theorem get_eq_some {v : V} : t.get k = some v ↔ (k, v) ∈ t.entries := by
  obtain ⟨l, hl⟩ := t
  change l.lookup k = some v ↔ (k, v) ∈ l
  induction l with
  | nil => exact ⟨nofun, nofun⟩
  | cons e l ih =>
    obtain ⟨a, b⟩ := e
    have hnot := (List.nodup_cons.mp hl).1
    rw [List.lookup_cons, List.mem_cons, Prod.mk.injEq]
    rcases eq_or_ne k a with rfl | hne
    · have : (k, v) ∉ l := fun h => hnot (List.mem_map.mpr ⟨_, h, rfl⟩)
      rw [beq_self_eq_true, or_iff_left this]
      exact ⟨fun h => ⟨rfl, (Option.some.inj h).symm⟩, fun h => congrArg some h.2.symm⟩
    · rw [beq_false_of_ne hne, or_iff_right fun h => hne h.1]
      exact ih (List.nodup_cons.mp hl).2

theorem get_eq_none : t.get k = none ↔ k ∉ t.entries.map Prod.fst := by
  refine Option.eq_none_iff_forall_ne_some.trans ⟨fun h hk => ?_, fun h v hv => ?_⟩
  · obtain ⟨⟨a, v⟩, he, rfl⟩ := List.mem_map.mp hk
    exact h v ((t.get_eq_some a).mpr he)
  · exact h (List.mem_map_of_mem ((t.get_eq_some k).mp hv))

theorem exists_keys : ∃ keys : Finset K, keys.card = t.size ∧ ∀ y, y ∈ keys ↔ (t.get y).isSome := by
  refine ⟨(t.entries.map Prod.fst).toFinset, ?_, fun y => ?_⟩
  · rw [List.toFinset_card_of_nodup t.nodup, List.length_map, size]
  · rw [List.mem_toFinset, ← not_iff_not, ← get_eq_none, Option.not_isSome_iff_eq_none]

private def changed (f : V → V) (e : K × V) : K × V := if e.1 = k then (e.1, f e.2) else e

private theorem changed_fst (f : V → V) (e : K × V) : (changed k f e).1 = e.1 := by
  unfold changed
  split <;> rfl

/-- The value of a key is changed in place, the key being set to a default at the end where it is missing. -/
def upsert (v : V) (f : V → V) : Table K V :=
  if h : k ∈ t.entries.map Prod.fst then
    ⟨t.entries.map (changed k f), by
      rw [List.map_map, show Prod.fst ∘ changed k f = Prod.fst from funext (changed_fst k f)]
      exact t.nodup⟩
  else
    ⟨t.entries ++ [(k, f v)], by
      rw [List.map_append]
      exact t.nodup.append (List.nodup_singleton k) (List.disjoint_singleton.mpr h)⟩

theorem get_upsert_self (v : V) (f : V → V) : (t.upsert k v f).get k = some (f ((t.get k).getD v)) := by
  unfold upsert
  rw [get_eq_some]
  split
  · rename_i h
    obtain ⟨⟨a, b⟩, he, rfl⟩ := List.mem_map.mp h
    rw [(t.get_eq_some a).mpr he]
    exact List.mem_map.mpr ⟨(a, b), he, if_pos rfl⟩
  · rename_i h
    rw [(t.get_eq_none k).mpr h]
    exact List.mem_append_right _ (List.mem_singleton_self _)

theorem get_upsert_of_ne (v : V) (f : V → V) (h : x ≠ k) : (t.upsert k v f).get x = t.get x := by
  refine Option.ext fun w => ?_
  unfold upsert
  rw [get_eq_some, get_eq_some]
  split
  · refine List.mem_map.trans ⟨?_, fun hw => ⟨(x, w), hw, if_neg h⟩⟩
    rintro ⟨e, he, hx⟩
    have hfst : e.1 = x := (changed_fst k f e).symm.trans (congrArg Prod.fst hx)
    rw [changed, if_neg (hfst.trans_ne h)] at hx
    exact hx ▸ he
  · refine List.mem_append.trans (or_iff_left fun hw => h ?_)
    exact congrArg Prod.fst (List.mem_singleton.mp hw)

theorem size_upsert (v : V) (f : V → V) : t.size ≤ (t.upsert k v f).size := by
  unfold upsert
  split
  · exact (List.length_map _).ge
  · rw [size, size, List.length_append]
    exact Nat.le_add_right _ _

theorem size_upsert_le (v : V) (f : V → V) : (t.upsert k v f).size ≤ t.size + 1 := by
  unfold upsert
  split
  · exact (List.length_map _).trans_le (Nat.le_succ _)
  · exact (List.length_append).le

section
variable {W : Type*} (v : V) (f : W → V → V)

/-- Each entry of a list changes the value of its key. -/
def merge (l : List (K × W)) : Table K V := l.foldl (fun t e => t.upsert e.1 v (f e.2)) t

theorem get_merge {l : List (K × W)} (hl : (l.map Prod.fst).Nodup) :
    (t.merge v f l).get k = ((l.lookup k).map fun w => f w ((t.get k).getD v)).or (t.get k) := by
  induction l generalizing t with
  | nil => rfl
  | cons e l ih =>
    obtain ⟨a, w⟩ := e
    obtain ⟨hnot, hl⟩ := List.nodup_cons.mp hl
    rw [merge, List.foldl_cons]
    refine (ih (t.upsert a v (f w)) hl).trans ?_
    rw [List.lookup_cons]
    rcases eq_or_ne k a with rfl | hne
    · have hnone : l.lookup k = none := List.lookup_eq_none_iff.mpr fun e he =>
        bne_iff_ne.mpr fun h => hnot (List.mem_map.mpr ⟨e, he, h.symm⟩)
      rw [beq_self_eq_true, hnone, get_upsert_self]
      rfl
    · rw [beq_false_of_ne hne, get_upsert_of_ne _ _ _ _ _ hne]

end

section
variable [AddCommMonoid V]

def count : V := (t.get k).getD 0

/-- Every count of a table, added to the one of its key. -/
def add (u : Table K V) : Table K V := t.merge 0 (fun w n => n + w) u.entries

theorem count_add (u : Table K V) : (t.add u).count k = t.count k + u.count k := by
  rw [count, add, get_merge t k _ _ u.nodup, count, count]
  change (((u.get k).map _).or _).getD 0 = _
  cases u.get k with
  | none => exact (add_zero _).symm
  | some w => rfl

end

/-- Some of the entries, in any order. -/
def keep (l : List (K × V)) (h : l.Subperm t.entries) : Table K V :=
  ⟨l, by
    obtain ⟨m, hm, hs⟩ := h
    exact (hm.map Prod.fst).nodup_iff.mp (t.nodup.sublist (hs.map Prod.fst))⟩

theorem get_keep {l : List (K × V)} {h : l.Subperm t.entries} {v : V} :
    (t.keep l h).get k = some v ↔ (k, v) ∈ l := get_eq_some _ k

def erase : Table K V := t.keep (t.entries.filter (·.1 ≠ k)) List.filter_sublist.subperm

theorem size_erase : (t.erase k).size ≤ t.size := List.length_filter_le _ _

@[simp] theorem get_erase_self : (t.erase k).get k = none := by
  rw [get_eq_none]
  intro h
  obtain ⟨e, he, hk⟩ := List.mem_map.mp h
  exact of_decide_eq_true (List.mem_filter.mp he).2 hk

theorem get_erase_of_ne (h : x ≠ k) : (t.erase k).get x = t.get x := by
  refine Option.ext fun w => ?_
  rw [erase, get_keep, get_eq_some]
  exact List.mem_filter.trans (and_iff_left (decide_eq_true h))

end Table

end NetCoreNoc.Tables
