import Mathlib
import NetCoreNoc.Tables

/-! Tables as a database keeps them: rows inserted under a new key, and those that meet a condition changed or deleted. -/
namespace NetCoreNoc.Tables.Table
variable {K V : Type*} [DecidableEq K] (t : Table K V) (p : K → V → Bool) (k x : K)

private def rewritten (f : V → V) (e : K × V) : K × V := if p e.1 e.2 then (e.1, f e.2) else e

omit [DecidableEq K] in
private theorem rewritten_fst (f : V → V) (e : K × V) : (rewritten p f e).1 = e.1 := by
  unfold rewritten
  split <;> rfl

/-- `UPDATE … WHERE p` -/
def update (f : V → V) : Table K V :=
  ⟨t.entries.map (rewritten p f), by
    rw [List.map_map, show Prod.fst ∘ rewritten p f = Prod.fst from funext (rewritten_fst p f)]
    exact t.nodup⟩

theorem get_update (f : V → V) : (t.update p f).get k = (t.get k).map fun v => if p k v then f v else v := by
  apply Option.ext
  intro w
  rw [get_eq_some, Option.map_eq_some_iff]
  refine List.mem_map.trans ⟨?_, ?_⟩
  · rintro ⟨⟨a, v⟩, he, hw⟩
    obtain rfl : a = k := (rewritten_fst p f _).symm.trans (congrArg Prod.fst hw)
    refine ⟨v, (t.get_eq_some a).mpr he, ?_⟩
    rw [← show (rewritten p f (a, v)).2 = w from congrArg Prod.snd hw, rewritten]
    split <;> rfl
  · rintro ⟨v, hv, rfl⟩
    refine ⟨(k, v), (t.get_eq_some k).mp hv, ?_⟩
    rw [rewritten]
    split <;> rfl

/-- `DELETE … WHERE p` -/
def delete : Table K V := t.keep (t.entries.filter fun e => !p e.1 e.2) List.filter_sublist.subperm

theorem get_delete : (t.delete p).get k = (t.get k).filter fun v => !p k v := by
  apply Option.ext
  intro w
  rw [delete, get_keep, Option.filter_eq_some_iff, get_eq_some]
  exact List.mem_filter

/-- `INSERT`, which raises where the key is taken -/
def insert (v : V) : Option (Table K V) :=
  if h : k ∈ t.entries.map Prod.fst then none
  else some ⟨t.entries ++ [(k, v)], by
    rw [List.map_append]
    exact t.nodup.append (List.nodup_singleton k) (List.disjoint_singleton.mpr h)⟩

variable {t p k}

theorem get_insert {v : V} {u : Table K V} (h : t.insert k v = some u) :
    u.get x = if x = k then some v else t.get x := by
  unfold insert at h
  split at h
  · cases h
  · rename_i hnew
    obtain rfl := Option.some.inj h
    apply Option.ext
    intro w
    rw [get_eq_some, List.mem_append, List.mem_singleton]
    split
    · rename_i hx
      subst hx
      have : (x, w) ∉ t.entries := fun hm => hnew (List.mem_map_of_mem hm)
      rw [or_iff_right this, Prod.mk.injEq, eq_self_iff_true, true_and, Option.some.injEq, eq_comm]
    · rename_i hx
      rw [or_iff_left fun hm => hx (congrArg Prod.fst hm), get_eq_some]

theorem isSome_insert {v : V} : (t.insert k v).isSome ↔ t.get k = none := by
  rw [get_eq_none, insert]
  split
  · rename_i h
    exact iff_of_false Bool.false_ne_true fun hnot => hnot h
  · rename_i h
    exact iff_of_true rfl h

/-! Rows rewritten one after the other -/

section Rewriting
variable {ε : Type*} (f : K → V → Except ε V)

/-- A loop of `UPDATE … WHERE key=?` over rows that were read before -/
def rewrite : List (K × V) → Table K V → Except ε (Table K V)
  | [], t => .ok t
  | e :: l, t => match f e.1 e.2 with
    | .ok w => rewrite l (t.update (fun x _ => x = e.1) fun _ => w)
    | .error x => .error x

variable (t) (p)

/-- The loop, over the rows that meet a condition -/
def rewriteWhere : Except ε (Table K V) := rewrite f (t.entries.filter fun e => p e.1 e.2) t

variable {f t p}

theorem get_rewrite {l : List (K × V)} {t u : Table K V} (h : rewrite f l t = .ok u) (hl : (l.map Prod.fst).Nodup) :
    (∀ k, k ∉ l.map Prod.fst → u.get k = t.get k) ∧
      ∀ e ∈ l, ∃ w, f e.1 e.2 = .ok w ∧ u.get e.1 = (t.get e.1).map fun _ => w := by
  induction l generalizing t with
  | nil =>
    obtain rfl := Except.ok.inj h
    exact ⟨fun _ _ => rfl, fun _ he => absurd he List.not_mem_nil⟩
  | cons e l ih =>
    obtain ⟨hnew, hl⟩ := List.nodup_cons.mp hl
    cases hw : f e.1 e.2 with
    | error x =>
      rw [rewrite, hw] at h
      cases h
    | ok w =>
      rw [rewrite, hw] at h
      obtain ⟨hrest, hrows⟩ := ih h hl
      constructor
      · intro k hk
        have hne : k ≠ e.1 := fun heq => hk (heq ▸ List.mem_cons_self)
        rw [hrest k fun hmem => hk (List.mem_cons_of_mem _ hmem), get_update]
        simp [hne]
      · intro d hd
        rcases List.mem_cons.mp hd with rfl | hd
        · refine ⟨w, hw, ?_⟩
          rw [hrest _ hnew, get_update]
          simp
        · obtain ⟨x, hx, hget⟩ := hrows d hd
          have hne : d.1 ≠ e.1 := fun heq => hnew (heq ▸ List.mem_map_of_mem hd)
          refine ⟨x, hx, hget.trans ?_⟩
          rw [get_update]
          simp [hne]

theorem rewrite_ok {l : List (K × V)} {t : Table K V} (h : ∀ e ∈ l, ∃ w, f e.1 e.2 = .ok w) :
    ∃ u, rewrite f l t = .ok u := by
  induction l generalizing t with
  | nil => exact ⟨t, rfl⟩
  | cons e l ih =>
    obtain ⟨⟨w, hw⟩, hl⟩ := List.forall_mem_cons.mp h
    obtain ⟨u, hu⟩ := ih (t := t.update (fun x _ => x = e.1) fun _ => w) hl
    exact ⟨u, by rw [rewrite, hw]; exact hu⟩

theorem get_rewriteWhere {u : Table K V} (h : t.rewriteWhere p f = .ok u) (k : K) :
    u.get k = (t.get k).bind fun v => if p k v then (f k v).toOption else some v := by
  obtain ⟨hrest, hrows⟩ := get_rewrite h (t.nodup.sublist (List.filter_sublist.map _))
  cases hv : t.get k with
  | none =>
    refine (hrest k fun hmem => ?_).trans hv
    exact t.get_eq_none k |>.mp hv ((List.filter_sublist.map _).subset hmem)
  | some v =>
    have hrow := (t.get_eq_some k).mp hv
    by_cases hp : p k v
    · obtain ⟨w, hw, hget⟩ := hrows (k, v) (List.mem_filter.mpr ⟨hrow, hp⟩)
      rw [hget, Option.bind_some, if_pos hp, hw]
      simp only [hv]
      rfl
    · rw [Option.bind_some, if_neg hp]
      refine (hrest k fun hmem => ?_).trans hv
      obtain ⟨⟨a, x⟩, he, rfl⟩ := List.mem_map.mp hmem
      obtain ⟨hx, hpx⟩ := List.mem_filter.mp he
      have hvx : v = x := Option.some.inj (hv.symm.trans ((t.get_eq_some a).mpr hx))
      exact hp (hvx ▸ hpx)

theorem rewriteWhere_ok (h : ∀ k v, t.get k = some v → p k v → ∃ w, f k v = .ok w) : ∃ u, t.rewriteWhere p f = .ok u := by
  apply rewrite_ok
  intro e he
  obtain ⟨hrow, hp⟩ := List.mem_filter.mp he
  exact h e.1 e.2 ((t.get_eq_some e.1).mpr hrow) hp

theorem rewriteWhere_none (h : ∀ k v, t.get k = some v → ¬ p k v) : t.rewriteWhere p f = .ok t := by
  rw [rewriteWhere, List.filter_eq_nil_iff.mpr fun e he => h e.1 e.2 ((t.get_eq_some e.1).mpr he)]
  rfl

end Rewriting

/-! Two tables, each row of one beside a row of the other -/

section Related
variable {W : Type*} {R : K → V → W → Prop} {t : Table K V} {u : Table K W}

def Related (R : K → V → W → Prop) (t : Table K V) (u : Table K W) : Prop := ∀ k, Option.Rel (R k) (t.get k) (u.get k)

theorem Related.rows (h : Related R t u) (k : K) :
    (t.get k = none ∧ u.get k = none) ∨ ∃ v w, t.get k = some v ∧ u.get k = some w ∧ R k v w := by
  have hk := h k
  generalize t.get k = x at hk
  generalize u.get k = y at hk
  cases hk with
  | none => exact .inl ⟨rfl, rfl⟩
  | some hvw => exact .inr ⟨_, _, rfl, rfl, hvw⟩

theorem Related.row (h : Related R t u) {k : K} {v : V} (hv : t.get k = some v) : ∃ w, u.get k = some w ∧ R k v w := by
  rcases h.rows k with ⟨ht, -⟩ | ⟨v', w, ht, hu, hvw⟩
  · rw [ht] at hv
    cases hv
  · obtain rfl := Option.some.inj (ht.symm.trans hv)
    exact ⟨w, hu, hvw⟩

theorem Related.update {p : K → V → Bool} {q : K → W → Bool} {f : V → V} {g : W → W} (h : Related R t u)
    (hp : ∀ k v w, R k v w → p k v = q k w) (hf : ∀ k v w, R k v w → p k v → R k (f v) (g w)) :
    Related R (t.update p f) (u.update q g) := by
  intro k
  rw [get_update, get_update]
  rcases h.rows k with ⟨ht, hu⟩ | ⟨v, w, ht, hu, hvw⟩ <;> rw [ht, hu]
  · exact .none
  · refine .some ?_
    show R k (if p k v then f v else v) (if q k w then g w else w)
    rw [← hp k v w hvw]
    split
    · rename_i hpv
      exact hf k v w hvw hpv
    · exact hvw

theorem Related.delete {p : K → Bool} (h : Related R t u) : Related R (t.delete fun k _ => p k) (u.delete fun k _ => p k) := by
  intro k
  rw [get_delete, get_delete]
  rcases h.rows k with ⟨ht, hu⟩ | ⟨v, w, ht, hu, hvw⟩ <;> rw [ht, hu]
  · exact .none
  · rw [Option.filter_some, Option.filter_some]
    split
    · exact .some hvw
    · exact .none

theorem Related.put {k : K} {v : V} {w : W} (h : Related R t u) (hvw : R k v w) :
    Related R (t.upsert k v fun _ => v) (u.upsert k w fun _ => w) := by
  intro x
  rcases eq_or_ne x k with rfl | hne
  · rw [get_upsert_self, get_upsert_self]
    exact .some hvw
  · rw [get_upsert_of_ne _ _ _ _ _ hne, get_upsert_of_ne _ _ _ _ _ hne]
    exact h x

theorem Related.mono {S : K → V → W → Prop} (h : Related R t u) (hRS : ∀ k v w, t.get k = some v → R k v w → S k v w) :
    Related S t u := by
  intro k
  rcases h.rows k with ⟨ht, hu⟩ | ⟨v, w, ht, hu, hvw⟩ <;> rw [ht, hu]
  · exact .none
  · exact .some (hRS k v w ht hvw)

/-- Rows that do not stand to the others as they should are rewritten so that they do. -/
theorem Related.rewriteWhere {ε : Type*} {p : K → V → Bool} {f : K → V → Except ε V} {S : K → V → W → Prop}
    (h : Related R t u) (hkeep : ∀ k v w, R k v w → ¬ p k v → S k v w)
    (hf : ∀ k v w, R k v w → p k v → ∃ x, f k v = .ok x ∧ S k x w) :
    ∃ t', t.rewriteWhere p f = .ok t' ∧ Related S t' u := by
  have hok (k : K) (v : V) (hv : t.get k = some v) (hp : p k v) : ∃ x, f k v = .ok x := by
    obtain ⟨w, -, hvw⟩ := h.row hv
    obtain ⟨x, hx, -⟩ := hf k v w hvw hp
    exact ⟨x, hx⟩
  obtain ⟨t', ht'⟩ := rewriteWhere_ok hok
  refine ⟨t', ht', fun k => ?_⟩
  rw [get_rewriteWhere ht']
  rcases h.rows k with ⟨ht, hu⟩ | ⟨v, w, ht, hu, hvw⟩ <;> rw [ht, hu]
  · exact .none
  · rw [Option.bind_some]
    split
    · rename_i hp
      obtain ⟨x, hx, hS⟩ := hf k v w hvw hp
      rw [hx]
      exact .some hS
    · rename_i hp
      exact .some (hkeep k v w hvw hp)

theorem Related.isSome (h : Related R t u) (k : K) : (t.get k).isSome = (u.get k).isSome := by
  rcases h.rows k with ⟨ht, hu⟩ | ⟨v, w, ht, hu, -⟩ <;> rw [ht, hu] <;> rfl

/-- A key is taken in both tables or in neither. -/
theorem Related.insert {k : K} {v : V} {w : W} (h : Related R t u) (hvw : R k v w) :
    (t.insert k v = none ∧ u.insert k w = none) ∨
      ∃ t' u', t.insert k v = some t' ∧ u.insert k w = some u' ∧ Related R t' u' := by
  have hkey : (t.insert k v).isSome = (u.insert k w).isSome := by
    rw [Bool.eq_iff_iff, isSome_insert, isSome_insert, ← Option.isNone_iff_eq_none, ← Option.isNone_iff_eq_none,
      ← Option.not_isSome, ← Option.not_isSome, h.isSome]
  cases ht : t.insert k v with
  | none =>
    rw [ht] at hkey
    exact .inl ⟨rfl, Option.isNone_iff_eq_none.mp (Option.not_isSome _ ▸ by rw [← hkey]; rfl)⟩
  | some t' =>
    rw [ht] at hkey
    obtain ⟨u', hu⟩ := Option.isSome_iff_exists.mp hkey.symm
    refine .inr ⟨t', u', rfl, hu, fun x => ?_⟩
    rw [get_insert x ht, get_insert x hu]
    split
    · rename_i hx
      subst hx
      exact .some hvw
    · exact h x

end Related

end NetCoreNoc.Tables.Table

/-! Tables whose keys are numbers that the database gives out, each of them once. -/
namespace NetCoreNoc.Tables

structure Serial (V : Type*) where
  rows : Table ℕ V
  next : ℕ
  below : ∀ k v, rows.get k = some v → k < next

namespace Serial
variable {V : Type*} (t : Serial V) (p : ℕ → V → Bool) (k : ℕ)

def get : Option V := t.rows.get k

theorem get_next : t.get t.next = none := by
  apply Option.eq_none_iff_forall_ne_some.mpr
  intro v h
  exact (t.below _ v h).false

def empty : Serial V where
  rows := .empty
  next := 1
  below _ _ h := nomatch h

/-- `INSERT … RETURNING id`; the key that it gives out is the one before the next. -/
def insert (v : V) : Serial V where
  rows := t.rows.upsert t.next v id
  next := t.next + 1
  below k w h := by
    rcases eq_or_ne k t.next with rfl | hne
    · exact Nat.lt_succ_self _
    · rw [Table.get_upsert_of_ne _ _ _ _ _ hne] at h
      exact (t.below k w h).trans (Nat.lt_succ_self _)

def update (f : V → V) : Serial V where
  rows := t.rows.update p f
  next := t.next
  below k w h := by
    rw [Table.get_update] at h
    obtain ⟨v, hv, -⟩ := Option.map_eq_some_iff.mp h
    exact t.below k v hv

def delete : Serial V where
  rows := t.rows.delete p
  next := t.next
  below k w h := by
    rw [Table.get_delete] at h
    exact t.below k w (Option.filter_eq_some_iff.mp h).1

theorem get_insert (v : V) : (t.insert v).get k = if k = t.next then some v else t.get k := by
  split
  · rename_i hk
    subst hk
    refine (Table.get_upsert_self t.rows t.next v id).trans ?_
    rw [show t.rows.get t.next = none from t.get_next]
    rfl
  · rename_i hk
    exact Table.get_upsert_of_ne _ _ _ _ _ hk

theorem get_update (f : V → V) :
    (t.update p f).get k = (t.get k).map fun v => if p k v then f v else v := Table.get_update _ _ _ f

theorem get_delete : (t.delete p).get k = (t.get k).filter fun v => !p k v := Table.get_delete _ _ _

end Serial

end NetCoreNoc.Tables
