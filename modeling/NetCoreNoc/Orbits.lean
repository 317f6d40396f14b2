import Mathlib

/-! The walks of a partial function: where one leads, where it ends, and what it comes back to. -/
namespace NetCoreNoc.Orbits
variable {α : Type*} (next : α → Option α)

/-- Where a walk is after so many steps, if it is not over. -/
def walk : ℕ → α → Option α
  | 0, a => some a
  | n + 1, a => (walk n a).bind next

/-- A walk comes to a place. -/
def Leads (a b : α) : Prop := ∃ n, walk next n a = some b

/-- A walk comes to a place and is over. -/
def Ends (a b : α) : Prop := Leads next a b ∧ next b = none

/-- A walk comes back to where it began. -/
def Cyclic (a : α) : Prop := ∃ n, 0 < n ∧ walk next n a = some a

/-- The cycle that a walk comes to. -/
def circle (a : α) : Set α := {b | Leads next a b ∧ Cyclic next b}

/-- Two walks come to one place. -/
def Meet (a b : α) : Prop := ∃ c, Leads next a c ∧ Leads next b c

/-- A walk comes to so many places at most. -/
def Within (n : ℕ) (a : α) : Prop := ∃ visited : Finset α, visited.card ≤ n ∧ ∀ b, Leads next a b → b ∈ visited

variable {next} {a b c : α} {m n : ℕ}

theorem walk_succ (h : walk next n a = some b) : walk next (n + 1) a = next b := by
  rw [walk, h, Option.bind_some]

theorem walk_add (h : walk next m a = some b) (n : ℕ) : walk next (m + n) a = walk next n b := by
  induction n with
  | zero => exact h
  | succ n ih => exact congrArg (Option.bind · next) ih

/-- Before it comes somewhere, a walk is not over. -/
theorem walk_before (h : walk next (m + n) a = some b) : ∃ c, walk next m a = some c := by
  induction n generalizing b with
  | zero => exact ⟨b, h⟩
  | succ n ih =>
    obtain ⟨c, hc, -⟩ := Option.bind_eq_some_iff.mp h
    exact ih hc

theorem Leads.refl (a : α) : Leads next a a := ⟨0, rfl⟩

theorem Leads.trans (h : Leads next a b) (k : Leads next b c) : Leads next a c := by
  obtain ⟨m, h⟩ := h
  obtain ⟨n, k⟩ := k
  exact ⟨m + n, (walk_add h n).trans k⟩

/-- Of two places that a walk comes to, one is on the way to the other. -/
theorem Leads.total (h : Leads next a b) (k : Leads next a c) : Leads next b c ∨ Leads next c b := by
  obtain ⟨m, h⟩ := h
  obtain ⟨n, k⟩ := k
  rcases Nat.le_total m n with hle | hle
  · obtain ⟨d, rfl⟩ := Nat.exists_eq_add_of_le hle
    exact .inl ⟨d, (walk_add h d).symm.trans k⟩
  · obtain ⟨d, rfl⟩ := Nat.exists_eq_add_of_le hle
    exact .inr ⟨d, (walk_add k d).symm.trans h⟩

/-- What a walk never leaves holds wherever it comes. -/
theorem Leads.closed {P : α → Prop} (h : Leads next a b) (ha : P a) (hP : ∀ c d, P c → next c = some d → P d) :
    P b := by
  obtain ⟨n, h⟩ := h
  induction n generalizing b with
  | zero => exact Option.some.inj h ▸ ha
  | succ n ih =>
    obtain ⟨c, hc, hb⟩ := Option.bind_eq_some_iff.mp h
    exact hP c b (ih hc) hb

theorem Ends.of_leads (h : Ends next a c) (k : Leads next a b) : Ends next b c := by
  refine ⟨?_, h.2⟩
  rcases h.1.total k with hback | hon
  · -- there is no way on from where a walk is over
    obtain rfl := hback.closed (P := (c = ·)) rfl fun d e hd he => by
      rw [← hd, h.2] at he
      cases he
    exact .refl c
  · exact hon

theorem Ends.unique (h : Ends next a b) (k : Ends next a c) : b = c := by
  have hon := k.of_leads h.1
  exact hon.1.closed (P := (b = ·)) rfl fun d e hd he => by
    rw [← hd, h.2] at he
    cases he

theorem Cyclic.way_on (h : Cyclic next a) : ∃ b, next a = some b := by
  obtain ⟨n, hn, h⟩ := h
  obtain ⟨n, rfl⟩ := Nat.exists_eq_add_of_le hn
  obtain ⟨b, hb⟩ := walk_before h
  exact ⟨b, (walk_succ rfl).symm.trans hb⟩

/-- From where a walk comes on a cycle it comes back. -/
theorem Cyclic.back (h : Cyclic next a) (k : Leads next a b) : Leads next b a := by
  refine k.closed (P := (Leads next · a)) (.refl a) fun c d hc hd => ?_
  obtain ⟨n, hback⟩ := hc
  cases n with
  | zero =>
    obtain rfl := Option.some.inj hback
    obtain ⟨n, hn, hloop⟩ := h
    obtain ⟨n, rfl⟩ := Nat.exists_eq_add_of_le' hn
    exact ⟨n, by rw [← hloop, Nat.add_comm, walk_add ((walk_succ rfl).trans hd)]⟩
  | succ n => exact ⟨n, by rw [← hback, Nat.add_comm, walk_add ((walk_succ rfl).trans hd)]⟩

theorem Cyclic.of_leads (h : Cyclic next a) (k : Leads next a b) : Cyclic next b := by
  obtain ⟨m, hm⟩ := h.back k
  obtain ⟨n, hn⟩ := k
  obtain ⟨p, hp, hloop⟩ := h
  -- back to the start, once around, and on again
  refine ⟨m + p + n, by omega, ?_⟩
  rw [Nat.add_assoc, walk_add hm, walk_add hloop, hn]

/-- A walk that is over comes to no cycle. -/
theorem Ends.circle (h : Ends next a b) : circle next a = ∅ := by
  refine Set.eq_empty_iff_forall_notMem.mpr fun c hc => ?_
  obtain ⟨d, hd⟩ := (hc.2.of_leads (h.of_leads hc.1).1).way_on
  rw [h.2] at hd
  cases hd

/-- The cycle is what can be come to from any place on it. -/
theorem Cyclic.circle_eq (h : Cyclic next b) (k : Leads next a b) : circle next a = {c | Leads next b c} := by
  refine Set.ext fun c => ⟨fun hc => ?_, fun hc => ⟨k.trans hc, h.of_leads hc⟩⟩
  rcases k.total hc.1 with hon | hback
  · exact hon
  · exact hc.2.back hback

theorem Meet.symm (h : Meet next a b) : Meet next b a := by
  obtain ⟨c, ha, hb⟩ := h
  exact ⟨c, hb, ha⟩

theorem Meet.ends (h : Meet next a b) (k : Ends next a c) : Ends next b c := by
  obtain ⟨d, ha, hb⟩ := h
  have hend := k.of_leads ha
  exact ⟨hb.trans hend.1, hend.2⟩

theorem Meet.circle (h : Meet next a b) : circle next a = circle next b := by
  have hsub {a b : α} (h : Meet next a b) : Orbits.circle next a ⊆ Orbits.circle next b := by
    obtain ⟨d, ha, hb⟩ := h
    intro c hc
    rcases ha.total hc.1 with hon | hback
    · exact ⟨hb.trans hon, hc.2⟩
    · exact ⟨hb.trans (hc.2.back hback), hc.2⟩
  exact (hsub h).antisymm (hsub h.symm)

theorem Within.mono (h : Within next m a) (hle : m ≤ n) : Within next n a := by
  obtain ⟨visited, hcard, hall⟩ := h
  exact ⟨visited, hcard.trans hle, hall⟩

theorem Within.of_leads (h : Within next n a) (k : Leads next a b) : Within next n b := by
  obtain ⟨visited, hcard, hall⟩ := h
  exact ⟨visited, hcard, fun c hc => hall c (k.trans hc)⟩

/-- The places that a walk has come to, none of them twice. -/
structure Trace (next : α → Option α) (a : α) (n : ℕ) (seen : Finset α) (b : α) : Prop where
  here : walk next n a = some b
  mem : ∀ c, c ∈ seen ↔ ∃ i ≤ n, walk next i a = some c
  card : seen.card = n + 1
  apart : ∀ i j, i < j → j ≤ n → walk next i a ≠ walk next j a

namespace Trace
variable {seen : Finset α}

theorem start (a : α) : Trace next a 0 {a} a where
  here := rfl
  mem c := by
    rw [Finset.mem_singleton]
    refine ⟨fun h => ⟨0, le_rfl, congrArg some h.symm⟩, ?_⟩
    rintro ⟨i, hi, h⟩
    obtain rfl := Nat.le_zero.mp hi
    exact (Option.some.inj h).symm
  card := Finset.card_singleton a
  apart i j hij hj := by omega

theorem on [DecidableEq α] (h : Trace next a n seen b) (hc : next b = some c) (hnew : c ∉ seen) :
    Trace next a (n + 1) (insert c seen) c where
  here := (walk_succ h.here).trans hc
  mem d := by
    rw [Finset.mem_insert, h.mem]
    constructor
    · rintro (rfl | ⟨i, hi, hd⟩)
      · exact ⟨n + 1, le_rfl, (walk_succ h.here).trans hc⟩
      · exact ⟨i, hi.trans (Nat.le_succ n), hd⟩
    · rintro ⟨i, hi, hd⟩
      rcases Nat.le_succ_iff.mp hi with hi | rfl
      · exact .inr ⟨i, hi, hd⟩
      · rw [walk_succ h.here, hc] at hd
        exact .inl (Option.some.inj hd).symm
  card := by rw [Finset.card_insert_of_notMem hnew, h.card]
  apart i j hij hj := by
    rcases Nat.le_succ_iff.mp hj with hj | rfl
    · exact h.apart i j hij hj
    · intro heq
      rw [walk_succ h.here, hc] at heq
      exact hnew ((h.mem c).mpr ⟨i, Nat.le_of_lt_succ hij, heq⟩)

/-- All the places are seen where there is no way on, or only to where it was. -/
theorem all (h : Trace next a n seen b) (hstop : ∀ c, next b = some c → c ∈ seen) (k : Leads next a c) :
    c ∈ seen := by
  refine k.closed ((h.mem a).mpr ⟨0, Nat.zero_le n, rfl⟩) fun d e hd he => ?_
  obtain ⟨i, hi, hd⟩ := (h.mem d).mp hd
  rcases Nat.lt_or_eq_of_le hi with hi | rfl
  · exact (h.mem e).mpr ⟨i + 1, hi, (walk_succ hd).trans he⟩
  · obtain rfl := Option.some.inj (hd.symm.trans h.here)
    exact hstop e he

theorem within (h : Trace next a n seen b) (hstop : ∀ c, next b = some c → c ∈ seen) : Within next (n + 1) a :=
  ⟨seen, h.card.le, fun _ => h.all hstop⟩

theorem not_within (h : Trace next a n seen b) : ¬ Within next n a := by
  rintro ⟨visited, hcard, hall⟩
  have hsub : seen ⊆ visited := fun c hc => by
    obtain ⟨i, -, hi⟩ := (h.mem c).mp hc
    exact hall c ⟨i, hi⟩
  have := Finset.card_le_card hsub
  have := h.card
  omega

theorem cyclic (h : Trace next a n seen b) (hc : next b = some c) (hback : c ∈ seen) : Cyclic next c := by
  obtain ⟨i, hi, hwalk⟩ := (h.mem c).mp hback
  obtain ⟨d, rfl⟩ := Nat.exists_eq_add_of_le hi
  refine ⟨d + 1, Nat.succ_pos d, ?_⟩
  rw [← walk_add hwalk, ← Nat.add_assoc, walk_succ h.here, hc]

/-- Around a cycle the first place to come again is the one where the walk began. -/
theorem fresh (h : Trace next a n seen b) (hcyclic : Cyclic next a) (hc : next b = some c) (hne : c ≠ a) :
    c ∉ seen := by
  intro hback
  obtain ⟨i, hi, hwalk⟩ := (h.mem c).mp hback
  have hpos : 0 < i := Nat.pos_of_ne_zero fun h0 => hne (by
    subst h0
    exact (Option.some.inj hwalk).symm)
  -- the walk would go round from there, and leave out where it began
  obtain ⟨j, hij, hj, ha⟩ : ∃ j, i ≤ j ∧ j ≤ n ∧ walk next j a = some a := by
    refine (hcyclic.back ⟨i, hwalk⟩).closed (P := fun d => ∃ j, i ≤ j ∧ j ≤ n ∧ walk next j a = some d)
      ⟨i, le_rfl, hi, hwalk⟩ ?_
    rintro d e ⟨j, hij, hj, hd⟩ he
    rcases Nat.lt_or_eq_of_le hj with hj | rfl
    · exact ⟨j + 1, hij.trans (Nat.le_succ j), hj, (walk_succ hd).trans he⟩
    · obtain rfl := Option.some.inj (hd.symm.trans h.here)
      obtain rfl := Option.some.inj (he.symm.trans hc)
      exact ⟨i, le_rfl, hi, hwalk⟩
  exact h.apart 0 j (hpos.trans_le hij) hj ha.symm

end Trace

end NetCoreNoc.Orbits
