import Mathlib
import NetCoreNoc.Runs
import NetCoreNoc.Correlate.Grouping

/-! The evidence table is exactly the evidence committed: what the pairs of two bags said, wherever
the bags have been folded to since. -/
namespace NetCoreNoc.Correlate

namespace Cross
variable {E : Type} {c : Cross E}

/-- The shared list that one situation holds about another. -/
def ref (c : Cross E) (a b : Nat) : Option Nat := (c.row a).lookup b

private theorem lookup_insert (d : Dict Nat) (o r b : Nat) :
    (d.insert o r).lookup b = if b = o then some r else d.lookup b := by
  split
  · rename_i h
    rw [h, AList.lookup_insert]
  · rename_i h
    exact AList.lookup_insert_ne h

private theorem lookup_erase (d : Dict Nat) (o b : Nat) :
    (d.erase o).lookup b = if b = o then none else d.lookup b := by
  split
  · rename_i h
    rw [h, AList.lookup_erase]
  · rename_i h
    exact AList.lookup_erase_ne h

private theorem row_insert (c : Cross E) (s : Nat) (d : Dict Nat) (a : Nat) :
    ({ c with rows := c.rows.insert s d } : Cross E).row a = if a = s then d else c.row a := by
  unfold row
  split
  · rename_i h
    rw [h, AList.lookup_insert, Option.getD_some]
  · rename_i h
    rw [AList.lookup_insert_ne h]

theorem ref_put (s o r a b : Nat) : (c.put s o r).ref a b = if a = s ∧ b = o then some r else c.ref a b := by
  rw [ref, put, row_insert]
  by_cases h : a = s
  · rw [if_pos h, lookup_insert, ref, h]
    simp
  · simp [h, ref]

theorem ref_pop (s o a b : Nat) : (c.pop s o).ref a b = if a = s ∧ b = o then none else c.ref a b := by
  unfold pop
  by_cases hs : s ∈ c.rows
  · rw [if_pos hs, ref, row_insert]
    by_cases h : a = s
    · rw [if_pos h, lookup_erase, ref, h]
      simp
    · simp [h, ref]
  · rw [if_neg hs]
    split
    · rename_i h
      rw [h.1, ref, row, AList.lookup_eq_none.mpr hs]
      rfl
    · rfl

theorem ref_setdefault (s a b : Nat) : (c.setdefault s).ref a b = c.ref a b := by
  rw [ref, setdefault, row_insert]
  split
  · rename_i h
    rw [h, ref]
  · rfl

theorem ref_popRow (s a b : Nat) : (c.popRow s).ref a b = if a = s then none else c.ref a b := by
  unfold ref row popRow
  split
  · rename_i h
    rw [h, AList.lookup_erase]
    rfl
  · rename_i h
    rw [AList.lookup_erase_ne h]

theorem held_eq [Zero E] (c : Cross E) (a b : Nat) : c.held a b = ((c.ref a b).map c.cells).getD (0, 0) := by
  unfold held ref row
  cases c.rows.lookup a <;> rfl

end Cross

/-- A symmetric table of shared lists: no pair of a bag with itself, one list a pair. -/
structure Shared (ref : Sym2 Nat → Option Nat) (next : Nat) : Prop where
  irrefl : ∀ a, ref s(a, a) = none
  inj : ∀ p q r, ref p = some r → ref q = some r → p = q
  fresh : ∀ p r, ref p = some r → r < next

section Value
variable {E : Type} [AddCommMonoid E] {ref : Sym2 Nat → Option Nat} {cells : Nat → E × Nat}

/-- What the list of a pair adds up to. -/
def value (ref : Sym2 Nat → Option Nat) (cells : Nat → E × Nat) (p : Sym2 Nat) : E × Nat :=
  ((ref p).map cells).getD 0

theorem value_none {p : Sym2 Nat} (h : ref p = none) : value ref cells p = 0 := by rw [value, h]; rfl

theorem value_some {p : Sym2 Nat} {r : Nat} (h : ref p = some r) : value ref cells p = cells r := by
  rw [value, h]
  rfl

theorem value_update (p : Sym2 Nat) (o : Option Nat) :
    value (Function.update ref p o) cells =
      Function.update (value ref cells) p ((o.map cells).getD 0) := by
  funext q
  by_cases h : q = p
  · rw [value, h, Function.update_self, Function.update_self]
  · rw [value, Function.update_of_ne h, Function.update_of_ne h, value]

/-- To write the list of a pair is to write what that pair adds up to. -/
theorem Shared.value_write {n : Nat} (h : Shared ref n) {p : Sym2 Nat} {r : Nat} (hp : ref p = some r)
    (v : E × Nat) :
    value ref (Function.update cells r v) = Function.update (value ref cells) p v := by
  funext q
  by_cases hq : q = p
  · rw [hq, value_some hp, Function.update_self, Function.update_self]
  · rw [Function.update_of_ne hq]
    cases hr : ref q with
    | none => rw [value_none hr, value_none hr]
    | some r' =>
      have hne : r' ≠ r := fun he => hq (h.inj q p r (he ▸ hr) hp)
      rw [value_some hr, value_some hr, Function.update_of_ne hne]

theorem Shared.erase {n : Nat} (h : Shared ref n) (p : Sym2 Nat) :
    Shared (Function.update ref p none) n := by
  have hsub : ∀ q r, Function.update ref p none q = some r → ref q = some r := by
    intro q r hr
    by_cases hq : q = p
    · rw [hq, Function.update_self] at hr
      exact absurd hr (by simp)
    · rwa [Function.update_of_ne hq] at hr
  refine ⟨fun a => ?_, fun q q' r hq hq' => h.inj q q' r (hsub q r hq) (hsub q' r hq'),
    fun q r hr => h.fresh q r (hsub q r hr)⟩
  cases ha : Function.update ref p none s(a, a) with
  | none => rfl
  | some r => rw [← hsub _ r ha, h.irrefl a]

/-- A list that no other pair has is given to a pair. -/
theorem Shared.give {n : Nat} (h : Shared ref n) {a b r : Nat} (hab : a ≠ b) (hr : r < n)
    (hfree : ∀ q, ref q ≠ some r) : Shared (Function.update ref s(a, b) (some r)) n := by
  refine ⟨fun x => ?_, fun q q' r' hq hq' => ?_, fun q r' hq => ?_⟩
  · rw [Function.update_of_ne, h.irrefl]
    rw [ne_eq, Sym2.eq_iff]
    rintro (⟨rfl, rfl⟩ | ⟨rfl, rfl⟩) <;> exact hab rfl
  · by_cases h1 : q = s(a, b) <;> by_cases h2 : q' = s(a, b)
    · rw [h1, h2]
    · rw [h1, Function.update_self] at hq
      rw [Function.update_of_ne h2, ← hq] at hq'
      exact absurd hq' (hfree q')
    · rw [h2, Function.update_self] at hq'
      rw [Function.update_of_ne h1, ← hq'] at hq
      exact absurd hq (hfree q)
    · rw [Function.update_of_ne h1] at hq
      rw [Function.update_of_ne h2] at hq'
      exact h.inj q q' r' hq hq'
  · by_cases h1 : q = s(a, b)
    · rw [h1, Function.update_self] at hq
      exact Option.some.inj hq ▸ hr
    · rw [Function.update_of_ne h1] at hq
      exact h.fresh q r' hq

theorem Shared.mono {n m : Nat} (h : Shared ref n) (hm : n ≤ m) : Shared ref m :=
  ⟨h.irrefl, h.inj, fun p r hr => (h.fresh p r hr).trans_le hm⟩

/-- The dictionaries hold the table, in both directions. -/
def Represents (c : Cross E) (ref : Sym2 Nat → Option Nat) : Prop := ∀ a b, c.ref a b = ref s(a, b)

/-- Inside `_fold`: the source's row is out of the dictionary, and `rest` of it is still to pass. -/
structure Folding (c : Cross E) (dst src : Nat) (rest : List (Σ _ : Nat, Nat))
    (ref : Sym2 Nat → Option Nat) : Prop where
  rows : ∀ a b, a ≠ src → c.ref a b = ref s(a, b)
  out : ∀ b, c.ref src b = none
  detached : ∀ b, rest.dlookup b = ref s(src, b)
  nodup : rest.NodupKeys
  shared : Shared ref c.next
  ne : dst ≠ src

/-- What the pairs of the source add up to passes to those of the destination. -/
structure Passed (dst src : Nat) (v v' : Sym2 Nat → E × Nat) : Prop where
  source : ∀ b, v' s(src, b) = 0
  dest : ∀ b, b ≠ src → b ≠ dst → v' s(dst, b) = v s(dst, b) + v s(src, b)
  other : ∀ a b, a ≠ src → a ≠ dst → b ≠ src → b ≠ dst → v' s(a, b) = v s(a, b)

private theorem pair_ne {a b x y : Nat} (h : ¬ (a = x ∧ b = y)) (h' : ¬ (a = y ∧ b = x)) :
    s(a, b) ≠ s(x, y) := by
  rw [ne_eq, Sym2.eq_iff]
  exact not_or.mpr ⟨h, h'⟩

variable {c : Cross E}

/-- One turn of the loop passes one pair. -/
theorem Folding.turn {dst src o acc : Nat} {rest : List (Σ _ : Nat, Nat)}
    (h : Folding c dst src (⟨o, acc⟩ :: rest) ref) :
    ∃ ref', Folding (c.moveCell dst src o acc) dst src rest ref' ∧
      value ref' (c.moveCell dst src o acc).cells s(src, o) = 0 ∧
      (o ≠ dst → value ref' (c.moveCell dst src o acc).cells s(dst, o) =
        value ref c.cells s(dst, o) + value ref c.cells s(src, o)) ∧
      ∀ p, p ≠ s(src, o) → p ≠ s(dst, o) →
        value ref' (c.moveCell dst src o acc).cells p = value ref c.cells p := by
  have hacc : ref s(src, o) = some acc := by rw [← h.detached, List.dlookup_cons_eq]
  have ho : o ≠ src := fun he => by
    rw [he, h.shared.irrefl] at hacc
    exact absurd hacc (by simp)
  have hkeys := List.nodupKeys_cons.mp h.nodup
  have hrest : ∀ b, rest.dlookup b = Function.update ref s(src, o) none s(src, b) := by
    intro b
    by_cases hb : b = o
    · rw [hb, Function.update_self, List.dlookup_eq_none.mpr hkeys.1]
    · rw [← List.dlookup_cons_ne _ ⟨o, acc⟩ hb, h.detached, Function.update_of_ne]
      exact pair_ne (fun he => hb he.2) fun he => ho he.1.symm
  have hpop : ∀ a b, a ≠ src → (c.pop o src).ref a b = Function.update ref s(src, o) none s(a, b) := by
    intro a b ha
    rw [Cross.ref_pop]
    split
    · rename_i hab
      rw [hab.1, hab.2, Sym2.eq_swap, Function.update_self]
    · rename_i hab
      rw [Function.update_of_ne (pair_ne (fun he => ha he.1) hab), h.rows a b ha]
  have hout : ∀ b, (c.pop o src).ref src b = none := by
    intro b
    rw [Cross.ref_pop, if_neg (fun he => ho he.1.symm), h.out]
  have hshared := h.shared.erase s(src, o)
  by_cases hd : o = dst
  · have hmove : c.moveCell dst src o acc = c.pop o src := if_pos hd
    rw [hmove]
    refine ⟨_, ⟨hpop, hout, hrest, hkeys.2, hshared, h.ne⟩, ?_, fun hne => absurd hd hne, fun p hp _ => ?_⟩
    · rw [value_none (Function.update_self ..)]
    · rw [value_update, Function.update_of_ne hp]
      rfl
  · have hsd : s(dst, o) ≠ s(src, o) := pair_ne (fun he => h.ne he.1) fun he => ho he.2
    cases hheld : ref s(dst, o) with
    | none =>
      have hmove : c.moveCell dst src o acc = ((c.pop o src).put dst o acc).put o dst acc := by
        have : (c.pop o src).ref dst o = none := by
          rw [hpop dst o h.ne, Function.update_of_ne hsd, hheld]
        simp only [Cross.moveCell, if_neg hd, show ((c.pop o src).row dst).lookup o = none from this]
      have hfree : ∀ q, Function.update ref s(src, o) none q ≠ some acc := by
        intro q hq
        by_cases hqe : q = s(src, o)
        · rw [hqe, Function.update_self] at hq
          exact absurd hq (by simp)
        · rw [Function.update_of_ne hqe] at hq
          exact hqe (h.shared.inj q _ acc hq hacc)
      have hput : ∀ a b, a ≠ src → (c.moveCell dst src o acc).ref a b =
          Function.update (Function.update ref s(src, o) none) s(dst, o) (some acc) s(a, b) := by
        intro a b ha
        rw [hmove, Cross.ref_put, Cross.ref_put, hpop a b ha]
        by_cases h1 : a = o ∧ b = dst
        · rw [if_pos h1, h1.1, h1.2, Sym2.eq_swap (a := o) (b := dst), Function.update_self]
        · rw [if_neg h1]
          by_cases h2 : a = dst ∧ b = o
          · rw [if_pos h2, h2.1, h2.2, Function.update_self]
          · rw [if_neg h2, Function.update_of_ne (pair_ne h2 h1)]
      refine ⟨_, ⟨hput, fun b => ?_, fun b => ?_, hkeys.2, ?_, h.ne⟩, ?_, fun _ => ?_, fun p hp hp' => ?_⟩
      · rw [hmove, Cross.ref_put, Cross.ref_put, if_neg fun he => ho he.1.symm,
          if_neg fun he => h.ne he.1.symm, hout]
      · rw [hrest, Function.update_of_ne (pair_ne (fun he => h.ne he.1.symm) fun he => ho he.1.symm)]
      · rw [hmove]
        exact hshared.give (Ne.symm hd) (h.shared.fresh _ _ hacc) hfree
      · rw [value_none]
        rw [Function.update_of_ne hsd.symm, Function.update_self]
      · rw [value_some (Function.update_self ..), value_none hheld, value_some hacc, zero_add, hmove]
        rfl
      · rw [value_update, Function.update_of_ne hp', value_update, Function.update_of_ne hp, hmove]
        rfl
    | some held =>
      have hheld' : Function.update ref s(src, o) none s(dst, o) = some held := by
        rw [Function.update_of_ne hsd, hheld]
      have hmove : c.moveCell dst src o acc = (c.pop o src).add held (c.cells acc) := by
        have : (c.pop o src).ref dst o = some held := (hpop dst o h.ne).trans hheld'
        simp only [Cross.moveCell, if_neg hd, show ((c.pop o src).row dst).lookup o = some held from this]
        rfl
      rw [hmove]
      have hvalue : value (Function.update ref s(src, o) none) ((c.pop o src).add held (c.cells acc)).cells =
          Function.update (Function.update (value ref c.cells) s(src, o) 0) s(dst, o)
            (c.cells held + c.cells acc) := by
        rw [show ((c.pop o src).add held (c.cells acc)).cells =
          Function.update c.cells held (c.cells held + c.cells acc) from rfl, hshared.value_write hheld',
          value_update]
        rfl
      refine ⟨_, ⟨hpop, hout, hrest, hkeys.2, hshared, h.ne⟩, ?_, fun _ => ?_, fun p hp hp' => ?_⟩
      · rw [value_none (Function.update_self ..)]
      · rw [hvalue, Function.update_self, value_some hheld, value_some hacc]
      · rw [hvalue, Function.update_of_ne hp', Function.update_of_ne hp]

/-- The loop passes every pair that is left. -/
theorem Folding.loop {dst src : Nat} {rest : List (Σ _ : Nat, Nat)}
    (h : Folding c dst src rest ref) :
    let c' := rest.foldl (fun c e => c.moveCell dst src e.1 e.2) c
    ∃ ref', Folding c' dst src [] ref' ∧ Passed dst src (value ref c.cells) (value ref' c'.cells) := by
  induction rest generalizing c ref with
  | nil =>
    have hnone : ∀ b, ref s(src, b) = none := fun b => (h.detached b).symm
    refine ⟨ref, h, fun b => value_none (hnone b), fun b _ _ => ?_, fun _ _ _ _ _ _ => rfl⟩
    rw [List.foldl_nil, value_none (hnone b), add_zero]
  | cons e rest ih =>
    obtain ⟨o, acc⟩ := e
    obtain ⟨ref₁, h₁, hsrc, hdst, hother⟩ := h.turn
    obtain ⟨ref₂, h₂, hp⟩ := ih h₁
    have ho : o ≠ src := fun he => by
      have := h.detached src
      rw [← he, List.dlookup_cons_eq, he, h.shared.irrefl] at this
      exact absurd this (by simp)
    refine ⟨ref₂, h₂, hp.source, fun b hb hb' => ?_, fun a b ha ha' hb hb' => ?_⟩
    · rw [List.foldl_cons, hp.dest b hb hb']
      by_cases hbo : b = o
      · rw [hbo, hdst (hbo ▸ hb'), hsrc, add_zero]
      · rw [hother, hother]
        · exact pair_ne (fun he => hbo he.2) fun he => ho he.1.symm
        · exact pair_ne (fun he => h.ne he.1.symm) fun he => hb' he.2
        · exact pair_ne (fun he => h.ne he.1) fun he => hb he.2
        · exact pair_ne (fun he => hbo he.2) fun he => hb' he.2
    · rw [List.foldl_cons, hp.other a b ha ha' hb hb', hother]
      · exact pair_ne (fun he => ha he.1) fun he => hb he.2
      · exact pair_ne (fun he => ha' he.1) fun he => hb' he.2

/-- A table that is represented, whose lists are its own. -/
structure Sound (c : Cross E) (ref : Sym2 Nat → Option Nat) : Prop where
  represents : Represents c ref
  shared : Shared ref c.next

/-- `_fold` of another bag passes all of what its pairs add up to. -/
theorem Sound.fold (h : Sound c ref) {dst src : Nat} (hne : dst ≠ src) :
    ∃ ref', Sound (c.fold dst src) ref' ∧
      Passed dst src (value ref c.cells) (value ref' (c.fold dst src).cells) := by
  have hstart : Folding ((c.popRow src).setdefault dst) dst src (c.row src).entries ref := by
    refine ⟨fun a b ha => ?_, fun b => ?_, h.represents src, (c.row src).nodupKeys, h.shared, hne⟩
    · rw [Cross.ref_setdefault, Cross.ref_popRow, if_neg ha, h.represents]
    · rw [Cross.ref_setdefault, Cross.ref_popRow, if_pos rfl]
  obtain ⟨ref', hend, hp⟩ := hstart.loop
  refine ⟨ref', ⟨fun a b => ?_, hend.shared⟩, hp⟩
  have hnone : ∀ b, ref' s(src, b) = none := fun b => (hend.detached b).symm
  rw [Cross.fold, Cross.ref_pop]
  split
  · rename_i hab
    rw [hab.1, hab.2, Sym2.eq_swap, hnone]
  · by_cases ha : a = src
    · rw [ha, hnone, hend.out]
    · rw [hend.rows a b ha]

/-- `_fold` of a bag into itself puts every list back where it was. -/
theorem Sound.fold_self (h : Sound c ref) (bag : Nat) :
    Sound (c.fold bag bag) ref ∧ (c.fold bag bag).cells = c.cells := by
  have hloop : ∀ (rest : List (Σ _ : Nat, Nat)) (c' : Cross E), rest.NodupKeys →
      (∀ b acc, rest.dlookup b = some acc → ref s(bag, b) = some acc) →
      (∀ a b, a ≠ bag → c'.ref a b = ref s(a, b)) →
      (∀ b, c'.ref bag b = if b ∈ rest.keys then none else ref s(bag, b)) →
      (∀ a b, (rest.foldl (fun c e => c.moveCell bag bag e.1 e.2) c').ref a b = ref s(a, b)) ∧
        (rest.foldl (fun c e => c.moveCell bag bag e.1 e.2) c').cells = c'.cells ∧
        (rest.foldl (fun c e => c.moveCell bag bag e.1 e.2) c').next = c'.next := by
    intro rest
    induction rest with
    | nil =>
      intro c' _ _ hrows hbag
      refine ⟨fun a b => ?_, rfl, rfl⟩
      by_cases ha : a = bag
      · rw [ha, List.foldl_nil, hbag, if_neg (by simp)]
      · exact hrows a b ha
    | cons e rest ih =>
      obtain ⟨o, acc⟩ := e
      intro c' hnd hsub hrows hbag
      have hacc : ref s(bag, o) = some acc := hsub o acc (List.dlookup_cons_eq ..)
      have ho : o ≠ bag := fun he => by
        rw [he, h.shared.irrefl] at hacc
        exact absurd hacc (by simp)
      have hkeys := List.nodupKeys_cons.mp hnd
      have hmove : c'.moveCell bag bag o acc = ((c'.pop o bag).put bag o acc).put o bag acc := by
        have : (c'.pop o bag).ref bag o = none := by
          rw [Cross.ref_pop, if_neg fun he => ho he.1.symm, hbag, if_pos (by simp)]
        simp only [Cross.moveCell, if_neg ho, show ((c'.pop o bag).row bag).lookup o = none from this]
      have href : ∀ a b, (c'.moveCell bag bag o acc).ref a b =
          if a = o ∧ b = bag ∨ a = bag ∧ b = o then some acc else c'.ref a b := by
        intro a b
        rw [hmove, Cross.ref_put, Cross.ref_put, Cross.ref_pop]
        by_cases h1 : a = o ∧ b = bag <;> by_cases h2 : a = bag ∧ b = o <;> simp [h1, h2]
      have hsub' : ∀ b acc', rest.dlookup b = some acc' → ref s(bag, b) = some acc' := by
        intro b acc' hb
        have hbo : b ≠ o := fun he => by
          rw [he, List.dlookup_eq_none.mpr hkeys.1] at hb
          exact absurd hb (by simp)
        exact hsub b acc' ((List.dlookup_cons_ne _ ⟨o, acc⟩ hbo).trans hb)
      have hrows' : ∀ a b, a ≠ bag → (c'.moveCell bag bag o acc).ref a b = ref s(a, b) := by
        intro a b ha
        rw [href]
        split
        · rename_i hab
          rcases hab with hab | hab
          · rw [hab.1, hab.2, Sym2.eq_swap, hacc]
          · exact absurd hab.1 ha
        · exact hrows a b ha
      have hbag' : ∀ b, (c'.moveCell bag bag o acc).ref bag b =
          if b ∈ rest.keys then none else ref s(bag, b) := by
        intro b
        rw [href, hbag]
        by_cases hb : b = o
        · rw [if_pos (.inr ⟨rfl, hb⟩), hb, if_neg hkeys.1, hacc]
        · rw [if_neg (by rintro (he | he); exacts [ho he.1.symm, hb he.2])]
          simp [hb]
      obtain ⟨h1, h2, h3⟩ := ih (c'.moveCell bag bag o acc) hkeys.2 hsub' hrows' hbag'
      exact ⟨h1, h2.trans (by rw [hmove]; rfl), h3.trans (by rw [hmove]; rfl)⟩
  obtain ⟨h1, h2, h3⟩ := hloop (c.row bag).entries ((c.popRow bag).setdefault bag) (c.row bag).nodupKeys
    (fun b acc hb => by rw [← h.represents]; exact hb)
    (fun a b ha => by rw [Cross.ref_setdefault, Cross.ref_popRow, if_neg ha, h.represents])
    fun b => by
      rw [Cross.ref_setdefault, Cross.ref_popRow, if_pos rfl]
      split
      · rfl
      · rename_i hb
        rw [← h.represents]
        exact (AList.lookup_eq_none.mpr hb).symm
  refine ⟨⟨fun a b => ?_, h3.symm ▸ h.shared⟩, h2⟩
  rw [Cross.fold, Cross.ref_pop]
  split
  · rename_i hab
    rw [hab.1, hab.2, h.shared.irrefl]
  · exact h1 a b

/-- A pair's evidence is added to its list, old or new. -/
theorem Sound.addEvidence (h : Sound c ref) {sid other : Nat} (hne : other ≠ sid) (e : E) :
    ∃ ref', Sound (c.addEvidence sid other e) ref' ∧
      value ref' (c.addEvidence sid other e).cells =
        Function.update (value ref c.cells) s(sid, other) (value ref c.cells s(sid, other) + (e, 1)) := by
  cases hr : ref s(sid, other) with
  | some acc =>
    have hlook : (c.row sid).lookup other = some acc := (h.represents sid other).trans hr
    have hadd : c.addEvidence sid other e = (c.add acc (e, 1)).put other sid acc := by
      simp only [Cross.addEvidence, hlook]
    refine ⟨ref, ⟨fun a b => ?_, by rw [hadd]; exact h.shared⟩, ?_⟩
    · rw [hadd, Cross.ref_put]
      split
      · rename_i hab
        rw [hab.1, hab.2, Sym2.eq_swap, hr]
      · exact h.represents a b
    · rw [value_some hr, ← h.shared.value_write hr, hadd]
      rfl
  | none =>
    have hlook : (c.row sid).lookup other = none := (h.represents sid other).trans hr
    have hfree : ∀ q, ref q ≠ some c.next := fun q hq => lt_irrefl _ (h.shared.fresh q _ hq)
    have hshared : Shared (Function.update ref s(sid, other) (some c.next)) (c.next + 1) :=
      (h.shared.mono (Nat.le_succ _)).give hne.symm (Nat.lt_succ_self _) hfree
    refine ⟨Function.update ref s(sid, other) (some c.next), ⟨fun a b => ?_, ?_⟩, ?_⟩
    · simp only [Cross.addEvidence, hlook]
      rw [Cross.ref_put, show ∀ (d : Cross E) (r : Nat) (v : E × Nat) (a b : Nat),
        (d.add r v).ref a b = d.ref a b from fun _ _ _ _ _ => rfl, Cross.ref_put]
      by_cases h1 : a = other ∧ b = sid
      · rw [if_pos h1, h1.1, h1.2, Sym2.eq_swap (a := other) (b := sid), Function.update_self]
      · rw [if_neg h1]
        by_cases h2 : a = sid ∧ b = other
        · rw [if_pos h2, h2.1, h2.2, Function.update_self]
        · rw [if_neg h2, Function.update_of_ne (pair_ne h2 h1)]
          exact h.represents a b
    · simp only [Cross.addEvidence, hlook]
      exact hshared
    · have hcells : (c.addEvidence sid other e).cells =
          Function.update (Function.update c.cells c.next 0) c.next (0 + (e, 1)) := by
        simp only [Cross.addEvidence, hlook, Cross.put, Cross.add, Function.update_self]
        rfl
      funext q
      by_cases hq : q = s(sid, other)
      · rw [hq, Function.update_self, value_some (Function.update_self ..), value_none hr, hcells,
          Function.update_self]
      · rw [Function.update_of_ne hq, value, Function.update_of_ne hq, hcells]
        cases hrq : ref q with
        | none => rw [value_none hrq]; rfl
        | some r =>
          have hrn : r ≠ c.next := fun he => hfree q (he ▸ hrq)
          rw [value_some hrq, Option.map_some, Option.getD_some, Function.update_of_ne hrn,
            Function.update_of_ne hrn]

omit [AddCommMonoid E] in
private theorem pops (sid : Nat) (keys : List Nat) (c : Cross E) :
    let c' := keys.foldl (fun c other => c.pop other sid) c
    c'.cells = c.cells ∧ c'.next = c.next ∧
      ∀ a b, c'.ref a b = if b = sid ∧ a ∈ keys then none else c.ref a b := by
  induction keys generalizing c with
  | nil => exact ⟨rfl, rfl, fun a b => by simp⟩
  | cons k keys ih =>
    obtain ⟨h1, h2, h3⟩ := ih (c.pop k sid)
    refine ⟨h1, h2, fun a b => ?_⟩
    rw [List.foldl_cons, h3, Cross.ref_pop]
    by_cases hb : b = sid <;> by_cases ha : a = k <;> by_cases hk : a ∈ keys <;> simp [hb, ha, hk]

/-- A bag that is forgotten takes its pairs with it. -/
theorem Sound.forget (h : Sound c ref) (sid : Nat) :
    ∃ ref', Sound (c.forget sid) ref' ∧
      ∀ p, value ref' (c.forget sid).cells p = if sid ∈ p then 0 else value ref c.cells p := by
  obtain ⟨h1, h2, h3⟩ := pops sid (c.row sid).keys (c.popRow sid)
  have hnone : ∀ p r, (if sid ∈ p then none else ref p) = some r → ref p = some r := by
    intro p r hp
    split at hp
    · exact absurd hp (by simp)
    · exact hp
  refine ⟨fun p => if sid ∈ p then none else ref p, ⟨fun a b => ?_, ?_⟩, fun p => ?_⟩
  · rw [Cross.forget, h3, Cross.ref_popRow]
    by_cases ha : a = sid
    · simp [ha]
    · by_cases hb : b = sid
      · by_cases hk : a ∈ (c.row sid).keys
        · simp [hb, hk]
        · have : ref s(a, sid) = none := by
            rw [Sym2.eq_swap, ← h.represents]
            exact AList.lookup_eq_none.mpr hk
          simp [hb, hk, h.represents a sid, this]
      · simp [ha, hb, Ne.symm ha, Ne.symm hb, h.represents a b]
  · rw [Cross.forget, h2]
    refine ⟨fun a => ?_, fun p q r hp hq => h.shared.inj p q r (hnone p r hp) (hnone q r hq),
      fun p r hp => h.shared.fresh p r (hnone p r hp)⟩
    simp only [h.shared.irrefl, ite_self]
  · rw [value, Cross.forget, h1]
    split
    · rfl
    · rfl

private theorem Sound.forgets (sids : List Nat) (h : Sound c ref) :
    let c' := sids.foldl (fun c sid => c.forget sid) c
    ∃ ref', Sound c' ref' ∧
      ∀ p, value ref' c'.cells p = if ∃ sid ∈ sids, sid ∈ p then 0 else value ref c.cells p := by
  induction sids generalizing c ref with
  | nil => exact ⟨ref, h, fun p => by simp⟩
  | cons sid sids ih =>
    obtain ⟨ref₁, h₁, hv₁⟩ := h.forget sid
    obtain ⟨ref₂, h₂, hv₂⟩ := ih h₁
    refine ⟨ref₂, h₂, fun p => ?_⟩
    rw [List.foldl_cons, hv₂, hv₁]
    by_cases h1 : sid ∈ p <;> by_cases h2 : ∃ s ∈ sids, s ∈ p <;> simp [h1, h2]

/-- What is left of a pruned table is between live bags. -/
theorem Sound.prune (h : Sound c ref) (live : Nat → Bool) :
    ∃ ref', Sound (c.prune live) ref' ∧
      ∀ a b, value ref' (c.prune live).cells s(a, b) =
        if live a && live b then value ref c.cells s(a, b) else 0 := by
  obtain ⟨ref', h', hv⟩ := h.forgets (c.rows.keys.filter fun s => !live s)
  have hkey : ∀ a b, a ∉ c.rows.keys → ref s(a, b) = none := by
    intro a b ha
    rw [← h.represents, Cross.ref, Cross.row, AList.lookup_eq_none.mpr ha]
    rfl
  refine ⟨ref', h', fun a b => (hv _).trans ?_⟩
  by_cases ha : live a = true <;> by_cases hb : live b = true
  · rw [if_neg, ha, hb]
    · rfl
    · rintro ⟨s, hs, hm⟩
      rcases Sym2.mem_iff.mp hm with rfl | rfl <;> simp_all
  · by_cases hk : b ∈ c.rows.keys
    · rw [if_pos ⟨b, by simp [hk, hb], Sym2.mem_mk_right a b⟩]
      simp [hb]
    · rw [value_none (Sym2.eq_swap ▸ hkey b a hk)]
      simp
  all_goals
    by_cases hk : a ∈ c.rows.keys
    · rw [if_pos ⟨a, by simp [hk, ha], Sym2.mem_mk_left a b⟩]
      simp [ha]
    · rw [value_none (hkey a b hk)]
      simp

end Value

/-- What a bag says of another: between which bags, and the evidence of one pair. -/
abbrev Item (E : Type) := Nat × Nat × E

section Accounts
variable {E : Type} [AddCommMonoid E]

/-- The sum and the count of the evidence between two bags. -/
def total (items : List (Item E)) (a b : Nat) : E × Nat :=
  ((items.filter fun i => s(i.1, i.2.1) = s(a, b)).map fun i => (i.2.2, 1)).sum

/-- The items, once each bag has gone where `heir` says: to another bag, or nowhere. -/
def carry (heir : Nat → Option Nat) (items : List (Item E)) : List (Item E) :=
  items.filterMap fun i => (heir i.1).bind fun a => (heir i.2.1).map fun b => (a, b, i.2.2)

theorem total_cons (i : Item E) (items : List (Item E)) (a b : Nat) :
    total (i :: items) a b = (if s(i.1, i.2.1) = s(a, b) then (i.2.2, 1) else 0) + total items a b := by
  unfold total
  by_cases h : s(i.1, i.2.1) = s(a, b)
  · rw [List.filter_cons_of_pos (by simpa using h), if_pos h, List.map_cons, List.sum_cons]
  · rw [List.filter_cons_of_neg (by simpa using h), if_neg h, zero_add]

theorem total_append (l₁ l₂ : List (Item E)) (a b : Nat) :
    total (l₁ ++ l₂) a b = total l₁ a b + total l₂ a b := by
  unfold total
  rw [List.filter_append, List.map_append, List.sum_append]

omit [AddCommMonoid E] in
@[simp] theorem carry_nil (f : Nat → Option Nat) : carry f ([] : List (Item E)) = [] := rfl

omit [AddCommMonoid E] in
theorem carry_cons (f : Nat → Option Nat) (i : Item E) (items : List (Item E)) :
    carry f (i :: items) =
      ((f i.1).bind fun a => (f i.2.1).map fun b => (a, b, i.2.2)).toList ++ carry f items := by
  unfold carry
  rw [List.filterMap_cons]
  cases (f i.1).bind fun a => (f i.2.1).map fun b => (a, b, i.2.2) <;> rfl

omit [AddCommMonoid E] in
theorem carry_some (items : List (Item E)) : carry some items = items := List.filterMap_some

omit [AddCommMonoid E] in
theorem carry_append (f : Nat → Option Nat) (l₁ l₂ : List (Item E)) :
    carry f (l₁ ++ l₂) = carry f l₁ ++ carry f l₂ := List.filterMap_append

omit [AddCommMonoid E] in
theorem carry_carry (f g : Nat → Option Nat) (items : List (Item E)) :
    carry g (carry f items) = carry (fun x => (f x).bind g) items := by
  unfold carry
  rw [List.filterMap_filterMap]
  congr 1
  funext i
  cases hx : f i.1 <;> cases hy : f i.2.1 <;> simp [hx, hy]

/-- A bag that is folded leaves everything to the bag it is folded into. -/
def folded (dst src x : Nat) : Option Nat := some (if x = src then dst else x)

/-- The bags that are not kept leave nothing. -/
def kept (live : Nat → Bool) (x : Nat) : Option Nat := if live x then some x else none

/-- The evidence that is carried is counted item by item. -/
private theorem total_carry {f : Nat → Option Nat} {a b : Nat} (w : Item E → E × Nat)
    (h : ∀ i : Item E, total ((f i.1).bind fun a => (f i.2.1).map fun b => (a, b, i.2.2)).toList a b = w i)
    (items : List (Item E)) : total (carry f items) a b = (items.map w).sum := by
  induction items with
  | nil => rfl
  | cons i items ih => rw [carry_cons, total_append, h, ih, List.map_cons, List.sum_cons]

private theorem total_eq_sum (items : List (Item E)) (a b : Nat) :
    total items a b = (items.map fun i => if s(i.1, i.2.1) = s(a, b) then (i.2.2, 1) else 0).sum := by
  induction items with
  | nil => rfl
  | cons i items ih => rw [total_cons, ih, List.map_cons, List.sum_cons]

private theorem total_single (x y : Nat) (e : E) (a b : Nat) :
    total [(x, y, e)] a b = if s(x, y) = s(a, b) then (e, 1) else 0 := by
  rw [total_cons]
  exact add_zero _

theorem total_comm (items : List (Item E)) (a b : Nat) : total items a b = total items b a := by
  rw [total_eq_sum, total_eq_sum, Sym2.eq_swap]

theorem total_folded {dst src : Nat} (hne : dst ≠ src) (items : List (Item E)) :
    (∀ b, total (carry (folded dst src) items) src b = 0) ∧
    (∀ b, b ≠ src → b ≠ dst → total (carry (folded dst src) items) dst b =
      total items dst b + total items src b) ∧
    ∀ a b, a ≠ src → a ≠ dst → b ≠ src → b ≠ dst →
      total (carry (folded dst src) items) a b = total items a b := by
  refine ⟨fun b => ?_, fun b hb hb' => ?_, fun a b ha ha' hb hb' => ?_⟩
  · rw [total_carry (fun _ => 0) (fun i => ?_), List.map_const', List.sum_replicate, smul_zero]
    refine (total_single ..).trans (if_neg ?_)
    rw [Sym2.eq_iff]
    grind
  · rw [total_eq_sum items dst, total_eq_sum items src, ← List.sum_map_add]
    apply total_carry
    intro i
    refine (total_single ..).trans ?_
    by_cases h1 : s(i.1, i.2.1) = s(dst, b) <;> by_cases h2 : s(i.1, i.2.1) = s(src, b) <;>
      simp only [Sym2.eq_iff] at h1 h2 ⊢ <;> grind
  · rw [total_eq_sum items a]
    apply total_carry
    intro i
    refine (total_single ..).trans ?_
    simp only [Sym2.eq_iff]
    grind

theorem total_kept (live : Nat → Bool) (items : List (Item E)) (a b : Nat) :
    total (carry (kept live) items) a b = if live a && live b then total items a b else 0 := by
  have hitem : ∀ i : Item E,
      total ((kept live i.1).bind fun a => (kept live i.2.1).map fun b => (a, b, i.2.2)).toList a b =
        if live a && live b then (if s(i.1, i.2.1) = s(a, b) then (i.2.2, 1) else 0) else 0 := by
    intro i
    by_cases h : live i.1 = true ∧ live i.2.1 = true
    · simp only [kept, h.1, h.2, if_true, Option.bind_some, Option.map_some, Option.toList_some,
        total_single, Sym2.eq_iff]
      grind
    · have hnone : ((kept live i.1).bind fun a => (kept live i.2.1).map fun b => (a, b, i.2.2)) = none := by
        unfold kept
        split <;> split <;> simp_all
      rw [hnone]
      simp only [Sym2.eq_iff]
      change 0 = _
      grind
  rw [total_carry _ hitem, total_eq_sum]
  split
  · rfl
  · rw [List.map_const', List.sum_replicate, smul_zero]

/-- The table accounts for the items: between two bags it holds their sum and their count. -/
def Accounts (c : Cross E) (items : List (Item E)) : Prop :=
  ∃ ref, Sound c ref ∧ ∀ a b, a ≠ b → value ref c.cells s(a, b) = total items a b

variable {c : Cross E} {items : List (Item E)}

theorem Accounts.held (h : Accounts c items) {a b : Nat} (hab : a ≠ b) : c.held a b = total items a b := by
  obtain ⟨ref, hs, hv⟩ := h
  rw [Cross.held_eq, hs.represents, ← hv a b hab]
  rfl

theorem Accounts.fold (h : Accounts c items) (dst src : Nat) :
    Accounts (c.fold dst src) (carry (folded dst src) items) := by
  obtain ⟨ref, hs, hv⟩ := h
  by_cases hne : dst = src
  · obtain ⟨hs', hc⟩ := hs.fold_self src
    have hid : folded src src = some := by
      funext x
      unfold folded
      split <;> simp_all
    rw [hne, hid, carry_some]
    exact ⟨ref, hs', hc ▸ hv⟩
  · obtain ⟨ref', hs', hp⟩ := hs.fold hne
    obtain ⟨h1, h2, h3⟩ := total_folded hne items
    have hdst : ∀ b, b ≠ src → b ≠ dst → value ref' (c.fold dst src).cells s(dst, b) =
        total (carry (folded dst src) items) dst b := by
      intro b hb hb'
      rw [hp.dest b hb hb', h2 b hb hb', hv dst b (Ne.symm hb'), hv src b (Ne.symm hb)]
    refine ⟨ref', hs', fun a b hab => ?_⟩
    by_cases ha : a = src
    · rw [ha, hp.source, h1]
    · by_cases hb : b = src
      · rw [hb, Sym2.eq_swap, hp.source, total_comm, h1]
      · by_cases ha' : a = dst
        · subst ha'
          exact hdst b hb (Ne.symm hab)
        · by_cases hb' : b = dst
          · subst hb'
            rw [Sym2.eq_swap, total_comm]
            exact hdst a ha ha'
          · rw [hp.other a b ha ha' hb hb', h3 a b ha ha' hb hb', hv a b hab]

theorem Accounts.folds (sid : Nat) (merge : List Nat) (h : Accounts c items) :
    Accounts (merge.foldl (fun c gone => c.fold sid gone) c)
      (carry (fun x => some (if x ∈ merge then sid else x)) items) := by
  induction merge generalizing c items with
  | nil => exact (carry_some items).symm ▸ h
  | cons gone merge ih =>
    have hheir : (fun x => (folded sid gone x).bind fun x => some (if x ∈ merge then sid else x)) =
        fun x => some (if x ∈ gone :: merge then sid else x) := by
      funext x
      by_cases hx : x = gone <;> simp [folded, hx]
    have hstep := ih (h.fold sid gone)
    rwa [carry_carry, hheir] at hstep

theorem Accounts.forget (h : Accounts c items) (sid : Nat) :
    Accounts (c.forget sid) (carry (kept fun x => x ≠ sid) items) := by
  obtain ⟨ref, hs, hv⟩ := h
  obtain ⟨ref', hs', hv'⟩ := hs.forget sid
  refine ⟨ref', hs', fun a b hab => ?_⟩
  rw [hv', total_kept, hv a b hab]
  simp only [Sym2.mem_iff, Bool.and_eq_true, decide_eq_true_eq]
  grind

theorem Accounts.prune (h : Accounts c items) (live : Nat → Bool) :
    Accounts (c.prune live) (carry (kept live) items) := by
  obtain ⟨ref, hs, hv⟩ := h
  obtain ⟨ref', hs', hv'⟩ := hs.prune live
  refine ⟨ref', hs', fun a b hab => ?_⟩
  rw [hv', total_kept, hv a b hab]

theorem Accounts.addEvidence (h : Accounts c items) {sid other : Nat} (hne : other ≠ sid) (e : E) :
    Accounts (c.addEvidence sid other e) (items ++ [(sid, other, e)]) := by
  obtain ⟨ref, hs, hv⟩ := h
  obtain ⟨ref', hs', hv'⟩ := hs.addEvidence hne e
  refine ⟨ref', hs', fun a b hab => ?_⟩
  rw [hv', total_append, total_single]
  by_cases hp : s(a, b) = s(sid, other)
  · rw [hp, Function.update_self, if_pos rfl, ← hp, hv a b hab]
  · rw [Function.update_of_ne hp, if_neg (Ne.symm hp), add_zero, hv a b hab]

theorem Accounts.setdefault (h : Accounts c items) (sid : Nat) : Accounts (c.setdefault sid) items := by
  obtain ⟨ref, hs, hv⟩ := h
  exact ⟨ref, ⟨fun a b => (Cross.ref_setdefault sid a b).trans (hs.represents a b), hs.shared⟩, hv⟩

theorem Accounts.adds {sid : Nat} {pairs : List (Nat × E)} (hne : ∀ p ∈ pairs, p.1 ≠ sid)
    (h : Accounts c items) : Accounts (pairs.foldl (fun c p => c.addEvidence sid p.1 p.2) c)
      (items ++ pairs.map fun p => (sid, p.1, p.2)) := by
  induction pairs generalizing c items with
  | nil => simpa using h
  | cons p pairs ih =>
    have hstep := ih (fun q hq => hne q (List.mem_cons_of_mem _ hq))
      (h.addEvidence (hne p List.mem_cons_self) p.2)
    rwa [List.append_assoc] at hstep

end Accounts

/-- What is done to the evidence. -/
inductive GrouperOp (E : Type) where
  | commit (sid : Nat) (merge : List Nat) (scored : List (Scored E)) (sit_of : Nat → Option Nat)
  | merged (dst src : Nat)
  | forget (sid : Nat)
  | prune (live : Nat → Bool)

def Grouper.step {E : Type} [Zero E] [Add E] (g : Grouper E) : GrouperOp E → Grouper E
  | .commit sid merge scored sit_of => g.commit sid merge scored sit_of
  | .merged dst src => g.merged dst src
  | .forget sid => g.forget sid
  | .prune live => g.prune live

namespace GrouperOp
variable {E : Type}

/-- The bag that an operation leaves a bag's evidence to. -/
def heir : GrouperOp E → Nat → Option Nat
  | .commit sid merge _ _, x => some (if x ∈ merge then sid else x)
  | .merged dst src, x => some (if x = src then dst else x)
  | .forget sid, x => if x = sid then none else some x
  | .prune live, x => if live x then some x else none

/-- The evidence that an operation commits. -/
def items : GrouperOp E → List (Item E)
  | .commit sid _ scored sit_of => scored.filterMap fun p =>
      ((sit_of p.alarm_id).filter (· ≠ sid)).map fun other => (sid, other, p.evidence)
  | _ => []

/-- The bag that holds a bag's evidence after some operations. -/
def heirs : List (GrouperOp E) → Nat → Option Nat
  | [], x => some x
  | op :: ops, x => (op.heir x).bind (heirs ops)

/-- All the evidence ever committed, between the bags that hold it in the end. -/
def evidence : List (GrouperOp E) → List (Item E)
  | [] => []
  | op :: ops => carry (heirs ops) op.items ++ evidence ops

theorem items_commit (sid : Nat) (merge : List Nat) (scored : List (Scored E)) (sit_of : Nat → Option Nat) :
    (commit sid merge scored sit_of).items = (across sid scored sit_of).map fun p => (sid, p.1, p.2) := by
  rw [items, across, List.map_filterMap]
  refine List.filterMap_congr fun p _ => ?_
  cases sit_of p.alarm_id with
  | none => rfl
  | some other => by_cases h : other = sid <;> simp [Option.filter, h]

theorem heirs_append (ops : List (GrouperOp E)) (op : GrouperOp E) :
    heirs (ops ++ [op]) = fun x => (heirs ops x).bind op.heir := by
  induction ops with
  | nil =>
    funext x
    change (op.heir x).bind some = op.heir x
    cases op.heir x <;> rfl
  | cons o ops ih =>
    funext x
    rw [List.cons_append, heirs, heirs, ih, Option.bind_assoc]

theorem evidence_append (ops : List (GrouperOp E)) (op : GrouperOp E) :
    evidence (ops ++ [op]) = carry op.heir (evidence ops) ++ op.items := by
  induction ops with
  | nil => exact (List.append_nil _).trans (carry_some _)
  | cons o ops ih =>
    rw [List.cons_append, evidence, evidence, ih, heirs_append, carry_append, carry_carry,
      List.append_assoc]

end GrouperOp

section Run
variable {E : Type} [AddCommMonoid E]

/-- What one operation on the evidence does to the account of it. -/
theorem accounts_step {g : Grouper E} {items : List (Item E)} (hm : g.mode = .cluster)
    (h : Accounts g.cross items) (op : GrouperOp E) :
    (g.step op).mode = .cluster ∧ Accounts (g.step op).cross (carry op.heir items ++ op.items) := by
  cases op with
  | commit sid merge scored sit_of =>
    have hne : ∀ p ∈ across sid scored sit_of, p.1 ≠ sid := by
      intro p hp
      obtain ⟨q, -, hq⟩ := List.mem_filterMap.mp hp
      split at hq
      · split at hq
        · exact absurd hq (by simp)
        · rename_i hne
          exact Option.some.inj hq ▸ hne
      · exact absurd hq (by simp)
    have hadds := ((h.folds sid merge).setdefault sid).adds hne
    rw [GrouperOp.items_commit]
    simp only [Grouper.step, Grouper.commit, hm]
    exact ⟨trivial, hadds⟩
  | merged dst src => exact ⟨hm, (List.append_nil _).symm ▸ h.fold dst src⟩
  | forget sid =>
    refine ⟨hm, ?_⟩
    have hheir : (GrouperOp.forget sid : GrouperOp E).heir = kept fun x => x ≠ sid := by
      funext x
      by_cases hx : x = sid <;> simp [GrouperOp.heir, kept, hx]
    exact hheir ▸ (List.append_nil _).symm ▸ h.forget sid
  | prune live => exact ⟨hm, (List.append_nil _).symm ▸ h.prune live⟩

theorem run_accounts (params : GroupingParams E) (ops : List (GrouperOp E)) :
    (Runs.run Grouper.step ⟨.cluster, params, .empty⟩ ops).mode = .cluster ∧
      Accounts (Runs.run Grouper.step ⟨.cluster, params, .empty⟩ ops).cross (GrouperOp.evidence ops) := by
  induction ops using List.reverseRecOn with
  | nil =>
    refine ⟨rfl, fun _ => none, ⟨fun _ _ => rfl, fun _ => rfl, ?_, ?_⟩, fun _ _ _ => rfl⟩
    · intro p q r hp
      exact absurd hp (by simp)
    · intro p r hp
      exact absurd hp (by simp)
  | append_singleton ops op ih =>
    rw [Runs.run_append, GrouperOp.evidence_append]
    exact accounts_step ih.1 ih.2 op

/-- After any operations on the evidence, what a bag holds about another is one list for both, none
about itself, and the sum and the count of all that was committed between the bags since folded into
the two, forgotten bags left out. -/
theorem cross_accounted (params : GroupingParams E) (ops : List (GrouperOp E)) :
    let cross := (Runs.run Grouper.step ⟨.cluster, params, .empty⟩ ops).cross
    (∀ a b, cross.ref a b = cross.ref b a) ∧ (∀ a, cross.ref a a = none) ∧
      ∀ a b, a ≠ b → cross.held a b = total (GrouperOp.evidence ops) a b := by
  obtain ⟨-, ref, hs, -⟩ := run_accounts params ops
  refine ⟨fun a b => ?_, fun a => ?_, fun a b hab => (run_accounts params ops).2.held hab⟩
  · rw [hs.represents, hs.represents, Sym2.eq_swap]
  · rw [hs.represents, hs.shared.irrefl]

end Run

/-- Two pairs between 1 and 2, one between 3 and 2 of an alarm and one of none, and then 1 goes into 3. -/
def settled : List (GrouperOp ℤ) :=
  let sit_of := fun alarm_id => if alarm_id < 10 then some 2 else none
  [.commit 1 [] [⟨7, 3, true⟩, ⟨8, -1, false⟩] sit_of, .commit 3 [] [⟨9, 4, true⟩, ⟨12, 9, true⟩] sit_of, .merged 3 1]

theorem cross_accounted_settled :
    (Runs.run Grouper.step ⟨.cluster, ⟨0, 1, 3⟩, .empty⟩ settled).cross.held 2 3 = (6, 3) ∧
      (Runs.run Grouper.step ⟨.cluster, ⟨0, 1, 3⟩, .empty⟩ settled).cross.held 2 1 = 0 := by
  obtain ⟨-, -, hheld⟩ := cross_accounted (⟨0, 1, 3⟩ : GroupingParams ℤ) settled
  exact ⟨(hheld 2 3 (by decide)).trans (by decide), (hheld 2 1 (by decide)).trans (by decide)⟩
end NetCoreNoc.Correlate
