import Mathlib
import NetCoreNoc.Json.RoundTrip

/-! Integers that were read are within the limit of digits. -/
namespace NetCoreNoc.Json

theorem chars_lt {s : Str} (h : ∀ c ∈ s, isDigit c) (n : ℕ) :
    Nat.ofDigitChars 10 (s.map fun c => Char.ofNat c.val) n < (n + 1) * 10 ^ s.length := by
  induction s generalizing n with
  | nil => simp
  | cons c s ih =>
    obtain ⟨hc, hs⟩ := List.forall_mem_cons.mp h
    simp only [isDigit, decide_eq_true_eq] at hc
    have hchar : (Char.ofNat c.val).toNat = c.val := by
      rw [Char.toNat_ofNat, if_pos (Or.inl (by omega))]
    have hzero : '0'.toNat = 48 := rfl
    rw [List.map_cons, Nat.ofDigitChars_cons, hchar, hzero, List.length_cons, Nat.pow_succ']
    have hstep := ih hs (10 * n + (c.val - 48))
    have hle : 10 * n + (c.val - 48) + 1 ≤ (n + 1) * 10 := by omega
    have hmul := Nat.mul_le_mul_right (10 ^ s.length) hle
    rw [Nat.mul_assoc] at hmul
    omega

theorem digits_toNat {s : Str} (h : ∀ c ∈ s, isDigit c) (hne : s ≠ []) : (natText (toNat s)).length ≤ s.length := by
  rw [natText, List.length_map, Nat.length_toDigits_le_iff (by decide) (List.length_pos_iff.mpr hne)]
  have hlt := chars_lt h 0
  rw [Nat.zero_add, Nat.one_mul] at hlt
  exact hlt

theorem whole_digits {s w q : Str} (h : scanWhole s = some (w, q)) : w ≠ [] ∧ ∀ c ∈ w, isDigit c := by
  cases s with
  | nil => simp [scanWhole] at h
  | cons c s =>
    simp only [scanWhole] at h
    split_ifs at h with hz hd
    · obtain ⟨rfl, -⟩ := Prod.mk.inj (Option.some.inj h)
      refine ⟨List.cons_ne_nil _ _, fun d hd => ?_⟩
      rw [List.mem_singleton.mp hd, hz]
      decide
    · obtain ⟨rfl, -⟩ := Prod.mk.inj (Option.some.inj h)
      exact ⟨List.cons_ne_nil _ _, List.forall_mem_cons.mpr ⟨hd, fun d hd => List.mem_takeWhile_imp hd⟩⟩

/-- An integer has no more digits than its literal. -/
theorem digits_toInt {s w f q : Str} (h : scanNumber s = some ((w, f), q)) :
    digitCount (toInt w) ≤ (w.filter isDigit).length := by
  obtain ⟨⟨whole, r⟩, hw, heq⟩ := Option.map_eq_some_iff.mp h
  simp only [Prod.mk.injEq] at heq
  obtain ⟨⟨rfl, -⟩, -⟩ := heq
  obtain ⟨hne, hall⟩ := whole_digits hw
  have hfilter : whole.filter isDigit = whole := List.filter_eq_self.mpr hall
  have hsign : (scanSign s).1 = [] ∨ (scanSign s).1 = [chr '-'] := by
    cases s with
    | nil => exact .inl rfl
    | cons c s =>
      simp only [scanSign]
      split_ifs with hc
      · exact .inr (by rw [hc])
      · exact .inl rfl
  rcases hsign with hs | hs
  · rw [hs, List.nil_append, hfilter]
    obtain ⟨c, l, rfl⟩ := List.exists_cons_of_ne_nil hne
    have hc : c ≠ chr '-' := by
      rintro rfl
      exact absurd (hall _ List.mem_cons_self) (by decide)
    rw [toInt, if_neg hc]
    exact digits_toNat hall hne
  · rw [hs, List.singleton_append, List.filter_cons_of_neg (by decide), hfilter, toInt, if_pos rfl, digitCount,
      Int.natAbs_neg]
    exact digits_toNat hall hne

variable {F : Type} {limit : ℕ}

theorem fitsEntries_iff {l : List (Str × Doc F)} : FitsEntries limit l ↔ ∀ e ∈ l, Fits limit e.2 := by
  induction l with
  | nil => exact iff_of_true trivial nofun
  | cons e l ih => rw [FitsEntries, ih, List.forall_mem_cons]

theorem fitsEntries_dict {l : List (Str × Doc F)} (h : FitsEntries limit l) : FitsEntries limit (dict l) := by
  have hput {d : List (Str × Doc F)} {e : Str × Doc F} (hd : ∀ e ∈ d, Fits limit e.2) (he : Fits limit e.2) :
      ∀ x ∈ put d e.1 e.2, Fits limit x.2 := by
    intro x hx
    unfold put at hx
    split at hx
    · obtain ⟨y, hy, rfl⟩ := List.mem_map.mp hx
      split
      · exact he
      · exact hd y hy
    · rcases List.mem_append.mp hx with hx | hx
      · exact hd x hx
      · exact List.mem_singleton.mp hx ▸ he
  have hfold (d r : List (Str × Doc F)) (hd : ∀ e ∈ d, Fits limit e.2) (hr : ∀ e ∈ r, Fits limit e.2) :
      ∀ e ∈ r.foldl (fun d e => put d e.1 e.2) d, Fits limit e.2 := by
    induction r generalizing d with
    | nil => exact hd
    | cons e r ih =>
      obtain ⟨he, hr⟩ := List.forall_mem_cons.mp hr
      exact ih _ (hput hd he) hr
  exact fitsEntries_iff.mpr (hfold [] l nofun (fitsEntries_iff.mp h))

variable [PyFloat F]

theorem fits_number {s r : Str} {j : Doc F} (h : number limit s = some (j, r)) : Fits limit j := by
  unfold number at h
  split at h
  · cases h
  · next w q hs =>
    split_ifs at h with hlimit
    obtain ⟨rfl, -⟩ := Prod.mk.inj (Option.some.inj h)
    exact hlimit.imp_right ((digits_toInt hs).trans ·)
  · obtain ⟨rfl, -⟩ := Prod.mk.inj (Option.some.inj h)
    trivial

theorem fits_constant {s r : Str} {j : Doc F} (h : constant s = some (j, r)) : Fits limit j := by
  obtain ⟨e, he, hr⟩ := List.exists_of_findSome?_eq_some h
  obtain ⟨q, -, heq⟩ := Option.map_eq_some_iff.mp hr
  obtain ⟨rfl, -⟩ := Prod.mk.inj heq
  simp only [constants, List.mem_cons, List.not_mem_nil, or_false] at he
  rcases he with rfl | rfl | rfl | rfl | rfl | rfl <;> trivial

/-- What is read is within the limit, whatever the fuel. -/
theorem fits_read (n : ℕ) : (∀ (s r : Str) (j : Doc F), value limit n s = some (j, r) → Fits limit j) ∧
    (∀ (s r : Str) (l : List (Doc F)), items limit n s = some (l, r) → FitsAll limit l) ∧
    ∀ (s r : Str) (l : List (Str × Doc F)), entries limit n s = some (l, r) → FitsEntries limit l := by
  induction n with
  | zero => exact ⟨nofun, nofun, nofun⟩
  | succ n ih =>
    obtain ⟨hvalue, hitems, hentries⟩ := ih
    refine ⟨fun s r j h => ?_, fun s r l h => ?_, fun s r l h => ?_⟩
    · cases s with
      | nil => cases h
      | cons c s =>
        rw [value] at h
        split_ifs at h with hq hb hb' hc hc'
        · obtain ⟨p, -, heq⟩ := Option.map_eq_some_iff.mp h
          obtain ⟨rfl, -⟩ := Prod.mk.inj heq
          trivial
        · obtain ⟨rfl, -⟩ := Prod.mk.inj (Option.some.inj h)
          trivial
        · split at h
          · cases h
          · next i q hi =>
            obtain ⟨p, hp, heq⟩ := Option.map_eq_some_iff.mp h
            obtain ⟨rfl, -⟩ := Prod.mk.inj heq
            exact ⟨hvalue _ _ _ hi, hitems _ _ _ hp⟩
        · obtain ⟨rfl, -⟩ := Prod.mk.inj (Option.some.inj h)
          trivial
        · split at h
          · cases h
          · split at h
            · cases h
            · next i q hi =>
              obtain ⟨p, hp, heq⟩ := Option.map_eq_some_iff.mp h
              obtain ⟨rfl, -⟩ := Prod.mk.inj heq
              exact fitsEntries_dict ⟨hvalue _ _ _ hi, hentries _ _ _ hp⟩
        · split at h
          · next e he => exact fits_constant (Option.some.inj h ▸ he)
          · exact fits_number h
    · cases s with
      | nil => cases h
      | cons c s =>
        rw [items] at h
        split_ifs at h
        · obtain ⟨rfl, -⟩ := Prod.mk.inj (Option.some.inj h)
          trivial
        · split at h
          · cases h
          · next i q hi =>
            obtain ⟨p, hp, heq⟩ := Option.map_eq_some_iff.mp h
            obtain ⟨rfl, -⟩ := Prod.mk.inj heq
            exact ⟨hvalue _ _ _ hi, hitems _ _ _ hp⟩
    · cases s with
      | nil => cases h
      | cons c s =>
        rw [entries] at h
        split_ifs at h
        · obtain ⟨rfl, -⟩ := Prod.mk.inj (Option.some.inj h)
          trivial
        · split at h
          · cases h
          · split at h
            · cases h
            · next i q hi =>
              obtain ⟨p, hp, heq⟩ := Option.map_eq_some_iff.mp h
              obtain ⟨rfl, -⟩ := Prod.mk.inj heq
              exact ⟨hvalue _ _ _ hi, hentries _ _ _ hp⟩

theorem fits_loads {s : Str} {j : Doc F} (h : loads s = some j) : Fits MAX_STR_DIGITS j := by
  unfold loads at h
  split_ifs at h
  split at h
  · cases h
  · next i r hi =>
    split_ifs at h
    exact Option.some.inj h ▸ (fits_read _).1 _ _ _ hi

end NetCoreNoc.Json
