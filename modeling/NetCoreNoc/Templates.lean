import Mathlib

/-! Texts with placeholders: replacing a token by a text, and the texts that its tokens fill whole. -/
namespace NetCoreNoc.Templates

variable {α : Type} [DecidableEq α] {old new s : List α}

/-- `replace`, once the first characters are skipped: an occurrence inside one that was replaced is none. -/
def replaceFrom (old new : List α) : ℕ → List α → List α
  | _, [] => []
  | n + 1, _ :: s => replaceFrom old new n s
  | 0, c :: s =>
    if old <+: c :: s then new ++ replaceFrom old new (old.length - 1) s else c :: replaceFrom old new 0 s

/-- Every occurrence of a token, from the left, as another text. The token is not empty. -/
def replace (old new s : List α) : List α := replaceFrom old new 0 s

private theorem replaceFrom_eq (n : ℕ) : replaceFrom old new n s = replace old new (s.drop n) := by
  induction n generalizing s with
  | zero => rfl
  | succ n ih =>
    cases s with
    | nil => rfl
    | cons c s => exact ih

theorem replace_cons {c : α} (h : ¬ old <+: c :: s) : replace old new (c :: s) = c :: replace old new s := by
  rw [replace, replaceFrom, if_neg h]
  rfl

theorem replace_token {c : α} (w : List α) : replace (c :: w) new (c :: w ++ s) = new ++ replace (c :: w) new s := by
  have hprefix : c :: w <+: c :: (w ++ s) := List.prefix_append (c :: w) s
  rw [List.cons_append, replace, replaceFrom, if_pos hprefix, replaceFrom_eq]
  simp

/-- A text without the first character of the token stays. -/
theorem replace_append {c : α} {w a : List α} (h : c ∉ a) :
    replace (c :: w) new (a ++ s) = a ++ replace (c :: w) new s := by
  induction a with
  | nil => rfl
  | cons d a ih =>
    obtain ⟨hd, ha⟩ := not_or.mp (List.mem_cons.not.mp h)
    rw [List.cons_append, replace_cons fun hp => hd (List.cons_prefix_cons.mp hp).1, ih ha, List.cons_append]

theorem replace_absent (h : ¬ old <:+: s) : replace old new s = s := by
  induction s with
  | nil => rfl
  | cons c s ih =>
    rw [replace_cons fun hp => h hp.isInfix, ih fun hs => h (hs.trans (List.suffix_cons c s).isInfix)]

/-- By the length: a replacement drops a token at once. -/
private theorem replace_cases (hold : old ≠ []) {P : List α → List α → Prop} (hnil : P [] [])
    (hkept : ∀ c s, ¬ old <+: c :: s → P s (replace old new s) → P (c :: s) (c :: replace old new s))
    (htoken : ∀ s, P s (replace old new s) → P (old ++ s) (new ++ replace old new s)) (s : List α) :
    P s (replace old new s) := by
  induction hlen : s.length using Nat.strong_induction_on generalizing s with
  | _ n ih =>
    cases s with
    | nil => exact hnil
    | cons c s =>
      by_cases h : old <+: c :: s
      · obtain ⟨r, hr⟩ := h
        obtain ⟨d, w, rfl⟩ := List.exists_cons_of_ne_nil hold
        rw [← hr, replace_token]
        refine htoken r (ih r.length ?_ r rfl)
        rw [← hlen, ← hr, List.length_append, List.length_cons]
        omega
      · rw [replace_cons h]
        exact hkept c s h (ih s.length (by rw [← hlen, List.length_cons]; omega) s rfl)

theorem mem_of_replace {c : α} (hold : old ≠ []) (h : c ∈ s) : c ∈ replace old new s ∨ c ∈ old := by
  refine replace_cases (P := fun s r => c ∈ s → c ∈ r ∨ c ∈ old) hold nofun (fun d s _ ih h => ?_)
    (fun s ih h => ?_) s h
  · rcases List.mem_cons.mp h with rfl | h
    · exact .inl List.mem_cons_self
    · exact (ih h).imp_left (List.mem_cons_of_mem d)
  · rcases List.mem_append.mp h with h | h
    · exact .inr h
    · exact (ih h).imp_left (List.mem_append_right new)

/-- What stands at the start of the result without a character of the replacement stood there before. -/
theorem prefix_of_replace {x : α} {w : List α} (hold : old ≠ []) (hx : x ∉ w) (h : w <+: replace old [x] s) :
    w <+: s := by
  induction w generalizing s with
  | nil => exact List.nil_prefix
  | cons d w ih =>
    obtain ⟨hd, hw⟩ := not_or.mp (List.mem_cons.not.mp hx)
    cases s with
    | nil => exact h
    | cons c s =>
      by_cases hp : old <+: c :: s
      · obtain ⟨r, hr⟩ := hp
        obtain ⟨o, u, rfl⟩ := List.exists_cons_of_ne_nil hold
        rw [← hr, replace_token] at h
        exact absurd (List.cons_prefix_cons.mp h).1.symm hd
      · rw [replace_cons hp] at h
        obtain ⟨rfl, hrest⟩ := List.cons_prefix_cons.mp h
        exact List.cons_prefix_cons.mpr ⟨rfl, ih hw hrest⟩

/-- A text of tokens and of characters that mark none. -/
inductive Filled (Mark : α → Prop) (first second : List α) : List α → Prop
  | nil : Filled Mark first second []
  | char {c : α} {s : List α} : ¬ Mark c → Filled Mark first second s → Filled Mark first second (c :: s)
  | first {s : List α} : Filled Mark first second s → Filled Mark first second (first ++ s)
  | second {s : List α} : Filled Mark first second s → Filled Mark first second (second ++ s)

section
variable {Mark : α → Prop} {o p q : α} {u v : List α} (ho : Mark o) (hpq : p ≠ q) (hv : o ∉ q :: v)
include hpq hv

/-- The second token is none of the first. -/
private theorem replace_other (a : List α) :
    replace (o :: p :: u) a (o :: q :: v ++ s) = o :: q :: v ++ replace (o :: p :: u) a s := by
  have hkept : ¬ o :: p :: u <+: o :: (q :: v ++ s) := fun h =>
    hpq (List.cons_prefix_cons.mp (List.cons_prefix_cons.mp h).2).1
  rw [List.cons_append, replace_cons hkept, replace_append hv]
  rfl

include ho

/-- A text that two plain replacements leave without a mark is filled whole by its tokens. -/
theorem filled_of_replaced {x : α} (hmark : ¬ Mark x) (hx : x ∉ q :: v)
    (h : ∀ c ∈ replace (o :: q :: v) [x] (replace (o :: p :: u) [x] s), ¬ Mark c) :
    Filled Mark (o :: p :: u) (o :: q :: v) s := by
  induction hlen : s.length using Nat.strong_induction_on generalizing s with
  | _ n ih =>
    cases s with
    | nil => exact .nil
    | cons c s =>
      rw [List.length_cons] at hlen
      by_cases hfirst : o :: p :: u <+: c :: s
      · obtain ⟨r, hr⟩ := hfirst
        have hshort : r.length < n := by
          have := congrArg List.length hr
          simp only [List.length_append, List.length_cons] at this
          omega
        rw [← hr, replace_token] at h
        rw [← hr]
        refine .first (ih r.length hshort (fun d hd => h d ?_) rfl)
        have hox : o ∉ [x] := fun hmem => hmark ((List.mem_singleton.mp hmem) ▸ ho)
        rw [replace_append hox]
        exact List.mem_append_right _ hd
      · rw [replace_cons hfirst] at h
        by_cases hsecond : o :: q :: v <+: c :: replace (o :: p :: u) [x] s
        · obtain ⟨rfl, hrest⟩ := List.cons_prefix_cons.mp hsecond
          obtain ⟨r, rfl⟩ := prefix_of_replace (List.cons_ne_nil _ _) hx hrest
          have hother := replace_other (u := u) (s := r) hpq hv [x]
          rw [List.cons_append, replace_cons hfirst] at hother
          rw [hother, replace_token] at h
          rw [List.length_append, List.length_cons] at hlen
          exact .second (ih r.length (by omega) (fun d hd => h d (List.mem_append_right _ hd)) rfl)
        · rw [replace_cons hsecond] at h
          exact .char (h c List.mem_cons_self)
            (ih s.length (by omega) (fun d hd => h d (List.mem_cons_of_mem _ hd)) rfl)

/-- Plain values in the tokens' places leave no mark. -/
theorem Filled.replaced {a b : List α} (h : Filled Mark (o :: p :: u) (o :: q :: v) s) (ha : ∀ c ∈ a, ¬ Mark c)
    (hb : ∀ c ∈ b, ¬ Mark c) : ∀ c ∈ replace (o :: q :: v) b (replace (o :: p :: u) a s), ¬ Mark c := by
  induction h with
  | nil => nofun
  | @char c s hc _ ih =>
    have hne {w r : List α} : ¬ o :: w <+: c :: r := fun hp => hc ((List.cons_prefix_cons.mp hp).1 ▸ ho)
    rw [replace_cons hne, replace_cons hne]
    exact List.forall_mem_cons.mpr ⟨hc, ih⟩
  | first _ ih =>
    rw [replace_token, replace_append fun hmem => ha o hmem ho]
    exact List.forall_mem_append.mpr ⟨ha, ih⟩
  | second _ ih =>
    rw [replace_other hpq hv, replace_token]
    exact List.forall_mem_append.mpr ⟨hb, ih⟩

omit hpq hv in
/-- A plain value makes no second token. -/
theorem Filled.second_of_replaced {a : List α} (h : Filled Mark (o :: p :: u) (o :: q :: v) s) (ha : ∀ c ∈ a, ¬ Mark c)
    (hin : o :: q :: v <:+: replace (o :: p :: u) a s) : o :: q :: v <:+: s := by
  have hskip {w r : List α} (hw : ∀ c ∈ w, ¬ Mark c) (hr : o :: q :: v <:+: w ++ r) : o :: q :: v <:+: r := by
    induction w with
    | nil => exact hr
    | cons c w ih =>
      obtain ⟨hc, hw⟩ := List.forall_mem_cons.mp hw
      refine ih hw ((List.infix_cons_iff.mp hr).resolve_left fun hp => ?_)
      exact hc ((List.cons_prefix_cons.mp hp).1 ▸ ho)
  induction h with
  | nil => exact hin
  | @char c s hc _ ih =>
    have hne : ¬ o :: p :: u <+: c :: s := fun hp => hc ((List.cons_prefix_cons.mp hp).1 ▸ ho)
    rw [replace_cons hne] at hin
    exact (ih (hskip (List.forall_mem_singleton.mpr hc) hin)).trans (List.suffix_cons c s).isInfix
  | first _ ih =>
    rw [replace_token] at hin
    exact (ih (hskip ha hin)).trans (List.suffix_append _ _).isInfix
  | second => exact (List.prefix_append _ _).isInfix

/-- Where all is of a kind that no value is of, there was no token. -/
theorem Filled.of_replaced_all {a b x y : List α} {P : α → Prop} (h : Filled Mark (o :: p :: u) (o :: q :: v) s)
    (ha : ∀ c ∈ a, ¬ Mark c) (ha' : ∃ c ∈ a, ¬ P c) (hb : ∃ c ∈ b, ¬ P c)
    (hall : ∀ c ∈ replace (o :: q :: v) b (replace (o :: p :: u) a s), P c) :
    ∀ c ∈ replace (o :: q :: v) y (replace (o :: p :: u) x s), P c := by
  induction h with
  | nil => nofun
  | @char c s hc _ ih =>
    have hne {w r : List α} : ¬ o :: w <+: c :: r := fun hp => hc ((List.cons_prefix_cons.mp hp).1 ▸ ho)
    rw [replace_cons hne, replace_cons hne] at hall ⊢
    obtain ⟨hP, hall⟩ := List.forall_mem_cons.mp hall
    exact List.forall_mem_cons.mpr ⟨hP, ih hall⟩
  | first =>
    obtain ⟨c, hc, hnot⟩ := ha'
    rw [replace_token, replace_append fun hmem => ha o hmem ho] at hall
    exact absurd (hall c (List.mem_append_left _ hc)) hnot
  | second =>
    obtain ⟨c, hc, hnot⟩ := hb
    rw [replace_other hpq hv, replace_token] at hall
    exact absurd (hall c (List.mem_append_left _ hc)) hnot

end

end NetCoreNoc.Templates
