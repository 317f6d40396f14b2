import Mathlib

/-! Checks that raise: what a row of them establishes, and which errors it may raise. -/
namespace NetCoreNoc.Checks

variable {ε α β : Type}

def ensure (p : Prop) [Decidable p] (e : ε) : Except ε Unit := if p then .ok () else .error e

/-- A function that may raise, over a list from its front. -/
def each (f : α → Except ε β) : List α → Except ε (List β)
  | [] => .ok []
  | a :: l => do
    let b ← f a
    let r ← each f l
    .ok (b :: r)

@[simp] theorem ensure_ok {p : Prop} [Decidable p] {e : ε} {u : Unit} : ensure p e = .ok u ↔ p := by
  unfold ensure
  split <;> simp [*]

theorem ok_bind (a : α) (f : α → Except ε β) : (Except.ok a : Except ε α) >>= f = f a := rfl

@[simp] theorem bind_ok {x : Except ε α} {f : α → Except ε β} {b : β} :
    x >>= f = .ok b ↔ ∃ a, x = .ok a ∧ f a = .ok b := by
  cases x with
  | ok a => exact ⟨fun h => ⟨a, rfl, h⟩, fun ⟨_, h, h'⟩ => Except.ok.inj h ▸ h'⟩
  | error e => exact ⟨nofun, fun ⟨_, h, _⟩ => nomatch h⟩

theorem each_ok {f : α → Except ε β} {l : List α} {r : List β} :
    each f l = .ok r ↔ List.Forall₂ (fun a b => f a = .ok b) l r := by
  induction l generalizing r with
  | nil => simp [each, eq_comm]
  | cons a l ih =>
    simp only [each, bind_ok, ih, List.forall₂_cons_left_iff]
    constructor
    · rintro ⟨b, hb, s, hs, hr⟩
      exact ⟨b, s, hb, hs, (Except.ok.inj hr).symm⟩
    · rintro ⟨b, s, hb, hs, rfl⟩
      exact ⟨b, hb, s, hs, rfl⟩

theorem of_mem_right {R : α → β → Prop} {l : List α} {r : List β} (h : List.Forall₂ R l r) {b : β} (hb : b ∈ r) :
    ∃ a ∈ l, R a b := by
  induction h with
  | nil => cases hb
  | @cons a c l r hac _ ih =>
    rcases List.mem_cons.mp hb with rfl | hb
    · exact ⟨a, List.mem_cons_self, hac⟩
    · obtain ⟨d, hd, hdb⟩ := ih hb
      exact ⟨d, List.mem_cons_of_mem _ hd, hdb⟩

/-- What every item of a list passed. -/
theorem each_mem {f : α → Except ε β} {l : List α} {r : List β} (h : each f l = .ok r) {a : α} (ha : a ∈ l) :
    ∃ b ∈ r, f a = .ok b := by
  induction l generalizing r with
  | nil => cases ha
  | cons c l ih =>
    obtain ⟨b, s, hb, hs, rfl⟩ := List.forall₂_cons_left_iff.mp (each_ok.mp h)
    rcases List.mem_cons.mp ha with rfl | ha
    · exact ⟨b, List.mem_cons_self, hb⟩
    · obtain ⟨b, hmem, hb⟩ := ih (each_ok.mpr hs) ha
      exact ⟨b, List.mem_cons_of_mem _ hmem, hb⟩

/-- Whatever it raises is such an error. -/
def Only (P : ε → Prop) (x : Except ε α) : Prop := ∀ e, x = .error e → P e

variable {P : ε → Prop}

theorem only_ok {a : α} : Only P (.ok a) := nofun

theorem only_error {e : ε} (h : P e) : Only P (.error e : Except ε α) := fun _ heq => Except.error.inj heq ▸ h

theorem only_ensure {p : Prop} [Decidable p] {e : ε} (h : P e) : Only P (ensure p e) := by
  unfold ensure
  split
  · exact only_ok
  · exact only_error h

theorem Only.bind {x : Except ε α} {f : α → Except ε β} (hx : Only P x) (hf : ∀ a, x = .ok a → Only P (f a)) :
    Only P (x >>= f) := by
  cases x with
  | ok a => exact hf a rfl
  | error e => exact fun _ heq => Except.error.inj heq ▸ hx e rfl

theorem Only.each {f : α → Except ε β} {l : List α} (h : ∀ a ∈ l, Only P (f a)) : Only P (each f l) := by
  induction l with
  | nil => exact only_ok
  | cons a l ih =>
    obtain ⟨ha, hl⟩ := List.forall_mem_cons.mp h
    exact ha.bind fun b _ => (ih hl).bind fun r _ => only_ok

end NetCoreNoc.Checks
