import Mathlib
import NetCoreNoc.Maintenance.Table

/-! What the check of a trap means (`engine/mw/index.py`, `engine/mw/rules.py`): which windows cover it, what their
rules let through, and that no order of windows or rules matters to either. -/
namespace NetCoreNoc.Maintenance

/-! Subtrees -/

def arcs (oid : String) : List (List Char) := oid.toList.splitOn '.'

private theorem intercalate_append {α : Type} (sep : List α) {xs ys : List (List α)} (hxs : xs ≠ []) (hys : ys ≠ []) :
    sep.intercalate (xs ++ ys) = sep.intercalate xs ++ sep ++ sep.intercalate ys := by
  induction xs with
  | nil => exact absurd rfl hxs
  | cons x xs ih =>
    by_cases hrest : xs = []
    · subst hrest
      rw [List.singleton_append, List.intercalate_cons_of_ne_nil hys, List.intercalate_singleton, List.append_assoc]
    · have happend : xs ++ ys ≠ [] := List.append_ne_nil_of_left_ne_nil hrest ys
      rw [List.cons_append, List.intercalate_cons_of_ne_nil happend, List.intercalate_cons_of_ne_nil hrest, ih hrest]
      simp only [List.append_assoc]

private theorem splitOn_prefix_iff {α : Type} [BEq α] [LawfulBEq α] (a : α) (r l : List α) :
    r.splitOn a <+: l.splitOn a ↔ l = r ∨ r ++ [a] <+: l := by
  constructor
  · rintro ⟨rest, hrest⟩
    have hl : [a].intercalate (r.splitOn a ++ rest) = l := by rw [hrest, List.intercalate_splitOn]
    rw [← hl]
    by_cases h : rest = []
    · exact .inl (by rw [h, List.append_nil, List.intercalate_splitOn])
    · rw [intercalate_append [a] (List.splitOn_ne_nil a r) h, List.intercalate_splitOn]
      exact .inr (List.prefix_append ..)
  · rintro (rfl | ⟨t, rfl⟩)
    · exact List.prefix_rfl
    · rw [List.append_assoc, List.singleton_append, List.splitOn_append_cons_self]
      exact List.prefix_append ..

/-- A subtree is of whole arcs. -/
theorem under_subtree_iff (oid root : String) : under_subtree oid root ↔ arcs root <+: arcs oid := by
  rw [arcs, arcs, splitOn_prefix_iff, under_subtree, Bool.or_eq_true, beq_iff_eq, String.startsWith_string_iff,
    String.toList_append, String.toList_inj]
  rfl

/-! Rules -/

inductive RuleKind where
  | severity
  | oid
  | slot
  deriving DecidableEq, Repr

namespace Rule

def kind : Rule → RuleKind
  | .severity _ => .severity
  | .oid _ _ => .oid
  | .slot _ _ => .slot

/-- What a rule lets through. -/
def Lets (t : Trap) : Rule → Prop
  | .severity rank => ∃ placed ∈ t.severity_rank, placed ≤ rank
  | .oid root .trap => arcs root <+: arcs t.trap_oid
  | .oid root .varbind => ∃ oid ∈ t.varbind_oids, arcs root <+: arcs oid
  | .slot starts_at ends_at => t.ts ∈ Set.Ico starts_at ends_at

theorem admits_iff (r : Rule) (t : Trap) : r.admits t ↔ r.Lets t := by
  rcases r with rank | ⟨root, _ | _⟩ | ⟨starts_at, ends_at⟩
  · simp [admits, Lets, Option.any_eq_true]
  · exact under_subtree_iff ..
  · simp [admits, Lets, under_subtree_iff]
  · simp [admits, Lets]

end Rule

namespace TargetRules
variable (rules : TargetRules) (t : Trap)

def of : RuleKind → List Rule
  | .severity => rules.severity
  | .oid => rules.oid
  | .slot => rules.slot

/-- There are rules, and of each kind that has some, one lets the trap through. -/
structure Lets : Prop where
  ruled : ∃ k, rules.of k ≠ []
  each : ∀ k, rules.of k ≠ [] → ∃ r ∈ rules.of k, r.Lets t

theorem admits_iff : rules.admits t ↔ rules.Lets t := by
  have hkind (k : RuleKind) :
      ((rules.of k).isEmpty || (rules.of k).any (·.admits t)) ↔ (rules.of k ≠ [] → ∃ r ∈ rules.of k, r.Lets t) := by
    simp only [Bool.or_eq_true, List.isEmpty_iff, List.any_eq_true, Rule.admits_iff, or_iff_not_imp_left, ne_eq]
  have hempty : (rules.severity.isEmpty && rules.oid.isEmpty && rules.slot.isEmpty) ↔ ∀ k, rules.of k = [] := by
    simp only [Bool.and_eq_true, List.isEmpty_iff]
    constructor
    · rintro ⟨⟨hseverity, hoid⟩, hslot⟩ (_ | _ | _)
      · exact hseverity
      · exact hoid
      · exact hslot
    · exact fun h => ⟨⟨h .severity, h .oid⟩, h .slot⟩
  unfold admits
  split
  · next h =>
    refine iff_of_false Bool.false_ne_true fun hlets => ?_
    obtain ⟨k, hk⟩ := hlets.ruled
    exact hk (hempty.mp h k)
  · next h =>
    have hruled : ∃ k, rules.of k ≠ [] := by simpa using mt hempty.mpr h
    rw [Bool.and_eq_true, Bool.and_eq_true]
    constructor
    · rintro ⟨⟨hslot, hseverity⟩, hoid⟩
      refine ⟨hruled, ?_⟩
      rintro (_ | _ | _)
      · exact (hkind .severity).mp hseverity
      · exact (hkind .oid).mp hoid
      · exact (hkind .slot).mp hslot
    · exact fun hlets => ⟨⟨(hkind .slot).mpr (hlets.each .slot), (hkind .severity).mpr (hlets.each .severity)⟩,
        (hkind .oid).mpr (hlets.each .oid)⟩

/-- The same rules, those of a kind in any order. -/
def Reordered (rules rules' : TargetRules) : Prop := ∀ k, (rules.of k).Perm (rules'.of k)

variable {rules t} {rules' : TargetRules}

theorem Reordered.lets (h : rules.Reordered rules') : rules.Lets t ↔ rules'.Lets t := by
  have hruled (k : RuleKind) : rules.of k ≠ [] ↔ rules'.of k ≠ [] := not_congr ⟨fun he => (he ▸ h k).nil_eq.symm,
    fun he => (he ▸ h k).eq_nil⟩
  have hany (k : RuleKind) : (∃ r ∈ rules.of k, r.Lets t) ↔ ∃ r ∈ rules'.of k, r.Lets t := by
    simp only [(h k).mem_iff]
  constructor
  · intro hlets
    refine ⟨hlets.ruled.imp fun k => (hruled k).mp, fun k hk => ?_⟩
    exact (hany k).mp (hlets.each k ((hruled k).mpr hk))
  · intro hlets
    refine ⟨hlets.ruled.imp fun k => (hruled k).mpr, fun k hk => ?_⟩
    exact (hany k).mpr (hlets.each k ((hruled k).mp hk))

theorem Reordered.admits (h : rules.Reordered rules') : rules.admits t = rules'.admits t :=
  Bool.eq_iff_iff.mpr (by rw [admits_iff, admits_iff, h.lets])

end TargetRules

/-! Windows -/

namespace CompiledWindow
variable (w : CompiledWindow) (t : Trap)

/-- The trap's element is a target, and its instant lies within the effective bounds. -/
structure Covers : Prop where
  target : (w.targets t.ne_id).isSome
  within : t.ts ∈ Set.Ico w.effective_starts_at w.effective_ends_at

def Lets : Prop := ∃ rules ∈ w.targets t.ne_id, rules.Lets t

/-- The same window, with the rules on each target in any order. -/
structure Same (w w' : CompiledWindow) : Prop where
  window_id : w.window_id = w'.window_id
  effective_starts_at : w.effective_starts_at = w'.effective_starts_at
  effective_ends_at : w.effective_ends_at = w'.effective_ends_at
  targets : ∀ ne_id, Option.Rel TargetRules.Reordered (w.targets ne_id) (w'.targets ne_id)

/-- What `decide` looks for in a window that covers the trap. -/
def admits : Bool := ((w.targets t.ne_id).getD COLLECT_NOTHING).admits t

variable {w t} {w' : CompiledWindow}

theorem admits_iff (h : w.Covers t) : w.admits t ↔ w.Lets t := by
  obtain ⟨rules, hrules⟩ := Option.isSome_iff_exists.mp h.target
  simp [admits, Lets, hrules, TargetRules.admits_iff]

theorem Same.admits (h : w.Same w') : w.admits t = w'.admits t := by
  have htargets := h.targets t.ne_id
  unfold CompiledWindow.admits
  generalize w.targets t.ne_id = rules, w'.targets t.ne_id = rules' at htargets ⊢
  cases htargets with
  | none => rfl
  | some hrules => exact hrules.admits

theorem Same.covers (h : w.Same w') : w.Covers t ↔ w'.Covers t := by
  have htarget : (w.targets t.ne_id).isSome ↔ (w'.targets t.ne_id).isSome := by
    have htargets := h.targets t.ne_id
    generalize w.targets t.ne_id = rules, w'.targets t.ne_id = rules' at htargets ⊢
    cases htargets <;> exact Iff.rfl
  have hwithin : t.ts ∈ Set.Ico w.effective_starts_at w.effective_ends_at ↔
      t.ts ∈ Set.Ico w'.effective_starts_at w'.effective_ends_at := by
    rw [h.effective_starts_at, h.effective_ends_at]
  constructor
  · exact fun hc => ⟨htarget.mp hc.target, hwithin.mp hc.within⟩
  · exact fun hc => ⟨htarget.mpr hc.target, hwithin.mpr hc.within⟩

theorem Same.lets (h : w.Same w') (hc : w.Covers t) : w.Lets t ↔ w'.Lets t := by
  rw [← admits_iff hc, ← admits_iff (h.covers.mp hc), h.admits]

end CompiledWindow

/-- The windows in another order, and the rules of each too. -/
def Reordered (windows windows' : List CompiledWindow) : Prop :=
  ∃ same, windows.Perm same ∧ List.Forall₂ CompiledWindow.Same same windows'

/-- The decision among the windows that cover a trap. -/
def decided (t : Trap) : List CompiledWindow → Decision
  | [] => COLLECT
  | first :: rest =>
    match (first :: rest).find? (·.admits t) with
    | some w => { collect := true, window_id := some w.window_id }
    | none => { collect := false, window_id := some first.window_id }

section
variable (windows : List CompiledWindow) (t : Trap)

open scoped Classical in
noncomputable def covering : List CompiledWindow := windows.filter (·.Covers t)

theorem decide_eq : (compile_windows windows).decide t = decided t (covering windows t) := by
  have hcovering : ((compile_windows windows).by_ne t.ne_id).filter (·.covers t.ts) = covering windows t := by
    unfold compile_windows covering
    rw [List.filter_filter]
    refine List.filter_congr fun w _ => Bool.eq_iff_iff.mpr ?_
    simp only [CompiledWindow.covers, Bool.and_eq_true, decide_eq_true_eq]
    exact ⟨fun h => ⟨h.2, h.1⟩, fun h => ⟨h.within, h.target⟩⟩
  unfold WindowIndex.decide
  rw [hcovering]
  rcases covering windows t with - | ⟨first, rest⟩ <;> rfl

end

theorem decided_cases (t : Trap) (covering : List CompiledWindow) :
    covering = [] ∧ decided t covering = COLLECT ∨
      (∃ w ∈ covering, w.admits t ∧ decided t covering = { collect := true, window_id := some w.window_id }) ∨
      (∀ w ∈ covering, ¬ w.admits t) ∧
        ∃ w ∈ covering, decided t covering = { collect := false, window_id := some w.window_id } := by
  rcases covering with - | ⟨first, rest⟩
  · exact .inl ⟨rfl, rfl⟩
  · rcases hfound : (first :: rest).find? (·.admits t) with - | w
    · refine .inr (.inr ⟨List.find?_eq_none.mp hfound, first, List.mem_cons_self, ?_⟩)
      rw [decided, hfound]
    · have hadmits : w.admits t := List.find?_some (p := fun w : CompiledWindow => w.admits t) hfound
      refine .inr (.inl ⟨w, List.mem_of_find?_eq_some hfound, hadmits, ?_⟩)
      rw [decided, hfound]

/-- What a decision says of a trap. -/
structure Decided (windows : List CompiledWindow) (t : Trap) (d : Decision) : Prop where
  collect : d.collect ↔ (∀ w ∈ windows, ¬ w.Covers t) ∨ ∃ w ∈ windows, w.Covers t ∧ w.Lets t
  under_window : d.under_window ↔ ∃ w ∈ windows, w.Covers t
  named : ∀ wid ∈ d.window_id, ∃ w ∈ windows, w.window_id = wid ∧ w.Covers t ∧ (d.collect → w.Lets t)

theorem decide_decided (windows : List CompiledWindow) (t : Trap) :
    Decided windows t ((compile_windows windows).decide t) := by
  have hmem (w : CompiledWindow) : w ∈ covering windows t ↔ w ∈ windows ∧ w.Covers t := by
    simp [covering]
  rw [decide_eq]
  rcases decided_cases t (covering windows t) with ⟨hnil, heq⟩ | ⟨w, hw, hadmits, heq⟩ | ⟨hnone, w, hw, heq⟩
  · have hnone : ∀ w ∈ windows, ¬ w.Covers t := fun w hw hc => by simpa [hnil] using (hmem w).mpr ⟨hw, hc⟩
    rw [heq]
    refine ⟨iff_of_true rfl (.inl hnone), iff_of_false Bool.false_ne_true ?_, nofun⟩
    rintro ⟨w, hw, hc⟩
    exact hnone w hw hc
  · obtain ⟨hin, hc⟩ := (hmem w).mp hw
    have hlets := (CompiledWindow.admits_iff hc).mp hadmits
    rw [heq]
    refine ⟨iff_of_true rfl (.inr ⟨w, hin, hc, hlets⟩), iff_of_true rfl ⟨w, hin, hc⟩, ?_⟩
    rintro _ ⟨⟩
    exact ⟨w, hin, rfl, hc, fun _ => hlets⟩
  · obtain ⟨hin, hc⟩ := (hmem w).mp hw
    rw [heq]
    refine ⟨iff_of_false Bool.false_ne_true ?_, iff_of_true rfl ⟨w, hin, hc⟩, ?_⟩
    · rintro (hnot | ⟨v, hv, hcv, hlets⟩)
      · exact hnot w hin hc
      · exact hnone v ((hmem v).mpr ⟨hv, hcv⟩) ((CompiledWindow.admits_iff hcv).mpr hlets)
    · rintro _ ⟨⟩
      exact ⟨w, hin, rfl, hc, nofun⟩

theorem Reordered.exists_iff {windows windows' : List CompiledWindow} (h : Reordered windows windows')
    {p : CompiledWindow → Prop} (hp : ∀ w w', w.Same w' → (p w ↔ p w')) :
    (∃ w ∈ windows, p w) ↔ ∃ w ∈ windows', p w := by
  obtain ⟨same, hperm, hsame⟩ := h
  simp only [hperm.mem_iff]
  clear hperm
  induction hsame with
  | nil => simp
  | cons hw _ ih => simp only [List.exists_mem_cons_iff, hp _ _ hw, ih]

private theorem decided_same {t : Trap} {c c' : List CompiledWindow} (h : List.Forall₂ CompiledWindow.Same c c') :
    decided t c = decided t c' := by
  have hfind : (c.find? (·.admits t)).map (·.window_id) = (c'.find? (·.admits t)).map (·.window_id) := by
    induction h with
    | nil => rfl
    | @cons w w' rest rest' hw _ ih =>
      rw [List.find?_cons, List.find?_cons, hw.admits]
      cases w'.admits t
      · exact ih
      · exact congrArg some hw.window_id
  cases h with
  | nil => rfl
  | @cons w w' rest rest' hw hrest =>
    unfold decided
    dsimp only
    generalize (w :: rest).find? (·.admits t) = found, (w' :: rest').find? (·.admits t) = found' at hfind ⊢
    rcases found with - | v <;> rcases found' with - | v'
    · exact congrArg (fun wid => Decision.mk false (some wid)) hw.window_id
    · cases hfind
    · cases hfind
    · exact congrArg (Decision.mk true) hfind

theorem decide_reference (windows : List CompiledWindow) (t : Trap) :
    Decided windows t ((compile_windows windows).decide t) ∧
      (∀ windows', Reordered windows windows' →
        ((compile_windows windows').decide t).collect = ((compile_windows windows).decide t).collect ∧
        ((compile_windows windows').decide t).under_window = ((compile_windows windows).decide t).under_window) ∧
      ∀ windows', List.Forall₂ CompiledWindow.Same windows windows' →
        (compile_windows windows').decide t = (compile_windows windows).decide t := by
  refine ⟨decide_decided windows t, fun windows' h => ?_, fun windows' h => ?_⟩
  · have hcovered := h.exists_iff (p := (·.Covers t)) fun _ _ hw => hw.covers
    have hlet := h.exists_iff (p := fun w => w.Covers t ∧ w.Lets t) fun _ _ hw => by
      rw [← hw.covers]
      exact and_congr_right hw.lets
    have hnone : (∀ w ∈ windows, ¬ w.Covers t) ↔ ∀ w ∈ windows', ¬ w.Covers t := by
      simpa using not_congr hcovered
    constructor
    · rw [Bool.eq_iff_iff, (decide_decided windows t).collect, (decide_decided windows' t).collect, hnone, hlet]
    · rw [Bool.eq_iff_iff, (decide_decided windows t).under_window, (decide_decided windows' t).under_window, hcovered]
  · have hcovering : List.Forall₂ CompiledWindow.Same (covering windows t) (covering windows' t) :=
      List.rel_filter (fun _ _ hw => by simpa using hw.covers) h
    rw [decide_eq, decide_eq, decided_same hcovering]

end NetCoreNoc.Maintenance
