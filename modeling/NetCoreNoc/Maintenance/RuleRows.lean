import Mathlib
import NetCoreNoc.Maintenance.Decide

/-! The rules of a window as rows of the database, of which some cannot be read (`engine/mw/compile.py`). -/
namespace NetCoreNoc.Maintenance

/-- A row of `maintenance_window_rule`. -/
structure RuleRow where
  kind : String
  severity_rank : Option ℕ := none
  oid_root : Option String := none
  match_on : Option String := none
  slot_starts_at : Option ℚ := none
  slot_ends_at : Option ℚ := none

def match_on (raw : Option String) : MatchOn := if raw = some "trap" then .trap else .varbind

namespace RuleRow

/-- The rule that a row is read as. A slot without an end, or with an end of zero, ends where it starts. -/
def rule (row : RuleRow) : Option Rule :=
  if row.kind = "severity" then row.severity_rank.map .severity
  else if row.kind = "oid" then (row.oid_root.filter (· ≠ "")).map (.oid · (Maintenance.match_on row.match_on))
  else if row.kind = "slot" then
    row.slot_starts_at.map fun starts_at => .slot starts_at ((row.slot_ends_at.filter (· ≠ 0)).getD starts_at)
  else none

def compile_rules (rows : List RuleRow) : TargetRules := Maintenance.compile_rules (rows.filterMap rule)

end RuleRow

theorem mem_of {rows : List Rule} {k : RuleKind} {r : Rule} :
    r ∈ (compile_rules rows).of k ↔ r ∈ rows ∧ r.kind = k := by
  unfold compile_rules TargetRules.of
  cases k <;> cases r <;> simp [Rule.kind]

theorem compile_rules_admits (rows : List Rule) (t : Trap) : (compile_rules rows).admits t ↔
    rows ≠ [] ∧ ∀ k, (∃ r ∈ rows, r.kind = k) → ∃ r ∈ rows, r.kind = k ∧ r.Lets t := by
  have hkind (k : RuleKind) : (compile_rules rows).of k ≠ [] ↔ ∃ r ∈ rows, r.kind = k := by
    constructor
    · intro hne
      obtain ⟨r, hr⟩ := List.exists_mem_of_ne_nil _ hne
      exact ⟨r, mem_of.mp hr⟩
    · rintro ⟨r, hr, hk⟩
      exact List.ne_nil_of_mem (mem_of.mpr ⟨hr, hk⟩)
  rw [TargetRules.admits_iff]
  constructor
  · intro h
    obtain ⟨k, hk⟩ := h.ruled
    obtain ⟨r, hr, -⟩ := (hkind k).mp hk
    refine ⟨List.ne_nil_of_mem hr, fun k hk => ?_⟩
    obtain ⟨r, hr, hlets⟩ := h.each k ((hkind k).mpr hk)
    obtain ⟨hin, hrk⟩ := mem_of.mp hr
    exact ⟨r, hin, hrk, hlets⟩
  · rintro ⟨hne, heach⟩
    obtain ⟨r, hr⟩ := List.exists_mem_of_ne_nil _ hne
    refine ⟨⟨r.kind, (hkind r.kind).mpr ⟨r, hr, rfl⟩⟩, fun k hk => ?_⟩
    obtain ⟨r, hr, hrk, hlets⟩ := heach k ((hkind k).mp hk)
    exact ⟨r, mem_of.mpr ⟨hr, hrk⟩, hlets⟩

/-! Rules and what became of their rows -/

/-- What was stored: a rule, or one of a kind that this release does not know. -/
inductive Meant where
  | rule (r : Rule)
  | newer (kind : String)
  deriving DecidableEq

/-- A rule and its row as it is now: a row that can be read says what was meant. -/
structure StoredRule where
  meant : Meant
  row : RuleRow
  kept : ∀ r ∈ row.rule, meant = .rule r

namespace StoredRule

def kind (s : StoredRule) : RuleKind ⊕ String :=
  match s.meant with
  | .rule r => .inl r.kind
  | .newer kind => .inr kind

def known (s : StoredRule) : Option Rule :=
  match s.meant with
  | .rule r => some r
  | .newer _ => none

/-- What a stored rule lets through, given what a newer release takes its own rules for. -/
def Lets (newer : String → RuleRow → Trap → Prop) (t : Trap) (s : StoredRule) : Prop :=
  match s.meant with
  | .rule r => r.Lets t
  | .newer kind => newer kind s.row t

end StoredRule

/-- What the rules let through before a row was lost. -/
structure Intact (newer : String → RuleRow → Trap → Prop) (stored : List StoredRule) (t : Trap) : Prop where
  ruled : stored ≠ []
  each : ∀ s ∈ stored, ∃ s' ∈ stored, s'.kind = s.kind ∧ s'.Lets newer t

/-- Where every rule is one that this release knows, these are the rules compiled from all of them. -/
theorem intact_iff {newer : String → RuleRow → Trap → Prop} {stored : List StoredRule} {t : Trap} (rules : List Rule)
    (hmeant : stored.map (·.meant) = rules.map .rule) : Intact newer stored t ↔ (compile_rules rules).admits t := by
  have hrule {r : Rule} (hr : r ∈ rules) : ∃ s ∈ stored, s.meant = .rule r :=
    List.mem_map.mp (hmeant ▸ List.mem_map_of_mem hr)
  have hstored {s : StoredRule} (hs : s ∈ stored) : ∃ r ∈ rules, s.meant = .rule r := by
    obtain ⟨r, hr, heq⟩ := List.mem_map.mp (hmeant ▸ List.mem_map_of_mem (f := StoredRule.meant) hs)
    exact ⟨r, hr, heq.symm⟩
  rw [compile_rules_admits]
  constructor
  · intro h
    obtain ⟨s, hs⟩ := List.exists_mem_of_ne_nil _ h.ruled
    obtain ⟨r, hr, -⟩ := hstored hs
    refine ⟨List.ne_nil_of_mem hr, ?_⟩
    rintro k ⟨r, hr, rfl⟩
    obtain ⟨s, hs, hsr⟩ := hrule hr
    obtain ⟨s', hs', hk, hlets⟩ := h.each s hs
    obtain ⟨r', hr', hsr'⟩ := hstored hs'
    rw [StoredRule.kind, StoredRule.kind, hsr, hsr'] at hk
    rw [StoredRule.Lets, hsr'] at hlets
    exact ⟨r', hr', Sum.inl.inj hk, hlets⟩
  · rintro ⟨hne, heach⟩
    obtain ⟨r, hr⟩ := List.exists_mem_of_ne_nil _ hne
    obtain ⟨s, hs, -⟩ := hrule hr
    refine ⟨List.ne_nil_of_mem hs, fun s hs => ?_⟩
    obtain ⟨r, hr, hsr⟩ := hstored hs
    obtain ⟨r', hr', hk, hlets⟩ := heach r.kind ⟨r, hr, rfl⟩
    obtain ⟨s', hs', hsr'⟩ := hrule hr'
    refine ⟨s', hs', ?_, ?_⟩
    · rw [StoredRule.kind, StoredRule.kind, hsr, hsr']
      exact congrArg Sum.inl hk
    · rw [StoredRule.Lets, hsr']
      exact hlets

def FailsClosed (stored : List StoredRule) : Prop :=
  ∀ newer t, (RuleRow.compile_rules (stored.map (·.row))).admits t → Intact newer stored t

/-- The rules that can still be read. -/
def readable (stored : List StoredRule) : List Rule := stored.filterMap (·.row.rule)

section
variable {stored : List StoredRule}

theorem mem_readable {r : Rule} : r ∈ readable stored ↔ ∃ s ∈ stored, s.row.rule = some r := List.mem_filterMap

theorem admits_readable (t : Trap) : (RuleRow.compile_rules (stored.map (·.row))).admits t ↔
    readable stored ≠ [] ∧
      ∀ k, (∃ r ∈ readable stored, r.kind = k) → ∃ r ∈ readable stored, r.kind = k ∧ r.Lets t := by
  have hrows : RuleRow.compile_rules (stored.map (·.row)) = compile_rules (readable stored) := by
    rw [RuleRow.compile_rules, List.filterMap_map]
    rfl
  rw [hrows, compile_rules_admits]

end

/-! A trap that the rules left let through, and that no rule of a kind of which none is left does -/

private theorem exists_rank (rules : List Rule) : ∃ rank : Option ℕ, ∀ t : Trap, t.severity_rank = rank →
    ((∃ r ∈ rules, r.kind = .severity) → ∃ r ∈ rules, r.kind = .severity ∧ r.Lets t) ∧
    ((∀ r ∈ rules, r.kind ≠ .severity) → ∀ r : Rule, r.kind = .severity → ¬ r.Lets t) := by
  by_cases h : ∃ r ∈ rules, r.kind = .severity
  · obtain ⟨r, hr, hk⟩ := h
    refine ⟨some 0, fun t ht => ⟨fun _ => ⟨r, hr, hk, ?_⟩, fun hnone => absurd hk (hnone r hr)⟩⟩
    cases r with
    | severity rank => exact ⟨0, ht, Nat.zero_le rank⟩
    | oid => cases hk
    | slot => cases hk
  · refine ⟨none, fun t ht => ⟨fun hsome => absurd hsome h, fun _ r hk hlets => ?_⟩⟩
    cases r with
    | severity rank =>
      obtain ⟨placed, hplaced, -⟩ := hlets
      rw [ht] at hplaced
      cases hplaced
    | oid => cases hk
    | slot => cases hk

private def rootLength : Rule → Nat
  | .oid root _ => root.toList.length
  | _ => 0

/-- An OID of one arc that is longer than so many roots lies under none of them. -/
private theorem exists_stray (lost : List Rule) :
    ∃ oid : String, ∀ root on, Rule.oid root on ∈ lost → ¬ arcs root <+: arcs oid := by
  obtain ⟨n, hn⟩ := (List.finite_toSet (lost.map rootLength)).bddAbove
  refine ⟨String.ofList (List.replicate (n + 1) '1'), fun root on hmem hunder => ?_⟩
  have hlength : root.toList.length ≤ n := hn (List.mem_map.mpr ⟨_, hmem, rfl⟩)
  have harcs : arcs (String.ofList (List.replicate (n + 1) '1')) = [List.replicate (n + 1) '1'] := by
    rw [arcs, String.toList_ofList]
    exact List.splitOn_eq_singleton fun h => absurd (List.eq_of_mem_replicate h) (by decide)
  rw [harcs] at hunder
  have hroot : arcs root = [List.replicate (n + 1) '1'] := by
    rcases List.prefix_cons_iff.mp hunder with h | ⟨t, ht, hnil⟩
    · exact absurd h (List.splitOn_ne_nil _ _)
    · rw [ht, List.prefix_nil.mp hnil]
  have hsame : root.toList = List.replicate (n + 1) '1' := by
    have hjoin : ['.'].intercalate (arcs root) = root.toList := List.intercalate_splitOn '.'
    rw [← hjoin, hroot, List.intercalate_singleton]
  rw [hsame, List.length_replicate] at hlength
  omega

private theorem exists_oid (rules lost : List Rule) : ∃ (trap_oid : String) (varbind_oids : List String), ∀ t : Trap,
    t.trap_oid = trap_oid → t.varbind_oids = varbind_oids →
    ((∃ r ∈ rules, r.kind = .oid) → ∃ r ∈ rules, r.kind = .oid ∧ r.Lets t) ∧
    ((∀ r ∈ rules, r.kind ≠ .oid) → ∀ r ∈ lost, r.kind = .oid → ¬ r.Lets t) := by
  by_cases h : ∃ r ∈ rules, r.kind = .oid
  · obtain ⟨r, hr, hk⟩ := h
    cases r with
    | oid root on =>
      refine ⟨root, [root], fun t htrap hvarbinds =>
        ⟨fun _ => ⟨_, hr, hk, ?_⟩, fun hnone => absurd hk (hnone _ hr)⟩⟩
      cases on with
      | trap => exact htrap ▸ List.prefix_rfl
      | varbind => exact ⟨root, hvarbinds ▸ List.mem_singleton_self root, List.prefix_rfl⟩
    | severity => cases hk
    | slot => cases hk
  · obtain ⟨stray, hstray⟩ := exists_stray lost
    refine ⟨stray, [], fun t htrap hvarbinds => ⟨fun hsome => absurd hsome h, fun _ r hr hk hlets => ?_⟩⟩
    cases r with
    | oid root on =>
      cases on with
      | trap => exact hstray root _ hr (htrap ▸ hlets)
      | varbind =>
        obtain ⟨oid, hoid, -⟩ := hlets
        rw [hvarbinds] at hoid
        cases hoid
    | severity => cases hk
    | slot => cases hk

private def slotEnd : Rule → ℚ
  | .slot _ b => b
  | _ => 0

private theorem exists_ts (rules lost : List Rule)
    (hslots : (∃ r ∈ rules, r.kind = .slot) → ∃ a b, Rule.slot a b ∈ rules ∧ a < b) :
    ∃ ts : ℚ, ∀ t : Trap, t.ts = ts →
    ((∃ r ∈ rules, r.kind = .slot) → ∃ r ∈ rules, r.kind = .slot ∧ r.Lets t) ∧
    ((∀ r ∈ rules, r.kind ≠ .slot) → ∀ r ∈ lost, r.kind = .slot → ¬ r.Lets t) := by
  by_cases h : ∃ r ∈ rules, r.kind = .slot
  · obtain ⟨a, b, hr, hlt⟩ := hslots h
    refine ⟨a, fun t ht => ⟨fun _ => ⟨_, hr, rfl, ?_⟩, fun hnone => absurd rfl (hnone _ hr)⟩⟩
    exact ⟨ht.ge, ht ▸ hlt⟩
  · obtain ⟨ts, hts⟩ := (List.finite_toSet (lost.map slotEnd)).bddAbove
    refine ⟨ts, fun t ht => ⟨fun hsome => absurd hsome h, fun _ r hr hk hlets => ?_⟩⟩
    cases r with
    | slot a b =>
      have hend : b ≤ ts := hts (List.mem_map.mpr ⟨_, hr, rfl⟩)
      exact absurd hlets.2 (not_lt.mpr (ht ▸ hend))
    | severity => cases hk
    | oid => cases hk

private theorem exists_trap (rules lost : List Rule)
    (hslots : (∃ r ∈ rules, r.kind = .slot) → ∃ a b, Rule.slot a b ∈ rules ∧ a < b) : ∃ t : Trap,
    (∀ k, (∃ r ∈ rules, r.kind = k) → ∃ r ∈ rules, r.kind = k ∧ r.Lets t) ∧
    ∀ k, (∀ r ∈ rules, r.kind ≠ k) → ∀ r ∈ lost, r.kind = k → ¬ r.Lets t := by
  obtain ⟨rank, hrank⟩ := exists_rank rules
  obtain ⟨trap_oid, varbind_oids, hoid⟩ := exists_oid rules lost
  obtain ⟨ts, hts⟩ := exists_ts rules lost hslots
  let t : Trap := ⟨0, ts, trap_oid, varbind_oids, rank⟩
  refine ⟨t, ?_, ?_⟩
  · rintro (_ | _ | _)
    · exact (hrank t rfl).1
    · exact (hoid t rfl rfl).1
    · exact (hts t rfl).1
  · rintro (_ | _ | _)
    · exact fun hnone r _ => (hrank t rfl).2 hnone r
    · exact (hoid t rfl rfl).2
    · exact (hts t rfl).2

section
variable {stored : List StoredRule} {newer : String → RuleRow → Trap → Prop} {t : Trap}

/-- A rule that can be read was stored, and lets through what it did. -/
private theorem stored_lets {r : Rule} (hr : r ∈ readable stored) (hlets : r.Lets t) :
    ∃ s ∈ stored, s.kind = .inl r.kind ∧ s.Lets newer t := by
  obtain ⟨s, hs, hrow⟩ := mem_readable.mp hr
  have hmeant := s.kept r hrow
  refine ⟨s, hs, ?_, ?_⟩
  · rw [StoredRule.kind, hmeant]
  · rw [StoredRule.Lets, hmeant]
    exact hlets

private theorem intact_of_kinds (hkinds : ∀ s ∈ stored, ∃ r ∈ readable stored, s.kind = .inl r.kind)
    (h : (RuleRow.compile_rules (stored.map (·.row))).admits t) : Intact newer stored t := by
  obtain ⟨hne, heach⟩ := (admits_readable t).mp h
  constructor
  · obtain ⟨r, hr⟩ := List.exists_mem_of_ne_nil _ hne
    obtain ⟨s, hs, -⟩ := mem_readable.mp hr
    exact List.ne_nil_of_mem hs
  · intro s hs
    obtain ⟨r, hr, hk⟩ := hkinds s hs
    obtain ⟨r', hr', hk', hlets⟩ := heach r.kind ⟨r, hr, rfl⟩
    obtain ⟨s', hs', hks, hlets⟩ : ∃ s' ∈ stored, s'.kind = .inl r'.kind ∧ s'.Lets newer t := stored_lets hr' hlets
    exact ⟨s', hs', by rw [hks, hk', hk], hlets⟩

/-- Where a kind has lost its last row, what was stored refuses a trap that is let through now. -/
private theorem opened {s : StoredRule} (hs : s ∈ stored) (hlost : ∀ r ∈ readable stored, s.kind ≠ .inl r.kind)
    (hne : readable stored ≠ [])
    (hslots : (∃ r ∈ readable stored, r.kind = .slot) → ∃ a b, Rule.slot a b ∈ readable stored ∧ a < b) :
    ∃ t, (RuleRow.compile_rules (stored.map (·.row))).admits t ∧ ¬ Intact (fun _ _ _ => False) stored t := by
  obtain ⟨t, hin, hout⟩ := exists_trap (readable stored) (stored.filterMap (·.known)) hslots
  refine ⟨t, (admits_readable t).mpr ⟨hne, hin⟩, fun hintact => ?_⟩
  obtain ⟨s', hs', hk, hlets⟩ := hintact.each s hs
  rcases hmeant : s'.meant with r | name
  · rw [StoredRule.kind, hmeant] at hk
    rw [StoredRule.Lets, hmeant] at hlets
    have hmem : r ∈ stored.filterMap (·.known) :=
      List.mem_filterMap.mpr ⟨s', hs', by rw [StoredRule.known, hmeant]⟩
    exact hout r.kind (fun r' hr' heq => hlost r' hr' (by rw [← hk, heq])) r hmem rfl hlets
  · rw [StoredRule.Lets, hmeant] at hlets
    exact hlets

end

/-- Every kind that was stored has a row that can be read, or no row can be, or slots can be and each is empty. -/
theorem fails_closed_iff (stored : List StoredRule) : FailsClosed stored ↔
    (∀ s ∈ stored, ∃ r ∈ readable stored, s.kind = .inl r.kind) ∨ readable stored = [] ∨
      (∃ r ∈ readable stored, r.kind = .slot) ∧ ∀ a b, Rule.slot a b ∈ readable stored → b ≤ a := by
  constructor
  · intro hclosed
    by_contra hnot
    simp only [not_or, not_and, not_forall, not_exists, not_le] at hnot
    obtain ⟨⟨s, hs, hlost⟩, hne, hslots⟩ := hnot
    obtain ⟨t, hadmits, hrefused⟩ := opened hs hlost hne fun hslot => by
      obtain ⟨a, b, hmem, hlt⟩ := hslots hslot
      exact ⟨a, b, hmem, hlt⟩
    exact hrefused (hclosed _ t hadmits)
  · rintro (hkinds | hnil | ⟨hslot, hempty⟩) newer t hadmits
    · exact intact_of_kinds hkinds hadmits
    · exact absurd hnil ((admits_readable t).mp hadmits).1
    · obtain ⟨r, hr, hk, hlets⟩ := ((admits_readable t).mp hadmits).2 .slot hslot
      cases r with
      | slot a b => exact absurd (hempty a b hr) (not_le.mpr (hlets.1.trans_lt hlets.2))
      | severity => cases hk
      | oid => cases hk

/-- A severity rule whose rank is gone, beside a rule on a subtree. -/
def unranked : List StoredRule :=
  [⟨.rule (.severity 0), { kind := "severity" }, by decide⟩,
    ⟨.rule (.oid "1.3.6.1.4.1.2011" .trap),
      { kind := "oid", oid_root := some "1.3.6.1.4.1.2011", match_on := some "trap" }, by decide⟩]

def unplaced : Trap where
  ne_id := 1
  ts := 0
  trap_oid := "1.3.6.1.4.1.2011"

/-- A trap without a severity is collected now, and was not before. -/
theorem unranked_collects : (compile_rules [.severity 0, .oid "1.3.6.1.4.1.2011" .trap]).admits unplaced = false ∧
    (RuleRow.compile_rules (unranked.map (·.row))).admits unplaced = true ∧ ¬ FailsClosed unranked := by
  have hbefore : (compile_rules [.severity 0, .oid "1.3.6.1.4.1.2011" .trap]).admits unplaced = false := by
    decide +kernel
  have hnow : (RuleRow.compile_rules (unranked.map (·.row))).admits unplaced = true := by decide +kernel
  refine ⟨hbefore, hnow, fun h => ?_⟩
  have hintact := h (fun _ _ _ => False) unplaced hnow
  rw [intact_iff [.severity 0, .oid "1.3.6.1.4.1.2011" .trap] rfl, hbefore] at hintact
  cases hintact

end NetCoreNoc.Maintenance
