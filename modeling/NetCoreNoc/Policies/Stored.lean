import Mathlib
import NetCoreNoc.Json.Halves
import NetCoreNoc.Policies.Numbers
import NetCoreNoc.Policies.Snmp

/-! The stored policies: which texts each reader reads whole or not at all, and which policies come back unchanged. -/
namespace NetCoreNoc.Policies
open Json Policies.Snmp
open Python (room)

/-- What is read of every text, and of the stored form of every policy, and exactly when it is what is asked. -/
structure StoredPolicies (F : Type) [PyFloat F] [Python F] : Prop where
  retention : ∀ raw : Str, (∃ policy : Option (RetentionPolicy F), RetentionPolicy.from_json raw = .ok policy ∧
    ∀ p ∈ policy, p.Sound) ↔ RetentionPolicy.Readable F raw
  kpi : ∀ (document : Option Str) (default : Kpi F), (∃ k, Kpi.from_document document default = .ok k ∧
    (k = default ∨ k.Sound)) ↔ Kpi.Readable F document
  snmp : ∀ text : Str, (∃ r, from_document F text = .ok r ∧ Answered F text r) ↔
    reads (F := F) (room F) text ≠ .error .RecursionError
  retention_back : ∀ p : RetentionPolicy F, p.validate = none →
    ((∃ raw, p.as_json = .ok raw ∧ RetentionPolicy.from_json raw = .ok (some p)) ↔
      digitCount p.sink_rows ≤ MAX_STR_DIGITS ∧ 1 ≤ room F)
  kpi_back : ∀ k default : Kpi F, Kpi.problems k.target_s k.limit_s = [] →
    (Kpi.from_document (some k.to_document) default = .ok k ↔ 1 ≤ room F)
  snmp_back : ∀ p : SnmpPolicy, policy_problems F p = [] →
    ((∃ q, from_document F (to_document F p) = .ok (q, []) ∧ Same q p) ↔
      nesting (p.document : Doc F) ≤ room F ∧ Named p ∧ Plain p)

theorem stored_policies (F : Type) [PyFloat F] [Python F] [LawfulPyFloat F] [LawfulPython F] : StoredPolicies F where
  retention := RetentionPolicy.from_json_iff
  kpi := Kpi.from_document_iff
  snmp := from_document_iff
  retention_back := fun _ => RetentionPolicy.from_json_as_json
  kpi_back := fun _ default => Kpi.from_document_to_document default
  snmp_back := fun _ => returned_iff

/-! On halves -/

namespace Half

def rank : Half → Rank
  | .half n => .finite (n / 2)
  | .nan => .nan
  | .infinity => .infinity
  | .neg_infinity => .neg_infinity

/-- The words that are floats. -/
def WORDS : List (Str × Half) :=
  [(lit "nan", .nan), (lit "inf", .infinity), (lit "infinity", .infinity), (lit "-inf", .neg_infinity),
    (lit "-infinity", .neg_infinity)]

def float_str (s : Str) : Option Half :=
  if (scanNumber (Text.strip s)).any (fun e => e.2 = []) then some (PyFloat.float (Text.strip s))
  else WORDS.lookup (Text.strip s)

def int_str (s : Str) : Option ℤ :=
  ((scanNumber (Text.strip s)).filter fun e => e.1.2 = [] ∧ e.2 = [] ∧ (e.1.1.filter isDigit).length ≤ MAX_STR_DIGITS).map
    fun e => toInt e.1.1

def str : Doc Half → Str
  | .null => lit "None"
  | .bool true => lit "True"
  | .bool false => lit "False"
  | d => text d

/-- The least integer that rounds beyond the floats. -/
def BEYOND : ℕ := 2 ^ 1024 - 2 ^ 970

instance : Python Half where
  rank := rank
  float_int n := if n.natAbs < BEYOND then some (.half (2 * n)) else none
  float_str := float_str
  int_str := int_str
  str := str
  repr s := (39 : CodePoint) :: s ++ [39]
  refusal _ := lit "Expecting value: line 1 column 1 (char 0)"
  room := 10000

instance : LawfulPython Half where
  finite x := by
    cases x with
    | half n => exact iff_of_true rfl ⟨_, rfl⟩
    | nan => exact iff_of_false nofun fun h => nomatch h.choose_spec
    | infinity => exact iff_of_false nofun fun h => nomatch h.choose_spec
    | neg_infinity => exact iff_of_false nofun fun h => nomatch h.choose_spec

end Half

theorem stored_policies_halves : StoredPolicies Half := stored_policies Half

/-- A retention whose first tier is no number. -/
def unending : RetentionPolicy Half := ⟨.nan, 2000000, .half 730, .half 1460⟩

/-- A KPI whose target is beyond the floats. -/
def beyond : Doc Half := .obj [(lit "target_s", .int (10 ^ 309)), (lit "limit_s", .int 120)]

/-- Lists in lists. -/
def nest : ℕ → Doc Half
  | 0 => .null
  | n + 1 => .list [nest n]

theorem nesting_nest (n : ℕ) : nesting (nest n) = n := by
  induction n with
  | zero => rfl
  | succ n ih => rw [nest, nesting, itemsNesting, ih, itemsNesting, Nat.max_zero]

theorem fits_nest (n : ℕ) : Fits MAX_STR_DIGITS (nest n) := by
  induction n with
  | zero => trivial
  | succ n ih => exact ⟨ih, trivial⟩

theorem not_stored :
    (¬ ∃ policy : Option (RetentionPolicy Half), RetentionPolicy.from_json (spaced GAP unending.document) = .ok policy ∧
      ∀ p ∈ policy, p.Sound) ∧
    (¬ ∃ k : Kpi Half, Kpi.from_document (some (spaced GAP beyond)) ⟨.half 120, .half 240⟩ = .ok k ∧
      (k = ⟨.half 120, .half 240⟩ ∨ k.Sound)) ∧
    ¬ ∃ r, from_document Half (spaced GAP (nest 10001)) = .ok r ∧ Answered Half (spaced GAP (nest 10001)) r := by
  refine ⟨?_, ?_, ?_⟩
  · rintro ⟨policy, hpolicy, hsound⟩
    have hvalid : unending.validate = none := by decide +kernel
    obtain ⟨raw, hraw, hback⟩ := (RetentionPolicy.from_json_as_json hvalid).mpr ⟨by decide +kernel, by decide⟩
    rw [RetentionPolicy.as_json, if_pos (by decide +kernel)] at hraw
    obtain rfl := Except.ok.inj hraw
    obtain rfl := Except.ok.inj (hpolicy.symm.trans hback)
    obtain ⟨s, t, a, hs, -⟩ := hsound unending rfl
    exact nomatch hs
  · intro h
    have hfits : Fits MAX_STR_DIGITS beyond := ⟨.inr (by decide +kernel), .inr (by decide +kernel), trivial⟩
    have hreads : reads (room Half) (spaced GAP beyond) = .ok beyond :=
      (reads_spaced isSpace_gap hfits (room Half)).trans (if_pos (by decide))
    rcases (Kpi.from_document_iff _ _).mp h with hempty | ⟨-, hreadable⟩
    · obtain ⟨c, q, hc, -⟩ := spaced_opens GAP beyond
      rw [Option.getD_some, hc] at hempty
      exact List.cons_ne_nil c q hempty
    · exact hreadable beyond hreads (.inl ⟨_, rfl, _, rfl, by decide +kernel⟩)
  · intro h
    refine (from_document_iff _).mp h ?_
    rw [reads_spaced isSpace_gap (fits_nest 10001), nesting_nest]
    exact if_neg (by decide)

end NetCoreNoc.Policies
