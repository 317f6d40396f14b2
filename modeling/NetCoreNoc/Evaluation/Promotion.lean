import Mathlib
import NetCoreNoc.Evaluation.Seal
import NetCoreNoc.Evaluation.Metrics

/-! The promotion gate: the floors and the power condition, the seal, and a verdict of three values (`promotion.py`,
`judge.py`). -/
namespace NetCoreNoc.Evaluation.Promotion
open Holdout (Ledger Session OnRecord Op)
open Runs Components

inductive Verdict where
  | BETTER
  | NOT_BETTER
  | INSUFFICIENT_EVIDENCE
  deriving DecidableEq, Repr

inductive Trigger where
  | FLOOR_UNMET
  | HOLDOUT_UNSPENT
  | THIN_SPLIT
  | POWER
  | COVERAGE_EXCLUSIONS
  | UNKNOWN_POPULATION
  | TRUNCATED_LOAD_BEARING
  | UNSOUND_CHAINS
  | PRE_V080_MERGES
  deriving DecidableEq, Repr

def MIN_INCIDENTS_PER_SIDE : ℤ := 10
def PRE_V080_SHARE : ℚ := 10 / 100

/-- The detection threshold at the observed number of incidents, and the difference beside it. -/
structure Power where
  incidents : ℕ
  detectable : ℚ
  observed_difference : ℚ
  deriving DecidableEq, Repr

def Power.sufficient (p : Power) : Bool := p.detectable < p.observed_difference

/-- What `evaluate` is told of the evidence. -/
structure Evidence where
  floors_met : Bool
  power : Power
  smallest_side : ℤ := 0
  coverage_excluded : ℤ := 0
  unknown_rows : ℤ := 0
  truncated_load_bearing : Bool := false
  unsound_chains : ℤ := 0
  pre_v080_merges : ℤ := 0
  asserting_incidents : ℤ := 0
  deriving DecidableEq, Repr

structure Judgement where
  verdict : Verdict
  triggers : List Trigger
  notes : List String
  floors_met : Bool
  detectable_difference : ℚ
  incidents : ℕ
  observed_difference : ℚ
  query_count : ℕ
  deriving DecidableEq, Repr

def BURIES : String :=
  "§7.6: split_bag_intact_rate is high — the model BURIES splits. v0.9.0's measured " ++
    "policy-B failure repeating, and this number produced the verdict."

def SEPARATES : String :=
  "§7.7: asserted_negative_respected_rate is near 1.0 while under_merge_rate is also " ++
    "high — the challenger is separating everything, so it respects every assertion for " ++
    "free. The two numbers must be read together."

/-- What is listed of the conditions that hold. -/
def fired {α : Type} (conditions : List (Bool × α)) : List α := (conditions.filter (·.1)).map (·.2)

namespace Evidence
variable (e : Evidence) (holdout_spent : Bool)

/-- Every trigger is evaluated; none cuts the others short. -/
def triggers : List Trigger := fired
  [(¬ e.floors_met, .FLOOR_UNMET),
    (¬ holdout_spent, .HOLDOUT_UNSPENT),
    (e.smallest_side < MIN_INCIDENTS_PER_SIDE, .THIN_SPLIT),
    (¬ e.power.sufficient, .POWER),
    (0 < e.coverage_excluded, .COVERAGE_EXCLUSIONS),
    (0 < e.unknown_rows, .UNKNOWN_POPULATION),
    (e.truncated_load_bearing, .TRUNCATED_LOAD_BEARING),
    (0 < e.unsound_chains, .UNSOUND_CHAINS),
    (0 < e.asserting_incidents ∧ PRE_V080_SHARE * e.asserting_incidents < (e.pre_v080_merges : ℚ), .PRE_V080_MERGES)]

def judge (difference_excludes_zero favours_challenger split_bags_buried separates_everything : Bool) (query_count : ℕ) :
    Judgement :=
  let triggers := e.triggers holdout_spent
  let notes := if triggers = [] then fired [(split_bags_buried, BURIES), (separates_everything, SEPARATES)] else []
  let better := difference_excludes_zero ∧ favours_challenger ∧ notes = []
  { verdict := if triggers ≠ [] then .INSUFFICIENT_EVIDENCE else if better then .BETTER else .NOT_BETTER
    triggers := triggers
    notes := notes
    floors_met := e.floors_met
    detectable_difference := e.power.detectable
    incidents := e.power.incidents
    observed_difference := e.power.observed_difference
    query_count := query_count }

end Evidence

structure Decision where
  judgement : Judgement
  metrics : Metrics
  plan_sha256 : String
  unavailable : List String

def Decision.may_apply (d : Decision) : Bool := d.judgement.verdict = .BETTER

/-- The verdict, and the ledger with the read that it took. The seal is read only once the floors and the power
condition hold. -/
def evaluate (metrics : Metrics) (e : Evidence) (l : Ledger) (release plan_sha256 : String) (now : ℚ) :
    Decision × Ledger :=
  let reads := e.floors_met && e.power.sufficient
  let after := if reads then l.spend release plan_sha256 "promotion" now else l
  let access := l.asked plan_sha256
  let holdout_spent := reads && access.isOk
  let unavailable :=
    if reads then
      match access with
      | .ok _ => []
      | .error outcome => ["sealed holdout: " ++ outcome]
    else ["sealed holdout: not read — the floors and the power condition are evaluated first, " ++
      "and the seal is spent when and only when both pass (plan §3)"]
  let headline := HEADLINE_QUANTITIES.map metrics.by_name
  let judgement := e.judge holdout_spent (headline.all (·.excludes_zero)) (headline.all (·.favours_challenger))
    (¬ (metrics.by_name .split_bag_intact_rate).favours_challenger)
    (95 / 100 < (metrics.by_name .asserted_negative_respected_rate).challenger.rate ∧
      ¬ (metrics.by_name .under_merge_rate).favours_challenger)
    after.tables.query_count
  (⟨judgement, metrics, plan_sha256, unavailable⟩, after)

theorem fired_eq_nil {α : Type} {conditions : List (Bool × α)} : fired conditions = [] ↔ ∀ p ∈ conditions, p.1 = false := by
  rw [fired, List.map_eq_nil_iff, List.filter_eq_nil_iff]
  exact forall₂_congr fun p _ => Bool.not_eq_true p.1 ▸ Iff.rfl

/-- The evidence suffices: nothing that would call it insufficient holds. -/
structure Evidence.Sufficient (e : Evidence) (holdout_spent : Bool) : Prop where
  floors : e.floors_met
  holdout : holdout_spent
  side : MIN_INCIDENTS_PER_SIDE ≤ e.smallest_side
  power : e.power.sufficient
  coverage : e.coverage_excluded ≤ 0
  unknown : e.unknown_rows ≤ 0
  truncated : ¬ e.truncated_load_bearing
  chains : e.unsound_chains ≤ 0
  merges : 0 < e.asserting_incidents → (e.pre_v080_merges : ℚ) ≤ PRE_V080_SHARE * e.asserting_incidents

theorem triggers_eq_nil {e : Evidence} {holdout_spent : Bool} :
    e.triggers holdout_spent = [] ↔ e.Sufficient holdout_spent := by
  rw [Evidence.triggers, fired_eq_nil]
  simp only [List.forall_mem_cons, List.not_mem_nil, false_imp_iff, implies_true, and_true, decide_eq_false_iff_not,
    not_lt, not_not, not_and]
  constructor
  · rintro ⟨h1, h2, h3, h4, h5, h6, h7, h8, h9⟩
    exact ⟨h1, h2, h3, h4, h5, h6, Bool.not_eq_true _ ▸ h7, h8, h9⟩
  · rintro ⟨h1, h2, h3, h4, h5, h6, h7, h8, h9⟩
    exact ⟨h1, h2, h3, h4, h5, h6, Bool.not_eq_true _ ▸ h7, h8, h9⟩

theorem judge_better {e : Evidence} {holdout_spent zero favours buried separates : Bool} {query_count : ℕ} :
    (e.judge holdout_spent zero favours buried separates query_count).verdict = .BETTER ↔
      e.triggers holdout_spent = [] ∧ (zero ∧ favours) ∧ ¬ buried ∧ ¬ separates := by
  unfold Evidence.judge
  dsimp only
  by_cases htriggers : e.triggers holdout_spent = []
  · rw [if_neg (not_not.mpr htriggers), if_pos htriggers]
    cases zero <;> cases favours <;> cases buried <;> cases separates <;> simp [htriggers, fired]
  · rw [if_pos htriggers]
    simp [htriggers]

theorem mem_notes {e : Evidence} {holdout_spent zero favours buried separates : Bool} {query_count : ℕ} :
    (BURIES ∈ (e.judge holdout_spent zero favours buried separates query_count).notes ↔
      e.triggers holdout_spent = [] ∧ buried) ∧
    (SEPARATES ∈ (e.judge holdout_spent zero favours buried separates query_count).notes ↔
      e.triggers holdout_spent = [] ∧ separates) := by
  have hne : BURIES ≠ SEPARATES := by decide
  unfold Evidence.judge
  dsimp only
  by_cases htriggers : e.triggers holdout_spent = []
  · rw [if_pos htriggers]
    cases buried <;> cases separates <;> simp [htriggers, fired, hne, hne.symm]
  · rw [if_neg htriggers]
    simp [htriggers]

section Verdicts
variable {metrics : Metrics} {e : Evidence} {l : Ledger} {release plan_sha256 : String} {now : ℚ}

/-- The seal is read, and the plan allows it. -/
def Granted (e : Evidence) (l : Ledger) (plan_sha256 : String) : Bool :=
  (e.floors_met && e.power.sufficient) && (l.asked plan_sha256).isOk

/-- What a verdict of `BETTER` takes. -/
theorem may_apply_iff : (evaluate metrics e l release plan_sha256 now).1.may_apply ↔
    e.Sufficient (Granted e l plan_sha256) ∧
    (∀ name ∈ HEADLINE_QUANTITIES, (metrics.by_name name).excludes_zero ∧ (metrics.by_name name).favours_challenger) ∧
    (metrics.by_name .split_bag_intact_rate).favours_challenger := by
  rw [← triggers_eq_nil]
  have hverdict : (evaluate metrics e l release plan_sha256 now).1.may_apply ↔
      e.triggers (Granted e l plan_sha256) = [] ∧
      ((HEADLINE_QUANTITIES.map metrics.by_name).all (·.excludes_zero) ∧
        (HEADLINE_QUANTITIES.map metrics.by_name).all (·.favours_challenger)) ∧
      (metrics.by_name .split_bag_intact_rate).favours_challenger ∧
      (95 / 100 < (metrics.by_name .asserted_negative_respected_rate).challenger.rate →
        (metrics.by_name .under_merge_rate).favours_challenger) := by
    rw [Decision.may_apply, decide_eq_true_eq]
    refine judge_better.trans (and_congr_right fun _ => and_congr_right fun _ => ?_)
    simp only [decide_eq_true_eq, not_not, not_and]
  rw [hverdict]
  refine and_congr_right fun _ => ?_
  simp only [List.all_eq_true, List.forall_mem_map]
  constructor
  · rintro ⟨⟨hexcludes, hfavours⟩, hintact, -⟩
    exact ⟨fun name hname => ⟨hexcludes name hname, hfavours name hname⟩, hintact⟩
  · rintro ⟨hheadline, hintact⟩
    exact ⟨⟨fun name hname => (hheadline name hname).1, fun name hname => (hheadline name hname).2⟩, hintact,
      fun _ => (hheadline .under_merge_rate (by decide)).2⟩

/-- What is noted against a challenger, where the evidence suffices. -/
theorem notes_iff :
    (BURIES ∈ (evaluate metrics e l release plan_sha256 now).1.judgement.notes ↔ e.Sufficient (Granted e l plan_sha256) ∧
      ¬ (metrics.by_name .split_bag_intact_rate).favours_challenger) ∧
    (SEPARATES ∈ (evaluate metrics e l release plan_sha256 now).1.judgement.notes ↔
      e.Sufficient (Granted e l plan_sha256) ∧
        95 / 100 < (metrics.by_name .asserted_negative_respected_rate).challenger.rate ∧
        ¬ (metrics.by_name .under_merge_rate).favours_challenger) := by
  rw [← triggers_eq_nil]
  obtain ⟨hburies, hseparates⟩ := @mem_notes e (Granted e l plan_sha256)
    ((HEADLINE_QUANTITIES.map metrics.by_name).all (·.excludes_zero))
    ((HEADLINE_QUANTITIES.map metrics.by_name).all (·.favours_challenger)) _ _ _
  exact ⟨hburies.trans (and_congr_right fun _ => decide_eq_true_iff),
    hseparates.trans (and_congr_right fun _ => decide_eq_true_iff)⟩

end Verdicts

section Gate
variable (hash : ℕ × ℕ → ℤ) (d : Dataset) (scorer : Arm) (e : Evidence) (l : Ledger) (release plan_sha256 : String) (now : ℚ)

/-- The gate over what is measured of a candidate. -/
def propose (l : Ledger) : Decision × Ledger := evaluate (d.measure hash scorer) e l release plan_sha256 now

/-- Both arms are measured at a value. -/
def Tied (metrics : Metrics) (name : Name) (best : ℚ) : Prop :=
  (metrics.by_name name).challenger.rate = best ∧ (metrics.by_name name).champion.rate = best

/-- What a promotion that may be applied rests on. -/
structure Earned : Prop where
  floors : e.floors_met
  power : e.power.sufficient
  holdout : ∃ ids, (propose hash d scorer e release plan_sha256 now l).2.acts =
    l.acts ++ [.spent plan_sha256 "promotion" (some ids)] ∧ OnRecord l.acts plan_sha256
  triggers : (propose hash d scorer e release plan_sha256 now l).1.judgement.triggers = []
  better : ∀ name ∈ HEADLINE_QUANTITIES,
    ((d.measure hash scorer).by_name name).excludes_zero ∧ ((d.measure hash scorer).by_name name).favours_challenger

/-- A corpus that calls for a yes: the evidence suffices, the champion errs, the challenger reproduces every verdict, and
its intervals exclude the champion's rates. -/
structure Deserved : Prop where
  sufficient : e.Sufficient (Granted e l plan_sha256)
  errs : ¬ d.Reproduces hash champion
  reproduces : d.Reproduces hash scorer
  excludes : ∀ name ∈ HEADLINE_QUANTITIES, ((d.measure hash scorer).by_name name).excludes_zero

/-- The gate says yes only where it is earned, and where it is deserved; and a secondary rate that is at its best for both
arms is nothing against a challenger. What was asserted is respected for free by one that separates everything, so that
there the challenger is one that reproduces the verdicts. -/
structure Fair : Prop where
  sound : (propose hash d scorer e release plan_sha256 now l).1.may_apply → Earned hash d scorer e l release plan_sha256 now
  complete : Deserved hash d scorer e l plan_sha256 →
    (propose hash d scorer e release plan_sha256 now l).1.judgement.verdict = .BETTER
  buried : Tied (d.measure hash scorer) .split_bag_intact_rate 0 →
    BURIES ∉ (propose hash d scorer e release plan_sha256 now l).1.judgement.notes
  separates : d.Reproduces hash scorer → Tied (d.measure hash scorer) .asserted_negative_respected_rate 1 →
    SEPARATES ∉ (propose hash d scorer e release plan_sha256 now l).1.judgement.notes

end Gate

section Measured
variable {hash : ℕ × ℕ → ℤ} {d : Dataset} {scorer : Arm}

theorem Dataset.Reproduces.excludes_iff (h : d.Reproduces hash scorer) (hrows : d.rows ≠ []) {name : Name}
    (hlower : name ∈ LOWER_IS_BETTER) :
    ((d.measure hash scorer).by_name name).excludes_zero ↔ (d.interval hash champion name).rate ≠ 0 := by
  obtain ⟨-, hlow, hhigh⟩ := h.interval name hlower
  rw [Dataset.measure]
  dsimp only
  rw [if_neg hrows, Quantity.excludes_zero, hlow, hhigh, decide_eq_true_eq, ← le_antisymm_iff]
  exact not_congr eq_comm

/-- A challenger that reproduces every verdict is better on a headline rate wherever its interval excludes the
champion's. -/
theorem Dataset.Reproduces.favours (h : d.Reproduces hash scorer) (hrows : d.rows ≠ []) {name : Name}
    (hname : name ∈ HEADLINE_QUANTITIES) (hexcludes : ((d.measure hash scorer).by_name name).excludes_zero) :
    ((d.measure hash scorer).by_name name).favours_challenger := by
  have hlower : name ∈ LOWER_IS_BETTER := by
    cases name <;> first | decide | exact absurd hname (by decide)
  have hne := (h.excludes_iff hrows hlower).mp hexcludes
  obtain ⟨hrate, -, -⟩ := h.interval name hlower
  rw [Dataset.measure]
  dsimp only
  rw [if_neg hrows, Quantity.favours_challenger, if_pos hlower, decide_eq_true_eq, hrate]
  exact lt_of_le_of_ne (Dataset.headline_nonneg champion hname) hne.symm

/-- It tears no confirmed bag, and is better there exactly where the champion tears one. -/
theorem Dataset.Reproduces.under (h : d.Reproduces hash scorer) (hrows : d.rows ≠ []) :
    ((d.measure hash scorer).by_name .under_merge_rate).favours_challenger ↔
      ∃ i ∈ d.incidents, UnderMerged hash (d.scored champion i) := by
  have hlower : Name.under_merge_rate ∈ LOWER_IS_BETTER := by decide
  obtain ⟨hrate, -, -⟩ := h.interval .under_merge_rate hlower
  rw [Dataset.measure]
  dsimp only
  rw [if_neg hrows, Quantity.favours_challenger, if_pos hlower, decide_eq_true_eq, hrate]
  exact Dataset.under_merge_pos.2

/-- On the split bags it is better exactly where the champion leaves one whole. -/
theorem Dataset.Reproduces.intact (h : d.Reproduces hash scorer) (hrows : d.rows ≠ []) :
    ((d.measure hash scorer).by_name .split_bag_intact_rate).favours_challenger ↔ d.LeavesWhole champion := by
  have hlower : Name.split_bag_intact_rate ∈ LOWER_IS_BETTER := by decide
  obtain ⟨hrate, -, -⟩ := h.interval .split_bag_intact_rate hlower
  rw [Dataset.measure]
  dsimp only
  rw [if_neg hrows, Quantity.favours_challenger, if_pos hlower, decide_eq_true_eq, hrate]
  exact Dataset.intact_pos.2

/-- The interval of a rate excludes nothing where no pair was promoted. -/
theorem rows_of_excludes {name : Name} (h : ((d.measure hash scorer).by_name name).excludes_zero) : d.rows ≠ [] := by
  intro hrows
  rw [Dataset.measure] at h
  dsimp only at h
  rw [if_pos hrows] at h
  exact absurd h (by simp [Quantity.excludes_zero, Interval.empty])

theorem Dataset.LeavesWhole.rows {arm : Arm} (h : d.LeavesWhole arm) : d.rows ≠ [] := by
  rintro hrows
  obtain ⟨i, hi, f, hf, -⟩ := h
  obtain ⟨j, -, rfl⟩ := List.mem_map.mp hi
  obtain ⟨p, hp, -⟩ := Corpus.mem_bagged.mp (Corpus.mem_splitBags.mp hf).1
  rw [Dataset.scored, hrows] at hp
  exact absurd hp List.not_mem_nil

/-- Neither arm leaves a split bag whole. -/
theorem tied_intact : Tied (d.measure hash scorer) .split_bag_intact_rate 0 ↔
    ¬ (d.LeavesWhole champion ∨ d.LeavesWhole scorer) := by
  rw [not_or, Tied, Dataset.measure]
  dsimp only
  split
  · rename_i hrows
    exact iff_of_true ⟨rfl, rfl⟩ ⟨fun h => h.rows hrows, fun h => h.rows hrows⟩
  · have hzero : ∀ arm, (d.interval hash arm .split_bag_intact_rate).rate = 0 ↔ ¬ d.LeavesWhole arm := fun arm => by
      rw [← Dataset.intact_pos.2, not_lt]
      exact Dataset.intact_pos.1.ge_iff_eq'.symm
    rw [hzero, hzero, and_comm]

/-- Both arms respect whatever was asserted. -/
theorem tied_respected : Tied (d.measure hash scorer) .asserted_negative_respected_rate 1 ↔
    d.Asserts ∧ d.Respects scorer ∧ d.Respects champion := by
  rw [Tied, Dataset.measure, Dataset.Asserts]
  dsimp only
  split
  · rename_i hrows
    exact iff_of_false (fun h => absurd h.1 (by decide)) fun h => h.1.1 hrows
  · rename_i hrows
    rw [Dataset.respected_one, Dataset.respected_one]
    exact ⟨fun h => ⟨⟨hrows, h.1.1⟩, h.1.2, h.2.2⟩, fun h => ⟨⟨h.1.2, h.2.1⟩, h.1.2, h.2.2⟩⟩

end Measured

theorem granted_acts {metrics : Metrics} {e : Evidence} {l : Ledger} (hl : l.Sound) {release plan_sha256 : String} {now : ℚ}
    (h : Granted e l plan_sha256) : ∃ ids, (evaluate metrics e l release plan_sha256 now).2.acts =
      l.acts ++ [.spent plan_sha256 "promotion" (some ids)] ∧ OnRecord l.acts plan_sha256 := by
  obtain ⟨hreads, hok⟩ := Bool.and_eq_true_iff.mp h
  rcases hasked : l.asked plan_sha256 with outcome | ids
  · rw [hasked] at hok
    exact nomatch hok
  · refine ⟨ids, ?_, hl.ratified plan_sha256 (Ledger.asked_ok hasked).1⟩
    have hspend : (l.spend release plan_sha256 "promotion" now).acts =
        l.acts ++ [.spent plan_sha256 "promotion" (some ids)] := by
      rw [Ledger.spend, hasked]
    rw [← hspend]
    exact congrArg Ledger.acts (if_pos hreads)

section Notes
variable {hash : ℕ × ℕ → ℤ} {d : Dataset} {scorer : Arm} {e : Evidence} {l : Ledger} {release plan_sha256 : String} {now : ℚ}

theorem buried_iff : (Tied (d.measure hash scorer) .split_bag_intact_rate 0 →
      BURIES ∉ (propose hash d scorer e release plan_sha256 now l).1.judgement.notes) ↔
    (e.Sufficient (Granted e l plan_sha256) → d.LeavesWhole champion ∨ d.LeavesWhole scorer) := by
  rw [propose, notes_iff.1, tied_intact]
  constructor
  · intro h hsufficient
    by_contra hnone
    refine h hnone ⟨hsufficient, fun hfavours => ?_⟩
    obtain ⟨hscorer, hchampion⟩ := (@tied_intact hash d scorer).mpr hnone
    rw [Quantity.favours_challenger, hscorer, hchampion] at hfavours
    split at hfavours <;> exact absurd hfavours (by decide)
  · exact fun h hnone hnoted => hnone (h hnoted.1)

theorem separates_iff (h : d.Reproduces hash scorer) : (Tied (d.measure hash scorer) .asserted_negative_respected_rate 1 →
      SEPARATES ∉ (propose hash d scorer e release plan_sha256 now l).1.judgement.notes) ↔
    (e.Sufficient (Granted e l plan_sha256) → d.Asserts → d.Respects champion →
      ∃ i ∈ d.incidents, UnderMerged hash (d.scored champion i)) := by
  rw [propose, notes_iff.2]
  constructor
  · intro hquiet hsufficient hasserts hchampion
    have htied := (@tied_respected hash d scorer).mpr ⟨hasserts, h.respected, hchampion⟩
    by_contra hnone
    refine hquiet htied ⟨hsufficient, ?_, fun hfavours => hnone ((h.under hasserts.1).mp hfavours)⟩
    rw [htied.1]
    norm_num
  · rintro htears htied ⟨hsufficient, -, hfavours⟩
    obtain ⟨hasserts, -, hchampion⟩ := tied_respected.mp htied
    exact hfavours ((h.under hasserts.1).mpr (htears hsufficient hasserts hchampion))

end Notes

/-- After any operations on the seal, and for every corpus, evidence and scorer: what may be applied is earned; and what is
deserved may be applied, and nothing is noted for a tie, exactly where, whenever the evidence suffices, an arm leaves a
split bag whole, and a champion that respects what was asserted, beside a challenger that reproduces the verdicts, tears a
bag that was confirmed. -/
theorem gate_fair_iff (hash : ℕ × ℕ → ℤ) (d : Dataset) (scorer : Arm) (e : Evidence) (es : List Op)
    (release plan_sha256 : String) (now : ℚ) :
    Fair hash d scorer e (run Session.step {} es).working release plan_sha256 now ↔
      (e.Sufficient (Granted e (run Session.step {} es).working plan_sha256) →
        (d.LeavesWhole champion ∨ d.LeavesWhole scorer) ∧
        (d.Reproduces hash scorer → d.Asserts → d.Respects champion →
          ∃ i ∈ d.incidents, UnderMerged hash (d.scored champion i))) := by
  have hl : (run Session.step {} es).working.Sound := (Session.kept_start.run es).1.working
  generalize (run Session.step {} es).working = l at hl
  constructor
  · intro h hsufficient
    exact ⟨buried_iff.mp h.buried hsufficient, fun hr => (separates_iff hr).mp (h.separates hr) hsufficient⟩
  · intro h
    refine ⟨fun happly => ?_, fun hd => ?_, buried_iff.mpr fun hs => (h hs).1,
      fun hr => (separates_iff hr).mpr fun hs => (h hs).2 hr⟩
    · obtain ⟨hsufficient, hheadline, -⟩ := may_apply_iff.mp happly
      exact ⟨hsufficient.floors, hsufficient.power, granted_acts hl hsufficient.holdout,
        triggers_eq_nil.mpr hsufficient, hheadline⟩
    · have hrows : d.rows ≠ [] := rows_of_excludes (hd.excludes .over_merge_rate (by decide))
      have hwhole : d.LeavesWhole champion := by
        refine (h hd.sufficient).1.resolve_right ?_
        rintro ⟨i, hi, f, hf, hin⟩
        exact hd.reproduces.divided i hi f hf hin
      have hintact := (hd.reproduces.intact hrows).mpr hwhole
      refine of_decide_eq_true (may_apply_iff.mpr ⟨hd.sufficient, fun name hname => ⟨hd.excludes name hname, ?_⟩, hintact⟩)
      exact hd.reproduces.favours hrows hname (hd.excludes name hname)

/-- Labels that a hash tells apart leave no over-merge to measure, by either arm: then nothing is ever better. -/
theorem never_better {hash : ℕ × ℕ → ℤ} {d : Dataset} {scorer : Arm}
    (h : ∀ i ∈ d.incidents, ∀ arm ∈ [scorer, champion], (d.scored arm i).Separates hash) (e : Evidence) (l : Ledger)
    (release plan_sha256 : String) (now : ℚ) : Tied (d.measure hash scorer) .over_merge_rate 0 ∧
      (propose hash d scorer e release plan_sha256 now l).1.judgement.verdict ≠ .BETTER := by
  have hzero : ∀ arm ∈ [scorer, champion], (d.interval hash arm .over_merge_rate).rate = 0 := by
    intro arm harm
    refine Dataset.over_merge_pos.1.antisymm' (not_lt.mp fun hpos => ?_)
    obtain ⟨i, hi, x, hx, y, hy, hxy, hne⟩ := Dataset.over_merge_pos.2.mp hpos
    exact hne (congrArg Prod.fst (h i hi arm harm x hx y hy hxy))
  have htied : Tied (d.measure hash scorer) .over_merge_rate 0 := by
    rw [Tied, Dataset.measure]
    dsimp only
    split
    · exact ⟨rfl, rfl⟩
    · exact ⟨hzero scorer List.mem_cons_self, hzero champion (List.mem_cons_of_mem _ List.mem_cons_self)⟩
  refine ⟨htied, fun hbetter => ?_⟩
  have hfavours := ((may_apply_iff.mp (decide_eq_true hbetter)).2.1 .over_merge_rate (by decide)).2
  rw [Quantity.favours_challenger, htied.1, htied.2] at hfavours
  split at hfavours <;> exact absurd hfavours (by decide)

section Deserving

/-- One incident of three situations: two were confirmed, of which the champion tears one, and one was split, which it
divides. -/
def torn : Dataset where
  corpus :=
    { feedback := [⟨1, 1, "confirm", 10, true, none, none, none⟩, ⟨5, 2, "confirm", 20, true, none, none, none⟩,
        ⟨6, 3, "split", 30, true, none, none, none⟩]
      pairs := [⟨1, 1, true, 11, 12, 5, 0, 0, true, 9⟩, ⟨2, 2, true, 21, 22, 5, 0, 0, false, 19⟩,
        ⟨3, 3, true, 31, 32, 5, 0, 0, false, 29⟩]
      merged_into := [(2, 1), (3, 1)] }

/-- It links what was confirmed, and nothing else. -/
def repaired : Arm := fun p => p.id ≠ 3

def sufficient : Evidence where
  floors_met := true
  power := ⟨120, 15 / 100, 50 / 100⟩
  smallest_side := 30
  asserting_incidents := 30

/-- The seal is cut under the plan that is in force. -/
def sealed_ops : List Op := [.construct "v0.10.0" "c03a" 40 (Holdout.first_label_per_incident torn.corpus)]

def torn_incident : ℕ × List Bag × List Pair :=
  (1, [⟨1, .confirm⟩, ⟨5, .confirm⟩, ⟨6, .split⟩], [⟨1, 1, 11, 12⟩, ⟨2, 5, 21, 22⟩, ⟨3, 6, 31, 32⟩])

theorem incidents_torn : torn.incidents = [torn_incident] := by
  have hone : (torn.bags.map fun b => torn.incident_of b.situation_id).toFinset = {1} := by decide
  rw [Dataset.incidents, hone, Finset.sort_singleton]
  decide

theorem torn_never_better : Tied (torn.measure tuplehash repaired) .over_merge_rate 0 ∧
    (propose tuplehash torn repaired sufficient "v0.14.0" "c03a" 50
      (run Session.step {} sealed_ops).working).1.judgement.verdict ≠ .BETTER := by
  apply never_better
  intro i hi arm harm
  rw [incidents_torn] at hi
  obtain rfl := List.mem_singleton.mp hi
  apply Corpus.separates_of
  rcases List.mem_pair.mp harm with rfl | rfl
  · decide
  · decide

variable {c : Corpus} {f a b : ℕ}

/-- A bag of two alarms, linked. -/
private theorem pair_linked (halarms : c.alarms f = {a, b}) (hab : a < b) (hl : c.Links (Corpus.under f) a b) :
    c.Inside (Corpus.under f) f ∧ ∀ x ∈ c.alarms f, c.component_of f x = a := by
  have hreach : ∀ x ∈ c.alarms f, (c.graph (Corpus.under f)).Reachable x a := by
    intro x hx
    rw [halarms, Finset.mem_insert, Finset.mem_singleton] at hx
    rcases hx with rfl | rfl
    · exact .refl _
    · exact (reachable_iff.mpr (.rel _ _ hl)).symm
  refine ⟨fun x hx y hy => (hreach x hx).trans (hreach y hy).symm, fun x hx => ?_⟩
  refine Corpus.component_of_eq hx (halarms ▸ Finset.mem_insert_self a {b}) (hreach x hx) fun y hy _ => ?_
  rw [halarms, Finset.mem_insert, Finset.mem_singleton] at hy
  rcases hy with rfl | rfl
  · exact le_rfl
  · exact hab.le

/-- A bag whose pairs are not linked: each alarm is a component. -/
private theorem pair_unlinked (hnone : ∀ p ∈ c.pairs, p.feedback_id = f → ¬ c.linked p) (ha : a ∈ c.alarms f)
    (hb : b ∈ c.alarms f) (hab : a ≠ b) :
    ¬ c.Inside (Corpus.under f) f ∧ c.component_of f a = a ∧ c.component_of f b = b := by
  have hself : ∀ x y, (c.graph (Corpus.under f)).Reachable x y → y = x := by
    intro x y hxy
    have hstays : ∀ z w, c.Links (Corpus.under f) z w → (z = x ↔ w = x) ∧ (z = x → False) := by
      rintro z w ⟨p, hp, hl, hf, -⟩
      exact absurd hl (hnone p hp hf)
    exact (Components.Reachable.closed hstays rfl hxy).1
  refine ⟨fun hin => hab (hself a b (hin a ha b hb)).symm, ?_, ?_⟩
  · exact Corpus.component_of_eq ha ha (.refl a) fun y _ hy => (hself a y hy).ge
  · exact Corpus.component_of_eq hb hb (.refl b) fun y _ hy => (hself b y hy).ge

theorem repaired_reproduces : torn.Reproduces tuplehash repaired := by
  have hfacts : (torn.scored repaired torn_incident).confirmBags = {1, 5} ∧
      (torn.scored repaired torn_incident).splitBags = {6} ∧
      (torn.scored repaired torn_incident).alarms 1 = {11, 12} ∧
      (torn.scored repaired torn_incident).alarms 5 = {21, 22} ∧
      31 ∈ (torn.scored repaired torn_incident).alarms 6 ∧ 32 ∈ (torn.scored repaired torn_incident).alarms 6 ∧
      (∀ p ∈ (torn.scored repaired torn_incident).pairs, p.feedback_id = 6 →
        ¬ (torn.scored repaired torn_incident).linked p) ∧
      (∃ p ∈ (torn.scored repaired torn_incident).pairs, (torn.scored repaired torn_incident).linked p ∧
        p.feedback_id = 1 ∧ p.alarm_a = 11 ∧ p.alarm_b = 12) ∧
      (∃ p ∈ (torn.scored repaired torn_incident).pairs, (torn.scored repaired torn_incident).linked p ∧
        p.feedback_id = 5 ∧ p.alarm_a = 21 ∧ p.alarm_b = 22) ∧
      torn.asserting_bags.length = 0 ∧ tuplehash (1, 11) ≠ tuplehash (5, 21) := by decide
  obtain ⟨hconfirm, hsplit, halarms, halarms', h31, h32, hnone, hlinked, hlinked', hasserting, hdiffer⟩ := hfacts
  obtain ⟨hin, hone⟩ := pair_linked halarms (by decide) hlinked
  obtain ⟨hin', hone'⟩ := pair_linked halarms' (by decide) hlinked'
  obtain ⟨hout, -⟩ := pair_unlinked hnone h31 h32 (by decide)
  have hlabel : ∀ x ∈ (torn.scored repaired torn_incident).labels
      ((torn.scored repaired torn_incident).bagged.sort (· ≤ ·)), x = (1, 11) ∨ x = (5, 21) := by
    rintro ⟨g, k⟩ hx
    obtain ⟨hg, a, ha, rfl⟩ := Corpus.mem_labels_sorted.mp hx
    rw [hconfirm, Finset.mem_insert, Finset.mem_singleton] at hg
    rcases hg with rfl | rfl
    · exact .inl (by rw [hone a ha])
    · exact .inr (by rw [hone' a ha])
  refine ⟨fun i hi f hf => ?_, fun i hi x hx y hy hxy => ?_, fun i hi f hf => ?_, fun bag hbag => ?_⟩
  · obtain rfl := List.mem_singleton.mp (incidents_torn ▸ hi)
    rw [hconfirm, Finset.mem_insert, Finset.mem_singleton] at hf
    rcases hf with rfl | rfl
    · exact hin
    · exact hin'
  · obtain rfl := List.mem_singleton.mp (incidents_torn ▸ hi)
    rcases hlabel x hx with rfl | rfl <;> rcases hlabel y hy with rfl | rfl
    · rfl
    · exact absurd hxy hdiffer
    · exact absurd hxy.symm hdiffer
    · rfl
  · obtain rfl := List.mem_singleton.mp (incidents_torn ▸ hi)
    rw [hsplit, Finset.mem_singleton] at hf
    exact hf ▸ hout
  · rw [List.eq_nil_of_length_eq_zero hasserting] at hbag
    exact absurd hbag List.not_mem_nil

/-- No arm whose links are those leaves the split bag whole. -/
theorem divides {arm : Arm} (harm : arm = champion ∨ arm = repaired) : ¬ torn.LeavesWhole arm := by
  have hfacts : (torn.scored arm torn_incident).splitBags = {6} ∧
      31 ∈ (torn.scored arm torn_incident).alarms 6 ∧ 32 ∈ (torn.scored arm torn_incident).alarms 6 ∧
      ∀ p ∈ (torn.scored arm torn_incident).pairs, p.feedback_id = 6 → ¬ (torn.scored arm torn_incident).linked p := by
    rcases harm with rfl | rfl
    · decide
    · decide
  obtain ⟨hsplit, h31, h32, hnone⟩ := hfacts
  rintro ⟨i, hi, f, hf, hin⟩
  obtain rfl := List.mem_singleton.mp (incidents_torn ▸ hi)
  rw [hsplit, Finset.mem_singleton] at hf
  exact (pair_unlinked hnone h31 h32 (by decide)).1 (hf ▸ hin)

/-- The challenger makes no error, neither arm leaves the split bag whole, and the evidence suffices: it is said to bury
splits. -/
theorem tie_refused : torn.Reproduces tuplehash repaired ∧ Tied (torn.measure tuplehash repaired) .split_bag_intact_rate 0 ∧
    BURIES ∈ (propose tuplehash torn repaired sufficient "v0.14.0" "c03a" 50
      (run Session.step {} sealed_ops).working).1.judgement.notes ∧
    ¬ Fair tuplehash torn repaired sufficient (run Session.step {} sealed_ops).working "v0.14.0" "c03a" 50 := by
  have hneither : ¬ (torn.LeavesWhole champion ∨ torn.LeavesWhole repaired) :=
    not_or.mpr ⟨divides (.inl rfl), divides (.inr rfl)⟩
  have hsufficient : sufficient.Sufficient (Granted sufficient (run Session.step {} sealed_ops).working "c03a") :=
    triggers_eq_nil.mp (by decide +kernel)
  have hnoted : ¬ (Tied (torn.measure tuplehash repaired) .split_bag_intact_rate 0 →
      BURIES ∉ (propose tuplehash torn repaired sufficient "v0.14.0" "c03a" 50
        (run Session.step {} sealed_ops).working).1.judgement.notes) :=
    fun h => hneither (buried_iff.mp h hsufficient)
  obtain ⟨htied, hburies⟩ := Classical.not_imp.mp hnoted
  exact ⟨repaired_reproduces, htied, not_not.mp hburies, fun h => hnoted h.buried⟩

end Deserving

end NetCoreNoc.Evaluation.Promotion
