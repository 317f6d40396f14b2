import Mathlib
import NetCoreNoc.Runs
import NetCoreNoc.Operate.League

/-! The scorer's lifecycle: what is loaded at a reload point, what a misbehaving scorer degrades to, and the decider
that is recorded meanwhile (`scorer_lifecycle.py`, `SafeScorer`). -/
namespace NetCoreNoc.Operate.Lifecycle
open Json Evaluation PyArith Runs

structure ConfigRow (F : Type) extends AdditiveScorer F where
  id : ℕ
  params_hash : String

structure ModelRow where
  id : ℕ
  kind : String
  contract_version : String
  params_document : String
  params_hash : String

structure SiteRow (F : Type) where
  id : ℕ
  kind : String
  params_document : String
  created_at : F

inductive Mode where
  | shipped
  | site
  | additive
  deriving DecidableEq, Repr

/-- Why a site's model is no member: the league refuses it, or validating it raises something else. -/
inductive Refusal where
  | league (reason : String)
  | raised (exception : String)

/-- What is fixed while the process runs: the packaged files, the validators of stored documents, the offline order,
Python's `int` of a text, and the wording of a rejection. An error is the exception's name, or what it says. -/
structure Build (F : Type) where
  packaged : Except String (League F)
  site_member : SiteRow F → Except Refusal (Member F)
  scorer_for : String → String → String → Except String (LinkScorer F)
  before : Member F → Member F → Bool
  int : String → Option ℤ
  describe : Rejection F → String

/-- What the store answers one reload, each read on its own, and what a member's latency is measured as. -/
structure Reads (F : Type) where
  decider_mode : Except String Mode
  active_scorer_config : Except String (Option (ConfigRow F))
  active_model_version : Except String (Option ModelRow) := .ok none
  newest_site_model : Except String (Option (SiteRow F)) := .ok none
  /-- the champion of the newest decision -/
  latest_league_decision : Except String (Option String) := .ok none
  decider_pin : Except String (Option String) := .ok none
  measure_latency : String → Except String ℚ := fun _ => .ok 0

/-- A scorer that can be put in use, as the row or the member it comes from. -/
inductive Decider (F : Type) where
  | builtin
  | config (row : ConfigRow F)
  | version (id : ℕ) (scorer : LinkScorer F)
  | member (m : Member F)

structure Provenance where
  decider_ref : String := "additive:default"
  scorer_config_id : Option ℕ := none
  scorer_model_version_id : Option ℕ := none
  deriving DecidableEq, Repr

namespace Decider
variable {F : Type}

def is_builtin : Decider F → Bool
  | builtin => true
  | _ => false

/-- How a decider is named. -/
def provenance : Decider F → Provenance
  | builtin => ⟨"additive:default", none, none⟩
  | config row => ⟨"additive:" ++ toString row.id, some row.id, none⟩
  | version id _ => ⟨"site:" ++ toString id, none, some id⟩
  | member m => ⟨m.ref, none, none⟩

def formula [PyArith F] : Decider F → LinkScorer F
  | builtin => default_scorer.scorer
  | config row => row.scorer
  | version _ scorer => scorer
  | member m => m.scorer

private theorem ref_ne (m : Member F) : m.ref ≠ "additive:default" := by
  intro h
  have hlist := congrArg String.toList h
  obtain ⟨kind, sha256, scorer, origin⟩ := m
  cases origin <;> cases kind <;>
    simp [Member.ref, Kind.text, String.toList_append] at hlist

/-- No other decider goes by the name of the built-in default. -/
theorem provenance_builtin (d : Decider F) :
    d.provenance = (builtin : Decider F).provenance ↔ d.is_builtin := by
  cases d with
  | builtin => exact iff_of_true rfl rfl
  | config row => exact iff_of_false (fun h => nomatch congrArg Provenance.scorer_config_id h) (nomatch ·)
  | version id scorer =>
    exact iff_of_false (fun h => nomatch congrArg Provenance.scorer_model_version_id h) (nomatch ·)
  | member m => exact iff_of_false (fun h => ref_ne m (congrArg Provenance.decider_ref h)) (nomatch ·)

end Decider

/-- Why a scorer was given up. -/
inductive Fault where
  | raised (exception : String)
  | other (type : String)
  | non_finite
  | no_terms
  | over_budget (elapsed : ℚ)

def SCORE_BUDGET_S : ℚ := 1 / 2

/-- What stands between the engine and a scorer that may misbehave. -/
structure SafeScorer (D : Type) where
  delegate : D
  degraded : Bool := false
  failures : ℕ := 0
  last_error : Option Fault := none

namespace SafeScorer

def degrade {D : Type} (s : SafeScorer D) (reason : Fault) : SafeScorer D :=
  { s with failures := s.failures + 1, last_error := some reason, degraded := true }

variable {F : Type} [PyArith F] (s : SafeScorer (Decider F))

/-- The scorer that is actually used. -/
def active : Decider F := if s.degraded then .builtin else s.delegate

/-- What makes an answer no usable verdict. -/
def contract_violation : Answer F → Option Fault
  | .raised exception => some (.raised exception)
  | .other type => some (.other type)
  | .scored result =>
    if !PyFloat.isfinite result.score then some .non_finite
    else if result.terms.isEmpty then some .no_terms
    else none

def overrun (elapsed : ℚ) : Option Fault :=
  if SCORE_BUDGET_S < elapsed then some (.over_budget elapsed) else none

def score (features : Features F) (elapsed : ℚ) : SafeScorer (Decider F) × Answer F :=
  let fallback := (Decider.builtin : Decider F).formula.score features
  if s.degraded then (s, fallback)
  else
    let answer := s.delegate.formula.score features
    match contract_violation answer with
    | some problem => (s.degrade problem, fallback)
    | none =>
      match overrun elapsed with
      -- this call succeeded; the next one uses the default
      | some problem => (s.degrade problem, answer)
      | none => (s, answer)

def fast (vector : List F) (elapsed : ℚ) : SafeScorer (Decider F) × Option (F × Bool) :=
  match s.delegate.formula.logit with
  | none => (s, none)
  | some logit =>
    if s.degraded then (s, none)
    else
      let threshold := s.delegate.formula.threshold
      match logit vector with
      | .error exception => (s.degrade (.raised exception), none)
      | .ok value =>
        if !PyFloat.isfinite value then (s.degrade .non_finite, none)
        else
          let verdict := some (sub value threshold, PyOrder.lt threshold value)
          match overrun elapsed with
          | some problem => (s.degrade problem, verdict)
          | none => (s, verdict)

/-- What a call of the delegate is given up for. -/
def score_fault (features : Features F) (elapsed : ℚ) : Option Fault :=
  (contract_violation (s.delegate.formula.score features)).or (overrun elapsed)

/-- What a call of the delegate's logit is given up for. -/
def fast_fault (vector : List F) (elapsed : ℚ) : Option Fault :=
  s.delegate.formula.logit.bind fun logit =>
    match logit vector with
    | .error exception => some (.raised exception)
    | .ok value => if !PyFloat.isfinite value then some .non_finite else overrun elapsed

/-- A call leaves the delegate as it is, and degrades it for its fault. -/
theorem score_fst (features : Features F) (elapsed : ℚ) : (s.score features elapsed).1 =
    if s.degraded then s else (s.score_fault features elapsed).elim s s.degrade := by
  unfold score score_fault
  dsimp only
  split
  · rfl
  · split
    · rename_i problem hp
      rw [hp]
      rfl
    · rename_i hp
      rw [hp, Option.none_or]
      split <;> rename_i ho <;> rw [ho] <;> rfl

theorem fast_fst (vector : List F) (elapsed : ℚ) : (s.fast vector elapsed).1 =
    if s.degraded then s else (s.fast_fault vector elapsed).elim s s.degrade := by
  unfold fast fast_fault
  split
  · rename_i hl
    rw [hl, Option.bind_none, Option.elim_none, ite_self]
  · rename_i logit hl
    rw [hl, Option.bind_some]
    split
    · rfl
    · split
      · rfl
      · dsimp only
        split
        · rfl
        · split <;> rename_i ho <;> rw [ho] <;> rfl

end SafeScorer

/-- `_loaded_key`: a pair of a model's id, or -1, and a hash, or the three of a configuration. -/
inductive Key where
  | pair (id : ℤ) (hash : String)
  | triple (id : ℤ) (hash : String) (refused : Option String)
  deriving DecidableEq, Repr

def Key.id : Key → ℤ
  | pair id _ => id
  | triple id _ _ => id

structure Engine (F : Type) extends Provenance where
  scorer : SafeScorer (Decider F) := { delegate := .builtin }
  loaded_key : Option Key := none
  scorer_warnings : List String := []
  league_members : Option (League F) := none
  champion : Option (Member F) := none
  challengers : List (Member F) := []
  latency_us : Latencies := []

namespace Engine
variable {F : Type} [PyArith F] (b : Build F) (r : Reads F) (e : Engine F)

def set_scorer (d : Decider F) : Engine F := { e with scorer := { delegate := d } }

def use_default_scorer (reason : String) : Engine F :=
  { e.set_scorer .builtin with
    scorer_config_id := none
    decider_ref := "additive:default"
    scorer_model_version_id := none
    scorer_warnings := [reason ++ ". Correlation is running on the built-in default parameters."] }

/-- The packaged league, with the newest model of this site where it validates. -/
def league_now : Except String (League F) :=
  match b.packaged, r.newest_site_model with
  | .error exception, _ => .error exception
  | .ok _, .error exception => .error exception
  | .ok members, .ok none => .ok members
  | .ok members, .ok (some row) =>
    match b.site_member row with
    | .ok m => .ok (members.with_member m)
    | .error (.league reason) => .ok ⟨members.members, members.refused ++ [("site", reason)]⟩
    | .error (.raised exception) => .error exception

/-- Measure the members that are wanted, in their order, up to the first measurement that raises. -/
def measure (wanted : Latencies → Member F → Bool) : List (Member F) → Latencies → Latencies × Except String Unit
  | [], latency_us => (latency_us, .ok ())
  | m :: ms, latency_us =>
    if wanted latency_us m then
      match r.measure_latency m.ref with
      | .error exception => (latency_us, .error exception)
      | .ok us => measure wanted ms ((m.ref, us) :: latency_us)
    else measure wanted ms latency_us

def unmeasured (latency_us : Latencies) (m : Member F) : Bool := (latency_us.lookup m.ref).isNone

/-- All of them where nothing was measured yet, and then those that came since. -/
def measure_all (ms : List (Member F)) (latency_us : Latencies) : Latencies × Except String Unit :=
  match if latency_us.isEmpty then measure r (fun _ _ => true) ms latency_us else (latency_us, .ok ()) with
  | (latency_us, .error exception) => (latency_us, .error exception)
  | (latency_us, .ok _) => measure r unmeasured ms latency_us

def rstrip (s : String) : String := String.ofList (s.toList.reverse.dropWhile (· = '.')).reverse

/-- `_load_league`: the champion runs, or why no model can decide. -/
def load_league (note : Option String) : Engine F × Except String (Option String) :=
  match league_now b r with
  | .error exception => (e, .ok (some s!"the model league could not be read ({exception})"))
  | .ok members =>
    let refusals := members.refused.map fun p => "The " ++ p.1 ++ " model was refused: " ++ p.2 ++ "."
    let e := { e with league_members := some members }
    if members.members.isEmpty then
      let detail := if refusals.isEmpty then "This build ships no model." else " ".intercalate refusals
      (if e.loaded_key.map Key.id = some (-1) then { e with loaded_key := none } else e,
        .ok (some (rstrip s!"No model can decide. {detail}")))
    else
      match measure_all r members.members e.latency_us with
      | (latency_us, .error exception) => ({ e with latency_us }, .error exception)
      | (latency_us, .ok _) =>
        let e := { e with latency_us }
        match r.latest_league_decision, r.decider_pin with
        | .error exception, _ => (e, .error exception)
        | .ok _, .error exception => (e, .error exception)
        | .ok current, .ok pinned =>
          match (choose b.before members current pinned latency_us).bind members.by_ref with
          | none => (e, .error "AssertionError")
          | some champion =>
            let e := { e with challengers := members.members.filter (·.ref ≠ champion.ref) }
            let key := Key.pair (-1) champion.sha256
            if e.loaded_key = some key then (e, .ok none)
            else
              ({ e.set_scorer (.member champion) with
                loaded_key := some key
                champion := some champion
                scorer_config_id := none
                scorer_model_version_id := none
                decider_ref := champion.ref
                scorer_warnings := refusals ++ note.toList }, .ok none)

/-- `_load_model_version` -/
def load_model_version (row : ModelRow) : Engine F :=
  let key := Key.pair row.id row.params_hash
  if e.loaded_key = some key then e
  else
    let e := { e with loaded_key := some key }
    match b.scorer_for row.kind row.contract_version row.params_document with
    | .error reason => e.use_default_scorer ("stored model version " ++ toString row.id ++ " rejected: " ++ reason)
    | .ok scorer =>
      { e.set_scorer (.version row.id scorer) with
        scorer_config_id := none
        scorer_model_version_id := some row.id
        decider_ref := "site:" ++ toString row.id
        scorer_warnings := [] }

def contract_major (version : String) : Option ℤ := b.int (String.ofList (version.toList.takeWhile (· ≠ '.')))

def CONTRACT_VERSION : String := "1.0"

def check_contract_version (version : String) : Except (Rejection F) Unit :=
  match contract_major b version with
  | none => .error (.malformed version)
  | some major => if some major ≠ contract_major b CONTRACT_VERSION then .error (.unsupported version) else .ok ()

/-- A stored configuration that may run: its contract, and its parameters. -/
def check_config (row : ConfigRow F) : Except (Rejection F) Unit :=
  match check_contract_version b row.contract_version with
  | .error why => .error why
  | .ok _ => row.validate_params

/-- The rest of `load_scorer_config`: the additive formula as configured, with why no model decides. -/
def load_formula (row : Option (ConfigRow F)) (refused : Option String) : Engine F :=
  let fallback := refused.toList.map (· ++ ". Correlation is running on the additive formula as configured.")
  let key := row.map fun row => Key.triple row.id row.params_hash refused
  if key = e.loaded_key then e
  else
    let e := { e with loaded_key := key }
    match row with
    | none =>
      { e.set_scorer .builtin with
        scorer_config_id := none
        scorer_model_version_id := none
        decider_ref := "additive:default"
        scorer_warnings := fallback }
    | some row =>
      match check_config b row with
      | .error why => e.use_default_scorer ("stored scoring configuration rejected: " ++ b.describe why)
      | .ok _ =>
        { e.set_scorer (.config row) with
          decider_ref := "additive:" ++ toString row.id
          scorer_config_id := some row.id
          scorer_model_version_id := none
          scorer_warnings := fallback }

/-- The reads of the mode and of the pointer. -/
def pointer : Except String (Mode × Option (ConfigRow F) × Option ModelRow) := do
  let mode ← r.decider_mode
  let row ← r.active_scorer_config
  let model_row ← if row.isSome then pure none else r.active_model_version
  return (mode, row, model_row)

/-- Whether the league is to decide. -/
def league_decides (mode : Mode) (model_row : Option ModelRow) : Bool :=
  mode = .shipped || mode = .site && model_row.isNone

/-- Why the league decides, where the mode is another. -/
def league_note (mode : Mode) : Option String :=
  if mode = .shipped then none else some "no site model is active, so the league decides"

def load_scorer_config : Engine F × Except String Unit :=
  match pointer r with
  | .error exception =>
    ({ e with loaded_key := none }.use_default_scorer s!"scoring configuration unreadable ({exception})", .ok ())
  | .ok (mode, row, model_row) =>
    if league_decides mode model_row then
      match e.load_league b r (league_note mode) with
      | (e, .error exception) => (e, .error exception)
      | (e, .ok none) => (e, .ok ())
      | (e, .ok (some refused)) => (e.load_formula b row (some refused), .ok ())
    else
      match model_row with
      | some model_row => (e.load_model_version b model_row, .ok ())
      | none => (e.load_formula b row none, .ok ())

/-- What a reload does to the scorer and to its name: both stay, or both are of what is put in use. -/
inductive Reloaded (e : Engine F) (t : Engine F) : Prop where
  | kept : t.scorer = e.scorer → t.toProvenance = e.toProvenance → Reloaded e t
  | installed (d : Decider F) : t.scorer = { delegate := d } → t.toProvenance = d.provenance → Reloaded e t

omit [PyArith F] in
theorem Reloaded.trans {e s t : Engine F} (h : Reloaded e s) (hnext : Reloaded s t) : Reloaded e t := by
  cases hnext with
  | kept hs hn => cases h with
    | kept hs' hn' => exact .kept (hs.trans hs') (hn.trans hn')
    | installed d hs' hn' => exact .installed d (hs.trans hs') (hn.trans hn')
  | installed d hs hn => exact .installed d hs hn

omit [PyArith F] in
theorem load_model_version_reloaded (row : ModelRow) : Reloaded e (e.load_model_version b row) := by
  unfold load_model_version
  dsimp only
  split
  · exact .kept rfl rfl
  · split
    · exact .installed .builtin rfl rfl
    · rename_i scorer _
      exact .installed (.version row.id scorer) rfl rfl

theorem load_formula_reloaded (row : Option (ConfigRow F)) (refused : Option String) :
    Reloaded e (e.load_formula b row refused) := by
  unfold load_formula
  dsimp only
  split
  · exact .kept rfl rfl
  · cases row with
    | none => exact .installed .builtin rfl rfl
    | some row =>
      dsimp only
      split
      · exact .installed .builtin rfl rfl
      · exact .installed (.config row) rfl rfl

omit [PyArith F] in
theorem load_league_reloaded (note : Option String) : Reloaded e (e.load_league b r note).1 := by
  unfold load_league
  split
  · exact .kept rfl rfl
  · dsimp only
    split
    · split <;> exact .kept rfl rfl
    · split
      · exact .kept rfl rfl
      · split
        · exact .kept rfl rfl
        · exact .kept rfl rfl
        · split
          · exact .kept rfl rfl
          · rename_i champion _
            split
            · exact .kept rfl rfl
            · exact .installed (.member champion) rfl rfl

theorem load_scorer_config_reloaded : Reloaded e (e.load_scorer_config b r).1 := by
  unfold load_scorer_config
  split
  · exact .installed .builtin rfl rfl
  · split
    · rename_i mode _ _ _ _
      have hleague := load_league_reloaded b r e (league_note mode)
      split <;> rename_i h <;> rw [h] at hleague
      · exact hleague
      · exact hleague
      · exact hleague.trans (load_formula_reloaded ..)
    · split
      · exact load_model_version_reloaded ..
      · exact load_formula_reloaded ..

/-- The league with the members that a decision can be read for. -/
def members_now : Option (League F) :=
  match league_now b r with
  | .error _ => none
  | .ok members => if members.members.isEmpty then none else some members

/-- The league that a reload reads a decision for, where it comes to that. -/
def consulted : Option (League F) :=
  match pointer r with
  | .error _ => none
  | .ok (mode, _, model_row) => if league_decides mode model_row then members_now b r else none

/-- The reads that are not guarded succeed for a league: a latency, the newest decision, the pin. -/
def Decided (members : League F) : Prop :=
  (∀ m ∈ members.members, unmeasured e.latency_us m → (r.measure_latency m.ref).isOk) ∧
    r.latest_league_decision.isOk ∧ r.decider_pin.isOk

/-- They succeed where they are reached. -/
def Answered : Prop := ∀ members ∈ consulted b r, Decided r e members

instance : Decidable (Answered b r e) := by
  unfold Answered Decided
  infer_instance

omit [PyArith F] in
theorem measure_isOk_all (ms : List (Member F)) (latency_us : Latencies) :
    (measure r (fun _ _ => true) ms latency_us).2.isOk ↔ ∀ m ∈ ms, (r.measure_latency m.ref).isOk := by
  induction ms generalizing latency_us with
  | nil => exact iff_of_true rfl (fun m h => (nomatch h))
  | cons m ms ih =>
    rw [measure, if_pos rfl, List.forall_mem_cons]
    split <;> rename_i h <;> rw [h]
    · exact iff_of_false (nomatch ·) (fun h => nomatch h.1)
    · exact (ih _).trans (iff_and_self.mpr fun _ => rfl)

omit [PyArith F] in
private theorem unmeasured_cons (latency_us : Latencies) (m : Member F) (ref : String) (us : ℚ) :
    unmeasured ((ref, us) :: latency_us) m ↔ m.ref ≠ ref ∧ unmeasured latency_us m := by
  unfold unmeasured
  rw [List.lookup_cons]
  by_cases h : m.ref = ref
  · simp only [h, beq_self_eq_true, Option.isNone_some, Bool.false_eq_true, not_true, ne_eq, false_and]
  · simp only [beq_eq_false_iff_ne.mpr h, h, ne_eq, not_false_eq_true, true_and]

omit [PyArith F] in
theorem measure_isOk_unmeasured (ms : List (Member F)) (latency_us : Latencies) :
    (measure r unmeasured ms latency_us).2.isOk ↔
      ∀ m ∈ ms, unmeasured latency_us m → (r.measure_latency m.ref).isOk := by
  induction ms generalizing latency_us with
  | nil => exact iff_of_true rfl (fun m h => (nomatch h))
  | cons m ms ih =>
    rw [measure, List.forall_mem_cons]
    split <;> rename_i hm
    · split <;> rename_i h
      · refine iff_of_false (nomatch ·) (fun hall => ?_)
        have hok := hall.1 hm
        rw [h] at hok
        exact nomatch hok
      · rw [ih]
        simp only [unmeasured_cons]
        refine ⟨fun hall => ⟨fun _ => h ▸ rfl, fun x hx hun => ?_⟩, fun hall x hx hun => hall.2 x hx hun.2⟩
        -- a member of the same name was measured just now
        by_cases hx' : x.ref = m.ref
        · rw [hx', h]
          rfl
        · exact hall x hx ⟨hx', hun⟩
    · rw [ih]
      exact ⟨fun hall => ⟨fun h => absurd h hm, hall⟩, fun hall => hall.2⟩

omit [PyArith F] in
theorem measure_all_isOk (ms : List (Member F)) (latency_us : Latencies) :
    (measure_all r ms latency_us).2.isOk ↔ ∀ m ∈ ms, unmeasured latency_us m → (r.measure_latency m.ref).isOk := by
  unfold measure_all
  rcases latency_us with - | ⟨p, ps⟩
  · have hnil : ∀ m : Member F, unmeasured [] m := fun _ => rfl
    simp only [List.isEmpty_nil, ↓reduceIte, hnil, true_implies]
    rw [← measure_isOk_all r ms []]
    split <;> rename_i h <;> rw [h]
    refine iff_of_true ((measure_isOk_unmeasured ..).mpr fun m hm _ => ?_) rfl
    have hall := (measure_isOk_all r ms []).mp (h ▸ rfl)
    exact hall m hm
  · exact measure_isOk_unmeasured ..

omit [PyArith F] in
/-- The league's load raises exactly where one of its reads fails. -/
theorem load_league_isOk (note : Option String) :
    (e.load_league b r note).2.isOk ↔ ∀ members ∈ members_now b r, Decided r e members := by
  unfold load_league members_now
  rcases hnow : league_now b r with exception | members
  · exact iff_of_true rfl (fun m h => nomatch h)
  · dsimp only
    split
    · exact iff_of_true rfl (fun m h => nomatch h)
    · rename_i hempty
      have hne : members.members ≠ [] := fun h => hempty (List.isEmpty_iff.mpr h)
      simp only [Option.mem_some_iff, forall_eq', Decided, ← measure_all_isOk]
      split <;> rename_i latency_us _ hlat <;> rw [hlat]
      · exact iff_of_false (nomatch ·) (fun h => nomatch h.1)
      · rcases hdecision : r.latest_league_decision with exception | current
        · exact iff_of_false (nomatch ·) (fun h => nomatch h.2.1)
        · rcases hpin : r.decider_pin with exception | pinned
          · exact iff_of_false (nomatch ·) (fun h => nomatch h.2.2)
          · obtain ⟨champion, hc⟩ := choose_mem b.before hne current pinned latency_us
            dsimp only
            rw [hc]
            dsimp only
            refine iff_of_true ?_ ⟨rfl, rfl, rfl⟩
            split <;> rfl

theorem load_scorer_config_isOk : (e.load_scorer_config b r).2.isOk ↔ Answered b r e := by
  unfold load_scorer_config Answered consulted
  rcases hp : pointer r with exception | ⟨mode, row, model_row⟩
  · exact iff_of_true rfl (fun m h => nomatch h)
  · dsimp only
    split
    · rw [← load_league_isOk b r e (league_note mode)]
      split <;> rename_i h <;> rw [h]
      · exact Iff.rfl
      · exact iff_of_true rfl rfl
      · exact iff_of_true rfl rfl
    · refine iff_of_true ?_ (fun m h => nomatch h)
      split <;> rfl

end Engine

inductive Event (F : Type) where
  | reload (r : Reads F)
  | score (features : Features F) (elapsed : ℚ)
  | fast (vector : List F) (elapsed : ℚ)

/-- The engine, and the exceptions that left a load. -/
structure Process (F : Type) where
  engine : Engine F := {}
  raised : List String := []

section Runs
variable {F : Type} [PyArith F] (b : Build F)

def step (p : Process F) : Event F → Process F
  | .reload r =>
    match p.engine.load_scorer_config b r with
    | (engine, .ok _) => { p with engine }
    | (engine, .error exception) => ⟨engine, p.raised ++ [exception]⟩
  | .score features elapsed => { p with engine.scorer := (p.engine.scorer.score features elapsed).1 }
  | .fast vector elapsed => { p with engine.scorer := (p.engine.scorer.fast vector elapsed).1 }

/-- Every load returned, and the decider that is recorded is the one in use. -/
def Sound (p : Process F) : Prop := p.raised = [] ∧ p.engine.toProvenance = p.engine.scorer.active.provenance

instance (p : Process F) : Decidable (Sound p) := inferInstanceAs (Decidable (_ ∧ _))

/-- A load whose unguarded reads succeed where they are reached; a call that is answered well, or is of the default. -/
def Steady (p : Process F) : Event F → Prop
  | .reload r => Engine.Answered b r p.engine
  | .score features elapsed =>
    p.engine.scorer.delegate.is_builtin ∨ (p.engine.scorer.score_fault features elapsed).isNone
  | .fast vector elapsed => p.engine.scorer.delegate.is_builtin ∨ (p.engine.scorer.fast_fault vector elapsed).isNone

/-- The delegate is the one that is named, and none but the default degrades. -/
structure Named (p : Process F) : Prop where
  returned : p.raised = []
  name : p.engine.toProvenance = p.engine.scorer.delegate.provenance
  fallback : p.engine.scorer.degraded → p.engine.scorer.delegate.is_builtin

omit [PyArith F] in
theorem is_builtin_iff (d : Decider F) : d.is_builtin ↔ d = .builtin := by
  cases d <;> simp [Decider.is_builtin]

variable {p : Process F}

omit [PyArith F] in
theorem Named.sound (h : Named p) : Sound p := by
  refine ⟨h.returned, h.name.trans ?_⟩
  unfold SafeScorer.active
  split
  · rename_i hd
    rw [(is_builtin_iff _).mp (h.fallback hd)]
  · rfl

omit [PyArith F] in
/-- A scorer that degrades keeps its name, which is the default's only where it is the default. -/
private theorem Named.degrade (h : Named p) (fault : Option Fault) :
    (Sound { p with engine.scorer := fault.elim p.engine.scorer p.engine.scorer.degrade } ↔
      p.engine.scorer.delegate.is_builtin ∨ fault.isNone) ∧
    (p.engine.scorer.delegate.is_builtin ∨ fault.isNone →
      Named { p with engine.scorer := fault.elim p.engine.scorer p.engine.scorer.degrade }) := by
  cases fault with
  | none => exact ⟨iff_of_true h.sound (.inr rfl), fun _ => h⟩
  | some reason =>
    have hactive : (p.engine.scorer.degrade reason).active = .builtin := rfl
    constructor
    · rw [← Decider.provenance_builtin, Sound]
      simp only [Option.elim_some, hactive, h.returned, true_and, Option.isNone_some, Bool.false_eq_true, or_false,
        h.name]
    · exact fun hsteady => ⟨h.returned, h.name, fun _ => hsteady.resolve_right (nomatch ·)⟩

omit [PyArith F] in
private theorem Named.call (h : Named p) (fault : Option Fault) (scorer : SafeScorer (Decider F))
    (hs : scorer = if p.engine.scorer.degraded then p.engine.scorer
      else fault.elim p.engine.scorer p.engine.scorer.degrade) :
    (Sound { p with engine.scorer := scorer } ↔ p.engine.scorer.delegate.is_builtin ∨ fault.isNone) ∧
    (p.engine.scorer.delegate.is_builtin ∨ fault.isNone → Named { p with engine.scorer := scorer }) := by
  rcases hd : p.engine.scorer.degraded
  · rw [hs, hd]
    exact h.degrade fault
  · rw [hs, hd]
    exact ⟨iff_of_true h.sound (.inl (h.fallback hd)), fun _ => h⟩

omit [PyArith F] in
theorem Named.reloaded (h : Named p) {t : Engine F} (ht : Engine.Reloaded p.engine t) :
    Named { p with engine := t } := by
  cases ht with
  | kept hs hn =>
    refine ⟨h.returned, ?_, ?_⟩
    · rw [hn, hs]
      exact h.name
    · rw [hs]
      exact h.fallback
  | installed d hs hn =>
    refine ⟨h.returned, ?_, ?_⟩
    · rw [hn, hs]
    · rw [hs]
      exact (nomatch ·)

/-- Where the decider in use is named, a step leads to where it is if and only if the step is steady. -/
theorem Named.step (h : Named p) (e : Event F) :
    (Sound (step b p e) ↔ Steady b p e) ∧ (Steady b p e → Named (step b p e)) := by
  cases e with
  | reload r =>
    have hok := Engine.load_scorer_config_isOk b r p.engine
    have hloaded := h.reloaded (Engine.load_scorer_config_reloaded b r p.engine)
    unfold Lifecycle.step Steady
    dsimp only
    split <;> rename_i hload <;> rw [hload] at hok hloaded
    · exact ⟨iff_of_true hloaded.sound (hok.mp rfl), fun _ => hloaded⟩
    · have hno : ¬ Engine.Answered b r p.engine := fun hr => nomatch hok.mpr hr
      exact ⟨iff_of_false (fun hs => List.append_ne_nil_of_right_ne_nil _ (List.cons_ne_nil _ _) hs.1) hno,
        fun hr => absurd hr hno⟩
  | score features elapsed => exact h.call _ _ (SafeScorer.score_fst ..)
  | fast vector elapsed => exact h.call _ _ (SafeScorer.fast_fst ..)

/-- In every run from the start, up to any event, each load returned and the decider in use was the one recorded, if and
only if the reads of the league's decision succeed where they are reached and no scorer but the default degrades. -/
theorem decider_recorded (es : List (Event F)) : Sound ({} : Process F) ∧
    (Meets (step b) (fun p e => Sound (step b p e)) {} es ↔ Meets (step b) (Steady b) {} es) := by
  have hstart : Named ({} : Process F) := ⟨rfl, rfl, (nomatch ·)⟩
  exact ⟨hstart.sound, meets_congr (fun p e h => (Named.step b h e).1) (fun p e h => (Named.step b h e).2)
    ({} : Process F) es hstart⟩

end Runs

/-- A packaged model whose scorer raises. -/
private def failing : Member Half :=
  ⟨.gam, "5f1e", ⟨"gam", fun _ => .raised "ZeroDivisionError", .half 0, none⟩, .pretrained⟩

private def shipped : Build Half where
  packaged := .ok ⟨[failing], []⟩
  site_member _ := .error (.league "not fitted")
  scorer_for _ _ _ := .error "not fitted"
  before _ _ := true
  int := String.toInt?
  describe _ := ""

private def served : Reads Half := ⟨.ok .shipped, .ok none, .ok none, .ok none, .ok none, .ok none, fun _ => .ok 20⟩

private def pair : Features Half := ⟨⟨.half 0, .half 0, .half 0, none⟩, 1, 2⟩

private def degraded : Process Half := run (step shipped) {} [.reload served, .score pair 0, .reload served]

/-- The champion raises at the first pair, and its name stays while the default formula scores; and where the newest
decision cannot be read, the load raises. -/
theorem degraded_recorded :
    (¬ ∀ es : List (Event Half), Meets (step shipped) (fun p e => Sound (step shipped p e)) {} es) ∧
      degraded.raised = [] ∧ degraded.engine.decider_ref = "gam:5f1e" ∧ degraded.engine.scorer.active.is_builtin ∧
      (run (step shipped) {} [.reload { served with latest_league_decision := .error "OperationalError" }]).raised =
        ["OperationalError"] := by
  refine ⟨fun h => ?_, by decide +kernel⟩
  have hrun := h [.reload served, .score pair 0]
  revert hrun
  decide +kernel

end NetCoreNoc.Operate.Lifecycle
