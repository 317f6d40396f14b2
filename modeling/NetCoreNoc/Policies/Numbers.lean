import Mathlib
import NetCoreNoc.Policies.Values

/-! Policies of a few numbers, their stored texts, and what these are read as: the retention of the dataset
(`engine/dataset/retention_policy.py`) and the classification KPI (`engine/operate/deadline.py`). -/
namespace NetCoreNoc.Policies
open Json Checks

/-- What `json.dumps` writes behind a comma and a colon where it is not told. -/
def GAP : Str := [chr ' ']

theorem isSpace_gap : ∀ c ∈ GAP, isSpace c := fun _ hc => List.mem_singleton.mp hc ▸ rfl

structure RetentionPolicy (F : Type) where
  sink_days : F
  sink_rows : ℤ
  training_days : F
  audit_days : F
  deriving DecidableEq

structure Kpi (F : Type) where
  target_s : F
  limit_s : F
  deriving DecidableEq

def MAX_KPI_S : ℚ := 86400

variable {F : Type} [PyFloat F] [Python F]
open Python (rank)

namespace RetentionPolicy
variable (p : RetentionPolicy F)

/-- `dict(zip(TIER_NAMES, …))`, its keys in their order -/
def document : Doc F := .obj [(lit "audit_days", .float p.audit_days), (lit "sink_days", .float p.sink_days),
  (lit "sink_rows", .int p.sink_rows), (lit "training_days", .float p.training_days)]

/-- An integer of too many digits is not written. -/
def as_json : Except PyError Str :=
  if digitCount p.sink_rows ≤ MAX_STR_DIGITS then .ok (spaced GAP p.document) else .error .ValueError

def validate : Option Str :=
  if (rank p.sink_days).le (.finite 0) ∨ (rank p.training_days).le (.finite 0) ∨ (rank p.audit_days).le (.finite 0) then
    some (lit "every retention tier must be greater than zero days")
  else if p.sink_rows ≤ 0 then some (lit "the sink row cap must be greater than zero")
  else if (rank p.training_days).le (rank p.sink_days) then
    some (lit "sink retention (" ++ strOf (.float p.sink_days) ++ lit " d) must be strictly less than training retention (" ++
      strOf (.float p.training_days) ++ lit (" d): the sink holds rows whose destiny is unknown, so it cannot outlive " ++
      "the corpus they are promoted into"))
  else if (rank p.audit_days).lt (rank p.training_days) then
    some (lit "training retention (" ++ strOf (.float p.training_days) ++ lit " d) must not exceed audit retention (" ++
      strOf (.float p.audit_days) ++ lit " d): the corpus cannot outlive its own provenance")
  else none

/-- The policy of a document. -/
def read (data : Doc F) : Except PyError (RetentionPolicy F) := do
  let sink_days ← float_at data (lit "sink_days")
  let sink_rows ← int_at data (lit "sink_rows")
  let training_days ← float_at data (lit "training_days")
  let audit_days ← float_at data (lit "audit_days")
  .ok ⟨sink_days, sink_rows, training_days, audit_days⟩

def from_json (raw : Str) : Except PyError (Option (RetentionPolicy F)) := do
  let policy ← except [.TypeError, .ValueError, .KeyError, .IndexError] (reads (Python.room F) raw >>= read)
  .ok (policy.filter fun p => p.validate = none)

end RetentionPolicy

namespace Kpi

def problems (target_s limit_s : F) : List Str :=
  let out := [(lit "target", target_s), (lit "limit", limit_s)].flatMap fun e =>
    if PyFloat.isfinite e.2 ∧ (Rank.finite 0).lt (rank e.2) ∧ (rank e.2).le (.finite MAX_KPI_S) then []
    else [lit "the " ++ e.1 ++ lit " must be above 0 and at most 86400 seconds"]
  if out = [] ∧ (rank limit_s).lt (rank target_s) then [lit "the target cannot be later than the limit"] else out

def document (k : Kpi F) : Doc F := .obj [(lit "target_s", .float k.target_s), (lit "limit_s", .float k.limit_s)]

def to_document (k : Kpi F) : Str := spaced GAP k.document

def read (data : Doc F) : Except PyError (Kpi F) := do
  let target_s ← float_at data (lit "target_s")
  let limit_s ← float_at data (lit "limit_s")
  .ok ⟨target_s, limit_s⟩

def from_document (document : Option Str) (default : Kpi F) : Except PyError (Kpi F) :=
  if document.getD [] = [] then .ok default
  else do
    let kpi ← except [.ValueError, .TypeError, .KeyError] (reads (Python.room F) (document.getD []) >>= read)
    .ok ((kpi.filter fun k => problems k.target_s k.limit_s = []).getD default)

end Kpi

/-! What is asked of a policy, of what a text is read as, and which texts are read so. -/

namespace RetentionPolicy

/-- Finite tiers in their order. -/
def Sound (p : RetentionPolicy F) : Prop := ∃ s t a : ℚ,
  rank p.sink_days = .finite s ∧ rank p.training_days = .finite t ∧ rank p.audit_days = .finite a ∧
    0 < s ∧ s < t ∧ t ≤ a ∧ 0 < p.sink_rows

/-- No tier is a NaN, and the last ends. -/
def Bounded (p : RetentionPolicy F) : Prop :=
  rank p.sink_days ≠ .nan ∧ rank p.training_days ≠ .nan ∧ rank p.audit_days ≠ .nan ∧ rank p.audit_days ≠ .infinity

omit [PyFloat F] in
theorem validate_none {p : RetentionPolicy F} (h : p.validate = none) :
    (¬ (rank p.sink_days).le (.finite 0) ∧ ¬ (rank p.training_days).le (.finite 0) ∧ ¬ (rank p.audit_days).le (.finite 0)) ∧
      0 < p.sink_rows ∧ ¬ (rank p.training_days).le (rank p.sink_days) ∧ ¬ (rank p.audit_days).lt (rank p.training_days) := by
  unfold validate at h
  split at h
  · exact nomatch h
  next hdays =>
  split at h
  · exact nomatch h
  next hrows =>
  split at h
  · exact nomatch h
  next hsink =>
  split at h
  · exact nomatch h
  next haudit =>
  rw [not_or, not_or] at hdays
  exact ⟨hdays, not_le.mp hrows, hsink, haudit⟩

theorem positive {r : Rank} (h : ¬ r.le (.finite 0)) : r = .nan ∨ r = .infinity ∨ ∃ q : ℚ, 0 < q ∧ r = .finite q := by
  cases r with
  | nan => exact .inl rfl
  | infinity => exact .inr (.inl rfl)
  | neg_infinity => exact absurd rfl h
  | finite q => exact .inr (.inr ⟨q, not_le.mp fun hq => h (decide_eq_true hq), rfl⟩)

omit [PyFloat F] in
theorem sound_iff {p : RetentionPolicy F} (h : p.validate = none) : p.Sound ↔ p.Bounded := by
  obtain ⟨⟨hsink, htraining, haudit⟩, hrows, hst, hta⟩ := validate_none h
  constructor
  · rintro ⟨s, t, a, hs, ht, ha, -⟩
    rw [Bounded, hs, ht, ha]
    exact ⟨nofun, nofun, nofun, nofun⟩
  · rintro ⟨hsnan, htnan, hanan, hainf⟩
    obtain ⟨a, hapos, ha⟩ := ((positive haudit).resolve_left hanan).resolve_left hainf
    rw [ha] at hta
    obtain ⟨t, htpos, ht⟩ := ((positive htraining).resolve_left htnan).resolve_left fun hinf => hta (by rw [hinf]; rfl)
    rw [ht] at hst hta
    obtain ⟨s, hspos, hs⟩ := ((positive hsink).resolve_left hsnan).resolve_left fun hinf => hst (by rw [hinf]; rfl)
    rw [hs] at hst
    have hlt : s < t := not_le.mp fun hle => hst (decide_eq_true hle)
    have hle : t ≤ a := not_lt.mp fun hlt => hta (decide_eq_true hlt)
    exact ⟨s, t, a, hs, ht, ha, hspos, hlt, hle, hrows⟩

/-- The first of the entries, as they are read, that is beyond what it is read as. -/
def Overflows (data : Doc F) : Prop :=
  (∃ d, entry data (lit "sink_days") = some d ∧ TooLarge d) ∨
  (∃ x : F, float_at data (lit "sink_days") = .ok x) ∧ ((∃ d, entry data (lit "sink_rows") = some d ∧ Endless d) ∨
  (∃ n, int_at data (lit "sink_rows") = .ok n) ∧ ((∃ d, entry data (lit "training_days") = some d ∧ TooLarge d) ∨
  (∃ x : F, float_at data (lit "training_days") = .ok x) ∧ ∃ d, entry data (lit "audit_days") = some d ∧ TooLarge d))

theorem read_overflow {data : Doc F} : read data = .error .OverflowError ↔ Overflows data := by
  unfold read Overflows
  simp only [bind_error, float_at_overflow, int_at_overflow, reduceCtorEq, and_false, exists_false, or_false,
    exists_and_right]

theorem only_read (data : Doc F) : Only Converts (read data) :=
  (only_float_at _ _).bind fun _ _ => (only_int_at _ _).bind fun _ _ => (only_float_at _ _).bind fun _ _ =>
    (only_float_at _ _).bind fun _ _ => only_ok

/-- A text that the stack has room for, without a number beyond its type, and without a tier that no comparison
refuses though it is none. -/
structure Readable (F : Type) [PyFloat F] [Python F] (raw : Str) : Prop where
  shallow : reads (F := F) (Python.room F) raw ≠ .error .RecursionError
  representable : ∀ data : Doc F, reads (Python.room F) raw = .ok data → ¬ Overflows data
  bounded : ∀ data : Doc F, reads (Python.room F) raw = .ok data → ∀ p, read data = .ok p → p.validate = none → p.Bounded

theorem from_json_iff (raw : Str) : (∃ policy : Option (RetentionPolicy F), from_json raw = .ok policy ∧ ∀ p ∈ policy, p.Sound) ↔
    Readable F raw := by
  have hcatches : Catches [.TypeError, .ValueError, .KeyError, .IndexError] := by decide
  have hreads := except_reads hcatches (fun data : Doc F => only_caught (only_read data) (by decide)) (Python.room F) raw
  constructor
  · rintro ⟨policy, h, hsound⟩
    obtain ⟨o, ho, hpolicy⟩ := bind_ok.mp h
    obtain ⟨hshallow, hconverts⟩ := hreads.mp ⟨o, ho⟩
    refine ⟨hshallow, fun data hdata hover => hconverts data hdata (read_overflow.mpr hover), ?_⟩
    intro data hdata p hp hvalid
    obtain rfl := Except.ok.inj (ho.symm.trans (except_some.mpr (bind_ok.mpr ⟨data, hdata, hp⟩)))
    refine (sound_iff hvalid).mp (hsound p ?_)
    rw [← Except.ok.inj hpolicy]
    exact Option.filter_eq_some_iff.mpr ⟨rfl, decide_eq_true hvalid⟩
  · intro h
    obtain ⟨o, ho⟩ := hreads.mpr ⟨h.shallow, fun data hdata hover => h.representable data hdata (read_overflow.mp hover)⟩
    refine ⟨_, bind_ok.mpr ⟨o, ho, rfl⟩, fun p hp => ?_⟩
    obtain ⟨rfl, hvalid⟩ := Option.filter_eq_some_iff.mp hp
    obtain ⟨data, hdata, hread⟩ := bind_ok.mp (except_some.mp ho)
    have hvalid := of_decide_eq_true hvalid
    exact (sound_iff hvalid).mpr (h.bounded data hdata p hread hvalid)

omit [PyFloat F] [Python F] in
theorem back_document (p : RetentionPolicy F) : back p.document = p.document := rfl

theorem read_document (p : RetentionPolicy F) : read p.document = .ok p := rfl

variable [LawfulPyFloat F]

theorem from_json_as_json {p : RetentionPolicy F} (h : p.validate = none) :
    (∃ raw, p.as_json = .ok raw ∧ from_json raw = .ok (some p)) ↔
      digitCount p.sink_rows ≤ MAX_STR_DIGITS ∧ 1 ≤ Python.room F := by
  unfold as_json
  by_cases hdigits : digitCount p.sink_rows ≤ MAX_STR_DIGITS
  · have hfits : Fits MAX_STR_DIGITS p.document := ⟨trivial, trivial, .inr hdigits, trivial, trivial⟩
    have hreads := reads_spaced isSpace_gap hfits (Python.room F)
    have hnesting : nesting p.document = 1 := rfl
    rw [back_document, hnesting] at hreads
    rw [if_pos hdigits, and_iff_right hdigits]
    constructor
    · rintro ⟨raw, hraw, hback⟩
      obtain rfl := Except.ok.inj hraw
      obtain ⟨o, ho, -⟩ := bind_ok.mp hback
      by_contra hroom
      rw [hreads, within, if_neg hroom] at ho
      exact nomatch ho
    · intro hroom
      refine ⟨_, rfl, ?_⟩
      rw [from_json, hreads, within, if_pos hroom, ok_bind, read_document]
      exact congrArg Except.ok (if_pos (decide_eq_true h))
  · rw [if_neg hdigits]
    exact iff_of_false (fun ⟨_, hraw, _⟩ => nomatch hraw) fun h => hdigits h.1

end RetentionPolicy

namespace Kpi

/-- A target within a limit within a day. -/
def Sound (k : Kpi F) : Prop := ∃ t l : ℚ,
  rank k.target_s = .finite t ∧ rank k.limit_s = .finite l ∧ 0 < t ∧ t ≤ l ∧ l ≤ MAX_KPI_S

/-- The first of the entries, as they are read, that is an integer beyond the floats. -/
def Overflows (data : Doc F) : Prop :=
  (∃ d, entry data (lit "target_s") = some d ∧ TooLarge d) ∨
  (∃ x : F, float_at data (lit "target_s") = .ok x) ∧ ∃ d, entry data (lit "limit_s") = some d ∧ TooLarge d

theorem read_overflow {data : Doc F} : read data = .error .OverflowError ↔ Overflows data := by
  unfold read Overflows
  simp only [bind_error, float_at_overflow, reduceCtorEq, and_false, exists_false, or_false, exists_and_right]

theorem only_read (data : Doc F) : Only Converts (read data) :=
  (only_float_at _ _).bind fun _ _ => (only_float_at _ _).bind fun _ _ => only_ok

/-- No text, or one that the stack has room for and that holds no integer beyond the floats. -/
def Readable (F : Type) [PyFloat F] [Python F] (document : Option Str) : Prop :=
  document.getD [] = [] ∨ reads (F := F) (Python.room F) (document.getD []) ≠ .error .RecursionError ∧
    ∀ data : Doc F, reads (Python.room F) (document.getD []) = .ok data → ¬ Overflows data

theorem sound_of_problems [LawfulPython F] {k : Kpi F} (h : problems k.target_s k.limit_s = []) : k.Sound := by
  unfold problems at h
  dsimp only at h
  split at h
  · exact nomatch h
  next hlate =>
  have hin (e : Str × F) (he : e ∈ [(lit "target", k.target_s), (lit "limit", k.limit_s)]) :
      ∃ q : ℚ, rank e.2 = .finite q ∧ 0 < q ∧ q ≤ MAX_KPI_S := by
    have hnone := List.flatMap_eq_nil_iff.mp h e he
    split at hnone
    · next hgood =>
      obtain ⟨hfinite, hpos, hle⟩ := hgood
      obtain ⟨q, hq⟩ := (LawfulPython.finite e.2).mp hfinite
      rw [hq] at hpos hle
      exact ⟨q, hq, of_decide_eq_true hpos, of_decide_eq_true hle⟩
    · exact nomatch hnone
  obtain ⟨t, ht, htpos, -⟩ := hin _ List.mem_cons_self
  obtain ⟨l, hl, -, hle⟩ := hin _ (List.mem_cons_of_mem _ List.mem_cons_self)
  refine ⟨t, l, ht, hl, htpos, not_lt.mp fun hlt => hlate ⟨h, ?_⟩, hle⟩
  rw [ht, hl]
  exact decide_eq_true hlt

theorem from_document_iff [LawfulPython F] (document : Option Str) (default : Kpi F) :
    (∃ k, from_document document default = .ok k ∧ (k = default ∨ k.Sound)) ↔ Readable F document := by
  unfold from_document Readable
  by_cases hnone : document.getD [] = []
  · rw [if_pos hnone]
    exact iff_of_true ⟨default, rfl, .inl rfl⟩ (.inl hnone)
  rw [if_neg hnone, or_iff_right hnone]
  have hcatches : Catches [.ValueError, .TypeError, .KeyError] := by decide
  have hreads := except_reads hcatches (fun data : Doc F => only_caught (only_read data) (by decide)) (Python.room F)
    (document.getD [])
  simp only [ne_eq, read_overflow] at hreads
  rw [← hreads]
  constructor
  · rintro ⟨k, h, -⟩
    obtain ⟨o, ho, -⟩ := bind_ok.mp h
    exact ⟨o, ho⟩
  · rintro ⟨o, ho⟩
    refine ⟨_, bind_ok.mpr ⟨o, ho, rfl⟩, ?_⟩
    cases hk : o.filter fun k => problems k.target_s k.limit_s = [] with
    | none => exact .inl rfl
    | some k => exact .inr (sound_of_problems (of_decide_eq_true (Option.filter_eq_some_iff.mp hk).2))

omit [PyFloat F] [Python F] in
theorem back_document (k : Kpi F) : back k.document = k.document := rfl

theorem read_document (k : Kpi F) : read k.document = .ok k := rfl

theorem from_document_to_document [LawfulPyFloat F] {k : Kpi F} (default : Kpi F) (h : problems k.target_s k.limit_s = []) :
    from_document (some k.to_document) default = .ok k ↔ 1 ≤ Python.room F := by
  have hfits : Fits MAX_STR_DIGITS k.document := ⟨trivial, trivial, trivial⟩
  have hreads := reads_spaced isSpace_gap hfits (Python.room F)
  have hnesting : nesting k.document = 1 := rfl
  rw [back_document, hnesting] at hreads
  have htext : ¬ (some k.to_document).getD [] = [] := by
    obtain ⟨c, q, hc, -⟩ := spaced_opens GAP k.document
    rw [Option.getD_some, to_document, hc]
    exact List.cons_ne_nil c q
  rw [from_document, if_neg htext, Option.getD_some, to_document, hreads, within]
  by_cases hroom : 1 ≤ Python.room F
  · rw [if_pos hroom, ok_bind, read_document]
    refine iff_of_true (congrArg Except.ok ?_) hroom
    exact congrArg (Option.getD · default) (if_pos (decide_eq_true h))
  · rw [if_neg hroom]
    exact iff_of_false (fun hk => nomatch hk) hroom

end Kpi

end NetCoreNoc.Policies
