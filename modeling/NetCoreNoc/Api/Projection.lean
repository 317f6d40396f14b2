import Mathlib

/-! What a scoped reader is answered of a situation: its detail as the store builds it, and its row of the list, each
projected to the members in scope (`project.py`, `naming.py`, `situation_reads.py`, `link_terms.py`). -/
namespace NetCoreNoc.Api.Projection

structure Scope where
  unrestricted : Bool
  ne_ids : Finset ℕ := ∅

def Scope.allows_ne (s : Scope) (ne_id : Option ℕ) : Bool := s.unrestricted || ne_id.any (· ∈ s.ne_ids)

def NO_MEMBERS : String := "(no members)"
def MAX_NAME_CHARS : ℕ := 120
def STORM_ALARMS : ℕ := 50

/-- `sorted(set(…))` -/
def sorted_set (l : List String) : List String := l.dedup.insertionSort (· ≤ ·)

/-- `derive_situation_name`, of all the addresses there are. -/
def derive_situation_name (addresses : List String) (member_count : ℕ) : String :=
  match sorted_set (addresses.filter (· ≠ "")) with
  | [] => NO_MEMBERS
  | first :: rest =>
    if member_count = 0 then NO_MEMBERS
    else
      let lead := if STORM_ALARMS ≤ member_count then "Storm -> " ++ first else first
      let name := match rest with
        | [] => lead
        | second :: _ =>
          if rest.length = 1 ∧ member_count = 2 then first ++ " <-> " ++ second
          else lead ++ " and " ++ toString rest.length ++ " more"
      String.ofList (name.toList.take MAX_NAME_CHARS)

/-- A member as it is served; what the projection does not look at is `columns`. -/
structure Alarm (κ : Type) where
  id : ℕ
  ne_id : Option ℕ
  device_ip : String
  class_name : Option String
  class_oid : String
  columns : κ
  deriving DecidableEq

/-- `class_name or class_oid` -/
def Alarm.class_ {κ : Type} (a : Alarm κ) : String :=
  match a.class_name with
  | some name => if name = "" then a.class_oid else name
  | none => a.class_oid

/-- A row of the situation's own table. -/
@[ext]
structure Head where
  id : ℕ
  status : String
  created_at : ℚ
  updated_at : ℚ
  closed_at : Option ℚ := none
  root_alarm_id : Option ℕ := none
  scorer_config_id : Option ℕ := none
  merged_into : Option ℕ := none
  resolution : Option String := none
  derived_name : Option String := none
  operator_name : Option String := none
  decider : Option String := none
  severity : Option String := none
  severity_by : Option String := none
  model_name : Option String := none
  proposed_into : Option ℕ := none
  proposal_confidence : Option ℚ := none
  deriving DecidableEq, Repr

/-- A stored link, with what its `terms` read as, where they are readable: the names, and the rest of it. -/
structure Link (lam τ : Type) where
  alarm_a : ℕ
  alarm_b : ℕ
  columns : lam
  terms : Option (List String × τ)
  deriving DecidableEq

/-- A link as it is served: its names are an index into the situation's table. -/
structure ServedLink (lam τ : Type) where
  alarm_a : ℕ
  alarm_b : ℕ
  columns : lam
  explanation : Option (ℕ × τ)
  deriving DecidableEq

section Compact
variable {lam τ : Type}

/-- The loop of `compact`. -/
def compact : List (Link lam τ) → List (List String) → List (List String) × List (ServedLink lam τ)
  | [], table => (table, [])
  | l :: ls, table =>
    match l.terms with
    | none =>
      let (table, served) := compact ls table
      (table, ⟨l.alarm_a, l.alarm_b, l.columns, none⟩ :: served)
    | some (names, rest) =>
      let next := if names ∈ table then table else table ++ [names]
      let (table, served) := compact ls next
      (table, ⟨l.alarm_a, l.alarm_b, l.columns, some (next.idxOf names, rest)⟩ :: served)

/-- A link, over the whole table. -/
def Link.serve (table : List (List String)) (l : Link lam τ) : ServedLink lam τ :=
  ⟨l.alarm_a, l.alarm_b, l.columns, l.terms.map fun t => (table.idxOf t.1, t.2)⟩

/-- The names that are new to a table, each once, as the links come to them. -/
def fresh : List (Link lam τ) → List (List String) → List (List String)
  | [], _ => []
  | l :: ls, table =>
    match l.terms with
    | none => fresh ls table
    | some (names, _) => if names ∈ table then fresh ls table else names :: fresh ls (table ++ [names])

theorem compact_fst (ls : List (Link lam τ)) (table : List (List String)) :
    (compact ls table).1 = table ++ fresh ls table := by
  induction ls generalizing table with
  | nil => rw [compact, fresh, List.append_nil]
  | cons l ls ih =>
    rw [compact, fresh]
    split
    · exact ih table
    · dsimp only
      rw [ih]
      split
      · rfl
      · rw [List.append_assoc, List.singleton_append]

/-- The table only grows, so an index into it stays right. -/
theorem compact_eq (ls : List (Link lam τ)) (table : List (List String)) :
    (compact ls table).2 = ls.map (Link.serve (compact ls table).1) := by
  induction ls generalizing table with
  | nil => rfl
  | cons l ls ih =>
    rw [compact]
    split
    · rename_i h
      rw [List.map_cons, Link.serve, h, Option.map_none, ← ih]
    · rename_i names rest h
      dsimp only
      have hmem : names ∈ if names ∈ table then table else table ++ [names] := by
        split
        · assumption
        · exact List.mem_append_right _ List.mem_cons_self
      rw [List.map_cons, Link.serve, h, Option.map_some, ← ih, compact_fst, List.idxOf_append_of_mem hmem]

end Compact

section
variable {κ lam τ ε : Type}

/-- A situation as it is stored: its members in the order they are served, its links in theirs, its history. -/
structure Situation (κ lam τ ε : Type) where
  head : Head
  alarms : List (Alarm κ)
  links : List (Link lam τ)
  events : List ε
  nodup : (alarms.map (·.id)).Nodup := by decide
  positive : ∀ a ∈ alarms, a.id ≠ 0 := by decide

structure Redacted where
  count : ℕ
  classes : List String
  note : String
  deriving DecidableEq, Repr

/-- What is answered of a situation. -/
@[ext]
structure Detail (κ lam τ ε : Type) where
  head : Head
  alarms : List (Alarm κ)
  links : List (ServedLink lam τ)
  link_terms : List (List String)
  events : List ε
  redacted_members : Option Redacted := none
  deriving DecidableEq

/-- Both ends of a link are among some ids. -/
def within (ids : List ℕ) (alarm_a alarm_b : ℕ) : Bool := alarm_a ∈ ids && alarm_b ∈ ids

namespace Situation
variable (s : Situation κ lam τ ε)

/-- The links of the current members. -/
def member_links : List (Link lam τ) := s.links.filter fun l => within (s.alarms.map (·.id)) l.alarm_a l.alarm_b

def situation_detail : Detail κ lam τ ε where
  head := s.head
  alarms := s.alarms
  links := (compact s.member_links []).2
  link_terms := (compact s.member_links []).1
  events := s.events

/-- `situation_member_ne` -/
def situation_member_ne : List (ℕ × Option ℕ) := s.alarms.map fun a => (a.id, a.ne_id)

/-- `situation_member_nes` -/
def situation_member_nes : List (Option ℕ) := s.alarms.map (·.ne_id)

end Situation

/-- `member_ne_ids.get(id or -1)` -/
def ne_of (member_ne_ids : List (ℕ × Option ℕ)) (id : ℕ) : Option ℕ :=
  if id = 0 then none else (member_ne_ids.lookup id).join

def redaction (hidden : List (Alarm κ)) : Redacted where
  count := hidden.length
  classes := sorted_set (hidden.map Alarm.class_)
  note := toString hidden.length ++ " further member(s) of this situation are outside your visibility " ++
    "scope and are not shown. Scoping hides them from you; it does not stop them correlating."

def project_situation_detail (detail : Detail κ lam τ ε) (scope : Scope) (member_ne_ids : List (ℕ × Option ℕ)) :
    Option (Detail κ lam τ ε) :=
  if scope.unrestricted then some detail
  else
    let visible := detail.alarms.filter fun a => scope.allows_ne (ne_of member_ne_ids a.id)
    let hidden := detail.alarms.filter fun a => !scope.allows_ne (ne_of member_ne_ids a.id)
    if visible.isEmpty then none
    else
      let visible_ids := visible.map (·.id)
      let links := detail.links.filter fun l => within visible_ids l.alarm_a l.alarm_b
      let derived_name := if hidden.isEmpty then detail.head.derived_name
        else some (derive_situation_name (visible.map (·.device_ip)) visible.length)
      let root_alarm_id := if detail.head.root_alarm_id.any (· ∈ visible_ids) then detail.head.root_alarm_id else none
      some { detail with
        head := { detail.head with derived_name, root_alarm_id }
        alarms := visible
        links
        redacted_members := if hidden.isEmpty then detail.redacted_members else some (redaction hidden) }

/-- A row of the situations' list. -/
@[ext]
structure Row where
  id : ℕ
  status : String
  resolution : Option String
  derived_name : Option String
  operator_name : Option String
  model_name : Option String
  proposed_into : Option ℕ
  proposal_confidence : Option ℚ
  created_at : ℚ
  updated_at : ℚ
  root_alarm_id : Option ℕ
  alarm_count : ℕ
  redacted_count : Option ℕ := none
  deriving DecidableEq, Repr

def Situation.list_row (s : Situation κ lam τ ε) : Row :=
  ⟨s.head.id, s.head.status, s.head.resolution, s.head.derived_name, s.head.operator_name, s.head.model_name,
    s.head.proposed_into, s.head.proposal_confidence, s.head.created_at, s.head.updated_at, s.head.root_alarm_id,
    s.alarms.length, none⟩

def project_situation_row (row : Row) (member_nes : List (Option ℕ)) (scope : Scope) : Option Row :=
  let shown := (member_nes.filter scope.allows_ne).length
  if shown = 0 then none
  else
    let redacted := member_nes.length - shown
    let out := { row with alarm_count := shown, redacted_count := some redacted }
    some (if redacted ≠ 0 then { out with derived_name := none } else out)

namespace Situation
variable (scope : Scope) (s : Situation κ lam τ ε)

def visible : List (Alarm κ) := s.alarms.filter fun a => scope.allows_ne a.ne_id
def hidden : List (Alarm κ) := s.alarms.filter fun a => !scope.allows_ne a.ne_id

/-- The links whose two ends are visible. -/
def visible_links : List (Link lam τ) :=
  s.links.filter fun l => within ((s.visible scope).map (·.id)) l.alarm_a l.alarm_b

/-- The root hint, where it is not suppressed. -/
def shown_root : Option ℕ :=
  if scope.unrestricted || s.head.root_alarm_id.any (· ∈ (s.visible scope).map (·.id)) then s.head.root_alarm_id
  else none

theorem lookup_ne {a : Alarm κ} (h : a ∈ s.alarms) : ne_of s.situation_member_ne a.id = a.ne_id := by
  rw [ne_of, if_neg (s.positive a h), situation_member_ne]
  have hnodup := s.nodup
  generalize s.alarms = l at h hnodup
  induction l with
  | nil => exact nomatch h
  | cons x l ih =>
    rw [List.map_cons, List.nodup_cons] at hnodup
    rw [List.map_cons, List.lookup_cons]
    rcases List.mem_cons.mp h with rfl | h
    · rw [beq_self_eq_true]
      rfl
    · have hne : a.id ≠ x.id := fun heq => hnodup.1 (heq ▸ List.mem_map_of_mem h)
      rw [beq_eq_false_iff_ne.mpr hne]
      exact ih h hnodup.2

theorem filter_ne (f : Option ℕ → Bool) :
    (s.alarms.filter fun a => f (ne_of s.situation_member_ne a.id)) = s.alarms.filter fun a => f a.ne_id :=
  List.filter_congr fun a h => by rw [s.lookup_ne h]

theorem visible_links_member :
    (s.member_links.filter fun l => within ((s.visible scope).map (·.id)) l.alarm_a l.alarm_b) =
      s.visible_links scope := by
  rw [member_links, visible_links, List.filter_filter]
  refine List.filter_congr fun l _ => ?_
  have hsub : ∀ i ∈ (s.visible scope).map (·.id), i ∈ s.alarms.map (·.id) := fun i hi => by
    obtain ⟨a, ha, rfl⟩ := List.mem_map.mp hi
    exact List.mem_map_of_mem (List.mem_of_mem_filter ha)
  rw [Bool.and_eq_left_iff_imp]
  intro h
  obtain ⟨ha, hb⟩ := Bool.and_eq_true_iff.mp h
  exact Bool.and_eq_true_iff.mpr
    ⟨decide_eq_true (hsub _ (of_decide_eq_true ha)), decide_eq_true (hsub _ (of_decide_eq_true hb))⟩

/-- The members' names for the terms of their links, each once, as the links come to them. -/
def term_names : List (List String) := fresh s.member_links []

theorem link_terms_eq : s.situation_detail.link_terms = s.term_names := by
  rw [situation_detail, compact_fst, List.nil_append, term_names]

theorem links_eq : s.situation_detail.links = s.member_links.map (Link.serve s.term_names) := by
  have hterms := s.link_terms_eq
  rw [situation_detail] at hterms ⊢
  rw [← hterms]
  exact compact_eq _ _

/-- The answer to a reader of a scope who is answered at all. -/
def answer : Detail κ lam τ ε where
  head := { s.head with
    derived_name := if (s.hidden scope).isEmpty then s.head.derived_name
      else some (derive_situation_name ((s.visible scope).map (·.device_ip)) (s.visible scope).length)
    root_alarm_id := s.shown_root scope }
  alarms := s.visible scope
  links := (s.visible_links scope).map (Link.serve s.term_names)
  link_terms := s.term_names
  events := s.events
  redacted_members := if (s.hidden scope).isEmpty then none else some (redaction (s.hidden scope))

variable {scope} in
theorem visible_unrestricted (h : scope.unrestricted = true) : s.visible scope = s.alarms :=
  List.filter_eq_self.mpr fun a _ => by rw [Scope.allows_ne, h, Bool.true_or]

variable {scope} in
theorem hidden_unrestricted (h : scope.unrestricted = true) : s.hidden scope = [] :=
  List.filter_eq_nil_iff.mpr fun a _ => by rw [Scope.allows_ne, h, Bool.true_or]; exact Bool.false_ne_true

theorem project_eq : project_situation_detail s.situation_detail scope s.situation_member_ne =
    if !scope.unrestricted && (s.visible scope).isEmpty then none else some (s.answer scope) := by
  have hvisible : (s.situation_detail.alarms.filter fun a => scope.allows_ne (ne_of s.situation_member_ne a.id)) =
      s.visible scope := s.filter_ne scope.allows_ne
  have hhidden : (s.situation_detail.alarms.filter fun a => !scope.allows_ne (ne_of s.situation_member_ne a.id)) =
      s.hidden scope := s.filter_ne fun ne => !scope.allows_ne ne
  have hlinks : (s.situation_detail.links.filter fun l => within ((s.visible scope).map (·.id)) l.alarm_a l.alarm_b) =
      (s.visible_links scope).map (Link.serve s.term_names) := by
    rw [s.links_eq, List.filter_map]
    exact congrArg (List.map _) (s.visible_links_member scope)
  unfold project_situation_detail
  rcases h : scope.unrestricted
  · have hroot : s.shown_root scope = if s.situation_detail.head.root_alarm_id.any (· ∈ (s.visible scope).map (·.id))
        then s.situation_detail.head.root_alarm_id else none := by
      rw [shown_root, h, Bool.false_or]
      rfl
    rw [if_neg Bool.false_ne_true]
    dsimp only
    rw [hvisible, hhidden, hlinks, answer, ← link_terms_eq, hroot]
    rfl
  · have hall : s.visible_links scope = s.member_links := by
      rw [visible_links, s.visible_unrestricted h, member_links]
    have hroot : s.shown_root scope = s.head.root_alarm_id := by
      rw [shown_root, h, Bool.true_or, if_pos rfl]
    rw [if_pos rfl, answer, hall, ← s.links_eq, ← s.link_terms_eq, s.visible_unrestricted h, s.hidden_unrestricted h,
      hroot]
    rfl

/-- What the projection keeps of the rest: two situations agree on it, the root hint and the names of the terms as far
as they are answered, and the derived name where nothing is hidden. -/
structure KeptAgree (s t : Situation κ lam τ ε) : Prop where
  resolution : s.head.resolution = t.head.resolution
  merged_into : s.head.merged_into = t.head.merged_into
  scorer_config_id : s.head.scorer_config_id = t.head.scorer_config_id
  decider : s.head.decider = t.head.decider
  severity : s.head.severity = t.head.severity
  severity_by : s.head.severity_by = t.head.severity_by
  model_name : s.head.model_name = t.head.model_name
  proposed_into : s.head.proposed_into = t.head.proposed_into
  proposal_confidence : s.head.proposal_confidence = t.head.proposal_confidence
  events : s.events = t.events
  root : s.shown_root scope = t.shown_root scope
  derived_name : s.hidden scope = [] → s.head.derived_name = t.head.derived_name
  names : s.term_names = t.term_names

/-- The same of a row of the list, which keeps the root hint as it is. -/
structure RowAgree (s t : Situation κ lam τ ε) : Prop where
  resolution : s.head.resolution = t.head.resolution
  model_name : s.head.model_name = t.head.model_name
  proposed_into : s.head.proposed_into = t.head.proposed_into
  proposal_confidence : s.head.proposal_confidence = t.head.proposal_confidence
  root : s.head.root_alarm_id = t.head.root_alarm_id
  derived_name : s.hidden scope = [] → s.head.derived_name = t.head.derived_name

/-- A severity that a person set, and who. -/
def operator_severity (h : Head) : Option (Option String × String) :=
  match h.severity_by with
  | some who => if "model:".toList.isPrefixOf who.toList then none else some (h.severity, who)
  | none => none

/-- Two situations are alike to a reader of a scope. -/
structure Alike (s t : Situation κ lam τ ε) : Prop where
  id : s.head.id = t.head.id
  status : s.head.status = t.head.status
  created_at : s.head.created_at = t.head.created_at
  updated_at : s.head.updated_at = t.head.updated_at
  closed_at : s.head.closed_at = t.head.closed_at
  operator_name : s.head.operator_name = t.head.operator_name
  operator_severity : operator_severity s.head = operator_severity t.head
  visible : s.visible scope = t.visible scope
  links : s.visible_links scope = t.visible_links scope
  count : (s.hidden scope).length = (t.hidden scope).length
  classes : sorted_set ((s.hidden scope).map Alarm.class_) = sorted_set ((t.hidden scope).map Alarm.class_)

variable {scope} {s} {t : Situation κ lam τ ε}

theorem Alike.hidden_nil (h : Alike scope s t) : s.hidden scope = [] ↔ t.hidden scope = [] := by
  rw [← List.length_eq_zero_iff, h.count, List.length_eq_zero_iff]

theorem Alike.redaction (h : Alike scope s t) : redaction (s.hidden scope) = redaction (t.hidden scope) := by
  rw [Projection.redaction, Projection.redaction, h.count, h.classes]

/-- Situations that are alike are answered the same if and only if they agree on what is kept. -/
theorem Alike.answer_iff (h : Alike scope s t) : s.answer scope = t.answer scope ↔ KeptAgree scope s t := by
  constructor
  · intro heq
    obtain ⟨-, -, -, -, -, hroot, hconfig, hmerged, hresolution, hname, -, hdecider, hseverity, hby, hmodel, hproposed,
      hconfidence⟩ := Head.ext_iff.mp (congrArg Detail.head heq)
    refine ⟨hresolution, hmerged, hconfig, hdecider, hseverity, hby, hmodel, hproposed, hconfidence,
      congrArg Detail.events heq, hroot, fun hnil => ?_, congrArg Detail.link_terms heq⟩
    simp only [answer, hnil, h.hidden_nil.mp hnil, List.isEmpty_nil, ↓reduceIte] at hname
    exact hname
  · intro hk
    have hname : (s.answer scope).head.derived_name = (t.answer scope).head.derived_name := by
      simp only [answer, h.visible]
      by_cases hnil : s.hidden scope = []
      · rw [hnil, h.hidden_nil.mp hnil]
        exact hk.derived_name hnil
      · rw [if_neg (fun he => hnil (List.isEmpty_iff.mp he)),
          if_neg (fun he => hnil (h.hidden_nil.mpr (List.isEmpty_iff.mp he)))]
    have hredacted : (s.answer scope).redacted_members = (t.answer scope).redacted_members := by
      simp only [answer, h.redaction]
      by_cases hnil : s.hidden scope = []
      · rw [hnil, h.hidden_nil.mp hnil]
      · rw [if_neg (fun he => hnil (List.isEmpty_iff.mp he)),
          if_neg (fun he => hnil (h.hidden_nil.mpr (List.isEmpty_iff.mp he)))]
    have hlinks : (s.answer scope).links = (t.answer scope).links := by
      simp only [answer, h.links, hk.names]
    exact Detail.ext (Head.ext h.id h.status h.created_at h.updated_at h.closed_at hk.root hk.scorer_config_id
      hk.merged_into hk.resolution hname h.operator_name hk.decider hk.severity hk.severity_by hk.model_name
      hk.proposed_into hk.proposal_confidence) h.visible hlinks hk.names hk.events hredacted

variable (scope) (s) in
/-- The row of a reader of a scope who is listed it. -/
def listed : Row where
  id := s.head.id
  status := s.head.status
  resolution := s.head.resolution
  derived_name := if (s.hidden scope).isEmpty then s.head.derived_name else none
  operator_name := s.head.operator_name
  model_name := s.head.model_name
  proposed_into := s.head.proposed_into
  proposal_confidence := s.head.proposal_confidence
  created_at := s.head.created_at
  updated_at := s.head.updated_at
  root_alarm_id := s.head.root_alarm_id
  alarm_count := (s.visible scope).length
  redacted_count := some (s.hidden scope).length

variable (scope) (s) in
theorem row_eq : project_situation_row s.list_row s.situation_member_nes scope =
    if (s.visible scope).isEmpty then none else some (s.listed scope) := by
  have hshown : (s.situation_member_nes.filter scope.allows_ne).length = (s.visible scope).length := by
    rw [situation_member_nes, List.filter_map, List.length_map]
    rfl
  have hredacted : s.situation_member_nes.length - (s.visible scope).length = (s.hidden scope).length := by
    have hsplit := List.length_eq_length_filter_add (l := s.alarms) fun a => scope.allows_ne a.ne_id
    rw [situation_member_nes, List.length_map, hsplit, visible, hidden, Nat.add_sub_cancel_left]
  unfold project_situation_row
  dsimp only
  rw [hshown, hredacted]
  by_cases hvisible : s.visible scope = []
  · rw [hvisible]
    rfl
  · rw [if_neg (fun h => hvisible (List.length_eq_zero_iff.mp h)), if_neg (fun h => hvisible (List.isEmpty_iff.mp h))]
    by_cases hhidden : s.hidden scope = []
    · rw [listed, hhidden]
      rfl
    · rw [listed, if_pos (fun h => hhidden (List.length_eq_zero_iff.mp h)),
        if_neg (fun h => hhidden (List.isEmpty_iff.mp h))]
      rfl

/-- Rows of situations that are alike are the same if and only if they agree on what a row keeps. -/
theorem Alike.row_iff (h : Alike scope s t) (hvisible : s.visible scope ≠ []) :
    project_situation_row s.list_row s.situation_member_nes scope =
      project_situation_row t.list_row t.situation_member_nes scope ↔ RowAgree scope s t := by
  have hsome : ¬ (s.visible scope).isEmpty := fun he => hvisible (List.isEmpty_iff.mp he)
  have hempty : (s.hidden scope).isEmpty = (t.hidden scope).isEmpty := by
    rw [Bool.eq_iff_iff, List.isEmpty_iff, List.isEmpty_iff, h.hidden_nil]
  rw [row_eq, row_eq, ← h.visible, if_neg hsome, if_neg hsome, Option.some.injEq]
  constructor
  · intro heq
    obtain ⟨-, -, hresolution, hname, -, hmodel, hproposed, hconfidence, -, -, hroot, -, -⟩ := Row.ext_iff.mp heq
    refine ⟨hresolution, hmodel, hproposed, hconfidence, hroot, fun hnil => ?_⟩
    simp only [listed, hnil, h.hidden_nil.mp hnil, List.isEmpty_nil, ↓reduceIte] at hname
    exact hname
  · intro hk
    have hname : (if (s.hidden scope).isEmpty then s.head.derived_name else none) =
        if (t.hidden scope).isEmpty then t.head.derived_name else none := by
      rw [← hempty]
      split
      · rename_i hnil
        exact hk.derived_name (List.isEmpty_iff.mp hnil)
      · rfl
    exact Row.ext h.id h.status hk.resolution hname h.operator_name hk.model_name hk.proposed_into
      hk.proposal_confidence h.created_at h.updated_at hk.root (congrArg List.length h.visible) (congrArg some h.count)

/-- Two situations that are alike to a reader get one answer, in the detail and in the list, if and only if the reader
sees no member of them, or they agree on what the projection keeps. -/
theorem projections_alike (scope : Scope) (s t : Situation κ lam τ ε) (h : Alike scope s t) :
    (project_situation_detail s.situation_detail scope s.situation_member_ne =
        project_situation_detail t.situation_detail scope t.situation_member_ne ↔
      scope.unrestricted = false ∧ s.visible scope = [] ∨ KeptAgree scope s t) ∧
    (project_situation_row s.list_row s.situation_member_nes scope =
        project_situation_row t.list_row t.situation_member_nes scope ↔
      s.visible scope = [] ∨ RowAgree scope s t) := by
  constructor
  · rw [project_eq, project_eq, ← h.visible]
    by_cases hnone : scope.unrestricted = false ∧ s.visible scope = []
    · rw [hnone.1, hnone.2]
      exact iff_of_true rfl (.inl ⟨rfl, rfl⟩)
    · have hsome : ¬ (!scope.unrestricted && (s.visible scope).isEmpty) := by
        rw [Bool.and_eq_true, Bool.not_eq_true', List.isEmpty_iff]
        exact hnone
      rw [if_neg hsome, if_neg hsome, Option.some.injEq, h.answer_iff]
      exact (or_iff_right hnone).symm
  · by_cases hnone : s.visible scope = []
    · rw [row_eq, row_eq, ← h.visible, hnone]
      exact iff_of_true rfl (.inl rfl)
    · rw [h.row_iff hnone]
      exact (or_iff_right hnone).symm

end Situation

end

namespace Situation

/-- A situation of an element in scope and of another one, whose address and alarm are given, with a model's name. -/
private def across (id : ℕ) (address : String) (model_name : Option String) : Situation Unit Unit Unit Unit where
  head := { id := 1, status := "open", created_at := 10, updated_at := 20, root_alarm_id := some id, model_name }
  alarms := [⟨1, some 1, "10.0.0.1", some "linkDown", "1.3.6.1.6.3.1.1.5.3", ()⟩,
    ⟨id + 2, some 2, address, some "linkDown", "1.3.6.1.6.3.1.1.5.3", ()⟩]
  links := []
  events := []
  nodup := by simp
  positive := by simp

private def first_only : Scope := ⟨false, {1}⟩

private theorem across_alike (i j : ℕ) (a b : String) (m n : Option String) :
    Alike first_only (across i a m) (across j b n) :=
  ⟨rfl, rfl, rfl, rfl, rfl, rfl, rfl, rfl, rfl, rfl, rfl⟩

theorem projections_alike_hidden :
    project_situation_detail (across 1 "10.0.0.8" none).situation_detail first_only
        (across 1 "10.0.0.8" none).situation_member_ne =
      project_situation_detail (across 1 "10.0.0.9" none).situation_detail first_only
        (across 1 "10.0.0.9" none).situation_member_ne :=
  (projections_alike first_only _ _ (across_alike 1 1 "10.0.0.8" "10.0.0.9" none none)).1.mpr
    (.inr ⟨rfl, rfl, rfl, rfl, rfl, rfl, rfl, rfl, rfl, rfl, rfl, fun _ => rfl, rfl⟩)

/-- A model's name is answered with the address of an element out of scope, and a row with the id of its alarm. -/
theorem model_name_leaks :
    ¬ ∀ (scope : Scope) (s t : Situation Unit Unit Unit Unit), Alike scope s t →
      project_situation_detail s.situation_detail scope s.situation_member_ne =
          project_situation_detail t.situation_detail scope t.situation_member_ne ∧
        project_situation_row s.list_row s.situation_member_nes scope =
          project_situation_row t.list_row t.situation_member_nes scope := by
  intro h
  have hnames := (h first_only _ _ (across_alike 1 1 "10.0.0.8" "10.0.0.9" (some "linkDown x2 · 10.0.0.8 (+1 elements)")
    (some "linkDown x2 · 10.0.0.9 (+1 elements)"))).1
  revert hnames
  decide +kernel

end Situation

end NetCoreNoc.Api.Projection
