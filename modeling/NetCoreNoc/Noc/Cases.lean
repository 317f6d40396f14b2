import Mathlib

/-! A case of the NOC: its statuses and the table of its moves (`engine/noc/cases.py`), its row and its
queue cycles (`store/noc_cases.py`, `store/noc_routing.py`). The feed, which no act reads back, and the
columns that only a view reads are left out. -/
namespace NetCoreNoc.Noc

/-- What a pending case waits on. -/
inductive Pending where
  | connectivity
  | customer
  | device_access
  | dispatch
  | fiber_provider
  | field_tech
  | maintenance
  | monitoring
  | rca
  | site_access
  | vendor
  deriving DecidableEq, Repr

inductive Status where
  | new
  | auto
  | queue
  | working
  | pending (on : Pending)
  | validate
  | resolved
  | closed
  deriving DecidableEq, Repr

def Pending.word : Pending → String
  | .connectivity => "connectivity"
  | .customer => "customer"
  | .device_access => "device_access"
  | .dispatch => "dispatch"
  | .fiber_provider => "fiber_provider"
  | .field_tech => "field_tech"
  | .maintenance => "maintenance"
  | .monitoring => "monitoring"
  | .rca => "rca"
  | .site_access => "site_access"
  | .vendor => "vendor"

/-- `PENDING`, sorted. -/
def PENDING : List Pending :=
  [.connectivity, .customer, .device_access, .dispatch, .fiber_provider, .field_tech, .maintenance, .monitoring,
    .rca, .site_access, .vendor]

/-- `STATUSES` -/
def Status.label : Status → String
  | .new => "New"
  | .auto => "Automated checks"
  | .queue => "NOC queue"
  | .working => "Working"
  | .pending .customer => "Pending customer"
  | .pending .fiber_provider => "Pending carrier / fiber provider"
  | .pending .maintenance => "Pending scheduled maintenance"
  | .pending .dispatch => "Pending dispatch (technician)"
  | .pending .device_access => "Pending access to the device"
  | .pending .connectivity => "Pending connectivity (no ping / SNMP / SSH)"
  | .pending .vendor => "Pending equipment vendor"
  | .pending .site_access => "Pending site access approval"
  | .pending .field_tech => "Pending field technician on site"
  | .pending .rca => "Pending root cause analysis"
  | .pending .monitoring => "Pending monitoring (watching for stability)"
  | .validate => "Validate resolution"
  | .resolved => "Resolved"
  | .closed => "Closed"

/-- `LIVE`: not yet over. -/
def Status.live : Status → Bool
  | .resolved | .closed => false
  | _ => true

/-- `UNOWNED` -/
def Status.unowned : Status → Bool
  | .new | .auto | .queue => true
  | _ => false

/-- The status is one of `PENDING`. -/
def Status.pends : Status → Bool
  | .pending _ => true
  | _ => false

inductive Priority where
  | critical
  | major
  | minor
  deriving DecidableEq, Repr

/-- What the Broker shows for a situation. -/
inductive Severity where
  | critical
  | major
  | minor
  | warning
  | indeterminate
  deriving DecidableEq, Repr

def priority_of : Option Severity → Priority
  | some .critical => .critical
  | some .major => .major
  | _ => .minor

inductive CaseAct where
  | take
  | release
  | pend
  | resolve
  | dispatch
  | automate
  | requeue
  | validate
  | auto_resolve
  | auto_pend
  | close
  deriving DecidableEq, Repr

namespace CaseAct

def words : CaseAct → String
  | .take => "take"
  | .release => "release"
  | .pend => "pend"
  | .resolve => "resolve"
  | .dispatch => "dispatch"
  | .automate => "automate"
  | .requeue => "requeue"
  | .validate => "validate"
  | .auto_resolve => "auto resolve"
  | .auto_pend => "auto pend"
  | .close => "close"

/-- `_FROM` -/
def starts : CaseAct → Status → Bool
  | .take, .new | .take, .auto | .take, .queue | .take, .working | .take, .validate | .take, .pending _ => true
  | .release, .working | .release, .validate => true
  | .pend, .working | .pend, .pending _ => true
  | .resolve, .working | .resolve, .validate | .resolve, .pending _ => true
  | .dispatch, .new | .automate, .new => true
  | .requeue, .auto | .requeue, .pending _ => true
  | .validate, .working | .validate, .pending _ => true
  | .auto_resolve, .new | .auto_resolve, .auto | .auto_resolve, .queue => true
  | .auto_pend, .auto => true
  | .close, .resolved => true
  | _, _ => false

/-- `_TO` -/
def leads : CaseAct → Option Status
  | .take => some .working
  | .release | .dispatch | .requeue => some .queue
  | .resolve | .auto_resolve => some .resolved
  | .automate => some .auto
  | .validate => some .validate
  | .close => some .closed
  | .pend | .auto_pend => none

end CaseAct

structure CaseError where
  message : String
  status : ℕ
  deriving DecidableEq

/-- A move that the case cannot make now. -/
def not_now (message : String) : CaseError := ⟨message, 409⟩

def transition (act : CaseAct) (status : Status) (target : Option Status) : Except CaseError Status :=
  if act.starts status then
    match act.leads with
    | some s => .ok s
    | none =>
      match target with
      | some (.pending p) => .ok (.pending p)
      | _ => .error ⟨"status: one of " ++ ", ".intercalate (PENDING.map fun p => "pending_" ++ p.word), 400⟩
  else .error (not_now s!"a case in '{status.label}' cannot {act.words}")

/-- The table allows a case to go from one status to another. -/
def Allowed (s t : Status) : Prop := ∃ act target, transition act s target = .ok t

theorem transition_of {act : CaseAct} {s t : Status} (hs : act.starts s = true) (hl : act.leads = some t)
    (target : Option Status) : transition act s target = .ok t := by
  simp only [transition, hs, hl, if_true]

theorem transition_ok {act : CaseAct} {s t : Status} {target : Option Status} (h : transition act s target = .ok t) :
    act.starts s = true ∧ (act.leads = some t ∨ act.leads = none ∧ ∃ p, t = .pending p) := by
  unfold transition at h
  split at h
  · rename_i hs
    refine ⟨hs, ?_⟩
    split at h
    · rename_i hl
      exact .inl (hl.trans (congrArg some (Except.ok.inj h)))
    · rename_i hl
      split at h
      · exact .inr ⟨hl, _, (Except.ok.inj h).symm⟩
      · cases h
  · cases h

/-- Who acts: a person, an agent by its token, a playbook, or the appliance. -/
inductive Ref where
  | user (id : ℕ)
  | token (id : ℕ)
  | playbook (id : ℕ)
  | system
  deriving DecidableEq, Repr

inductive Kind where
  | person
  | agent
  | system
  deriving DecidableEq, Repr

structure Actor where
  ref : Ref
  name : String
  kind : Kind
  deriving DecidableEq

inductive CycleReason where
  | opened
  | automation
  | customer_post
  | next_update
  | released
  | escalated
  | alarm
  | access
  deriving DecidableEq, Repr

/-- One entry into the NOC queue, with its instants. -/
structure Cycle where
  reason : CycleReason
  priority : Priority
  entered_at : ℚ
  taken_at : Option ℚ := none
  taken_by : Option Ref := none
  documented_at : Option ℚ := none
  left_at : Option ℚ := none
  ended_at : Option ℚ := none
  deriving DecidableEq

namespace Cycle
variable (c : Cycle)

/-- Open, and nobody has taken it. -/
def waits : Bool := c.taken_at.isNone && c.ended_at.isNone

/-- Taken, and not left. -/
def held : Bool := c.taken_at.isSome && c.left_at.isNone

/-- Its documentation clock runs. -/
def undocumented : Bool := c.held && c.documented_at.isNone

end Cycle

/-- `TEXT_FIELDS` -/
inductive TextField where
  | title
  | description
  | executive_summary
  | current_analysis
  | noc_next_step
  | customer_next_step
  | solution
  deriving DecidableEq, Repr

namespace TextField

def word : TextField → String
  | .title => "title"
  | .description => "description"
  | .executive_summary => "executive_summary"
  | .current_analysis => "current_analysis"
  | .noc_next_step => "noc_next_step"
  | .customer_next_step => "customer_next_step"
  | .solution => "solution"

/-- `FIELD_LIMITS` -/
def limit : TextField → ℕ
  | .title => 120
  | .executive_summary => 200
  | .current_analysis | .solution => 8000
  | .description | .noc_next_step | .customer_next_step => 4000

def all : List TextField :=
  [.title, .description, .executive_summary, .current_analysis, .noc_next_step, .customer_next_step, .solution]

end TextField

inductive Resolution where
  | noc
  | automation
  | cleared
  | merged
  deriving DecidableEq, Repr

structure Case where
  status : Status
  status_at : ℚ
  priority : Priority
  priority_by : Option Ref := none
  text : TextField → String := fun _ => ""
  next_update_at : Option ℚ := none
  owner : Option Actor := none
  opened_at : ℚ
  cause : Option String := none
  resolution : Option Resolution := none
  resolved_at : Option ℚ := none
  resolved_by : Option Ref := none
  alarms_cleared : Bool := false
  version : ℕ := 1
  agent_id : Option ℕ := none
  assigned_at : Option ℚ := none
  tier : ℕ := 1
  escalated_at : Option ℚ := none
  with_people : Bool := false

/-- The fields that an edit sets. -/
structure CaseFields where
  text : TextField → Option String := fun _ => none
  next_update_at : Option ℚ := none
  priority : Option Priority := none

/-- What `str.strip` takes off. -/
def pySpace (c : Char) : Bool :=
  let n := c.toNat
  (9 ≤ n && n ≤ 13) || (28 ≤ n && n ≤ 32) || n == 133 || n == 160 || n == 5760 || (8192 ≤ n && n ≤ 8202) ||
    n == 8232 || n == 8233 || n == 8239 || n == 8287 || n == 12288

def pyStrip (s : String) : String := String.ofList ((s.toList.dropWhile pySpace).rdropWhile pySpace)

namespace Case
variable (case : Case)

/-- The case as it reads once the fields are in it. -/
def merged (fields : CaseFields) : Case := { case with
  text := fun f => (fields.text f).getD (case.text f)
  next_update_at := fields.next_update_at.or case.next_update_at
  priority := fields.priority.getD case.priority }

def lacks_text (f : TextField) : Bool := (case.text f).toList.all pySpace

/-- `missing` for a pending status: the complete customer update, and a next update ahead. -/
def missing_update (now : ℚ) : List String :=
  (([.title, .description, .executive_summary, .current_analysis, .noc_next_step, .customer_next_step].filter
    case.lacks_text).map TextField.word) ++
  (match case.next_update_at with
    | some at_ => if at_ ≤ now then ["next_update_at"] else []
    | none => ["next_update_at"])

/-- `missing` for `resolved`: what happened, and how it ended. -/
def missing_resolved : List String :=
  ([.title, .description, .executive_summary, .current_analysis].filter case.lacks_text).map TextField.word ++
  (if case.cause.all (·.toList.all pySpace) then ["cause"] else []) ++
  (if case.lacks_text .solution then ["solution"] else [])

def documented (now : ℚ) : Bool := (case.missing_update now).isEmpty

end Case

/-- The first row that meets a condition, changed: with the newest first, the latest. -/
def amend {α : Type} (p : α → Bool) (f : α → α) : List α → List α
  | [] => []
  | c :: cs => if p c then f c :: cs else c :: amend p f cs

section
variable {α : Type} {p q : α → Bool} {f : α → α}

theorem countP_amend_same (h : ∀ c, p c = true → q (f c) = q c) (cs : List α) :
    (amend p f cs).countP q = cs.countP q := by
  induction cs with
  | nil => rfl
  | cons c cs ih =>
    unfold amend
    split
    · rename_i hp
      simp only [List.countP_cons, h c hp]
    · simp only [List.countP_cons, ih]

theorem countP_amend_down (h : ∀ c, p c = true → p (f c) = false) (cs : List α) :
    (amend p f cs).countP p = cs.countP p - 1 := by
  induction cs with
  | nil => rfl
  | cons c cs ih =>
    unfold amend
    split
    · rename_i hp
      simp [h c hp, hp]
    · rename_i hp
      simp [hp, ih]

theorem countP_amend_up (cs : List α) : (amend p f cs).countP q ≤ cs.countP q + 1 := by
  induction cs with
  | nil => exact Nat.zero_le _
  | cons c cs ih =>
    unfold amend
    split
    · simp only [List.countP_cons]
      split <;> omega
    · simp only [List.countP_cons]
      omega

end

/-- The row of a case, and its cycles, newest first. -/
structure CaseFile where
  case : Case
  cycles : List Cycle := []

namespace CaseFile
variable (f : CaseFile)

def waiting : ℕ := f.cycles.countP Cycle.waits

def holding : ℕ := f.cycles.countP Cycle.held

/-- The open, untaken cycle's target follows the case. -/
def cycle_priority (priority : Priority) : List Cycle :=
  f.cycles.map fun c => if c.waits then { c with priority := priority } else c

def noc_case_set_fields (fields : CaseFields) (actor : Ref) : CaseFile :=
  if fields.priority.isNone ∧ fields.next_update_at.isNone ∧ TextField.all.all fun t => (fields.text t).isNone then f
  else match fields.priority with
    | none => { f with case := { f.case.merged fields with version := f.case.version + 1 } }
    | some priority => {
        case := { f.case.merged fields with priority_by := some actor, version := f.case.version + 1 }
        cycles := f.cycle_priority priority }

def noc_case_raise_priority (priority : Priority) : CaseFile where
  case := { f.case with priority := priority, version := f.case.version + 1 }
  cycles := f.cycle_priority priority

def noc_case_move (status : Status) (now : ℚ) (owner : Option Actor) : CaseFile :=
  { f with case := { f.case with
      status := status, status_at := now, owner := owner.or f.case.owner, version := f.case.version + 1 } }

def noc_case_enqueue (reason : CycleReason) (now : ℚ) : CaseFile where
  case := { f.case with status := .queue, status_at := now, owner := none, version := f.case.version + 1 }
  cycles := ⟨reason, f.case.priority, if reason = .opened then f.case.opened_at else now, none, none, none, none, none⟩
    :: f.cycles

def noc_cycle_taken (now : ℚ) (actor : Ref) : CaseFile :=
  { f with cycles := amend Cycle.waits (fun c => { c with taken_at := some now, taken_by := some actor }) f.cycles }

def noc_cycle_documented (now : ℚ) : CaseFile :=
  { f with cycles := amend Cycle.undocumented (fun c => { c with documented_at := some now }) f.cycles }

def noc_cycle_left (now : ℚ) : CaseFile :=
  { f with cycles := amend Cycle.held (fun c => { c with left_at := some now }) f.cycles }

def noc_cycle_withdrawn (now : ℚ) : CaseFile :=
  { f with cycles := amend Cycle.waits (fun c => { c with ended_at := some now }) f.cycles }

def noc_case_resolve (now : ℚ) (actor : Ref) (resolution : Resolution) (cause solution : String)
    (alarms_cleared : Bool) : CaseFile :=
  { f with case := { f.case with
      status := .resolved, status_at := now, resolution := some resolution, cause := some cause
      text := fun t => if t = .solution then solution else f.case.text t
      alarms_cleared := alarms_cleared, resolved_at := some now, resolved_by := some actor
      version := f.case.version + 1 } }

/-- Route a case to an agent, or to nobody. -/
def noc_case_assign (agent_id : Option ℕ) (now : ℚ) (tier : Option ℕ) (escalated with_people : Bool) : CaseFile :=
  { f with case := { f.case with
      agent_id := agent_id, assigned_at := some now, tier := max f.case.tier (tier.getD f.case.tier)
      escalated_at := if escalated then some now else f.case.escalated_at
      with_people := with_people, version := f.case.version + 1 } }

section
variable {f}

theorem status_set_fields (fields : CaseFields) (actor : Ref) :
    (f.noc_case_set_fields fields actor).case.status = f.case.status ∧
      (f.noc_case_set_fields fields actor).case.owner = f.case.owner := by
  unfold noc_case_set_fields
  split
  · exact ⟨rfl, rfl⟩
  · split <;> exact ⟨rfl, rfl⟩

private theorem countP_priority {q : Cycle → Bool} (h : ∀ c p, q { c with priority := p } = q c) (priority : Priority) :
    (f.cycle_priority priority).countP q = f.cycles.countP q := by
  rw [cycle_priority, List.countP_map]
  refine List.countP_congr fun c _ => ?_
  simp only [Function.comp_apply]
  split
  · rw [h]
  · rfl

theorem waiting_set_fields (fields : CaseFields) (actor : Ref) :
    (f.noc_case_set_fields fields actor).waiting = f.waiting := by
  unfold noc_case_set_fields
  split
  · rfl
  · split
    · rfl
    · exact countP_priority (fun _ _ => rfl) _

theorem holding_set_fields (fields : CaseFields) (actor : Ref) :
    (f.noc_case_set_fields fields actor).holding = f.holding := by
  unfold noc_case_set_fields
  split
  · rfl
  · split
    · rfl
    · exact countP_priority (fun _ _ => rfl) _

theorem waiting_raise (priority : Priority) : (f.noc_case_raise_priority priority).waiting = f.waiting :=
  countP_priority (fun _ _ => rfl) _

theorem holding_raise (priority : Priority) : (f.noc_case_raise_priority priority).holding = f.holding :=
  countP_priority (fun _ _ => rfl) _

theorem waiting_enqueue (reason : CycleReason) (now : ℚ) :
    (f.noc_case_enqueue reason now).waiting = f.waiting + 1 :=
  List.countP_cons_of_pos rfl

theorem holding_enqueue (reason : CycleReason) (now : ℚ) : (f.noc_case_enqueue reason now).holding = f.holding :=
  rfl

theorem waiting_taken (now : ℚ) (actor : Ref) : (f.noc_cycle_taken now actor).waiting = f.waiting - 1 :=
  countP_amend_down (fun _ _ => rfl) _

theorem holding_taken (now : ℚ) (actor : Ref) : (f.noc_cycle_taken now actor).holding ≤ f.holding + 1 :=
  countP_amend_up _

theorem waiting_documented (now : ℚ) : (f.noc_cycle_documented now).waiting = f.waiting := by
  refine countP_amend_same ?_ _
  exact fun _ _ => rfl

theorem holding_documented (now : ℚ) : (f.noc_cycle_documented now).holding = f.holding := by
  refine countP_amend_same ?_ _
  exact fun _ _ => rfl

theorem waiting_left (now : ℚ) : (f.noc_cycle_left now).waiting = f.waiting := by
  refine countP_amend_same ?_ _
  exact fun _ _ => rfl

theorem holding_left (now : ℚ) : (f.noc_cycle_left now).holding = f.holding - 1 :=
  countP_amend_down (fun c _ => by simp [Cycle.held]) _

theorem waiting_withdrawn (now : ℚ) : (f.noc_cycle_withdrawn now).waiting = f.waiting - 1 :=
  countP_amend_down (fun c _ => by simp [Cycle.waits]) _

theorem holding_withdrawn (now : ℚ) : (f.noc_cycle_withdrawn now).holding = f.holding := by
  refine countP_amend_same ?_ _
  exact fun _ _ => rfl

end

end CaseFile

end NetCoreNoc.Noc
