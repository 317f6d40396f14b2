import Mathlib
import NetCoreNoc.Checks
import NetCoreNoc.Noc.Routing

/-! The acts on a case (`engine/noc/case_ops.py`), and what each of them keeps. -/
namespace NetCoreNoc.Noc

/-- `CAUSES` -/
def CAUSES : List String :=
  ["planned_maintenance", "unplanned_maintenance", "signal_interference", "force_majeure",
    "cleared_before_isolation", "no_trouble_found", "duplicate", "hardware", "software", "cpe", "configuration",
    "decommissioned", "disconnected", "turn_up", "power_commercial", "power_ups", "hvac", "client_fiber_cut",
    "carrier_fiber_cut", "client_circuit", "carrier_circuit", "overutilization", "security_event", "human_error",
    "no_client_response", "client_requested_closure", "other"]

/-- Worst first. -/
def Priority.rank : Priority → ℕ
  | .critical => 0
  | .major => 1
  | .minor => 2

def UPDATE_CADENCE_S : Priority → ℚ
  | .critical => 3600
  | .major => 10800
  | .minor => 21600

/-- How the Broker's situation resolved. -/
inductive BrokerResolution where
  | operator
  | self_cleared
  | idle
  | merged
  | manual_clear
  | unattributed
  deriving DecidableEq, Repr

def WHY_RESOLVED : BrokerResolution → String
  | .operator => "an operator closed it"
  | .self_cleared => "every alarm cleared, the network fixed it"
  | .idle => "it went quiet and timed out"
  | .merged => "it was merged into another situation"
  | .manual_clear => "an operator hand-cleared the last active alarm"
  | .unattributed => "it closed before this appliance recorded why"

/-- The case as it reads once it has a cause and a solution. -/
def Case.concluded (case : Case) (cause solution : String) : Case := { case with
  cause := some cause
  text := fun t => if t = .solution then solution else case.text t }

namespace CaseFile
variable (f : CaseFile) (actor : Actor) (now : ℚ)

def owns (admin : Bool) : Except CaseError Unit :=
  if admin ∨ f.case.owner.map Actor.ref = some actor.ref then .ok ()
  else .error ⟨"take the case first: only its owner may do this", 403⟩

/-- While the priority is the appliance's, the worst severity raises it. -/
def reprioritize (worst : Option Severity) : CaseFile :=
  if f.case.priority_by.isSome then f
  else if f.case.priority.rank ≤ (priority_of worst).rank then f
  else f.noc_case_raise_priority (priority_of worst)

def take (worst : Option Severity) : Except CaseError CaseFile :=
  if f.case.owner.map Actor.ref = some actor.ref ∧ f.case.status = .working then .ok f
  else do
    let _ ← transition .take f.case.status none
    -- taken before it reached the queue: the cycle that it would have opened, taken at once
    let queued := match f.case.status with
      | .new => (f.reprioritize worst).noc_case_enqueue .opened now
      | .auto => (f.reprioritize worst).noc_case_enqueue .automation now
      | _ => f
    let moved := queued.noc_case_move .working now (some actor)
    .ok (if f.case.status.unowned then moved.noc_cycle_taken now actor.ref else moved)

def release (admin : Bool) : Except CaseError CaseFile := do
  let _ ← f.owns actor admin
  let _ ← transition .release f.case.status none
  .ok ((f.noc_cycle_left now).noc_case_enqueue .released now)

/-- The customer update; the summaries of the organizations have a table of their own. -/
def update (fields : CaseFields) (summaries : List (ℕ × String)) (organizations : List ℕ) : Except CaseError CaseFile :=
  if ¬ f.case.status.live then .error (not_now "a resolved case is not edited; its feed still takes posts")
  else match TextField.all.find? fun t => (fields.text t).any (t.limit < ·.length) with
  | some t => .error ⟨s!"{t.word}: at most {t.limit} characters", 400⟩
  | none =>
    if fields.next_update_at.any (· ≤ now) then .error ⟨"next_update_at: must be in the future", 400⟩
    else match (summaries.map Prod.fst).filter (· ∉ organizations) with
    | unknown :: _ => .error ⟨s!"summaries: organization {unknown} has no element in this situation", 400⟩
    | [] =>
      if summaries.any (TextField.executive_summary.limit < ·.2.length) then
        .error ⟨"summaries: at most 200 characters each", 400⟩
      else
        let edited := f.noc_case_set_fields fields actor.ref
        .ok (if f.case.status = .working ∧ (f.case.merged fields).documented now then edited.noc_cycle_documented now
          else edited)

/-- The cycle of a case that is being worked is documented, and left. -/
def left_working : CaseFile :=
  if f.case.status = .working then (f.noc_cycle_documented now).noc_cycle_left now else f

def pend (status : Pending) (admin : Bool) : Except CaseError CaseFile := do
  let _ ← f.owns actor admin
  let target ← transition .pend f.case.status (some (.pending status))
  if f.case.missing_update now ≠ [] then
    .error (not_now ("complete the customer update first: " ++ ", ".intercalate (f.case.missing_update now)))
  else .ok ((f.left_working now).noc_case_move target now none)

/-- With no next update ahead, the cadence of the priority sets it. -/
def due (next_update_at : Option ℚ) : Option ℚ :=
  if next_update_at.isNone ∧ ¬ f.case.next_update_at.any (now < ·) then some (now + UPDATE_CADENCE_S f.case.priority)
  else next_update_at

def dated (next_update_at : Option ℚ) : Except CaseError CaseFile :=
  match f.due now next_update_at with
  | some at_ => f.update actor now { next_update_at := some at_ } [] []
  | none => .ok f

def set_status (status : Pending) (next_update_at : Option ℚ) (admin : Bool) : Except CaseError CaseFile := do
  let dated ← f.dated actor now next_update_at
  dated.pend actor now status admin

def may_resolve (admin : Bool) (resolution : Resolution) : Except CaseError Status :=
  if resolution = .noc then do
    let _ ← f.owns actor admin
    transition .resolve f.case.status none
  else transition .auto_resolve f.case.status none

def resolve (cause solution : String) (alarms_cleared admin : Bool) (resolution : Resolution) :
    Except CaseError CaseFile := do
  let _ ← f.may_resolve actor admin resolution
  if cause ∉ CAUSES then .error ⟨"cause: one of " ++ ", ".intercalate CAUSES, 400⟩
  else if TextField.solution.limit < solution.length then .error ⟨"solution: at most 8000 characters", 400⟩
  else
    if (f.case.concluded cause solution).missing_resolved ≠ [] ∧ resolution = .noc then
      .error (not_now ("complete the case first: " ++
        ", ".intercalate (f.case.concluded cause solution).missing_resolved))
    else .ok (((f.left_working now).noc_cycle_withdrawn now).noc_case_resolve now actor.ref resolution cause
      (pyStrip solution) alarms_cleared)

def dispatch (worst : Option Severity) (automate : Bool) : CaseFile :=
  if automate then (f.reprioritize worst).noc_case_move .auto now none
  else (f.reprioritize worst).noc_case_enqueue .opened now

/-- Back in the queue, and with the agent that it is still with. -/
def requeue (agents : List Agent) (reason : CycleReason) (worst : Option Severity) : CaseFile :=
  let queued := (f.reprioritize worst).noc_case_enqueue reason now
  match queued.case.agent_id.bind (agent_of agents) with
  | some agent =>
    if queued.case.with_people = false ∧ agent.status.works then
      queued.noc_case_assign (some agent.id) now none false false
    else queued
  | none => queued

/-- A playbook's pending leaf; with an incomplete update the case goes to the queue. -/
def auto_pend (agents : List Agent) (status : Pending) (text : TextField → Option String) (wait_s : ℚ)
    (worst : Option Severity) : Except CaseError CaseFile := do
  let target ← transition .auto_pend f.case.status (some (.pending status))
  let fields : CaseFields := { text := text, next_update_at := some (now + wait_s) }
  .ok (if (f.case.merged fields).missing_update now ≠ [] then f.requeue now agents .automation worst
    else (f.noc_case_set_fields fields actor.ref).noc_case_move target now none)

def validate : CaseFile := (f.noc_cycle_left now).noc_case_move .validate now none

def auto_resolve (resolution : Resolution) (why : String) : CaseFile :=
  ((f.noc_cycle_withdrawn now).noc_cycle_left now).noc_case_resolve now .system resolution
    (if resolution = .merged then "duplicate" else "cleared_before_isolation") why false

def close : CaseFile := f.noc_case_move .closed now none

/-- Where its case stands: in the queue it has no owner and one open cycle that nobody took, elsewhere no such
cycle; a cycle that was taken and not left goes with `working`. -/
structure Kept : Prop where
  unowned : f.case.status = .queue → f.case.owner = none
  waiting : f.waiting = if f.case.status = .queue then 1 else 0
  holding : f.holding ≤ if f.case.status = .working then 1 else 0

end CaseFile

/-- One act: the status stays or goes by the table, what was kept is kept, and a closed case stays as it is. -/
structure Moved (f g : CaseFile) : Prop where
  moves : g.case.status = f.case.status ∨ Allowed f.case.status g.case.status
  kept : f.Kept → g.Kept
  closed : f.case.status = .closed → g = f

/-- An act that does not close the case. -/
structure Lawful (f g : CaseFile) : Prop extends Moved f g where
  shut : g.case.status = .closed → f.case.status = .closed

section
variable {f g : CaseFile}

theorem Lawful.refl (f : CaseFile) : Lawful f f := ⟨⟨.inl rfl, id, fun _ => rfl⟩, id⟩

/-- No move starts from a closed case. -/
private theorem moved_open {act : CaseAct} {target : Option Status}
    (ht : transition act f.case.status target = .ok g.case.status) (hkept : f.Kept → g.Kept) : Moved f g := by
  refine ⟨.inr ⟨act, target, ht⟩, hkept, fun hclosed => ?_⟩
  obtain ⟨hs, -⟩ := transition_ok ht
  rw [hclosed] at hs
  cases act <;> cases hs

private theorem Lawful.from_open {act : CaseAct} {target : Option Status}
    (ht : transition act f.case.status target = .ok g.case.status) (hact : act ≠ .close) (hkept : f.Kept → g.Kept) :
    Lawful f g := by
  refine ⟨moved_open ht hkept, fun hclosed => ?_⟩
  rw [hclosed] at ht
  rcases (transition_ok ht).2 with hleads | ⟨-, p, hp⟩
  · cases act <;> first | exact absurd rfl hact | cases hleads
  · cases hp

end

section
variable {f g : CaseFile} {actor : Actor} {now : ℚ}

theorem reprioritize_same (f : CaseFile) (worst : Option Severity) :
    (f.reprioritize worst).case.status = f.case.status ∧ (f.reprioritize worst).case.owner = f.case.owner ∧
      (f.reprioritize worst).waiting = f.waiting ∧ (f.reprioritize worst).holding = f.holding := by
  unfold CaseFile.reprioritize
  split
  · exact ⟨rfl, rfl, rfl, rfl⟩
  · split
    · exact ⟨rfl, rfl, rfl, rfl⟩
    · exact ⟨rfl, rfl, CaseFile.waiting_raise _, CaseFile.holding_raise _⟩

/-- What leaves status, owner and cycles alone. -/
private theorem kept_same (hs : g.case.status = f.case.status) (ho : g.case.owner = f.case.owner)
    (hw : g.waiting = f.waiting) (hh : g.holding = f.holding) (h : f.Kept) : g.Kept := by
  refine ⟨?_, ?_, ?_⟩
  · rw [hs, ho]
    exact h.unowned
  · rw [hs, hw]
    exact h.waiting
  · rw [hs, hh]
    exact h.holding

private theorem kept_assign (h : f.Kept) (agent_id tier : Option ℕ) (now : ℚ) (escalated with_people : Bool) :
    (f.noc_case_assign agent_id now tier escalated with_people).Kept := ⟨h.unowned, h.waiting, h.holding⟩

theorem lawful_reprioritize (hopen : f.case.status ≠ .closed) (worst : Option Severity) :
    Lawful f (f.reprioritize worst) := by
  obtain ⟨hs, ho, hw, hh⟩ := reprioritize_same f worst
  exact ⟨⟨.inl hs, kept_same hs ho hw hh, fun hclosed => absurd hclosed hopen⟩, fun hclosed => hs ▸ hclosed⟩

/-- Into the queue, from where no cycle waits and none is held. -/
private theorem kept_enqueue (hwaiting : f.waiting = 0) (hholding : f.holding = 0) (reason : CycleReason) (now : ℚ) :
    (f.noc_case_enqueue reason now).Kept := by
  refine ⟨fun _ => rfl, ?_, ?_⟩
  · rw [CaseFile.waiting_enqueue, hwaiting]
    rfl
  · rw [CaseFile.holding_enqueue, hholding]
    exact Nat.zero_le _

/-- Out of the queue, or past it. -/
private theorem kept_elsewhere (hqueue : g.case.status ≠ .queue) (hwaiting : g.waiting = 0)
    (hholding : g.holding ≤ if g.case.status = .working then 1 else 0) : g.Kept := by
  refine ⟨fun h => absurd h hqueue, ?_, hholding⟩
  rw [if_neg hqueue]
  exact hwaiting

private theorem Kept.away (h : f.Kept) (hqueue : f.case.status ≠ .queue) : f.waiting = 0 := by
  have := h.waiting
  rwa [if_neg hqueue] at this

private theorem Kept.idle (h : f.Kept) (hworking : f.case.status ≠ .working) : f.holding = 0 := by
  have := h.holding
  rw [if_neg hworking] at this
  omega

private theorem Kept.one (h : f.Kept) : f.holding ≤ 1 := by
  have := h.holding
  split at this <;> omega

theorem lawful_take {worst : Option Severity} (h : f.take actor now worst = .ok g) : Lawful f g := by
  unfold CaseFile.take at h
  split at h
  · exact Except.ok.inj h ▸ Lawful.refl f
  · obtain ⟨target, ht, h⟩ := Checks.bind_ok.mp h
    have hg := (Except.ok.inj h).symm
    obtain ⟨hstarts, hleads⟩ := transition_ok ht
    obtain rfl : target = .working := by
      rcases hleads with hleads | ⟨hleads, -⟩
      · exact (Option.some.inj hleads).symm
      · cases hleads
    have hworking : g.case.status = .working := by
      rw [hg]
      split <;> rfl
    refine Lawful.from_open (hworking ▸ ht) CaseAct.noConfusion fun hkept => ?_
    have htaken (u : CaseFile) (hw : u.waiting ≤ 1) (hh : u.holding = 0) :
        ((u.noc_case_move .working now (some actor)).noc_cycle_taken now actor.ref).Kept := by
      refine kept_elsewhere Status.noConfusion ?_ ?_
      · rw [CaseFile.waiting_taken]
        change u.waiting - 1 = 0
        omega
      · refine (CaseFile.holding_taken _ _).trans ?_
        change u.holding + 1 ≤ 1
        omega
    rw [hg]
    obtain ⟨-, -, hwaiting, hholding⟩ := reprioritize_same f worst
    cases hs : f.case.status with
    | new =>
      refine htaken _ ?_ ?_
      · rw [CaseFile.waiting_enqueue, hwaiting, Kept.away hkept (by simp [hs])]
      · rw [CaseFile.holding_enqueue, hholding, Kept.idle hkept (by simp [hs])]
    | auto =>
      refine htaken _ ?_ ?_
      · rw [CaseFile.waiting_enqueue, hwaiting, Kept.away hkept (by simp [hs])]
      · rw [CaseFile.holding_enqueue, hholding, Kept.idle hkept (by simp [hs])]
    | queue =>
      have hw := hkept.waiting
      rw [if_pos hs] at hw
      exact htaken f hw.le (Kept.idle hkept (by simp [hs]))
    | working | pending | validate | resolved | closed =>
      have hw : f.waiting = 0 := Kept.away hkept (by simp [hs])
      have hh : f.holding ≤ 1 := Kept.one hkept
      exact kept_elsewhere Status.noConfusion hw hh

theorem lawful_release {admin : Bool} (h : f.release actor now admin = .ok g) : Lawful f g := by
  unfold CaseFile.release at h
  obtain ⟨-, -, h⟩ := Checks.bind_ok.mp h
  obtain ⟨target, ht, h⟩ := Checks.bind_ok.mp h
  obtain rfl := Except.ok.inj h
  obtain ⟨hstarts, hleads⟩ := transition_ok ht
  obtain rfl : target = .queue := by
    rcases hleads with hleads | ⟨hleads, -⟩
    · exact (Option.some.inj hleads).symm
    · cases hleads
  refine Lawful.from_open ht CaseAct.noConfusion fun hkept => kept_enqueue ?_ ?_ _ _
  · rw [CaseFile.waiting_left]
    refine Kept.away hkept fun hs => ?_
    rw [hs] at hstarts
    cases hstarts
  · rw [CaseFile.holding_left]
    have := Kept.one hkept
    omega

theorem lawful_update {fields : CaseFields} {summaries : List (ℕ × String)} {organizations : List ℕ}
    (h : f.update actor now fields summaries organizations = .ok g) :
    Lawful f g ∧ g.case.status = f.case.status := by
  unfold CaseFile.update at h
  split at h
  · cases h
  · rename_i hlive
    split at h
    · cases h
    · split at h
      · cases h
      · split at h
        · cases h
        · split at h
          · cases h
          · have hg := (Except.ok.inj h).symm
            obtain ⟨hs, ho⟩ := CaseFile.status_set_fields fields actor.ref (f := f)
            have hw := CaseFile.waiting_set_fields fields actor.ref (f := f)
            have hh := CaseFile.holding_set_fields fields actor.ref (f := f)
            have hsame : g.case.status = f.case.status ∧ g.case.owner = f.case.owner ∧ g.waiting = f.waiting ∧
                g.holding = f.holding := by
              rw [hg]
              split
              · exact ⟨hs, ho, (CaseFile.waiting_documented _).trans hw, (CaseFile.holding_documented _).trans hh⟩
              · exact ⟨hs, ho, hw, hh⟩
            refine ⟨⟨⟨.inl hsame.1, fun hkept => ?_, fun hclosed => ?_⟩, fun hclosed => hsame.1 ▸ hclosed⟩, hsame.1⟩
            · exact kept_same hsame.1 hsame.2.1 hsame.2.2.1 hsame.2.2.2 hkept
            · rw [hclosed] at hlive
              exact absurd Bool.false_ne_true hlive

private theorem waiting_left_working (f : CaseFile) (now : ℚ) : (f.left_working now).waiting = f.waiting := by
  unfold CaseFile.left_working
  split
  · rw [CaseFile.waiting_left, CaseFile.waiting_documented]
  · rfl

private theorem Kept.left (h : f.Kept) (now : ℚ) : (f.left_working now).holding = 0 := by
  unfold CaseFile.left_working
  split
  · rw [CaseFile.holding_left, CaseFile.holding_documented]
    have := Kept.one h
    omega
  · rename_i hs
    exact Kept.idle h hs

theorem lawful_pend {status : Pending} {admin : Bool} (h : f.pend actor now status admin = .ok g) : Lawful f g := by
  unfold CaseFile.pend at h
  obtain ⟨-, -, h⟩ := Checks.bind_ok.mp h
  obtain ⟨target, ht, h⟩ := Checks.bind_ok.mp h
  split at h
  · cases h
  · have hg := (Except.ok.inj h).symm
    have hstatus : g.case.status = target := by rw [hg]; rfl
    obtain ⟨hstarts, hleads⟩ := transition_ok ht
    obtain ⟨p, rfl⟩ : ∃ p, target = .pending p := by
      rcases hleads with hleads | ⟨-, hp⟩
      · cases hleads
      · exact hp
    refine Lawful.from_open (hstatus ▸ ht) CaseAct.noConfusion fun hkept => kept_elsewhere (by simp [hstatus]) ?_ ?_
    · have hw : f.waiting = 0 := Kept.away hkept fun hs => by
        rw [hs] at hstarts
        cases hstarts
      rw [hg]
      change CaseFile.waiting (if _ then _ else _) = 0
      split
      · rw [CaseFile.waiting_left, CaseFile.waiting_documented, hw]
      · exact hw
    · rw [hg]
      change CaseFile.holding (if _ then _ else _) ≤ 0
      split
      · rw [CaseFile.holding_left, CaseFile.holding_documented]
        have := Kept.one hkept
        omega
      · rename_i hs
        exact (Kept.idle hkept hs).le

theorem lawful_set_status {status : Pending} {next_update_at : Option ℚ} {admin : Bool}
    (h : f.set_status actor now status next_update_at admin = .ok g) : Lawful f g := by
  unfold CaseFile.set_status at h
  obtain ⟨dated, hd, h⟩ := Checks.bind_ok.mp h
  have hdated : Lawful f dated ∧ dated.case.status = f.case.status := by
    unfold CaseFile.dated at hd
    split at hd
    · exact lawful_update hd
    · exact Except.ok.inj hd ▸ ⟨Lawful.refl f, rfl⟩
  have hpend := lawful_pend h
  refine ⟨⟨hdated.2 ▸ hpend.moves, hpend.kept ∘ hdated.1.kept, fun hclosed => ?_⟩, hdated.1.shut ∘ hpend.shut⟩
  exact (hpend.closed (hdated.2.trans hclosed)).trans (hdated.1.closed hclosed)

/-- A case that is resolved from an open status: what waited is withdrawn, what was held is left. -/
private theorem kept_resolved {u : CaseFile} (hwaiting : u.waiting ≤ 1) (hholding : u.holding = 0) (now : ℚ) (by_ : Ref)
    (resolution : Resolution) (cause solution : String) (alarms_cleared : Bool) :
    ((u.noc_cycle_withdrawn now).noc_case_resolve now by_ resolution cause solution alarms_cleared).Kept := by
  refine kept_elsewhere Status.noConfusion ?_ ?_
  · change (u.noc_cycle_withdrawn now).waiting = 0
    rw [CaseFile.waiting_withdrawn]
    omega
  · change (u.noc_cycle_withdrawn now).holding ≤ 0
    rw [CaseFile.holding_withdrawn, hholding]

private theorem Kept.waits (h : f.Kept) : f.waiting ≤ 1 := by
  have := h.waiting
  split at this <;> omega

theorem lawful_resolve {cause solution : String} {alarms_cleared admin : Bool} {resolution : Resolution}
    (h : f.resolve actor now cause solution alarms_cleared admin resolution = .ok g) : Lawful f g := by
  unfold CaseFile.resolve at h
  obtain ⟨target, ht, h⟩ := Checks.bind_ok.mp h
  obtain ⟨act, ht, hto, hclose⟩ : ∃ act, transition act f.case.status none = .ok target ∧
      act.leads = some .resolved ∧ act ≠ .close := by
    unfold CaseFile.may_resolve at ht
    split at ht
    · obtain ⟨-, -, ht⟩ := Checks.bind_ok.mp ht
      exact ⟨.resolve, ht, rfl, CaseAct.noConfusion⟩
    · exact ⟨.auto_resolve, ht, rfl, CaseAct.noConfusion⟩
  obtain rfl : target = .resolved := by
    rcases (transition_ok ht).2 with hleads | ⟨hleads, -⟩
    · exact Option.some.inj (hleads.symm.trans hto)
    · rw [hto] at hleads
      cases hleads
  split at h
  · cases h
  · split at h
    · cases h
    · split at h
      · cases h
      · obtain rfl := Except.ok.inj h
        refine Lawful.from_open ht hclose fun hkept => kept_resolved ?_ (Kept.left hkept now) ..
        rw [waiting_left_working]
        exact Kept.waits hkept

theorem lawful_dispatch (hnew : f.case.status = .new) (now : ℚ) (worst : Option Severity) (automate : Bool) :
    Lawful f (f.dispatch now worst automate) := by
  obtain ⟨-, -, hw, hh⟩ := reprioritize_same f worst
  cases automate with
  | true =>
    have ht : transition .automate f.case.status none = .ok .auto := by rw [hnew]; rfl
    refine Lawful.from_open ht CaseAct.noConfusion fun hkept => ?_
    refine kept_elsewhere Status.noConfusion (hw.trans (Kept.away hkept (by simp [hnew]))) ?_
    exact (hh.trans (Kept.idle hkept (by simp [hnew]))).le
  | false =>
    have ht : transition .dispatch f.case.status none = .ok .queue := by rw [hnew]; rfl
    refine Lawful.from_open ht CaseAct.noConfusion fun hkept => ?_
    exact kept_enqueue (hw.trans (Kept.away hkept (by simp [hnew]))) (hh.trans (Kept.idle hkept (by simp [hnew]))) _ _

theorem lawful_requeue (hs : CaseAct.requeue.starts f.case.status = true) (now : ℚ) (agents : List Agent)
    (reason : CycleReason) (worst : Option Severity) : Lawful f (f.requeue now agents reason worst) := by
  have hqueue : (f.requeue now agents reason worst).case.status = .queue := by
    simp only [CaseFile.requeue]
    split
    · split <;> rfl
    · rfl
  have ht : transition .requeue f.case.status none = .ok (f.requeue now agents reason worst).case.status := by
    rw [hqueue]
    exact transition_of hs rfl none
  refine Lawful.from_open ht CaseAct.noConfusion fun hkept => ?_
  obtain ⟨-, -, hw, hh⟩ := reprioritize_same f worst
  have hkept' : ((f.reprioritize worst).noc_case_enqueue reason now).Kept := by
    refine kept_enqueue (hw.trans (Kept.away hkept fun h => ?_)) (hh.trans (Kept.idle hkept fun h => ?_)) _ _ <;>
    · rw [h] at hs
      cases hs
  simp only [CaseFile.requeue]
  split
  · split
    · exact kept_assign hkept' ..
    · exact hkept'
  · exact hkept'

theorem lawful_auto_pend {agents : List Agent} {status : Pending} {text : TextField → Option String} {wait_s : ℚ}
    {worst : Option Severity} (h : f.auto_pend actor now agents status text wait_s worst = .ok g) : Lawful f g := by
  unfold CaseFile.auto_pend at h
  obtain ⟨target, ht, h⟩ := Checks.bind_ok.mp h
  obtain ⟨hstarts, hleads⟩ := transition_ok ht
  have hauto : f.case.status = .auto := by
    cases hs : f.case.status <;> rw [hs] at hstarts <;> first | rfl | cases hstarts
  obtain ⟨p, rfl⟩ : ∃ p, target = .pending p := by
    rcases hleads with hleads | ⟨-, hp⟩
    · cases hleads
    · exact hp
  have hg := (Except.ok.inj h).symm
  split at hg
  · rw [hg]
    exact lawful_requeue (by rw [hauto]; rfl) _ _ _ _
  · rw [hg]
    refine Lawful.from_open ht CaseAct.noConfusion fun hkept => kept_elsewhere Status.noConfusion ?_ ?_
    · exact (CaseFile.waiting_set_fields _ _).trans (Kept.away hkept (by simp [hauto]))
    · exact ((CaseFile.holding_set_fields _ _).trans (Kept.idle hkept (by simp [hauto]))).le

theorem lawful_validate (hs : CaseAct.validate.starts f.case.status = true) (now : ℚ) : Lawful f (f.validate now) := by
  refine Lawful.from_open (transition_of hs rfl none) CaseAct.noConfusion fun hkept => ?_
  refine kept_elsewhere Status.noConfusion ?_ ?_
  · refine (CaseFile.waiting_left _).trans (Kept.away hkept fun h => ?_)
    rw [h] at hs
    cases hs
  · refine (CaseFile.holding_left _).le.trans ?_
    have := Kept.one hkept
    change f.holding - 1 ≤ 0
    omega

/-- Over without the NOC: also a case that is owned, where its situation was merged. -/
theorem lawful_auto_resolve (hs : CaseAct.auto_resolve.starts f.case.status = true ∨
    CaseAct.resolve.starts f.case.status = true) (now : ℚ) (resolution : Resolution) (why : String) :
    Lawful f (f.auto_resolve now resolution why) := by
  have hkept (hkept : f.Kept) : (f.auto_resolve now resolution why).Kept := by
    refine kept_elsewhere Status.noConfusion ?_ ?_
    · refine (CaseFile.waiting_left _).trans ((CaseFile.waiting_withdrawn _).trans ?_)
      have := Kept.waits hkept
      omega
    · refine ((CaseFile.holding_left _).trans (congrArg (· - 1) (CaseFile.holding_withdrawn _))).le.trans ?_
      have := Kept.one hkept
      change f.holding - 1 ≤ 0
      omega
  rcases hs with hs | hs
  · exact Lawful.from_open (transition_of hs rfl none) CaseAct.noConfusion hkept
  · exact Lawful.from_open (transition_of hs rfl none) CaseAct.noConfusion hkept

theorem moved_close (hs : f.case.status = .resolved) (now : ℚ) : Moved f (f.close now) := by
  have ht : transition .close f.case.status none = .ok .closed := by rw [hs]; rfl
  refine moved_open ht fun hkept => ?_
  have hw : f.waiting = 0 := Kept.away hkept (by simp [hs])
  have hh : f.holding = 0 := Kept.idle hkept (by simp [hs])
  exact kept_elsewhere Status.noConfusion hw hh.le

/-- An agent that the case goes to. -/
theorem lawful_assign (hopen : f.case.status ≠ .closed) (agent_id tier : Option ℕ) (now : ℚ)
    (escalated with_people : Bool) : Lawful f (f.noc_case_assign agent_id now tier escalated with_people) :=
  ⟨⟨.inl rfl, fun h => kept_assign h .., fun hclosed => absurd hclosed hopen⟩, id⟩

/-- To the people: an agent's case goes back to the queue, as if it were released. -/
theorem lawful_to_people (hopen : f.case.status ≠ .closed) (now : ℚ) : Lawful f (Floor.to_people f.case now f) := by
  unfold Floor.to_people
  split
  · rename_i hagent
    have ht : transition .release f.case.status none = .ok .queue := by rw [hagent.1]; rfl
    refine Lawful.from_open ht CaseAct.noConfusion fun hkept => ?_
    have hqueued : ((f.noc_cycle_left now).noc_case_enqueue .escalated now).Kept := by
      refine kept_enqueue ((CaseFile.waiting_left _).trans (Kept.away hkept (by simp [hagent.1]))) ?_ _ _
      rw [CaseFile.holding_left]
      have := Kept.one hkept
      omega
    exact kept_assign hqueued ..
  · exact lawful_assign hopen ..

end

end NetCoreNoc.Noc
