import Mathlib
import NetCoreNoc.Noc.Cases

/-! The agents, their runs, and how a case is routed to one of them (`engine/noc/routing.py`,
`store/noc_agents.py`). -/
namespace NetCoreNoc.Noc

inductive AgentStatus where
  | idle
  | running
  | paused
  | error
  | terminated
  deriving DecidableEq, Repr

namespace AgentStatus

/-- `WORKING`: neither paused nor retired. -/
def works : AgentStatus → Bool
  | .idle | .running | .error => true
  | .paused | .terminated => false

def word : AgentStatus → String
  | .idle => "idle"
  | .running => "running"
  | .paused => "paused"
  | .error => "error"
  | .terminated => "terminated"

end AgentStatus

inductive Adapter where
  | webhook
  | claude
  | openai
  | external
  deriving DecidableEq, Repr

structure Agent where
  id : ℕ
  name : String
  tier : ℕ := 1
  reports_to : Option ℕ := none
  entry : Bool := false
  wake_on_assignment : Bool := true
  adapter : Adapter := .webhook
  heartbeat_s : ℕ := 0
  escalate_after_s : Option ℕ := none
  run_timeout_s : ℕ := 900
  last_run_at : Option ℚ := none
  status : AgentStatus := .idle
  deriving DecidableEq

inductive Trigger where
  | timer
  | assignment
  | on_demand
  | escalation
  | external
  deriving DecidableEq, Repr

inductive RunStatus where
  | queued
  | running
  | succeeded
  | failed
  | timed_out
  | cancelled
  deriving DecidableEq, Repr

structure AgentRun where
  id : ℕ
  agent_id : ℕ
  trigger : Trigger
  situation_id : Option ℕ
  status : RunStatus
  queued_at : ℚ
  started_at : Option ℚ := none
  ended_at : Option ℚ := none
  /-- the last of its steps -/
  stepped_at : Option ℚ := none
  error : String := ""
  deriving DecidableEq

def AgentRun.queued (r : AgentRun) (agent_id : ℕ) : Bool := r.agent_id = agent_id ∧ r.status = .queued

/-- The cases by their situation, the agents, and the runs in their order. -/
structure Floor where
  cases : List (ℕ × CaseFile) := []
  agents : List Agent := []
  runs : List AgentRun := []
  keys : (cases.map Prod.fst).Nodup := by exact List.nodup_nil

namespace Floor
variable (s : Floor)

def case (sid : ℕ) : Option CaseFile := (s.cases.find? (·.1 = sid)).map Prod.snd

/-- An agent that can work. -/
def works (agent_id : ℕ) : Prop := ∃ a ∈ s.agents, a.id = agent_id ∧ a.status.works = true

instance (agent_id : ℕ) : Decidable (s.works agent_id) :=
  inferInstanceAs (Decidable (∃ a ∈ s.agents, a.id = agent_id ∧ a.status.works = true))

def amend_case (sid : ℕ) (g : CaseFile → CaseFile) : Floor where
  cases := s.cases.map fun row => if row.1 = sid then (row.1, g row.2) else row
  agents := s.agents
  runs := s.runs
  keys := by
    have hkeys : (s.cases.map fun row => if row.1 = sid then (row.1, g row.2) else row).map Prod.fst =
        s.cases.map Prod.fst := by
      rw [List.map_map]
      refine List.map_congr_left fun row _ => ?_
      simp only [Function.comp_apply]
      split <;> rfl
    rw [hkeys]
    exact s.keys

/-- A run is queued, or merged into the one that is queued for the agent, which keeps its case. -/
def noc_wake (agent_id : ℕ) (trigger : Trigger) (situation_id : Option ℕ) (now : ℚ) : Floor :=
  if s.runs.any (·.queued agent_id) then
    { s with runs := s.runs.map fun r =>
        if r.queued agent_id then { r with situation_id := r.situation_id.or situation_id } else r }
  else { s with runs := s.runs ++ [⟨s.runs.length, agent_id, trigger, situation_id, .queued, now, none, none, none, ""⟩] }

variable {s}

@[simp] theorem case_noc_wake (agent_id : ℕ) (trigger : Trigger) (situation_id : Option ℕ) (now : ℚ) (sid : ℕ) :
    (s.noc_wake agent_id trigger situation_id now).case sid = s.case sid := by
  unfold noc_wake
  split <;> rfl

@[simp] theorem agents_noc_wake (agent_id : ℕ) (trigger : Trigger) (situation_id : Option ℕ) (now : ℚ) :
    (s.noc_wake agent_id trigger situation_id now).agents = s.agents := by
  unfold noc_wake
  split <;> rfl

private theorem find_amended (rows : List (ℕ × CaseFile)) (sid other : ℕ) (g : CaseFile → CaseFile) :
    ((rows.map fun row => if row.1 = sid then (row.1, g row.2) else row).find? (·.1 = other)).map Prod.snd =
      ((rows.find? (·.1 = other)).map Prod.snd).map (if other = sid then g else id) := by
  induction rows with
  | nil => rfl
  | cons row rows ih =>
    have hfst : (if row.1 = sid then (row.1, g row.2) else row).1 = row.1 := by split <;> rfl
    rw [List.map_cons, List.find?_cons, List.find?_cons, hfst]
    by_cases ho : row.1 = other
    · subst ho
      simp only [decide_true, Option.map_some]
      split <;> rfl
    · simpa only [ho, decide_false] using ih

theorem case_amend_case (sid other : ℕ) (g : CaseFile → CaseFile) :
    (s.amend_case sid g).case other = (s.case other).map (if other = sid then g else id) :=
  find_amended s.cases sid other g

theorem case_amended {sid : ℕ} {f : CaseFile} (h : s.case sid = some f) (g : CaseFile → CaseFile) :
    (s.amend_case sid g).case sid = some (g f) := by
  simp [case_amend_case, h]

theorem case_amend_other {sid other : ℕ} (h : other ≠ sid) (g : CaseFile → CaseFile) :
    (s.amend_case sid g).case other = s.case other := by
  simp [case_amend_case, h]

/-- The cases by their keys. -/
theorem case_of_mem {sid : ℕ} {f : CaseFile} (h : (sid, f) ∈ s.cases) : s.case sid = some f := by
  have hkeys := s.keys
  unfold case
  generalize s.cases = rows at h hkeys
  induction rows with
  | nil => exact absurd h List.not_mem_nil
  | cons row rows ih =>
    obtain ⟨hnot, hrest⟩ := List.nodup_cons.mp hkeys
    rw [List.find?_cons]
    rcases List.mem_cons.mp h with rfl | hmem
    · simp
    · have hne : row.1 ≠ sid := fun he => hnot (he ▸ List.mem_map.mpr ⟨_, hmem, rfl⟩)
      simpa only [hne, decide_false] using ih hmem hrest

end Floor

/-- `everyone`: the agents that are not retired. -/
def Floor.noc_agents (s : Floor) : List Agent := s.agents.filter (·.status ≠ .terminated)

def agent_of (everyone : List Agent) (agent_id : ℕ) : Option Agent := everyone.find? (·.id = agent_id)

/-- The entry agent with the fewest live cases, the lowest id on a tie. -/
def pick_entry (everyone : List Agent) (loads : ℕ → ℕ) : Option Agent :=
  (everyone.filter fun a => a.entry && a.status.works).argmin fun a => toLex (loads a.id, a.id)

/-- The nearest manager of a chain who can work. The agents form a forest, so that a chain is no longer than
they are many. -/
def nearest (everyone : List Agent) : ℕ → Option ℕ → Option Agent
  | 0, _ | _, none => none
  | n + 1, some boss =>
    match agent_of everyone boss with
    | none => none
    | some manager => if manager.status.works then some manager else nearest everyone n manager.reports_to

/-- Who a case of an agent climbs to. -/
def manager_of (everyone : List Agent) (agent_id : Option ℕ) : Option Agent :=
  nearest everyone everyone.length (agent_id.bind fun a => (agent_of everyone a).bind Agent.reports_to)

theorem pick_entry_works {everyone : List Agent} {loads : ℕ → ℕ} {a : Agent} (h : pick_entry everyone loads = some a) :
    a.status.works = true := by
  have hmem := List.argmin_mem (Option.mem_def.mpr h)
  simp only [List.mem_filter, Bool.and_eq_true] at hmem
  exact hmem.2.2

theorem nearest_works {everyone : List Agent} {n : ℕ} {boss : Option ℕ} {a : Agent}
    (h : nearest everyone n boss = some a) : a.status.works = true := by
  induction n generalizing boss with
  | zero => cases h
  | succ n ih =>
    cases boss with
    | none => cases h
    | some boss =>
      unfold nearest at h
      split at h
      · cases h
      · split at h
        · rename_i hw
          exact Option.some.inj h ▸ hw
        · exact ih h

namespace Floor
variable (s : Floor) (sid : ℕ) (case : Case)

def assign (agent : Agent) (now : ℚ) (trigger : Trigger) (tier : Option ℕ) (escalated : Bool) :
    Except CaseError Floor :=
  if ¬ case.status.live then .error (not_now "a resolved case is not routed")
  else if ¬ agent.status.works then
    .error (not_now s!"{agent.name} is {agent.status.word}: it takes no cases now")
  else
    let level := max case.tier (tier.getD agent.tier)
    let routed := s.amend_case sid (·.noc_case_assign (some agent.id) now (some level) escalated false)
    .ok (if agent.wake_on_assignment && agent.adapter ≠ .external then routed.noc_wake agent.id trigger (some sid) now
      else routed)

/-- What leaves the agents leaves the one who has taken it. -/
def to_people (now : ℚ) (f : CaseFile) : CaseFile :=
  (if case.status = .working ∧ case.owner.any (·.kind = .agent) then
    (f.noc_cycle_left now).noc_case_enqueue .escalated now else f).noc_case_assign none now none true true

def with_people (now : ℚ) : Floor := s.amend_case sid (to_people case now)

/-- One level up: to the nearest manager who can work, else to the NOC team. -/
def escalate (everyone : List Agent) (now : ℚ) : Except CaseError Floor :=
  match manager_of everyone case.agent_id with
  | some manager => s.assign sid case manager now .escalation (some (max (min 4 (case.tier + 1)) manager.tier)) true
  | none => .ok (s.with_people sid case now)

variable {s} {sid} {case}

/-- A case that is assigned: only that case, and it is with the agent. -/
theorem assign_ok {agent : Agent} {now : ℚ} {trigger : Trigger} {tier : Option ℕ} {escalated : Bool} {t : Floor}
    (h : s.assign sid case agent now trigger tier escalated = .ok t) :
    case.status.live = true ∧ agent.status.works = true ∧ t.agents = s.agents ∧
    (∀ other ≠ sid, t.case other = s.case other) ∧
    ∀ f, s.case sid = some f → ∃ g, t.case sid = some g ∧ g.case.agent_id = some agent.id ∧
      g.case.version = f.case.version + 1 := by
  unfold assign at h
  split at h
  · cases h
  · rename_i hlive
    split at h
    · cases h
    · rename_i hworks
      have ht := (Except.ok.inj h).symm
      refine ⟨by simpa using hlive, by simpa using hworks, ?_, fun other ho => ?_, fun f hf => ?_⟩
      · rw [ht]
        split
        · exact agents_noc_wake ..
        · rfl
      · rw [ht]
        split <;> simp [case_amend_other ho]
      · refine ⟨f.noc_case_assign (some agent.id) now (some (max case.tier (tier.getD agent.tier))) escalated false,
          ?_, rfl, rfl⟩
        rw [ht]
        split <;> simp [case_amended hf]

theorem assign_total {agent : Agent} (hlive : case.status.live = true) (hworks : agent.status.works = true) (now : ℚ)
    (trigger : Trigger) (tier : Option ℕ) (escalated : Bool) :
    ∃ t, s.assign sid case agent now trigger tier escalated = .ok t := by
  unfold assign
  rw [if_neg (by simp [hlive]), if_neg (by simp [hworks])]
  exact ⟨_, rfl⟩

theorem to_people_agent (now : ℚ) (f : CaseFile) :
    (to_people case now f).case.agent_id = none ∧ f.case.version < (to_people case now f).case.version := by
  unfold to_people
  split
  · exact ⟨rfl, Nat.lt_succ_of_lt (Nat.lt_succ_self _)⟩
  · exact ⟨rfl, Nat.lt_succ_self _⟩

/-- A case that climbs: only that case, and it is with the manager, or with the people. -/
theorem escalate_ok {everyone : List Agent} {now : ℚ} {t : Floor} (h : s.escalate sid case everyone now = .ok t) :
    t.agents = s.agents ∧ (∀ other ≠ sid, t.case other = s.case other) ∧
    ∀ f, s.case sid = some f → ∃ g, t.case sid = some g ∧ f.case.version < g.case.version ∧
      g.case.agent_id = (manager_of everyone case.agent_id).map Agent.id := by
  unfold escalate at h
  split at h
  · rename_i manager hm
    obtain ⟨-, -, hagents, hother, hcase⟩ := assign_ok h
    refine ⟨hagents, hother, fun f hf => ?_⟩
    obtain ⟨g, hg, hagent, hversion⟩ := hcase f hf
    exact ⟨g, hg, by omega, by rw [hagent, hm]; rfl⟩
  · rename_i hm
    obtain rfl := Except.ok.inj h
    refine ⟨rfl, fun other ho => case_amend_other ho _, fun f hf => ⟨_, case_amended hf _, ?_, ?_⟩⟩
    · exact (to_people_agent now f).2
    · rw [hm]
      exact (to_people_agent now f).1

theorem escalate_total (hlive : case.status.live = true) (everyone : List Agent) (now : ℚ) :
    ∃ t, s.escalate sid case everyone now = .ok t := by
  unfold escalate
  split
  · rename_i manager hm
    exact assign_total hlive (nearest_works hm) now _ _ _
  · exact ⟨_, rfl⟩

end Floor

end NetCoreNoc.Noc
