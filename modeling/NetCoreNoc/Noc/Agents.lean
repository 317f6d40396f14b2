import Mathlib
import NetCoreNoc.Noc.Routing

/-! What is done to the agents (`engine/noc/agents.py`, `store/noc_agents.py`, `api/routes/agents.py`). -/
namespace NetCoreNoc.Noc.Agents

/-- `below[boss]` -/
def reports (everyone : List Agent) (boss : ℕ) : List ℕ := (everyone.filter (·.reports_to = some boss)).map Agent.id

/-- The loop of `subtree`, over its stack from the top; none where the fuel runs out. -/
def subtree (everyone : List Agent) : ℕ → List ℕ → Finset ℕ → Option (Finset ℕ)
  | _, [], out => some out
  | 0, _ :: _, _ => none
  | n + 1, aid :: stack, out =>
    if aid ∈ out then subtree everyone n stack out
    else subtree everyone n ((reports everyone aid).reverse ++ stack) (insert aid out)

/-- An agent reports to another, directly or not. -/
def below (everyone : List Agent) (boss agent_id : ℕ) : Bool :=
  (subtree everyone (2 * everyone.length) (reports everyone boss).reverse ∅).any (agent_id ∈ ·)

section Statuses
variable (agents : List Agent)

def amend (agent_id : ℕ) (g : Agent → Agent) : List Agent := agents.map fun a => if a.id = agent_id then g a else a

def noc_set_agent_status (agent_id : ℕ) (status : AgentStatus) : List Agent :=
  amend agents agent_id fun a => { a with status := status }

/-- An agent at rest begins to run. -/
def busy (agent_id : ℕ) (now : ℚ) : List Agent :=
  amend agents agent_id fun a =>
    if a.status = .idle ∨ a.status = .error then { a with status := .running, last_run_at := some now } else a

/-- An agent whose run ends is idle, unless it has become something else. -/
def rest (agent_id : ℕ) : List Agent :=
  agents.map fun a => if a.id = agent_id ∧ a.status = .running then { a with status := .idle } else a

/-- `subject`: an agent that has not been retired. -/
def subject (agent_id : ℕ) : Option Agent := (agent_of agents agent_id).filter (·.status ≠ .terminated)

/-- Its reports move up to its manager. -/
def terminate_agent (agent_id : ℕ) : List Agent :=
  match subject agents agent_id with
  | some agent =>
    let moved := agents.map fun a =>
      if a.reports_to = some agent_id ∧ a.status ≠ .terminated then { a with reports_to := agent.reports_to } else a
    noc_set_agent_status moved agent_id .terminated
  | none => agents

def pause_agent (agent_id : ℕ) : List Agent :=
  if (subject agents agent_id).isSome then noc_set_agent_status agents agent_id .paused else agents

def resume_agent (agent_id : ℕ) : List Agent :=
  if (subject agents agent_id).any fun a => a.status = .paused ∨ a.status = .error then
    noc_set_agent_status agents agent_id .idle
  else agents

end Statuses

section Reads
variable {agents : List Agent} {agent_id : ℕ} {x : Agent}

theorem agent_mem (h : agent_of agents agent_id = some x) : x ∈ agents ∧ x.id = agent_id :=
  ⟨List.mem_of_find?_eq_some h, by simpa using List.find?_some h⟩

theorem subject_some (h : subject agents agent_id = some x) :
    agent_of agents agent_id = some x ∧ x.status ≠ .terminated := by
  obtain ⟨hx, hlive⟩ := Option.filter_eq_some_iff.mp h
  exact ⟨hx, of_decide_eq_true hlive⟩

end Reads

end NetCoreNoc.Noc.Agents
