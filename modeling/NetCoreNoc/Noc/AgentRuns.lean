import Mathlib
import NetCoreNoc.Runs
import NetCoreNoc.Noc.AgentLoop

/-! The runs of the agents (`engine/noc/agent_loop.py`, `store/noc_agents.py`, `api/routes/agents.py`,
`api/routes/mcp.py`): what wakes, starts, drives and ends them, in any order. What holds the lock is one step;
what is read before it, or awaited without it, is kept from one step to a later. -/
namespace NetCoreNoc.Noc.AgentRuns
open Noc Runs

/-- What an agent may spend in a month, and what it has. -/
structure Purse where
  budget_month_cents : ℕ
  spent_cents : ℚ
  spend_month : Option ℕ
  deriving DecidableEq, Repr

/-- A run as it was picked to start, with its agent. -/
structure Picked where
  run : AgentRun
  agent : Agent
  budget_month_cents : ℕ
  deriving DecidableEq

/-- A started run in a task of its own: `driven` by the appliance, or woken over its webhook. -/
structure Task where
  picked : Picked
  driven : Bool
  deriving DecidableEq

/-- The rows, and what the loop keeps of them: the runs that it picked and has not come to, and its tasks. -/
structure Desk where
  agents : List Agent
  purses : ℕ → Purse
  runs : List AgentRun
  picked : List Picked
  tasks : List Task
  running : List ℕ

def Desk.floor (s : Desk) : Floor := { agents := s.agents, runs := s.runs }

/-- Who asks: a person, or an agent as the request has seen the NOC. -/
inductive Caller where
  | person
  | agent (me : ℕ) (everyone : List Agent)
  deriving DecidableEq

/-- A person acts on any agent; an agent only on those below it. -/
def Caller.may_run (agent_id : ℕ) : Caller → Bool
  | .person => true
  | .agent me everyone => Agents.below everyone me agent_id

namespace Desk
variable (s : Desk)

def agent (agent_id : ℕ) : Option Agent := agent_of s.agents agent_id

def amend_agent (agent_id : ℕ) (g : Agent → Agent) : Desk := { s with agents := Agents.amend s.agents agent_id g }

def noc_set_agent_status (agent_id : ℕ) (status : AgentStatus) : Desk :=
  { s with agents := Agents.noc_set_agent_status s.agents agent_id status }

/-- An agent at rest has begun to run. -/
def busy (agent_id : ℕ) (now : ℚ) : Desk := { s with agents := Agents.busy s.agents agent_id now }

def noc_wake (agent_id : ℕ) (trigger : Trigger) (situation_id : Option ℕ) (now : ℚ) : Desk :=
  { s with runs := (s.floor.noc_wake agent_id trigger situation_id now).runs }

def noc_agent_run_active (agent_id : ℕ) : Bool := s.runs.any fun r => r.agent_id = agent_id ∧ r.status = .running

def noc_agent_run_external (agent_id : ℕ) (now : ℚ) : Desk :=
  ({ s with runs := s.runs ++
    [⟨s.runs.length, agent_id, .external, none, .running, now, some now, none, none, ""⟩] } : Desk).busy agent_id now

/-- Queued runs whose agent may start one now. -/
def noc_agent_runs_ready : List AgentRun :=
  (s.runs.filter fun r => r.status = .queued ∧
    (s.agent r.agent_id).any (fun a => a.status = .idle ∨ a.status = .error) ∧
    s.noc_agent_run_active r.agent_id = false).take 20

/-- Whatever the run has become. -/
def noc_agent_run_start (run_id : ℕ) (now : ℚ) : Desk :=
  let t : Desk := { s with runs := s.runs.map fun r =>
    if r.id = run_id then { r with status := .running, started_at := some now } else r }
  match s.runs.find? (·.id = run_id) with
  | some r => t.busy r.agent_id now
  | none => t

/-- A queued or running run ends, and its agent is idle again unless it was paused. -/
def noc_agent_run_finish (run_id : ℕ) (status : RunStatus) (now : ℚ) (error : String) : Desk :=
  let t := (s.floor.noc_agent_run_finish run_id status now error).1
  { s with agents := t.agents, runs := t.runs }

/-- The month's total after it, a new month starting from nothing. -/
def noc_agent_spend (agent_id : ℕ) (cents : ℚ) (month : ℕ) : ℚ :=
  let purse := s.purses agent_id
  if purse.spend_month = some month then purse.spent_cents + cents else cents

def spend (agent_id : ℕ) (cents : ℚ) (month : ℕ) : Desk :=
  let spent : Purse := ⟨(s.purses agent_id).budget_month_cents, s.noc_agent_spend agent_id cents month, some month⟩
  { s with purses := Function.update s.purses agent_id spent }

/-- `ready` and `everyone`, read together: a retired agent's run is left. -/
def look : List Picked :=
  s.noc_agent_runs_ready.filterMap fun r =>
    (agent_of s.floor.noc_agents r.agent_id).map fun a => ⟨r, a, (s.purses a.id).budget_month_cents⟩

end Desk

/-- Which adapters the appliance can drive itself. -/
structure Runners where
  claude : Bool
  openai : Bool
  deriving DecidableEq, Repr

/-- `IN_PROCESS` -/
def in_process : Adapter → Bool
  | .claude | .openai => true
  | .webhook | .external => false

def Runners.has (runners : Runners) : Adapter → Bool
  | .claude => runners.claude
  | .openai => runners.openai
  | .webhook | .external => false

def missing : Adapter → String
  | .claude => "the Claude adapter is not installed"
  | _ => "the OpenAI-compatible adapter is not available"

/-- How a run that the appliance drove has ended. -/
inductive Ended where
  | succeeded
  | failed
  | timed_out
  deriving DecidableEq, Repr

def Ended.status : Ended → RunStatus
  | .succeeded => .succeeded
  | .failed => .failed
  | .timed_out => .timed_out

inductive Event where
  | hire (agent : Agent) (budget_month_cents : ℕ)
  /-- the settings that a run looks at -/
  | update (agent_id : ℕ) (adapter : Adapter) (heartbeat_s run_timeout_s budget_month_cents : ℕ)
  /-- by a heartbeat, an assignment, an escalation, or a caller -/
  | wake (agent_id : ℕ) (trigger : Trigger) (situation_id : Option ℕ) (now : ℚ)
  /-- an agent calls a tool over MCP -/
  | call (agent_id : ℕ) (now : ℚ)
  | look
  /-- the next of the runs that were picked -/
  | start (runners : Runners) (now : ℚ)
  /-- a webhook has answered, or not -/
  | delivered (i : ℕ) (ok : Bool) (detail : String) (now : ℚ)
  | ended (i : ℕ) (outcome : Ended) (error : String) (cost_cents : ℚ) (month : ℕ) (now : ℚ)
  | timeout (run_id : ℕ) (now : ℚ)
  | finish (run_id : ℕ) (me : Option ℕ) (succeeded : Bool) (now : ℚ)
  | pause (agent_id : ℕ) (who : Caller)
  | resume (agent_id : ℕ) (who : Caller)
  | terminate (agent_id : ℕ)
  /-- the loop forgets the tasks that are done -/
  | collect
  /-- the loop is restarted by its supervisor, or the appliance is -/
  | crash
  | restart
  deriving DecidableEq

namespace Desk
variable (s : Desk)

/-- One iteration of `start_ready`. -/
def start (p : Picked) (runners : Runners) (now : ℚ) : Desk :=
  if p.run.id ∈ s.running then s
  else if in_process p.agent.adapter ∧ runners.has p.agent.adapter = false then
    s.noc_agent_run_finish p.run.id .failed now (missing p.agent.adapter)
  else
    let t := s.noc_agent_run_start p.run.id now
    { t with tasks := t.tasks ++ [⟨p, runners.has p.agent.adapter⟩], running := t.running ++ [p.run.id] }

/-- `_wake_webhook`, from its delivery on. -/
def delivered (task : Task) (ok : Bool) (detail : String) (now : ℚ) : Desk :=
  if ok then s
  else (s.noc_agent_run_finish task.picked.run.id .failed now detail).noc_set_agent_status task.picked.agent.id .error

/-- The budget that was read when the run was picked is spent. -/
def overspent (task : Task) (cost_cents : ℚ) (month : ℕ) : Bool :=
  task.picked.budget_month_cents ≠ 0 ∧
    (task.picked.budget_month_cents : ℚ) ≤ s.noc_agent_spend task.picked.agent.id cost_cents month

/-- `_run_in_process`, from its outcome on. -/
def driven (task : Task) (outcome : Ended) (error : String) (cost_cents : ℚ) (month : ℕ) (now : ℚ) : Desk :=
  let t := (s.noc_agent_run_finish task.picked.run.id outcome.status now error).spend task.picked.agent.id cost_cents month
  if s.overspent task cost_cents month then t.noc_set_agent_status task.picked.agent.id .paused else t

def step (s : Desk) : Event → Desk
  | .hire agent budget_month_cents =>
    { s with
      agents := s.agents ++ [{ agent with id := s.agents.length, status := .idle, last_run_at := none }]
      purses := Function.update s.purses s.agents.length ⟨budget_month_cents, 0, none⟩ }
  | .update agent_id adapter heartbeat_s run_timeout_s budget_month_cents =>
    { s.amend_agent agent_id fun a => { a with adapter, heartbeat_s, run_timeout_s } with
      purses := Function.update s.purses agent_id { s.purses agent_id with budget_month_cents } }
  | .wake agent_id trigger situation_id now => s.noc_wake agent_id trigger situation_id now
  | .call agent_id now =>
    if (s.agent agent_id).isNone ∨ s.noc_agent_run_active agent_id then s else s.noc_agent_run_external agent_id now
  | .look => if s.picked = [] then { s with picked := s.look } else s
  | .start runners now =>
    match s.picked with
    | [] => s
    | p :: rest => { s with picked := rest }.start p runners now
  | .delivered i ok detail now =>
    match s.tasks[i]? with
    | some task => if task.driven then s else { s with tasks := s.tasks.eraseIdx i }.delivered task ok detail now
    | none => s
  | .ended i outcome error cost_cents month now =>
    match s.tasks[i]? with
    | some task =>
      if task.driven then { s with tasks := s.tasks.eraseIdx i }.driven task outcome error cost_cents month now else s
    | none => s
  | .timeout run_id now => s.noc_agent_run_finish run_id .timed_out now "past the agent's time limit"
  | .finish run_id me succeeded now =>
    match s.runs.find? (·.id = run_id) with
    | none => s
    | some run =>
      match me with
      | none => s.noc_agent_run_finish run_id .cancelled now ""
      | some me =>
        if me ≠ run.agent_id then s
        else s.noc_agent_run_finish run_id (if succeeded then .succeeded else .failed) now ""
  | .pause agent_id who =>
    if who.may_run agent_id then { s with agents := Agents.pause_agent s.agents agent_id } else s
  | .resume agent_id who =>
    if who.may_run agent_id then { s with agents := Agents.resume_agent s.agents agent_id } else s
  | .terminate agent_id => { s with agents := Agents.terminate_agent s.agents agent_id }
  | .collect => { s with running := s.running.filter fun id => s.tasks.any (·.picked.run.id = id) }
  | .crash => { s with picked := [], running := [] }
  | .restart => { s with picked := [], running := [], tasks := [] }

def init : Desk := ⟨[], fun _ => ⟨0, 0, none⟩, [], [], [], []⟩

end Desk
def Live (status : RunStatus) : Prop := status = .queued ∨ status = .running

/-- What a background task decided on what it had read is still so when it writes: the run that is started is
queued and its agent has none running; the agent whose delivery failed works; the one that has spent its budget
is not retired. -/
def Fresh (s : Desk) : Event → Prop
  | .start runners _ => ∀ p ∈ s.picked.head?, p.run.id ∉ s.running →
      ¬ (in_process p.agent.adapter ∧ runners.has p.agent.adapter = false) →
      ∀ r ∈ s.runs, r.id = p.run.id → r.status = .queued ∧ s.noc_agent_run_active r.agent_id = false
  | .delivered i ok _ _ => ∀ task ∈ s.tasks[i]?, ok = false → task.driven = false →
      ∀ a ∈ s.agent task.picked.agent.id, a.status.works = true
  | .ended i _ _ cost_cents month _ => ∀ task ∈ s.tasks[i]?, task.driven = true →
      s.overspent task cost_cents month → ∀ a ∈ s.agent task.picked.agent.id, a.status ≠ .terminated
  | _ => True

instance (s : Desk) (e : Event) : Decidable (Fresh s e) := by
  cases e <;> unfold Fresh <;> infer_instance

section Statuses
variable {s : Desk}

def Desk.status (s : Desk) (agent_id : ℕ) : Option AgentStatus := (s.agent agent_id).map Agent.status

/-- What a step can do to the status of an agent. -/
inductive Moves (s : Desk) (e : Event) (a : ℕ) (status : AgentStatus) : AgentStatus → Prop where
  | stays : Moves s e a status status
  | rests : status = .running → Moves s e a status .idle
  | begins : status = .idle ∨ status = .error → Moves s e a status .running
  | pauses (who : Caller) : e = .pause a who → status ≠ .terminated → Moves s e a status .paused
  | resumes (who : Caller) : e = .resume a who → who.may_run a → status = .paused ∨ status = .error → Moves s e a status .idle
  | retires : e = .terminate a → Moves s e a status .terminated
  | undelivered (i : ℕ) (detail : String) (now : ℚ) (task : Task) : e = .delivered i false detail now →
      s.tasks[i]? = some task → task.driven = false → task.picked.agent.id = a → Moves s e a status .error
  | overspent (i : ℕ) (outcome : Ended) (error : String) (cost_cents : ℚ) (month : ℕ) (now : ℚ) (task : Task) :
      e = .ended i outcome error cost_cents month now → s.tasks[i]? = some task → task.driven = true →
      s.overspent task cost_cents month → task.picked.agent.id = a → Moves s e a status .paused

theorem agent_of_map {l : List Agent} {g : Agent → Agent} (hg : ∀ a, (g a).id = a.id) (agent_id : ℕ) :
    agent_of (l.map g) agent_id = (agent_of l agent_id).map g := by
  rw [agent_of, agent_of, List.find?_map]
  simp only [Function.comp_def, hg]

theorem id_of_agent {l : List Agent} {agent_id : ℕ} {a : Agent} (h : agent_of l agent_id = some a) : a.id = agent_id :=
  of_decide_eq_true (List.find?_some h :)

theorem status_amend {agent_id : ℕ} {g : Agent → Agent} (hg : ∀ a, (g a).id = a.id) {a : ℕ} {x : Agent}
    (h : s.agent a = some x) : (s.amend_agent agent_id g).status a = some (if a = agent_id then (g x).status else x.status) := by
  have hid : ∀ a : Agent, (if a.id = agent_id then g a else a).id = a.id := fun a => by split <;> simp [hg]
  have hagent : (s.amend_agent agent_id g).agent a = (s.agent a).map fun a => if a.id = agent_id then g a else a :=
    agent_of_map hid a
  rw [Desk.status, hagent, h, Option.map_some, Option.map_some, id_of_agent h]
  split <;> rfl

variable {a : ℕ} {st : AgentStatus}

theorem status_set {agent_id : ℕ} {status : AgentStatus} (h : s.status a = some st) :
    (s.noc_set_agent_status agent_id status).status a = some (if a = agent_id then status else st) := by
  obtain ⟨x, hx, rfl⟩ := Option.map_eq_some_iff.mp h
  exact @status_amend s agent_id (fun x => { x with status := status }) (fun _ => rfl) a x hx

theorem status_busy {agent_id : ℕ} {now : ℚ} (h : s.status a = some st) :
    (s.busy agent_id now).status a = some st ∨
      (st = .idle ∨ st = .error) ∧ (s.busy agent_id now).status a = some .running := by
  obtain ⟨x, hx, rfl⟩ := Option.map_eq_some_iff.mp h
  have hbusy := @status_amend s agent_id (fun a =>
    if a.status = .idle ∨ a.status = .error then { a with status := .running, last_run_at := some now } else a)
      (fun a => by split <;> rfl) a x hx
  change (s.busy agent_id now).status a = _ at hbusy
  rw [hbusy]
  by_cases hrest : x.status = .idle ∨ x.status = .error
  · by_cases ha : a = agent_id
    · exact .inr ⟨hrest, by rw [if_pos ha, if_pos hrest]⟩
    · exact .inl (by rw [if_neg ha])
  · exact .inl (by rw [if_neg hrest, ite_self])

variable {run_id : ℕ} {status : RunStatus}

theorem status_finish {now : ℚ} {error : String}
    (h : s.status a = some st) : (s.noc_agent_run_finish run_id status now error).status a = some st ∨
      st = .running ∧ (s.noc_agent_run_finish run_id status now error).status a = some .idle := by
  unfold Desk.noc_agent_run_finish Floor.noc_agent_run_finish
  split
  · exact .inl h
  · rename_i run _
    obtain ⟨x, hx, rfl⟩ := Option.map_eq_some_iff.mp h
    have hid : ∀ a : Agent, (if a.id = run.agent_id ∧ a.status = .running then { a with status := .idle } else a).id =
        a.id := fun a => by split <;> rfl
    have hagent := agent_of_map (l := s.agents) hid a
    rw [show agent_of s.agents a = some x from hx, Option.map_some] at hagent
    have hstatus : ∀ t : Desk, t.agents = s.agents.map (fun a =>
        if a.id = run.agent_id ∧ a.status = .running then { a with status := .idle } else a) → t.status a =
        some (if x.id = run.agent_id ∧ x.status = .running then .idle else x.status) := by
      intro t ht
      rw [Desk.status, Desk.agent, ht, hagent, Option.map_some]
      split <;> rfl
    rw [hstatus _ rfl]
    by_cases hmine : x.id = run.agent_id ∧ x.status = .running
    · exact .inr ⟨hmine.2, by rw [if_pos hmine]⟩
    · exact .inl (by rw [if_neg hmine])

theorem status_of_agents {t : Desk} (h : t.agents = s.agents) (a : ℕ) : t.status a = s.status a := by
  rw [Desk.status, Desk.status, Desk.agent, Desk.agent, h]

theorem status_hire (agent : Agent) {t : Desk} (ht : t.agents = s.agents ++ [agent])
    (h : s.status a = some st) : t.status a = some st := by
  obtain ⟨x, hx, rfl⟩ := Option.map_eq_some_iff.mp h
  have hfind : agent_of (s.agents ++ [agent]) a = some x := by
    rw [agent_of, List.find?_append, show s.agents.find? (·.id = a) = some x from hx, Option.some_or]
  rw [Desk.status, Desk.agent, ht, hfind, Option.map_some]

theorem status_start {run_id : ℕ} {now : ℚ} (h : s.status a = some st) :
    (s.noc_agent_run_start run_id now).status a = some st ∨
      (st = .idle ∨ st = .error) ∧ (s.noc_agent_run_start run_id now).status a = some .running := by
  unfold Desk.noc_agent_run_start
  dsimp only
  split
  · exact status_busy (by rw [← h]; exact status_of_agents rfl a)
  · exact .inl (by rw [← h]; exact status_of_agents rfl a)

theorem finish_moves {t : Desk} (ht : t.agents = s.agents) {now : ℚ} {error : String}
    {e : Event} (h : s.status a = some st) :
    ∃ st', (t.noc_agent_run_finish run_id status now error).status a = some st' ∧ Moves s e a st st' := by
  rcases status_finish ((status_of_agents ht a).trans h) with h | ⟨hrun, h⟩
  · exact ⟨st, h, .stays⟩
  · exact ⟨.idle, h, .rests hrun⟩

/-- A status that is written after a run has ended. -/
theorem written_moves {t : Desk} {e : Event} {agent_id a : ℕ} {st st' new : AgentStatus} (h : t.status a = some st')
    (hold : Moves s e a st st') (hnew : agent_id = a → Moves s e a st new) :
    ∃ st'', (t.noc_set_agent_status agent_id new).status a = some st'' ∧ Moves s e a st st'' := by
  rw [status_set h]
  by_cases ha : a = agent_id
  · exact ⟨new, by rw [if_pos ha], hnew ha.symm⟩
  · exact ⟨st', by rw [if_neg ha], hold⟩

theorem status_step {e : Event} (h : s.status a = some st) :
    ∃ st', (s.step e).status a = some st' ∧ Moves s e a st st' := by
  have same {t : Desk} (ht : t.agents = s.agents) : ∃ st', t.status a = some st' ∧ Moves s e a st st' :=
    ⟨st, (status_of_agents ht a).trans h, .stays⟩
  cases e with
  | hire agent budget_month_cents => exact ⟨st, status_hire _ rfl h, .stays⟩
  | update agent_id adapter heartbeat_s run_timeout_s budget_month_cents =>
    obtain ⟨x, hx, rfl⟩ := Option.map_eq_some_iff.mp h
    have hmap := @status_amend s agent_id (fun a => { a with adapter, heartbeat_s, run_timeout_s }) (fun _ => rfl) a x hx
    rw [ite_self] at hmap
    exact ⟨x.status, hmap, .stays⟩
  | wake agent_id trigger situation_id now => exact same rfl
  | call agent_id now =>
    unfold Desk.step
    dsimp only
    split
    · exact same rfl
    · rcases @status_busy { s with runs := _ } a st agent_id now ((status_of_agents rfl a).trans h) with h | ⟨hrest, h⟩
      · exact ⟨st, h, .stays⟩
      · exact ⟨.running, h, .begins hrest⟩
  | look =>
    unfold Desk.step
    dsimp only
    split
    · exact same rfl
    · exact same rfl
  | start runners now =>
    unfold Desk.step
    dsimp only
    split
    · exact same rfl
    · rename_i p rest _
      have hrest : ({ s with picked := rest } : Desk).status a = some st := (status_of_agents rfl a).trans h
      unfold Desk.start
      dsimp only
      split
      · exact same rfl
      · split
        · exact finish_moves rfl h
        · rcases @status_start _ a st p.run.id now hrest with h | ⟨hfree, h⟩
          · exact ⟨st, (status_of_agents rfl a).trans h, .stays⟩
          · exact ⟨.running, (status_of_agents rfl a).trans h, .begins hfree⟩
  | delivered i ok detail now =>
    unfold Desk.step
    dsimp only
    split
    · rename_i task htask
      split
      · exact same rfl
      · rename_i hdriven
        unfold Desk.delivered
        split
        · exact same rfl
        · rename_i hok
          obtain rfl : ok = false := Bool.not_eq_true _ ▸ hok
          obtain ⟨st', hst', hmoves⟩ := finish_moves (s := s) (t := { s with tasks := s.tasks.eraseIdx i }) rfl h
          exact written_moves hst' hmoves fun ha =>
            .undelivered i detail now task rfl htask (Bool.not_eq_true _ ▸ hdriven) ha
    · exact same rfl
  | ended i outcome error cost_cents month now =>
    unfold Desk.step
    dsimp only
    split
    · rename_i task htask
      split
      · rename_i hdriven
        obtain ⟨st', hst', hmoves⟩ := finish_moves (s := s) (t := { s with tasks := s.tasks.eraseIdx i }) rfl h
        unfold Desk.driven
        dsimp only
        split
        · rename_i hover
          exact written_moves ((status_of_agents rfl a).trans hst') hmoves fun ha =>
            .overspent i outcome error cost_cents month now task rfl htask hdriven hover ha
        · exact ⟨st', (status_of_agents rfl a).trans hst', hmoves⟩
      · exact same rfl
    · exact same rfl
  | timeout run_id now => exact finish_moves rfl h
  | finish run_id me succeeded now =>
    unfold Desk.step
    dsimp only
    split
    · exact same rfl
    · split
      · exact finish_moves rfl h
      · split
        · exact same rfl
        · exact finish_moves rfl h
  | pause agent_id who =>
    unfold Desk.step Agents.pause_agent
    dsimp only
    split
    · split
      · rename_i hs
        refine written_moves h .stays fun ha => .pauses who (ha ▸ rfl) ?_
        obtain ⟨x, hx⟩ := Option.isSome_iff_exists.mp hs
        obtain ⟨hagent, hlive⟩ := Agents.subject_some hx
        rw [Desk.status, ← ha, Desk.agent, hagent] at h
        exact Option.some.inj h ▸ hlive
      · exact same rfl
    · exact same rfl
  | resume agent_id who =>
    unfold Desk.step Agents.resume_agent
    dsimp only
    split
    · rename_i hmay
      split
      · rename_i hs
        refine written_moves h .stays fun ha => .resumes who (ha ▸ rfl) (ha ▸ hmay) ?_
        obtain ⟨x, hx, hrest⟩ := (Option.any_eq_true _ _).mp hs
        rw [Desk.status, ← ha, Desk.agent, (Agents.subject_some hx).1] at h
        exact Option.some.inj h ▸ of_decide_eq_true hrest
      · exact same rfl
    · exact same rfl
  | terminate agent_id =>
    unfold Desk.step Agents.terminate_agent
    dsimp only
    split
    · rename_i agent _
      obtain ⟨x, hx, rfl⟩ := Option.map_eq_some_iff.mp h
      let g : Agent → Agent := fun a =>
        if a.reports_to = some agent_id ∧ a.status ≠ .terminated then { a with reports_to := agent.reports_to } else a
      have hg : ∀ a, (g a).id = a.id ∧ (g a).status = a.status := fun a => by
        dsimp only [g]
        split <;> exact ⟨rfl, rfl⟩
      have hmoved : ({ s with agents := s.agents.map g } : Desk).status a = some x.status := by
        rw [Desk.status, Desk.agent, agent_of_map (fun a => (hg a).1), show agent_of s.agents a = some x from hx,
          Option.map_some, Option.map_some, (hg x).2]
      exact written_moves (t := { s with agents := s.agents.map g }) hmoved .stays fun ha => .retires (ha ▸ rfl)
    · exact same rfl
  | collect => exact same rfl
  | crash => exact same rfl
  | restart => exact same rfl

end Statuses
section Rows
variable {s : Desk}

/-- What a step can do to the runs. -/
inductive RunsAfter (s : Desk) (e : Event) : List AgentRun → Prop where
  | same : RunsAfter s e s.runs
  | merged (g : AgentRun → AgentRun) :
      (∀ r, (g r).id = r.id ∧ (g r).agent_id = r.agent_id ∧ (g r).status = r.status) → RunsAfter s e (s.runs.map g)
  | queued (r : AgentRun) : r.id = s.runs.length → r.status = .queued → s.runs.any (·.queued r.agent_id) = false →
      RunsAfter s e (s.runs ++ [r])
  | opened (r : AgentRun) : r.id = s.runs.length → r.status = .running → s.noc_agent_run_active r.agent_id = false →
      RunsAfter s e (s.runs ++ [r])
  | started (runners : Runners) (now : ℚ) (p : Picked) (rest : List Picked) : e = .start runners now →
      s.picked = p :: rest → p.run.id ∉ s.running → ¬ (in_process p.agent.adapter ∧ runners.has p.agent.adapter = false) →
      RunsAfter s e (s.runs.map fun r => if r.id = p.run.id then { r with status := .running, started_at := some now } else r)
  | finished (run : AgentRun) (g : AgentRun → AgentRun) : run ∈ s.runs → Live run.status →
      (∀ r, (g r).id = r.id ∧ (g r).agent_id = r.agent_id ∧ (r.id ≠ run.id → g r = r) ∧ (r.id = run.id → ¬ Live (g r).status)) →
      RunsAfter s e (s.runs.map g)

theorem runs_finish {t : Desk} (ht : t.runs = s.runs) (hs : ¬ Live status) {now : ℚ}
    {error : String} {e : Event} : RunsAfter s e (t.noc_agent_run_finish run_id status now error).runs := by
  unfold Desk.noc_agent_run_finish Floor.noc_agent_run_finish
  rw [show t.floor.runs = s.runs from ht]
  split
  · show RunsAfter s e t.runs
    rw [ht]
    exact .same
  · rename_i run hrun
    have hmem := List.mem_of_find?_eq_some hrun
    obtain ⟨rfl, hlive⟩ : run.id = run_id ∧ (run.status = .queued ∨ run.status = .running) :=
      of_decide_eq_true (List.find?_some hrun :)
    refine .finished run _ hmem hlive fun r => ?_
    by_cases hr : r.id = run.id
    · rw [if_pos hr]
      exact ⟨rfl, rfl, fun h => absurd hr h, fun _ => hs⟩
    · rw [if_neg hr]
      exact ⟨rfl, rfl, fun _ => rfl, fun h => absurd h hr⟩

theorem runs_wake (agent_id : ℕ) (trigger : Trigger) (situation_id : Option ℕ) (now : ℚ) (e : Event) :
    RunsAfter s e (s.noc_wake agent_id trigger situation_id now).runs := by
  unfold Desk.noc_wake Floor.noc_wake
  split
  · exact .merged _ fun r => by split <;> exact ⟨rfl, rfl, rfl⟩
  · rename_i hnone
    exact .queued _ rfl rfl (Bool.not_eq_true _ ▸ hnone)

theorem runs_start (run_id : ℕ) (now : ℚ) : (s.noc_agent_run_start run_id now).runs =
    s.runs.map fun r => if r.id = run_id then { r with status := .running, started_at := some now } else r := by
  unfold Desk.noc_agent_run_start
  dsimp only
  split <;> rfl

theorem runs_step (s : Desk) (e : Event) : RunsAfter s e (s.step e).runs := by
  cases e with
  | hire | update | terminate | collect | crash | restart => exact .same
  | wake agent_id trigger situation_id now => exact runs_wake agent_id trigger situation_id now _
  | call agent_id now =>
    unfold Desk.step
    dsimp only
    split
    · exact .same
    · rename_i hfree
      obtain ⟨-, hfree⟩ := not_or.mp hfree
      exact .opened _ rfl rfl (Bool.not_eq_true _ ▸ hfree)
  | look =>
    unfold Desk.step
    dsimp only
    split
    · exact .same
    · exact .same
  | start runners now =>
    unfold Desk.step
    dsimp only
    split
    · exact .same
    · rename_i p rest hpicked
      unfold Desk.start
      dsimp only
      split
      · exact .same
      · rename_i hrunning
        split
        · exact runs_finish rfl (by simp [Live])
        · rename_i hdriven
          rw [runs_start]
          exact .started runners now p rest rfl hpicked hrunning hdriven
  | delivered i ok detail now =>
    unfold Desk.step
    dsimp only
    split
    · split
      · exact .same
      · unfold Desk.delivered
        split
        · exact .same
        · exact runs_finish (s := s) (t := { s with tasks := s.tasks.eraseIdx i }) rfl (by simp [Live])
    · exact .same
  | ended i outcome error cost_cents month now =>
    have hout : ¬ Live outcome.status := by cases outcome <;> simp [Live, Ended.status]
    unfold Desk.step
    dsimp only
    split
    · split
      · unfold Desk.driven
        dsimp only
        split
        · exact runs_finish (s := s) (t := { s with tasks := s.tasks.eraseIdx i }) rfl hout
        · exact runs_finish (s := s) (t := { s with tasks := s.tasks.eraseIdx i }) rfl hout
      · exact .same
    · exact .same
  | timeout run_id now => exact runs_finish rfl (by simp [Live])
  | finish run_id me succeeded now =>
    unfold Desk.step
    dsimp only
    split
    · exact .same
    · split
      · exact runs_finish rfl (by simp [Live])
      · split
        · exact .same
        · exact runs_finish rfl (by cases succeeded <;> simp [Live])
  | pause | resume =>
    unfold Desk.step
    dsimp only
    split
    · exact .same
    · exact .same

/-- The runs are numbered as they come. -/
def Numbered (s : Desk) : Prop := s.runs.map AgentRun.id = List.range s.runs.length

def Desk.queued (s : Desk) (agent_id : ℕ) : ℕ := s.runs.countP fun r => r.agent_id = agent_id ∧ r.status = .queued
def Desk.at_work (s : Desk) (agent_id : ℕ) : ℕ := s.runs.countP fun r => r.agent_id = agent_id ∧ r.status = .running

def Desk.run_of (s : Desk) (run_id : ℕ) : Option AgentRun := s.runs.find? (·.id = run_id)

theorem Numbered.nodup (h : Numbered s) : (s.runs.map AgentRun.id).Nodup := by
  rw [h]
  exact List.nodup_range

variable {g : AgentRun → AgentRun}

theorem numbered_map (hg : ∀ r, (g r).id = r.id) (h : Numbered s) {t : Desk}
    (ht : t.runs = s.runs.map g) : Numbered t := by
  rw [Numbered, ht, List.map_map, List.length_map, ← h]
  exact List.map_congr_left fun r _ => hg r

theorem numbered_snoc {r : AgentRun} (hr : r.id = s.runs.length) (h : Numbered s) {t : Desk}
    (ht : t.runs = s.runs ++ [r]) : Numbered t := by
  rw [Numbered, ht, List.map_append, h, List.length_append, List.length_singleton, List.range_succ, List.map_singleton, hr]

theorem Numbered.step (h : Numbered s) (e : Event) : Numbered (s.step e) := by
  generalize ht : s.step e = t
  have hruns := ht ▸ runs_step s e
  generalize hl : t.runs = l at hruns
  cases hruns with
  | same => rwa [Numbered, hl]
  | merged g hg => exact numbered_map (fun r => (hg r).1) h hl
  | queued r hid => exact numbered_snoc hid h hl
  | opened r hid => exact numbered_snoc hid h hl
  | started => exact numbered_map (fun r => by split <;> rfl) h hl
  | finished run g _ _ hg => exact numbered_map (fun r => (hg r).1) h hl

theorem countP_map_le {α : Type} {l : List α} {g : α → α} {p : α → Bool} (h : ∀ x ∈ l, p (g x) → p x) :
    (l.map g).countP p ≤ l.countP p := by
  rw [List.countP_map]
  exact List.countP_mono_left fun x hx hp => h x hx hp

theorem countP_snoc_none {l : List AgentRun} {r : AgentRun} {p : AgentRun → Bool} (h : p r → ∀ x ∈ l, ¬ p x)
    (hle : l.countP p ≤ 1) : (l ++ [r]).countP p ≤ 1 := by
  rw [List.countP_append, List.countP_singleton]
  split
  · rename_i hr
    rw [List.countP_eq_zero.mpr (h hr)]
  · exact hle

/-- Where runs keep their agents and statuses, or one of them ends, no more of them are live. -/
theorem countP_merged
    (hg : ∀ r, (g r).id = r.id ∧ (g r).agent_id = r.agent_id ∧ (g r).status = r.status) (a : ℕ) (status : RunStatus) :
    (s.runs.map g).countP (fun r => r.agent_id = a ∧ r.status = status) ≤
      s.runs.countP fun r => r.agent_id = a ∧ r.status = status :=
  countP_map_le fun r _ hr => by simpa only [(hg r).2.1, (hg r).2.2] using hr

theorem countP_finished {run : AgentRun}
    (hg : ∀ r, (g r).id = r.id ∧ (g r).agent_id = r.agent_id ∧ (r.id ≠ run.id → g r = r) ∧
      (r.id = run.id → ¬ Live (g r).status)) (a : ℕ) {status : RunStatus} (hlive : Live status) :
    (s.runs.map g).countP (fun r => r.agent_id = a ∧ r.status = status) ≤
      s.runs.countP fun r => r.agent_id = a ∧ r.status = status := by
  refine countP_map_le fun r _ hr => ?_
  obtain ⟨-, -, hother, hended⟩ := hg r
  by_cases hid : r.id = run.id
  · exact absurd ((of_decide_eq_true hr).2 ▸ hlive) (hended hid)
  · rwa [hother hid] at hr

theorem queued_step (e : Event) (a : ℕ) (h : s.queued a ≤ 1) : (s.step e).queued a ≤ 1 := by
  rw [Desk.queued]
  have hruns := runs_step s e
  generalize (s.step e).runs = l at hruns
  cases hruns with
  | same => exact h
  | merged g hg => exact (countP_merged hg a _).trans h
  | queued r hid hstatus hnone =>
    refine countP_snoc_none (fun hr x hx hxq => ?_) h
    obtain ⟨rfl, -⟩ := of_decide_eq_true hr
    have := List.any_eq_false.mp hnone x hx
    exact this (by simpa [AgentRun.queued] using hxq)
  | opened r hid hstatus =>
    refine countP_snoc_none (fun hr => ?_) h
    exact absurd (hstatus.symm.trans (of_decide_eq_true hr).2) (by simp)
  | started runners now p rest =>
    refine (countP_map_le fun r _ hr => ?_).trans h
    split at hr
    · simp at hr
    · exact hr
  | finished run g _ _ hg => exact (countP_finished hg a (.inl rfl)).trans h

theorem countP_id_le (h : Numbered s) (i : ℕ) : s.runs.countP (·.id = i) ≤ 1 := by
  have hcount := List.nodup_iff_count_le_one.mp h.nodup i
  rwa [List.count_eq_countP, List.countP_map] at hcount

theorem at_work_step {e : Event} (hfresh : Fresh s e) (hn : Numbered s) (a : ℕ) (h : s.at_work a ≤ 1) :
    (s.step e).at_work a ≤ 1 := by
  rw [Desk.at_work]
  have hruns := runs_step s e
  generalize (s.step e).runs = l at hruns
  cases hruns with
  | same => exact h
  | merged g hg => exact (countP_merged hg a _).trans h
  | queued r hid hstatus =>
    refine countP_snoc_none (fun hr => ?_) h
    exact absurd (hstatus.symm.trans (of_decide_eq_true hr).2) (by simp)
  | opened r hid hstatus hfree =>
    refine countP_snoc_none (fun hr x hx hxr => ?_) h
    obtain ⟨rfl, -⟩ := of_decide_eq_true hr
    exact List.any_eq_false.mp hfree x hx hxr
  | started runners now p rest he hpicked hrunning hdriven =>
    subst he
    have hstart := hfresh p (by rw [hpicked]; rfl) hrunning hdriven
    by_cases hmine : ∃ r ∈ s.runs, r.id = p.run.id ∧ r.agent_id = a
    · -- the agent had none running, and one id is one run
      obtain ⟨r, hr, hid, rfl⟩ := hmine
      have hfree := (hstart r hr hid).2
      refine le_trans ?_ (countP_id_le hn p.run.id)
      rw [List.countP_map]
      refine List.countP_mono_left fun x hx hxr => ?_
      by_contra hother
      rw [Function.comp_apply, if_neg fun h => hother (decide_eq_true h)] at hxr
      exact List.any_eq_false.mp hfree x hx hxr
    · refine (countP_map_le fun r hr hrr => ?_).trans h
      split at hrr
      · rename_i hid
        exact absurd ⟨r, hr, hid, (of_decide_eq_true hrr).1⟩ hmine
      · exact hrr
  | finished run g _ _ hg => exact (countP_finished hg a (.inr rfl)).trans h

theorem find_map {l : List AgentRun} (hg : ∀ r, (g r).id = r.id) (i : ℕ) :
    (l.map g).find? (·.id = i) = (l.find? (·.id = i)).map g := by
  rw [List.find?_map]
  simp only [Function.comp_def, hg]

/-- A run that has ended is as it ended. -/
theorem ended_step {e : Event} (hfresh : Fresh s e) (hn : Numbered s) {i : ℕ} {r : AgentRun} (hr : s.run_of i = some r)
    (hended : ¬ Live r.status) : ∃ r', (s.step e).run_of i = some r' ∧ r'.status = r.status := by
  have hmem := List.mem_of_find?_eq_some hr
  have hid : r.id = i := of_decide_eq_true (List.find?_some hr :)
  have hfind : s.runs.find? (·.id = i) = some r := hr
  rw [Desk.run_of]
  have hruns := runs_step s e
  generalize (s.step e).runs = l at hruns
  cases hruns with
  | same => exact ⟨r, hr, rfl⟩
  | merged g hg => exact ⟨g r, by rw [find_map fun r => (hg r).1, hfind, Option.map_some], (hg r).2.2⟩
  | queued q => exact ⟨r, by rw [List.find?_append, hfind, Option.some_or], rfl⟩
  | opened q => exact ⟨r, by rw [List.find?_append, hfind, Option.some_or], rfl⟩
  | started runners now p rest he hpicked hrunning hdriven =>
    subst he
    have hne : r.id ≠ p.run.id := fun heq =>
      hended (.inl (hfresh p (by rw [hpicked]; rfl) hrunning hdriven r hmem heq).1)
    refine ⟨_, by rw [find_map fun r => by split <;> rfl, hfind, Option.map_some], ?_⟩
    rw [if_neg hne]
  | finished run g hrun hlive hg =>
    have hne : r.id ≠ run.id := fun heq =>
      hended (List.inj_on_of_nodup_map hn.nodup hmem hrun heq ▸ hlive)
    exact ⟨g r, by rw [find_map fun r => (hg r).1, hfind, Option.map_some], by rw [(hg r).2.2.1 hne]⟩

end Rows

section States
variable {s : Desk}

/-- What becomes of an agent that does not work. -/
theorem idle_step {e : Event} (hfresh : Fresh s e) (h : s.status a = some st)
    (hidle : st.works = false) :
    (s.step e).status a = some st ∨ e = .terminate a ∧ (s.step e).status a = some .terminated ∨
      st ≠ .terminated ∧ ((∃ who, e = .resume a who ∧ who.may_run a) ∨ (s.step e).status a = some .paused) := by
  obtain ⟨st', hst, hmoves⟩ := status_step (e := e) h
  rw [hst]
  obtain ⟨x, hx, rfl⟩ := Option.map_eq_some_iff.mp h
  cases hmoves with
  | stays => exact .inl rfl
  | rests h => exact absurd hidle (by simp [h, AgentStatus.works])
  | begins h => rcases h with h | h <;> exact absurd hidle (by simp [h, AgentStatus.works])
  | pauses who he hlive => exact .inr (.inr ⟨hlive, .inr rfl⟩)
  | resumes who he hmay hrest => exact .inr (.inr ⟨fun ht => by simp [ht] at hrest, .inl ⟨who, he, hmay⟩⟩)
  | retires he => exact .inr (.inl ⟨he, rfl⟩)
  | undelivered i detail now task he htask hdriven ha =>
    subst he ha
    exact absurd ((hfresh task htask rfl hdriven x hx).symm.trans hidle) (by decide)
  | overspent i outcome error cost_cents month now task he htask hdriven hover ha =>
    subst he ha
    exact .inr (.inr ⟨hfresh task htask hdriven hover x hx, .inr rfl⟩)

theorem terminated_step {e : Event} (hfresh : Fresh s e) {a : ℕ} (h : s.status a = some .terminated) :
    (s.step e).status a = some .terminated := by
  rcases idle_step hfresh h rfl with h | ⟨-, h⟩ | ⟨hne, -⟩
  · exact h
  · exact h
  · exact absurd rfl hne

/-- A paused agent is resumed by who may, or retired. -/
theorem paused_step {e : Event} (hfresh : Fresh s e) {a : ℕ} (h : s.status a = some .paused) :
    (s.step e).status a = some .paused ∨ (∃ who, e = .resume a who ∧ who.may_run a) ∨ e = .terminate a := by
  rcases idle_step hfresh h rfl with h | ⟨he, -⟩ | ⟨-, hwho | h⟩
  · exact .inl h
  · exact .inr (.inr he)
  · exact .inr (.inl hwho)
  · exact .inl h

/-- One run at work for each agent, and the runs in their order. -/
structure Orderly (s : Desk) : Prop where
  numbered : Numbered s
  at_work : ∀ a, s.at_work a ≤ 1

theorem Orderly.step (h : Orderly s) {e : Event} (hfresh : Fresh s e) : Orderly (s.step e) :=
  ⟨h.numbered.step e, fun a => at_work_step hfresh h.numbered a (h.at_work a)⟩

theorem orderly_init : Orderly Desk.init := ⟨rfl, fun _ => Nat.zero_le 1⟩

theorem orderly_run (es : List Event) (h : Orderly s) (hm : Meets Desk.step Fresh s es) : Orderly (run Desk.step s es) :=
  run_invariant (I := Orderly) (fun _ _ h hfresh => h.step hfresh) s es h hm

theorem queued_run (es : List Event) (a : ℕ) (h : s.queued a ≤ 1) : (run Desk.step s es).queued a ≤ 1 := by
  induction es generalizing s with
  | nil => exact h
  | cons e es ih => exact ih (queued_step e a h)

theorem ended_run (es : List Event) (h : Orderly s) (hm : Meets Desk.step Fresh s es) {i : ℕ} {r : AgentRun}
    (hr : s.run_of i = some r) (hended : ¬ Live r.status) :
    ∃ r', (run Desk.step s es).run_of i = some r' ∧ r'.status = r.status := by
  induction es generalizing s r with
  | nil => exact ⟨r, hr, rfl⟩
  | cons e es ih =>
    obtain ⟨q, hq, hsame⟩ := ended_step hm.1 h.numbered hr hended
    obtain ⟨r', hr', hstatus⟩ := ih (h.step hm.1) hm.2 hq (by rwa [hsame])
    exact ⟨r', hr', hstatus.trans hsame⟩

theorem terminated_run (es : List Event) (hm : Meets Desk.step Fresh s es) {a : ℕ} (h : s.status a = some .terminated) :
    (run Desk.step s es).status a = some .terminated := by
  induction es generalizing s with
  | nil => exact h
  | cons e es ih => exact ih hm.2 (terminated_step hm.1 h)

end States

/-- An agent has at most one queued run, whatever happens; and where each background write finds what it was decided
on, at most one at work, what has ended or was retired stays so, and who is paused is resumed by who may, or retired. -/
theorem agents_and_runs (es fs : List Event) :
    (∀ a, (run Desk.step Desk.init es).queued a ≤ 1) ∧
    (Meets Desk.step Fresh Desk.init (es ++ fs) →
      let s := run Desk.step Desk.init es
      (∀ a, s.at_work a ≤ 1) ∧
      (∀ i r, s.run_of i = some r → ¬ Live r.status →
        ∃ r', (run Desk.step s fs).run_of i = some r' ∧ r'.status = r.status) ∧
      (∀ a, s.status a = some .terminated → (run Desk.step s fs).status a = some .terminated) ∧
      ∀ a e, Fresh s e → s.status a = some .paused →
        (s.step e).status a = some .paused ∨ (∃ who, e = .resume a who ∧ who.may_run a) ∨ e = .terminate a) := by
  refine ⟨fun a => queued_run es a (Nat.zero_le 1), fun h => ?_⟩
  intro s
  obtain ⟨hes, hfs⟩ := (meets_append Desk.init es fs).mp h
  have horderly : Orderly s := orderly_run es orderly_init hes
  exact ⟨horderly.at_work, fun i r hr hended => ended_run fs horderly hfs hr hended,
    fun a ha => terminated_run fs hfs ha, fun a e hfresh ha => paused_step hfresh ha⟩

/-- A head of the NOC, and an engineer below. -/
def staff : List Event :=
  [.hire ⟨0, "head", 4, none, false, true, .claude, 0, none, 900, none, .idle⟩ 0,
    .hire ⟨0, "engineer", 1, some 0, true, true, .webhook, 0, none, 900, none, .idle⟩ 0]

def after (es : List Event) : Desk := run Desk.step Desk.init (staff ++ es)

/-- The engineer is woken, and its webhook fails; it is paused and retired. -/
def fired : List Event :=
  [.wake 1 .assignment none 0, .look, .start ⟨true, false⟩ 1, .delivered 0 false "refused" 2, .pause 1 .person, .terminate 1]

theorem agents_and_runs_fired : (after fired).status 1 = some .terminated ∧
    (run Desk.step (after fired) [.wake 1 .timer none 3, .look]).status 1 = some .terminated :=
  have h := (agents_and_runs (staff ++ fired) [.wake 1 .timer none 3, .look]).2 (by decide +kernel)
  ⟨by decide +kernel, h.2.2.1 1 (by decide +kernel)⟩

/-- A paused agent is resumed by the agent above it. And what was decided on what was read may no longer be so when
it is written: a run that was cancelled is started, one is started beside another, a retired agent is in error. -/
theorem paused_resumed : (¬ ∀ (es : List Event) (e : Event) (a : ℕ),
      (run Desk.step Desk.init es).status a = some .paused →
      (run Desk.step Desk.init (es ++ [e])).status a ≠ some .paused → e = .resume a .person) ∧
    ((after [.wake 1 .assignment none 0, .look, .finish 0 none true 1, .start ⟨true, false⟩ 2]).run_of 0).map
      (·.status) = some .running ∧
    (after [.wake 1 .assignment none 0, .look, .call 1 1, .start ⟨true, false⟩ 2]).at_work 1 = 2 ∧
    (after [.wake 1 .assignment none 0, .look, .start ⟨true, false⟩ 1, .terminate 1,
      .delivered 0 false "refused" 2]).status 1 = some .error := by
  refine ⟨fun h => ?_, by decide +kernel⟩
  have hresumed := h (staff ++ [.pause 1 .person]) (.resume 1 (.agent 0 (after []).agents)) 1
    (by decide +kernel) (by decide +kernel)
  exact absurd hresumed (by decide +kernel)

end NetCoreNoc.Noc.AgentRuns
