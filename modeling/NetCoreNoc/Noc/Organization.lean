import Mathlib
import NetCoreNoc.Checks
import NetCoreNoc.Forests
import NetCoreNoc.Runs
import NetCoreNoc.Noc.Lifecycle

/-! The chain of command: who reports to whom as agents are hired, moved and retired (`engine/noc/agents.py`,
`api/routes/agents.py`), and how a case climbs it (`engine/noc/routing.py`). -/
namespace NetCoreNoc.Noc.Organization
open Noc Runs Forests Relation Agents

/-- `agents.get(current, {}).get("reports_to")` -/
def boss_of (everyone : List Agent) (agent_id : ℕ) : Option ℕ := (agent_of everyone agent_id).bind Agent.reports_to

/-- The loop of `cycle`; none where the fuel runs out. -/
def cycle (everyone : List Agent) : ℕ → List ℕ → Option ℕ → Option Bool
  | _, _, none => some false
  | 0, _, some _ => none
  | n + 1, seen, some current =>
    if current ∈ seen then some true else cycle everyone n (current :: seen) (boss_of everyone current)

/-- The loop of `chain`: the managers, nearest first. -/
def chain (everyone : List Agent) (agent_id : ℕ) : ℕ → List ℕ → Option ℕ → Option (List ℕ)
  | _, out, none => some out
  | 0, _, some _ => none
  | n + 1, out, some current =>
    if current ∈ out ∨ current = agent_id then some out
    else chain everyone agent_id n (out ++ [current]) (boss_of everyone current)

/-- The loop of `escalate`: the nearest manager who can work, if there is one. -/
def climb (everyone : List Agent) : ℕ → Option ℕ → Option (Option Agent)
  | _, none => some none
  | 0, some _ => none
  | n + 1, some boss =>
    match agent_of everyone boss with
    | none => some none
    | some manager => if manager.status.works then some (some manager) else climb everyone n manager.reports_to

/-- The agents that are not retired. -/
def everyone (agents : List Agent) : List Agent := agents.filter (·.status ≠ .terminated)

/-- The settings of a request; one that is not given stays. -/
structure Patch where
  name : Option String := none
  tier : Option ℕ := none
  /-- to another agent, or to the NOC team -/
  reports_to : Option (Option ℕ) := none
  entry : Option Bool := none
  wake_on_assignment : Option Bool := none
  adapter : Option Adapter := none
  heartbeat_s : Option ℕ := none
  escalate_after_s : Option (Option ℕ) := none
  run_timeout_s : Option ℕ := none

def Patch.apply (p : Patch) (a : Agent) : Agent := { a with
  name := p.name.getD a.name
  tier := p.tier.getD a.tier
  reports_to := p.reports_to.getD a.reports_to
  entry := p.entry.getD a.entry
  wake_on_assignment := p.wake_on_assignment.getD a.wake_on_assignment
  adapter := p.adapter.getD a.adapter
  heartbeat_s := p.heartbeat_s.getD a.heartbeat_s
  escalate_after_s := p.escalate_after_s.getD a.escalate_after_s
  run_timeout_s := p.run_timeout_s.getD a.run_timeout_s }

/-- What becomes of the agents. A request may also fail for a reason of its own, and is rolled back then. -/
inductive OrgOp where
  | hire (agent : Agent) (commits : Bool)
  | update (agent_id : ℕ) (patch : Patch) (commits : Bool)
  | terminate (agent_id : ℕ) (commits : Bool)
  | pause (agent_id : ℕ) (commits : Bool)
  | resume (agent_id : ℕ) (commits : Bool)
  /-- a run begins, or ends -/
  | begins (agent_id : ℕ) (now : ℚ)
  | rests (agent_id : ℕ)
  /-- a wake-up that failed, and a budget that is spent: the status is set whatever it has become -/
  | failed (agent_id : ℕ)
  | spent (agent_id : ℕ)

section Requests
variable (agents : List Agent)

/-- A manager that exists and works, and no loop. -/
def check_links (reports_to : Option ℕ) (agent_id : Option ℕ) : Bool :=
  reports_to.all fun boss => (subject agents boss).isSome &&
    agent_id.all fun a => cycle (everyone agents) ((everyone agents).length + 1) [a] (some boss) = some false

def hire_agent (agent : Agent) : List Agent :=
  if (agent_of agents agent.id).isNone ∧ check_links agents agent.reports_to none then
    agents ++ [{ agent with status := .idle }]
  else agents

def update_agent (agent_id : ℕ) (patch : Patch) : List Agent :=
  if (subject agents agent_id).isSome ∧ check_links agents patch.reports_to.join (some agent_id) then
    Agents.amend agents agent_id patch.apply
  else agents

def OrgOp.apply : OrgOp → List Agent
  | .hire agent commits => if commits then hire_agent agents agent else agents
  | .update agent_id patch commits => if commits then update_agent agents agent_id patch else agents
  | .terminate agent_id commits => if commits then terminate_agent agents agent_id else agents
  | .pause agent_id commits => if commits then pause_agent agents agent_id else agents
  | .resume agent_id commits => if commits then resume_agent agents agent_id else agents
  | .begins agent_id now => busy agents agent_id now
  | .rests agent_id => rest agents agent_id
  | .failed agent_id => noc_set_agent_status agents agent_id .error
  | .spent agent_id => noc_set_agent_status agents agent_id .paused

end Requests

/-- What happens to the agents, and everything that is done to the cases, escalations among it. -/
inductive Op where
  | org (op : OrgOp)
  | act (op : CaseOp)

def step (s : Shift) : Op → Shift
  | .org op => { s with floor := { s.floor with agents := op.apply s.floor.agents } }
  -- the agents are what the other operations make of them
  | .act (.agents _) => s
  | .act op => s.step op

/-- An agent reports to another. -/
def Reports (agents : List Agent) (a b : ℕ) : Prop := ∃ x ∈ agents, x.id = a ∧ x.reports_to = some b

/-- An agent is strictly above another. -/
def Above (agents : List Agent) : ℕ → ℕ → Prop := TransGen (Reports agents)

/-- The chain of command is a forest, and nobody who is with the NOC reports to someone who has left it. -/
structure Forest (agents : List Agent) : Prop where
  ids : (agents.map Agent.id).Nodup
  loopless : Loopless (Reports agents)
  led : ∀ a ∈ agents, a.status ≠ .terminated → ∀ b, a.reports_to = some b →
    ∃ m ∈ agents, m.id = b ∧ m.status ≠ .terminated
  known : ∀ a ∈ agents, ∀ b, a.reports_to = some b → ∃ m ∈ agents, m.id = b

/-- Every loop over the organization comes to its end. -/
structure Ends (people : List Agent) : Prop where
  cycle : ∀ a boss, (Organization.cycle people (people.length + 1) [a] boss).isSome
  chain : ∀ a, ∃ n out, Organization.chain people a n [] (boss_of people a) = some out
  subtree : ∀ a, ∃ out, Agents.subtree people (2 * people.length) (reports people a).reverse ∅ = some out
  climb : ∀ boss, ∃ n, Organization.climb people n boss = some (nearest people people.length boss)

/-- What an escalation leaves of a case that climbed from an agent: it is with an agent strictly above that one, who
can work, or with the NOC team. Where it was not to climb it may be left as it was. -/
structure Climbed (s t : Floor) (sid : ℕ) (asked : Case → Prop) (source : Case → Option ℕ) : Prop where
  agents : t.agents = s.agents
  others : ∀ other ≠ sid, t.case other = s.case other
  handed : ∀ f, s.case sid = some f → ∃ g, t.case sid = some g ∧ f.case.tier ≤ g.case.tier ∧
    (¬ asked f.case ∧ g = f ∨ g.case.agent_id = none ∧ g.case.with_people = true ∨
      ∃ a m, source f.case = some a ∧ g.case.agent_id = some m ∧ Above s.noc_agents a m ∧ s.works m)

section Agents
variable {s : Floor} {sid : ℕ} {now : ℚ}

private theorem agents_wake_back : (s.wake_back sid now).agents = s.agents := by
  unfold Floor.wake_back
  split
  · split
    · exact Floor.agents_noc_wake ..
    · rfl
  · rfl

private theorem agents_act (k : CaseFile → Except CaseError CaseFile) : (s.act sid k).agents = s.agents := by
  unfold Floor.act
  split
  · split <;> rfl
  · rfl

private theorem agents_requeue (reason : CycleReason) (worst : Option Severity) :
    (s.requeue sid reason now worst).agents = s.agents :=
  agents_wake_back

private theorem agents_post (author : Actor) (worst : Option Severity) :
    (s.post sid author now worst).agents = s.agents := by
  unfold Floor.post
  split
  · split
    · exact agents_requeue _ _
    · rfl
  · rfl

private theorem agents_granted (worst : Option Severity) : (s.granted sid now worst).agents = s.agents := by
  unfold Floor.granted
  split
  · split
    · exact agents_requeue _ _
    · rfl
  · rfl

private theorem agents_assign_case (actor : Actor) (me : Option ℕ) (manages : Bool) (agent_id : Option ℕ) :
    (s.assign_case sid actor me manages agent_id now).agents = s.agents := by
  unfold Floor.assign_case
  split
  · split
    · split
      · rfl
      · split
        · split
          · rename_i t h
            exact (Floor.assign_ok h).2.2.1
          · rfl
        · rfl
    · rfl
  · rfl

private theorem agents_escalate_case (actor : Actor) (me : Option ℕ) (manages : Bool) :
    (s.escalate_case sid actor me manages now).agents = s.agents := by
  unfold Floor.escalate_case
  split
  · split
    · split
      · rename_i t h
        exact (Floor.escalate_ok h).1
      · rfl
    · rfl
  · rfl

private theorem agents_conclude (actor : Actor) (leaf : Leaf) (worst : Option Severity) :
    (s.conclude sid actor leaf now worst).agents = s.agents := by
  unfold Floor.conclude
  split
  · split
    · split
      · split
        · rfl
        · exact agents_requeue _ _
      · split
        · dsimp only
          split
          · exact agents_wake_back
          · rfl
        · exact agents_requeue _ _
      · exact agents_requeue _ _
    · rfl
  · rfl

private theorem agents_opened (severity : Option Severity) :
    (s.noc_case_open sid severity now).agents = s.agents := by
  unfold Floor.noc_case_open
  split <;> rfl

end Agents

private theorem agents_route {l : Look} {s t : Floor} {loads loads' : ℕ → ℕ} {now : ℚ} {sid : ℕ}
    (h : l.route now (s, loads) sid = .ok (t, loads')) : t.agents = s.agents := by
  unfold Look.route at h
  dsimp only at h
  split at h
  · split at h
    · obtain ⟨u, hu, h⟩ := Checks.bind_ok.mp h
      obtain ⟨rfl, -⟩ := Prod.mk.inj (Except.ok.inj h)
      exact (Floor.assign_ok hu).2.2.1
    · exact (Prod.mk.inj (Except.ok.inj h)).1 ▸ rfl
  · exact (Prod.mk.inj (Except.ok.inj h)).1 ▸ rfl

private theorem agents_climb {l : Look} {s t : Floor} {now : ℚ} {row : ℕ × Case} (h : l.climb now s row = .ok t) :
    t.agents = s.agents := by
  unfold Look.climb at h
  split at h
  · split at h
    · exact (Floor.escalate_ok h).1
    · exact Except.ok.inj h ▸ rfl
  · exact Except.ok.inj h ▸ rfl

/-- What is done to the cases leaves the agents alone. -/
private theorem agents_step (s : Shift) (op : CaseOp) : (step s (.act op)).floor.agents = s.floor.agents := by
  cases op with
  | agents | broker | notice | look => rfl
  | opened sid severity now => exact agents_opened severity
  | take | release | update | set_status | resolve => exact agents_act _
  | post sid author now worst => exact agents_post author worst
  | granted sid now worst => exact agents_granted worst
  | assign sid actor me manages agent_id now => exact agents_assign_case actor me manages agent_id
  | escalate sid actor me manages now => exact agents_escalate_case actor me manages
  | conclude sid actor leaf now worst => exact agents_conclude actor leaf worst
  | rising sid worst =>
    show (Shift.step s (.rising sid worst)).floor.agents = _
    unfold Shift.step
    dsimp only
    split <;> rfl
  | hear sid now worst =>
    show (Shift.step s (.hear sid now worst)).floor.agents = _
    unfold Shift.step
    dsimp only
    split
    · exact agents_requeue _ _
    · rfl
  | dispatch sid automate now worst =>
    show (Shift.step s (.dispatch sid automate now worst)).floor.agents = _
    unfold Shift.step
    dsimp only
    split <;> rfl
  | due sid now worst =>
    show (Shift.step s (.due sid now worst)).floor.agents = _
    unfold Shift.step
    dsimp only
    split
    · exact agents_requeue _ _
    · rfl
  | orphaned sid now =>
    show (Shift.step s (.orphaned sid now)).floor.agents = _
    unfold Shift.step
    dsimp only
    split <;> rfl
  | stale sid now =>
    show (Shift.step s (.stale sid now)).floor.agents = _
    unfold Shift.step
    dsimp only
    split
    · split <;> rfl
    · rfl
  | route sid now =>
    show (Shift.step s (.route sid now)).floor.agents = _
    unfold Shift.step
    dsimp only
    split
    · rename_i l _
      split
      · split
        · rename_i t loads h
          exact agents_route h
        · rfl
      · rfl
    · rfl
  | climb sid now =>
    show (Shift.step s (.climb sid now)).floor.agents = _
    unfold Shift.step
    dsimp only
    split
    · rename_i l _
      split
      · rename_i row _
        split
        · rename_i t h
          exact agents_climb h
        · rfl
      · rfl
    · rfl

section Rows
variable {agents : List Agent}

private theorem agent_of_mem {people : List Agent} (hids : (people.map Agent.id).Nodup) {x : Agent} (h : x ∈ people) :
    agent_of people x.id = some x := by
  obtain ⟨y, hy⟩ : ∃ y, agent_of people x.id = some y :=
    Option.isSome_iff_exists.mp (List.find?_isSome.mpr ⟨x, h, by simp⟩)
  obtain ⟨hmem, hid⟩ := agent_mem hy
  rw [hy, List.inj_on_of_nodup_map hids hmem h hid]

private theorem boss_iff {people : List Agent} (hids : (people.map Agent.id).Nodup) {a b : ℕ} :
    boss_of people a = some b ↔ Reports people a b := by
  constructor
  · intro h
    obtain ⟨x, hx, hb⟩ := Option.bind_eq_some_iff.mp h
    obtain ⟨hmem, hid⟩ := agent_mem hx
    exact ⟨x, hmem, hid, hb⟩
  · rintro ⟨x, hx, rfl, hb⟩
    exact Option.bind_eq_some_iff.mpr ⟨x, agent_of_mem hids hx, hb⟩

/-- A change that keeps who they are, brings nobody back, makes no loop and leaves everyone a manager that stays. -/
private theorem Forest.mapped (h : Forest agents) {g : Agent → Agent} (hid : ∀ a, (g a).id = a.id)
    (hloop : Loopless (Reports (agents.map g)))
    (hboss : ∀ a ∈ agents, ∀ b, (g a).reports_to = some b →
      ∃ m ∈ agents, m.id = b ∧ ((g a).status ≠ .terminated → (g m).status ≠ .terminated)) : Forest (agents.map g) := by
  have hids : (agents.map g).map Agent.id = agents.map Agent.id := by
    rw [List.map_map]
    exact List.map_congr_left fun a _ => hid a
  refine ⟨hids ▸ h.ids, hloop, fun y hy hlive b hb => ?_, fun y hy b hb => ?_⟩
  · obtain ⟨x, hx, rfl⟩ := List.mem_map.mp hy
    obtain ⟨m, hm, hmid, hstays⟩ := hboss x hx b hb
    exact ⟨g m, List.mem_map_of_mem hm, (hid m).trans hmid, hstays hlive⟩
  · obtain ⟨x, hx, rfl⟩ := List.mem_map.mp hy
    obtain ⟨m, hm, hmid, -⟩ := hboss x hx b hb
    exact ⟨g m, List.mem_map_of_mem hm, (hid m).trans hmid⟩

/-- The manager of an agent, one who is still there where the agent is. -/
private theorem Forest.manager (h : Forest agents) {a : Agent} (ha : a ∈ agents) {b : ℕ} (hb : a.reports_to = some b) :
    ∃ m ∈ agents, m.id = b ∧ (a.status ≠ .terminated → m.status ≠ .terminated) := by
  by_cases hlive : a.status = .terminated
  · obtain ⟨m, hm, hid⟩ := h.known a ha b hb
    exact ⟨m, hm, hid, fun hne => absurd hlive hne⟩
  · obtain ⟨m, hm, hid, hml⟩ := h.led a ha hlive b hb
    exact ⟨m, hm, hid, fun _ => hml⟩

/-- A change that leaves everyone's manager, and who has left. -/
private theorem Forest.restated (h : Forest agents) {g : Agent → Agent}
    (hg : ∀ a ∈ agents, (g a).id = a.id ∧ (g a).reports_to = a.reports_to ∧
      ((g a).status = .terminated ↔ a.status = .terminated)) (hid : ∀ a, (g a).id = a.id) : Forest (agents.map g) := by
  refine h.mapped hid (h.loopless.of_paths fun a b => ?_) fun a ha b hb => ?_
  · rintro ⟨_, hy, rfl, hb⟩
    obtain ⟨x, hx, rfl⟩ := List.mem_map.mp hy
    exact .single ⟨x, hx, (hid x).symm, (hg x hx).2.1.symm.trans hb⟩
  · obtain ⟨m, hm, hmid, hstays⟩ := h.manager ha ((hg a ha).2.1.symm.trans hb)
    exact ⟨m, hm, hmid, fun hlive => mt (hg m hm).2.2.mp (hstays (mt (hg a ha).2.2.mpr hlive))⟩

/-- A status that is not retirement, of an agent who has not left. -/
private theorem Forest.status (h : Forest agents) {agent_id : ℕ} {status : AgentStatus}
    (hstatus : status ≠ .terminated) (hlive : ∀ a ∈ agents, a.id = agent_id → a.status ≠ .terminated) :
    Forest (noc_set_agent_status agents agent_id status) := by
  refine h.restated (fun a ha => ?_) fun a => ?_
  · split
    · rename_i hid
      exact ⟨rfl, rfl, iff_of_false hstatus (hlive a ha hid)⟩
    · exact ⟨rfl, rfl, .rfl⟩
  · split <;> rfl

private theorem live_of_subject (h : Forest agents) {agent_id : ℕ} {x : Agent}
    (hx : subject agents agent_id = some x) :
    ∀ a ∈ agents, a.id = agent_id → a.status ≠ .terminated := by
  obtain ⟨hagent, hlive⟩ := subject_some hx
  obtain ⟨hmem, hid⟩ := agent_mem hagent
  intro a ha haid
  rwa [List.inj_on_of_nodup_map h.ids ha hmem (haid.trans hid.symm)]

private theorem Forest.busy (h : Forest agents) (agent_id : ℕ) (now : ℚ) : Forest (busy agents agent_id now) := by
  refine h.restated (fun a _ => ?_) fun a => ?_
  · dsimp only
    split
    · split
      · rename_i hrest
        exact ⟨rfl, rfl, iff_of_false AgentStatus.noConfusion fun ht => by simp [ht] at hrest⟩
      · exact ⟨rfl, rfl, .rfl⟩
    · exact ⟨rfl, rfl, .rfl⟩
  · dsimp only
    split
    · split <;> rfl
    · rfl

private theorem Forest.rest (h : Forest agents) (agent_id : ℕ) : Forest (rest agents agent_id) := by
  refine h.restated (fun a _ => ?_) fun a => ?_
  · split
    · rename_i hrun
      exact ⟨rfl, rfl, iff_of_false AgentStatus.noConfusion fun ht => nomatch ht.symm.trans hrun.2⟩
    · exact ⟨rfl, rfl, .rfl⟩
  · split <;> rfl

/-- Among those who have not left, everyone's manager is one of them. -/
private theorem Forest.people (h : Forest agents) : Forest (everyone agents) := by
  have hsub : (everyone agents).Sublist agents := List.filter_sublist
  have hlive : ∀ {a}, a ∈ everyone agents ↔ a ∈ agents ∧ a.status ≠ .terminated := fun {a} => by
    unfold everyone
    rw [List.mem_filter, decide_eq_true_eq]
  refine ⟨h.ids.sublist (hsub.map _), h.loopless.of_paths fun a b => ?_, fun a ha _ b hb => ?_, fun a ha b hb => ?_⟩
  · rintro ⟨x, hx, hid, hb⟩
    exact .single ⟨x, hsub.subset hx, hid, hb⟩
  · obtain ⟨ha, hal⟩ := hlive.mp ha
    obtain ⟨m, hm, hid, hml⟩ := h.led a ha hal b hb
    exact ⟨m, hlive.mpr ⟨hm, hml⟩, hid, hml⟩
  · obtain ⟨ha, hal⟩ := hlive.mp ha
    obtain ⟨m, hm, hid, hml⟩ := h.led a ha hal b hb
    exact ⟨m, hlive.mpr ⟨hm, hml⟩, hid⟩

/-- From someone who has not left, all that is above has not left. -/
private theorem path_people (h : Forest agents) {x : Agent} (hx : x ∈ agents) (hlive : x.status ≠ .terminated) {b : ℕ}
    (hpath : ReflTransGen (Reports agents) x.id b) : ReflTransGen (Reports (everyone agents)) x.id b ∧
      ∃ m ∈ agents, m.id = b ∧ m.status ≠ .terminated := by
  induction hpath with
  | refl => exact ⟨.refl, x, hx, rfl, hlive⟩
  | tail _ hstep ih =>
    obtain ⟨hpath, m, hm, hid, hml⟩ := ih
    obtain ⟨y, hy, hyid, hyb⟩ := hstep
    obtain rfl := List.inj_on_of_nodup_map h.ids hy hm (hyid.trans hid.symm)
    refine ⟨hpath.tail ⟨y, List.mem_filter.mpr ⟨hy, decide_eq_true hml⟩, hyid, hyb⟩, ?_⟩
    obtain ⟨m, hm, hid, hml⟩ := h.led y hy hml _ hyb
    exact ⟨m, hm, hid, hml⟩

/-- Where the loop finds no cycle, it has passed all that is above, and none of it was seen before. -/
private theorem cycle_false {people : List Agent} : ∀ (n : ℕ) (seen : List ℕ) (current : ℕ),
    cycle people n seen (some current) = some false →
      ∀ b, ReflTransGen (fun x y => boss_of people x = some y) current b → b ∉ seen
  | 0, _, _, h, _, _ => nomatch h
  | n + 1, seen, current, h, b, hpath => by
    unfold cycle at h
    split at h
    · exact nomatch h
    · rename_i hfresh
      rcases ReflTransGen.cases_head hpath with rfl | ⟨c, hstep, hpath⟩
      · exact hfresh
      · rw [hstep] at h
        exact fun hb => cycle_false n (current :: seen) c h b hpath (List.mem_cons_of_mem _ hb)

private theorem Forest.hire (h : Forest agents) (agent : Agent) : Forest (hire_agent agents agent) := by
  unfold hire_agent
  split
  swap
  · exact h
  rename_i hcheck
  obtain ⟨hfresh, hlinks⟩ := hcheck
  have hnew : ∀ a ∈ agents, a.id ≠ agent.id := by
    intro a ha hid
    have := List.find?_eq_none.mp (Option.isNone_iff_eq_none.mp hfresh) a ha
    exact this (decide_eq_true hid)
  have hboss : ∀ b, agent.reports_to = some b → ∃ m ∈ agents, m.id = b ∧ m.status ≠ .terminated := by
    intro b hb
    unfold check_links at hlinks
    rw [hb, Option.all_some, Option.all_none, Bool.and_true] at hlinks
    obtain ⟨m, hm⟩ := Option.isSome_iff_exists.mp hlinks
    obtain ⟨hagent, hml⟩ := subject_some hm
    exact ⟨m, (agent_mem hagent).1, (agent_mem hagent).2, hml⟩
  have hloop : Loopless (Reports (agents ++ [{ agent with status := .idle }])) := by
    rcases hb : agent.reports_to with _ | b
    · refine h.loopless.of_paths fun a c => ?_
      rintro ⟨x, hx, hid, hc⟩
      rcases List.mem_append.mp hx with hx | hx
      · exact .single ⟨x, hx, hid, hc⟩
      · obtain rfl := List.mem_singleton.mp hx
        exact nomatch (hc : (none : Option ℕ) = some c)
    · obtain ⟨m, hm, hmid, -⟩ := hboss b hb
      -- nobody reports to the new agent yet
      have hno : ¬ ReflTransGen (Reports agents) b agent.id := by
        intro hpath
        rcases ReflTransGen.cases_tail hpath with heq | ⟨c, -, x, hx, -, hc⟩
        · exact hnew m hm (hmid.trans heq.symm)
        · obtain ⟨y, hy, hyid⟩ := h.known x hx _ hc
          exact hnew y hy hyid
      refine (h.loopless.link hno).of_paths fun a c => ?_
      rintro ⟨x, hx, hid, hc⟩
      rcases List.mem_append.mp hx with hx | hx
      · exact .single (.inl ⟨x, hx, hid, hc⟩)
      · obtain rfl := List.mem_singleton.mp hx
        have hc : some b = some c := hc
        exact .single (.inr ⟨hid.symm, (Option.some.inj hc).symm⟩)
  refine ⟨?_, hloop, fun a ha hlive b hb => ?_, fun a ha b hb => ?_⟩
  · rw [List.map_append, List.nodup_append']
    refine ⟨h.ids, List.nodup_singleton _, List.disjoint_singleton.mpr fun hin => ?_⟩
    obtain ⟨a, ha, hid⟩ := List.mem_map.mp hin
    exact hnew a ha hid
  · rcases List.mem_append.mp ha with ha | ha
    · obtain ⟨m, hm, hid⟩ := h.led a ha hlive b hb
      exact ⟨m, List.mem_append_left _ hm, hid⟩
    · obtain rfl := List.mem_singleton.mp ha
      obtain ⟨m, hm, hid⟩ := hboss b hb
      exact ⟨m, List.mem_append_left _ hm, hid⟩
  · rcases List.mem_append.mp ha with ha | ha
    · obtain ⟨m, hm, hid⟩ := h.known a ha b hb
      exact ⟨m, List.mem_append_left _ hm, hid⟩
    · obtain rfl := List.mem_singleton.mp ha
      obtain ⟨m, hm, hid, -⟩ := hboss b hb
      exact ⟨m, List.mem_append_left _ hm, hid⟩

private theorem Forest.update (h : Forest agents) (agent_id : ℕ) (patch : Patch) :
    Forest (update_agent agents agent_id patch) := by
  unfold update_agent
  split
  swap
  · exact h
  rename_i hcheck
  obtain ⟨-, hlinks⟩ := hcheck
  let g : Agent → Agent := fun a => if a.id = agent_id then patch.apply a else a
  have hid : ∀ a, (g a).id = a.id := fun a => by
    show (if a.id = agent_id then patch.apply a else a).id = a.id
    split <;> rfl
  have hstatus : ∀ a, (g a).status = a.status := fun a => by
    show (if a.id = agent_id then patch.apply a else a).status = a.status
    split <;> rfl
  -- a manager is the one before, or the one that was asked for
  have hboss : ∀ a b, (g a).reports_to = some b → a.reports_to = some b ∨
      a.id = agent_id ∧ patch.reports_to.join = some b := by
    intro a b hb
    have hb : (if a.id = agent_id then patch.apply a else a).reports_to = some b := hb
    split at hb
    · rename_i ha
      have hb : patch.reports_to.getD a.reports_to = some b := hb
      rcases hp : patch.reports_to with _ | boss
      · rw [hp] at hb
        exact .inl hb
      · rw [hp] at hb
        exact .inr ⟨ha, hb⟩
    · exact .inl hb
  have hnew : ∀ b, patch.reports_to.join = some b → (∃ m ∈ agents, m.id = b ∧ m.status ≠ .terminated) ∧
      ¬ ReflTransGen (Reports agents) b agent_id := by
    intro b hb
    unfold check_links at hlinks
    rw [hb, Option.all_some, Option.all_some, Bool.and_eq_true] at hlinks
    obtain ⟨m, hm⟩ := Option.isSome_iff_exists.mp hlinks.1
    obtain ⟨hagent, hml⟩ := subject_some hm
    obtain ⟨hmem, hmid⟩ := agent_mem hagent
    refine ⟨⟨m, hmem, hmid, hml⟩, fun hpath => ?_⟩
    have hpeople := (path_people h hmem hml (hmid.symm ▸ hpath)).1
    rw [hmid] at hpeople
    have hpath : ReflTransGen (fun x y => boss_of (everyone agents) x = some y) b agent_id :=
      hpeople.lift id fun x y hxy => (boss_iff h.people.ids).mpr hxy
    exact cycle_false _ _ _ (of_decide_eq_true hlinks.2) agent_id hpath (List.mem_singleton_self _)
  have hloop : Loopless (Reports (agents.map g)) := by
    rcases hp : patch.reports_to.join with _ | boss
    · refine h.loopless.of_paths fun a c => ?_
      rintro ⟨_, hy, rfl, hc⟩
      obtain ⟨x, hx, rfl⟩ := List.mem_map.mp hy
      rcases hboss x c hc with hc | ⟨-, hc⟩
      · exact .single ⟨x, hx, (hid x).symm, hc⟩
      · rw [hp] at hc
        exact nomatch hc
    · refine (h.loopless.link (hnew boss hp).2).of_paths fun a c => ?_
      rintro ⟨_, hy, rfl, hc⟩
      obtain ⟨x, hx, rfl⟩ := List.mem_map.mp hy
      rcases hboss x c hc with hc | ⟨ha, hc⟩
      · exact .single (.inl ⟨x, hx, (hid x).symm, hc⟩)
      · rw [hp] at hc
        exact .single (.inr ⟨(hid x).trans ha, (Option.some.inj hc).symm⟩)
  refine h.mapped hid hloop fun a ha b hb => ?_
  change ∃ m ∈ agents, m.id = b ∧ ((g a).status ≠ .terminated → (g m).status ≠ .terminated)
  simp only [hstatus]
  rcases hboss a b hb with hb | ⟨-, hb⟩
  · exact h.manager ha hb
  · obtain ⟨m, hm, hmid, hml⟩ := (hnew b hb).1
    exact ⟨m, hm, hmid, fun _ => hml⟩

private theorem Forest.terminate (h : Forest agents) (agent_id : ℕ) : Forest (terminate_agent agents agent_id) := by
  unfold terminate_agent
  split
  swap
  · exact h
  rename_i agent hagent
  obtain ⟨hfind, hagentlive⟩ := subject_some hagent
  obtain ⟨hmem, hagentid⟩ := agent_mem hfind
  let g : Agent → Agent := fun a =>
    if a.reports_to = some agent_id ∧ a.status ≠ .terminated then { a with reports_to := agent.reports_to } else a
  let k : Agent → Agent := fun a => if a.id = agent_id then { a with status := .terminated } else a
  have hg : ∀ a, (g a).id = a.id ∧ (g a).status = a.status := fun a => by
    dsimp only [g]
    split <;> exact ⟨rfl, rfl⟩
  have hk : ∀ a, (k a).id = a.id ∧ (k a).reports_to = a.reports_to ∧
      ((k a).status = .terminated ↔ a.id = agent_id ∨ a.status = .terminated) := fun a => by
    dsimp only [k]
    split
    · rename_i ha
      exact ⟨rfl, rfl, iff_of_true rfl (.inl ha)⟩
    · rename_i ha
      exact ⟨rfl, rfl, by simp [ha]⟩
  have hid : ∀ a, (k (g a)).id = a.id := fun a => (hk _).1.trans (hg a).1
  have hleft : ∀ a, (k (g a)).status = .terminated ↔ a.id = agent_id ∨ a.status = .terminated := fun a => by
    rw [(hk _).2.2, (hg a).1, (hg a).2]
  -- a manager is the one before, or the manager of the agent that leaves; nobody who stays is left with that one
  have hboss : ∀ a b, (k (g a)).reports_to = some b →
      a.reports_to = some b ∧ (b = agent_id → a.status = .terminated) ∨
        a.reports_to = some agent_id ∧ agent.reports_to = some b := by
    intro a b hb
    rw [(hk _).2.1] at hb
    dsimp only [g] at hb
    split at hb
    · rename_i ha
      exact .inr ⟨ha.1, hb⟩
    · rename_i ha
      refine .inl ⟨hb, fun he => by_contra fun hlive => ha ⟨he ▸ hb, hlive⟩⟩
  have hself : agent.reports_to ≠ some agent_id := fun hb =>
    h.loopless agent_id (.single ⟨agent, hmem, hagentid, hb⟩)
  have hmap : noc_set_agent_status (agents.map g) agent_id .terminated = agents.map fun a => k (g a) := List.map_map
  show Forest (noc_set_agent_status (agents.map g) agent_id .terminated)
  rw [hmap]
  refine h.mapped hid (h.loopless.of_paths fun a c => ?_) fun a ha b hb => ?_
  · rintro ⟨_, hy, rfl, hc⟩
    obtain ⟨x, hx, rfl⟩ := List.mem_map.mp hy
    rw [hid x]
    rcases hboss x c hc with ⟨hc, -⟩ | ⟨hx', hc⟩
    · exact .single ⟨x, hx, rfl, hc⟩
    · exact .head ⟨x, hx, rfl, hx'⟩ (.single ⟨agent, hmem, hagentid, hc⟩)
  · rcases hboss a b hb with ⟨hb, hstays⟩ | ⟨-, hb⟩
    · obtain ⟨m, hm, hmid, hml⟩ := h.manager ha hb
      refine ⟨m, hm, hmid, fun hlive ht => ?_⟩
      have halive : a.status ≠ .terminated := fun ht => hlive ((hleft a).mpr (.inr ht))
      rcases (hleft m).mp ht with he | ht
      · exact halive (hstays (hmid.symm.trans he))
      · exact hml halive ht
    · obtain ⟨m, hm, hmid, hml⟩ := h.led agent hmem hagentlive b hb
      refine ⟨m, hm, hmid, fun _ ht => ?_⟩
      rcases (hleft m).mp ht with he | ht
      · exact hself (hb.trans (congrArg some (hmid.symm.trans he)))
      · exact hml ht

/-- What a background write may have overlooked: the agent has left since. -/
def Stays (agents : List Agent) : OrgOp → Prop
  | .failed agent_id | .spent agent_id => ∀ a ∈ agents, a.id = agent_id → a.status ≠ .terminated
  | _ => True

instance (agents : List Agent) : DecidablePred (Stays agents)
  | .failed agent_id | .spent agent_id =>
    inferInstanceAs (Decidable (∀ a ∈ agents, a.id = agent_id → a.status ≠ .terminated))
  | .hire .. | .update .. | .terminate .. | .pause .. | .resume .. | .begins .. | .rests _ => .isTrue trivial

/-- Each change to the organization keeps it a forest. -/
private theorem Forest.apply (h : Forest agents) (op : OrgOp) (hstays : Stays agents op) :
    Forest (op.apply agents) := by
  cases op with
  | hire agent commits =>
    cases commits
    · exact h
    · exact h.hire agent
  | update agent_id patch commits =>
    cases commits
    · exact h
    · exact h.update agent_id patch
  | terminate agent_id commits =>
    cases commits
    · exact h
    · exact h.terminate agent_id
  | pause agent_id commits =>
    cases commits
    · exact h
    show Forest (if (subject agents agent_id).isSome then _ else agents)
    split
    · rename_i hs
      obtain ⟨x, hx⟩ := Option.isSome_iff_exists.mp hs
      exact h.status AgentStatus.noConfusion (live_of_subject h hx)
    · exact h
  | resume agent_id commits =>
    cases commits
    · exact h
    show Forest (if (subject agents agent_id).any _ then _ else agents)
    split
    · rename_i hs
      rcases hx : subject agents agent_id with _ | x
      · rw [hx] at hs
        exact nomatch hs
      exact h.status AgentStatus.noConfusion (live_of_subject h hx)
    · exact h
  | begins agent_id now => exact h.busy agent_id now
  | rests agent_id => exact h.rest agent_id
  | failed agent_id => exact h.status AgentStatus.noConfusion hstays
  | spent agent_id => exact h.status AgentStatus.noConfusion hstays

end Rows

section Loops
variable {people : List Agent}

/-- Each step of `cycle` sees an agent that it had not seen, or comes to nobody. -/
private theorem cycle_ends : ∀ (n : ℕ) (seen : List ℕ) (boss : Option ℕ),
    ((people.map Agent.id).toFinset \ seen.toFinset).card < n → (cycle people n seen boss).isSome
  | n, _, none, _ => by cases n <;> rfl
  | 0, _, some _, h => absurd h (Nat.not_lt_zero _)
  | n + 1, seen, some current, h => by
    unfold cycle
    split
    · rfl
    rename_i hfresh
    rcases hboss : boss_of people current with _ | next
    · cases n <;> rfl
    · refine cycle_ends n (current :: seen) (some next) ?_
      have hid : current ∈ (people.map Agent.id).toFinset := by
        obtain ⟨x, hx, -⟩ := Option.bind_eq_some_iff.mp hboss
        obtain ⟨hmem, hid⟩ := agent_mem hx
        exact List.mem_toFinset.mpr (List.mem_map.mpr ⟨x, hmem, hid⟩)
      have hlt : ((people.map Agent.id).toFinset \ (current :: seen).toFinset).card <
          ((people.map Agent.id).toFinset \ seen.toFinset).card := by
        refine Finset.card_lt_card ⟨fun x hx => ?_, fun hsub => ?_⟩
        · simp only [Finset.mem_sdiff, List.toFinset_cons, Finset.mem_insert, not_or] at hx ⊢
          exact ⟨hx.1, hx.2.2⟩
        · have := hsub (Finset.mem_sdiff.mpr ⟨hid, fun hin => hfresh (List.mem_toFinset.mp hin)⟩)
          simp at this
      omega

private theorem Forest.wellFounded (h : Forest people) : WellFounded fun b a => boss_of people a = some b := by
  have hloop : Loopless fun a b => boss_of people a = some b :=
    h.loopless.of_paths fun a b hab => .single ((boss_iff h.ids).mp hab)
  refine hloop.wellFounded (fun a b hab => ?_ : ∀ a b, _ → a ∈ (people.map Agent.id).toFinset)
  obtain ⟨x, hx, -⟩ := Option.bind_eq_some_iff.mp hab
  obtain ⟨hmem, hid⟩ := agent_mem hx
  exact List.mem_toFinset.mpr (List.mem_map.mpr ⟨x, hmem, hid⟩)

private theorem chain_ends (h : Forest people) (agent_id current : ℕ) :
    ∀ out, ∃ n r, chain people agent_id n out (some current) = some r := by
  induction current using h.wellFounded.induction with
  | h current ih =>
    intro out
    by_cases hstop : current ∈ out ∨ current = agent_id
    · exact ⟨1, out, by simp [chain, hstop]⟩
    rcases hboss : boss_of people current with _ | next
    · exact ⟨1, out ++ [current], by simp [chain, hstop, hboss]⟩
    · obtain ⟨n, r, hr⟩ := ih next hboss (out ++ [current])
      exact ⟨n + 1, r, by rw [chain, if_neg hstop, hboss, hr]⟩

/-- What is on the stack and what the agents not yet visited can put there bounds the steps. -/
private theorem subtree_ends : ∀ (n : ℕ) (stack : List ℕ) (out : Finset ℕ), (∀ a ∈ stack, a ∈ people.map Agent.id) →
    stack.length + ∑ a ∈ (people.map Agent.id).toFinset \ out, (reports people a).length ≤ n →
      ∃ r, subtree people n stack out = some r
  | n, [], out, _, _ => ⟨out, by cases n <;> rfl⟩
  | 0, _ :: stack, _, _, h => by
    rw [List.length_cons] at h
    omega
  | n + 1, aid :: stack, out, hstack, h => by
    rw [List.length_cons] at h
    unfold subtree
    split
    · exact subtree_ends n stack out (fun a ha => hstack a (List.mem_cons_of_mem _ ha)) (by omega)
    · rename_i hfresh
      refine subtree_ends n _ _ (fun a ha => ?_) ?_
      · rcases List.mem_append.mp ha with ha | ha
        · obtain ⟨x, hx, rfl⟩ := List.mem_map.mp (List.mem_reverse.mp ha)
          exact List.mem_map_of_mem (List.mem_filter.mp hx).1
        · exact hstack a (List.mem_cons_of_mem _ ha)
      · have hmem : aid ∈ (people.map Agent.id).toFinset \ out :=
          Finset.mem_sdiff.mpr ⟨List.mem_toFinset.mpr (hstack aid List.mem_cons_self), hfresh⟩
        have hsum := Finset.add_sum_erase _ (fun a => (reports people a).length) hmem
        have herase : (people.map Agent.id).toFinset \ insert aid out =
            ((people.map Agent.id).toFinset \ out).erase aid := Finset.sdiff_insert ..
        rw [herase, List.length_append, List.length_reverse]
        omega

/-- Who reports to somebody is counted once. -/
private theorem sum_reports (S : Finset ℕ) : ∑ a ∈ S, (reports people a).length ≤ people.length := by
  induction people with
  | nil => exact (Finset.sum_eq_zero fun _ _ => rfl).le
  | cons x people ih =>
    have hcons : ∀ a, (reports (x :: people) a).length =
        (if x.reports_to = some a then 1 else 0) + (reports people a).length := fun a => by
      unfold reports
      by_cases hx : x.reports_to = some a
      · simp [hx, Nat.add_comm]
      · simp [hx]
    have hone : ∑ a ∈ S, (if x.reports_to = some a then 1 else 0) ≤ 1 := by
      rw [← Finset.card_filter]
      refine Finset.card_le_one.mpr fun a ha b hb => ?_
      exact Option.some.inj ((Finset.mem_filter.mp ha).2.symm.trans (Finset.mem_filter.mp hb).2)
    simp only [hcons, Finset.sum_add_distrib, List.length_cons]
    omega

private theorem nearest_climb (n : ℕ) (boss : Option ℕ) : nearest people n boss = (climb people n boss).join := by
  induction n generalizing boss with
  | zero => cases boss <;> rfl
  | succ n ih =>
    cases boss with
    | none => rfl
    | some boss =>
      unfold nearest climb
      rcases agent_of people boss with _ | manager
      · rfl
      · dsimp only
        split
        · rfl
        · exact ih _

open scoped Classical in
/-- The managers from one on are at least as many as the climb takes steps. -/
private theorem climb_ends (h : Forest people) : ∀ (n : ℕ) (boss : ℕ), boss ∈ people.map Agent.id →
    ((people.map Agent.id).toFinset.filter fun x => ReflTransGen (Reports people) boss x).card ≤ n →
      (climb people n (some boss)).isSome := by
  intro n
  induction n with
  | zero =>
    intro boss hboss hcard
    have := Finset.card_eq_zero.mp (Nat.le_zero.mp hcard)
    have hself : ReflTransGen (Reports people) boss boss := .refl
    have hmem := Finset.mem_filter.mpr ⟨List.mem_toFinset.mpr hboss, hself⟩
    rw [this] at hmem
    exact nomatch hmem
  | succ n ih =>
    intro boss hboss hcard
    obtain ⟨x, hx, rfl⟩ := List.mem_map.mp hboss
    unfold climb
    rw [agent_of_mem h.ids hx]
    dsimp only
    split
    · rfl
    rcases hnext : x.reports_to with _ | next
    · cases n <;> rfl
    obtain ⟨m, hm, rfl⟩ := h.known x hx next hnext
    have hstep : Reports people x.id m.id := ⟨x, hx, rfl, hnext⟩
    refine ih m.id (List.mem_map_of_mem hm) ?_
    have hlt : ((people.map Agent.id).toFinset.filter fun y => ReflTransGen (Reports people) m.id y).card <
        ((people.map Agent.id).toFinset.filter fun y => ReflTransGen (Reports people) x.id y).card := by
      refine Finset.card_lt_card ⟨fun y hy => ?_, fun hsub => ?_⟩
      · obtain ⟨hy, hpath⟩ := Finset.mem_filter.mp hy
        exact Finset.mem_filter.mpr ⟨hy, .head hstep hpath⟩
      · have hback := (Finset.mem_filter.mp (hsub (Finset.mem_filter.mpr ⟨List.mem_toFinset.mpr hboss, .refl⟩))).2
        exact h.loopless x.id (TransGen.head' hstep hback)
    omega

private theorem Forest.ends (h : Forest people) : Ends people := by
  classical
  refine ⟨fun a boss => cycle_ends _ _ boss ?_, fun a => ?_, fun a => ?_, fun boss => ?_⟩
  · refine Nat.lt_succ_of_le ((Finset.card_le_card Finset.sdiff_subset).trans ?_)
    exact (List.toFinset_card_le _).trans (List.length_map _).le
  · rcases boss_of people a with _ | boss
    · exact ⟨0, [], rfl⟩
    · exact chain_ends h a boss []
  · refine subtree_ends _ (reports people a).reverse ∅ (fun b hb => ?_) ?_
    · obtain ⟨x, hx, rfl⟩ := List.mem_map.mp (List.mem_reverse.mp hb)
      exact List.mem_map_of_mem (List.mem_filter.mp hx).1
    · have hmine : (reports people a).length ≤ people.length := (List.length_map _).trans_le (List.length_filter_le _ _)
      have hall : ∑ a ∈ (people.map Agent.id).toFinset \ ∅, (reports people a).length ≤ people.length := sum_reports _
      rw [List.length_reverse]
      omega
  · rcases boss with _ | boss
    · exact ⟨0, by rw [nearest_climb]; cases people.length <;> rfl⟩
    by_cases hb : boss ∈ people.map Agent.id
    · refine ⟨people.length, ?_⟩
      have hcard : ((people.map Agent.id).toFinset.filter fun x => ReflTransGen (Reports people) boss x).card ≤
          people.length := (Finset.card_filter_le _ _).trans ((List.toFinset_card_le _).trans (List.length_map _).le)
      obtain ⟨r, hr⟩ := Option.isSome_iff_exists.mp (climb_ends h people.length boss hb hcard)
      rw [nearest_climb, hr, Option.join_some]
    · -- nobody has that id: the case goes to the NOC team
      have hnone : agent_of people boss = none := List.find?_eq_none.mpr fun x hx hid =>
        hb (List.mem_map.mpr ⟨x, hx, of_decide_eq_true hid⟩)
      refine ⟨1, ?_⟩
      unfold climb nearest
      cases people.length <;> simp [hnone]

end Loops

/-- The agents that a climb passes are as the loop has read them: their managers, and whether they can work. -/
def AsRead (seen people : List Agent) (a : ℕ) : Prop := ∀ x, ReflTransGen (fun x y => boss_of seen x = some y) a x →
  (agent_of people x).map (fun m => (m.reports_to, m.status.works)) =
    (agent_of seen x).map fun m => (m.reports_to, m.status.works)

section Climbing
variable {seen people : List Agent}

private theorem nearest_none (n : ℕ) : nearest seen n none = none := by cases n <;> rfl

private theorem nearest_path {n b : ℕ} {m : Agent} (h : nearest seen n (some b) = some m) :
    ReflTransGen (fun x y => boss_of seen x = some y) b m.id ∧ agent_of seen m.id = some m := by
  induction n generalizing b with
  | zero => exact nomatch h
  | succ n ih =>
    unfold nearest at h
    split at h
    · exact nomatch h
    · rename_i x hx
      obtain ⟨-, hid⟩ := agent_mem hx
      split at h
      · obtain rfl := Option.some.inj h
        exact ⟨hid ▸ .refl, hid.symm ▸ hx⟩
      · rcases hnext : x.reports_to with _ | next
        · rw [hnext, nearest_none] at h
          exact nomatch h
        · rw [hnext] at h
          obtain ⟨hpath, hm⟩ := ih h
          exact ⟨.head (Option.bind_eq_some_iff.mpr ⟨x, hx, hnext⟩) hpath, hm⟩

private theorem AsRead.boss {a x : ℕ} (h : AsRead seen people a)
    (hx : ReflTransGen (fun x y => boss_of seen x = some y) a x) : boss_of people x = boss_of seen x := by
  have hsplit : ∀ everyone : List Agent, boss_of everyone x =
      ((agent_of everyone x).map fun m => (m.reports_to, m.status.works)).bind Prod.fst := fun everyone => by
    unfold boss_of
    cases agent_of everyone x <;> rfl
  rw [hsplit, hsplit, h x hx]

/-- The manager that a climb comes to is above the agent, and can work. -/
private theorem manager_above (hids : (people.map Agent.id).Nodup) {a : ℕ} (hread : AsRead seen people a) {m : Agent}
    (h : manager_of seen (some a) = some m) :
    Above people a m.id ∧ ∃ y ∈ people, y.id = m.id ∧ y.status.works = true := by
  have h : nearest seen seen.length (boss_of seen a) = some m := h
  have hworks := nearest_works h
  rcases hb : boss_of seen a with _ | b
  · rw [hb, nearest_none] at h
    exact nomatch h
  rw [hb] at h
  obtain ⟨hpath, hm⟩ := nearest_path h
  have hall : ∀ c, ReflTransGen (fun x y => boss_of seen x = some y) b c →
      ReflTransGen (fun x y => boss_of seen x = some y) a c := fun c hc => .head hb hc
  have hsame : ∀ c, ReflTransGen (fun x y => boss_of seen x = some y) b c →
      ReflTransGen (fun x y => boss_of people x = some y) b c := by
    intro c hc
    induction hc with
    | refl => exact .refl
    | tail hc hstep ih => exact ih.tail ((hread.boss (hall _ hc)).trans hstep)
  constructor
  · refine TransGen.head' ((boss_iff hids).mp ((hread.boss .refl).trans hb)) ?_
    exact (hsame m.id hpath).lift id fun x y hxy => (boss_iff hids).mp hxy
  · have hread := hread m.id (hall m.id hpath)
    rw [hm, Option.map_some] at hread
    obtain ⟨y, hy, hpair⟩ := Option.map_eq_some_iff.mp hread
    obtain ⟨hmem, hid⟩ := agent_mem hy
    exact ⟨y, hmem, hid, (Prod.mk.inj hpair).2.trans hworks⟩

variable {s t : Floor} {sid : ℕ} {case : Case} {f : CaseFile} {now : ℚ}

private theorem assign_file {agent : Agent} {trigger : Trigger} {tier : Option ℕ} {escalated : Bool}
    (h : s.assign sid case agent now trigger tier escalated = .ok t) (hf : s.case sid = some f) :
    t.case sid = some (f.noc_case_assign (some agent.id) now (some (max case.tier (tier.getD agent.tier))) escalated
      false) := by
  unfold Floor.assign at h
  split at h
  · cases h
  split at h
  · cases h
  obtain rfl := Except.ok.inj h
  split
  · rw [Floor.case_noc_wake]
    exact Floor.case_amended hf _
  · exact Floor.case_amended hf _

private theorem climbed_escalate (hforest : Forest s.agents)
    (hread : ∀ f, s.case sid = some f → ∀ a, case.agent_id = some a → AsRead seen s.noc_agents a)
    {asked : Case → Prop} {source : Case → Option ℕ}
    (hsource : ∀ f, s.case sid = some f → source f.case = case.agent_id)
    (h : s.escalate sid case seen now = .ok t) : Climbed s t sid asked source := by
  obtain ⟨hagents, hothers, -⟩ := Floor.escalate_ok h
  refine ⟨hagents, hothers, fun f hf => ?_⟩
  have hids : (s.noc_agents.map Agent.id).Nodup := hforest.people.ids
  unfold Floor.escalate at h
  split at h
  · rename_i m hm
    refine ⟨_, assign_file h hf, le_max_left _ _, .inr (.inr ?_)⟩
    rcases ha : case.agent_id with _ | a
    · rw [ha] at hm
      exact nomatch (nearest_none _).symm.trans hm
    · rw [ha] at hm
      obtain ⟨habove, y, hy, hid, hworks⟩ := manager_above hids (hread f hf a ha) hm
      exact ⟨a, m.id, (hsource f hf).trans ha, rfl, habove, y, (List.mem_filter.mp hy).1, hid, hworks⟩
  · obtain rfl := Except.ok.inj h
    refine ⟨_, Floor.case_amended hf _, ?_, .inr (.inl ⟨(Floor.to_people_agent now f).1, ?_⟩)⟩
    · unfold Floor.to_people
      split <;> exact le_max_left _ _
    · unfold Floor.to_people
      split <;> rfl

/-- Who the climb comes to can work: only a case that is over is refused. -/
private theorem escalate_fails {e : CaseError} (h : s.escalate sid case seen now = .error e) :
    case.status.live = false := by
  unfold Floor.escalate at h
  split at h
  · rename_i m hm
    unfold Floor.assign at h
    rw [if_neg (not_not.mpr (nearest_works hm))] at h
    split at h
    · rename_i hlive
      exact Bool.not_eq_true _ ▸ hlive
    · exact nomatch h
  · exact nomatch h

private theorem Climbed.idle {asked : Case → Prop} (source : Case → Option ℕ)
    (h : ∀ f, s.case sid = some f → ¬ asked f.case) : Climbed s s sid asked source :=
  ⟨rfl, fun _ _ => rfl, fun f hf => ⟨f, hf, le_rfl, .inl ⟨h f hf, rfl⟩⟩⟩

end Climbing

/-- A background write finds what it was decided on: the agent whose wake-up failed, or whose budget is spent, has not
left since. -/
def Timely (s : Shift) : Op → Prop
  | .org op => Stays s.floor.agents op
  | .act _ => True

instance (s : Shift) : DecidablePred (Timely s)
  | .org op => inferInstanceAs (Decidable (Stays s.floor.agents op))
  | .act _ => .isTrue trivial

/-- The agents that a climb of the loop passes are as the loop has read them. -/
def Fresh (s : Shift) : Op → Prop
  | .act (.climb sid _) => ∀ l f a, s.looked = some l → s.floor.case sid = some f → f.case.agent_id = some a →
    AsRead l.everyone s.floor.noc_agents a
  | _ => True

/-- The loop is to move a case: it found it due, and it is live and still with its agent. -/
def Due (s : Shift) (sid : ℕ) (case : Case) : Prop := case.status.live = true ∧
  ∃ l row, s.looked = some l ∧ l.climbing.find? (·.1 = sid) = some row ∧ Look.routed row.2 case = true

/-- A case climbs from the agent that it is routed to, or from the agent that took it and escalates it. Changes to the
organization leave the cases. -/
def Obeys (s : Shift) : Op → Prop
  | .org op => ∀ sid, (step s (.org op)).floor.case sid = s.floor.case sid
  | .act (.escalate sid actor me manages now) =>
    Climbed s.floor (step s (.act (.escalate sid actor me manages now))).floor sid
      (fun case => case.status.live ∧ Floor.may_escalate case actor me manages) fun case => me.or case.agent_id
  | .act (.climb sid now) =>
    Climbed s.floor (step s (.act (.climb sid now))).floor sid (Due s sid) (·.agent_id)
  | .act _ => True

/-- The agents are a forest, and were one when the loop read them. -/
structure Ordered (s : Shift) : Prop where
  forest : Forest s.floor.agents
  seen : ∀ l, s.looked = some l → Forest l.everyone

/-- What the agent loop has read is what was there, or is of what it had read before. -/
private theorem looked_step (s : Shift) (op : CaseOp) (l : Look) (h : (step s (.act op)).looked = some l) :
    l.everyone = s.floor.noc_agents ∨ ∃ k, s.looked = some k ∧ l.everyone = k.everyone := by
  cases op with
  | look now => exact .inl (congrArg Look.everyone (Option.some.inj h)).symm
  | route sid now =>
    have h : (Shift.step s (.route sid now)).looked = some l := h
    unfold Shift.step at h
    dsimp only at h
    split at h
    · rename_i k hk
      refine .inr ⟨k, hk, ?_⟩
      split at h
      · split at h
        · exact (congrArg Look.everyone (Option.some.inj h)).symm
        · exact congrArg Look.everyone (Option.some.inj (h.symm.trans hk))
      · exact congrArg Look.everyone (Option.some.inj (h.symm.trans hk))
    · rename_i hnone
      exact nomatch hnone.symm.trans h
  | rising | hear | dispatch | due | orphaned =>
    refine .inr ⟨l, ?_, rfl⟩
    simp only [step, Shift.step] at h
    split at h <;> exact h
  | stale =>
    refine .inr ⟨l, ?_, rfl⟩
    simp only [step, Shift.step] at h
    split at h
    · split at h <;> exact h
    · exact h
  | climb =>
    refine .inr ⟨l, ?_, rfl⟩
    simp only [step, Shift.step] at h
    split at h
    · split at h
      · split at h <;> exact h
      · exact h
    · exact h
  | _ => exact .inr ⟨l, h, rfl⟩

private theorem ordered_step {s : Shift} (h : Ordered s) {op : Op} (htimely : Timely s op) : Ordered (step s op) := by
  cases op with
  | org op => exact ⟨h.forest.apply op htimely, h.seen⟩
  | act op =>
    refine ⟨?_, fun l hl => ?_⟩
    · rw [agents_step]
      exact h.forest
    · rcases looked_step s op l hl with heq | ⟨k, hk, heq⟩
      · exact heq ▸ h.forest.people
      · exact heq ▸ h.seen k hk

private theorem obeys_escalate {s : Shift} (h : Forest s.floor.agents) (sid : ℕ) (actor : Actor) (me : Option ℕ)
    (manages : Bool) (now : ℚ) : Obeys s (.act (.escalate sid actor me manages now)) := by
  show Climbed s.floor (s.floor.escalate_case sid actor me manages now) sid _ _
  unfold Floor.escalate_case
  split
  · rename_i f hf
    have hsame : ∀ f', s.floor.case sid = some f' → f' = f := fun f' hf' => Option.some.inj (hf'.symm.trans hf)
    split
    · rename_i hasked
      split
      · rename_i t ht
        exact climbed_escalate h (fun _ _ a _ x _ => rfl) (fun f' hf' => by rw [hsame f' hf']) ht
      · rename_i e he
        have hover : { f.case with agent_id := me.or f.case.agent_id }.status.live = false := escalate_fails he
        exact absurd hasked.1 (Bool.eq_false_iff.mp hover)
    · rename_i hasked
      exact .idle _ fun f' hf' => by rwa [hsame f' hf']
  · rename_i hnone
    exact .idle _ fun f' hf' => nomatch hf'.symm.trans hnone

private theorem obeys_climb {s : Shift} (h : Forest s.floor.agents) (sid : ℕ) (now : ℚ)
    (hfresh : Fresh s (.act (.climb sid now))) : Obeys s (.act (.climb sid now)) := by
  show Climbed s.floor (Shift.step s (.climb sid now)).floor sid _ _
  unfold Shift.step
  dsimp only
  split
  swap
  · rename_i hnone
    exact .idle _ fun _ _ ⟨_, l, _, hl, _⟩ => nomatch hl.symm.trans hnone
  rename_i l hl
  split
  swap
  · rename_i hnone
    refine .idle _ fun _ _ ⟨_, l', row, hl', hrow, _⟩ => ?_
    obtain rfl := Option.some.inj (hl'.symm.trans hl)
    exact nomatch hrow.symm.trans hnone
  rename_i row hrow
  obtain rfl : row.1 = sid := by simpa using List.find?_some hrow
  have hdue : ∀ f, Due s row.1 f → Look.routed row.2 f = true := by
    rintro f ⟨-, l', row', hl', hrow', hrouted⟩
    obtain rfl := Option.some.inj (hl'.symm.trans hl)
    obtain rfl := Option.some.inj (hrow'.symm.trans hrow)
    exact hrouted
  split
  · rename_i t ht
    unfold Look.climb at ht
    split at ht
    · rename_i f hf
      have hsame : ∀ f', s.floor.case row.1 = some f' → f' = f := fun f' hf' => Option.some.inj (hf'.symm.trans hf)
      split at ht
      · exact climbed_escalate h (fun f' hf' a ha => hfresh l f a hl hf ha) (fun f' hf' => by rw [hsame f' hf']) ht
      · rename_i hrouted
        exact Except.ok.inj ht ▸ .idle _ fun f' hf' hd => hrouted (hsame f' hf' ▸ hdue _ hd)
    · rename_i hnone
      exact Except.ok.inj ht ▸ .idle _ fun f' hf' => nomatch hf'.symm.trans hnone
  · rename_i e he
    unfold Look.climb at he
    split at he
    · rename_i f hf
      split at he
      · refine .idle _ fun f' hf' hd => ?_
        obtain rfl := Option.some.inj (hf'.symm.trans hf)
        exact absurd hd.1 (Bool.eq_false_iff.mp (escalate_fails he))
      · exact nomatch he
    · exact nomatch he

private theorem obeys {s : Shift} (h : Forest s.floor.agents) (op : Op) (hfresh : Fresh s op) : Obeys s op := by
  cases op with
  | org op => exact fun _ => rfl
  | act op =>
    cases op with
    | escalate sid actor me manages now => exact obeys_escalate h sid actor me manages now
    | climb sid now => exact obeys_climb h sid now hfresh
    | _ => trivial

private theorem ordered_empty : Ordered {} := by
  refine ⟨⟨List.nodup_nil, fun a ha => ?_, fun a ha => (List.not_mem_nil ha).elim,
    fun a ha => (List.not_mem_nil ha).elim⟩, fun l hl => nomatch hl⟩
  obtain ⟨b, ⟨x, hx, -⟩, -⟩ := TransGen.head'_iff.mp ha
  exact (List.not_mem_nil hx).elim

/-- Whatever is done to the agents and to the cases, in any order. -/
theorem command_holds (ops : List Op) (h : Meets step Timely {} ops) :
    Forest (run step {} ops).floor.agents ∧ Ends (run step {} ops).floor.noc_agents ∧
      (∀ l, (run step {} ops).looked = some l → Ends l.everyone) ∧
      ∀ op, Fresh (run step {} ops) op → Obeys (run step {} ops) op := by
  have hordered : Ordered (run step {} ops) :=
    run_invariant (I := Ordered) (fun _ _ hs ht => ordered_step hs ht) _ ops ordered_empty h
  exact ⟨hordered.forest, hordered.forest.people.ends, fun l hl => (hordered.seen l hl).ends,
    fun op => obeys hordered.forest op⟩

/-- Three agents, one below the other. A case is routed to the lowest. -/
private def handed : List Op := [
  .org (.hire { id := 3, name := "head", tier := 3 } true),
  .org (.hire { id := 2, name := "lead", tier := 2, reports_to := some 3 } true),
  .org (.hire { id := 1, name := "entry", reports_to := some 2, entry := true } true),
  .act (.opened 7 (some .major) 0), .act (.notice 10), .act (.dispatch 7 false 10 (some .major)),
  .act (.look 20), .act (.route 7 20)]

private def entry : Actor := ⟨.token 1, "entry", .agent⟩
private def person : Actor := ⟨.user 1, "operator", .person⟩

/-- The lead is paused, and the case climbs past it. -/
theorem command_holds_handed : Meets step Timely {} (handed ++ [.org (.failed 3), .org (.pause 2 true)]) ∧
    Obeys (run step {} (handed ++ [.org (.failed 3), .org (.pause 2 true)]))
      (.act (.escalate 7 entry (some 1) false 30)) := by
  have h : Meets step Timely {} (handed ++ [.org (.failed 3), .org (.pause 2 true)]) := by decide +kernel
  exact ⟨h, (command_holds _ h).2.2.2 _ trivial⟩

/-- Taken by the entry agent and routed to the head. -/
private def crossed : List Op :=
  handed ++ [.act (.take 7 entry 30 none), .act (.assign 7 person none true (some 3) 40)]

/-- The loop has read that the case climbs, and the lead is paused. -/
private def overlooked : List Op := handed ++ [.act (.look 4000), .org (.pause 2 true)]

/-- A wake-up of an agent that has left fails, after its manager has left too. -/
private def revived : List Op := handed ++ [.org (.terminate 1 true), .org (.terminate 2 true), .org (.failed 1)]

/-- A case that was with the head comes to the lead, which is below; one comes to an agent that is paused; an agent
that is with the NOC again reports to one that has left. -/
theorem command_crossed :
    (¬ ∀ ops sid actor me manages now, Climbed (run step {} ops).floor
      (step (run step {} ops) (.act (.escalate sid actor me manages now))).floor sid
        (fun case => case.status.live ∧ Floor.may_escalate case actor me manages) (·.agent_id)) ∧
    (¬ ∀ ops sid now, Climbed (run step {} ops).floor (step (run step {} ops) (.act (.climb sid now))).floor sid
      (Due (run step {} ops) sid) (·.agent_id)) ∧
    ¬ ∀ ops, Forest (run step {} ops).floor.agents := by
  refine ⟨fun h => ?_, fun h => ?_, fun h => ?_⟩
  · have hbefore : ((run step {} crossed).floor.case 7).map (·.case.agent_id) = some (some 3) := by decide +kernel
    have hafter : ((step (run step {} crossed) (.act (.escalate 7 entry (some 1) false 50))).floor.case 7).map
        (·.case.agent_id) = some (some 2) := by decide +kernel
    have htop : ∀ x ∈ (run step {} crossed).floor.noc_agents, x.id = 3 → x.reports_to = none := by decide +kernel
    obtain ⟨f, hf, hfa⟩ := Option.map_eq_some_iff.mp hbefore
    obtain ⟨g, hg, -, hcases⟩ := (h crossed 7 entry (some 1) false 50).handed f hf
    rw [hg, Option.map_some] at hafter
    have hga : g.case.agent_id = some 2 := Option.some.inj hafter
    rcases hcases with ⟨-, rfl⟩ | ⟨hnone, -⟩ | ⟨a, m, ha, -, habove, -⟩
    · exact absurd (hfa.symm.trans hga) (by decide)
    · exact nomatch hnone.symm.trans hga
    · obtain rfl : 3 = a := Option.some.inj (hfa.symm.trans ha)
      obtain ⟨b, ⟨x, hx, hid, hb⟩, -⟩ := TransGen.head'_iff.mp habove
      exact nomatch (htop x hx hid).symm.trans hb
  · have hbefore : ((run step {} overlooked).floor.case 7).map (·.case.agent_id) = some (some 1) := by decide +kernel
    have hafter : ((step (run step {} overlooked) (.act (.climb 7 4000))).floor.case 7).map (·.case.agent_id) =
        some (some 2) := by decide +kernel
    have hidle : ¬ (run step {} overlooked).floor.works 2 := by decide +kernel
    obtain ⟨f, hf, hfa⟩ := Option.map_eq_some_iff.mp hbefore
    obtain ⟨g, hg, -, hcases⟩ := (h overlooked 7 4000).handed f hf
    rw [hg, Option.map_some] at hafter
    have hga : g.case.agent_id = some 2 := Option.some.inj hafter
    rcases hcases with ⟨-, rfl⟩ | ⟨hnone, -⟩ | ⟨a, m, -, hm, -, hworks⟩
    · exact absurd (hfa.symm.trans hga) (by decide)
    · exact nomatch hnone.symm.trans hga
    · obtain rfl : 2 = m := Option.some.inj (hga.symm.trans hm)
      exact hidle hworks
  · have hlive : ∃ a ∈ (run step {} revived).floor.agents, a.status ≠ .terminated ∧ a.reports_to = some 2 := by
      decide +kernel
    have hleft : ∀ m ∈ (run step {} revived).floor.agents, m.id = 2 → m.status = .terminated := by decide +kernel
    obtain ⟨a, ha, halive, hboss⟩ := hlive
    obtain ⟨m, hm, hid, hmlive⟩ := (h revived).led a ha halive 2 hboss
    exact hmlive (hleft m hm hid)

end NetCoreNoc.Noc.Organization
