import Mathlib
import NetCoreNoc.Noc.Agents

/-! The agent loop (`engine/noc/agent_loop.py`): what it reads on a snapshot, and what it does under the lock
to what the snapshot may no longer be. -/
namespace NetCoreNoc.Noc

/-- Rows in the order of a key and of their situation. -/
def ordered (key : Case → ℚ) (rows : List (ℕ × CaseFile)) : List (ℕ × CaseFile) :=
  rows.insertionSort fun a b => key a.2.case < key b.2.case ∨ key a.2.case = key b.2.case ∧ a.1 ≤ b.1

/-- `_ACTIVE`: still the agents' to conclude. -/
def Status.active : Status → Bool
  | .new | .auto | .queue | .working => true
  | _ => false

namespace Floor
variable (s : Floor)

def noc_cases_unrouted : List ℕ :=
  ((ordered Case.status_at (s.cases.filter fun row =>
    row.2.case.status = .queue ∧ row.2.case.agent_id = none ∧ row.2.case.with_people = false)).take 100).map Prod.fst

def noc_cases_routed : List (ℕ × Case) :=
  ((ordered (fun case => case.assigned_at.getD 0) (s.cases.filter fun row =>
    row.2.case.agent_id.isSome ∧ row.2.case.status.active)).take 500).map fun row => (row.1, row.2.case)

def noc_agent_loads (agent_id : ℕ) : ℕ :=
  s.cases.countP fun row => row.2.case.agent_id = some agent_id ∧ row.2.case.status.live

def noc_agents_heartbeat_due (now : ℚ) : List ℕ :=
  (s.agents.filter fun a => 0 < a.heartbeat_s ∧ a.status = .idle ∧ a.adapter ≠ .external ∧
    a.last_run_at.all (· + a.heartbeat_s ≤ now)).map Agent.id

/-- Running runs past their agent's time limit; external ones after five quiet minutes. -/
def noc_agent_runs_overdue (now : ℚ) : List ℕ :=
  (s.runs.filter fun r => r.status = .running ∧ (
    if r.trigger = .external then (r.stepped_at.or r.started_at).any (· + 300 < now)
    else (agent_of s.agents r.agent_id).any fun a => r.started_at.any (· + a.run_timeout_s < now))).map AgentRun.id

def noc_agent_run_finish (run_id : ℕ) (status : RunStatus) (now : ℚ) (error : String) : Floor × Bool :=
  match s.runs.find? (fun r => r.id = run_id ∧ (r.status = .queued ∨ r.status = .running)) with
  | none => (s, false)
  | some run => ({ s with
      runs := s.runs.map fun r =>
        if r.id = run_id then { r with status := status, ended_at := some now, error := error } else r
      agents := Agents.rest s.agents run.agent_id }, true)

def noc_agent_run_step (run_id : ℕ) (now : ℚ) : Floor :=
  { s with runs := s.runs.map fun r => if r.id = run_id then { r with stepped_at := some now } else r }

end Floor

def ESCALATE_EVERY_S : Priority → ℕ
  | .critical => 1800
  | .major => 3600
  | .minor => 7200

def escalate_after (agent : Agent) (priority : Priority) : ℕ :=
  match agent.escalate_after_s with
  | some own => if own = 0 then ESCALATE_EVERY_S priority else own
  | none => ESCALATE_EVERY_S priority

/-- A person owns the case. -/
def Case.persons (case : Case) : Bool := case.owner.any fun o => match o.ref with
  | .user _ => true
  | _ => false

/-- Why a routed case should climb now. -/
def climb_reason (case : Case) (everyone : List Agent) (now : ℚ) : Option String :=
  if case.persons then none
  else match case.agent_id.bind (agent_of everyone) with
    | none => some "its agent left the NOC"
    | some agent =>
      if agent.status = .paused then some s!"{agent.name} is paused"
      else
        let limit := escalate_after agent case.priority
        -- a routed case has the time at which it was routed
        if case.assigned_at.any fun since => limit < now - since then
          some s!"not concluded by {agent.name} within {limit / 60} minutes"
        else none

/-- Until one fails; what was done before it stays. -/
def each {σ α ε : Type} (step : σ → α → Except ε σ) : σ → List α → σ × Option ε
  | s, [] => (s, none)
  | s, a :: as =>
    match step s a with
    | .ok t => each step t as
    | .error e => (s, some e)

/-- What the loop reads before it takes the lock. -/
structure Look where
  everyone : List Agent
  unrouted : List ℕ
  climbing : List (ℕ × Case)
  due : List ℕ
  overdue : List ℕ
  loads : ℕ → ℕ

def Floor.look (seen : Floor) (now : ℚ) : Look :=
  let everyone := seen.noc_agents
  { everyone := everyone
    unrouted := if everyone.isEmpty then [] else seen.noc_cases_unrouted
    climbing := seen.noc_cases_routed.filter fun row => (climb_reason row.2 everyone now).isSome
    due := seen.noc_agents_heartbeat_due now
    overdue := seen.noc_agent_runs_overdue now
    loads := seen.noc_agent_loads }

namespace Look
variable (l : Look)

/-- Nothing to take the lock for. -/
def nothing : Bool :=
  !((!l.unrouted.isEmpty && (pick_entry l.everyone l.loads).isSome) || !l.climbing.isEmpty || !l.due.isEmpty ||
    !l.overdue.isEmpty)

/-- A case is still queued, with no agent. -/
def routable (case : Case) : Bool := case.status = .queue ∧ case.agent_id = none

def route (now : ℚ) : Floor × (ℕ → ℕ) → ℕ → Except CaseError (Floor × (ℕ → ℕ))
  | (s, loads), sid =>
    match pick_entry l.everyone loads, s.case sid with
    | some entry, some f =>
      if routable f.case then do
        let t ← s.assign sid f.case entry now .assignment none false
        .ok (t, Function.update loads entry.id (loads entry.id + 1))
      else .ok (s, loads)
    | _, _ => .ok (s, loads)

/-- A routed case is still with the agent that the snapshot had, and not with the people. -/
def routed (row case : Case) : Bool := case.agent_id = row.agent_id ∧ case.with_people = false

def climb (now : ℚ) (s : Floor) (row : ℕ × Case) : Except CaseError Floor :=
  match s.case row.1 with
  | some f => if routed row.2 f.case then s.escalate row.1 f.case l.everyone now else .ok s
  | none => .ok s

def heartbeat (now : ℚ) (s : Floor) (agent_id : ℕ) : Floor := s.noc_wake agent_id .timer none now

def timeout (now : ℚ) (s : Floor) (run_id : ℕ) : Floor :=
  match s.noc_agent_run_finish run_id .timed_out now "past the agent's time limit" with
  | (t, true) => t.noc_agent_run_step run_id now
  | (t, false) => t

end Look

/-- What a pass leaves on the connection, and whether it was committed. -/
structure Outcome where
  floor : Floor
  committed : Bool
  raised : Option CaseError

namespace Look
variable (l : Look)

/-- The pass under the lock. -/
def locked (s : Floor) (now : ℚ) : Outcome :=
  match each (l.route now) (s, l.loads) l.unrouted with
  | ((t, _), some e) => ⟨t, false, some e⟩
  | ((t, _), none) =>
    match each (l.climb now) t l.climbing with
    | (t, some e) => ⟨t, false, some e⟩
    | (t, none) => ⟨l.overdue.foldl (timeout now) (l.due.foldl (heartbeat now) t), true, none⟩

end Look

/-- A pass that read one state and finds another under the lock. -/
def tick (seen : Floor) (at_look : ℚ) (s : Floor) (at_lock : ℚ) : Outcome :=
  let l := seen.look at_look
  if l.nothing then ⟨s, false, none⟩ else l.locked s at_lock

namespace Look
variable (l : Look) (s : Floor)

/-- The agents that the queued cases go to, which are still queued with no agent. -/
def entries : (ℕ → ℕ) → List ℕ → List (ℕ × Agent)
  | _, [] => []
  | loads, sid :: rest =>
    match pick_entry l.everyone loads, s.case sid with
    | some entry, some f =>
      if routable f.case then (sid, entry) :: entries (Function.update loads entry.id (loads entry.id + 1)) rest
      else entries loads rest
    | _, _ => entries loads rest

/-- The cases that are still queued with no agent are not a person's, and the entry agents that they go to can
still work; the cases that climb and are still with their agent are not over and not a person's, and the
managers that they go to can still work. -/
structure Still : Prop where
  entries : ∀ p ∈ l.entries s l.loads l.unrouted, s.works p.2.id ∧
    ∀ f, s.case p.1 = some f → f.case.persons = false
  climbing : ∀ row ∈ l.climbing, ∀ f, s.case row.1 = some f → routed row.2 f.case = true →
    f.case.status.live = true ∧ f.case.persons = false ∧
      ∀ m, manager_of l.everyone f.case.agent_id = some m → s.works m.id

end Look

/-- What a pass should leave of the state under the lock: it does not raise, it commits all it did or did
nothing, it leaves alone what is over and what a person owns, and what it hands over it hands to an agent that
can work. -/
structure Upright (s : Floor) (o : Outcome) : Prop where
  raises : o.raised = none
  whole : o.committed = true ∨ o.floor = s
  spares : ∀ sid f, s.case sid = some f → f.case.status.live = false ∨ f.case.persons = true →
    o.floor.case sid = some f
  hands : ∀ sid f g, s.case sid = some f → o.floor.case sid = some g → g ≠ f →
    ∀ a, g.case.agent_id = some a → s.works a

section
variable {l : Look} {s : Floor}

private theorem entries_congr {t : Floor} (sids : List ℕ) (h : ∀ sid ∈ sids, t.case sid = s.case sid) :
    ∀ loads, l.entries t loads sids = l.entries s loads sids := by
  induction sids with
  | nil => exact fun _ => rfl
  | cons sid rest ih =>
    intro loads
    have hrest := ih fun other ho => h other (List.mem_cons_of_mem _ ho)
    simp only [Look.entries, h sid List.mem_cons_self, hrest]

private theorem entries_sublist (sids : List ℕ) : ∀ loads, ((l.entries s loads sids).map Prod.fst).Sublist sids := by
  induction sids with
  | nil => exact fun _ => List.Sublist.slnil
  | cons sid rest ih =>
    intro loads
    unfold Look.entries
    split
    · split
      · exact (ih _).cons_cons sid
      · exact (ih _).cons sid
    · exact (ih _).cons sid

private theorem mem_of_entries {sids : List ℕ} {loads : ℕ → ℕ} {p : ℕ × Agent}
    (h : p ∈ l.entries s loads sids) : p.1 ∈ sids :=
  (entries_sublist sids loads).subset (List.mem_map_of_mem h)

private theorem routable_of_entries {sids : List ℕ} {loads : ℕ → ℕ} {p : ℕ × Agent}
    (h : p ∈ l.entries s loads sids) : ∃ f, s.case p.1 = some f ∧ f.case.status.live = true := by
  induction sids generalizing loads with
  | nil => exact absurd h List.not_mem_nil
  | cons sid rest ih =>
    unfold Look.entries at h
    split at h
    · rename_i entry f hentry hcase
      split at h
      · rename_i hroutable
        rcases List.mem_cons.mp h with rfl | h
        · have hqueue : f.case.status = .queue := (by simpa [Look.routable] using hroutable : _ ∧ _).1
          exact ⟨f, hcase, by rw [hqueue]; rfl⟩
        · exact ih h
      · exact ih h
    · exact ih h

/-- What a pass did to a case: it handed it over, or left it alone. -/
structure Handled (handed : Option ℕ → Prop) (s t : Floor) (sid : ℕ) : Prop where
  absent : s.case sid = none → t.case sid = none
  done : ∀ f, s.case sid = some f → (¬ ∃ a, handed a) ∧ t.case sid = some f ∨
    ∃ g, t.case sid = some g ∧ handed g.case.agent_id ∧ f.case.version < g.case.version

/-- Routing the queue does not fail: each case goes to its entry agent. -/
private theorem route_all (now : ℚ) (sids : List ℕ) (hs : sids.Nodup) : ∀ (s : Floor) (loads : ℕ → ℕ),
    ∃ t loads', each (l.route now) (s, loads) sids = ((t, loads'), none) ∧ t.agents = s.agents ∧
      ∀ sid, Handled (fun a => ∃ p ∈ l.entries s loads sids, p.1 = sid ∧ a = some p.2.id) s t sid := by
  induction sids with
  | nil =>
    intro s loads
    refine ⟨s, loads, rfl, rfl, fun sid => ⟨id, fun f hf => .inl ⟨?_, hf⟩⟩⟩
    rintro ⟨-, p, hp, -⟩
    exact absurd hp List.not_mem_nil
  | cons sid rest ih =>
    intro s loads
    obtain ⟨hnot, hrest⟩ := List.nodup_cons.mp hs
    cases hentry : pick_entry l.everyone loads with
    | none =>
      have he : l.entries s loads (sid :: rest) = l.entries s loads rest := by simp only [Look.entries, hentry]
      have hr : l.route now (s, loads) sid = .ok (s, loads) := by simp only [Look.route, hentry]
      simp only [each, hr, he]
      exact ih hrest s loads
    | some entry =>
      cases hcase : s.case sid with
      | none =>
        have he : l.entries s loads (sid :: rest) = l.entries s loads rest := by
          simp only [Look.entries, hentry, hcase]
        have hr : l.route now (s, loads) sid = .ok (s, loads) := by simp only [Look.route, hentry, hcase]
        simp only [each, hr, he]
        exact ih hrest s loads
      | some f =>
        by_cases hroutable : Look.routable f.case = true
        · have hlive : f.case.status.live = true := by
            have : f.case.status = .queue := (by simpa [Look.routable] using hroutable : _ ∧ _).1
            rw [this]
            rfl
          obtain ⟨u, hu⟩ : ∃ u, s.assign sid f.case entry now .assignment none false = .ok u :=
            Floor.assign_total hlive (pick_entry_works hentry) ..
          obtain ⟨-, -, hagents, hother, hown⟩ := Floor.assign_ok hu
          obtain ⟨g, hg, hagent, hversion⟩ := hown f hcase
          have hr : l.route now (s, loads) sid =
              .ok (u, Function.update loads entry.id (loads entry.id + 1)) := by
            simp only [Look.route, hentry, hcase, hroutable, if_true, hu]
            rfl
          have he : l.entries s loads (sid :: rest) =
              (sid, entry) :: l.entries u (Function.update loads entry.id (loads entry.id + 1)) rest := by
            rw [entries_congr rest fun other ho => hother other fun heq => hnot (heq ▸ ho)]
            simp only [Look.entries, hentry, hcase, hroutable, if_true]
          obtain ⟨t, loads', ht, htagents, hall⟩ := ih hrest u (Function.update loads entry.id (loads entry.id + 1))
          refine ⟨t, loads', by simp only [each, hr, ht], htagents.trans hagents, fun other => ⟨fun hf' => ?_, fun f' hf' => ?_⟩⟩
          · have ho : other ≠ sid := fun heq => absurd hcase (by rw [← heq, hf']; exact (Option.some_ne_none f).symm)
            exact (hall other).absent ((hother other ho).trans hf')
          rw [he]
          by_cases ho : other = sid
          · subst ho
            rcases (hall other).done g hg with ⟨-, htg⟩ | ⟨-, -, ⟨p, hp, rfl, -⟩, -⟩
            · obtain rfl : f = f' := Option.some.inj (hcase.symm.trans hf')
              exact .inr ⟨g, htg, ⟨(other, entry), List.mem_cons_self, rfl, hagent⟩, by omega⟩
            · exact absurd (mem_of_entries hp) hnot
          · rcases (hall other).done f' ((hother other ho).trans hf') with ⟨hnone, htf⟩ | ⟨g', hg', ⟨p, hp, hpa⟩, hv⟩
            · refine .inl ⟨?_, htf⟩
              rintro ⟨a, p, hp, hpo, hpa⟩
              rcases List.mem_cons.mp hp with rfl | hp
              · exact ho hpo.symm
              · exact hnone ⟨a, p, hp, hpo, hpa⟩
            · exact .inr ⟨g', hg', ⟨p, List.mem_cons_of_mem _ hp, hpa⟩, hv⟩
        · have he : l.entries s loads (sid :: rest) = l.entries s loads rest := by
            simp only [Look.entries, hentry, hcase, hroutable, if_false, Bool.false_eq_true]
          have hr : l.route now (s, loads) sid = .ok (s, loads) := by
            simp only [Look.route, hentry, hcase, hroutable, if_false, Bool.false_eq_true]
          simp only [each, hr, he]
          exact ih hrest s loads

/-- What the climb has done of its rows. -/
structure Climbed (l : Look) (rows : List (ℕ × Case)) (s t : Floor) : Prop where
  agents : t.agents = s.agents
  done : ∀ row ∈ rows, ∀ f, s.case row.1 = some f → Look.routed row.2 f.case = true → ∃ g, t.case row.1 = some g ∧
    f.case.version < g.case.version ∧ g.case.agent_id = (manager_of l.everyone f.case.agent_id).map Agent.id
  kept : ∀ sid f, s.case sid = some f → (¬ ∃ row ∈ rows, row.1 = sid ∧ Look.routed row.2 f.case = true) →
    t.case sid = some f

/-- A case that is over is still with its agent. -/
def Stopped (rows : List (ℕ × Case)) (s : Floor) : Prop :=
  ∃ row ∈ rows, ∃ f, s.case row.1 = some f ∧ Look.routed row.2 f.case = true ∧ f.case.status.live = false

private theorem climbed_skip {rows : List (ℕ × Case)} {row : ℕ × Case} {t : Floor}
    (hrow : ∀ f, s.case row.1 = some f → Look.routed row.2 f.case ≠ true) (h : Climbed l rows s t) :
    Climbed l (row :: rows) s t := by
  refine ⟨h.agents, fun row' hrow' f hf hr => ?_, fun sid f hf hnone => h.kept sid f hf ?_⟩
  · rcases List.mem_cons.mp hrow' with rfl | hrow'
    · exact absurd hr (hrow f hf)
    · exact h.done row' hrow' f hf hr
  · rintro ⟨row', hrow', hr⟩
    exact hnone ⟨row', List.mem_cons_of_mem _ hrow', hr⟩

private theorem climbed_cons {rows : List (ℕ × Case)} {row : ℕ × Case} {u t : Floor} {now : ℚ} {f : CaseFile}
    (hnot : ∀ other ∈ rows, other.1 ≠ row.1) (hcase : s.case row.1 = some f)
    (hrouted : Look.routed row.2 f.case = true) (hu : s.escalate row.1 f.case l.everyone now = .ok u)
    (h : Climbed l rows u t) : Climbed l (row :: rows) s t := by
  obtain ⟨hagents, hother, hown⟩ := Floor.escalate_ok hu
  obtain ⟨g, hg, hversion, hagent⟩ := hown f hcase
  refine ⟨h.agents.trans hagents, fun row' hrow' f' hf' hr' => ?_, fun sid f' hf' hnone => ?_⟩
  · rcases List.mem_cons.mp hrow' with rfl | hrow'
    · obtain rfl : f = f' := Option.some.inj (hcase.symm.trans hf')
      refine ⟨g, h.kept _ g hg ?_, hversion, hagent⟩
      rintro ⟨other, ho, he, -⟩
      exact hnot other ho he
    · exact h.done row' hrow' f' ((hother _ (hnot row' hrow')).trans hf') hr'
  · have hne : sid ≠ row.1 := by
      rintro rfl
      obtain rfl : f = f' := Option.some.inj (hcase.symm.trans hf')
      exact hnone ⟨row, List.mem_cons_self, rfl, hrouted⟩
    refine h.kept sid f' ((hother sid hne).trans hf') ?_
    rintro ⟨row', hrow', hr'⟩
    exact hnone ⟨row', List.mem_cons_of_mem _ hrow', hr'⟩

/-- The climb does every row, or stops at a case that is over. -/
private theorem climb_all (now : ℚ) (rows : List (ℕ × Case)) (hrows : (rows.map Prod.fst).Nodup) : ∀ s : Floor,
    (∃ t, each (l.climb now) s rows = (t, none) ∧ Climbed l rows s t) ∨
    (∃ t e, each (l.climb now) s rows = (t, some e)) ∧ Stopped rows s := by
  induction rows with
  | nil =>
    intro s
    exact .inl ⟨s, rfl, rfl, fun row hrow => absurd hrow List.not_mem_nil, fun _ _ hf _ => hf⟩
  | cons row rest ih =>
    intro s
    obtain ⟨hnot, hrest⟩ := List.nodup_cons.mp hrows
    have hfresh : ∀ other ∈ rest, other.1 ≠ row.1 := fun other ho he => hnot (he ▸ List.mem_map_of_mem ho)
    -- a row whose case has left the agent is passed over
    have hskip (hr : l.climb now s row = .ok s)
        (hrouted : ∀ f, s.case row.1 = some f → Look.routed row.2 f.case ≠ true) :
        (∃ t, each (l.climb now) s (row :: rest) = (t, none) ∧ Climbed l (row :: rest) s t) ∨
        (∃ t e, each (l.climb now) s (row :: rest) = (t, some e)) ∧ Stopped (row :: rest) s := by
      simp only [each, hr]
      rcases ih hrest s with ⟨t, ht, hall⟩ | ⟨herr, row', hrow', hover⟩
      · exact .inl ⟨t, ht, climbed_skip hrouted hall⟩
      · exact .inr ⟨herr, row', List.mem_cons_of_mem _ hrow', hover⟩
    cases hcase : s.case row.1 with
    | none =>
      refine hskip (by simp only [Look.climb, hcase]) fun f hf => ?_
      rw [hcase] at hf
      cases hf
    | some f =>
      by_cases hrouted : Look.routed row.2 f.case = true
      · have hr : l.climb now s row = s.escalate row.1 f.case l.everyone now := by
          simp only [Look.climb, hcase, hrouted, if_true]
        cases hu : s.escalate row.1 f.case l.everyone now with
        | error e =>
          refine .inr ⟨⟨s, e, by simp only [each, hr, hu]⟩, row, List.mem_cons_self, f, hcase, hrouted, ?_⟩
          by_contra hlive
          obtain ⟨t, ht⟩ : ∃ t, s.escalate row.1 f.case l.everyone now = .ok t :=
            Floor.escalate_total (by simpa using hlive) ..
          rw [hu] at ht
          cases ht
        | ok u =>
          simp only [each, hr, hu]
          rcases ih hrest u with ⟨t, ht, hall⟩ | ⟨herr, row', hrow', f', hf', hover⟩
          · exact .inl ⟨t, ht, climbed_cons hfresh hcase hrouted hu hall⟩
          · have hsame := (Floor.escalate_ok hu).2.1 _ (hfresh row' hrow')
            exact .inr ⟨herr, row', List.mem_cons_of_mem _ hrow', f', hsame.symm.trans hf', hover⟩
      · refine hskip (by simp only [Look.climb, hcase, hrouted, if_false, Bool.false_eq_true]) fun f' hf' => ?_
        obtain rfl : f = f' := Option.some.inj (hcase.symm.trans hf')
        exact hrouted

private theorem case_wakes (now : ℚ) (due : List ℕ) (s : Floor) (sid : ℕ) :
    (due.foldl (Look.heartbeat now) s).case sid = s.case sid := by
  induction due generalizing s with
  | nil => rfl
  | cons a due ih => exact (ih _).trans (Floor.case_noc_wake ..)

private theorem case_timeouts (now : ℚ) (overdue : List ℕ) (s : Floor) (sid : ℕ) :
    (overdue.foldl (Look.timeout now) s).case sid = s.case sid := by
  induction overdue generalizing s with
  | nil => rfl
  | cons run overdue ih =>
    refine (ih _).trans ?_
    unfold Look.timeout Floor.noc_agent_run_finish
    split <;> rename_i heq <;> split at heq <;> cases heq <;> rfl

end

section
variable {key : Case → ℚ} {n : ℕ}

private theorem mem_ordered {rows : List (ℕ × CaseFile)} {row : ℕ × CaseFile}
    (h : row ∈ (ordered key rows).take n) : row ∈ rows :=
  (List.perm_insertionSort _ _).mem_iff.mp (List.mem_of_mem_take h)

private theorem nodup_ordered (s : Floor) (p : ℕ × CaseFile → Bool) :
    (((ordered key (s.cases.filter p)).take n).map Prod.fst).Nodup := by
  refine List.Nodup.sublist ((List.take_sublist _ _).map _) ?_
  rw [ordered, ((List.perm_insertionSort _ _).map Prod.fst).nodup_iff]
  exact s.keys.sublist (List.filter_sublist.map _)

end

/-- The snapshot names a case once, and as queued without an agent. -/
private theorem look_unrouted (seen : Floor) (now : ℚ) : (seen.look now).unrouted.Nodup ∧
    ∀ sid ∈ (seen.look now).unrouted, ∃ f, (sid, f) ∈ seen.cases ∧ f.case.agent_id = none := by
  have hunrouted : (seen.look now).unrouted =
    if seen.noc_agents.isEmpty then [] else seen.noc_cases_unrouted := rfl
  rw [hunrouted]
  split
  · exact ⟨List.nodup_nil, fun _ h => absurd h List.not_mem_nil⟩
  · refine ⟨nodup_ordered .., fun sid hsid => ?_⟩
    obtain ⟨row, hrow, rfl⟩ := List.mem_map.mp hsid
    obtain ⟨hmem, hp⟩ := List.mem_filter.mp (mem_ordered hrow)
    exact ⟨row.2, hmem, (by simpa using hp : _ ∧ _ ∧ _).2.1⟩

/-- The snapshot names a case once, and as routed to an agent. -/
private theorem look_climbing (seen : Floor) (now : ℚ) : ((seen.look now).climbing.map Prod.fst).Nodup ∧
    ∀ row ∈ (seen.look now).climbing, ∃ f, (row.1, f) ∈ seen.cases ∧ f.case.agent_id ≠ none := by
  constructor
  · refine List.Nodup.sublist (List.filter_sublist.map _) ?_
    rw [Floor.noc_cases_routed, List.map_map]
    exact nodup_ordered ..
  · intro row hrow
    obtain ⟨row', hrow', rfl⟩ := List.mem_map.mp (List.mem_of_mem_filter hrow)
    obtain ⟨hmem, hp⟩ := List.mem_filter.mp (mem_ordered hrow')
    refine ⟨row'.2, hmem, ?_⟩
    have := (by simpa using hp : _ ∧ _).1
    exact Option.isSome_iff_ne_none.mp this

private theorem look_apart (seen : Floor) (now : ℚ) {sid : ℕ} (h : sid ∈ (seen.look now).unrouted) :
    ∀ row ∈ (seen.look now).climbing, row.1 ≠ sid := by
  rintro row hrow rfl
  obtain ⟨f, hf, hnone⟩ := (look_unrouted seen now).2 _ h
  obtain ⟨g, hg, hsome⟩ := (look_climbing seen now).2 row hrow
  obtain rfl := Option.some.inj ((Floor.case_of_mem hf).symm.trans (Floor.case_of_mem hg))
  exact hsome hnone

section
variable {l : Look} {s : Floor} {now : ℚ}

/-- A pass under the lock that routes its queue and then climbs its rows, all of them. -/
structure Passed (l : Look) (s u : Floor) (o : Outcome) : Prop where
  handled : ∀ sid, Handled (fun a => ∃ p ∈ l.entries s l.loads l.unrouted, p.1 = sid ∧ a = some p.2.id) s u sid
  climbed : ∃ t, Climbed l l.climbing u t ∧ ∀ sid, o.floor.case sid = t.case sid

variable (hsids : l.unrouted.Nodup) (hrows : (l.climbing.map Prod.fst).Nodup)
  (hapart : ∀ sid ∈ l.unrouted, ∀ row ∈ l.climbing, row.1 ≠ sid)
include hsids hrows hapart

/-- What a pass under the lock leaves: it stops at a case that is over, or does all there is. -/
private theorem locked_cases (now : ℚ) : (l.locked s now).raised ≠ none ∧ Stopped l.climbing s ∨
    ((l.locked s now).raised = none ∧ (l.locked s now).committed = true) ∧ ∃ u, Passed l s u (l.locked s now) ∧
      ∀ row ∈ l.climbing, u.case row.1 = s.case row.1 := by
  obtain ⟨u, loads', hroute, -, hall⟩ := route_all (l := l) now l.unrouted hsids s l.loads
  have hsame : ∀ row ∈ l.climbing, u.case row.1 = s.case row.1 := by
    intro row hrow
    cases hcase : s.case row.1 with
    | none => exact (hall row.1).absent hcase
    | some f =>
      rcases (hall row.1).done f hcase with ⟨-, hu⟩ | ⟨-, -, ⟨p, hp, he, -⟩, -⟩
      · exact hu
      · exact absurd he.symm (hapart _ (mem_of_entries hp) row hrow)
  rcases climb_all (l := l) now l.climbing hrows u with ⟨t, ht, hclimbed⟩ | ⟨⟨t, e, ht⟩, row, hrow, f, hf, hover⟩
  · have hlocked : l.locked s now =
        ⟨l.overdue.foldl (Look.timeout now) (l.due.foldl (Look.heartbeat now) t), true, none⟩ := by
      simp only [Look.locked, hroute, ht]
    rw [hlocked]
    exact .inr ⟨⟨rfl, rfl⟩, u, ⟨hall, t, hclimbed, fun sid => (case_timeouts ..).trans (case_wakes ..)⟩, hsame⟩
  · have hlocked : l.locked s now = ⟨t, false, some e⟩ := by
      simp only [Look.locked, hroute, ht]
    rw [hlocked]
    exact .inl ⟨Option.some_ne_none e, row, hrow, f, (hsame row hrow).symm.trans hf, hover⟩

private theorem still_of_upright (h : Upright s (l.locked s now)) : l.Still s := by
  rcases locked_cases hsids hrows hapart now with ⟨hraised, -⟩ | ⟨-, u, ⟨hall, t, hclimbed, hfinal⟩, hsame⟩
  · exact absurd h.raises hraised
  · -- a case that changed is one that the pass may act on
    have hchanged {sid : ℕ} {f g : CaseFile} (hf : s.case sid = some f) (hg : t.case sid = some g)
        (hversion : f.case.version < g.case.version) : f.case.status.live = true ∧ f.case.persons = false ∧
        ∀ a, g.case.agent_id = some a → s.works a := by
      have hne : g ≠ f := by
        rintro rfl
        omega
      have hspared (hbad : f.case.status.live = false ∨ f.case.persons = true) : False := by
        have := (hfinal sid).symm.trans (h.spares sid f hf hbad)
        exact hne (Option.some.inj (hg.symm.trans this))
      refine ⟨?_, ?_, h.hands sid f g hf ((hfinal sid).trans hg) hne⟩
      · exact Bool.of_not_eq_false fun hl => hspared (.inl hl)
      · exact Bool.of_not_eq_true fun hp => hspared (.inr hp)
    refine ⟨fun p hp => ?_, fun row hrow f hf hr => ?_⟩
    · obtain ⟨f, hf, -⟩ := routable_of_entries hp
      rcases (hall p.1).done f hf with ⟨hnone, -⟩ | ⟨g, hg, ⟨p', hp', hkey, hagent⟩, hversion⟩
      · exact absurd ⟨_, p, hp, rfl, rfl⟩ hnone
      · obtain rfl : p' = p :=
          List.inj_on_of_nodup_map (hsids.sublist (entries_sublist ..)) hp' hp hkey
        have ht : t.case p'.1 = some g := by
          refine hclimbed.kept _ g hg ?_
          rintro ⟨row, hrow, he, -⟩
          exact hapart _ (mem_of_entries hp) row hrow he
        obtain ⟨-, hpersons, hworks⟩ := hchanged hf ht hversion
        refine ⟨hworks _ hagent, fun f' hf' => ?_⟩
        exact Option.some.inj (hf.symm.trans hf') ▸ hpersons
    · obtain ⟨g, hg, hversion, hagent⟩ := hclimbed.done row hrow f ((hsame row hrow).trans hf) hr
      obtain ⟨hlive, hpersons, hworks⟩ := hchanged hf hg hversion
      exact ⟨hlive, hpersons, fun m hm => hworks _ (by rw [hagent, hm]; rfl)⟩

private theorem upright_of_still (h : l.Still s) : Upright s (l.locked s now) := by
  rcases locked_cases hsids hrows hapart now with ⟨-, row, hrow, f, hf, hr, hover⟩ |
    ⟨⟨hraised, hcommitted⟩, u, ⟨hall, t, hclimbed, hfinal⟩, hsame⟩
  · exact absurd (h.climbing row hrow f hf hr).1 (by simp [hover])
  · have hback {row : ℕ × Case} (hrow : row ∈ l.climbing) {f : CaseFile} (hu : u.case row.1 = some f) :
        s.case row.1 = some f := (hsame row hrow).symm.trans hu
    have hentry {p : ℕ × Agent} (hp : p ∈ l.entries s l.loads l.unrouted) {g : CaseFile} (hg : u.case p.1 = some g) :
        t.case p.1 = some g := by
      refine hclimbed.kept _ g hg ?_
      rintro ⟨row, hrow, he, -⟩
      exact hapart _ (mem_of_entries hp) row hrow he
    refine ⟨hraised, .inl hcommitted, fun sid f hf hbad => ?_, fun sid f g hf hg hne a ha => ?_⟩
    · rw [hfinal]
      rcases (hall sid).done f hf with ⟨-, hu⟩ | ⟨-, -, ⟨p, hp, rfl, -⟩, -⟩
      · refine hclimbed.kept sid f hu ?_
        rintro ⟨row, hrow, rfl, hr⟩
        obtain ⟨hlive, hpersons, -⟩ := h.climbing row hrow f hf hr
        rcases hbad with hbad | hbad
        · exact absurd hlive (by simp [hbad])
        · exact absurd hpersons (by simp [hbad])
      · obtain ⟨f', hf', hlive⟩ := routable_of_entries hp
        obtain rfl := Option.some.inj (hf.symm.trans hf')
        rcases hbad with hbad | hbad
        · exact absurd hlive (by simp [hbad])
        · exact absurd ((h.entries p hp).2 f hf) (by simp [hbad])
    · rw [hfinal] at hg
      rcases (hall sid).done f hf with ⟨-, hu⟩ | ⟨g', hu, ⟨p, hp, rfl, hagent⟩, -⟩
      · by_cases hrow : ∃ row ∈ l.climbing, row.1 = sid ∧ Look.routed row.2 f.case = true
        · obtain ⟨row, hrow, rfl, hr⟩ := hrow
          obtain ⟨g', hg', -, hagent⟩ := hclimbed.done row hrow f hu hr
          obtain rfl := Option.some.inj (hg.symm.trans hg')
          obtain ⟨m, hm, rfl⟩ := Option.map_eq_some_iff.mp (hagent.symm.trans ha)
          exact (h.climbing row hrow f hf hr).2.2 m hm
        · exact absurd (Option.some.inj (hg.symm.trans (hclimbed.kept sid f hu hrow))) hne
      · obtain rfl := Option.some.inj (hg.symm.trans (hentry hp hu))
        obtain rfl := Option.some.inj (hagent.symm.trans ha)
        exact (h.entries p hp).1

end

/-- With no agent to enter by, no case is routed. -/
private theorem entries_none {l : Look} {s : Floor} {loads : ℕ → ℕ} (h : pick_entry l.everyone loads = none)
    (sids : List ℕ) : ∀ loads, l.entries s loads sids = [] := by
  have hnone : ∀ loads, pick_entry l.everyone loads = none := fun _ =>
    List.argmin_eq_none.mpr (List.argmin_eq_none.mp h)
  induction sids with
  | nil => exact fun _ => rfl
  | cons sid rest ih =>
    intro loads
    simp only [Look.entries, hnone, ih]

/-- A pass does what it should to whatever the cases and agents have become since its snapshot, if and only if
what it acts on is still so: the cases that are still queued without an agent, or still with the agent whom
they were with, are not over and not a person's, and the agents that they go to can still work. -/
theorem tick_upright_iff (seen : Floor) (at_look : ℚ) (s : Floor) (at_lock : ℚ) :
    Upright s (tick seen at_look s at_lock) ↔ (seen.look at_look).Still s := by
  simp only [tick]
  split
  · rename_i hnothing
    simp only [Look.nothing, Bool.not_eq_true', Bool.or_eq_false_iff, Bool.and_eq_false_iff, Bool.not_eq_false',
      List.isEmpty_iff, Option.isSome_eq_false_iff, Option.isNone_iff_eq_none] at hnothing
    obtain ⟨⟨⟨hentry, hclimbing⟩, -⟩, -⟩ := hnothing
    refine iff_of_true ⟨rfl, .inr rfl, fun _ _ hf _ => hf, fun sid f g hf hg hne => ?_⟩ ⟨fun p hp => ?_, ?_⟩
    · exact absurd (Option.some.inj (hg.symm.trans hf)) hne
    · rcases hentry with hnil | hnone
      · rw [hnil] at hp
        exact absurd hp List.not_mem_nil
      · rw [entries_none hnone] at hp
        exact absurd hp List.not_mem_nil
    · rw [hclimbing]
      exact fun row hrow => absurd hrow List.not_mem_nil
  · have hsids := (look_unrouted seen at_look).1
    have hrows := (look_climbing seen at_look).1
    have hapart : ∀ sid ∈ (seen.look at_look).unrouted, ∀ row ∈ (seen.look at_look).climbing, row.1 ≠ sid :=
      fun sid hsid => look_apart seen at_look hsid
    exact ⟨still_of_upright hsids hrows hapart, upright_of_still hsids hrows hapart⟩

/-- Agent 1 enters and reports to agent 2. Case 1 has been with agent 1 for an hour, case 2 is queued. -/
def overdue_case : Floor where
  cases :=
    let working : Case := {
      status := .working, status_at := 0, priority := .critical, opened_at := 0
      owner := some ⟨.token 1, "Ana", .agent⟩, agent_id := some 1, assigned_at := some 0 }
    let queued : Case := { status := .queue, status_at := 3000, priority := .minor, opened_at := 3000 }
    [(1, ⟨working, []⟩), (2, ⟨queued, []⟩)]
  agents := [{ id := 1, name := "Ana", reports_to := some 2, entry := true }, { id := 2, name := "Bea", tier := 2 }]
  keys := by decide

/-- Its agent has resolved it since. -/
def resolved_since : Floor :=
  overdue_case.amend_case 1 fun f => (f.noc_cycle_left 3600).noc_case_resolve 3600 (.token 1) .noc "hardware" "swapped" false

/-- The pass raises at case 1 and leaves the routing of case 2 for another commit. -/
theorem resolved_raises : ¬ ∀ (seen : Floor) (at_look : ℚ) (s : Floor) (at_lock : ℚ),
    Upright s (tick seen at_look s at_lock) := by
  intro h
  have hraised := (h overdue_case 3600 resolved_since 3601).raises
  revert hraised
  decide +kernel

end NetCoreNoc.Noc
