import Mathlib
import NetCoreNoc.Runs
import NetCoreNoc.Noc.AgentLoop
import NetCoreNoc.Noc.CaseActs

/-! The life of a case: all that act on it, in any order (`api/routes/cases.py`, `case_feed.py`,
`case_agents.py`, `engine/noc/case_loop.py`, `runbook.py`, `access.py`, `agent_loop.py`). An act holds the lock
and is one step; an act that is rolled back leaves nothing, and is no step. A pass of a loop is a step for
what it reads and one for each act that it then does under the lock. -/
namespace NetCoreNoc.Noc

def CLOSE_AFTER_S : ℚ := 24 * 3600

/-- What a playbook concludes. -/
inductive Leaf where
  | resolve (cause solution : String) (clear_alarms : Bool)
  | pending (status : Pending) (text : TextField → Option String) (next_update_in_s : ℚ)
  /-- to the queue, also by a timeout or an error -/
  | queue

namespace Floor
variable (s : Floor) (sid : ℕ)

/-- An act on the case as it is under the lock; a refused one changes nothing. -/
def act (k : CaseFile → Except CaseError CaseFile) : Floor :=
  match s.case sid with
  | some f =>
    match k f with
    | .ok g => s.amend_case sid fun _ => g
    | .error _ => s
  | none => s

/-- The Broker opens a situation: it has a case, if it had none. -/
def noc_case_open (severity : Option Severity) (now : ℚ) : Floor :=
  if h : sid ∈ s.cases.map Prod.fst then s
  else
    let case : Case := { status := .new, status_at := now, priority := priority_of severity, opened_at := now }
    { s with
      cases := s.cases ++ [(sid, ⟨case, []⟩)]
      keys := by
        rw [List.map_append]
        exact List.nodup_append'.mpr ⟨s.keys, List.nodup_singleton _, by simpa [List.disjoint_singleton] using h⟩ }

/-- The agent that a requeued case is still with is woken. -/
def wake_back (now : ℚ) : Floor :=
  match (s.case sid).bind fun f => f.case.agent_id.bind (agent_of s.agents) with
  | some agent =>
    if agent.status.works && agent.wake_on_assignment && agent.adapter ≠ .external &&
      (s.case sid).any (·.case.with_people = false) then s.noc_wake agent.id .assignment (some sid) now else s
  | none => s

def requeue (reason : CycleReason) (now : ℚ) (worst : Option Severity) : Floor :=
  (s.amend_case sid fun f => f.requeue now s.agents reason worst).wake_back sid now

/-- A person's post on a pending case that is another's sends it back to the queue. -/
def post (author : Actor) (now : ℚ) (worst : Option Severity) : Floor :=
  match s.case sid with
  | some f =>
    if author.kind = .person ∧ f.case.status.pends ∧ f.case.owner.map Actor.ref ≠ some author.ref then
      s.requeue sid .customer_post now worst
    else s
  | none => s

/-- A credential for a device of the case is usable by the agents now. -/
def granted (now : ℚ) (worst : Option Severity) : Floor :=
  match s.case sid with
  | some f =>
    if f.case.status = .pending .connectivity ∨ f.case.status = .pending .device_access then
      s.requeue sid .access now worst
    else s
  | none => s

/-- The case is the caller's: taken by them, or, for an agent, routed to it. -/
def mine (case : Case) (actor : Actor) (me : Option ℕ) : Bool :=
  case.owner.map Actor.ref = some actor.ref || (me.isSome && case.agent_id = me)

/-- A person assigns their own case or one that nobody has taken; an agent delegates its own to one below it. -/
def may_assign (everyone : List Agent) (case : Case) (actor : Actor) (me : Option ℕ) (manages : Bool)
    (agent_id : Option ℕ) : Bool :=
  match me with
  | some boss => mine case actor me && agent_id.any fun a => Agents.below everyone boss a
  | none => manages || mine case actor none || case.status.unowned

def may_escalate (case : Case) (actor : Actor) (me : Option ℕ) (manages : Bool) : Bool :=
  match me with
  | some _ => mine case actor me
  | none => mine case actor none || manages || case.agent_id.isSome

def assign_case (actor : Actor) (me : Option ℕ) (manages : Bool) (agent_id : Option ℕ) (now : ℚ) : Floor :=
  match s.case sid with
  | some f =>
    if f.case.status.live ∧ may_assign s.noc_agents f.case actor me manages agent_id then
      match agent_id with
      | none => s.with_people sid f.case now
      | some a =>
        match agent_of s.noc_agents a with
        | some target =>
          match s.assign sid f.case target now .assignment none false with
          | .ok t => t
          | .error _ => s
        | none => s
    else s
  | none => s

def escalate_case (actor : Actor) (me : Option ℕ) (manages : Bool) (now : ℚ) : Floor :=
  match s.case sid with
  | some f =>
    if f.case.status.live ∧ may_escalate f.case actor me manages then
      -- taken by the agent but routed elsewhere: it climbs from the agent itself
      match s.escalate sid { f.case with agent_id := me.or f.case.agent_id } s.noc_agents now with
      | .ok t => t
      | .error _ => s
    else s
  | none => s

/-- A playbook's conclusion, while the case is still its own; one that cannot be applied sends it to the queue. -/
def conclude (actor : Actor) (leaf : Leaf) (now : ℚ) (worst : Option Severity) : Floor :=
  match s.case sid with
  | some f =>
    if f.case.status = .auto then
      match leaf with
      | .resolve cause solution clear_alarms =>
        match f.resolve actor now cause solution clear_alarms true .automation with
        | .ok g => s.amend_case sid fun _ => g
        | .error _ => s.requeue sid .automation now worst
      | .pending status text next_update_in_s =>
        match f.auto_pend actor now s.agents status text next_update_in_s worst with
        | .ok g =>
          let t := s.amend_case sid fun _ => g
          if g.case.status = .queue then t.wake_back sid now else t
        | .error _ => s.requeue sid .automation now worst
      | .queue => s.requeue sid .automation now worst
    else s
  | none => s

end Floor

/-- What the case loop read for its pass. -/
structure Notice where
  seen : Floor
  situations : ℕ → Option BrokerResolution
  time : ℚ
  /-- the pass has come to closing, its last part -/
  closing : Bool

/-- The cases and the agents, the Broker's situations, and what the two loops last read. -/
structure Shift where
  floor : Floor := {}
  situations : ℕ → Option BrokerResolution := fun _ => none
  noticed : Option Notice := none
  looked : Option Look := none

inductive CaseOp where
  | opened (sid : ℕ) (severity : Option Severity) (now : ℚ)
  | broker (sid : ℕ) (resolution : BrokerResolution)
  | agents (agents : List Agent)
  | take (sid : ℕ) (actor : Actor) (now : ℚ) (worst : Option Severity)
  | release (sid : ℕ) (actor : Actor) (now : ℚ) (admin : Bool)
  | update (sid : ℕ) (actor : Actor) (now : ℚ) (version : Option ℕ) (fields : CaseFields)
      (summaries : List (ℕ × String)) (organizations : List ℕ)
  | set_status (sid : ℕ) (actor : Actor) (now : ℚ) (version : Option ℕ) (status : Pending)
      (next_update_at : Option ℚ) (admin : Bool)
  | resolve (sid : ℕ) (actor : Actor) (now : ℚ) (version : Option ℕ) (cause solution : String)
      (alarms_verified_clear admin : Bool)
  | post (sid : ℕ) (author : Actor) (now : ℚ) (worst : Option Severity)
  | granted (sid : ℕ) (now : ℚ) (worst : Option Severity)
  | assign (sid : ℕ) (actor : Actor) (me : Option ℕ) (manages : Bool) (agent_id : Option ℕ) (now : ℚ)
  | escalate (sid : ℕ) (actor : Actor) (me : Option ℕ) (manages : Bool) (now : ℚ)
  | conclude (sid : ℕ) (actor : Actor) (leaf : Leaf) (now : ℚ) (worst : Option Severity)
  /-- the case loop reads -/
  | notice (now : ℚ)
  | rising (sid : ℕ) (worst : Option Severity)
  /-- an alarm of the case came back or joined -/
  | hear (sid : ℕ) (now : ℚ) (worst : Option Severity)
  | dispatch (sid : ℕ) (automate : Bool) (now : ℚ) (worst : Option Severity)
  | due (sid : ℕ) (now : ℚ) (worst : Option Severity)
  | orphaned (sid : ℕ) (now : ℚ)
  | stale (sid : ℕ) (now : ℚ)
  /-- the agent loop reads -/
  | look (now : ℚ)
  | route (sid : ℕ) (now : ℚ)
  | climb (sid : ℕ) (now : ℚ)

/-- An edit against a version that someone else has replaced is refused. -/
def current (version : Option ℕ) (k : CaseFile → Except CaseError CaseFile) (f : CaseFile) : Except CaseError CaseFile :=
  if version.all (· = f.case.version) then k f
  else .error (not_now s!"the case changed since you read it (now version {f.case.version})")

namespace Notice
variable (n : Notice) (sid : ℕ)

/-- The case as the loop read it. -/
def row : Option Case := (n.seen.case sid).map CaseFile.case

def rises : Bool := (n.row sid).any fun c =>
  c.priority_by.isNone && c.priority ≠ .critical && c.status.live && c.status ≠ .new && !n.closing

def is_due : Bool := (n.row sid).any fun c => c.status.pends &&
  c.next_update_at.any (· ≤ n.time)

def is_stale : Bool := (n.row sid).any fun c => c.status = .resolved && c.resolved_at.any (· < n.time - CLOSE_AFTER_S)

/-- How the situation of a live case resolved. -/
def orphan : Option BrokerResolution :=
  if (n.row sid).any fun c => c.status.live && c.status ≠ .validate then n.situations sid else none

end Notice

/-- What an orphaned case comes to. -/
def orphan_act (resolution : BrokerResolution) (now : ℚ) (f : CaseFile) : CaseFile :=
  let why := "the situation resolved: " ++ WHY_RESOLVED resolution
  if ¬ f.case.status.live ∨ f.case.status = .validate then f
  else if resolution = .merged then f.auto_resolve now .merged "its situation was merged"
  else if f.case.status.unowned then f.auto_resolve now .cleared why
  else f.validate now

namespace Shift
variable (s : Shift)

def step : CaseOp → Shift
  | .opened sid severity now => { s with floor := s.floor.noc_case_open sid severity now }
  | .broker sid resolution => { s with situations := Function.update s.situations sid (some resolution) }
  | .agents agents => { s with floor := { s.floor with agents := agents } }
  | .take sid actor now worst => { s with floor := s.floor.act sid (·.take actor now worst) }
  | .release sid actor now admin => { s with floor := s.floor.act sid (·.release actor now admin) }
  | .update sid actor now version fields summaries organizations =>
    { s with floor := s.floor.act sid (current version (·.update actor now fields summaries organizations)) }
  | .set_status sid actor now version status next_update_at admin =>
    { s with floor := s.floor.act sid (current version (·.set_status actor now status next_update_at admin)) }
  | .resolve sid actor now version cause solution clear admin =>
    { s with floor := s.floor.act sid (current version (·.resolve actor now cause solution clear admin .noc)) }
  | .post sid author now worst => { s with floor := s.floor.post sid author now worst }
  | .granted sid now worst => { s with floor := s.floor.granted sid now worst }
  | .assign sid actor me manages agent_id now => { s with floor := s.floor.assign_case sid actor me manages agent_id now }
  | .escalate sid actor me manages now => { s with floor := s.floor.escalate_case sid actor me manages now }
  | .conclude sid actor leaf now worst => { s with floor := s.floor.conclude sid actor leaf now worst }
  | .notice now => { s with noticed := some ⟨s.floor, s.situations, now, false⟩ }
  | .rising sid worst =>
    if s.noticed.any (·.rises sid) then { s with floor := s.floor.amend_case sid (·.reprioritize worst) } else s
  | .hear sid now worst =>
    if (s.floor.case sid).any (·.case.status.pends) then
      { s with floor := s.floor.requeue sid .alarm now worst }
    else s
  | .dispatch sid automate now worst =>
    if s.noticed.any (fun n => (n.row sid).any (·.status = .new)) ∧ (s.floor.case sid).any (·.case.status = .new) then
      { s with floor := s.floor.amend_case sid (·.dispatch now worst automate) }
    else s
  | .due sid now worst =>
    if s.noticed.any (·.is_due sid) ∧ (s.floor.case sid).any fun f =>
      f.case.status.pends && f.case.next_update_at.any (· ≤ now) then
      { s with floor := s.floor.requeue sid .next_update now worst }
    else s
  | .orphaned sid now =>
    match s.noticed.bind (·.orphan sid) with
    | some resolution => { s with floor := s.floor.amend_case sid (orphan_act resolution now) }
    | none => s
  | .stale sid now =>
    match s.noticed with
    | some n =>
      if n.is_stale sid ∧ (s.floor.case sid).any (·.case.status = .resolved) then
        { s with floor := s.floor.amend_case sid (·.close now), noticed := some { n with closing := true } }
      else s
    | none => s
  | .look now => { s with looked := some (s.floor.look now) }
  | .route sid now =>
    match s.looked with
    | some l =>
      if sid ∈ l.unrouted then
        match l.route now (s.floor, l.loads) sid with
        | .ok (t, loads) => { s with floor := t, looked := some { l with loads := loads } }
        | .error _ => s
      else s
    | none => s
  | .climb sid now =>
    match s.looked with
    | some l =>
      match l.climbing.find? (·.1 = sid) with
      | some row =>
        match l.climb now s.floor row with
        | .ok t => { s with floor := t }
        | .error _ => s
      | none => s
    | none => s

/-- A case that climbs has not been closed since the agent loop read it. -/
def Current (s : Shift) : CaseOp → Prop
  | .climb sid _ => ∀ f, s.floor.case sid = some f → f.case.status ≠ .closed
  | _ => True

end Shift

/-- Cases stay, each as a relation says, and new ones are kept. -/
structure Follows (R : CaseFile → CaseFile → Prop) (s t : Floor) : Prop where
  cases : ∀ sid f, s.case sid = some f → ∃ g, t.case sid = some g ∧ R f g
  added : ∀ sid g, s.case sid = none → t.case sid = some g → g.Kept ∧ g.case.status = .new

namespace Follows
variable {R : CaseFile → CaseFile → Prop} {s t : Floor} {sid : ℕ}

theorem of_same (hR : ∀ f, R f f) (h : ∀ sid, t.case sid = s.case sid) : Follows R s t :=
  ⟨fun sid f hf => ⟨f, (h sid).trans hf, hR f⟩, fun sid _ hnone hg => by
    rw [h sid, hnone] at hg
    cases hg⟩

theorem then_same {u : Floor} (h : Follows R s t) (hu : ∀ sid, u.case sid = t.case sid) : Follows R s u :=
  ⟨fun sid f hf => (h.cases sid f hf).imp fun _ hg => ⟨(hu sid).trans hg.1, hg.2⟩,
    fun sid g hnone hg => h.added sid g hnone ((hu sid).symm.trans hg)⟩

theorem amend (hR : ∀ f, R f f) {k : CaseFile → CaseFile} (h : ∀ f, s.case sid = some f → R f (k f)) :
    Follows R s (s.amend_case sid k) := by
  refine ⟨fun other f hf => ?_, fun other _ hnone hg => ?_⟩
  · by_cases ho : other = sid
    · subst ho
      exact ⟨k f, Floor.case_amended hf k, h f hf⟩
    · exact ⟨f, (Floor.case_amend_other ho k).trans hf, hR f⟩
  · rw [Floor.case_amend_case, hnone] at hg
    cases hg

theorem mono {R' : CaseFile → CaseFile → Prop} (h : Follows R s t) (hR : ∀ f g, R f g → R' f g) : Follows R' s t :=
  ⟨fun sid f hf => (h.cases sid f hf).imp fun _ hg => ⟨hg.1, hR f _ hg.2⟩, h.added⟩

end Follows

section
variable {s : Floor} {sid : ℕ} {f : CaseFile} {now : ℚ}

private theorem follows_refl (s : Floor) : Follows Lawful s s := .of_same Lawful.refl fun _ => rfl

private theorem follows_act {k : CaseFile → Except CaseError CaseFile}
    (h : ∀ f g, s.case sid = some f → k f = .ok g → Lawful f g) : Follows Lawful s (s.act sid k) := by
  unfold Floor.act
  split
  · rename_i f hf
    split
    · rename_i g hg
      refine Follows.amend Lawful.refl fun f' hf' => ?_
      obtain rfl := Option.some.inj (hf.symm.trans hf')
      exact h f g hf hg
    · exact follows_refl s
  · exact follows_refl s

private theorem case_wake_back (s : Floor) (sid : ℕ) (now : ℚ) (other : ℕ) :
    (s.wake_back sid now).case other = s.case other := by
  unfold Floor.wake_back
  split
  · split
    · exact Floor.case_noc_wake ..
    · rfl
  · rfl

private theorem follows_requeue (h : ∀ f, s.case sid = some f → CaseAct.requeue.starts f.case.status = true)
    (reason : CycleReason) (now : ℚ) (worst : Option Severity) : Follows Lawful s (s.requeue sid reason now worst) :=
  (Follows.amend Lawful.refl fun f hf => lawful_requeue (h f hf) ..).then_same fun _ => case_wake_back ..

private theorem pends_starts {status : Status} (h : status.pends = true) : CaseAct.requeue.starts status = true := by
  cases status <;> first | rfl | cases h

private theorem follows_assign {case : Case} {agent : Agent} {trigger : Trigger} {tier : Option ℕ} {escalated : Bool}
    {t : Floor} (hf : s.case sid = some f) (hs : case.status = f.case.status)
    (h : s.assign sid case agent now trigger tier escalated = .ok t) : Follows Lawful s t := by
  have hlive := (Floor.assign_ok h).1
  unfold Floor.assign at h
  rw [if_neg (by simp [hlive])] at h
  split at h
  · cases h
  · have hassign : Follows Lawful s (s.amend_case sid (·.noc_case_assign (some agent.id) now
        (some (max case.tier (tier.getD agent.tier))) escalated false)) := by
      refine Follows.amend Lawful.refl fun f' hf' => lawful_assign ?_ ..
      obtain rfl := Option.some.inj (hf.symm.trans hf')
      rw [← hs]
      rintro hclosed
      rw [hclosed] at hlive
      cases hlive
    obtain rfl := Except.ok.inj h
    split
    · exact hassign.then_same fun _ => Floor.case_noc_wake ..
    · exact hassign

private theorem follows_people {case : Case} (hf : s.case sid = some f) (hs : case.status = f.case.status)
    (ho : case.owner = f.case.owner) (hopen : f.case.status ≠ .closed) (now : ℚ) :
    Follows Lawful s (s.with_people sid case now) := by
  refine Follows.amend Lawful.refl fun f' hf' => ?_
  obtain rfl := Option.some.inj (hf.symm.trans hf')
  have hsame : Floor.to_people case now f = Floor.to_people f.case now f := by
    simp only [Floor.to_people, hs, ho]
  exact hsame ▸ lawful_to_people hopen now

private theorem follows_escalate {case : Case} {everyone : List Agent} {t : Floor} (hf : s.case sid = some f)
    (hs : case.status = f.case.status) (ho : case.owner = f.case.owner) (hopen : f.case.status ≠ .closed)
    (h : s.escalate sid case everyone now = .ok t) : Follows Lawful s t := by
  unfold Floor.escalate at h
  split at h
  · exact follows_assign hf hs h
  · exact Except.ok.inj h ▸ follows_people hf hs ho hopen now

private theorem open_of_live (h : f.case.status.live = true) : f.case.status ≠ .closed := by
  rintro hclosed
  rw [hclosed] at h
  cases h

private theorem follows_opened (s : Floor) (sid : ℕ) (severity : Option Severity) (now : ℚ) :
    Follows Lawful s (s.noc_case_open sid severity now) := by
  unfold Floor.noc_case_open
  split
  · exact follows_refl s
  · have hfind (other : ℕ) (rows : List (ℕ × CaseFile)) (row : ℕ × CaseFile) : (rows ++ [row]).find? (·.1 = other) =
        (rows.find? (·.1 = other)).or (if row.1 = other then some row else none) := by
      rw [List.find?_append, List.find?_singleton]
      simp only [decide_eq_true_eq]
    refine ⟨fun other f hf => ⟨f, ?_, Lawful.refl f⟩, fun other g hnone hg => ?_⟩
    · obtain ⟨row, hrow, rfl⟩ := Option.map_eq_some_iff.mp hf
      simp only [Floor.case, hfind, hrow, Option.some_or, Option.map_some]
    · have hnone' : s.cases.find? (·.1 = other) = none := Option.map_eq_none_iff.mp hnone
      simp only [Floor.case, hfind, hnone', Option.none_or] at hg
      split at hg
      · obtain rfl := Option.some.inj hg
        exact ⟨⟨fun h => Status.noConfusion h, rfl, Nat.zero_le _⟩, rfl⟩
      · cases hg

private theorem follows_post (s : Floor) (sid : ℕ) (author : Actor) (now : ℚ) (worst : Option Severity) :
    Follows Lawful s (s.post sid author now worst) := by
  unfold Floor.post
  split
  · rename_i f hf
    split
    · rename_i h
      refine follows_requeue (fun f' hf' => ?_) ..
      obtain rfl := Option.some.inj (hf.symm.trans hf')
      exact pends_starts h.2.1
    · exact follows_refl s
  · exact follows_refl s

private theorem follows_granted (s : Floor) (sid : ℕ) (now : ℚ) (worst : Option Severity) :
    Follows Lawful s (s.granted sid now worst) := by
  unfold Floor.granted
  split
  · rename_i f hf
    split
    · rename_i h
      refine follows_requeue (fun f' hf' => ?_) ..
      obtain rfl := Option.some.inj (hf.symm.trans hf')
      rcases h with h | h <;> rw [h] <;> rfl
    · exact follows_refl s
  · exact follows_refl s

private theorem follows_assign_case (s : Floor) (sid : ℕ) (actor : Actor) (me : Option ℕ) (manages : Bool)
    (agent_id : Option ℕ) (now : ℚ) : Follows Lawful s (s.assign_case sid actor me manages agent_id now) := by
  unfold Floor.assign_case
  split
  · rename_i f hf
    split
    · rename_i hmay
      split
      · exact follows_people hf rfl rfl (open_of_live hmay.1) now
      · split
        · split
          · rename_i t ht
            exact follows_assign hf rfl ht
          · exact follows_refl s
        · exact follows_refl s
    · exact follows_refl s
  · exact follows_refl s

private theorem follows_escalate_case (s : Floor) (sid : ℕ) (actor : Actor) (me : Option ℕ) (manages : Bool) (now : ℚ) :
    Follows Lawful s (s.escalate_case sid actor me manages now) := by
  unfold Floor.escalate_case
  split
  · rename_i f hf
    split
    · rename_i hmay
      split
      · rename_i t ht
        exact follows_escalate hf (by rfl) (by rfl) (open_of_live hmay.1) ht
      · exact follows_refl s
    · exact follows_refl s
  · exact follows_refl s

private theorem follows_conclude (s : Floor) (sid : ℕ) (actor : Actor) (leaf : Leaf) (now : ℚ)
    (worst : Option Severity) : Follows Lawful s (s.conclude sid actor leaf now worst) := by
  unfold Floor.conclude
  split
  · rename_i f hf
    split
    · rename_i hauto
      have hrequeue : Follows Lawful s (s.requeue sid .automation now worst) := by
        refine follows_requeue (fun f' hf' => ?_) ..
        obtain rfl := Option.some.inj (hf.symm.trans hf')
        rw [hauto]
        rfl
      have hown {g : CaseFile} (hg : Lawful f g) : Follows Lawful s (s.amend_case sid fun _ => g) := by
        refine Follows.amend Lawful.refl fun f' hf' => ?_
        obtain rfl := Option.some.inj (hf.symm.trans hf')
        exact hg
      split
      · split
        · rename_i g hg
          exact hown (lawful_resolve hg)
        · exact hrequeue
      · split
        · rename_i g hg
          simp only
          split
          · exact (hown (lawful_auto_pend hg)).then_same fun _ => case_wake_back ..
          · exact hown (lawful_auto_pend hg)
        · exact hrequeue
      · exact hrequeue
    · exact follows_refl s
  · exact follows_refl s

private theorem follows_current {version : Option ℕ} {k : CaseFile → Except CaseError CaseFile} (s : Floor) (sid : ℕ)
    (h : ∀ f g, k f = .ok g → Lawful f g) : Follows Lawful s (s.act sid (current version k)) := by
  refine follows_act fun f g _ hg => ?_
  unfold current at hg
  split at hg
  · exact h f g hg
  · cases hg

/-- Merged with another, over before anyone took it, or to be confirmed by its owner. -/
private theorem lawful_orphan (f : CaseFile) (resolution : BrokerResolution) (now : ℚ) :
    Lawful f (orphan_act resolution now f) := by
  unfold orphan_act
  simp only
  split
  · exact Lawful.refl f
  · rename_i hlive
    push Not at hlive
    split
    · refine lawful_auto_resolve ?_ ..
      cases hs : f.case.status <;> simp [hs, Status.live, CaseAct.starts] at hlive ⊢
    · split
      · rename_i hunowned
        refine lawful_auto_resolve (.inl ?_) ..
        cases hs : f.case.status <;> simp [hs, Status.unowned, CaseAct.starts] at hunowned ⊢
      · rename_i hunowned
        refine lawful_validate ?_ now
        cases hs : f.case.status <;> simp [hs, Status.live, Status.unowned, CaseAct.starts] at hlive hunowned ⊢

private theorem follows_route {l : Look} {loads loads' : ℕ → ℕ} {s t : Floor} {sid : ℕ} {now : ℚ}
    (h : l.route now (s, loads) sid = .ok (t, loads')) : Follows Lawful s t := by
  simp only [Look.route] at h
  split at h
  · rename_i entry f hentry hf
    split at h
    · cases hu : s.assign sid f.case entry now .assignment none false with
      | error e =>
        rw [hu] at h
        cases h
      | ok u =>
        rw [hu] at h
        obtain ⟨rfl, -⟩ := Prod.mk.inj (Except.ok.inj h)
        exact follows_assign hf rfl hu
    · obtain ⟨rfl, -⟩ := Prod.mk.inj (Except.ok.inj h)
      exact follows_refl s
  · obtain ⟨rfl, -⟩ := Prod.mk.inj (Except.ok.inj h)
    exact follows_refl s

private theorem follows_climb {l : Look} {s t : Floor} {row : ℕ × Case} {now : ℚ}
    (hopen : ∀ f, s.case row.1 = some f → f.case.status ≠ .closed) (h : l.climb now s row = .ok t) :
    Follows Lawful s t := by
  unfold Look.climb at h
  split at h
  · rename_i f hf
    split at h
    · exact follows_escalate hf rfl rfl (hopen f hf) h
    · exact Except.ok.inj h ▸ follows_refl s
  · exact Except.ok.inj h ▸ follows_refl s

end

namespace Shift
variable {s : Shift}

/-- Every case is kept, and what the case loop may still raise has not been closed since it read it. -/
structure Ruled (s : Shift) : Prop where
  kept : ∀ sid f, s.floor.case sid = some f → f.Kept
  apart : ∀ n ∈ s.noticed, n.closing = false → ∀ sid c f, n.row sid = some c → c.status.live = true →
    s.floor.case sid = some f → f.case.status ≠ .closed

/-- All but the last part of the case loop's pass leaves a case that is not closed so. -/
theorem follows_step (h : s.Ruled) (op : CaseOp) (hc : s.Current op) (hstale : ∀ sid now, op ≠ .stale sid now) :
    Follows Lawful s.floor (s.step op).floor := by
  cases op with
  | opened sid severity now => exact follows_opened ..
  | broker => exact follows_refl _
  | agents agents => exact .of_same Lawful.refl fun _ => rfl
  | take => exact follows_act fun f g _ hg => lawful_take hg
  | release => exact follows_act fun f g _ hg => lawful_release hg
  | update => exact follows_current _ _ fun f g hg => (lawful_update hg).1
  | set_status => exact follows_current _ _ fun f g hg => lawful_set_status hg
  | resolve => exact follows_current _ _ fun f g hg => lawful_resolve hg
  | post => exact follows_post ..
  | granted => exact follows_granted ..
  | assign => exact follows_assign_case ..
  | escalate => exact follows_escalate_case ..
  | conclude => exact follows_conclude ..
  | notice => exact follows_refl _
  | rising sid worst =>
    simp only [step]
    split
    · rename_i hrises
      obtain ⟨n, hn, hrises⟩ := (Option.any_eq_true ..).mp hrises
      obtain ⟨c, hc', hrises⟩ := (Option.any_eq_true ..).mp hrises
      simp only [Bool.and_eq_true, Bool.not_eq_true'] at hrises
      refine Follows.amend Lawful.refl fun f hf => lawful_reprioritize ?_ worst
      exact h.apart n hn hrises.2 sid c f hc' hrises.1.1.2 hf
    · exact follows_refl _
  | hear sid now worst =>
    simp only [step]
    split
    · rename_i hpends
      refine follows_requeue (fun f hf => ?_) ..
      rw [hf] at hpends
      exact pends_starts hpends
    · exact follows_refl _
  | dispatch sid automate now worst =>
    simp only [step]
    split
    · rename_i hnew
      refine Follows.amend Lawful.refl fun f hf => lawful_dispatch ?_ ..
      have := hnew.2
      rw [hf] at this
      simpa using this
    · exact follows_refl _
  | due sid now worst =>
    simp only [step]
    split
    · rename_i hdue
      refine follows_requeue (fun f hf => pends_starts ?_) ..
      have := hdue.2
      rw [hf] at this
      simp only [Option.any_some, Bool.and_eq_true] at this
      exact this.1
    · exact follows_refl _
  | orphaned sid now =>
    simp only [step]
    split
    · exact Follows.amend Lawful.refl fun f _ => lawful_orphan ..
    · exact follows_refl _
  | stale sid now => exact absurd rfl (hstale sid now)
  | look => exact follows_refl _
  | route sid now =>
    simp only [step]
    split
    · split
      · split
        · rename_i t loads ht
          exact follows_route ht
        · exact follows_refl _
      · exact follows_refl _
    · exact follows_refl _
  | climb sid now =>
    simp only [step]
    split
    · split
      · rename_i row hrow
        split
        · rename_i t ht
          have hsid : row.1 = sid := by simpa using List.find?_some hrow
          exact follows_climb (hsid ▸ hc) ht
        · exact follows_refl _
      · exact follows_refl _
    · exact follows_refl _

private theorem follows_stale (s : Shift) (sid : ℕ) (now : ℚ) :
    Follows Moved s.floor (s.step (.stale sid now)).floor := by
  have hrefl (f : CaseFile) : Moved f f := (Lawful.refl f).toMoved
  simp only [step]
  split
  · split
    · rename_i hresolved
      refine Follows.amend hrefl fun f hf => moved_close ?_ now
      have := hresolved.2
      rw [hf] at this
      simpa using this
    · exact .of_same hrefl fun _ => rfl
  · exact .of_same hrefl fun _ => rfl

private theorem step_stale (s : Shift) (sid : ℕ) (now : ℚ) : s.step (.stale sid now) = s ∨
    ∃ n, (s.step (.stale sid now)).noticed = some n ∧ n.closing = true := by
  simp only [step]
  split
  · split
    · exact .inr ⟨_, rfl, rfl⟩
    · exact .inl rfl
  · exact .inl rfl

/-- A step moves every case by the table, keeps what was kept, and leaves a closed case as it is. -/
theorem moved_step (h : s.Ruled) (op : CaseOp) (hc : s.Current op) :
    Follows Moved s.floor (s.step op).floor := by
  by_cases hstale : ∃ sid now, op = .stale sid now
  · obtain ⟨sid, now, rfl⟩ := hstale
    exact follows_stale s sid now
  · push Not at hstale
    exact (follows_step h op hc hstale).mono fun _ _ hf => hf.toMoved

/-- Only its own reading and its closing change what the case loop goes by. -/
private theorem noticed_step (s : Shift) (op : CaseOp) (hnotice : ∀ now, op ≠ .notice now)
    (hstale : ∀ sid now, op ≠ .stale sid now) : (s.step op).noticed = s.noticed := by
  cases op with
  | notice now => exact absurd rfl (hnotice now)
  | stale sid now => exact absurd rfl (hstale sid now)
  | rising | hear | dispatch | due | orphaned | route | climb =>
    simp only [step]
    repeat' split
    all_goals rfl
  | _ => rfl

theorem ruled_step (h : s.Ruled) (op : CaseOp) (hc : s.Current op) : (s.step op).Ruled := by
  have hmoved := moved_step h op hc
  refine ⟨fun sid g hg => ?_, fun n hn hclosing sid c g hrow hlive hg => ?_⟩
  · cases hf : s.floor.case sid with
    | none => exact (hmoved.added sid g hf hg).1
    | some f =>
      obtain ⟨g', hg', hR⟩ := hmoved.cases sid f hf
      obtain rfl := Option.some.inj (hg.symm.trans hg')
      exact hR.kept (h.kept sid f hf)
  · by_cases hnotice : ∃ now, op = .notice now
    · obtain ⟨now, rfl⟩ := hnotice
      obtain rfl := Option.some.inj hn
      obtain ⟨f, hf, rfl⟩ := Option.map_eq_some_iff.mp hrow
      obtain rfl := Option.some.inj (hg.symm.trans hf)
      exact open_of_live hlive
    · push Not at hnotice
      by_cases hstale : ∃ sid now, op = .stale sid now
      · obtain ⟨other, now, rfl⟩ := hstale
        rcases step_stale s other now with hsame | ⟨m, hm, hm'⟩
        · rw [hsame] at hn hg
          exact h.apart n hn hclosing sid c g hrow hlive hg
        · obtain rfl := Option.some.inj (hm.symm.trans hn)
          rw [hm'] at hclosing
          cases hclosing
      · push Not at hstale
        rw [noticed_step s op hnotice hstale] at hn
        have hlawful := follows_step h op hc hstale
        cases hf : s.floor.case sid with
        | none =>
          rw [(hlawful.added sid g hf hg).2]
          exact Status.noConfusion
        | some f =>
          obtain ⟨g', hg', hR⟩ := hlawful.cases sid f hf
          obtain rfl := Option.some.inj (hg.symm.trans hg')
          exact fun hclosed => h.apart n hn hclosing sid c f hrow hlive hf (hR.shut hclosed)

theorem ruled_start : ({} : Shift).Ruled :=
  ⟨fun _ f hf => absurd hf (Option.some_ne_none f).symm, fun n hn => absurd hn (Option.not_mem_none n)⟩

/-- What was closed somewhere along a run is as it was closed at its end. -/
theorem run_closed {t : Shift} (ht : t.Ruled) (ops : List CaseOp) (h : Runs.Meets step Current t ops) {sid : ℕ}
    {f : CaseFile} (hf : t.floor.case sid = some f) (hclosed : f.case.status = .closed) :
    (Runs.run step t ops).floor.case sid = some f := by
  induction ops generalizing t with
  | nil => exact hf
  | cons op ops ih =>
    refine ih (ruled_step ht op h.1) h.2 ?_
    obtain ⟨g, hg, hmoved⟩ := (moved_step ht op h.1).cases sid f hf
    rw [hg, hmoved.closed hclosed]

end Shift

/-- Along every run of the acts on the cases in which no case is closed between the agent loop's reading of it
and its climb: a case in the queue has no owner and exactly one open untaken cycle, and no other case has one; at
most one cycle is taken and not left, and only while the case is working; a step changes a status only as the
table allows; and a closed case never changes again. -/
theorem run_lifecycle (ops : List CaseOp) (h : Runs.Meets Shift.step Shift.Current {} ops) :
    (∀ sid f, (Runs.run Shift.step {} ops).floor.case sid = some f →
      (f.case.status = .queue → f.case.owner = none ∧ f.waiting = 1) ∧ (f.case.status ≠ .queue → f.waiting = 0) ∧
      f.holding ≤ 1 ∧ (f.holding ≠ 0 → f.case.status = .working)) ∧
    (∀ before op after, ops = before ++ op :: after → ∀ sid f,
      (Runs.run Shift.step {} before).floor.case sid = some f →
      ∃ g, (Runs.run Shift.step {} (before ++ [op])).floor.case sid = some g ∧
        (g.case.status = f.case.status ∨ Allowed f.case.status g.case.status)) ∧
    ∀ before after, ops = before ++ after → ∀ sid f, (Runs.run Shift.step {} before).floor.case sid = some f →
      f.case.status = .closed → (Runs.run Shift.step {} ops).floor.case sid = some f := by
  have hstep : ∀ (t : Shift) (op : CaseOp), t.Ruled → t.Current op → (t.step op).Ruled :=
    fun t op ht hc => Shift.ruled_step ht op hc
  refine ⟨fun sid f hf => ?_, ?_, ?_⟩
  · have hkept := (Runs.run_invariant hstep {} ops Shift.ruled_start h).kept sid f hf
    have hwaiting := hkept.waiting
    have hholding := hkept.holding
    refine ⟨fun hs => ⟨hkept.unowned hs, by rwa [if_pos hs] at hwaiting⟩, fun hs => by rwa [if_neg hs] at hwaiting,
      ?_, fun hne => ?_⟩
    · split at hholding <;> omega
    · by_contra hs
      rw [if_neg hs] at hholding
      omega
  · rintro before op after rfl sid f hf
    obtain ⟨hbefore, hop⟩ := (Runs.meets_append ..).mp h
    have hruled := Runs.run_invariant hstep {} before Shift.ruled_start hbefore
    obtain ⟨g, hg, hmoved⟩ := (Shift.moved_step hruled op hop.1).cases sid f hf
    rw [Runs.run_append]
    exact ⟨g, hg, hmoved.moves⟩
  · rintro before after rfl sid f hf hclosed
    obtain ⟨hbefore, hafter⟩ := (Runs.meets_append ..).mp h
    rw [Runs.run_append]
    exact Shift.run_closed (Runs.run_invariant hstep {} before Shift.ruled_start hbefore) after hafter hf hclosed

/-- Everything that a resolution asks for. -/
def told : CaseFields where
  text := fun _ => some "told"

def ana : Actor := ⟨.token 1, "Ana", .agent⟩

/-- An agent with no manager is routed a case, takes it, and resolves it while the agent loop finds that it
should climb; a day later it is closed. -/
def worked : List CaseOp :=
  [.agents [{ id := 1, name := "Ana", entry := true }], .opened 1 (some .critical) 0, .notice 1, .dispatch 1 false 1 none,
    .look 2, .route 1 2, .take 1 ana 3 none, .update 1 ana 4 none told [] [], .look 3600,
    .resolve 1 ana 3601 none "hardware" "swapped" true false, .notice 100000, .stale 1 100000]

/-- No step of it is a climb: its last one closes the case. -/
theorem run_lifecycle_worked : ∃ f g, (Runs.run Shift.step {} worked.dropLast).floor.case 1 = some f ∧
    f.case.status = .resolved ∧ (Runs.run Shift.step {} worked).floor.case 1 = some g ∧
      (g.case.status = f.case.status ∨ Allowed f.case.status g.case.status) := by
  have hresolved : ((Runs.run Shift.step {} worked.dropLast).floor.case 1).map (fun f => f.case.status) =
      some .resolved := by decide +kernel
  obtain ⟨f, hf, hstatus⟩ := Option.map_eq_some_iff.mp hresolved
  obtain ⟨g, hg, hmoved⟩ := (run_lifecycle worked ⟨trivial, trivial, trivial, trivial, trivial, trivial, trivial, trivial,
    trivial, trivial, trivial, trivial, trivial⟩).2.1 worked.dropLast (.stale 1 100000) [] rfl 1 f hf
  exact ⟨f, g, hf, hstatus, hg, hmoved⟩

/-- The climb comes after the closing: the closed case goes to the people. -/
theorem closed_climbs : ¬ ∀ before after : List CaseOp, ∀ sid f,
    (Runs.run Shift.step {} before).floor.case sid = some f → f.case.status = .closed →
      (Runs.run Shift.step {} (before ++ after)).floor.case sid = some f := by
  intro h
  have hclosed : ((Runs.run Shift.step {} worked).floor.case 1).map (fun f => (f.case.status, f.case.with_people)) =
      some (.closed, false) := by decide +kernel
  have hclimbed : ((Runs.run Shift.step {} (worked ++ [.climb 1 100001])).floor.case 1).map
      (fun f => (f.case.status, f.case.with_people)) = some (.closed, true) := by decide +kernel
  obtain ⟨f, hf, he⟩ := Option.map_eq_some_iff.mp hclosed
  rw [h worked [.climb 1 100001] 1 f hf (Prod.mk.inj he).1, Option.map_some, he] at hclimbed
  exact absurd hclimbed (by decide)

end NetCoreNoc.Noc
