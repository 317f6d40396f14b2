import Mathlib
import NetCoreNoc.Situations.Table

/-! What the writers of `situation.status` can do to it, in any order. -/
namespace NetCoreNoc.Situations

/-- The writes of the engine, the sweeps, the proposals and the operator's gestures. Every caller of
`promote_situation` but autonomy names a gesture; `resolve_situation` has two reasons. -/
inductive Op where
  | create_situation (ts : ℚ) (act : Act)
  | promote_situation (sid : Sid) (ts : ℚ) (act : {act : Act // act ≠ .autonomy})
  | acceptGrouping (sid : Sid) (now : ℚ)
  | touch_situation (sid : Sid) (ts : ℚ)
  | insert_member (sid : Sid) (aid : Aid)
  | merge_situations (dst src : Sid) (ts : ℚ)
  | close_situation (sid : Sid) (ts : ℚ)
  | manual_close_situation (sid : Sid) (ts : ℚ)
  | resolve_idle (sid : Sid) (ts : ℚ)
  | resolve_cleared (sid : Sid) (ts : ℚ)
  | set_proposal (sid target : Sid)
  | withdraw_proposal (sid : Sid) (ts : ℚ)
  | lapse (now : ℚ)
  | move_alarm (aid : Aid) (source target : Sid)
  | operator_split (sid : Sid) (departing : List Aid) (ts : ℚ)
  | prune (cutoff : ℚ) (held : Sid → Bool)
  /-- an alarm is raised, repeated, cleared, surfaced -/
  | alarm (aid : Aid) (row : Alarm)

/-- A write that raises changes nothing. -/
def Tables.step (t : Tables) : Op → Tables
  | .create_situation ts act => ((t.create_situation ts act).map (·.1)).getD t
  | .promote_situation sid ts act => (t.promote_situation sid ts act).getD t
  | .acceptGrouping sid now => t.acceptGrouping sid now
  | .touch_situation sid ts => t.touch_situation sid ts
  | .insert_member sid aid => (t.insert_member sid aid).1
  | .merge_situations dst src ts => t.merge_situations dst src ts
  | .close_situation sid ts => t.close_situation sid ts
  | .manual_close_situation sid ts => t.manual_close_situation sid ts
  | .resolve_idle sid ts => t.resolve_situation sid .idle ts
  | .resolve_cleared sid ts => t.resolve_situation sid .manual_clear ts
  | .set_proposal sid target => t.set_proposal sid target
  | .withdraw_proposal sid ts => t.withdraw_proposal sid ts
  | .lapse now => t.lapse now
  | .move_alarm aid source target => t.move_alarm aid source target
  | .operator_split sid departing ts => ((t.operator_split sid departing ts).map (·.1)).getD t
  | .prune cutoff held => t.prune cutoff held
  | .alarm aid row => { t with alarm := Function.update t.alarm aid (some row) }

/-- The acts of the table that a write performs. -/
def Op.acts : Op → List Act
  | .create_situation _ act => [act]
  | .promote_situation _ _ act => [act]
  | .acceptGrouping _ _ => [.autonomy]
  | .merge_situations _ _ _ => [.merged_away]
  | .close_situation _ _ => [.self_cleared, .idle]
  | .manual_close_situation _ _ => [.close]
  | .resolve_idle _ _ => [.idle]
  | .resolve_cleared _ _ => [.manual_clear]
  | .withdraw_proposal _ _ => [.reject]
  | .lapse _ => [.lapse]
  | .operator_split _ _ _ => [.operator_split]
  | _ => []

/-- What one write may do to one situation's status: nothing, an edge of the table for an act of
the write, or, by retention, the end of a resolved row. -/
def Allowed (acts : List Act) (before after : Option Status) : Prop :=
  after = before ∨ (∃ act ∈ acts, after.isSome ∧ TRANSITIONS act before = after) ∨
    before = some .resolved ∧ after = none

namespace Tables
variable {t : Tables}

@[simp] theorem status_addMember (sid : Sid) (aid : Aid) : (t.addMember sid aid).status = t.status := by
  funext i
  unfold addMember
  split <;> rfl

@[simp] theorem next_addMember (sid : Sid) (aid : Aid) : (t.addMember sid aid).next = t.next := by
  unfold addMember
  split <;> rfl

@[simp] theorem status_removeMembers (p : Sid × Aid → Bool) : (t.removeMembers p).status = t.status := rfl

private theorem addMembers (new : Sid) (as : List Aid) (t : Tables) :
    (as.foldl (fun t a => t.addMember new a) t).status = t.status ∧
      (as.foldl (fun t a => t.addMember new a) t).next = t.next := by
  induction as generalizing t with
  | nil => exact ⟨rfl, rfl⟩
  | cons a as ih =>
    obtain ⟨hs, hn⟩ := ih (t.addMember new a)
    exact ⟨hs.trans (status_addMember _ _), hn.trans (next_addMember _ _)⟩

/-- An update goes from the status of a row it matches to the status it writes there. -/
theorem status_update (sid : Sid) (p : Situation → Bool) (f : Situation → Situation) (i : Sid) :
    (t.update sid p f).status i = t.status i ∨
      i = sid ∧ ∃ r, t.situation i = some r ∧ p r = true ∧ (t.update sid p f).status i = some (f r).status := by
  by_cases hi : i = sid
  · cases hr : t.situation i with
    | none => exact .inl (by simp [status, update, hi, hi ▸ hr])
    | some r =>
      cases hp : p r with
      | false => exact .inl (by simp [status, update, hi, hi ▸ hr, hp])
      | true => exact .inr ⟨hi, r, rfl, hp, by simp [status, update, hi, hi ▸ hr, hp]⟩
  · exact .inl (by simp [status, update, hi])

/-- An update that keeps the status of every row. -/
theorem status_update_eq {sid : Sid} {p : Situation → Bool} {f : Situation → Situation}
    (hf : ∀ r, (f r).status = r.status) : (t.update sid p f).status = t.status := by
  funext i
  rcases status_update (t := t) sid p f i with h | ⟨-, r, hr, -, h⟩
  · exact h
  · rw [h, hf, status, hr]
    rfl

@[simp] theorem status_touch (sid : Sid) (ts : ℚ) : (t.touch_situation sid ts).status = t.status :=
  status_update_eq fun _ => rfl

@[simp] theorem status_set_proposal (sid target : Sid) : (t.set_proposal sid target).status = t.status :=
  status_update_eq fun _ => rfl

/-- An update whose every change of status is an edge of the table. -/
private theorem allowed_update {sid : Sid} {p : Situation → Bool} {f : Situation → Situation}
    {acts : List Act} (h : ∀ r, p r = true → (f r).status = r.status ∨
      ∃ act ∈ acts, TRANSITIONS act (some r.status) = some (f r).status) (i : Sid) :
    Allowed acts (t.status i) ((t.update sid p f).status i) := by
  rcases status_update (t := t) sid p f i with he | ⟨-, r, hr, hp, he⟩
  · exact .inl he
  · have hst : t.status i = some r.status := by rw [status, hr]; rfl
    rw [he, hst]
    rcases h r hp with h | ⟨act, ha, h⟩
    · exact .inl (congrArg some h)
    · exact .inr (.inl ⟨act, ha, rfl, h⟩)

/-- Every resolution of a live situation is an edge of each act that leaves. -/
private theorem resolves {s : Status} {act : Act} (hs : s.live = true)
    (ha : act ∈ [Act.close, .self_cleared, .idle, .merged_away, .manual_clear]) :
    TRANSITIONS act (some s) = some .resolved := by
  cases s <;> first | contradiction | (fin_cases ha <;> rfl)

private theorem allowed_resolve {acts : List Act} {a : Act} (hact : a ∈ acts)
    (ha : a ∈ [Act.close, .self_cleared, .idle, .merged_away, .manual_clear]) (sid : Sid) (p : Bool)
    (resolution : Resolution) (ts : ℚ) (i : Sid) :
    Allowed acts (t.status i) ((t.resolve sid p resolution ts).status i) := by
  apply allowed_update
  intro r hr
  exact .inr ⟨a, hact, resolves (Bool.and_eq_true_iff.mp hr).1 ha⟩

/-- Attention takes a situation that is new or pending, unless it is autonomy's. -/
private theorem attention {act : Act} {s : Status} (hact : ATTENTION act = true)
    (h : s = .new ∨ s = .pending ∧ act ≠ .autonomy) : TRANSITIONS act (some s) = some .opened := by
  rcases h with rfl | ⟨rfl, h⟩
  · exact of_decide_eq_true hact
  · cases act <;> first | rfl | contradiction

private theorem allowed_withdraw {acts : List Act} {act : Act} (hact : act ∈ acts)
    (ha : act = .reject ∨ act = .lapse) (sid : Sid) (ts : ℚ) (i : Sid) :
    Allowed acts (t.status i) ((t.withdraw_proposal sid ts).status i) := by
  apply allowed_update
  intro r hr
  have hr : r.status = .pending := of_decide_eq_true hr
  refine .inr ⟨act, hact, ?_⟩
  rw [hr]
  rcases ha with rfl | rfl <;> rfl

/-- The proposals that lapse are left new, and the others as they are. -/
private theorem allowed_lapses (sids : List Sid) (now : ℚ) (t : Tables) (i : Sid) :
    let s := sids.foldl (fun t sid => t.withdraw_proposal sid now) t
    s.next = t.next ∧ (s.status i = t.status i ∨ t.status i = some .pending ∧ s.status i = some .new) := by
  induction sids generalizing t with
  | nil => exact ⟨rfl, .inl rfl⟩
  | cons sid sids ih =>
    obtain ⟨hn, h⟩ := ih (t.withdraw_proposal sid now)
    refine ⟨hn, ?_⟩
    rcases status_update (t := t) sid (fun r => r.status = .pending)
        (fun r => { r with status := .new, proposed_into := none, updated_at := now }) i with
      he | ⟨-, r, hr, hp, he⟩
    · exact he ▸ h
    · refine .inr ⟨by rw [status, hr]; exact congrArg some (of_decide_eq_true hp), ?_⟩
      rcases h with h | ⟨h, -⟩
      · exact h.trans he
      · rw [withdraw_proposal, he] at h
        exact absurd h (by simp)

private theorem allowed_insert {a : Act} {st : Status} (hact : TRANSITIONS a none = some st) (ts : ℚ)
    (hfree : t.status t.next = none) (i : Sid) :
    Allowed [a] (t.status i) ((t.insertSituation ts st).status i) := by
  by_cases hi : i = t.next
  · refine .inr (.inl ⟨a, List.mem_singleton_self a, ?_, ?_⟩)
    · simp [status, insertSituation, hi]
    · rw [hi, hfree, hact]
      simp [status, insertSituation]
  · exact .inl (by simp [status, insertSituation, hi])

/-- The numbers from the sequence on name no situation. -/
def Sequenced (t : Tables) : Prop := ∀ i, t.next ≤ i → t.status i = none

/-- A merge writes its source's status, and nothing else's. -/
private theorem status_merge (dst src : Sid) (ts : ℚ) (i : Sid) :
    (t.merge_situations dst src ts).status i = t.status i ∨
      ∃ st, t.status i = some st ∧ (t.merge_situations dst src ts).status i = some .resolved := by
  unfold merge_situations
  simp only
  rw [status_touch]
  obtain ⟨hs, -⟩ := addMembers dst (t.alarmsOf src) t
  rcases status_update (t := ((t.alarmsOf src).foldl (fun t a => t.addMember dst a) t).removeMembers
      fun r => r.1 = src) src (fun _ => true) (fun r => { r with
        status := .resolved, resolution := some .merged, closed_at := some ts, updated_at := ts,
        merged_into := some dst }) i with h | ⟨-, r, hr, -, h⟩
  · exact .inl (h.trans (congrFun hs i))
  · refine .inr ⟨r.status, ?_, h⟩
    rw [← congrFun hs i, status]
    exact congrArg _ hr

private theorem status_prune (cutoff : ℚ) (held : Sid → Bool) (i : Sid) :
    (t.prune cutoff held).status i = t.status i ∨
      t.status i = some .resolved ∧ (t.prune cutoff held).status i = none := by
  cases hr : t.situation i with
  | none => exact .inl (by simp [prune, status, removeMembers, hr])
  | some r =>
    by_cases hg : (r.status = .resolved ∧ r.closed_at.any (· < cutoff) = true) ∧ held i = false
    · refine .inr ⟨by simp [status, hr, hg.1.1], ?_⟩
      simp [prune, status, removeMembers, hr, hg.1.1, hg.1.2, hg.2]
    · refine .inl ?_
      have hg : ¬ (((r.status = .resolved && r.closed_at.any (· < cutoff)) && !held i) = true) := by
        simpa [Bool.and_eq_true] using hg
      simp only [prune, status, removeMembers, hr, Option.any_some]
      rw [if_neg hg]

/-- What a write does to a status is allowed. -/
theorem step_allowed (ht : t.Sequenced) (op : Op) (i : Sid) :
    Allowed op.acts (t.status i) ((t.step op).status i) := by
  cases op with
  | create_situation ts act =>
    simp only [step, create_situation]
    cases hact : TRANSITIONS act none with
    | none => exact .inl rfl
    | some st => exact allowed_insert hact ts (ht _ le_rfl) i
  | promote_situation sid ts act =>
    simp only [step, promote_situation]
    split
    · rename_i hact
      apply allowed_update
      intro r hr
      refine .inr ⟨act, List.mem_singleton_self _, attention hact ?_⟩
      rcases (Bool.or_eq_true _ _).mp hr with h | h
      · exact .inl (of_decide_eq_true h)
      · exact .inr ⟨of_decide_eq_true h, act.2⟩
    · exact .inl rfl
  | acceptGrouping sid now =>
    simp only [step, acceptGrouping]
    split
    · rename_i hnew
      have hact : ATTENTION .autonomy = true := rfl
      simp only [promote_situation, hact, if_true, Option.getD_some]
      rcases status_update (t := t) sid (fun r => r.status = .new || r.status = .pending)
          (fun r => { r with status := .opened, proposed_into := none, updated_at := now }) i with
        h | ⟨rfl, r, -, -, h⟩
      · exact .inl h
      · rw [h, hnew]
        exact .inr (.inl ⟨.autonomy, List.mem_singleton_self _, rfl, rfl⟩)
    · exact .inl rfl
  | touch_situation sid ts => exact .inl (congrFun (status_touch sid ts) i)
  | insert_member sid aid => exact .inl (congrFun (status_addMember sid aid) i)
  | merge_situations dst src ts =>
    rcases status_merge (t := t) dst src ts i with h | ⟨st, hst, h⟩
    · exact .inl h
    · rw [step, h, hst]
      cases hlive : st.live with
      | true =>
        exact .inr (.inl ⟨.merged_away, List.mem_singleton_self _, rfl, resolves hlive (by simp)⟩)
      | false => exact .inl (by cases st <;> first | rfl | contradiction)
  | close_situation sid ts => exact allowed_resolve (a := .idle) (by simp [Op.acts]) (by simp) ..
  | manual_close_situation sid ts => exact allowed_resolve (a := .close) (by simp [Op.acts]) (by simp) ..
  | resolve_idle sid ts => exact allowed_resolve (a := .idle) (by simp [Op.acts]) (by simp) ..
  | resolve_cleared sid ts =>
    exact allowed_resolve (a := .manual_clear) (by simp [Op.acts]) (by simp) ..
  | set_proposal sid target => exact .inl (congrFun (status_set_proposal sid target) i)
  | withdraw_proposal sid ts => exact allowed_withdraw (List.mem_singleton_self _) (.inl rfl) ..
  | lapse now =>
    rcases (allowed_lapses t.orphan_proposals now t i).2 with h | ⟨hb, ha⟩
    · exact .inl h
    · rw [step, lapse, ha, hb]
      exact .inr (.inl ⟨.lapse, List.mem_singleton_self _, rfl, rfl⟩)
  | move_alarm aid source target =>
    refine .inl (congrFun ?_ i)
    simp only [step, move_alarm]
    split
    · exact (status_addMember _ _).trans (status_removeMembers _)
    · rfl
  | operator_split sid departing ts =>
    obtain ⟨hs, -⟩ := addMembers t.next departing
      ((t.insertSituation ts .opened).removeMembers fun r => r.1 = sid && departing.contains r.2)
    have h := allowed_insert (t := t) (a := .operator_split) rfl ts (ht _ le_rfl) i
    exact (congrFun hs i).symm ▸ h
  | prune cutoff held =>
    rcases status_prune (t := t) cutoff held i with h | ⟨hb, ha⟩
    · exact .inl h
    · exact .inr (.inr ⟨hb, ha⟩)
  | alarm aid row => exact .inl rfl

/-- A write draws the number of what it creates from the sequence. -/
theorem step_next (op : Op) : t.next ≤ (t.step op).next ∧
    ∀ i, t.status i = none → (t.step op).status i ≠ none → i = t.next ∧ t.next < (t.step op).next := by
  have same {s : Tables} (hn : s.next = t.next) (hs : ∀ i, t.status i = none → s.status i = none) :
      t.next ≤ s.next ∧ ∀ i, t.status i = none → s.status i ≠ none → i = t.next ∧ t.next < s.next :=
    ⟨hn.ge, fun i hi h => absurd (hs i hi) h⟩
  have updated (sid : Sid) (p : Situation → Bool) (f : Situation → Situation) (i : Sid)
      (hi : t.status i = none) : (t.update sid p f).status i = none := by
    rcases status_update (t := t) sid p f i with h | ⟨-, r, hr, -, -⟩
    · exact h.trans hi
    · rw [status, hr] at hi
      exact absurd hi (by simp)
  have inserted (ts : ℚ) (st : Status) (i : Sid) (hi : t.status i = none)
      (h : (t.insertSituation ts st).status i ≠ none) : i = t.next := by
    by_contra hne
    exact h (by simpa [status, insertSituation, hne] using hi)
  cases op with
  | create_situation ts act =>
    simp only [step, create_situation]
    cases TRANSITIONS act none with
    | none => exact same rfl fun i hi => hi
    | some st => exact ⟨Nat.le_succ _, fun i hi h => ⟨inserted ts st i hi h, Nat.lt_succ_self _⟩⟩
  | promote_situation sid ts act =>
    simp only [step, promote_situation]
    split
    · exact same rfl (updated _ _ _)
    · exact same rfl fun i hi => hi
  | acceptGrouping sid now =>
    simp only [step, acceptGrouping, promote_situation]
    split
    · exact same rfl (updated _ _ _)
    · exact same rfl fun i hi => hi
  | touch_situation sid ts | close_situation sid ts | manual_close_situation sid ts
  | resolve_idle sid ts | resolve_cleared sid ts | set_proposal sid target
  | withdraw_proposal sid ts => exact same rfl (updated _ _ _)
  | insert_member sid aid => exact same (next_addMember _ _) fun i hi => by rw [step, insert_member]; simpa
  | merge_situations dst src ts =>
    refine same ?_ fun i hi => ?_
    · exact (addMembers dst (t.alarmsOf src) t).2
    · rcases status_merge (t := t) dst src ts i with h | ⟨st, hst, -⟩
      · exact h.trans hi
      · rw [hst] at hi
        exact absurd hi (by simp)
  | lapse now =>
    refine same (allowed_lapses t.orphan_proposals now t 0).1 fun i hi => ?_
    rcases (allowed_lapses t.orphan_proposals now t i).2 with h | ⟨h, -⟩
    · exact h.trans hi
    · rw [h] at hi
      exact absurd hi (by simp)
  | move_alarm aid source target =>
    simp only [step, move_alarm]
    split
    · exact same (next_addMember _ _) fun i hi => by simpa using hi
    · exact same rfl fun i hi => hi
  | operator_split sid departing ts =>
    obtain ⟨hs, hn⟩ := addMembers t.next departing
      ((t.insertSituation ts .opened).removeMembers fun r => r.1 = sid && departing.contains r.2)
    refine ⟨?_, fun i hi h => ⟨inserted ts .opened i hi fun h' => h ((congrFun hs i).trans h'), ?_⟩⟩
    · exact hn.symm ▸ Nat.le_succ _
    · exact hn.symm ▸ Nat.lt_succ_self _
  | prune cutoff held =>
    refine same rfl fun i hi => ?_
    rcases status_prune (t := t) cutoff held i with h | ⟨-, h⟩
    · exact h.trans hi
    · exact h
  | alarm aid row => exact same rfl fun i hi => hi

theorem step_sequenced (ht : t.Sequenced) (op : Op) : (t.step op).Sequenced := by
  obtain ⟨hle, hnew⟩ := step_next (t := t) op
  intro i hi
  by_contra h
  obtain ⟨rfl, hlt⟩ := hnew i (ht i (hle.trans hi)) h
  exact absurd hi (not_le.mpr hlt)

theorem run_sequenced (ops : List Op) (ht : t.Sequenced) : (Runs.run step t ops).Sequenced := by
  induction ops generalizing t with
  | nil => exact ht
  | cons op ops ih => exact ih (step_sequenced ht op)

/-- No act leads out of `resolved`. -/
private theorem resolved_final (act : Act) : TRANSITIONS act (some .resolved) = none := by
  cases act <;> rfl

/-- A row that has left, or is gone with its number drawn, is never live again. -/
theorem run_resolved (ops : List Op) (ht : t.Sequenced) {sid : Sid} (hlt : sid < t.next)
    (h : t.status sid = some .resolved ∨ t.status sid = none) :
    (Runs.run step t ops).status sid = some .resolved ∨ (Runs.run step t ops).status sid = none := by
  induction ops generalizing t with
  | nil => exact h
  | cons op ops ih =>
    obtain ⟨hle, hnew⟩ := step_next (t := t) op
    apply ih (step_sequenced ht op) (hlt.trans_le hle)
    rcases h with h | h
    · rcases step_allowed ht op sid with ha | ⟨act, -, hs, ha⟩ | ⟨-, ha⟩
      · exact .inl (ha.trans h)
      · rw [← ha, h, resolved_final] at hs
        exact absurd hs (by simp)
      · exact .inr ha
    · by_contra hne
      exact hlt.ne (hnew sid h fun h' => hne (.inr h')).1

/-- Over every order of writes: a status changes along an edge of the table only, and a situation
that has left never comes back. -/
theorem lifecycle (ops : List Op) (sid : Sid) :
    let s := Runs.run step {} ops
    (∀ op, Allowed op.acts (s.status sid) ((s.step op).status sid)) ∧
      (s.status sid = some .resolved → ∀ later,
        (Runs.run step s later).status sid = some .resolved ∨ (Runs.run step s later).status sid = none) := by
  have hseq : (Runs.run step {} ops).Sequenced := run_sequenced ops fun _ _ => rfl
  refine ⟨fun op => step_allowed hseq op sid, fun h later => run_resolved later hseq ?_ (.inl h)⟩
  by_contra hlt
  rw [hseq sid (not_lt.mp hlt)] at h
  exact absurd h (by simp)

end Tables
end NetCoreNoc.Situations
