import Mathlib
import NetCoreNoc.Runs

/-! The situations in the store (`store/situations.py`, `idle.py`, `proposals.py`, `restructure.py`,
`retention.py`): the table of allowed transitions, and every statement that writes a status. -/
namespace NetCoreNoc.Situations

/-- An identity column counts up and never hands a number out twice. -/
abbrev Sid := Nat
abbrev Aid := Nat

/-- `situation.status`; `opened` is the source's `open`. -/
inductive Status where
  | new | pending | opened | resolved
  deriving DecidableEq, Repr

/-- `LIVE` -/
def Status.live : Status → Bool
  | .resolved => false
  | _ => true

inductive Resolution where
  | operator | self_cleared | idle | merged | manual_clear
  deriving DecidableEq, Repr

/-- The acts of `TRANSITIONS`. -/
inductive Act where
  | correlate | surface | operator_split | propose
  | promote | feedback | move | merge | split | hand_clear | autonomy
  | accept | reject | lapse
  | rename
  | close | self_cleared | idle | merged_away | manual_clear
  deriving DecidableEq, Repr

/-- The state after an act, from the state before it; from none, the act creates the situation. -/
def TRANSITIONS : Act → Option Status → Option Status
  | .correlate, none => some .new
  | .surface, none => some .new
  | .operator_split, none => some .opened
  | .propose, none => some .pending
  | .promote, some .new | .promote, some .pending => some .opened
  | .feedback, some .new | .feedback, some .pending => some .opened
  | .move, some .new | .move, some .pending => some .opened
  | .merge, some .new | .merge, some .pending => some .opened
  | .split, some .new | .split, some .pending => some .opened
  | .hand_clear, some .new | .hand_clear, some .pending => some .opened
  | .autonomy, some .new => some .opened
  | .accept, some .pending => some .resolved
  | .reject, some .pending => some .new
  | .lapse, some .pending => some .new
  | .close, some .new | .close, some .pending | .close, some .opened => some .resolved
  | .self_cleared, some .new | .self_cleared, some .pending | .self_cleared, some .opened =>
    some .resolved
  | .idle, some .new | .idle, some .pending | .idle, some .opened => some .resolved
  | .merged_away, some .new | .merged_away, some .pending | .merged_away, some .opened =>
    some .resolved
  | .manual_clear, some .new | .manual_clear, some .pending | .manual_clear, some .opened =>
    some .resolved
  | _, _ => none

/-- `ATTENTION` -/
def ATTENTION (act : Act) : Bool := TRANSITIONS act (some .new) = some .opened

structure Situation where
  status : Status
  updated_at : ℚ
  closed_at : Option ℚ := none
  resolution : Option Resolution := none
  merged_into : Option Sid := none
  proposed_into : Option Sid := none
  deriving DecidableEq, Repr

/-- `active` stands for the status that is not `cleared`. -/
structure Alarm where
  class_id : Nat
  ne_id : Nat
  first_seen : ℚ
  last_seen : ℚ
  active : Bool
  deriving DecidableEq, Repr

structure Tables where
  situation : Sid → Option Situation := fun _ => none
  /-- the sequence behind `situation.id` -/
  next : Sid := 1
  situation_alarm : List (Sid × Aid) := []
  alarm : Aid → Option Alarm := fun _ => none

namespace Tables
variable (t : Tables)

def status (sid : Sid) : Option Status := (t.situation sid).map (·.status)

/-- `UPDATE situation SET … WHERE id=? AND …` -/
def update (sid : Sid) (p : Situation → Bool) (f : Situation → Situation) : Tables :=
  { t with situation := fun i =>
      if i = sid then (t.situation i).map fun r => if p r then f r else r else t.situation i }

/-- `HAS_ACTIVE` -/
def hasActive (sid : Sid) : Bool :=
  t.situation_alarm.any fun r => r.1 = sid && (t.alarm r.2).any (·.active)

def insertSituation (ts : ℚ) (status : Status) : Tables :=
  { t with
    situation := fun i => if i = t.next then some ⟨status, ts, none, none, none, none⟩
      else t.situation i
    next := t.next + 1 }

/-- `create_situation`, with the id it returns: none where the act creates nothing (`KeyError`). -/
def create_situation (ts : ℚ) (act : Act) : Option (Tables × Sid) :=
  (TRANSITIONS act none).map fun status => (t.insertSituation ts status, t.next)

/-- `promote_situation`; it refuses an act that is not one of attention. -/
def promote_situation (sid : Sid) (ts : ℚ) (act : Act) : Option Tables :=
  if ATTENTION act then
    some (t.update sid (fun r => r.status = .new || r.status = .pending) fun r =>
      { r with status := .opened, proposed_into := none, updated_at := ts })
  else none

def touch_situation (sid : Sid) (ts : ℚ) : Tables :=
  t.update sid (fun _ => true) fun r => { r with updated_at := ts }

/-- `INSERT INTO situation_alarm … ON CONFLICT DO NOTHING` -/
def addMember (sid : Sid) (aid : Aid) : Tables :=
  if (sid, aid) ∈ t.situation_alarm then t
  else { t with situation_alarm := t.situation_alarm ++ [(sid, aid)] }

/-- `insert_member`, with whether the alarm was not one already. -/
def insert_member (sid : Sid) (aid : Aid) : Tables × Bool :=
  (t.addMember sid aid, (sid, aid) ∉ t.situation_alarm)

def add_alarm_to_situation (sid : Sid) (aid : Aid) : Tables := t.addMember sid aid

/-- The alarms of a situation. -/
def alarmsOf (sid : Sid) : List Aid :=
  (t.situation_alarm.filter (·.1 = sid)).map (·.2)

/-- `DELETE FROM situation_alarm WHERE …` -/
def removeMembers (p : Sid × Aid → Bool) : Tables :=
  { t with situation_alarm := t.situation_alarm.filter fun r => !p r }

def merge_situations (dst src : Sid) (ts : ℚ) : Tables :=
  let t₁ := (t.alarmsOf src).foldl (fun t a => t.addMember dst a) t
  let t₂ := t₁.removeMembers fun r => r.1 = src
  let t₃ := t₂.update src (fun _ => true) fun r =>
    { r with status := .resolved, resolution := some .merged, closed_at := some ts, updated_at := ts,
             merged_into := some dst }
  t₃.touch_situation dst ts

/-- `_close_reason` -/
def closeReason (sid : Sid) : Resolution :=
  if (t.alarmsOf sid).any (fun a => (t.alarm a).isSome) && !t.hasActive sid then .self_cleared
  else .idle

/-- The statement that resolves a live situation. -/
def resolve (sid : Sid) (p : Bool) (resolution : Resolution) (ts : ℚ) : Tables :=
  t.update sid (fun r => r.status.live && p) fun r =>
    { r with status := .resolved, resolution := some resolution, closed_at := some ts,
             updated_at := ts }

def close_situation (sid : Sid) (ts : ℚ) : Tables :=
  t.resolve sid (!t.hasActive sid) (t.closeReason sid) ts

def manual_close_situation (sid : Sid) (ts : ℚ) : Tables := t.resolve sid true .operator ts

def resolve_situation (sid : Sid) (resolution : Resolution) (ts : ℚ) : Tables :=
  t.resolve sid true resolution ts

def set_proposal (sid target : Sid) : Tables :=
  t.update sid (fun _ => true) fun r => { r with proposed_into := some target }

def withdraw_proposal (sid : Sid) (ts : ℚ) : Tables :=
  t.update sid (fun r => r.status = .pending) fun r =>
    { r with status := .new, proposed_into := none, updated_at := ts }

/-- `orphan_proposals` -/
def orphan_proposals : List Sid :=
  (List.range t.next).filter fun i => (t.situation i).any fun p => p.status = .pending &&
    !(p.proposed_into.any fun target => (t.situation target).any fun r => r.status = .opened)

/-- `proposals.lapse` -/
def lapse (now : ℚ) : Tables := t.orphan_proposals.foldl (fun t sid => t.withdraw_proposal sid now) t

def move_alarm (aid : Aid) (source target : Sid) : Tables :=
  if (source, aid) ∈ t.situation_alarm then
    (t.removeMembers fun r => r = (source, aid)).addMember target aid
  else t

def operator_split (sid : Sid) (departing : List Aid) (ts : ℚ) : Option (Tables × Sid) :=
  (t.create_situation ts .operator_split).map fun (t₁, new) =>
    (departing.foldl (fun t a => t.addMember new a)
      (t₁.removeMembers fun r => r.1 = sid && departing.contains r.2), new)

/-- The act of autonomy on a grouping (`autonomy._act`): it is taken on a `new` situation. -/
def acceptGrouping (sid : Sid) (now : ℚ) : Tables :=
  if t.status sid = some .new then (t.promote_situation sid now .autonomy).getD t else t

/-- `prune`; `held` are the situations that a label, an event or a case keeps. -/
def prune (cutoff : ℚ) (held : Sid → Bool) : Tables :=
  let gone := fun i => (t.situation i).any fun r => r.status = .resolved && r.closed_at.any (· < cutoff)
  let t₁ := t.removeMembers fun r => gone r.1
  { t₁ with
    situation := fun i => if gone i && !held i then none else t.situation i
    alarm := fun a => (t.alarm a).filter fun r =>
      r.active || !decide (r.last_seen < cutoff) || t₁.situation_alarm.any (·.2 = a) }

end Tables
end NetCoreNoc.Situations
