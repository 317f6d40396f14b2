import Mathlib
import NetCoreNoc.Situations.Table
import NetCoreNoc.Correlate.Grouping

/-! What the engine holds of the situations, and what it does to them (`engine/operate/engine.py`,
`proposals.py`, `membership.py`, `window_sweep.py`). -/
namespace NetCoreNoc.Operate
open Situations Correlate

structure Member where
  alarm_id : Aid
  class_id : Nat
  device_id : Nat
  ts : ℚ
  deriving DecidableEq, Repr

structure Engine (E : Type) where
  store : Tables := {}
  /-- alarm id -> open situation id -/
  sit_of : Aid → Option Sid := fun _ => none
  /-- open situation id -> members -/
  members : Sid → Option (List Member) := fun _ => none
  /-- pairs of a bag and an open situation that an operator rejected -/
  rejected_proposals : Finset (Sid × Sid) := ∅
  grouper : Grouper E

/-- What the engine may execute of a placement. The confidence of a proposal is left out. -/
structure Route where
  sid : Option Sid
  merges : List Sid := []
  propose : Option Sid := none
  deriving DecidableEq, Repr

/-- `Route.act` -/
def Route.act (r : Route) : Act := if r.propose.isNone then .correlate else .propose

/-- `self.sit_of[member.alarm_id] = sid` for each member -/
def pointAt (sit_of : Aid → Option Sid) (ms : List Member) (sid : Sid) : Aid → Option Sid :=
  fun a => if ms.any (·.alarm_id = a) then some sid else sit_of a

/-- `self.sit_of.pop(member.alarm_id, None)` for each member -/
def unpoint (sit_of : Aid → Option Sid) (ms : List Member) : Aid → Option Sid :=
  fun a => if ms.any (·.alarm_id = a) then none else sit_of a

namespace Engine
variable {E : Type} (e : Engine E)

/-- `sid in self.members` -/
def tracks (sid : Sid) : Bool := (e.members sid).isSome

/-- `states.get(i, ("new", None))[0]`, of `lifecycle_states` -/
def status (i : Sid) : Status := (e.store.status i).getD .new

/-- `states.get(i, ("new", None))[1]` -/
def target_of (i : Sid) : Option Sid := (e.store.situation i).bind (·.proposed_into)

/-- `pending_for` -/
def pending_for (target : Sid) : Option Sid :=
  (List.range e.store.next).find? fun i =>
    (e.store.situation i).any fun r => r.proposed_into = some target && r.status = .pending

/-- A bag that may fold into what proposes to join the target. -/
def foldable (target : Option Sid) (i : Sid) : Bool :=
  e.status i = .new && !target.any (fun t => (i, t) ∈ e.rejected_proposals) ||
    e.status i = .pending && e.target_of i = target

/-- The confirmed situation that a placement involves: the one to join, or the first of the others
that was not refused it. -/
def confirmed (sid : Option Sid) (merges : List Sid) : Option Sid :=
  match sid.filter fun s => e.status s = .opened with
  | some s => some s
  | none => merges.find? fun m =>
      e.status m = .opened && !sid.any (fun s => (s, m) ∈ e.rejected_proposals)

/-- `proposals.route` -/
def route {F : Type} (placement : Placement F) (own : Option Sid) : Route :=
  let sid := placement.join.filter e.tracks
  let merges := placement.merge.filter fun m => sid ≠ some m && e.tracks m
  match sid.filter fun s => e.status s = .pending with
  | some s => ⟨s, merges.filter (e.foldable (e.target_of s)), none⟩
  | none =>
    match e.confirmed sid merges with
    | none => ⟨sid, merges.filter fun m => e.status m = .new, none⟩
    | some target =>
      if own = some target then ⟨some target, [], none⟩
      else
        let pending := e.pending_for target
        ⟨pending, (sid.toList ++ merges).filter fun i =>
          i ≠ target && some i ≠ pending && e.foldable (some target) i, some target⟩

/-- A new situation, with no member yet. -/
def create (ts : ℚ) (act : Act) : Engine E × Sid :=
  match e.store.create_situation ts act with
  | some (store, sid) =>
    ({ e with store := store, members := Function.update e.members sid (some []) }, sid)
  | none => (e, e.store.next)

/-- A merge, in the store and in memory. -/
def mergeInto (ts : ℚ) (sid other : Sid) : Engine E :=
  let moved := (e.members other).getD []
  let members := Function.update e.members other none
  { e with
    store := e.store.merge_situations sid other ts
    sit_of := pointAt e.sit_of moved sid
    members := Function.update members sid ((members sid).map (· ++ moved)) }

/-- The alarm joins the situation, unless it is in it. -/
def joinMember (sid : Sid) (entry : Member) : Engine E :=
  if e.sit_of entry.alarm_id = some sid then e
  else { e with
    store := (e.store.insert_member sid entry.alarm_id).1
    sit_of := Function.update e.sit_of entry.alarm_id (some sid)
    members := Function.update e.members sid ((e.members sid).map (· ++ [entry])) }

/-- Where the routed alarm goes: a situation that is tracked, or a new one. -/
def settle (routed : Route) (ts : ℚ) : Engine E × Sid :=
  match routed.sid.filter e.tracks with
  | some sid => (e, sid)
  | none => e.create ts routed.act

/-- `_assign_situation`, up to the links it writes and the root it names. -/
def assign [Zero E] [Add E] (entry : Member) (placement : Placement E) (scored : List (Scored E)) :
    Engine E :=
  let routed := e.route placement (e.sit_of entry.alarm_id)
  let (e₁, sid) := e.settle routed entry.ts
  let e₂ := match routed.propose with
    | some target => { e₁ with store := e₁.store.set_proposal sid target }
    | none => e₁
  let executed := routed.merges.filter fun m => m ≠ sid && e₂.tracks m
  let e₃ := executed.foldl (fun e m => e.mergeInto entry.ts sid m) e₂
  let e₄ := e₃.joinMember sid entry
  { e₄ with
    grouper := e₄.grouper.commit sid executed scored e₄.sit_of
    store := e₄.store.touch_situation sid entry.ts }

/-- `forget_situation` -/
def forget (sid : Sid) : Engine E :=
  { e with
    sit_of := unpoint e.sit_of ((e.members sid).getD [])
    members := Function.update e.members sid none
    grouper := e.grouper.forget sid }

/-- `_close_situation` -/
def close (sid : Sid) (ts : ℚ) : Engine E :=
  let e₁ := e.forget sid
  { e₁ with store := e₁.store.close_situation sid ts }

/-- `membership.moved` -/
def moved (alarm_id : Aid) (source target : Sid) : Engine E :=
  match ((e.members source).getD []).find? (·.alarm_id = alarm_id) with
  | none => { e with sit_of := Function.update e.sit_of alarm_id none }
  | some member =>
    let members := Function.update e.members source ((e.members source).map (·.erase member))
    match members target with
    | some l => { e with
        members := Function.update members target (some (l ++ [member]))
        sit_of := Function.update e.sit_of alarm_id (some target) }
    | none => { e with members := members, sit_of := Function.update e.sit_of alarm_id none }

/-- `membership.merged` -/
def merged (dst src : Sid) : Engine E :=
  let ms := (e.members src).getD []
  let members := Function.update e.members src none
  { e with
    sit_of := pointAt e.sit_of ms dst
    members := if ms = [] then members
      else Function.update members dst (some ((members dst).getD [] ++ ms)) }

/-- `membership.split` -/
def split (sid new : Sid) (departing : List Aid) : Engine E :=
  let ms := (e.members sid).getD []
  let leaving := ms.filter fun m => departing.contains m.alarm_id
  let members := Function.update e.members sid
    ((e.members sid).map fun _ => ms.filter fun m => !departing.contains m.alarm_id)
  { e with
    sit_of := pointAt e.sit_of leaving new
    members := Function.update members new (some leaving) }

/-- `_file_surfaced`, of an alarm that `surface_ledger_entry` made active. -/
def file_surfaced (member : Member) (situation : Option Sid) : Engine E × Sid :=
  let (e₁, sid) := match situation with
    | some sid => (e, sid)
    | none => e.create member.ts .surface
  ({ e₁ with
    store := e₁.store.add_alarm_to_situation sid member.alarm_id
    sit_of := Function.update e₁.sit_of member.alarm_id (some sid)
    members := Function.update e₁.members sid (some ((e₁.members sid).getD [] ++ [member])) }, sid)

/-- `_surface_entries`: the alarms that a window's ledger surfaced go into one situation. -/
def surface (surfaced : List Member) : Engine E :=
  (surfaced.foldl (fun p m => let (e, sid) := p.1.file_surfaced m p.2; (e, some sid))
    (e, (none : Option Sid))).1

/-- `sole_active_member` -/
def sole_active_member (sid : Sid) (aid : Aid) : Bool :=
  !(e.store.alarmsOf sid).any (fun a => a ≠ aid && (e.store.alarm a).any (·.active)) &&
    (e.store.alarmsOf sid).contains aid

/-- `occurrence.rearm`, of an alarm that is not flapping; `silent` is that its last trap is further
back than the re-arm window. -/
def rearm (aid : Aid) (ts : ℚ) (silent : Bool) : Engine E × Bool :=
  match e.sit_of aid with
  | none => (e, true)
  | some sid =>
    if silent && e.sole_active_member sid aid && (e.store.status sid).any (·.live) then
      ({ e with store := e.store.resolve_situation sid .idle ts }.forget sid, true)
    else (e, false)

/-- `open_situation_members`: the members of every live situation, in order. -/
def liveMembers (t : Tables) (sid : Sid) : Option (List Member) :=
  if sid < t.next && (t.status sid).any (·.live) then
    match (t.alarmsOf sid).mergeSort.filterMap fun a =>
        (t.alarm a).map fun r => (⟨a, r.class_id, r.ne_id, r.first_seen⟩ : Member) with
    | [] => none
    | ms => some ms
  else none

/-- `membership.reload`: the two maps as the store has them. A later row wins. -/
def reload : Engine E :=
  let rows := (List.range e.store.next).filter fun sid => (liveMembers e.store sid).isSome
  { e with
    members := liveMembers e.store
    sit_of := fun a => (rows.filter fun sid =>
      ((liveMembers e.store sid).getD []).any (·.alarm_id = a)).getLast?
    grouper := e.grouper.prune fun sid => (liveMembers e.store sid).isSome }

end Engine
end NetCoreNoc.Operate
