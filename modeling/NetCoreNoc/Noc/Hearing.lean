import Mathlib
import NetCoreNoc.Tables
import NetCoreNoc.Noc.Cases

/-! A case hears its alarms: what it is told of them and when (`engine/noc/hearing.py`), what a look reads and
what it writes down (`store/noc_hearing.py`), and the part of a pass that looks (`engine/noc/case_loop.py`). -/
namespace NetCoreNoc.Noc.Hearing
open Tables

def MAX_NAMED : ℕ := 6
def QUIET_S : ℚ := 300

/-- An alarm of a case, as a look reads it. -/
structure Alarm where
  case_status : Status
  alarm_id : ℕ
  active : Bool
  raised : ℕ
  flapping : Bool
  what : String
  element : String
  port : String
  elsewhere : Option ℕ
  since : Bool := false
  deriving DecidableEq

/-- What a case heard of an alarm: active or not, how many times raised, when it was told. -/
abbrev Heard := Bool × ℕ × Option ℚ

structure News where
  joined : List Alarm := []
  raised : List Alarm := []
  cleared : List Alarm := []
  moved : List (ℕ × Heard) := []
  deriving DecidableEq

namespace News

/-- The fault grew or came back. -/
def worse (n : News) : Bool := !n.joined.isEmpty || !n.raised.isEmpty

/-- `__bool__` -/
def speaks (n : News) : Bool := !n.joined.isEmpty || !n.raised.isEmpty || !n.cleared.isEmpty

instance : Append News where
  append m n := ⟨m.joined ++ n.joined, m.raised ++ n.raised, m.cleared ++ n.cleared, m.moved ++ n.moved⟩

end News

/-- One turn of the loop of `_news`. -/
def turn (pending : Bool) (at_ : ℚ) (before : Option Heard) (alarm : Alarm) : News :=
  match before with
  | none =>
    { joined := if alarm.active then [alarm] else []
      moved := [(alarm.alarm_id, alarm.active, alarm.raised, if alarm.active then some at_ else none)] }
  | some (was, heard, told) =>
    let back := !was && decide (heard < alarm.raised)
    if was = alarm.active ∧ heard = alarm.raised then {}
    -- Just told: its changes add up until the quiet ends.
    else if told.any (at_ - · < QUIET_S) && !(back && pending) then {}
    else if back then
      { raised := [{ alarm with since := !alarm.active }]
        moved := [(alarm.alarm_id, alarm.active, alarm.raised, some at_)] }
    else if was && !alarm.active then
      { cleared := [alarm], moved := [(alarm.alarm_id, alarm.active, alarm.raised, some at_)] }
    else { moved := [(alarm.alarm_id, alarm.active, alarm.raised, told)] }

/-- `_news` -/
def news (heard : Table ℕ Heard) (alarms : List Alarm) (at_ : ℚ) : News :=
  if heard.entries.isEmpty then { moved := alarms.map fun a => (a.alarm_id, a.active, a.raised, none) }
  else
    let pending := alarms.head?.any (·.case_status.pends)
    alarms.foldr (fun alarm found => turn pending at_ (heard.get alarm.alarm_id) alarm ++ found) {}

/-- Each case with something to write down. -/
def plan (states : List (ℕ × List Alarm)) (heard : ℕ → Table ℕ Heard) (at_ : ℚ) : List (ℕ × News) :=
  states.filterMap fun c =>
    let found := news (heard c.1) c.2 at_
    (if found.moved.isEmpty then none else some found).map (Prod.mk c.1)

/-- `_named` -/
def named (alarm : Alarm) : String :=
  let place := if alarm.port.isEmpty then "" else " (" ++ alarm.port ++ ")"
  let said := (if alarm.flapping then ["flapping"] else []) ++ (if alarm.since then ["cleared since"] else []) ++
    (alarm.elsewhere.toList.filter (· ≠ 0)).map fun sid => s!"now in situation #{sid}"
  alarm.what ++ " on " ++ alarm.element ++ place ++
    if said.isEmpty then "" else " [" ++ ", ".intercalate said ++ "]"

/-- One line for the feed. -/
def sentence (found : News) : String :=
  let part (word : String) (rows : List Alarm) : List String :=
    if rows.isEmpty then []
    else
      let more := rows.length - MAX_NAMED
      [word ++ ": " ++ ", ".intercalate ((rows.take MAX_NAMED).map named) ++
        if 0 < more then s!" and {more} more" else ""]
  "Its alarms on the Broker — " ++
    "; ".intercalate (part "joined" found.joined ++ part "raised again" found.raised ++
      part "cleared" found.cleared) ++ "."

/-! The store -/

/-- An alarm of the Broker, with what names it. -/
structure Fault where
  active : Bool
  count : ℕ
  is_flapping : Bool
  what : String
  element : String
  port : String

structure Broker where
  /-- `noc_case` -/
  cases : Table ℕ Status
  /-- `situation_alarm` -/
  holds : List (ℕ × ℕ)
  nodup : holds.Nodup
  /-- The situations that are resolved. -/
  resolved : ℕ → Bool
  alarm : ℕ → Fault

/-- `_DEAF` -/
def deaf : Status → Bool
  | .new | .auto | .resolved | .closed => true
  | _ => false

/-- The newest live situation that holds an alarm besides the case's own. -/
def elsewhere (b : Broker) (sid aid : ℕ) : Option ℕ :=
  ((b.holds.filter fun h => h.2 = aid ∧ sid < h.1 ∧ b.resolved h.1 = false).map Prod.fst).max?

def alarm_row (b : Broker) (c : ℕ × Status) (aid : ℕ) : Alarm where
  case_status := c.2
  alarm_id := aid
  active := (b.alarm aid).active
  raised := (b.alarm aid).count
  flapping := (b.alarm aid).is_flapping
  what := (b.alarm aid).what
  element := (b.alarm aid).element
  port := (b.alarm aid).port
  elsewhere := elsewhere b c.1 aid

def LIMIT : ℕ := 500

/-- The cases that are listened for: those past dispatch, in the order of their numbers, so many of them. -/
def listeners (b : Broker) (limit : ℕ) : List (ℕ × Status) :=
  ((b.cases.entries.filter fun c => !deaf c.2).insertionSort fun c d => c.1 ≤ d.1).take limit

def alarms_of (b : Broker) (c : ℕ × Status) : List Alarm :=
  (((b.holds.filter (·.1 = c.1)).map Prod.snd).insertionSort (· ≤ ·)).map (alarm_row b c)

def noc_case_alarm_states (b : Broker) (limit : ℕ) : List (ℕ × List Alarm) :=
  ((listeners b limit).map fun c => (c.1, alarms_of b c)).filter fun c => !c.2.isEmpty

def noc_case_hear (rows : Table ℕ Heard) (moved : List (ℕ × Heard)) : Table ℕ Heard :=
  rows.merge (false, 0, none) (fun heard _ => heard) moved

/-! The pass -/

/-- An event on the feed of a case; its text is the sentence of its news. -/
structure Event where
  sid : ℕ
  news : News
  now : ℚ

def Event.text (e : Event) : String := sentence e.news

/-- What a look has read, before the lock. -/
structure Reading where
  states : List (ℕ × List Alarm)
  heard : ℕ → Table ℕ Heard
  at_ : ℚ

structure System where
  broker : Broker
  heard : ℕ → Table ℕ Heard
  feed : List Event
  reading : Option Reading

inductive Outcome where
  | requeued
  | told
  deriving DecidableEq

namespace System

def hear (s : System) (sid : ℕ) (moved : List (ℕ × Heard)) : System :=
  { s with heard := Function.update s.heard sid (noc_case_hear (s.heard sid) moved) }

def event (s : System) (sid : ℕ) (found : News) (now : ℚ) : System := { s with feed := s.feed ++ [⟨sid, found, now⟩] }

/-- Back in the NOC queue. -/
def requeue (s : System) (sid : ℕ) : System :=
  { s with broker := { s.broker with cases := s.broker.cases.upsert sid .queue fun _ => .queue } }

def apply (s : System) (sid : ℕ) (found : News) (now : ℚ) : System × Option Outcome :=
  match s.broker.cases.get sid with
  | none => (s, none)
  | some status =>
    if deaf status then (s, none)
    else
      let s := s.hear sid found.moved
      if !found.speaks then (s, none)
      else
        let s := s.event sid found now
        if found.worse && status.pends then (s.requeue sid, some .requeued) else (s, some .told)

/-- Every case is told its news. -/
def tell (s : System) (found : List (ℕ × News)) (now : ℚ) : System :=
  found.foldl (fun s c => (s.apply c.1 c.2 now).1) s

inductive Act where
  /-- Whatever else becomes of the alarms, the situations and the cases. -/
  | change (broker : Broker)
  | read (at_ : ℚ)
  | write (now : ℚ)

/-- A pass reads on a reader, and writes what it read under the lock. -/
def step (s : System) : Act → System
  | .change broker => { s with broker := broker }
  | .read at_ => { s with reading := some ⟨noc_case_alarm_states s.broker LIMIT, s.heard, at_⟩ }
  | .write now =>
    match s.reading with
    | none => s
    | some r => { s.tell (plan r.states r.heard r.at_) now with reading := none }

/-- Before the first look. -/
def fresh (broker : Broker) : System := ⟨broker, fun _ => .empty, [], none⟩

def run (s : System) (acts : List Act) : System := acts.foldl step s

end System

/-! One alarm -/

/-- What a case may be told of an alarm. -/
inductive Word where
  | joined
  | raised (since : Bool)
  | cleared
  deriving DecidableEq

/-- A look, as it finds one alarm of one case. -/
structure Look where
  at_ : ℚ
  baseline : Bool
  pending : Bool
  active : Bool
  count : ℕ
  deriving DecidableEq

/-- What the news says of an alarm. -/
def News.words (n : News) (aid : ℕ) : List Word :=
  ((n.joined.filter (·.alarm_id = aid)).map fun _ => .joined) ++
    ((n.raised.filter (·.alarm_id = aid)).map fun a => .raised a.since) ++
      (n.cleared.filter (·.alarm_id = aid)).map fun _ => .cleared

section Words
variable {m n : News} {aid : ℕ}

end Words

section Turn
variable (pending : Bool) (at_ : ℚ) (before : Option Heard) (a : Alarm)

end Turn

section News
variable (pending : Bool) (at_ : ℚ) (heard : Table ℕ Heard) {alarms : List Alarm}

/-- The turns of the loop. -/
private abbrev turns (alarms : List Alarm) : News :=
  alarms.foldr (fun alarm found => turn pending at_ (heard.get alarm.alarm_id) alarm ++ found) {}

end News

end NetCoreNoc.Noc.Hearing
