import Mathlib
import NetCoreNoc.Noc.Hearing

/-! What a case is told of an alarm over a run of looks, and which of the looks reach the alarm. -/
namespace NetCoreNoc.Noc.Hearing
open Tables

def Event.words (e : Event) (sid aid : ℕ) : List Word := if e.sid = sid then e.news.words aid else []

/-- What the events of a feed say of an alarm to a case. -/
def words (feed : List Event) (sid aid : ℕ) : List Word := feed.flatMap (·.words sid aid)

/-- A look at an alarm, and what it told the case of it. -/
abbrev Entry := Look × List Word

namespace System

/-- The case is one that listens. -/
def listens (s : System) (sid : ℕ) : Bool := (s.broker.cases.get sid).any fun status => !deaf status

/-- The look at an alarm that is written down next, if there is one and the case still listens. -/
def reached (s : System) (sid aid : ℕ) : Option Look := do
  let r ← s.reading
  let alarms ← r.states.lookup sid
  let alarm ← alarms.find? (·.alarm_id = aid)
  if s.listens sid then
    some ⟨r.at_, (r.heard sid).entries.isEmpty, alarm.case_status.pends, alarm.active, alarm.raised⟩
  else none

def entry (s : System) (act : Act) (sid aid : ℕ) : List Entry :=
  match act with
  | .write _ => (s.reached sid aid).toList.map fun o => (o, words ((s.step act).feed.drop s.feed.length) sid aid)
  | _ => []

/-- The looks of a run that reach an alarm of a case, with what each told. -/
def log (s : System) : List Act → ℕ → ℕ → List Entry
  | [], _, _ => []
  | act :: acts, sid, aid => s.entry act sid aid ++ (s.step act).log acts sid aid

end System

/-! The look of a run -/

section Store

end Store

section Tell
variable (now : ℚ)

end Tell

section Step
variable {s : System}

/-- A look that is not written down yet knows what the cases have heard. -/
def Sound (s : System) : Prop :=
  ∀ r, s.reading = some r → r.heard = s.heard ∧ ∃ b, r.states = noc_case_alarm_states b LIMIT

end Step

/-! What a case is due -/

/-- The look at which a case was last told of an alarm, or else the one that wrote it down first. -/
def last (log : List Entry) : Option Entry := (log.filter (·.2 ≠ [])).getLast?.or log.head?

/-- The quiet that a word begins is over. -/
def Over (e : Entry) (o : Look) : Prop := e.2 ≠ [] → QUIET_S ≤ o.at_ - e.1.at_

instance Over.decidable (e : Entry) (o : Look) : Decidable (Over e o) :=
  inferInstanceAs (Decidable (e.2 ≠ [] → QUIET_S ≤ o.at_ - e.1.at_))

/-- What a look tells of an alarm: a join at once, the rest when the quiet is over, a return on a pending case at
once. -/
def due (e : Option Entry) (o : Look) : List Word :=
  match e with
  | none => if !o.baseline && o.active then [.joined] else []
  | some e =>
    if e.1.active && !o.active then if Over e o then [.cleared] else []
    else if !e.1.active && decide (e.1.count < o.count) then
      if Over e o ∨ o.pending = true then [.raised !o.active] else []
    else []

/-- An alarm found active that was found cleared before has raised in between. -/
def Raises (o o' : Look) : Prop := o.count ≤ o'.count ∧ (o.active = false → o'.active = true → o.count < o'.count)

/-- How a case has heard of an alarm after a word: active or not. -/
def Word.active : Word → Bool
  | .joined => true
  | .raised since => !since
  | .cleared => false

/-- A word that may be said of an alarm heard active, or cleared. -/
def Word.Fits (active : Bool) : Word → Prop
  | .joined => False
  | .raised _ => active = false
  | .cleared => active = true

/-- A word that may come after another: no alarm joins twice, clears that is cleared or raises that is on. -/
def Follows (v w : Word) : Prop := w.Fits v.active

/-- What is written down of an alarm is what the last word left of it. -/
def Tracks (h : Option Heard) : Option Entry → Prop
  | none => h = none
  | some e => ∃ n, h = some (e.1.active, n, if e.2 = [] then none else some e.1.at_) ∧
      (e.1.active = false → n = e.1.count)

/-- The last look, after one more. -/
def kept (e : Option Entry) (e' : Entry) : Option Entry := if e'.2 = [] then e.or (some e') else some e'

theorem Raises.trans {o o' o'' : Look} (h : Raises o o') (h' : Raises o' o'') : Raises o o'' := by
  refine ⟨h.1.trans h'.1, fun hoff hon => ?_⟩
  cases hmid : o'.active with
  | true => exact (h.2 hoff hmid).trans_le h'.1
  | false => exact h.1.trans_lt (h'.2 hmid hon)

section Run
variable {s : System} {sid aid : ℕ}

end Run

end NetCoreNoc.Noc.Hearing
