import Mathlib

/-! Which situation an arriving alarm belongs to (`engine/correlate/grouping.py`): the placement, and
the evidence that two situations hold about one another. -/
namespace NetCoreNoc.Correlate

/-- A dictionary over situations. -/
abbrev Dict (β : Type) := AList fun _ : Nat => β

/-- One evaluated pair as grouping sees it. -/
structure Scored (E : Type) where
  alarm_id : Nat
  evidence : E
  linked : Bool
  deriving DecidableEq, Repr

inductive Mode where
  | components | cluster
  deriving DecidableEq, Repr

structure GroupingParams (E : Type) where
  join_bias : E
  merge_bias : E
  merge_min_pairs : Nat

/-- What a placement was decided on: the evidence about one situation. -/
structure Support (E : Type) where
  sid : Nat
  sum : E
  pairs : Nat

structure Placement (E : Type) where
  join : Option Nat
  merge : List Nat
  support : List (Support E) := []

/-- The evidence kept: from one situation to another, to a list `[sum of evidence, pairs]` that both
directions share. The lists live in `cells`, under references drawn from `next`. -/
structure Cross (E : Type) where
  rows : Dict (Dict Nat) := ∅
  cells : Nat → E × Nat
  next : Nat := 0

def Cross.empty {E : Type} [Zero E] : Cross E := { cells := fun _ => (0, 0) }

structure Grouper (E : Type) where
  mode : Mode
  params : GroupingParams E
  cross : Cross E

section Placement
variable {E : Type} [Zero E] [Add E] [Div E] [NatCast E] [BEq E] [LT E] [DecidableLT E]

def Support.mean (s : Support E) : E := s.sum / (s.pairs : E)

/-- `acc[0] += evidence; acc[1] += 1.0`, on the entry of a situation or a new one -/
def addSupport (sid : Nat) (evidence : E) : List (Support E) → List (Support E)
  | [] => [⟨sid, 0 + evidence, 1⟩]
  | s :: ss =>
    if s.sid = sid then ⟨sid, s.sum + evidence, s.pairs + 1⟩ :: ss else s :: addSupport sid evidence ss

def supportOf (scored : List (Scored E)) (sit_of : Nat → Option Nat) : List (Support E) :=
  scored.foldl (fun acc p => match sit_of p.alarm_id with
    | none => acc
    | some sid => addSupport sid p.evidence acc) []

/-- `(-row[1], -row[2], row[0])`, compared as tuples are -/
def Support.before (a b : Support E) : Bool :=
  if a.mean == b.mean then
    if a.pairs = b.pairs then a.sid < b.sid else b.pairs < a.pairs
  else b.mean < a.mean

def ranked (scored : List (Scored E)) (sit_of : Nat → Option Nat) : List (Support E) :=
  (supportOf scored sit_of).mergeSort fun a b => !b.before a

/-- What one situation holds about another. -/
def Cross.held (c : Cross E) (a b : Nat) : E × Nat :=
  (((c.rows.lookup a).bind (·.lookup b)).map c.cells).getD (0, 0)

/-- `_components` -/
def components (scored : List (Scored E)) (sit_of : Nat → Option Nat) (own : Option Nat) : Placement E :=
  let sids := ((scored.filter (·.linked)).filterMap (sit_of ·.alarm_id) ++ own.toList).dedup
  match sids.mergeSort (· ≤ ·) with
  | [] => ⟨none, [], []⟩
  | join :: rest => ⟨some join, rest, []⟩

/-- The evidence about a situation, with what the joined one already holds about it, merges them. -/
def Grouper.merges (g : Grouper E) (join : Nat) (s : Support E) : Bool :=
  let held := g.cross.held join s.sid
  let total := held.1 + s.sum
  let pairs := held.2 + s.pairs
  s.sid ≠ join && (g.params.merge_min_pairs ≤ pairs && g.params.merge_bias < total / (pairs : E))

/-- The situation to join: the alarm's own, or the best if its mean clears the bias. -/
def Grouper.join (g : Grouper E) (ranks : List (Support E)) : Option Nat → Option Nat
  | some own => some own
  | none => match ranks with
    | best :: _ => if g.params.join_bias < best.mean then some best.sid else none
    | [] => none

def Grouper.place (g : Grouper E) (scored : List (Scored E)) (sit_of : Nat → Option Nat)
    (own : Option Nat) : Placement E :=
  match g.mode with
  | .components => components scored sit_of own
  | .cluster =>
    let ranks := ranked scored sit_of
    match g.join ranks own with
    | none => ⟨none, [], ranks⟩
    | some join =>
      ⟨some join, ((ranks.filter (g.merges join)).map (·.sid)).mergeSort (· ≤ ·), ranks⟩

end Placement

namespace Cross
variable {E : Type} [Zero E] [Add E] (c : Cross E)

/-- `self.cross.get(sid)`, empty where there is none -/
def row (sid : Nat) : Dict Nat := (c.rows.lookup sid).getD ∅

/-- `self.cross.setdefault(sid, {})` -/
def setdefault (sid : Nat) : Cross E := { c with rows := c.rows.insert sid (c.row sid) }

/-- `self.cross.setdefault(sid, {})[other] = acc` -/
def put (sid other acc : Nat) : Cross E :=
  { c with rows := c.rows.insert sid ((c.row sid).insert other acc) }

/-- `back = self.cross.get(sid)`, and `back.pop(other, None)` where there is one -/
def pop (sid other : Nat) : Cross E :=
  { c with rows := if sid ∈ c.rows then c.rows.insert sid ((c.row sid).erase other) else c.rows }

/-- `self.cross.pop(sid, {})` -/
def popRow (sid : Nat) : Cross E := { c with rows := c.rows.erase sid }

/-- `acc[0] += …; acc[1] += …` -/
def add (acc : Nat) (v : E × Nat) : Cross E :=
  { c with cells := Function.update c.cells acc (c.cells acc + v) }

/-- One turn of `_fold`'s loop: what the source holds about another passes to the destination. -/
def moveCell (dst src other acc : Nat) : Cross E :=
  let c := c.pop other src
  if other = dst then c
  else match (c.row dst).lookup other with
    | none => (c.put dst other acc).put other dst acc
    | some held => c.add held (c.cells acc)

def fold (dst src : Nat) : Cross E :=
  (((c.row src).entries.foldl (fun c e => c.moveCell dst src e.1 e.2)
    ((c.popRow src).setdefault dst))).pop dst src

/-- One turn of `commit`'s loop. -/
def addEvidence (sid other : Nat) (evidence : E) : Cross E :=
  match (c.row sid).lookup other with
  | some acc => (c.add acc (evidence, 1)).put other sid acc
  | none =>
    let c₁ := { c with cells := Function.update c.cells c.next (0, 0), next := c.next + 1 }
    ((c₁.put sid other c.next).add c.next (evidence, 1)).put other sid c.next

def forget (sid : Nat) : Cross E :=
  (c.row sid).keys.foldl (fun c other => c.pop other sid) (c.popRow sid)

def prune (live : Nat → Bool) : Cross E :=
  (c.rows.keys.filter fun s => !live s).foldl (fun c sid => c.forget sid) c

end Cross

/-- The pairs of an activation that say something across: between its situation and another. -/
def across {E : Type} (sid : Nat) (scored : List (Scored E)) (sit_of : Nat → Option Nat) :
    List (Nat × E) :=
  scored.filterMap fun p => match sit_of p.alarm_id with
    | some other => if other = sid then none else some (other, p.evidence)
    | none => none

namespace Grouper
variable {E : Type} [Zero E] [Add E] (g : Grouper E)

/-- `commit`: the situations merged into `sid` fold, then this activation's evidence is added. -/
def commit (sid : Nat) (merge : List Nat) (scored : List (Scored E)) (sit_of : Nat → Option Nat) :
    Grouper E :=
  match g.mode with
  | .components => g
  | .cluster =>
    let folded := (merge.foldl (fun c gone => c.fold sid gone) g.cross).setdefault sid
    let cross := (across sid scored sit_of).foldl (fun c p => c.addEvidence sid p.1 p.2) folded
    { g with cross := cross }

def merged (dst src : Nat) : Grouper E := { g with cross := g.cross.fold dst src }
def forget (sid : Nat) : Grouper E := { g with cross := g.cross.forget sid }
def prune (live : Nat → Bool) : Grouper E := { g with cross := g.cross.prune live }

end Grouper
end NetCoreNoc.Correlate
