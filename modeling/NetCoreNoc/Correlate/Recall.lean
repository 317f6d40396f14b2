import Mathlib
import NetCoreNoc.Correlate.Window
import NetCoreNoc.Correlate.Episodes

/-! The correlator with all that it keeps: the window, the rings that older candidates are recalled
from, and what it answers an arriving alarm (`correlate.py`, `pairs.py`, `retrieval.py`, `features.py`). -/
namespace NetCoreNoc.Correlate.Recall
open Writeback

/-- One activation, with what a pair feature needs. -/
structure Activation extends WindowAlarm where
  entity_id : Nat
  oid_root : String := ""
  /-- the trap OID, split on its dots -/
  arcs : List String := []
  severity_rank : ℤ := -1
  chatter : Nat := 0
  source : String := ""
  refs : Finset String := ∅

instance : WindowEntry Activation := ⟨(·.alarm_id), (·.ts)⟩

/-- `__post_init__` -/
def Activation.post_init (a : Activation) : Activation :=
  if a.entity_id = 0 then { a with entity_id := a.device_id } else a

/-- The reads of the learner. -/
structure Affinities (E : Type) where
  class_affinity : Nat → Nat → E
  entity_affinity : Nat → Nat → Nat → Nat → E

def MAX_DT_S : ℚ := 3600
def MAX_ARCS : Nat := 16
def UNKNOWN_SEVERITY : ℤ := 5

def common_arcs (a b : List String) : Nat := min MAX_ARCS ((a.zip b).takeWhile fun p => p.1 = p.2).length

/-- The pair feature vector. -/
structure Features (E : Type) where
  dt : ℚ
  same_ne : Bool
  same_class : Bool
  oid_arcs : Nat
  class_affinity : E
  entity_affinity : E
  ne_episodes : Nat
  class_episodes : Nat
  item_episodes : Nat
  severity : ℤ
  burst : Nat
  chatter : Nat
  degree : Nat
  cross_ref : Bool
  hour : ℤ

/-- What a scorer may see of one candidate pair. -/
structure LinkFeatures (E : Type) where
  delta_t_s : ℚ
  class_i : Nat
  class_j : Nat
  class_affinity : E
  ne_i : Nat
  ne_j : Nat
  entity_affinity : E
  same_oid_root : Option Bool := none
  vector : Option (Features E) := none

/-- A verdict; its terms are left out. -/
structure LinkScore (E : Type) where
  linked : Bool
  score : E
  threshold : E

/-- A scorer that never misbehaves. A trained model has a logit over the feature vector. -/
structure LinkScorer (E : Type) where
  score : LinkFeatures E → LinkScore E
  threshold : E
  logit : Option (Features E → E) := none

def RING_S : ℚ := 3600
def PER_NE : Nat := 24
def PER_PARENT : Nat := 16
def PER_REF : Nat := 8
def PER_NEIGHBOUR : Nat := 6
def MAX_RECALL : Nat := 64
def CO_WINDOW_S : ℚ := 300
def TOP_PARTNERS : Nat := 6
def MAX_LINKS_PER_ALARM : Nat := 5

def parent_of (arcs : List String) : List String := if 1 < arcs.length then arcs.dropLast else arcs

/-- `ring.append(alarm)`, of a ring that keeps its last `maxlen` entries. -/
def append (maxlen : Nat) (ring : List Activation) (alarm : Activation) : List Activation :=
  (ring ++ [alarm]).drop ((ring ++ [alarm]).length - maxlen)

/-- Rings of recent activations, newest last. -/
structure CandidateIndex where
  by_ne : Entries Nat (List Activation) := .empty
  by_parent : Entries (List String) (List Activation) := .empty
  /-- activations by the addresses that their varbinds name -/
  by_named : Entries String (List Activation) := .empty
  /-- the element behind each management address -/
  ne_of : Entries String Nat := .empty

/-- `ring.append(alarm)`, in the ring of a key or a new one. -/
def push {K : Type} [DecidableEq K] (rings : Entries K (List Activation)) (maxlen : Nat) (alarm : Activation)
    (key : K) : Entries K (List Activation) :=
  rings.set key (append maxlen ((rings.get key).getD []) alarm)

/-- Whether a ring has nothing within the horizon. -/
def stale (now : ℚ) (ring : List Activation) : Bool := match ring.getLast? with
  | none => true
  | some newest => RING_S < now - newest.ts

/-- The inner loop of `recall`, over a ring newest first. -/
def take (new : Activation) (live exclude : Nat → Bool) (budget : Nat) :
    List Activation → Nat → List Activation → List Activation
  | [], _, out => out
  | alarm :: rest, taken, out =>
    if RING_S < new.ts - alarm.ts || budget ≤ taken || MAX_RECALL ≤ out.length then out
    else if alarm.alarm_id = new.alarm_id || out.any (·.alarm_id = alarm.alarm_id) ||
        exclude alarm.alarm_id || !live alarm.alarm_id then take new live exclude budget rest taken out
    else take new live exclude budget rest (taken + 1) (out ++ [alarm])

namespace CandidateIndex
variable (i : CandidateIndex)

def add (alarm : Activation) : CandidateIndex where
  by_ne := push i.by_ne PER_NE alarm alarm.device_id
  by_parent := push i.by_parent PER_PARENT alarm (parent_of alarm.arcs)
  by_named := (ordered alarm.refs).foldl (fun rings ref => push rings PER_REF alarm ref) i.by_named
  ne_of := if alarm.source = "" then i.ne_of else i.ne_of.set alarm.source alarm.device_id

/-- The alarms that a ring of these may propose. -/
def members {K : Type} [DecidableEq K] (rings : Entries K (List Activation)) : Finset Nat :=
  rings.keys.biUnion fun k => (((rings.get k).getD []).map (·.alarm_id)).toFinset

/-- The alarms of `rings()` -/
def proposable : Finset Nat := members i.by_ne ∪ members i.by_parent ∪ members i.by_named

/-- The rings that an arriving alarm is given candidates from, each with its budget. -/
def rings (new : Activation) (neighbours : List Nat) : List (Option (List Activation) × Nat) :=
  [(i.by_ne.get new.device_id, PER_NE), (i.by_parent.get (parent_of new.arcs), PER_PARENT),
    (if new.source = "" then none else i.by_named.get new.source, PER_REF)] ++
  (ordered new.refs).map (fun ref => ((i.ne_of.get ref).bind fun ne =>
    if ne = new.device_id then none else i.by_ne.get ne, PER_REF)) ++
  neighbours.map fun ne => (i.by_ne.get ne, PER_NEIGHBOUR)

/-- `(a.ts, a.alarm_id)`, compared as tuples are -/
def earlier (a b : Activation) : Bool := a.ts < b.ts || a.ts = b.ts && a.alarm_id ≤ b.alarm_id

/-- `recall` -/
def recalls (new : Activation) (live : Nat → Bool) (neighbours : List Nat) (exclude : Nat → Bool) :
    List Activation :=
  ((i.rings new neighbours).foldl (fun out r => match r.1 with
    | none => out
    | some ring => take new live exclude r.2 ring.reverse 0 out) []).mergeSort earlier

def prune (now : ℚ) : CandidateIndex where
  by_ne := i.by_ne.filter fun _ ring => !stale now ring
  by_parent := i.by_parent.filter fun _ ring => !stale now ring
  by_named := i.by_named.filter fun _ ring => !stale now ring
  ne_of := i.ne_of.filter fun _ ne => ((i.by_ne.filter fun _ ring => !stale now ring).get ne).isSome

end CandidateIndex

/-- The elements that an element has failed with. -/
def partners_of (e : PartneredMemory) (ne : Nat) : Finset Nat := (e.partners.keys.filter (·.1 = ne)).image (·.2)

def degree (e : PartneredMemory) (ne : Nat) : Nat := (partners_of e ne).card

/-- The partners on the most separate occasions, if two at least. -/
def neighbours (e : PartneredMemory) (ne : Nat) : List Nat :=
  (((ordered (partners_of e ne)).mergeSort fun x y => e.together ne y ≤ e.together ne x).take TOP_PARTNERS).filter
    fun partner => 2 ≤ e.together ne partner

/-- `features.vector`: the features of one candidate pair. -/
def vector {E : Type} (new old : Activation) (learner : Affinities E) (episodes : PartneredMemory) (burst : Nat) :
    Features E where
  dt := min MAX_DT_S |new.ts - old.ts|
  same_ne := new.device_id = old.device_id
  same_class := new.class_id = old.class_id
  oid_arcs := common_arcs new.arcs old.arcs
  class_affinity := learner.class_affinity new.class_id old.class_id
  entity_affinity := learner.entity_affinity new.entity_id new.device_id old.entity_id old.device_id
  ne_episodes := episodes.ne_prior new.device_id old.device_id new.ts
  class_episodes := episodes.cls_prior new.class_id old.class_id new.ts
  item_episodes := episodes.item_prior (new.device_id, new.class_id) (old.device_id, old.class_id) new.ts
  severity := if min new.severity_rank old.severity_rank < 0 then UNKNOWN_SEVERITY
    else max new.severity_rank old.severity_rank
  burst := burst
  chatter := max new.chatter old.chatter
  degree := max (degree episodes new.device_id) (degree episodes old.device_id)
  cross_ref := (new.source ∈ old.refs || old.source ∈ new.refs) && new.source ≠ ""
  hour := ⌊new.ts / 3600⌋ % 24

/-- `Correlator.features`: the scorer's input for one candidate pair. -/
def features {E : Type} (new old : Activation) (learner : Affinities E) (vector : Option (Features E)) :
    LinkFeatures E where
  delta_t_s := |new.ts - old.ts|
  class_i := new.class_id
  class_j := old.class_id
  class_affinity := match vector with
    | some v => v.class_affinity
    | none => learner.class_affinity new.class_id old.class_id
  ne_i := new.device_id
  ne_j := old.device_id
  entity_affinity := match vector with
    | some v => v.entity_affinity
    | none => learner.entity_affinity new.entity_id new.device_id old.entity_id old.device_id
  same_oid_root := if new.oid_root ≠ "" ∧ old.oid_root ≠ "" then some (new.oid_root = old.oid_root) else none
  vector := vector

/-- A candidate pair and the verdict that it received. -/
structure EvaluatedPair (E : Type) where
  other : Activation
  result : Option (LinkScore E)
  vector : Option (Features E) := none
  margin : E
  accepted : Bool := false

namespace EvaluatedPair
variable {E : Type} [Sub E] (p : EvaluatedPair E)

def evidence : E := match p.result with
  | some result => result.score - result.threshold
  | none => p.margin

omit [Sub E] in
def linked : Bool := match p.result with
  | some result => result.linked
  | none => p.accepted

def scored : Scored E := ⟨p.other.alarm_id, p.evidence, p.linked⟩

end EvaluatedPair

/-- What the correlator answers. -/
structure CorrelationResult (E : Type) where
  links : List (Activation × LinkScore E)
  considered : List Activation
  storm : Bool
  evaluated : List (EvaluatedPair E)
  placement : Placement E
  recalled : Nat

structure Correlator (E : Type) extends Correlate.Correlator Activation where
  scorer : LinkScorer E
  /-- `recall` -/
  retrieval : CandidateIndex := {}
  episodes : PartneredMemory := {}
  grouper : Grouper E

namespace Correlator
variable {E : Type} (c : Correlator E)

def two_stage : Bool := c.scorer.logit.isSome

def evict (now : ℚ) : Correlator E := { c with toCorrelator := c.toCorrelator.evict now }

def remove (alarm_id : Nat) : Correlator E := { c with toCorrelator := c.toCorrelator.remove alarm_id }

def prune (now : ℚ) : Correlator E :=
  let retrieval := c.retrieval.prune now
  { c with
    retrieval := retrieval
    episodes := c.episodes.prune now
    live := c.live ∩ (c.index.keys.toFinset ∪ retrieval.proposable) }

/-- Whether an alarm may be evaluated already: the candidates of the window. -/
def within (window : List Activation) (alarm_id : Nat) : Bool := window.any (·.alarm_id = alarm_id)

/-- The recall of older candidates. -/
def recalls (new : Activation) (exclude : Nat → Bool) : List Activation :=
  c.retrieval.recalls new (· ∈ c.live) (neighbours c.episodes new.device_id) exclude

/-- `process`, up to its candidates: those of the window, and those recalled. -/
def candidates (new : Activation) : List Activation × List Activation :=
  let window := c.recent_live new.ts
  (window, if c.two_stage then c.recalls new (within window) else [])

/-- `CO_WINDOW_S` apart at most, the arriving alarm is observed with each candidate. -/
def observes (new : Activation) (candidates : List Activation) (episodes : PartneredMemory) : PartneredMemory :=
  candidates.foldl (fun e old => if new.ts - old.ts ≤ CO_WINDOW_S then
    e.observe (new.device_id, new.class_id) (old.device_id, old.class_id) new.ts else e) episodes

/-- The alarm enters the window and the memories. -/
def enter (new : Activation) (episodes : PartneredMemory) : Correlator E :=
  { c with
    toCorrelator := c.toCorrelator.enter new
    retrieval := c.retrieval.add new
    episodes := episodes }

section Process
variable [Field E] [LinearOrder E]

/-- The verdict on one candidate pair. -/
def evaluate (new : Activation) (learner : Affinities E) (burst : Nat) (old : Activation) : EvaluatedPair E :=
  match c.scorer.logit with
  | some logit =>
    let vec := vector new old learner c.episodes burst
    ⟨old, none, vec, logit vec - c.scorer.threshold, c.scorer.threshold < logit vec⟩
  | none => ⟨old, c.scorer.score (features new old learner none), none, 0, false⟩

/-- The strongest links, with their full verdicts. -/
def links (new : Activation) (learner : Affinities E) (evaluated : List (EvaluatedPair E)) :
    List (Activation × LinkScore E) :=
  (((evaluated.filter (·.linked)).mergeSort fun p q => q.evidence ≤ p.evidence).take MAX_LINKS_PER_ALARM).map
    fun p => (p.other, p.result.getD (c.scorer.score (features new p.other learner p.vector)))

def process (new : Activation) (learner : Affinities E) (sit_of : Nat → Option Nat) (own : Option Nat)
    (teaches : Bool) : Correlator E × CorrelationResult E :=
  let c := (c.evict new.ts).remove new.alarm_id
  let burst := c.index.keys.length
  let found := c.candidates new
  let evaluated := (found.1 ++ found.2).map (c.evaluate new learner burst)
  let episodes := if teaches then observes new (found.1 ++ found.2) c.episodes else c.episodes
  (c.enter new episodes,
    { links := c.links new learner evaluated
      considered := found.1
      storm := STORM_ALARMS ≤ burst
      evaluated := evaluated
      placement := c.grouper.place (evaluated.map (·.scored)) sit_of own
      recalled := found.2.length })

/-- The window takes an arrival, and offers it candidates, as it does on its own. -/
theorem process_window (new : Activation) (learner : Affinities E) (sit_of : Nat → Option Nat) (own : Option Nat)
    (teaches : Bool) :
    let answer := c.process new learner sit_of own teaches
    let alone := c.toCorrelator.process new
    answer.1.toCorrelator = alone.1 ∧ answer.2.considered = alone.2.considered ∧ answer.2.storm = alone.2.storm :=
  ⟨rfl, rfl, rfl⟩

end Process
end Correlator
end NetCoreNoc.Correlate.Recall
