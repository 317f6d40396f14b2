import Mathlib
import NetCoreNoc.Writeback
import NetCoreNoc.Correlate.Window

/-! What the engine learns from the alarms (`engine/correlate/learn.py`, `engine/correlate/episodes.py`,
`engine/correlate/rootcause.py`). -/
namespace NetCoreNoc.Correlate
open Writeback

def LAMBDA : ℚ := 1 / 20
def EPOCH_S : ℚ := 3600
def STORM_DAMPING : ℚ := 1 / 10
def SPLIT_PENALTY : ℚ := 1 / 2
def EPOCH_PAIR_CAP : Nat := 20

/-- A key of a symmetric matrix, its smaller side first. -/
def Sides : Type := { p : Nat × Nat // p.1 ≤ p.2 }

instance : DecidableEq Sides := inferInstanceAs (DecidableEq { p : Nat × Nat // p.1 ≤ p.2 })

/-- `_pair` -/
def sides (a b : Nat) : Sides := if h : a ≤ b then ⟨(a, b), h⟩ else ⟨(b, a), (not_le.mp h).le⟩

/-- A mass and the epoch that it was written in. -/
abbrev Mass := ℚ × ℤ

/-- A mass, brought to epoch zero. -/
def Mass.settled (m : Mass) : ℚ := m.1 * (1 - LAMBDA) ^ (-m.2)

structure Matrix where
  epoch : ℤ := 0
  total : Mass := (0, 0)
  pairs : Table Sides Mass := {}
  marginals : Entries Nat Mass := .empty

/-- What is stored of a matrix besides its pairs. -/
structure MatrixState where
  epoch : ℤ
  total : Mass
  marginals : Entries Nat Mass

namespace Matrix
variable (m : Matrix)

def decayed (mass : Mass) : ℚ := mass.1 * (1 - LAMBDA) ^ (m.epoch - mass.2)

def tick : Matrix := { m with epoch := m.epoch + 1 }

def advance_to (epoch : ℤ) : Matrix := { m with epoch := max m.epoch epoch }

/-- Every stored epoch is shifted, so that each mass keeps its age. -/
def rebase (epoch : ℤ) : Matrix :=
  let shift := epoch - m.epoch
  if shift = 0 then m
  else { m with
    epoch := m.epoch + shift
    total := (m.total.1, m.total.2 + shift)
    pairs := m.pairs.change fun mass => (mass.1, mass.2 + shift)
    marginals := m.marginals.map fun _ mass => (mass.1, mass.2 + shift) }

def observe_occurrence (item : Nat) : Matrix := { m with
  marginals := m.marginals.set item (m.decayed ((m.marginals.get item).getD (0, m.epoch)) + 1, m.epoch)
  total := (m.decayed m.total + 1, m.epoch) }

def observe_pair (weight : ℚ) (key : Sides) : Matrix := { m with
  pairs := m.pairs.put key (m.decayed ((m.pairs.held.get key).getD (0, m.epoch)) + weight, m.epoch) }

def pair_mass (a b : Nat) : ℚ := m.decayed ((m.pairs.held.get (sides a b)).getD (0, m.epoch))

def scale_pair (factor : ℚ) (key : Sides) : Matrix := match m.pairs.held.get key with
  | some mass => { m with pairs := m.pairs.put key (mass.1 * factor, mass.2) }
  | none => m

/-- The rows of `flush`, without the weights that a load does not read. -/
def rows : Entries Sides Mass := m.pairs.rows fun mass => (m.decayed mass, m.epoch)

def flushed : Matrix := { m with pairs := m.pairs.clean }

def state : MatrixState := ⟨m.epoch, m.total, m.marginals⟩

def load_state (st : MatrixState) (edges : Entries Sides Mass) : Matrix where
  epoch := st.epoch
  total := st.total
  pairs := ⟨edges, ∅⟩
  marginals := st.marginals

theorem settled_decayed (m : Matrix) (mass : Mass) : Mass.settled (m.decayed mass, m.epoch) = mass.settled := by
  show mass.1 * (1 - LAMBDA) ^ (m.epoch - mass.2) * (1 - LAMBDA) ^ (-m.epoch) = mass.1 * (1 - LAMBDA) ^ (-mass.2)
  have hbase : (1 - LAMBDA : ℚ) ≠ 0 := by norm_num [LAMBDA]
  rw [mul_assoc, ← zpow_add₀ hbase]
  congr 2
  ring

/-- A pair's mass is what it is at epoch zero, decayed to the current epoch. -/
theorem pair_mass_eq (m : Matrix) (a b : Nat) : m.pair_mass a b =
    ((m.pairs.held.get (sides a b)).map Mass.settled).getD 0 * (1 - LAMBDA) ^ m.epoch := by
  have hbase : (1 - LAMBDA : ℚ) ≠ 0 := by norm_num [LAMBDA]
  unfold pair_mass
  cases m.pairs.held.get (sides a b) with
  | none => simp [decayed]
  | some mass =>
    show mass.1 * (1 - LAMBDA) ^ (m.epoch - mass.2) = mass.1 * (1 - LAMBDA) ^ (-mass.2) * (1 - LAMBDA) ^ m.epoch
    rw [mul_assoc, ← zpow_add₀ hbase]
    congr 2
    ring

/-- A matrix whose pairs the store has, but for those that changed. -/
def Backed (m : Matrix) (edges : Entries Sides Mass) : Prop := m.pairs.Synced Mass.settled edges

variable {edges : Entries Sides Mass}

theorem Backed.rebase {m : Matrix} (h : m.Backed edges) (epoch : ℤ) : (m.rebase epoch).Backed edges := by
  unfold Matrix.rebase
  dsimp only
  split
  · exact h
  · exact Table.Synced.change h _

theorem Backed.observe_pairs {m : Matrix} (h : m.Backed edges) (weight : ℚ) (keys : List Sides) :
    (keys.foldl (·.observe_pair weight ·) m).Backed edges := by
  induction keys generalizing m with
  | nil => exact h
  | cons key keys ih => exact ih (Table.Synced.put h key _)

theorem Backed.scale_pair {m : Matrix} (h : m.Backed edges) (factor : ℚ) (key : Sides) :
    (m.scale_pair factor key).Backed edges := by
  unfold Matrix.scale_pair
  split
  · exact Table.Synced.put h key _
  · exact h

theorem Backed.scale_pairs {m : Matrix} (h : m.Backed edges) (factor : ℚ) (keys : List Sides) :
    (keys.foldl (·.scale_pair factor ·) m).Backed edges := by
  induction keys generalizing m with
  | nil => exact h
  | cons key keys ih => exact ih (h.scale_pair factor key)

end Matrix

/-- A class and an element. -/
abbrev Place := Nat × Nat

structure Learner where
  A : Matrix := {}
  E : Matrix := {}
  clocked : Bool := false

/-- The pairs of a list, the earlier first. -/
def combinations {α : Type} : List α → List (α × α)
  | [] => []
  | a :: l => l.map (a, ·) ++ combinations l

namespace Learner
variable (l : Learner)

def advance_to (ts : ℚ) : Learner :=
  let epoch := ⌊ts / EPOCH_S⌋
  let hourly (m : Matrix) : Matrix := if !l.clocked && m.epoch < epoch - 24 * 365 * 10 then m.rebase epoch else m
  { A := (hourly l.A).advance_to epoch, E := (hourly l.E).advance_to epoch, clocked := true }

def observe_activation (item : Place) : Learner :=
  { l with A := l.A.observe_occurrence item.1, E := l.E.observe_occurrence item.2 }

/-- Distinct classes and elements, each once; the same element is no pair. -/
def observe_pairs (new : Place) (others : List Place) (storm : Bool) : Learner :=
  let weight := if storm then STORM_DAMPING else 1
  { l with
    A := ((others.map (·.1)).dedup.map (sides new.1)).foldl (·.observe_pair weight ·) l.A
    E := (((others.map (·.2)).filter (· ≠ new.2)).dedup.map (sides new.2)).foldl (·.observe_pair weight ·) l.E }

def learn_epoch (members : List Place) (advance_epoch : Bool) : Learner :=
  let sample := combinations (members.take EPOCH_PAIR_CAP)
  let weight := if STORM_ALARMS ≤ members.length then STORM_DAMPING else 1
  let A := if advance_epoch then l.A.tick else l.A
  let E := if advance_epoch then l.E.tick else l.E
  { l with
    A := (sample.map fun p => sides p.1.1 p.2.1).dedup.foldl (·.observe_pair weight ·) A
    E := ((sample.filter fun p => p.1.2 ≠ p.2.2).map fun p => sides p.1.2 p.2.2).dedup.foldl
      (·.observe_pair weight ·) E }

/-- A split: with marked positions, only the pairs of a marked and an unmarked one. -/
def penalize (members : List Place) (marked : Option (Finset Nat)) : Learner :=
  let sample := combinations (members.take EPOCH_PAIR_CAP).zipIdx
  let asserted := (sample.filter fun p => marked.all fun s => decide (p.1.2 ∈ s) != decide (p.2.2 ∈ s)).map
    fun p => (p.1.1, p.2.1)
  { l with
    A := (asserted.map fun p => sides p.1.1 p.2.1).dedup.foldl (·.scale_pair SPLIT_PENALTY ·) l.A
    E := ((asserted.filter fun p => p.1.2 ≠ p.2.2).map fun p => sides p.1.2 p.2.2).dedup.foldl
      (·.scale_pair SPLIT_PENALTY ·) l.E }

/-- Both matrices are backed by their tables. -/
structure Backed (l : Learner) (edge_class edge_device : Entries Sides Mass) : Prop where
  A : l.A.Backed edge_class
  E : l.E.Backed edge_device

variable {l} {edge_class edge_device : Entries Sides Mass} (h : l.Backed edge_class edge_device)
include h

theorem Backed.advance_to (ts : ℚ) : (l.advance_to ts).Backed edge_class edge_device := by
  have hourly {m : Matrix} {edges : Entries Sides Mass} (hm : m.Backed edges) (c : Bool) (epoch : ℤ) :
      (if c && m.epoch < epoch - 24 * 365 * 10 then m.rebase epoch else m).Backed edges := by
    split
    · exact hm.rebase epoch
    · exact hm
  exact ⟨hourly h.A _ _, hourly h.E _ _⟩

theorem Backed.observe_pairs (new : Place) (others : List Place) (storm : Bool) :
    (l.observe_pairs new others storm).Backed edge_class edge_device :=
  ⟨h.A.observe_pairs _ _, h.E.observe_pairs _ _⟩

theorem Backed.learn_epoch (members : List Place) (advance_epoch : Bool) :
    (l.learn_epoch members advance_epoch).Backed edge_class edge_device := by
  have hA : (if advance_epoch then l.A.tick else l.A).Backed edge_class := by cases advance_epoch <;> exact h.A
  have hE : (if advance_epoch then l.E.tick else l.E).Backed edge_device := by cases advance_epoch <;> exact h.E
  exact ⟨hA.observe_pairs _ _, hE.observe_pairs _ _⟩

theorem Backed.penalize (members : List Place) (marked : Option (Finset Nat)) :
    (l.penalize members marked).Backed edge_class edge_device :=
  ⟨h.A.scale_pairs _ _, h.E.scale_pairs _ _⟩

end Learner

def EPISODE_GAP_S : ℚ := 1800
def MAX_PAIRS : Nat := 200000
def MAX_AGE_S : ℚ := 365 * 86400

/-- The numbers of the two sides, one after the other. -/
abbrev Key := List Nat

def Key.pair (a b : Key) : Key := if a ≤ b then a ++ b else b ++ a

/-- How many episodes, and when the last one was seen. -/
abbrev Episode := Nat × ℚ

abbrev EpisodeTable := Table Key Episode

namespace EpisodeTable
variable (t : EpisodeTable)

def observe (key : Key) (now : ℚ) : EpisodeTable := match t.held.get key with
  | none => t.put key (1, now)
  | some (count, last) => t.put key (if EPISODE_GAP_S < now - last then count + 1 else count, max last now)

/-- The entries that are not too old. -/
def fresh (now : ℚ) (d : Entries Key Episode) : Entries Key Episode := d.filter fun _ e => now - e.2 ≤ MAX_AGE_S

/-- Over the ceiling, the stalest entries go. -/
def evict (d : Entries Key Episode) : Entries Key Episode :=
  if MAX_PAIRS < d.size then
    let last (k : Key) : ℚ := ((d.get k).map (·.2)).getD 0
    let ordered := (d.keys.sort (· ≤ ·)).mergeSort fun a b => last a ≤ last b
    d.filter fun k _ => k ∉ ordered.take (d.size - MAX_PAIRS)
  else d

def prune (now : ℚ) : EpisodeTable := { t with held := evict (fresh now t.held) }

theorem synced_observe {t : EpisodeTable} {store : Entries Key Episode} (h : t.Synced id store) (key : Key) (now : ℚ) :
    (t.observe key now).Synced id store := by
  unfold observe
  split <;> exact h.put key _

theorem evict_of_le {d : Entries Key Episode} (h : d.size ≤ MAX_PAIRS) : evict d = d := if_neg (not_lt.mpr h)

/-- Where the pruning takes no key, it changes nothing. -/
theorem prune_get {t : EpisodeTable} {now : ℚ} (h : (t.prune now).held.keys = t.held.keys) (k : Key) :
    (t.prune now).held.get k = t.held.get k := by
  have hsub (d : Entries Key Episode) (p : Key → Episode → Bool) (hk : ((d.filter p).get k).isSome) :
      (d.filter p).get k = d.get k := by
    change ((d.get k).filter (p k)).isSome at hk
    show (d.get k).filter (p k) = d.get k
    cases hd : d.get k with
    | none => rfl
    | some e =>
      rw [hd] at hk
      cases hp : p k e <;> simp_all [Option.filter]
  cases ht : t.held.get k with
  | none =>
    have : k ∉ (t.prune now).held.keys := by
      rw [h, t.held.mem_keys, ht]
      simp
    rw [Entries.mem_keys] at this
    simpa using this
  | some e =>
    have hkept : ((t.prune now).held.get k).isSome := by
      rw [← Entries.mem_keys, h, t.held.mem_keys, ht]
      rfl
    have hevict : (evict (fresh now t.held)).get k = (fresh now t.held).get k := by
      change ((evict (fresh now t.held)).get k).isSome at hkept
      unfold evict at hkept ⊢
      split
      · rename_i hover
        rw [if_pos hover] at hkept
        exact hsub _ _ hkept
      · rfl
    show (evict (fresh now t.held)).get k = some e
    have hfresh : ((fresh now t.held).get k).isSome := hevict ▸ hkept
    rw [hevict, ← ht]
    exact hsub _ _ hfresh

end EpisodeTable

structure EpisodeMemory where
  ne : EpisodeTable := {}
  cls : EpisodeTable := {}
  item : EpisodeTable := {}

namespace EpisodeMemory
variable (e : EpisodeMemory)

/-- One co-occurrence of two items, each an element and a class. -/
def observe (a b : Nat × Nat) (now : ℚ) : EpisodeMemory where
  item := e.item.observe (Key.pair [a.1, a.2] [b.1, b.2]) now
  cls := e.cls.observe (Key.pair [a.2] [b.2]) now
  ne := if a.1 ≠ b.1 then e.ne.observe (Key.pair [a.1] [b.1]) now else e.ne

def flushed : EpisodeMemory := ⟨e.ne.clean, e.cls.clean, e.item.clean⟩

def prune (now : ℚ) : EpisodeMemory := ⟨e.ne.prune now, e.cls.prune now, e.item.prune now⟩

end EpisodeMemory

/-- Who was seen to fire before whom, by class and by element. -/
structure Precedence where
  class_wins : Table (Nat × Nat) ℚ := {}
  device_wins : Table (Nat × Nat) ℚ := {}

namespace Precedence
variable (p : Precedence)

/-- One more win of a pair. -/
def won (wins : Table (Nat × Nat) ℚ) (lead lag : Nat) (weight : ℚ) : Table (Nat × Nat) ℚ :=
  if lead ≠ lag then wins.put (lead, lag) ((wins.held.get (lead, lag)).getD 0 + weight) else wins

def observe (lead lag : Place) (weight : ℚ) : Precedence where
  class_wins := won p.class_wins lead.1 lag.1 weight
  device_wins := won p.device_wins lead.2 lag.2 weight

def flushed : Precedence := ⟨p.class_wins.clean, p.device_wins.clean⟩

theorem synced_won {wins : Table (Nat × Nat) ℚ} {store : Entries (Nat × Nat) ℚ} (h : wins.Synced id store)
    (lead lag : Nat) (weight : ℚ) : (won wins lead lag weight).Synced id store := by
  unfold won
  split
  · exact h.put _ _
  · exact h

end Precedence
end NetCoreNoc.Correlate
