import Mathlib
import NetCoreNoc.Runs
import NetCoreNoc.Correlate.Learned

/-! The part of the maintenance pass that writes what was learned (`Engine.maintenance`), the ingest gaps
(`engine/operate/gaps.py`), and what a restart loads. -/
namespace NetCoreNoc.Operate
open Writeback Correlate

def GAP_CLOSE_S : ℚ := 10

/-- What opened a gap. -/
inductive GapReason where
  | queue_full
  | window_overflow
  deriving DecidableEq, Repr

structure OpenGap where
  reason : GapReason
  started_at : ℚ
  last_drop_at : ℚ
  dropped : ℤ
  deriving DecidableEq

/-- The open gaps, in the order in which they were opened. -/
abbrev GapTracker := List OpenGap

namespace GapTracker
variable (gaps : GapTracker)

def observe (reason : GapReason) (count : ℤ) (now : ℚ) : GapTracker :=
  if count ≤ 0 then gaps
  else if gaps.any (·.reason = reason) then
    gaps.map fun g => if g.reason = reason then { g with dropped := g.dropped + count, last_drop_at := now } else g
  else gaps ++ [⟨reason, now, now, count⟩]

/-- The gaps that `flush` closes, one after the other. -/
def due (now : ℚ) : List OpenGap := gaps.filter fun g => GAP_CLOSE_S ≤ now - g.last_drop_at

/-- Each closed gap is forgotten as soon as its row is written. -/
def close (closed : List OpenGap) : GapTracker := gaps.filter fun g => g.reason ∉ closed.map (·.reason)

end GapTracker

/-- What the engine holds in memory. -/
structure Memory where
  learner : Learner := {}
  precedence : Precedence := {}
  episodes : EpisodeMemory := {}
  gap : GapTracker := []
  dropped_baseline : ℤ := 0
  /-- the drops of the correlator's window, not yet taken -/
  overflow : ℤ := 0
  memory_pruned_at : ℚ := 0

/-- The tables that hold it. -/
structure Database where
  edge_class : Entries Sides Mass := .empty
  edge_device : Entries Sides Mass := .empty
  matrix_class : Option MatrixState := none
  matrix_device : Option MatrixState := none
  lead_class : Entries (Nat × Nat) ℚ := .empty
  lead_device : Entries (Nat × Nat) ℚ := .empty
  episode_ne : Entries Key Episode := .empty
  episode_cls : Entries Key Episode := .empty
  episode_item : Entries Key Episode := .empty
  ingest_gap : List OpenGap := []

namespace Memory
variable (m : Memory) (now : ℚ)

/-- `learner.save` takes the rows of both matrices before it writes the first. -/
def save_learner : Memory :=
  { m with learner := { m.learner with A := m.learner.A.flushed, E := m.learner.E.flushed } }

def save_precedence : Memory := { m with precedence := m.precedence.flushed }

def flush_episodes : Memory := { m with episodes := m.episodes.flushed }

/-- A pass prunes a minute after the last one that did. -/
def prunes : Bool := 60 ≤ now - m.memory_pruned_at

def prune : Memory := { m with
  episodes := if m.prunes now then m.episodes.prune now else m.episodes
  memory_pruned_at := if m.prunes now then now else m.memory_pruned_at }

/-- The drops since the last pass are added to the open gaps. -/
def observe_gaps (total_dropped : ℤ) : Memory := { m with
  gap := (m.gap.observe .queue_full (total_dropped - m.dropped_baseline) now).observe .window_overflow m.overflow now
  dropped_baseline := total_dropped
  overflow := 0 }

def close_gaps (closed : List OpenGap) : Memory := { m with gap := m.gap.close closed }

end Memory

/-- Where a pass fails: before it takes anything, in the rows that it writes, or after them. -/
inductive Failure where
  | early
  | learner
  | precedence
  | profiler
  | episodes
  | pruning
  /-- after so many gaps -/
  | gaps (written : Nat)
  | commit
  deriving DecidableEq

namespace Memory
variable (m : Memory) (now : ℚ) (total_dropped : ℤ)

/-- The memory as the pass leaves it before it closes gaps. -/
def saved : Memory :=
  ((m.save_learner.save_precedence.flush_episodes).prune now).observe_gaps now total_dropped

/-- The gaps that a pass closes. -/
def closing : List OpenGap := (m.saved now total_dropped).gap.due now

/-- What a pass that fails leaves in memory, and the gaps that it closed. -/
def failed : Failure → Memory × List OpenGap
  | .early => (m, [])
  | .learner | .precedence => (m.save_learner, [])
  | .profiler => (m.save_learner.save_precedence, [])
  | .episodes => (m.save_learner.save_precedence.flush_episodes, [])
  | .pruning => (m.save_learner.save_precedence.flush_episodes.prune now, [])
  | .gaps written =>
    let closed := (m.closing now total_dropped).take written
    ((m.saved now total_dropped).close_gaps closed, closed)
  | .commit =>
    let closed := m.closing now total_dropped
    ((m.saved now total_dropped).close_gaps closed, closed)

/-- What `Engine.start` loads. -/
def load (db : Database) : Memory where
  learner := {
    A := (db.matrix_class.map (Matrix.load_state · db.edge_class)).getD {}
    E := (db.matrix_device.map (Matrix.load_state · db.edge_device)).getD {} }
  precedence := ⟨⟨db.lead_class, ∅⟩, ⟨db.lead_device, ∅⟩⟩
  episodes := ⟨⟨db.episode_ne, ∅⟩, ⟨db.episode_cls, ∅⟩, ⟨db.episode_item, ∅⟩⟩

end Memory

/-- What a pass over a memory commits. -/
def Database.written (db : Database) (m : Memory) (now : ℚ) (total_dropped : ℤ) : Database :=
  let pruned (d : Entries Key Episode) : Entries Key Episode := if m.prunes now then EpisodeTable.fresh now d else d
  { edge_class := db.edge_class.upsert m.learner.A.rows
    edge_device := db.edge_device.upsert m.learner.E.rows
    matrix_class := some m.learner.A.flushed.state
    matrix_device := some m.learner.E.flushed.state
    lead_class := db.lead_class.upsert (m.precedence.class_wins.rows id)
    lead_device := db.lead_device.upsert (m.precedence.device_wins.rows id)
    episode_ne := pruned (db.episode_ne.upsert (m.episodes.ne.rows id))
    episode_cls := pruned (db.episode_cls.upsert (m.episodes.cls.rows id))
    episode_item := pruned (db.episode_item.upsert (m.episodes.item.rows id))
    ingest_gap := db.ingest_gap ++ m.closing now total_dropped }

/-- Memory and database, and every gap that was ever closed. -/
structure Learned where
  memory : Memory := {}
  db : Database := {}
  closed : List OpenGap := []

inductive LearnedOp where
  | advance_to (ts : ℚ)
  | activation (item : Place)
  | pairs (new : Place) (others : List Place) (storm : Bool)
  | precedence (lead lag : Place) (weight : ℚ)
  | episode (a b : Nat × Nat) (now : ℚ)
  | confirm (members : List Place)
  | split (members : List Place) (marked : Option (Finset Nat))
  | overflow (count : Nat)
  /-- a maintenance pass: it commits, or fails somewhere and is rolled back -/
  | maintenance (now : ℚ) (total_dropped : ℤ) (fails : Option Failure)
  | restart

namespace Learned
variable (s : Learned)

def learn (f : Learner → Learner) : Learned := { s with memory := { s.memory with learner := f s.memory.learner } }

def step : Learned → LearnedOp → Learned
  | s, .advance_to ts => s.learn (·.advance_to ts)
  | s, .activation item => s.learn (·.observe_activation item)
  | s, .pairs new others storm => s.learn (·.observe_pairs new others storm)
  | s, .precedence lead lag weight =>
    { s with memory := { s.memory with precedence := s.memory.precedence.observe lead lag weight } }
  | s, .episode a b now => { s with memory := { s.memory with episodes := s.memory.episodes.observe a b now } }
  | s, .confirm members => s.learn (·.learn_epoch members false)
  | s, .split members marked => s.learn (·.penalize members marked)
  | s, .overflow count => { s with memory := { s.memory with overflow := s.memory.overflow + count } }
  | s, .maintenance now total_dropped none =>
    let closed := s.memory.closing now total_dropped
    { memory := (s.memory.saved now total_dropped).close_gaps closed
      db := s.db.written s.memory now total_dropped
      closed := s.closed ++ closed }
  | s, .maintenance now total_dropped (some failure) =>
    let (memory, closed) := s.memory.failed now total_dropped failure
    { s with memory := memory, closed := s.closed ++ closed }
  | s, .restart => { s with memory := Memory.load s.db }

/-- The database has everything that was learned, but for what is still to be written. -/
structure Backed (s : Learned) : Prop where
  learner : s.memory.learner.Backed s.db.edge_class s.db.edge_device
  matrix_class : s.db.matrix_class = none → ∀ k, s.db.edge_class.get k = none
  matrix_device : s.db.matrix_device = none → ∀ k, s.db.edge_device.get k = none
  class_wins : s.memory.precedence.class_wins.Synced id s.db.lead_class
  device_wins : s.memory.precedence.device_wins.Synced id s.db.lead_device
  ne : s.memory.episodes.ne.Synced id s.db.episode_ne
  cls : s.memory.episodes.cls.Synced id s.db.episode_cls
  item : s.memory.episodes.item.Synced id s.db.episode_item
  gaps : s.db.ingest_gap = s.closed

end Learned

namespace Memory
variable (m : Memory) (now : ℚ) (total_dropped : ℤ)

/-- No table is over its ceiling, where the pass prunes. -/
def Bounded : Prop := m.prunes now → (EpisodeTable.fresh now m.episodes.ne.held).size ≤ MAX_PAIRS ∧
  (EpisodeTable.fresh now m.episodes.cls.held).size ≤ MAX_PAIRS ∧
  (EpisodeTable.fresh now m.episodes.item.held).size ≤ MAX_PAIRS

/-- No mass changed since it was written. -/
def LearnerWritten : Prop := m.learner.A.pairs.dirty = ∅ ∧ m.learner.E.pairs.dirty = ∅

def PrecedenceWritten : Prop := m.precedence.class_wins.dirty = ∅ ∧ m.precedence.device_wins.dirty = ∅

def EpisodesWritten : Prop :=
  m.episodes.ne.dirty = ∅ ∧ m.episodes.cls.dirty = ∅ ∧ m.episodes.item.dirty = ∅

/-- The pass has no episode to prune. -/
def Pruned : Prop := m.prunes now → (m.episodes.ne.prune now).held.keys = m.episodes.ne.held.keys ∧
  (m.episodes.cls.prune now).held.keys = m.episodes.cls.held.keys ∧
  (m.episodes.item.prune now).held.keys = m.episodes.item.held.keys

/-- What a pass has taken from memory, by the point at which it fails, is nothing. -/
def HandsNothing : Failure → Prop
  | .early => True
  | .learner | .precedence => m.LearnerWritten
  | .profiler => m.LearnerWritten ∧ m.PrecedenceWritten
  | .episodes => m.LearnerWritten ∧ m.PrecedenceWritten ∧ m.EpisodesWritten
  | .pruning => m.LearnerWritten ∧ m.PrecedenceWritten ∧ m.EpisodesWritten ∧ m.Pruned now
  | .gaps written => m.LearnerWritten ∧ m.PrecedenceWritten ∧ m.EpisodesWritten ∧ m.Pruned now ∧
      (m.closing now total_dropped).take written = []
  | .commit => m.LearnerWritten ∧ m.PrecedenceWritten ∧ m.EpisodesWritten ∧ m.Pruned now ∧
      m.closing now total_dropped = []

end Memory

namespace Learned

/-- A pass that commits prunes by age only; one that fails had nothing to hand out. -/
def Kept (s : Learned) : LearnedOp → Prop
  | .maintenance now _ none => s.memory.Bounded now
  | .maintenance now total_dropped (some failure) => s.memory.HandsNothing now total_dropped failure
  | _ => True

/-- What a pass that commits leaves: the database has all that memory has. -/
structure Written (s : Learned) : Prop where
  A : s.memory.learner.A.pairs.held.Agrees Mass.settled s.db.edge_class
  E : s.memory.learner.E.pairs.held.Agrees Mass.settled s.db.edge_device
  matrix_class : s.db.matrix_class = some s.memory.learner.A.state
  matrix_device : s.db.matrix_device = some s.memory.learner.E.state
  class_wins : s.memory.precedence.class_wins.held.Agrees id s.db.lead_class
  device_wins : s.memory.precedence.device_wins.held.Agrees id s.db.lead_device
  ne : s.memory.episodes.ne.held.Agrees id s.db.episode_ne
  cls : s.memory.episodes.cls.held.Agrees id s.db.episode_cls
  item : s.memory.episodes.item.held.Agrees id s.db.episode_item
  gaps : s.db.ingest_gap = s.closed

private theorem episodes_written {t : EpisodeTable} {store : Entries Key Episode} (ht : t.Synced id store) {now : ℚ}
    (prunes : Bool) (hb : prunes → (EpisodeTable.fresh now t.held).size ≤ MAX_PAIRS) :
    (if prunes then EpisodeTable.prune t.clean now else t.clean).held.Agrees id
      (if prunes then EpisodeTable.fresh now (store.upsert (t.rows id)) else store.upsert (t.rows id)) := by
  have hflush : t.held.Agrees id (store.upsert (t.rows id)) := ht.flush fun _ => rfl
  cases prunes with
  | false => exact hflush
  | true =>
    show (EpisodeTable.evict (EpisodeTable.fresh now t.held)).Agrees id _
    rw [EpisodeTable.evict_of_le (hb rfl)]
    exact hflush.filter (q := fun _ e => now - e.2 ≤ MAX_AGE_S) fun _ _ => rfl

/-- A table that had nothing to write is as it was once it has been flushed. -/
private theorem synced_clean {K V W : Type} [DecidableEq K] {view : V → W} {t : Table K V} {store : Entries K V}
    (ht : t.Synced view store) (hclean : t.dirty = ∅) : t.clean.Synced view store :=
  Table.synced_of_agrees rfl (ht.agrees hclean)

private theorem synced_prune {t : EpisodeTable} {store : Entries Key Episode} (ht : t.Synced id store) {now : ℚ}
    (hclean : t.dirty = ∅) (hkeys : (t.prune now).held.keys = t.held.keys) :
    (EpisodeTable.prune t.clean now).Synced id store := by
  refine Table.synced_of_agrees rfl fun k => ?_
  have hget : (EpisodeTable.prune t.clean now).held.get k = t.held.get k := EpisodeTable.prune_get hkeys k
  exact (congrArg _ hget).trans (ht.agrees hclean k)

section
variable {s : Learned} (h : s.Backed)
include h

private theorem backed_learn {l : Learner} (hl : l.Backed s.db.edge_class s.db.edge_device) :
    ({ s with memory := { s.memory with learner := l } } : Learned).Backed :=
  ⟨hl, h.matrix_class, h.matrix_device, h.class_wins, h.device_wins, h.ne, h.cls, h.item, h.gaps⟩

private theorem backed_restart : (s.step .restart).Backed := by
  have hload {state : Option MatrixState} {edges : Entries Sides Mass}
      (hnone : state = none → ∀ k, edges.get k = none) :
      ((state.map (Matrix.load_state · edges)).getD {}).Backed edges := by
    cases state with
    | none => exact ⟨fun k _ => by rw [hnone rfl k]; rfl, Finset.empty_subset _⟩
    | some state => exact Table.synced_of_agrees rfl fun _ => rfl
  exact ⟨⟨hload h.matrix_class, hload h.matrix_device⟩, h.matrix_class, h.matrix_device,
    Table.synced_of_agrees rfl fun _ => rfl, Table.synced_of_agrees rfl fun _ => rfl, Table.synced_of_agrees rfl fun _ => rfl,
    Table.synced_of_agrees rfl fun _ => rfl, Table.synced_of_agrees rfl fun _ => rfl, h.gaps⟩

private theorem written_maintenance {now : ℚ} (hb : s.memory.Bounded now) (total_dropped : ℤ) :
    (s.step (.maintenance now total_dropped none)).Written := by
  have hepisodes : (s.step (.maintenance now total_dropped none)).memory.episodes =
      if s.memory.prunes now then s.memory.episodes.flushed.prune now else s.memory.episodes.flushed := rfl
  refine ⟨h.learner.A.flush (Matrix.settled_decayed _), h.learner.E.flush (Matrix.settled_decayed _), rfl, rfl,
    h.class_wins.flush fun _ => rfl, h.device_wins.flush fun _ => rfl, ?_, ?_, ?_,
    congrArg (· ++ s.memory.closing now total_dropped) h.gaps⟩
  · have hne (prunes : Bool) (e : EpisodeMemory) : (if prunes then e.flushed.prune now else e.flushed).ne =
        if prunes then EpisodeTable.prune e.ne.clean now else e.ne.clean := by cases prunes <;> rfl
    rw [hepisodes, hne]
    exact episodes_written h.ne _ fun hp => (hb hp).1
  · have hcls (prunes : Bool) (e : EpisodeMemory) : (if prunes then e.flushed.prune now else e.flushed).cls =
        if prunes then EpisodeTable.prune e.cls.clean now else e.cls.clean := by cases prunes <;> rfl
    rw [hepisodes, hcls]
    exact episodes_written h.cls _ fun hp => (hb hp).2.1
  · have hitem (prunes : Bool) (e : EpisodeMemory) : (if prunes then e.flushed.prune now else e.flushed).item =
        if prunes then EpisodeTable.prune e.item.clean now else e.item.clean := by cases prunes <;> rfl
    rw [hepisodes, hitem]
    exact episodes_written h.item _ fun hp => (hb hp).2.2

/-- The memory that a failed pass leaves has nothing that was taken from it. -/
private theorem backed_memory {m : Memory} {closed : List OpenGap} (hclosed : closed = [])
    (hlearner : m.learner.Backed s.db.edge_class s.db.edge_device)
    (hclass : m.precedence.class_wins.Synced id s.db.lead_class)
    (hdevice : m.precedence.device_wins.Synced id s.db.lead_device)
    (hne : m.episodes.ne.Synced id s.db.episode_ne) (hcls : m.episodes.cls.Synced id s.db.episode_cls)
    (hitem : m.episodes.item.Synced id s.db.episode_item) :
    ({ s with memory := m, closed := s.closed ++ closed } : Learned).Backed := by
  subst hclosed
  exact ⟨hlearner, h.matrix_class, h.matrix_device, hclass, hdevice, hne, hcls, hitem,
    h.gaps.trans (List.append_nil _).symm⟩

private theorem backed_failed {now : ℚ} {total_dropped : ℤ} {failure : Failure}
    (hn : s.memory.HandsNothing now total_dropped failure) :
    (s.step (.maintenance now total_dropped (some failure))).Backed := by
  have hlearner (hw : s.memory.LearnerWritten) :
      s.memory.save_learner.learner.Backed s.db.edge_class s.db.edge_device :=
    ⟨synced_clean h.learner.A hw.1, synced_clean h.learner.E hw.2⟩
  have hepisodes (hw : s.memory.EpisodesWritten) (hp : s.memory.Pruned now) :
      let e := if s.memory.prunes now then s.memory.episodes.flushed.prune now else s.memory.episodes.flushed
      e.ne.Synced id s.db.episode_ne ∧ e.cls.Synced id s.db.episode_cls ∧ e.item.Synced id s.db.episode_item := by
    cases hprunes : s.memory.prunes now with
    | false => exact ⟨synced_clean h.ne hw.1, synced_clean h.cls hw.2.1, synced_clean h.item hw.2.2⟩
    | true =>
      obtain ⟨hne, hcls, hitem⟩ := hp hprunes
      exact ⟨synced_prune h.ne hw.1 hne, synced_prune h.cls hw.2.1 hcls, synced_prune h.item hw.2.2 hitem⟩
  cases failure with
  | early => exact backed_memory h rfl h.learner h.class_wins h.device_wins h.ne h.cls h.item
  | learner => exact backed_memory h rfl (hlearner hn) h.class_wins h.device_wins h.ne h.cls h.item
  | precedence => exact backed_memory h rfl (hlearner hn) h.class_wins h.device_wins h.ne h.cls h.item
  | profiler =>
    obtain ⟨hl, hp⟩ := hn
    exact backed_memory h rfl (hlearner hl) (synced_clean h.class_wins hp.1) (synced_clean h.device_wins hp.2) h.ne
      h.cls h.item
  | episodes =>
    obtain ⟨hl, hp, he⟩ := hn
    exact backed_memory h rfl (hlearner hl) (synced_clean h.class_wins hp.1) (synced_clean h.device_wins hp.2)
      (synced_clean h.ne he.1) (synced_clean h.cls he.2.1) (synced_clean h.item he.2.2)
  | pruning =>
    obtain ⟨hl, hp, he, hpruned⟩ := hn
    obtain ⟨hne, hcls, hitem⟩ := hepisodes he hpruned
    exact backed_memory h rfl (hlearner hl) (synced_clean h.class_wins hp.1) (synced_clean h.device_wins hp.2) hne
      hcls hitem
  | gaps written =>
    obtain ⟨hl, hp, he, hpruned, hclosed⟩ := hn
    obtain ⟨hne, hcls, hitem⟩ := hepisodes he hpruned
    exact backed_memory h hclosed (hlearner hl) (synced_clean h.class_wins hp.1) (synced_clean h.device_wins hp.2)
      hne hcls hitem
  | commit =>
    obtain ⟨hl, hp, he, hpruned, hclosed⟩ := hn
    obtain ⟨hne, hcls, hitem⟩ := hepisodes he hpruned
    exact backed_memory h hclosed (hlearner hl) (synced_clean h.class_wins hp.1) (synced_clean h.device_wins hp.2)
      hne hcls hitem

theorem backed_step (op : LearnedOp) (hkept : s.Kept op) : (s.step op).Backed := by
  cases op with
  | advance_to ts => exact backed_learn h (h.learner.advance_to ts)
  | activation item => exact backed_learn h ⟨h.learner.A, h.learner.E⟩
  | pairs new others storm => exact backed_learn h (h.learner.observe_pairs new others storm)
  | confirm members => exact backed_learn h (h.learner.learn_epoch members false)
  | split members marked => exact backed_learn h (h.learner.penalize members marked)
  | precedence lead lag weight =>
    exact ⟨h.learner, h.matrix_class, h.matrix_device, Precedence.synced_won h.class_wins _ _ _,
      Precedence.synced_won h.device_wins _ _ _, h.ne, h.cls, h.item, h.gaps⟩
  | episode a b now =>
    refine ⟨h.learner, h.matrix_class, h.matrix_device, h.class_wins, h.device_wins, ?_,
      EpisodeTable.synced_observe h.cls _ _, EpisodeTable.synced_observe h.item _ _, h.gaps⟩
    show (if a.1 ≠ b.1 then _ else _ : EpisodeTable).Synced id _
    split
    · exact EpisodeTable.synced_observe h.ne _ _
    · exact h.ne
  | overflow count =>
    exact ⟨h.learner, h.matrix_class, h.matrix_device, h.class_wins, h.device_wins, h.ne, h.cls, h.item, h.gaps⟩
  | restart => exact backed_restart h
  | maintenance now total_dropped fails =>
    cases fails with
    | some failure => exact backed_failed h hkept
    | none =>
      have hw := written_maintenance h hkept total_dropped
      have hclean (prunes : Bool) (e : EpisodeMemory) :
          let e' := if prunes then e.flushed.prune now else e.flushed
          e'.ne.dirty = ∅ ∧ e'.cls.dirty = ∅ ∧ e'.item.dirty = ∅ := by
        cases prunes <;> exact ⟨rfl, rfl, rfl⟩
      obtain ⟨hne, hcls, hitem⟩ := hclean (s.memory.prunes now) s.memory.episodes
      exact ⟨⟨Table.synced_of_agrees rfl hw.A, Table.synced_of_agrees rfl hw.E⟩,
        fun hnone => absurd (hnone.symm.trans hw.matrix_class) (by simp),
        fun hnone => absurd (hnone.symm.trans hw.matrix_device) (by simp), Table.synced_of_agrees rfl hw.class_wins,
        Table.synced_of_agrees rfl hw.device_wins, Table.synced_of_agrees hne hw.ne,
        Table.synced_of_agrees hcls hw.cls, Table.synced_of_agrees hitem hw.item, hw.gaps⟩

end

private theorem backed_start : ({} : Learned).Backed :=
  ⟨⟨Table.synced_of_agrees rfl fun _ => rfl, Table.synced_of_agrees rfl fun _ => rfl⟩, fun _ _ => rfl,
    fun _ _ => rfl, Table.synced_of_agrees rfl fun _ => rfl, Table.synced_of_agrees rfl fun _ => rfl,
    Table.synced_of_agrees rfl fun _ => rfl, Table.synced_of_agrees rfl fun _ => rfl,
    Table.synced_of_agrees rfl fun _ => rfl, rfl⟩

/-- What a restart loads is what memory held: the masses of both matrices, the episodes, the wins, and
every gap that was closed. -/
structure Reloads (s : Learned) : Prop where
  class_mass : ∀ a b, (Memory.load s.db).learner.A.pair_mass a b = s.memory.learner.A.pair_mass a b
  device_mass : ∀ a b, (Memory.load s.db).learner.E.pair_mass a b = s.memory.learner.E.pair_mass a b
  class_activation : (Memory.load s.db).learner.A.state = s.memory.learner.A.state
  device_activation : (Memory.load s.db).learner.E.state = s.memory.learner.E.state
  ne : ∀ k, (Memory.load s.db).episodes.ne.held.get k = s.memory.episodes.ne.held.get k
  cls : ∀ k, (Memory.load s.db).episodes.cls.held.get k = s.memory.episodes.cls.held.get k
  item : ∀ k, (Memory.load s.db).episodes.item.held.get k = s.memory.episodes.item.held.get k
  class_wins : ∀ k, (Memory.load s.db).precedence.class_wins.held.get k = s.memory.precedence.class_wins.held.get k
  device_wins : ∀ k,
    (Memory.load s.db).precedence.device_wins.held.get k = s.memory.precedence.device_wins.held.get k
  gaps : s.db.ingest_gap = s.closed

theorem Written.reloads {s : Learned} (h : s.Written) : s.Reloads := by
  have hA : (Memory.load s.db).learner.A = Matrix.load_state s.memory.learner.A.state s.db.edge_class := by
    simp only [Memory.load, h.matrix_class]
    rfl
  have hE : (Memory.load s.db).learner.E = Matrix.load_state s.memory.learner.E.state s.db.edge_device := by
    simp only [Memory.load, h.matrix_device]
    rfl
  refine ⟨fun a b => ?_, fun a b => ?_, (congrArg Matrix.state hA).trans rfl,
    (congrArg Matrix.state hE).trans rfl,
    fun k => (h.ne.get k).symm, fun k => (h.cls.get k).symm, fun k => (h.item.get k).symm,
    fun k => (h.class_wins.get k).symm, fun k => (h.device_wins.get k).symm, h.gaps⟩
  · rw [hA, Matrix.pair_mass_eq, Matrix.pair_mass_eq, h.A]
    rfl
  · rw [hE, Matrix.pair_mass_eq, Matrix.pair_mass_eq, h.E]
    rfl

/-- In every run in which no failed pass had taken anything, and no pass evicted an episode for room, a
pass that commits leaves in the database all that a restart needs. -/
theorem run_reloads (ops : List LearnedOp) (hops : Runs.Meets step Kept {} ops) (now : ℚ) (total_dropped : ℤ)
    (hnow : (Runs.run step {} ops).memory.Bounded now) :
    ((Runs.run step {} ops).step (.maintenance now total_dropped none)).Reloads := by
  have hstep (s : Learned) (op : LearnedOp) (hs : s.Backed) (hop : s.Kept op) : (s.step op).Backed :=
    backed_step hs op hop
  have hbacked := Runs.run_invariant hstep {} ops backed_start hops
  exact (written_maintenance hbacked hnow total_dropped).reloads

/-- A pair that a pass hands out, and loses when it is rolled back. -/
def unsaved : List LearnedOp := [
  .pairs (1, 1) [(2, 2)] false, .precedence (1, 1) (2, 2) 1, .maintenance 5 0 (some .commit)]

theorem unsaved_lost : ¬ ∀ (ops : List LearnedOp) (now : ℚ) (total_dropped : ℤ),
    ((Runs.run step {} ops).step (.maintenance now total_dropped none)).Reloads := by
  intro h
  have hmass := (h unsaved 10 0).class_mass 1 2
  have hmemory : ((Runs.run step {} unsaved).step (.maintenance 10 0 none)).memory.learner.A.pair_mass 1 2 = 1 := by
    decide +kernel
  have hloaded : (Memory.load
      ((Runs.run step {} unsaved).step (.maintenance 10 0 none)).db).learner.A.pair_mass 1 2 = 0 := by decide +kernel
  exact absurd (hloaded.symm.trans (hmass.trans hmemory)) (by norm_num)

/-- The same observations, with a pass that fails before it takes anything. -/
theorem run_reloads_early : ((Runs.run step {} [.pairs (1, 1) [(2, 2)] false, .precedence (1, 1) (2, 2) 1,
    .episode (1, 1) (2, 2) 3, .maintenance 5 0 (some .early)]).step (.maintenance 10 0 none)).Reloads := by
  refine run_reloads _ ?_ 10 0 ?_
  · exact ⟨trivial, trivial, trivial, trivial, trivial⟩
  · have : (Runs.run step {} [.pairs (1, 1) [(2, 2)] false, .precedence (1, 1) (2, 2) 1,
        .episode (1, 1) (2, 2) 3, .maintenance 5 0 (some .early)]).memory.prunes 10 = false := by decide +kernel
    exact fun hp => absurd (this.symm.trans hp) (by simp)

end Learned
end NetCoreNoc.Operate
