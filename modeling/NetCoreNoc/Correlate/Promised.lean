import Mathlib
import NetCoreNoc.Firsts
import NetCoreNoc.Runs
import NetCoreNoc.Correlate.Recall

/-! What recall promises, in the history of the activations, and what its rings recall (`engine/correlate/
retrieval.py`). -/
namespace NetCoreNoc.Correlate.Recall
open Runs Firsts Writeback

deriving instance DecidableEq for Activation

/-- What happens to the rings and to the ids of live alarms. -/
inductive RingEvent where
  | add (alarm : Activation)
  | clear (alarm_id : Nat)
  /-- the sweep, which keeps the ids that the rings or the window can still propose -/
  | prune (now : ℚ) (window : Finset Nat)

structure Retrieval where
  index : CandidateIndex := {}
  live : Finset Nat := ∅

namespace Retrieval

def step (s : Retrieval) : RingEvent → Retrieval
  | .add alarm => ⟨s.index.add alarm, insert alarm.alarm_id s.live⟩
  | .clear alarm_id => { s with live := s.live.erase alarm_id }
  | .prune now window => ⟨s.index.prune now, s.live ∩ (window ∪ (s.index.prune now).proposable)⟩

/-- `recall`, with the ids that are live -/
def recalls (s : Retrieval) (new : Activation) (neighbours : List Nat) (exclude : Nat → Bool) : List Activation :=
  s.index.recalls new (· ∈ s.live) neighbours exclude

end Retrieval

namespace Correlator
variable {E : Type} (c : Correlator E)

def rings : Retrieval := ⟨c.retrieval, c.live⟩

theorem rings_remove (alarm_id : Nat) : (c.remove alarm_id).rings = c.rings.step (.clear alarm_id) := rfl

theorem rings_prune (now : ℚ) : (c.prune now).rings = c.rings.step (.prune now c.index.keys.toFinset) := rfl

/-- An arrival clears its alarm and then adds it. -/
theorem rings_process [Field E] [LinearOrder E] (new : Activation) (learner : Affinities E)
    (sit_of : Nat → Option Nat) (own : Option Nat) (teaches : Bool) :
    (c.process new learner sit_of own teaches).1.rings = (c.rings.step (.clear new.alarm_id)).step (.add new) := by
  have hlive : (c.toCorrelator.evict new.ts).live = c.live := by
    rw [Correlate.Correlator.evict, Window.shed_eq]
  have hcleared : ((c.evict new.ts).remove new.alarm_id).rings = c.rings.step (.clear new.alarm_id) := by
    rw [rings_remove, rings, evict, hlive]
    rfl
  rw [← hcleared]
  rfl

theorem recalls_rings (new : Activation) (exclude : Nat → Bool) :
    c.recalls new exclude = c.rings.recalls new (neighbours c.episodes new.device_id) exclude := rfl

end Correlator

/-- What was raised, newest first. -/
def raised (events : List RingEvent) : List Activation :=
  (events.filterMap fun
    | .add alarm => some alarm
    | _ => none).reverse

/-- Raised, and not cleared since. -/
def standing (events : List RingEvent) (alarm_id : Nat) : Bool :=
  events.foldl (fun up => fun
    | .add alarm => up || alarm.alarm_id = alarm_id
    | .clear cleared => up && cleared ≠ alarm_id
    | .prune _ _ => up) false

def latest (events : List RingEvent) (alarm_id : Nat) : Option Activation :=
  (raised events).find? (·.alarm_id = alarm_id)

section Sources
variable (events : List RingEvent)

/-- The last activations on an element. -/
def on (ne : Nat) : List Activation := ((raised events).filter (·.device_id = ne)).take PER_NE

/-- The last activations whose trap has a parent arc. -/
def siblings (parent : List String) : List Activation :=
  ((raised events).filter (parent_of ·.arcs = parent)).take PER_PARENT

/-- The last activations that name an address. -/
def naming (address : String) : List Activation := ((raised events).filter (address ∈ ·.refs)).take PER_REF

/-- In the documented order, each with its budget: the arriving alarm's element, its OID parent, who names it, the
elements that it names, and the learned neighbours. -/
def sources (ne_of : String → Option Nat) (new : Activation) (neighbours : List Nat) : List (List Activation × Nat) :=
  [(on events new.device_id, PER_NE), (siblings events (parent_of new.arcs), PER_PARENT),
    (if new.source = "" then [] else naming events new.source, PER_REF)] ++
  (ordered new.refs).map (fun ref => (match ne_of ref with
    | none => []
    | some ne => if ne = new.device_id then [] else on events ne, PER_REF)) ++
  neighbours.map fun ne => (on events ne, PER_NEIGHBOUR)

/-- Within the horizon of the rings. -/
def within (now : ℚ) (a : Activation) : Bool := !(RING_S < now - a.ts)

/-- Another live alarm of the last `RING_S` seconds, which is not a candidate already. -/
def eligible (new : Activation) (exclude : Nat → Bool) (a : Activation) : Bool :=
  within new.ts a && a.alarm_id ≠ new.alarm_id && !exclude a.alarm_id && standing events a.alarm_id

/-- Such an alarm in its latest activation. -/
def candidate (new : Activation) (exclude : Nat → Bool) (a : Activation) : Bool :=
  eligible events new exclude a && latest events a.alarm_id = some a

end Sources

/-- From a source the newest activation of each alarm that was not picked before, up to the budget and the bound. -/
def pick (wanted : Activation → Bool) (out : List Activation) (source : List Activation × Nat) : List Activation :=
  out ++ (firsts (·.alarm_id) (source.1.filter fun a => wanted a && out.all (·.alarm_id ≠ a.alarm_id))).take
    (min source.2 (MAX_RECALL - out.length))

/-- The best-ranked candidates, oldest first. -/
def best (events : List RingEvent) (ne_of : String → Option Nat) (new : Activation) (neighbours : List Nat)
    (exclude : Nat → Bool) : List Activation :=
  ((sources events ne_of new neighbours).foldl (pick (candidate events new exclude)) []).mergeSort
    CandidateIndex.earlier

/-- What recall promises of what it recalls. -/
structure Promised (events : List RingEvent) (ne_of : String → Option Nat) (new : Activation) (neighbours : List Nat)
    (exclude : Nat → Bool) (found : List Activation) : Prop where
  distinct : (found.map (·.alarm_id)).Nodup
  live : ∀ a ∈ found, standing events a.alarm_id ∧ a.alarm_id ≠ new.alarm_id ∧ exclude a.alarm_id = false
  latest : ∀ a ∈ found, latest events a.alarm_id = some a
  recent : ∀ a ∈ found, new.ts - a.ts ≤ RING_S
  bounded : found.length ≤ MAX_RECALL
  best : found = best events ne_of new neighbours exclude

/-- The activations come in the order of their timestamps, and no sweep was ahead of the arriving alarm. -/
def InOrder (events : List RingEvent) (new : Activation) : Prop :=
  (new :: raised events).Pairwise (fun a b => b.ts ≤ a.ts) ∧ ∀ now window, .prune now window ∈ events → now ≤ new.ts

/-- An alarm keeps its element and the parent of its trap OID, which its fingerprint is made of. -/
def Fixed (events : List RingEvent) : Prop :=
  ∀ a ∈ raised events, ∀ b ∈ raised events, a.alarm_id = b.alarm_id →
    a.device_id = b.device_id ∧ parent_of a.arcs = parent_of b.arcs

/-- Each alarm that could be recalled for naming the arriving alarm's address names it in its latest activation too,
or that activation is recalled from the element or the OID parent. -/
def StillNamed (events : List RingEvent) (new : Activation) (exclude : Nat → Bool) : Prop :=
  new.source ≠ "" → ∀ a ∈ naming events new.source, eligible events new exclude a →
    ∀ b, latest events a.alarm_id = some b →
      new.source ∈ b.refs ∨ b ∈ on events new.device_id ∨ b ∈ siblings events (parent_of new.arcs)

section Histories
variable {events : List RingEvent} {horizon : ℚ} {maxlen : Nat}

private theorem raised_snoc (events : List RingEvent) (e : RingEvent) : raised (events ++ [e]) =
    (match e with
      | .add alarm => [alarm]
      | _ => []) ++ raised events := by
  unfold raised
  rw [List.filterMap_append, List.reverse_append]
  cases e <;> rfl

private theorem standing_snoc (events : List RingEvent) (e : RingEvent) (id : Nat) : standing (events ++ [e]) id =
    match e with
    | .add alarm => standing events id || alarm.alarm_id = id
    | .clear cleared => standing events id && cleared ≠ id
    | .prune _ _ => standing events id := by
  unfold standing
  rw [List.foldl_append]
  cases e <;> rfl

/-- A ring holds the last of a history, which it may have lost what is beyond the horizon of. -/
def Traces (horizon : ℚ) (maxlen : Nat) (history ring : List Activation) : Prop :=
  ∃ kept gone, history = kept ++ gone ∧ ring.reverse = kept.take maxlen ∧ ∀ a ∈ gone, RING_S < horizon - a.ts

private theorem Traces.append {history ring : List Activation} (h : Traces horizon maxlen history ring)
    (a : Activation) :
    Traces horizon maxlen (a :: history) (append maxlen ring a) := by
  obtain ⟨kept, gone, rfl, hring, hgone⟩ := h
  refine ⟨a :: kept, gone, rfl, ?_, hgone⟩
  unfold Recall.append
  rw [← List.take_reverse, List.reverse_append, List.reverse_singleton, List.singleton_append, hring]
  cases maxlen with
  | zero => rfl
  | succ n => rw [List.take_succ_cons, List.take_succ_cons, List.take_take, min_eq_left (Nat.le_succ n)]

private theorem Traces.drop {history ring : List Activation} (h : Traces horizon maxlen history ring)
    (h0 : 0 < maxlen) (hord : history.Pairwise fun a b => b.ts ≤ a.ts) {now : ℚ} (hnow : now ≤ horizon)
    (hs : stale now ring) :
    Traces horizon maxlen history [] := by
  obtain ⟨kept, gone, rfl, hring, hgone⟩ := h
  refine ⟨[], kept ++ gone, rfl, by simp, fun a ha => (List.mem_append.mp ha).elim (fun ha => ?_) (hgone a)⟩
  obtain _ | ⟨newest, rest⟩ := kept
  · exact nomatch ha
  obtain ⟨n, rfl⟩ : ∃ n, maxlen = n + 1 := ⟨maxlen - 1, by omega⟩
  have hlast : ring.getLast? = some newest := by
    rw [← List.head?_reverse, hring]
    rfl
  have hold : RING_S < now - newest.ts := by simpa [stale, hlast] using hs
  have hle : a.ts ≤ newest.ts := by
    rcases List.mem_cons.mp ha with rfl | ha
    · exact le_rfl
    · exact (List.pairwise_cons.mp (List.pairwise_append.mp hord).1).1 a ha
  linarith

private theorem Traces.sorted {history ring : List Activation} (h : Traces horizon maxlen history ring)
    (hord : history.Pairwise fun a b => b.ts ≤ a.ts) : ring.reverse.Pairwise fun a b => b.ts ≤ a.ts := by
  obtain ⟨kept, gone, rfl, hring, -⟩ := h
  rw [hring]
  exact (List.pairwise_append.mp hord).1.sublist (List.take_sublist _ _)

private theorem Traces.filter {history ring : List Activation} (h : Traces horizon maxlen history ring)
    {p : Activation → Bool} (hp : ∀ a, p a → within horizon a) :
    (history.take maxlen).filter p = ring.reverse.filter p := by
  obtain ⟨kept, gone, rfl, hring, hgone⟩ := h
  have hnone : (gone.take (maxlen - kept.length)).filter p = [] := by
    refine List.filter_eq_nil_iff.mpr fun a ha hpa => ?_
    have hw := hp a hpa
    simp [within, hgone a (List.mem_of_mem_take ha)] at hw
  rw [List.take_append, List.filter_append, hnone, List.append_nil, hring]

variable {K : Type} [DecidableEq K]

/-- The rings of a family each hold the last of what belongs to their key. -/
def Family (horizon : ℚ) (maxlen : Nat) (belongs : K → Activation → Bool) (history : List Activation)
    (rings : Entries K (List Activation)) : Prop :=
  ∀ k, Traces horizon maxlen (history.filter (belongs k)) ((rings.get k).getD [])

private theorem Family.prune {belongs : K → Activation → Bool} {history : List Activation}
    {rings : Entries K (List Activation)} (h : Family horizon maxlen belongs history rings) (h0 : 0 < maxlen)
    (hord : history.Pairwise fun a b => b.ts ≤ a.ts) {now : ℚ} (hnow : now ≤ horizon) :
    Family horizon maxlen belongs history (rings.filter fun _ ring => !stale now ring) := by
  intro k
  have hk := h k
  show Traces _ _ _ (((rings.get k).filter fun ring => !stale now ring).getD [])
  rcases hr : rings.get k with _ | ring
  · rwa [hr] at hk
  rw [hr] at hk
  rcases hs : stale now ring with _ | _
  · simpa [Option.filter, hs] using hk
  · simpa [Option.filter, hs] using hk.drop h0 (hord.sublist List.filter_sublist) hnow hs

private theorem Family.add {belongs : K → Activation → Bool} {history : List Activation}
    {rings rings' : Entries K (List Activation)} (h : Family horizon maxlen belongs history rings) (a : Activation)
    (hadd : ∀ k, (rings'.get k).getD [] =
      if belongs k a then append maxlen ((rings.get k).getD []) a else (rings.get k).getD []) :
    Family horizon maxlen belongs (a :: history) rings' := by
  intro k
  rw [hadd k, List.filter_cons]
  split
  · exact (h k).append a
  · exact h k

private theorem push_get (rings : Entries K (List Activation)) (n : Nat) (a : Activation) (key k : K) :
    ((push rings n a key).get k).getD [] =
      if key = k then append n ((rings.get k).getD []) a else (rings.get k).getD [] := by
  unfold push
  rcases eq_or_ne key k with rfl | hne
  · rw [Entries.get_set, if_pos rfl]
    rfl
  · rw [Entries.get_set_ne hne.symm, if_neg hne]

private theorem pushes_get (n : Nat) (a : Activation) (k : K) : ∀ (keys : List K), keys.Nodup →
    ∀ rings : Entries K (List Activation), ((keys.foldl (fun r key => push r n a key) rings).get k).getD [] =
      if k ∈ keys then append n ((rings.get k).getD []) a else (rings.get k).getD []
  | [], _, rings => by simp
  | key :: keys, hnd, rings => by
    obtain ⟨hkey, hnd⟩ := List.nodup_cons.mp hnd
    rw [List.foldl_cons, pushes_get n a k keys hnd, push_get]
    rcases eq_or_ne key k with rfl | hne
    · simp [hkey]
    · simp [hne, hne.symm]

private theorem mem_members {rings : Entries K (List Activation)} {id : Nat} :
    id ∈ CandidateIndex.members rings ↔ ∃ k, ∃ a ∈ (rings.get k).getD [], a.alarm_id = id := by
  unfold CandidateIndex.members
  simp only [Finset.mem_biUnion, List.mem_toFinset, List.mem_map]
  refine exists_congr fun k => ⟨fun h => h.2, fun h => ⟨?_, h⟩⟩
  obtain ⟨a, ha, -⟩ := h
  rw [rings.mem_keys]
  cases hk : rings.get k with
  | none => rw [hk] at ha; exact nomatch ha
  | some ring => rfl

private theorem members_filter {rings : Entries K (List Activation)} {p : K → List Activation → Bool} {id : Nat}
    (h : id ∈ CandidateIndex.members (rings.filter p)) : id ∈ CandidateIndex.members rings := by
  obtain ⟨k, a, ha, hid⟩ := mem_members.mp h
  refine mem_members.mpr ⟨k, a, ?_, hid⟩
  have ha : a ∈ ((rings.get k).filter (p k)).getD [] := ha
  rcases hk : rings.get k with _ | ring
  · rw [hk] at ha
    exact nomatch ha
  · rw [hk] at ha
    rcases hp : p k ring with _ | _
    · simp [Option.filter, hp] at ha
    · simpa [Option.filter, hp] using ha

private theorem mem_append {n : Nat} {ring : List Activation} {a b : Activation} (h : b ∈ append n ring a) :
    b ∈ ring ∨ b = a := by
  have := List.mem_of_mem_drop h
  simpa using this

variable {a : Activation}

private theorem members_add {rings rings' : Entries K (List Activation)} {belongs : K → Prop}
    [DecidablePred belongs] {n : Nat} {id : Nat} (hadd : ∀ k, (rings'.get k).getD [] =
      if belongs k then append n ((rings.get k).getD []) a else (rings.get k).getD [])
    (h : id ∈ CandidateIndex.members rings') : id ∈ CandidateIndex.members rings ∨ id = a.alarm_id := by
  obtain ⟨k, b, hb, rfl⟩ := mem_members.mp h
  rw [hadd k] at hb
  split at hb
  · rcases mem_append hb with hb | rfl
    · exact .inl (mem_members.mpr ⟨k, b, hb, rfl⟩)
    · exact .inr rfl
  · exact .inl (mem_members.mpr ⟨k, b, hb, rfl⟩)

end Histories

/-- The rings hold the last of the history, but for what is beyond the horizon; and the live ids that they may
propose are those of what stands. -/
structure Tracks (horizon : ℚ) (events : List RingEvent) (s : Retrieval) : Prop where
  by_ne : Family horizon PER_NE (fun ne a => a.device_id = ne) (raised events) s.index.by_ne
  by_parent : Family horizon PER_PARENT (fun parent a => parent_of a.arcs = parent) (raised events) s.index.by_parent
  by_named : Family horizon PER_REF (fun address a => address ∈ a.refs) (raised events) s.index.by_named
  live : ∀ id ∈ s.live, standing events id
  kept : ∀ id, standing events id → id ∈ s.index.proposable → id ∈ s.live

private theorem mem_proposable {i : CandidateIndex} {id : Nat} : id ∈ i.proposable ↔
    id ∈ CandidateIndex.members i.by_ne ∨ id ∈ CandidateIndex.members i.by_parent ∨
      id ∈ CandidateIndex.members i.by_named := by
  unfold CandidateIndex.proposable
  rw [Finset.mem_union, Finset.mem_union, or_assoc]

section Steps
variable {events : List RingEvent} {horizon : ℚ} {s : Retrieval}

private theorem tracks_start : Tracks horizon [] {} := by
  have hnil : ∀ n, Traces horizon n [] [] := fun n => ⟨[], [], rfl, by simp, fun _ ha => nomatch ha⟩
  refine ⟨fun _ => hnil _, fun _ => hnil _, fun _ => hnil _, fun _ h => ?_, fun _ h => nomatch h⟩
  exact absurd h (Finset.notMem_empty _)

private theorem Tracks.add (h : Tracks horizon events s) (a : Activation) :
    Tracks horizon (events ++ [.add a]) (s.step (.add a)) := by
  have hne := push_get s.index.by_ne PER_NE a a.device_id
  have hparent := push_get s.index.by_parent PER_PARENT a (parent_of a.arcs)
  have hnamed : ∀ k, (((s.index.add a).by_named.get k).getD []) = if k ∈ a.refs then
      append PER_REF ((s.index.by_named.get k).getD []) a else (s.index.by_named.get k).getD [] := fun k => by
    refine (pushes_get PER_REF a k (ordered a.refs) (Finset.sort_nodup _ _) _).trans ?_
    simp only [mem_ordered]
  refine ⟨?_, ?_, ?_, fun id hid => ?_, fun id hid hmem => ?_⟩
  · rw [raised_snoc]
    exact h.by_ne.add a fun k => (hne k).trans (by simp only [decide_eq_true_eq])
  · rw [raised_snoc]
    exact h.by_parent.add a fun k => (hparent k).trans (by simp only [decide_eq_true_eq])
  · rw [raised_snoc]
    exact h.by_named.add a fun k => (hnamed k).trans (by simp only [decide_eq_true_eq])
  · rw [standing_snoc]
    rcases Finset.mem_insert.mp hid with rfl | hid
    · simp
    · simp [h.live id hid]
  · rw [standing_snoc] at hid
    refine Finset.mem_insert.mpr ?_
    rcases eq_or_ne id a.alarm_id with rfl | hneq
    · exact .inl rfl
    refine .inr (h.kept id (by simpa [hneq.symm] using hid) (mem_proposable.mpr ?_))
    rcases mem_proposable.mp hmem with hm | hm | hm
    · exact .inl ((members_add hne hm).resolve_right hneq)
    · exact .inr (.inl ((members_add hparent hm).resolve_right hneq))
    · exact .inr (.inr ((members_add hnamed hm).resolve_right hneq))

private theorem Tracks.clear (h : Tracks horizon events s) (cleared : Nat) :
    Tracks horizon (events ++ [.clear cleared]) (s.step (.clear cleared)) := by
  refine ⟨?_, ?_, ?_, fun id hid => ?_, fun id hid hmem => ?_⟩
  · rw [raised_snoc]
    exact h.by_ne
  · rw [raised_snoc]
    exact h.by_parent
  · rw [raised_snoc]
    exact h.by_named
  · obtain ⟨hne, hid⟩ := Finset.mem_erase.mp hid
    simp [standing_snoc, h.live id hid, hne.symm]
  · rw [standing_snoc] at hid
    obtain ⟨hid, hne⟩ := Bool.and_eq_true_iff.mp hid
    exact Finset.mem_erase.mpr ⟨fun he => of_decide_eq_true hne he.symm, h.kept id hid hmem⟩

private theorem Tracks.prune (h : Tracks horizon events s) (hord : (raised events).Pairwise fun a b => b.ts ≤ a.ts)
    {now : ℚ} (hnow : now ≤ horizon) (window : Finset Nat) :
    Tracks horizon (events ++ [.prune now window]) (s.step (.prune now window)) := by
  refine ⟨?_, ?_, ?_, fun id hid => ?_, fun id hid hmem => ?_⟩
  · rw [raised_snoc]
    exact h.by_ne.prune (by decide) hord hnow
  · rw [raised_snoc]
    exact h.by_parent.prune (by decide) hord hnow
  · rw [raised_snoc]
    exact h.by_named.prune (by decide) hord hnow
  · rw [standing_snoc]
    exact h.live id (Finset.mem_inter.mp hid).1
  · rw [standing_snoc] at hid
    have hbefore : id ∈ s.index.proposable := mem_proposable.mpr <|
      (mem_proposable.mp hmem).imp members_filter (·.imp members_filter members_filter)
    exact Finset.mem_inter.mpr ⟨h.kept id hid hbefore, Finset.mem_union_right _ hmem⟩

private theorem tracks_run {new : Activation} (events : List RingEvent) (hord : InOrder events new) :
    Tracks new.ts events (run Retrieval.step {} events) := by
  induction events using List.reverseRecOn with
  | nil => exact tracks_start
  | append_singleton events e ih =>
    obtain ⟨hsorted, hsweeps⟩ := hord
    rw [raised_snoc] at hsorted
    have hbefore : InOrder events new := by
      refine ⟨hsorted.sublist ((List.sublist_append_right _ _).cons_cons _), fun now window h => ?_⟩
      exact hsweeps now window (List.mem_append_left _ h)
    rw [run_append]
    cases e with
    | add a => exact (ih hbefore).add a
    | clear id => exact (ih hbefore).clear id
    | prune now window =>
      exact (ih hbefore).prune (List.pairwise_cons.mp hbefore.1).2 (hsweeps now window (by simp)) window

end Steps

section Picks
variable {wanted : Activation → Bool} {out : List Activation}

/-- A ring newest first is read as a source is. -/
private theorem take_eq (new : Activation) (live exclude : Nat → Bool) (budget : Nat) (ring : List Activation)
    (hord : ring.Pairwise fun a b => b.ts ≤ a.ts) (taken : Nat) (out : List Activation) :
    take new live exclude budget ring taken out = out ++ (firsts (·.alarm_id) (ring.filter fun a =>
      (within new.ts a && a.alarm_id ≠ new.alarm_id && !exclude a.alarm_id && live a.alarm_id) &&
        out.all (·.alarm_id ≠ a.alarm_id))).take (min (budget - taken) (MAX_RECALL - out.length)) := by
  induction ring generalizing taken out with
  | nil => simp [take, firsts]
  | cons a rest ih =>
    obtain ⟨hle, hord⟩ := List.pairwise_cons.mp hord
    unfold take
    split
    · rename_i hstop
      simp only [Bool.or_eq_true, decide_eq_true_eq] at hstop
      rcases hstop with (hold | hbudget) | hfull
      · -- what comes after an entry that is too old is too old
        rw [List.filter_eq_nil_iff.mpr, firsts, List.take_nil, List.append_nil]
        intro b hb
        have hts : b.ts ≤ a.ts := by
          rcases List.mem_cons.mp hb with rfl | hb
          · exact le_rfl
          · exact hle b hb
        have : RING_S < new.ts - b.ts := by linarith
        simp [within, this]
      · rw [Nat.sub_eq_zero_of_le hbudget, Nat.zero_min, List.take_zero, List.append_nil]
      · rw [Nat.sub_eq_zero_of_le hfull, Nat.min_zero, List.take_zero, List.append_nil]
    rename_i hgo
    simp only [Bool.or_eq_true, decide_eq_true_eq, not_or, not_lt, not_le] at hgo
    obtain ⟨⟨hrecent, hbudget⟩, hroom⟩ := hgo
    split
    · rename_i hskip
      rw [ih hord, List.filter_cons_of_neg]
      simp only [Bool.or_eq_true, decide_eq_true_eq, List.any_eq_true, Bool.not_eq_true'] at hskip
      simp only [Bool.and_eq_true, decide_eq_true_eq, List.all_eq_true, Bool.not_eq_true', not_and]
      rintro ⟨⟨⟨-, hid⟩, hex⟩, hlive⟩ hall
      rcases hskip with ((hs | ⟨b, hb, hs⟩) | hs) | hs
      · exact hid hs
      · exact hall b hb hs
      · rw [hs] at hex; cases hex
      · rw [hs] at hlive; cases hlive
    · rename_i htake
      simp only [Bool.or_eq_true, decide_eq_true_eq, List.any_eq_true, Bool.not_eq_true', not_or, not_exists,
        not_and, Bool.not_eq_true, Bool.not_eq_false] at htake
      obtain ⟨⟨⟨hid, hnew⟩, hex⟩, hlive⟩ := htake
      have hok : (within new.ts a && a.alarm_id ≠ new.alarm_id && !exclude a.alarm_id && live a.alarm_id &&
          out.all (·.alarm_id ≠ a.alarm_id)) = true := by
        simp only [Bool.and_eq_true, decide_eq_true_eq, List.all_eq_true, Bool.not_eq_true']
        exact ⟨⟨⟨⟨by simpa [within] using hrecent, hid⟩, hex⟩, hlive⟩, hnew⟩
      obtain ⟨n, hn⟩ : ∃ n, min (budget - taken) (MAX_RECALL - out.length) = n + 1 :=
        ⟨min (budget - taken) (MAX_RECALL - out.length) - 1, by omega⟩
      have hlen : min (budget - (taken + 1)) (MAX_RECALL - (out ++ [a]).length) = n := by
        rw [List.length_append, List.length_singleton]
        omega
      rw [ih hord, List.filter_cons, if_pos hok, firsts_cons, hn, hlen, List.take_succ_cons, List.append_assoc,
        List.singleton_append, ← firsts_filter_key (fun id => decide (id ≠ a.alarm_id)), List.filter_filter]
      congr 5
      funext b
      simp only [List.all_append, List.all_cons, List.all_nil, Bool.and_true, ne_comm]
      rw [Bool.and_comm (out.all _), ← Bool.and_assoc, ← Bool.and_assoc, Bool.and_comm _ (decide _)]

variable (wanted) in
private theorem pick_filter (source : List Activation × Nat) :
    pick wanted out source = pick (fun _ => true) out (source.1.filter wanted, source.2) := by
  unfold pick
  rw [List.filter_filter]
  simp only [Bool.and_comm, Bool.true_and]

private theorem mem_pick {source : List Activation × Nat} (h : a ∈ pick wanted out source) :
    a ∈ out ∨ a ∈ source.1 ∧ wanted a := by
  refine (List.mem_append.mp h).imp id fun h => ?_
  have := List.mem_filter.mp ((firsts_sublist _ _).subset (List.mem_of_mem_take h))
  exact ⟨this.1, (Bool.and_eq_true_iff.mp this.2).1⟩

private theorem pick_nodup (source : List Activation × Nat) (h : (out.map (·.alarm_id)).Nodup) :
    ((pick wanted out source).map (·.alarm_id)).Nodup := by
  unfold pick
  rw [List.map_append, List.nodup_append]
  refine ⟨h, (firsts_nodup _ _).sublist ((List.take_sublist _ _).map _), ?_⟩
  rintro _ hx _ hy rfl
  obtain ⟨b, hb, hid⟩ := List.mem_map.mp hx
  obtain ⟨a, ha, ha'⟩ := List.mem_map.mp hy
  have hfresh := (Bool.and_eq_true_iff.mp
    (List.mem_filter.mp ((firsts_sublist _ _).subset (List.mem_of_mem_take ha))).2).2
  exact of_decide_eq_true (List.all_eq_true.mp hfresh b hb) (hid.trans ha'.symm)

private theorem pick_length (source : List Activation × Nat) (h : out.length ≤ MAX_RECALL) :
    (pick wanted out source).length ≤ MAX_RECALL := by
  unfold pick
  rw [List.length_append, List.length_take]
  omega

private theorem pick_grows (source : List Activation × Nat) :
    (pick wanted out source).length ≤ out.length + source.1.length := by
  unfold pick
  rw [List.length_append, List.length_take]
  have h : (firsts (·.alarm_id) (source.1.filter fun a => wanted a && out.all (·.alarm_id ≠ a.alarm_id))).length ≤
      source.1.length := ((firsts_sublist _ _).trans List.filter_sublist).length_le
  omega

/-- A source no longer than its budget, with room for all of it, has every wanted alarm picked. -/
private theorem pick_covers {source : List Activation × Nat} (hb : source.1.length ≤ source.2)
    (hroom : out.length + source.1.length ≤ MAX_RECALL) (ha : a ∈ source.1) (hw : wanted a) :
    ∃ b ∈ pick wanted out source, b.alarm_id = a.alarm_id := by
  by_cases hin : ∃ b ∈ out, b.alarm_id = a.alarm_id
  · obtain ⟨b, hb, hid⟩ := hin
    exact ⟨b, List.mem_append_left _ hb, hid⟩
  have hmem : a ∈ source.1.filter fun a => wanted a && out.all (·.alarm_id ≠ a.alarm_id) := by
    refine List.mem_filter.mpr ⟨ha, Bool.and_eq_true_iff.mpr ⟨hw, List.all_eq_true.mpr fun b hb => ?_⟩⟩
    exact decide_eq_true fun hid => hin ⟨b, hb, hid⟩
  obtain ⟨b, hb', hid⟩ := exists_firsts (fun a : Activation => a.alarm_id) hmem
  refine ⟨b, List.mem_append_right _ ?_, hid⟩
  have hlen := ((firsts_sublist (fun a : Activation => a.alarm_id) _).trans
    (List.filter_sublist (p := fun a => wanted a && out.all (·.alarm_id ≠ a.alarm_id)) (l := source.1))).length_le
  rw [List.take_of_length_le (by omega)]
  exact hb'

end Picks

section Answers
variable {events : List RingEvent} {s : Retrieval} {new : Activation} {neighbours : List Nat} {exclude : Nat → Bool}

/-- What the loop over a ring asks of an entry. -/
def proposed (s : Retrieval) (new : Activation) (exclude : Nat → Bool) (a : Activation) : Bool :=
  within new.ts a && a.alarm_id ≠ new.alarm_id && !exclude a.alarm_id && a.alarm_id ∈ s.live

variable (exclude) in
private theorem Tracks.source {K : Type} [DecidableEq K] {belongs : K → Activation → Bool} {maxlen : Nat}
    {rings : Entries K (List Activation)} (h : Tracks new.ts events s)
    (hf : Family new.ts maxlen belongs (raised events) rings)
    (hmem : ∀ id ∈ CandidateIndex.members rings, id ∈ s.index.proposable) (k : K) :
    ((rings.get k).getD []).reverse.filter (proposed s new exclude) =
      (((raised events).filter (belongs k)).take maxlen).filter (eligible events new exclude) := by
  rw [(hf k).filter fun a ha => by
    unfold eligible at ha
    simp only [Bool.and_eq_true] at ha
    exact ha.1.1.1]
  refine List.filter_congr fun a ha => ?_
  have hp : a.alarm_id ∈ s.index.proposable := hmem _ (mem_members.mpr ⟨k, a, List.mem_reverse.mp ha, rfl⟩)
  have hlive : decide (a.alarm_id ∈ s.live) = standing events a.alarm_id := by
    rw [Bool.eq_iff_iff, decide_eq_true_eq]
    exact ⟨h.live _, fun hs => h.kept _ hs hp⟩
  unfold proposed eligible
  rw [hlive]

private theorem Tracks.sources (h : Tracks new.ts events s) :
    (s.index.rings new neighbours).map (fun r => ((r.1.getD []).reverse.filter (proposed s new exclude), r.2)) =
      (sources events s.index.ne_of.get new neighbours).map fun r =>
        (r.1.filter (eligible events new exclude), r.2) := by
  have hne := h.source exclude h.by_ne fun _ hid => mem_proposable.mpr (.inl hid)
  have hparent := h.source exclude h.by_parent fun _ hid => mem_proposable.mpr (.inr (.inl hid))
  have hnamed := h.source exclude h.by_named fun _ hid => mem_proposable.mpr (.inr (.inr hid))
  unfold CandidateIndex.rings Recall.sources
  simp only [List.map_append, List.map_map, List.map_cons, List.map_nil]
  congr 2
  · congr 1
    · exact Prod.ext (hne _) rfl
    congr 1
    · exact Prod.ext (hparent _) rfl
    congr 1
    by_cases h0 : new.source = ""
    · rw [if_pos h0, if_pos h0]
      rfl
    · rw [if_neg h0, if_neg h0]
      exact Prod.ext (hnamed _) rfl
  · refine List.map_congr_left fun ref _ => ?_
    dsimp only [Function.comp]
    cases s.index.ne_of.get ref with
    | none => rfl
    | some ne =>
      rw [Option.bind_some]
      by_cases hown : ne = new.device_id
      · rw [if_pos hown]
        simp only [if_pos hown]
        rfl
      · rw [if_neg hown]
        simp only [if_neg hown]
        exact Prod.ext (hne _) rfl
  · funext ne
    exact Prod.ext (hne ne) rfl

private theorem Tracks.ring_sorted (h : Tracks new.ts events s)
    (hord : (raised events).Pairwise fun a b => b.ts ≤ a.ts) {r : Option (List Activation) × Nat}
    (hr : r ∈ s.index.rings new neighbours) :
    (r.1.getD []).reverse.Pairwise fun a b => b.ts ≤ a.ts := by
  have hne : ∀ ne, ((s.index.by_ne.get ne).getD []).reverse.Pairwise fun a b => b.ts ≤ a.ts := fun ne =>
    (h.by_ne ne).sorted (hord.sublist List.filter_sublist)
  unfold CandidateIndex.rings at hr
  simp only [List.mem_append, List.mem_cons, List.mem_map, List.not_mem_nil, or_false] at hr
  rcases hr with ((rfl | rfl | rfl) | ⟨ref, -, rfl⟩) | ⟨ne, -, rfl⟩
  · exact hne _
  · exact (h.by_parent _).sorted (hord.sublist List.filter_sublist)
  · dsimp only
    split
    · exact .nil
    · exact (h.by_named _).sorted (hord.sublist List.filter_sublist)
  · dsimp only
    cases s.index.ne_of.get ref with
    | none => exact .nil
    | some ne =>
      rw [Option.bind_some]
      split
      · exact .nil
      · exact hne ne
  · exact hne ne

/-- What a ring adds to what the rings before it gave. -/
private def gather (live exclude : Nat → Bool) (new : Activation) (out : List Activation)
    (r : Option (List Activation) × Nat) : List Activation :=
  match r.1 with
  | none => out
  | some ring => take new live exclude r.2 ring.reverse 0 out

/-- What is recalled is picked from the history. -/
private theorem Tracks.recalls (h : Tracks new.ts events s) (hord : (raised events).Pairwise fun a b => b.ts ≤ a.ts) :
    s.recalls new neighbours exclude = ((Recall.sources events s.index.ne_of.get new neighbours).foldl
      (pick (eligible events new exclude)) []).mergeSort CandidateIndex.earlier := by
  have hfold : ∀ (out : List Activation), ∀ r ∈ s.index.rings new neighbours,
      gather (· ∈ s.live) exclude new out r =
        pick (fun _ => true) out ((r.1.getD []).reverse.filter (proposed s new exclude), r.2) := by
    intro out r hr
    have hsorted := h.ring_sorted hord hr
    obtain ⟨ring, budget⟩ := r
    rw [← pick_filter (proposed s new exclude) ((ring.getD []).reverse, budget)]
    cases ring with
    | none => exact (List.append_nil out).symm.trans (by simp [pick, firsts])
    | some ring => exact take_eq new _ exclude budget _ hsorted 0 out
  refine congrArg (List.mergeSort · CandidateIndex.earlier) ((List.foldl_ext _ _ _ hfold).trans ?_)
  rw [← List.foldl_map (f := fun r : Option (List Activation) × Nat =>
    ((r.1.getD []).reverse.filter (proposed s new exclude), r.2)) (g := pick fun _ => true), h.sources,
    List.foldl_map]
  exact List.foldl_ext _ _ _ fun out r _ => (pick_filter _ r).symm

section Latest

private theorem latest_mem (ha : a ∈ raised events) :
    ∃ b, latest events a.alarm_id = some b ∧ b ∈ raised events ∧ b.alarm_id = a.alarm_id := by
  obtain ⟨b, hb⟩ : ∃ b, latest events a.alarm_id = some b :=
    Option.isSome_iff_exists.mp (List.find?_isSome.mpr ⟨a, ha, decide_eq_true rfl⟩)
  exact ⟨b, hb, List.mem_of_find?_eq_some hb, by simpa using List.find?_some hb⟩

private theorem find_filter {α : Type} {p q : α → Bool} {l : List α} {a : α} (h : l.find? p = some a) (hq : q a) :
    (l.filter q).find? p = some a := by
  obtain ⟨hp, before, after, rfl, hbefore⟩ := List.find?_eq_some_iff_append.mp h
  refine List.find?_eq_some_iff_append.mpr ⟨hp, before.filter q, after.filter q, ?_, fun b hb => ?_⟩
  · rw [List.filter_append, List.filter_cons_of_pos hq]
  · exact hbefore b (List.mem_filter.mp hb).1

private theorem eligible_latest (hord : (raised events).Pairwise fun a b => b.ts ≤ a.ts) {a b : Activation}
    (ha : a ∈ raised events) (hel : eligible events new exclude a) (hb : latest events a.alarm_id = some b) :
    eligible events new exclude b := by
  have hid : b.alarm_id = a.alarm_id := by simpa using List.find?_some hb
  have hts : a.ts ≤ b.ts := by
    obtain ⟨-, before, after, hsplit, hbefore⟩ := List.find?_eq_some_iff_append.mp hb
    rw [hsplit] at ha hord
    rcases List.mem_append.mp ha with h | h
    · have := hbefore a h
      simp at this
    · rcases List.mem_cons.mp h with rfl | h
      · exact le_rfl
      · exact (List.pairwise_cons.mp (List.pairwise_append.mp hord).2.1).1 a h
  unfold eligible within at hel ⊢
  simp only [Bool.and_eq_true, Bool.not_eq_true', decide_eq_false_iff_not, not_lt, hid] at hel ⊢
  exact ⟨⟨⟨by linarith [hel.1.1.1], hel.1.1.2⟩, hel.1.2⟩, hel.2⟩

/-- In a source, the first eligible activation of an alarm is its latest, if that belongs there. -/
private theorem first_latest (hord : (raised events).Pairwise fun a b => b.ts ≤ a.ts) {belongs : Activation → Bool}
    {n : Nat} {a b : Activation}
    (ha : a ∈ firsts (·.alarm_id) ((((raised events).filter belongs).take n).filter (eligible events new exclude)))
    (hb : latest events a.alarm_id = some b) (hbelongs : belongs b) : a = b := by
  have hfirst := mem_firsts.mp ha
  obtain ⟨hmem, hel⟩ := List.mem_filter.mp ((firsts_sublist _ _).subset ha)
  have helb : eligible events new exclude b :=
    eligible_latest hord (List.mem_filter.mp (List.mem_of_mem_take hmem)).1 hel hb
  have hsome := find_filter hb hbelongs
  obtain ⟨c, hc⟩ : ∃ c, (((raised events).filter belongs).take n).find? (·.alarm_id = a.alarm_id) = some c :=
    Option.isSome_iff_exists.mp (List.find?_isSome.mpr ⟨a, hmem, decide_eq_true rfl⟩)
  rw [← List.take_append_drop n ((raised events).filter belongs), List.find?_append, hc, Option.some_or] at hsome
  obtain rfl := Option.some.inj hsome
  rw [find_filter hc helb] at hfirst
  exact (Option.some.inj hfirst).symm

/-- Where the eligible activations not picked yet are led by latest ones, only candidates are picked. -/
private theorem pick_candidate {out : List Activation} {source : List Activation × Nat}
    (h : ∀ a ∈ firsts (·.alarm_id) (source.1.filter (eligible events new exclude)),
      (∀ b ∈ out, b.alarm_id ≠ a.alarm_id) → latest events a.alarm_id = some a) :
    pick (eligible events new exclude) out source = pick (candidate events new exclude) out source := by
  unfold pick
  congr 2
  have hall : ∀ a ∈ firsts (·.alarm_id) ((source.1.filter (eligible events new exclude)).filter
      fun a => out.all (·.alarm_id ≠ a.alarm_id)), decide (latest events a.alarm_id = some a) := by
    intro a ha
    rw [firsts_filter_key fun id => out.all (·.alarm_id ≠ id)] at ha
    obtain ⟨ha, hfresh⟩ := List.mem_filter.mp ha
    exact decide_eq_true (h a ha fun b hb => of_decide_eq_true (List.all_eq_true.mp hfresh b hb))
  have hleft : source.1.filter (fun a => eligible events new exclude a && out.all (·.alarm_id ≠ a.alarm_id)) =
      (source.1.filter (eligible events new exclude)).filter fun a => out.all (·.alarm_id ≠ a.alarm_id) := by
    rw [List.filter_filter]
    exact List.filter_congr fun a _ => Bool.and_comm _ _
  have hright : source.1.filter (fun a => candidate events new exclude a && out.all (·.alarm_id ≠ a.alarm_id)) =
      ((source.1.filter (eligible events new exclude)).filter fun a => out.all (·.alarm_id ≠ a.alarm_id)).filter
        fun a => latest events a.alarm_id = some a := by
    rw [List.filter_filter, List.filter_filter]
    refine List.filter_congr fun a _ => ?_
    unfold candidate
    rw [Bool.and_comm, Bool.and_comm (eligible _ _ _ _), ← Bool.and_assoc, Bool.and_comm (out.all _)]
  rw [hleft, hright, firsts_filter hall]

end Latest

section Recalled
variable (hord : (raised events).Pairwise fun a b => b.ts ≤ a.ts) (hfix : Fixed events)
include hord hfix

/-- What a ring offers leads its alarm, where the activations of an alarm are all of the ring or none. -/
private theorem leads {belongs : Activation → Bool} {n : Nat}
    (hbelongs : ∀ b : Activation, b.device_id = a.device_id → parent_of b.arcs = parent_of a.arcs → belongs b = belongs a)
    (ha : a ∈ firsts (·.alarm_id) ((((raised events).filter belongs).take n).filter (eligible events new exclude))) :
    latest events a.alarm_id = some a := by
  have hmem := List.mem_filter.mp (List.mem_of_mem_take (List.mem_filter.mp ((firsts_sublist _ _).subset ha)).1)
  obtain ⟨b, hb, hraised, hid⟩ := latest_mem hmem.1
  obtain ⟨hne, hparent⟩ := hfix b hraised a hmem.1 hid
  rw [hb, first_latest hord ha hb ((hbelongs b hne hparent).trans hmem.2)]

private theorem leads_on {ne : Nat}
    (ha : a ∈ firsts (·.alarm_id) ((on events ne).filter (eligible events new exclude))) :
    latest events a.alarm_id = some a :=
  leads hord hfix (fun b hb _ => by rw [hb]) ha

/-- The element and the OID parent are read first: what they offer is recalled, in its latest activation. -/
private theorem first_sources (new : Activation) (exclude : Nat → Bool) : ∃ out : List Activation,
    pick (eligible events new exclude) (pick (eligible events new exclude) [] (on events new.device_id, PER_NE))
      (siblings events (parent_of new.arcs), PER_PARENT) = out ∧
    pick (candidate events new exclude) (pick (candidate events new exclude) [] (on events new.device_id, PER_NE))
      (siblings events (parent_of new.arcs), PER_PARENT) = out ∧
    out.length ≤ PER_NE + PER_PARENT ∧
    (∀ a ∈ out, (a ∈ on events new.device_id ∨ a ∈ siblings events (parent_of new.arcs)) ∧
      latest events a.alarm_id = some a) ∧
    ∀ a, a ∈ on events new.device_id ∨ a ∈ siblings events (parent_of new.arcs) → eligible events new exclude a →
      ∃ b ∈ out, b.alarm_id = a.alarm_id := by
  have hown : (on events new.device_id).length ≤ PER_NE := List.length_take_le _ _
  have hsib : (siblings events (parent_of new.arcs)).length ≤ PER_PARENT := List.length_take_le _ _
  have hfirst : pick (eligible events new exclude) [] (on events new.device_id, PER_NE) =
      pick (candidate events new exclude) [] (on events new.device_id, PER_NE) :=
    pick_candidate fun a ha _ => leads_on hord hfix ha
  set out := pick (candidate events new exclude) [] (on events new.device_id, PER_NE) with hout
  have hsecond : pick (eligible events new exclude) out (siblings events (parent_of new.arcs), PER_PARENT) =
      pick (candidate events new exclude) out (siblings events (parent_of new.arcs), PER_PARENT) :=
    pick_candidate fun a ha _ => leads hord hfix (fun b _ hb => by rw [hb]) ha
  have hlen : out.length ≤ PER_NE := by
    have : out.length ≤ [].length + (on events new.device_id).length := pick_grows _
    rw [List.length_nil] at this
    omega
  refine ⟨_, by rw [hfirst], hsecond.symm, ?_, fun a ha => ?_, fun a ha hel => ?_⟩
  · exact (pick_grows _).trans (Nat.add_le_add hlen hsib)
  · have hlatest : ∀ {b}, candidate events new exclude b → latest events b.alarm_id = some b := fun h =>
      of_decide_eq_true (Bool.and_eq_true_iff.mp h).2
    rw [hsecond] at ha
    rcases mem_pick ha with ha | ha
    · rcases mem_pick ha with ha | ha
      · exact nomatch ha
      · exact ⟨.inl ha.1, hlatest ha.2⟩
    · exact ⟨.inr ha.1, hlatest ha.2⟩
  · rcases ha with ha | ha
    · have hroom : ([] : List Activation).length + (on events new.device_id).length ≤ MAX_RECALL := by
        rw [List.length_nil, Nat.zero_add]
        exact hown.trans (by decide)
      obtain ⟨b, hb, hid⟩ : ∃ b ∈ pick (eligible events new exclude) [] (on events new.device_id, PER_NE),
          b.alarm_id = a.alarm_id := pick_covers hown hroom ha hel
      rw [hfirst] at hb
      exact ⟨b, List.mem_append_left _ hb, hid⟩
    · exact pick_covers hsib ((Nat.add_le_add hlen hsib).trans (by decide)) ha hel

end Recalled

section Folds
variable {wanted : Activation → Bool}

private theorem picks_nodup : ∀ (l : List (List Activation × Nat)) (out : List Activation),
    (out.map (·.alarm_id)).Nodup → ((l.foldl (pick wanted) out).map (·.alarm_id)).Nodup
  | [], _, h => h
  | source :: l, _, h => picks_nodup l _ (pick_nodup source h)

private theorem picks_length : ∀ (l : List (List Activation × Nat)) (out : List Activation),
    out.length ≤ MAX_RECALL → (l.foldl (pick wanted) out).length ≤ MAX_RECALL
  | [], _, h => h
  | source :: l, _, h => picks_length l _ (pick_length source h)

private theorem mem_picks : ∀ (l : List (List Activation × Nat)) (out : List Activation),
    a ∈ l.foldl (pick wanted) out → a ∈ out ∨ wanted a
  | [], _, h => .inl h
  | _ :: l, _, h => (mem_picks l _ h).elim (fun h => (mem_pick h).imp_right And.right) .inr

private theorem picks_keep : ∀ (l : List (List Activation × Nat)) (out : List Activation),
    a ∈ out → a ∈ l.foldl (pick wanted) out
  | [], _, h => h
  | _ :: l, _, h => picks_keep l _ (List.mem_append_left _ h)

end Folds

/-- The best candidates are what recall promises. -/
private theorem promised_best (ne_of : String → Option Nat) :
    Promised events ne_of new neighbours exclude (best events ne_of new neighbours exclude) := by
  have hperm := List.mergeSort_perm ((Recall.sources events ne_of new neighbours).foldl
    (pick (candidate events new exclude)) []) CandidateIndex.earlier
  have hall : ∀ a ∈ best events ne_of new neighbours exclude, candidate events new exclude a := fun a ha =>
    (mem_picks _ _ (hperm.mem_iff.mp ha)).resolve_left (nomatch ·)
  refine ⟨?_, fun a ha => ?_, fun a ha => ?_, fun a ha => ?_, ?_, rfl⟩
  · exact (hperm.map _).nodup_iff.mpr (picks_nodup _ _ .nil)
  · have h := hall a ha
    unfold candidate eligible at h
    simp only [Bool.and_eq_true, decide_eq_true_eq, Bool.not_eq_true'] at h
    exact ⟨h.1.2, h.1.1.1.2, h.1.1.2⟩
  · exact of_decide_eq_true (Bool.and_eq_true_iff.mp (hall a ha)).2
  · have h := hall a ha
    unfold candidate eligible within at h
    simp only [Bool.and_eq_true, Bool.not_eq_true', decide_eq_false_iff_not, not_lt] at h
    exact h.1.1.1.1
  · exact hperm.length_eq.trans_le (picks_length _ _ (Nat.zero_le _))

end Answers

/-- The rings and the live ids after a history. -/
def after (events : List RingEvent) : Retrieval := run Retrieval.step {} events

theorem recall_promised_iff (events : List RingEvent) (new : Activation) (neighbours : List Nat)
    (exclude : Nat → Bool) (hord : InOrder events new) (hfix : Fixed events) :
    Promised events (after events).index.ne_of.get new neighbours exclude
      ((after events).recalls new neighbours exclude) ↔ StillNamed events new exclude := by
  have hsorted := (List.pairwise_cons.mp hord.1).2
  set ne_of := (after events).index.ne_of.get with hne_of
  have hrecalls : (after events).recalls new neighbours exclude = ((sources events ne_of new neighbours).foldl
      (pick (eligible events new exclude)) []).mergeSort CandidateIndex.earlier :=
    (tracks_run events hord).recalls hsorted
  obtain ⟨out, heligible, hcandidate, hlen, hmem, hcovers⟩ := first_sources hsorted hfix new exclude
  set named : List Activation × Nat := (if new.source = "" then [] else naming events new.source, PER_REF) with hnamed
  set rest := (ordered new.refs).map (fun ref => ((match ne_of ref with
    | none => []
    | some ne => if ne = new.device_id then [] else on events ne, PER_REF) : List Activation × Nat)) ++
      neighbours.map fun ne => (on events ne, PER_NEIGHBOUR) with hrest
  have hsplit : ∀ wanted, (sources events ne_of new neighbours).foldl (pick wanted) [] =
      rest.foldl (pick wanted) (pick wanted (pick wanted (pick wanted [] (on events new.device_id, PER_NE))
        (siblings events (parent_of new.arcs), PER_PARENT)) named) := fun _ => rfl
  rw [hsplit, heligible] at hrecalls
  constructor
  · intro h hsource a ha hel b hb
    by_contra hno
    push Not at hno
    obtain ⟨hrefs, hon, hsib⟩ := hno
    have hsource : named.1 = naming events new.source := if_neg hsource
    have hshort : named.1.length ≤ PER_REF := by
      rw [hsource]
      exact List.length_take_le _ _
    -- nothing keeps the naming activation out: it is recalled, or an earlier one of its alarm
    obtain ⟨c, hc, hid⟩ : ∃ c ∈ pick (eligible events new exclude) out named, c.alarm_id = a.alarm_id :=
      pick_covers hshort ((Nat.add_le_add hlen hshort).trans (by decide)) (hsource ▸ ha) hel
    have hfound : c ∈ (after events).recalls new neighbours exclude := by
      rw [hrecalls]
      exact (List.mergeSort_perm _ _).mem_iff.mpr (picks_keep rest _ hc)
    have hlatest := h.latest c hfound
    rw [hid, hb] at hlatest
    obtain rfl := Option.some.inj hlatest
    rcases mem_pick hc with hc | hc
    · exact (hmem b hc).1.elim hon hsib
    · have hc := hsource ▸ hc.1
      exact hrefs (of_decide_eq_true (List.mem_filter.mp (List.mem_of_mem_take hc)).2)
  · intro h
    have hthird : pick (eligible events new exclude) out named = pick (candidate events new exclude) out named := by
      refine pick_candidate fun a ha hfresh => ?_
      obtain ⟨hin, hel⟩ := List.mem_filter.mp ((firsts_sublist _ _).subset ha)
      by_cases hsource : new.source = ""
      · rw [hnamed, if_pos hsource] at hin
        exact nomatch hin
      rw [hnamed, if_neg hsource] at hin ha
      have hraised := (List.mem_filter.mp (List.mem_of_mem_take hin)).1
      obtain ⟨b, hb, -, hid⟩ := latest_mem hraised
      rcases h hsource a hin hel b hb with hrefs | hfirst
      · rw [hb, first_latest hsorted ha hb (decide_eq_true hrefs)]
      · obtain ⟨c, hc, hcid⟩ := hcovers b hfirst (eligible_latest hsorted hraised hel hb)
        exact absurd (hcid.trans hid) (hfresh c hc)
    have hothers : ∀ (picked : List Activation), ∀ source ∈ rest,
        pick (eligible events new exclude) picked source = pick (candidate events new exclude) picked source := by
      intro picked source hs
      obtain hs | hs : source.1 = [] ∨ ∃ ne, source.1 = on events ne := by
        rcases List.mem_append.mp hs with hs | hs
        · obtain ⟨ref, -, rfl⟩ := List.mem_map.mp hs
          dsimp only
          split
          · exact .inl rfl
          · split
            · exact .inl rfl
            · exact .inr ⟨_, rfl⟩
        · obtain ⟨ne, -, rfl⟩ := List.mem_map.mp hs
          exact .inr ⟨ne, rfl⟩
      · exact pick_candidate fun a ha => by rw [hs] at ha; exact nomatch ha
      · obtain ⟨ne, hs⟩ := hs
        exact pick_candidate fun a ha _ => leads_on hsorted hfix (hs ▸ ha)
    have hbest : (after events).recalls new neighbours exclude = best events ne_of new neighbours exclude := by
      rw [hrecalls, hthird, List.foldl_ext _ _ _ hothers, best, hsplit, hcandidate]
    rw [hbest]
    exact promised_best ne_of

/-- An alarm of element 7 that names an address, and the alarm of the element behind it, ten minutes later. -/
theorem recall_promised_naming :
    let events := [RingEvent.add
      { alarm_id := 1, device_id := 7, class_id := 1, ts := 0, entity_id := 7, refs := {"10.0.0.9"} }]
    let new : Activation :=
      { alarm_id := 2, device_id := 9, class_id := 1, ts := 600, entity_id := 9, source := "10.0.0.9" }
    Promised events (after events).index.ne_of.get new [] (fun _ => false)
      ((after events).recalls new [] fun _ => false) := by
  refine (recall_promised_iff _ _ _ _ ⟨by decide +kernel, by simp⟩ ?_).mpr ?_
  · unfold Fixed
    decide +kernel
  · intro _ a ha _ b hb
    have hb := List.mem_of_find?_eq_some hb
    simp only [raised, List.filterMap_cons, List.filterMap_nil, List.reverse_singleton, List.mem_singleton] at hb
    subst hb
    exact .inl (Finset.mem_singleton_self _)

/-- The alarm is raised again without the address, and is recalled as it was before. -/
theorem renamed_recalled : ¬ ∀ (events : List RingEvent) (new : Activation) (neighbours : List Nat)
    (exclude : Nat → Bool), InOrder events new → Fixed events →
      Promised events (after events).index.ne_of.get new neighbours exclude
        ((after events).recalls new neighbours exclude) := by
  intro h
  let alarm : Activation :=
    { alarm_id := 1, device_id := 7, class_id := 1, ts := 0, entity_id := 7, arcs := ["1", "3", "1"] }
  set events := [RingEvent.add { alarm with refs := {"10.0.0.9"} }, .add { alarm with ts := 100 }] with hevents
  set new : Activation :=
    { alarm_id := 2, device_id := 9, class_id := 2, ts := 300, entity_id := 9, arcs := ["1", "4", "1"],
      source := "10.0.0.9" } with hnew
  have hpromised := h events new [] (fun _ => false) ⟨by decide +kernel, by simp [hevents]⟩
    (by unfold Fixed; decide +kernel)
  have hfound : ((after events).recalls new [] fun _ => false).map (fun a => (a.alarm_id, a.ts)) = [(1, 0)] := by
    decide +kernel
  obtain ⟨a, ha, hid⟩ := List.mem_map.mp (hfound ▸ List.mem_singleton_self ((1, 0) : Nat × ℚ))
  obtain ⟨hid, hts⟩ := Prod.mk.inj hid
  have hlatest : (latest events 1).map (·.ts) = some 100 := by decide +kernel
  rw [← hid, hpromised.latest a ha, Option.map_some, hts] at hlatest
  exact absurd (Option.some.inj hlatest) (by norm_num)

end NetCoreNoc.Correlate.Recall
