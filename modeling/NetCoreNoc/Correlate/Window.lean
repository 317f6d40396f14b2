import Mathlib
import NetCoreNoc.Runs
import NetCoreNoc.Correlate.Grouping

/-! The correlation window: which alarms an arriving one is compared with (`engine/correlate/
correlate.py`, `pairs.py`), and the ledger of activations that it is measured against. -/
namespace NetCoreNoc.Correlate
open Runs

/-- What the window, and candidate selection, need to know of an entry. -/
class WindowEntry (α : Type) where
  alarm_id : α → Nat
  ts : α → ℚ

open WindowEntry

/-- One activation, as the window sees it. -/
structure WindowAlarm where
  alarm_id : Nat
  class_id : Nat
  device_id : Nat
  ts : ℚ
  deriving DecidableEq, Repr

instance : WindowEntry WindowAlarm := ⟨(·.alarm_id), (·.ts)⟩

/-- Window occupancy that defines a storm. -/
def STORM_ALARMS : Nat := 50

/-- The correlator's window, and what it counts of it. -/
structure Correlator (α : Type) where
  window_s : ℚ := 120
  max_candidates : Nat := 100
  max_window : Nat := 20000
  /-- oldest first; what was removed stays until it is evicted -/
  window : List α := []
  index : Dict α := ∅
  live : Finset Nat := ∅
  overflow_dropped : Nat := 0

structure CorrelationResult (α : Type) where
  considered : List α
  burst : Nat
  storm : Bool

section Model
variable {α : Type} [WindowEntry α]

/-- The loop of `select_candidates`, over the window newest first. -/
def select (now window_s : ℚ) (max_candidates : Nat) (live : Nat → Bool) : List α → List α → List α
  | [], recent => recent
  | entry :: rest, recent =>
    if window_s < now - ts entry then recent
    else if !live (alarm_id entry) then select now window_s max_candidates live rest recent
    else if max_candidates ≤ (recent ++ [entry]).length then recent ++ [entry]
    else select now window_s max_candidates live rest (recent ++ [entry])

/-- `select_candidates`; where no liveness is given every entry qualifies. -/
def select_candidates (window : List α) (now window_s : ℚ) (max_candidates : Nat)
    (live : Option (Nat → Bool)) : List α :=
  (select now window_s max_candidates (live.getD fun _ => true) window.reverse []).reverse

/-- The first loop of `_evict`: what is too old leaves the window, and the index. -/
def ageOut (now window_s : ℚ) : List α → Dict α → List α × Dict α
  | [], index => ([], index)
  | oldest :: rest, index =>
    if window_s < now - ts oldest then ageOut now window_s rest (index.erase (alarm_id oldest))
    else (oldest :: rest, index)

namespace Correlator
variable (c : Correlator α)

/-- The second loop of `_evict`: the window's excess, oldest first. -/
def shed : Nat → Correlator α → Correlator α
  | 0, c => c
  | excess + 1, c => match c.window with
    | [] => c
    | oldest :: rest => shed excess { c with
        window := rest
        index := c.index.erase (alarm_id oldest)
        overflow_dropped := c.overflow_dropped + if alarm_id oldest ∈ c.index then 1 else 0 }

def evict (now : ℚ) : Correlator α :=
  let aged := ageOut now c.window_s c.window c.index
  shed (aged.1.length - c.max_window) { c with window := aged.1, index := aged.2 }

omit [WindowEntry α] in
def remove (alarm_id : Nat) : Correlator α :=
  { c with index := c.index.erase alarm_id, live := c.live.erase alarm_id }

def recent_live (now : ℚ) : List α :=
  select_candidates c.window now c.window_s c.max_candidates (some (· ∈ c.index))

/-- The alarm enters the window. -/
def enter (new : α) : Correlator α :=
  { c with
    window := c.window ++ [new]
    index := c.index.insert (alarm_id new) new
    live := insert (alarm_id new) c.live }

/-- `process`, up to the scoring of the candidates. -/
def process (new : α) : Correlator α × CorrelationResult α :=
  let c := (c.evict (ts new)).remove (alarm_id new)
  let burst := c.index.keys.length
  (c.enter new, ⟨c.recent_live (ts new), burst, STORM_ALARMS ≤ burst⟩)

omit [WindowEntry α] in
/-- Before the first call. -/
def start (window_s : ℚ) (max_candidates max_window : Nat) : Correlator α :=
  { window_s := window_s, max_candidates := max_candidates, max_window := max_window }

end Correlator

/-- What the engine asks of the correlator. -/
inductive Call (α : Type) where
  | process (new : α)
  | remove (alarm_id : Nat)

def Call.ts : Call α → Option ℚ
  | .process new => some (WindowEntry.ts new)
  | .remove _ => none

def Correlator.step (c : Correlator α) : Call α → Correlator α
  | .process new => (c.process new).1
  | .remove alarm_id => c.remove alarm_id

/-- The most recent activation of each alarm that was not removed since, in order. -/
def standing (calls : List (Call α)) : List α :=
  calls.foldl (fun s call => match call with
    | .process new => s.filter (alarm_id · ≠ alarm_id new) ++ [new]
    | .remove id => s.filter (alarm_id · ≠ id)) []

/-- No older than the window. -/
def fresh (window_s now : ℚ) (a : α) : Bool := !(window_s < now - ts a)

/-- The newest of what stands, in the window, when an alarm arrives. -/
def offered (window_s : ℚ) (max_candidates : Nat) (calls : List (Call α)) (new : α) : List α :=
  let within := (standing (calls ++ [.remove (alarm_id new)])).filter (fresh window_s (ts new))
  within.drop (within.length - max_candidates)

/-- The calls come in the order of their timestamps. -/
def Ordered (calls : List (Call α)) : Prop := (calls.filterMap Call.ts).Pairwise (· ≤ ·)

namespace Correlator

/-- When an alarm arrives, no other that is live has an entry in time beside an older one, and none is shed. -/
def Clean (c : Correlator α) : Call α → Prop
  | .process new =>
    let others := c.window.filter fun a => alarm_id a ≠ alarm_id new ∧ alarm_id a ∈ c.index
    let within := c.window.filter (fresh c.window_s (ts new))
    0 < c.max_candidates ∧
    (others.Pairwise fun a b => fresh c.window_s (ts new) b → alarm_id a ≠ alarm_id b) ∧
    ∀ a ∈ within.take (within.length - c.max_window), alarm_id a ∈ c.index → alarm_id a = alarm_id new
  | .remove _ => True

instance (c : Correlator α) (call : Call α) : Decidable (c.Clean call) := by
  cases call <;> unfold Clean <;> infer_instance

end Correlator
end Model

/-! The window by its activations. -/
namespace Window

/-- An activation in the window: it stands until its alarm is removed, or raised again. -/
structure Entry (α : Type) where
  alarm : α
  stands : Bool

/-- The window by its activations, and those that stood when the cap forced them out. -/
structure Ledger (α : Type) where
  entries : List (Entry α) := []
  shed : List α := []

variable {α : Type} [WindowEntry α]

def ended (id : Nat) (entries : List (Entry α)) : List (Entry α) :=
  entries.map fun e => { e with stands := e.stands && alarm_id e.alarm != id }

namespace Ledger

omit [WindowEntry α] in
/-- The alarms that are active inside the window. -/
def live (l : Ledger α) : List α := (l.entries.filter (·.stands)).map (·.alarm)

def within (l : Ledger α) (window_s now : ℚ) : List (Entry α) := l.entries.filter (fresh window_s now ·.alarm)

/-- What is too old leaves, then what exceeds the cap, the oldest first; then the arriving alarm's earlier
activation ends, and it is admitted. -/
def step (window_s : ℚ) (max_window : Nat) (l : Ledger α) : Call α → Ledger α
  | .process new =>
    let within := l.within window_s (ts new)
    let excess := within.length - max_window
    { entries := ended (alarm_id new) (within.drop excess) ++ [⟨new, true⟩]
      shed := l.shed ++ ((within.take excess).filter (·.stands)).map (·.alarm) }
  | .remove id => { l with entries := ended id l.entries }

end Ledger

def ledger (window_s : ℚ) (max_window : Nat) (calls : List (Call α)) : Ledger α :=
  run (Ledger.step window_s max_window) {} calls

/-- The index without the alarms of some entries. -/
def without (index : Dict α) (ids : List Nat) : Dict α := ids.foldl (fun i id => i.erase id) index

/-- The alarms of the list that an index names, each once. -/
def listed (index : Dict α) (ids : List Nat) : Finset Nat := ids.toFinset.filter (· ∈ index)

section Index
variable {index : Dict α} {ids : List Nat}

omit [WindowEntry α] in
theorem lookup_without (ids : List Nat) (index : Dict α) (id : Nat) :
    (without index ids).lookup id = if id ∈ ids then none else index.lookup id := by
  induction ids generalizing index with
  | nil => rfl
  | cons first ids ih =>
    refine (ih (index.erase first)).trans ?_
    rcases eq_or_ne id first with rfl | hne
    · simp [AList.lookup_erase]
    · simp [hne, AList.lookup_erase_ne hne]

omit [WindowEntry α] in
theorem mem_without {id : Nat} : id ∈ without index ids ↔ id ∉ ids ∧ id ∈ index := by
  rw [← AList.lookup_isSome, ← AList.lookup_isSome, lookup_without]
  split <;> simp_all

omit [WindowEntry α] in
theorem listed_cons (index : Dict α) (first : Nat) (ids : List Nat) :
    (listed index (first :: ids)).card =
      (if first ∈ index then 1 else 0) + (listed (index.erase first) ids).card := by
  have hrest : ∀ id ∈ ids.toFinset, id ∈ index.erase first ↔ id ≠ first ∧ id ∈ index := fun _ _ => AList.mem_erase
  unfold listed
  rw [Finset.filter_congr hrest, List.toFinset_cons, Finset.filter_insert]
  split
  · rename_i hin
    have heq : insert first (ids.toFinset.filter (· ∈ index)) =
        insert first (ids.toFinset.filter fun id => id ≠ first ∧ id ∈ index) := by
      ext id
      rcases eq_or_ne id first with rfl | hne
      · simp
      · simp [hne]
    rw [heq, Finset.card_insert_of_notMem (by simp), Nat.add_comm]
  · rename_i hin
    rw [Nat.zero_add]
    congr 1
    refine Finset.filter_congr fun id _ => (and_iff_right_of_imp ?_).symm
    rintro hid rfl
    exact hin hid

end Index

/-- What is in the window at a later time is in it at an earlier one. -/
theorem fresh_earlier {window_s now later : ℚ} {a : α} (hle : now ≤ later) (h : fresh window_s later a = true) :
    fresh window_s now a = true := by
  simp only [fresh, Bool.not_eq_true', decide_eq_false_iff_not, not_lt] at h ⊢
  linarith

/-- What comes after an entry that is in time is in time. -/
theorem fresh_later {window_s now : ℚ} {a b : α} (hle : ts a ≤ ts b) (h : fresh window_s now a = true) :
    fresh window_s now b = true := by
  simp only [fresh, Bool.not_eq_true', decide_eq_false_iff_not, not_lt] at h ⊢
  linarith

theorem ageOut_eq (now window_s : ℚ) (window : List α) (index : Dict α)
    (hs : window.Pairwise (ts · ≤ ts ·)) : ageOut now window_s window index =
      (window.filter (fresh window_s now),
        without index ((window.filter fun a => !fresh window_s now a).map alarm_id)) := by
  induction window generalizing index with
  | nil => rfl
  | cons oldest rest ih =>
    obtain ⟨hle, hrest⟩ := List.pairwise_cons.mp hs
    unfold ageOut
    split
    · rename_i hold
      have hf : fresh window_s now oldest = false := by simp [fresh, hold]
      rw [ih _ hrest, List.filter_cons_of_neg (by simp [hf]), List.filter_cons_of_pos (by simp [hf])]
      rfl
    · rename_i hnew
      have hf : fresh window_s now oldest = true := by simp [fresh, hnew]
      have hall : ∀ a ∈ oldest :: rest, fresh window_s now a = true :=
        List.forall_mem_cons.mpr ⟨hf, fun a ha => fresh_later (hle a ha) hf⟩
      have hnone : (oldest :: rest).filter (fun a => !fresh window_s now a) = [] :=
        List.filter_eq_nil_iff.mpr fun a ha => by simp [hall a ha]
      rw [List.filter_eq_self.mpr hall, hnone]
      rfl

/-- In a window in order, what is too old comes first. -/
theorem aged_append {now window_s : ℚ} {window : List α} (hs : window.Pairwise (ts · ≤ ts ·)) :
    (window.filter fun a => !fresh window_s now a) ++ window.filter (fresh window_s now) = window := by
  induction window with
  | nil => rfl
  | cons oldest rest ih =>
    obtain ⟨hle, hrest⟩ := List.pairwise_cons.mp hs
    cases hf : fresh window_s now oldest with
    | false => simp [hf, ih hrest]
    | true =>
      have hall : ∀ a ∈ rest, fresh window_s now a = true := fun a ha => fresh_later (hle a ha) hf
      simpa [hf, List.filter_eq_self.mpr hall] using hall

theorem shed_eq (excess : Nat) (c : Correlator α) : Correlator.shed excess c = { c with
    window := c.window.drop excess
    index := without c.index ((c.window.take excess).map alarm_id)
    overflow_dropped := c.overflow_dropped + (listed c.index ((c.window.take excess).map alarm_id)).card } := by
  induction excess generalizing c with
  | zero => simp [Correlator.shed, without, listed]
  | succ excess ih =>
    unfold Correlator.shed
    rcases c with ⟨window_s, max_candidates, max_window, window, index, live, overflow_dropped⟩
    cases window with
    | nil => rfl
    | cons oldest rest =>
      dsimp only
      rw [ih]
      simp only [List.drop_succ_cons, List.take_succ_cons, List.map_cons, listed_cons, Nat.add_assoc]
      rfl

/-- What an eviction of a window in order takes out: by age, then by the cap. -/
theorem evict_eq (c : Correlator α) (now : ℚ) (hs : c.window.Pairwise (ts · ≤ ts ·)) :
    let within := c.window.filter (fresh c.window_s now)
    let excess := within.length - c.max_window
    let index := without c.index ((c.window.filter fun a => !fresh c.window_s now a).map alarm_id)
    c.evict now = { c with
      window := within.drop excess
      index := without index ((within.take excess).map alarm_id)
      overflow_dropped := c.overflow_dropped + (listed index ((within.take excess).map alarm_id)).card } := by
  unfold Correlator.evict
  rw [ageOut_eq now c.window_s c.window c.index hs]
  dsimp only
  rw [shed_eq]

/-- An index that holds the activations that stand, each under its alarm. -/
def Holds (index : Dict α) (entries : List (Entry α)) : Prop :=
  ∀ id a, index.lookup id = some a ↔ ∃ e ∈ entries, e.stands = true ∧ e.alarm = a ∧ alarm_id a = id

/-- An activation that stands has no later one of its alarm. -/
def Newest (entries : List (Entry α)) : Prop :=
  entries.Pairwise fun e f => e.stands = true → alarm_id f.alarm ≠ alarm_id e.alarm

section Step
variable {index : Dict α} {entries out rest : List (Entry α)} {id : Nat}

theorem Holds.mem (h : Holds index entries) (id : Nat) :
    id ∈ index ↔ ∃ e ∈ entries, e.stands = true ∧ alarm_id e.alarm = id := by
  rw [← AList.lookup_isSome, Option.isSome_iff_exists]
  constructor
  · rintro ⟨a, ha⟩
    obtain ⟨e, he, hstands, rfl, hid⟩ := (h id a).mp ha
    exact ⟨e, he, hstands, hid⟩
  · rintro ⟨e, he, hstands, hid⟩
    exact ⟨e.alarm, (h id e.alarm).mpr ⟨e, he, hstands, rfl, hid⟩⟩

theorem mem_ended {e : Entry α} (he : e.stands = true) :
    e ∈ ended id entries ↔ e ∈ entries ∧ alarm_id e.alarm ≠ id := by
  unfold ended
  rw [List.mem_map]
  constructor
  · rintro ⟨f, hf, rfl⟩
    obtain ⟨hstands, hne⟩ := Bool.and_eq_true_iff.mp he
    have hsame : { f with stands := f.stands && alarm_id f.alarm != id } = f := by
      rw [hne, Bool.and_true]
    rw [hsame]
    exact ⟨hf, by simpa using hne⟩
  · rintro ⟨hf, hne⟩
    refine ⟨e, hf, ?_⟩
    rw [bne_iff_ne.mpr hne, Bool.and_true]

/-- Where no other alarm in the index has entries on both sides, taking one side out leaves the others' in it. -/
theorem Holds.without (h : Holds index entries) (hmem : ∀ e, e ∈ entries ↔ e ∈ out ∨ e ∈ rest)
    (hapart : ∀ e ∈ out, alarm_id e.alarm ∈ index → alarm_id e.alarm ≠ id →
      ∀ f ∈ rest, alarm_id f.alarm ≠ alarm_id e.alarm) :
    Holds ((without index (out.map (alarm_id ·.alarm))).erase id) (ended id rest) := by
  intro x a
  rcases eq_or_ne x id with rfl | hne
  · rw [AList.lookup_erase]
    refine iff_of_false (nomatch ·) ?_
    rintro ⟨e, he, hstands, rfl, hid⟩
    exact ((mem_ended hstands).mp he).2 hid
  rw [AList.lookup_erase_ne hne, lookup_without]
  split
  · rename_i hout
    obtain ⟨e, he, rfl⟩ := List.mem_map.mp hout
    refine iff_of_false (nomatch ·) ?_
    rintro ⟨f, hf, hstands, rfl, hid⟩
    obtain ⟨hf, -⟩ := (mem_ended hstands).mp hf
    have hin : alarm_id e.alarm ∈ index := (h.mem _).mpr ⟨f, (hmem f).mpr (.inr hf), hstands, hid⟩
    exact hapart e he hin hne f hf hid
  · rename_i hout
    refine (h x a).trans ⟨?_, ?_⟩
    · rintro ⟨e, he, hstands, rfl, hid⟩
      rcases (hmem e).mp he with he | he
      · exact absurd (List.mem_map.mpr ⟨e, he, hid⟩) hout
      · exact ⟨e, (mem_ended hstands).mpr ⟨he, hid ▸ hne⟩, hstands, rfl, hid⟩
    · rintro ⟨e, he, hstands, hrest⟩
      exact ⟨e, (hmem e).mpr (.inr ((mem_ended hstands).mp he).1), hstands, hrest⟩

theorem Holds.ended (h : Holds index entries) (id : Nat) : Holds (index.erase id) (ended id entries) := by
  simpa [Window.without] using @Holds.without α _ index entries [] entries id h (by simp) (by simp)

theorem Holds.admit {new : α} (h : Holds (index.erase (alarm_id new)) (Window.ended (alarm_id new) entries)) :
    Holds ((index.erase (alarm_id new)).insert (alarm_id new) new) (Window.ended (alarm_id new) entries ++ [⟨new, true⟩]) := by
  intro x a
  rcases eq_or_ne x (alarm_id new) with rfl | hne
  · rw [AList.lookup_insert]
    refine ⟨fun ha => ⟨⟨new, true⟩, by simp, rfl, Option.some.inj ha, Option.some.inj ha ▸ rfl⟩, ?_⟩
    rintro ⟨e, he, hstands, rfl, hid⟩
    rcases List.mem_append.mp he with he | he
    · exact absurd hid ((mem_ended hstands).mp he).2
    · rw [List.mem_singleton.mp he]
  · rw [AList.lookup_insert_ne hne, h x a]
    refine exists_congr fun e => and_congr_left ?_
    rintro ⟨hstands, rfl, rfl⟩
    refine ⟨List.mem_append_left _, fun he => (List.mem_append.mp he).resolve_right fun he => ?_⟩
    rw [List.mem_singleton.mp he] at hne
    exact hne rfl

theorem Newest.ended (h : Newest entries) (id : Nat) : Newest (Window.ended id entries) := by
  refine List.pairwise_map.mpr (h.imp ?_)
  intro e f hef hstands
  exact hef (Bool.and_eq_true_iff.mp hstands).1

theorem Newest.admit (h : Newest entries) (new : α) : Newest (Window.ended (alarm_id new) entries ++ [⟨new, true⟩]) := by
  refine List.pairwise_append.mpr ⟨h.ended _, List.pairwise_singleton .., ?_⟩
  intro e he f hf hstands heq
  rw [List.mem_singleton.mp hf] at heq
  exact ((mem_ended hstands).mp he).2 heq.symm

end Step

/-- When an alarm arrives, no other alarm in the index has an older activation taken out of the window before its
newest, by age or by the cap. -/
def Apart (c : Correlator α) : Call α → Prop
  | .process new =>
    let within := c.window.filter (fresh c.window_s (ts new))
    let excess := within.length - c.max_window
    (∀ a ∈ c.window, fresh c.window_s (ts new) a = false → alarm_id a ∈ c.index → alarm_id a ≠ alarm_id new →
      ∀ b ∈ within, alarm_id b ≠ alarm_id a) ∧
    ∀ a ∈ within.take excess, alarm_id a ∈ c.index → alarm_id a ≠ alarm_id new →
      ∀ b ∈ within.drop excess, alarm_id b ≠ alarm_id a
  | .remove _ => True

/-- The correlator against its ledger, after some calls. -/
structure Tracked (window_s : ℚ) (max_window : Nat) (calls : List (Call α)) (c : Correlator α) : Prop where
  bound : c.window_s = window_s
  cap : c.max_window = max_window
  window : c.window = (ledger window_s max_window calls).entries.map (·.alarm)
  index : Holds c.index (ledger window_s max_window calls).entries
  newest : Newest (ledger window_s max_window calls).entries
  sorted : c.window.Pairwise (ts · ≤ ts ·)
  past : ∀ t, (∀ s ∈ calls.filterMap Call.ts, s ≤ t) → ∀ a ∈ c.window, ts a ≤ t

section Track
variable {window_s : ℚ} {max_window : Nat} {calls : List (Call α)} {c : Correlator α}

theorem ledger_append (calls : List (Call α)) (call : Call α) : ledger window_s max_window (calls ++ [call]) =
    (ledger window_s max_window calls).step window_s max_window call := by
  unfold ledger
  rw [run_append]
  rfl

theorem map_ended (id : Nat) (entries : List (Entry α)) :
    (ended id entries).map (·.alarm) = entries.map (·.alarm) := by
  simp [ended, Function.comp_def]

theorem standing_append (calls : List (Call α)) (call : Call α) : standing (calls ++ [call]) = match call with
    | .process new => (standing calls).filter (alarm_id · ≠ alarm_id new) ++ [new]
    | .remove id => (standing calls).filter (alarm_id · ≠ id) := by
  rw [standing, List.foldl_append, List.foldl_cons, List.foldl_nil]
  cases call <;> rfl

theorem ordered_left {before after : List (Call α)} (h : Ordered (before ++ after)) : Ordered before := by
  unfold Ordered at h ⊢
  rw [List.filterMap_append] at h
  exact (List.pairwise_append.mp h).1

theorem ordered_past {new : α} (h : Ordered (calls ++ [.process new])) : ∀ s ∈ calls.filterMap Call.ts, s ≤ ts new := by
  unfold Ordered at h
  rw [List.filterMap_append, List.pairwise_append] at h
  exact fun s hs => h.2.2 s hs (ts new) (by simp [Call.ts])

theorem ts_process (calls : List (Call α)) (new : α) :
    (calls ++ [Call.process new]).filterMap Call.ts = calls.filterMap Call.ts ++ [ts new] := by
  simp [Call.ts]

theorem ts_remove (calls : List (Call α)) (id : Nat) :
    (calls ++ [Call.remove (α := α) id]).filterMap Call.ts = calls.filterMap Call.ts := by
  simp [Call.ts]

/-- The entries of the window that are in time, and how many the cap forces out. -/
theorem Tracked.within (h : Tracked window_s max_window calls c) (now : ℚ) :
    c.window.filter (fresh c.window_s now) = ((ledger window_s max_window calls).within window_s now).map (·.alarm) := by
  rw [h.bound, h.window, List.filter_map]
  rfl

/-- What an eviction leaves, once the arriving alarm is removed: the entries within, without the excess. -/
theorem Tracked.cleared (h : Tracked window_s max_window calls c) {new : α} (hc : Apart c (.process new)) :
    let within := (ledger window_s max_window calls).within window_s (ts new)
    let rest := within.drop (within.length - max_window)
    let c' := (c.evict (ts new)).remove (alarm_id new)
    c'.window = rest.map (·.alarm) ∧ Holds c'.index (ended (alarm_id new) rest) ∧ c'.window_s = window_s ∧
      c'.max_window = max_window ∧ c'.max_candidates = c.max_candidates := by
  intro within rest c'
  obtain ⟨entries, hentries⟩ : ∃ entries, entries = (ledger window_s max_window calls).entries := ⟨_, rfl⟩
  obtain ⟨hold, hcap⟩ := hc
  have hexcess : (c.window.filter (fresh c.window_s (ts new))).length - c.max_window = within.length - max_window := by
    rw [h.within, List.length_map, h.cap]
  rw [hexcess] at hcap
  rw [h.within] at hold hcap
  rw [← List.map_take, ← List.map_drop] at hcap
  have hevict := evict_eq c (ts new) h.sorted
  dsimp only at hevict
  rw [hexcess, h.within, ← List.map_take, ← List.map_drop, List.map_map] at hevict
  have haged : (c.window.filter fun a => !fresh c.window_s (ts new) a) =
      (entries.filter fun e => !fresh window_s (ts new) e.alarm).map (·.alarm) := by
    rw [h.bound, h.window, List.filter_map, hentries]
    rfl
  -- what leaves by age and what leaves by the cap, on one side
  have hsides : ∀ e, e ∈ entries ↔ e ∈ (entries.filter fun e => !fresh window_s (ts new) e.alarm) ++
      within.take (within.length - max_window) ∨ e ∈ rest := by
    intro e
    have hparts : e ∈ within ↔ e ∈ within.take (within.length - max_window) ∨ e ∈ rest := by
      rw [← List.mem_append, List.take_append_drop]
    rw [List.mem_append, or_assoc, ← hparts, List.mem_filter, hentries]
    unfold within Ledger.within
    rw [List.mem_filter]
    cases fresh window_s (ts new) e.alarm <;> simp
  have hindex := @Holds.without α _ _ _ _ _ (alarm_id new) (hentries ▸ h.index) hsides ?_
  · refine ⟨congrArg Correlator.window hevict, ?_, (congrArg Correlator.window_s hevict).trans h.bound,
      (congrArg Correlator.max_window hevict).trans h.cap, (congrArg Correlator.max_candidates hevict).trans rfl⟩
    have herase : c'.index = (c.evict (ts new)).index.erase (alarm_id new) := rfl
    rw [herase, hevict, haged]
    simpa [without, List.foldl_append, Function.comp_def] using hindex
  · intro e he hin hne f hf
    rcases List.mem_append.mp he with he | he
    · obtain ⟨he, haged⟩ := List.mem_filter.mp he
      refine hold e.alarm ?_ ?_ hin hne _ (List.mem_map_of_mem (List.mem_of_mem_drop hf))
      · rw [h.window, ← hentries]
        exact List.mem_map_of_mem he
      · rw [h.bound]
        simpa using haged
    · exact hcap _ (List.mem_map_of_mem he) hin hne _ (List.mem_map_of_mem hf)

theorem Tracked.process (h : Tracked window_s max_window calls c) {new : α}
    (hord : Ordered (calls ++ [.process new])) (hc : Apart c (.process new)) :
    Tracked window_s max_window (calls ++ [.process new]) (c.process new).1 := by
  obtain ⟨hwindow, hindex, hbound, hcap, -⟩ := h.cleared hc
  obtain ⟨rest, hrest⟩ : ∃ rest, rest = ((ledger window_s max_window calls).within window_s (ts new)).drop
    (((ledger window_s max_window calls).within window_s (ts new)).length - max_window) := ⟨_, rfl⟩
  rw [← hrest] at hwindow hindex
  have hledger : (ledger window_s max_window (calls ++ [.process new])).entries =
      ended (alarm_id new) rest ++ [⟨new, true⟩] := by
    rw [ledger_append, hrest]
    rfl
  have hsub : rest.Sublist (ledger window_s max_window calls).entries := by
    rw [hrest]
    exact (List.drop_sublist ..).trans List.filter_sublist
  have hsubw : (rest.map (·.alarm)).Sublist c.window := h.window ▸ hsub.map _
  have hnext : (c.process new).1.window = rest.map (·.alarm) ++ [new] := by
    rw [← hwindow]
    rfl
  refine ⟨hbound, hcap, ?_, ?_, ?_, ?_, fun t ht => ?_⟩
  · rw [hnext, hledger, List.map_append, map_ended]
    rfl
  · rw [hledger]
    exact Holds.admit hindex
  · rw [hledger]
    exact Newest.admit (h.newest.sublist hsub) new
  · rw [hnext]
    refine List.pairwise_append.mpr ⟨h.sorted.sublist hsubw, List.pairwise_singleton .., ?_⟩
    intro a ha b hb
    rw [List.mem_singleton.mp hb]
    exact h.past _ (ordered_past hord) a (hsubw.subset ha)
  · rw [ts_process] at ht
    have hle := ht (ts new) (by simp)
    intro a ha
    rw [hnext] at ha
    rcases List.mem_append.mp ha with ha | ha
    · exact (h.past _ (ordered_past hord) a (hsubw.subset ha)).trans hle
    · rw [List.mem_singleton.mp ha]
      exact hle

theorem Tracked.step (h : Tracked window_s max_window calls c) {call : Call α}
    (hord : Ordered (calls ++ [call])) (hc : Apart c call) :
    Tracked window_s max_window (calls ++ [call]) (c.step call) := by
  cases call with
  | process new => exact h.process hord hc
  | remove id =>
    have hledger : ledger window_s max_window (calls ++ [.remove id]) =
        { ledger window_s max_window calls with entries := ended id (ledger window_s max_window calls).entries } :=
      ledger_append ..
    refine ⟨h.bound, h.cap, ?_, ?_, ?_, h.sorted, fun t ht => h.past t (ts_remove calls id ▸ ht)⟩
    · rw [hledger, map_ended]
      exact h.window
    · rw [hledger]
      exact h.index.ended id
    · rw [hledger]
      exact h.newest.ended id

theorem tracked_start (max_candidates : Nat) :
    Tracked window_s max_window [] (Correlator.start (α := α) window_s max_candidates max_window) := by
  refine ⟨rfl, rfl, rfl, fun x a => ?_, .nil, .nil, fun _ _ a ha => absurd ha List.not_mem_nil⟩
  refine iff_of_false (nomatch ·) ?_
  rintro ⟨e, he, -⟩
  exact absurd he List.not_mem_nil

end Track
end Window

section Selection
variable {α : Type} [WindowEntry α]

private theorem select_sorted {now window_s : ℚ} {max_candidates : Nat} (live : Nat → Bool)
    (entries recent : List α) (hs : entries.Pairwise fun a b => ts b ≤ ts a)
    (hr : recent.length < max_candidates) : select now window_s max_candidates live entries recent =
      recent ++ ((entries.filter (fresh window_s now)).filter fun a =>
        live (alarm_id a)).take (max_candidates - recent.length) := by
  induction entries generalizing recent with
  | nil => simp [select]
  | cons entry rest ih =>
    obtain ⟨hle, hrest⟩ := List.pairwise_cons.mp hs
    rw [select]
    split
    · rename_i hold
      have hall : (entry :: rest).filter (fresh window_s now) = [] := by
        refine List.filter_eq_nil_iff.mpr fun a ha hin => ?_
        have hts : ts a ≤ ts entry := by
          rcases List.mem_cons.mp ha with rfl | ha
          · exact le_rfl
          · exact hle a ha
        have := Window.fresh_later hts hin
        simp [fresh, hold] at this
      rw [hall]
      simp
    · rename_i hnew
      have hin : fresh window_s now entry = true := by simpa [fresh] using hnew
      rw [List.filter_cons, if_pos hin]
      cases hl : live (alarm_id entry) with
      | false => simpa [List.filter_cons, hl] using ih recent hrest hr
      | true =>
        obtain ⟨k, hk⟩ : ∃ k, max_candidates = recent.length + 1 + k := ⟨_, (Nat.add_sub_of_le hr).symm⟩
        have htake : max_candidates - recent.length = k + 1 := by omega
        simp only [Bool.not_true, Bool.false_eq_true, if_false, List.length_append, List.length_singleton]
        rw [List.filter_cons, if_pos hl, htake, List.take_succ_cons]
        split
        · have : k = 0 := by omega
          simp [this]
        · rw [ih (recent ++ [entry]) hrest (by simp; omega)]
          simp only [List.append_assoc, List.singleton_append, List.length_append, List.length_singleton]
          rw [show max_candidates - (recent.length + 1) = k by omega]

/-- The candidates of a window in order: the newest of its live entries that are not too old. -/
theorem select_candidates_sorted {window : List α} {now window_s : ℚ} {max_candidates : Nat}
    (live : Option (Nat → Bool)) (hs : window.Pairwise (ts · ≤ ts ·)) (hm : 0 < max_candidates) :
    let recent := (window.filter (fresh window_s now)).filter fun a => live.getD (fun _ => true) (alarm_id a)
    select_candidates window now window_s max_candidates live = recent.drop (recent.length - max_candidates) := by
  intro recent
  rw [select_candidates, select_sorted _ _ [] (List.pairwise_reverse.mpr hs) hm, List.nil_append,
    List.length_nil, Nat.sub_zero, List.filter_reverse, List.filter_reverse, List.reverse_take,
    List.reverse_reverse, List.length_reverse]

end Selection

namespace Correlator
open Window
variable {α : Type} [WindowEntry α] {window_s : ℚ} {max_window : Nat} {calls : List (Call α)} {c : Correlator α} {new : α}

/-- A clean arrival takes no older activation out before its newest. -/
theorem Clean.apart (hc : c.Clean (.process new)) (hs : c.window.Pairwise (ts · ≤ ts ·)) : Apart c (.process new) := by
  obtain ⟨-, hothers, hshed⟩ := hc
  refine ⟨fun a ha haged hin hne b hb heq => ?_, fun a ha hin hne => absurd (hshed a ha hin) hne⟩
  obtain ⟨hb, hfresh⟩ := List.mem_filter.mp hb
  have hmem : ∀ x ∈ c.window, alarm_id x = alarm_id a →
      x ∈ c.window.filter fun x => alarm_id x ≠ alarm_id new ∧ alarm_id x ∈ c.index := fun x hx hid =>
    List.mem_filter.mpr ⟨hx, by simp [hid, hne, hin]⟩
  -- of two entries the one in time is the later
  have hpairs := (hothers.and (hs.filter _)).imp
    (S := fun x y => fresh c.window_s (ts new) x ≠ fresh c.window_s (ts new) y → alarm_id x ≠ alarm_id y) fun {x y} h hxy => by
      refine h.1 ?_
      cases hx : fresh c.window_s (ts new) x with
      | true => exact fresh_later h.2 hx
      | false => exact Bool.eq_true_of_not_eq_false fun hy => hxy (hx.trans hy.symm)
  have : Std.Symm fun x y : α => fresh c.window_s (ts new) x ≠ fresh c.window_s (ts new) y → alarm_id x ≠ alarm_id y :=
    ⟨fun _ _ h hxy => (h hxy.symm).symm⟩
  have hdiffer : fresh c.window_s (ts new) b ≠ fresh c.window_s (ts new) a := by simp [haged, hfresh]
  exact hpairs.forall (hmem b hb heq) (hmem a ha rfl) (fun h => hdiffer (h ▸ rfl)) hdiffer heq

/-- What the cap forces out at a clean arrival does not stand, the arriving alarm's own apart. -/
theorem Clean.shed (hc : c.Clean (.process new)) (h : Tracked window_s max_window calls c) :
    let within := (ledger window_s max_window calls).within window_s (ts new)
    ∀ e ∈ within.take (within.length - max_window), e.stands = true → alarm_id e.alarm = alarm_id new := by
  intro within e he hstands
  have hshed := hc.2.2
  rw [h.within, List.length_map, ← List.map_take, h.cap] at hshed
  refine hshed e.alarm (List.mem_map_of_mem he) ((h.index.mem _).mpr ⟨e, ?_, hstands, rfl⟩)
  exact List.mem_of_mem_filter (List.mem_of_mem_take he)

theorem live_ended (id : Nat) (entries : List (Entry α)) : ((ended id entries).filter (·.stands)).map (·.alarm) =
    ((entries.filter (·.stands)).map (·.alarm)).filter (alarm_id · ≠ id) := by
  rw [List.filter_map, List.filter_filter, ended, List.filter_map, List.map_map]
  congr 1
  refine List.filter_congr fun e _ => ?_
  by_cases hid : alarm_id e.alarm = id <;> simp [hid]

/-- An arrival that sheds nothing else that stands: what is active, in time, and the arriving alarm last. -/
theorem live_process (hshed : let within := (ledger window_s max_window calls).within window_s (ts new)
      ∀ e ∈ within.take (within.length - max_window), e.stands = true → alarm_id e.alarm = alarm_id new) :
    let within := (ledger window_s max_window calls).within window_s (ts new)
    ((ended (alarm_id new) (within.drop (within.length - max_window))).filter (·.stands)).map (·.alarm) =
      ((ledger window_s max_window calls).live.filter (fresh window_s (ts new))).filter (alarm_id · ≠ alarm_id new) := by
  intro within
  have hlive : (ledger window_s max_window calls).live.filter (fresh window_s (ts new)) =
      (within.filter (·.stands)).map (·.alarm) := by
    rw [Ledger.live, List.filter_map, List.filter_comm]
    rfl
  have hnone : (((within.take (within.length - max_window)).filter (·.stands)).map (·.alarm)).filter
      (alarm_id · ≠ alarm_id new) = [] := by
    refine List.filter_eq_nil_iff.mpr fun a ha => ?_
    obtain ⟨e, he, rfl⟩ := List.mem_map.mp ha
    obtain ⟨he, hs⟩ := List.mem_filter.mp he
    simpa using hshed e he hs
  rw [live_ended, hlive]
  conv_rhs => rw [← List.take_append_drop (within.length - max_window) within, List.filter_append, List.map_append,
    List.filter_append, hnone, List.nil_append]

/-- What is active against what stands, at any time from the last call on. -/
def Agrees (window_s : ℚ) (max_window : Nat) (calls : List (Call α)) : Prop :=
  ∀ t, (∀ s ∈ calls.filterMap Call.ts, s ≤ t) →
    (ledger window_s max_window calls).live.filter (fresh window_s t) = (standing calls).filter (fresh window_s t)

/-- A clean call keeps the window against the calls so far. -/
theorem tracks_step (h : Tracked window_s max_window calls c) (hl : Agrees window_s max_window calls) {call : Call α}
    (hord : Ordered (calls ++ [call])) (hc : c.Clean call) :
    Tracked window_s max_window (calls ++ [call]) (c.step call) ∧ Agrees window_s max_window (calls ++ [call]) := by
  cases call with
  | remove id =>
    refine ⟨h.step hord trivial, fun t ht => ?_⟩
    rw [ts_remove] at ht
    rw [ledger_append, Ledger.live, Ledger.step, live_ended, standing_append, List.filter_comm]
    refine (congrArg _ (hl t ht)).trans ?_
    rw [List.filter_comm]
  | process new =>
    refine ⟨h.step hord (hc.apart h.sorted), fun t ht => ?_⟩
    rw [ts_process] at ht
    have hnow := hl (ts new) (ordered_past hord)
    have hlater (l : List α) : (l.filter (fresh window_s (ts new))).filter (fresh window_s t) =
        l.filter (fresh window_s t) := by
      rw [List.filter_filter]
      refine List.filter_congr fun a _ => ?_
      cases hf : fresh window_s t a with
      | true => simp [fresh_earlier (ht (ts new) (by simp)) hf]
      | false => rfl
    rw [ledger_append, Ledger.live, Ledger.step, List.filter_append, List.map_append, live_process (hc.shed h), hnow,
      standing_append]
    dsimp only
    rw [List.filter_append, List.filter_append]
    congr 1
    rw [List.filter_comm, hlater, List.filter_comm]

/-- A run of clean calls, in order, keeps the window against them. -/
theorem tracks_run (calls done : List (Call α)) (c : Correlator α) (h : Tracked window_s max_window done c)
    (hl : Agrees window_s max_window done) (hord : Ordered (done ++ calls)) (hc : Meets step Clean c calls) :
    Tracked window_s max_window (done ++ calls) (run step c calls) ∧ Agrees window_s max_window (done ++ calls) := by
  induction calls generalizing done c with
  | nil => rw [List.append_nil]; exact ⟨h, hl⟩
  | cons call calls ih =>
    have hcut : done ++ call :: calls = (done ++ [call]) ++ calls := by simp
    rw [hcut] at hord ⊢
    obtain ⟨hnext, hlnext⟩ := tracks_step h hl (ordered_left hord) hc.1
    exact ih _ _ hnext hlnext hord hc.2

/-- The entries that are live to an arriving alarm are those that stand. -/
theorem Clean.considered (hc : c.Clean (.process new)) (h : Tracked window_s max_window calls c) :
    let c' := (c.evict (ts new)).remove (alarm_id new)
    c'.window.filter (alarm_id · ∈ c'.index) =
      ((ledger window_s max_window calls).live.filter (fresh window_s (ts new))).filter (alarm_id · ≠ alarm_id new) := by
  intro c'
  obtain ⟨hwindow, hindex, -⟩ := h.cleared (hc.apart h.sorted)
  obtain ⟨rest, hrest⟩ : ∃ rest, rest = ((ledger window_s max_window calls).within window_s (ts new)).drop
    (((ledger window_s max_window calls).within window_s (ts new)).length - max_window) := ⟨_, rfl⟩
  rw [← live_process (hc.shed h), live_ended]
  rw [← hrest] at hwindow hindex ⊢
  have hsub : rest.Sublist ((ledger window_s max_window calls).within window_s (ts new)) := hrest ▸ List.drop_sublist ..
  -- of the alarms that are live and are not the arriving one, each has one entry
  have hone : (rest.filter fun e => alarm_id e.alarm ≠ alarm_id new ∧ alarm_id e.alarm ∈ c.index).Pairwise
      (alarm_id ·.alarm ≠ alarm_id ·.alarm) := by
    have hpairs := hc.2.1.filter (fresh c.window_s (ts new))
    rw [List.filter_comm, h.within, List.filter_map, List.pairwise_map] at hpairs
    refine (hpairs.sublist (hsub.filter _)).imp_of_mem fun {e f} _ hf hef => ?_
    refine hef ?_
    rw [h.bound]
    exact (List.mem_filter.mp (hsub.subset (List.mem_of_mem_filter hf))).2
  have hlive : ∀ e ∈ rest, alarm_id e.alarm ∈ c'.index ↔ e.stands = true ∧ alarm_id e.alarm ≠ alarm_id new := by
    intro e he
    refine ⟨fun hin => ?_, fun hs => (hindex.mem _).mpr ⟨e, (mem_ended hs.1).mpr ⟨he, hs.2⟩, hs.1, rfl⟩⟩
    obtain ⟨f, hf, hstands, hid⟩ := (hindex.mem _).mp hin
    obtain ⟨hf, hne⟩ := (mem_ended hstands).mp hf
    have hfin : alarm_id f.alarm ∈ c.index :=
      (h.index.mem _).mpr ⟨f, List.mem_of_mem_filter (hsub.subset hf), hstands, rfl⟩
    have : Std.Symm fun e f : Entry α => alarm_id e.alarm ≠ alarm_id f.alarm := ⟨fun _ _ => Ne.symm⟩
    by_cases hef : e = f
    · exact ⟨hef ▸ hstands, hid ▸ hne⟩
    · refine absurd hid.symm (hone.forall (List.mem_filter.mpr ⟨he, ?_⟩) (List.mem_filter.mpr ⟨hf, ?_⟩) hef)
      · simp [← hid, hne, hfin]
      · simp [hne, hfin]
  rw [hwindow, List.filter_map, List.filter_map, List.filter_filter]
  congr 1
  refine List.filter_congr fun e he => ?_
  simp [hlive e he, Bool.and_comm]

theorem standing_distinct (calls : List (Call α)) : (standing calls).Pairwise (alarm_id · ≠ alarm_id ·) := by
  induction calls using List.reverseRecOn with
  | nil => exact List.Pairwise.nil
  | append_singleton calls call ih =>
    rw [standing_append]
    cases call with
    | remove id => exact ih.filter _
    | process new =>
      refine List.pairwise_append.mpr ⟨ih.filter _, List.pairwise_singleton .., ?_⟩
      rintro a ha _ hb
      obtain rfl := List.mem_singleton.mp hb
      simpa using (List.mem_filter.mp ha).2

/-- The window's bounds are never written. -/
theorem max_candidates_run (calls : List (Call α)) (c : Correlator α) :
    (run step c calls).max_candidates = c.max_candidates := by
  have hshed (excess : Nat) (c : Correlator α) : (shed excess c).max_candidates = c.max_candidates := by
    rw [shed_eq]
  induction calls generalizing c with
  | nil => rfl
  | cons call calls ih =>
    refine (ih _).trans ?_
    cases call with
    | process new => exact hshed ..
    | remove id => rfl

/-- After a run of clean calls an arrival is compared with what stands, each alarm once. -/
theorem considered_offered (window_s : ℚ) (max_candidates max_window : Nat) (calls : List (Call α))
    (new : α) (hord : Ordered (calls ++ [.process new]))
    (hcalls : Meets step Clean (start window_s max_candidates max_window) calls)
    (hnew : (run step (start window_s max_candidates max_window) calls).Clean (.process new)) :
    let considered := ((run step (start window_s max_candidates max_window) calls).process new).2.considered
    considered = offered window_s max_candidates calls new ∧
      considered.Pairwise (alarm_id · ≠ alarm_id ·) := by
  intro considered
  obtain ⟨c, hc⟩ : ∃ c, c = run step (start window_s max_candidates max_window) calls := ⟨_, rfl⟩
  have hmax : c.max_candidates = max_candidates := hc ▸ max_candidates_run calls _
  have hrun : Tracked window_s max_window calls c ∧ Agrees window_s max_window calls := by
    rw [hc]
    exact tracks_run calls [] _ (tracked_start max_candidates) (fun _ _ => rfl) (ordered_left hord) hcalls
  obtain ⟨htracks, hagrees⟩ := hrun
  rw [← hc] at hnew
  obtain ⟨hwindow, -, hbound, -, hcand⟩ := htracks.cleared (hnew.apart htracks.sorted)
  have hlive := hnew.considered htracks
  obtain ⟨d, hd⟩ : ∃ d, d = (c.evict (ts new)).remove (alarm_id new) := ⟨_, rfl⟩
  rw [← hd] at hwindow hbound hcand hlive
  have hsub : d.window.Sublist (c.window.filter (fresh window_s (ts new))) := by
    have hwithin := htracks.within (ts new)
    rw [htracks.bound] at hwithin
    rw [hwindow, hwithin]
    exact (List.drop_sublist ..).map _
  have hfresh : d.window.filter (fresh d.window_s (ts new)) = d.window :=
    List.filter_eq_self.mpr fun a ha => hbound ▸ (List.mem_filter.mp (hsub.subset ha)).2
  have heq : considered = offered window_s max_candidates calls new := by
    have hconsidered : considered = d.recent_live (ts new) := by
      rw [hd, hc]
      rfl
    rw [hconsidered, recent_live, select_candidates_sorted _ (htracks.sorted.sublist (hsub.trans List.filter_sublist))
      (by rw [hcand]; exact hnew.1), hfresh]
    simp only [Option.getD_some]
    rw [hlive, hagrees (ts new) (ordered_past hord), hcand, hmax, offered, standing_append, List.filter_comm]
  refine ⟨heq, ?_⟩
  rw [heq]
  exact ((standing_distinct _).filter _).sublist (List.drop_sublist ..)

/-- An alarm is raised twice and removed, and is raised again after the window: the next arrival is compared with it. -/
theorem considered_offered_again :
    let calls : List (Call WindowAlarm) := [.process ⟨1, 1, 1, 0⟩, .process ⟨1, 1, 1, 1⟩, .remove 1, .process ⟨1, 1, 1, 122⟩]
    ((run step (start 120 100 20000) calls).process ⟨2, 1, 1, 123⟩).2.considered = offered 120 100 calls ⟨2, 1, 1, 123⟩ := by
  refine (considered_offered 120 100 20000 _ _ ?_ ?_ ?_).1
  · unfold Ordered
    decide +kernel
  · decide +kernel
  · decide +kernel

/-- An alarm that is raised again within the window is offered twice. -/
theorem superseded_offered : ¬ ∀ (calls : List (Call WindowAlarm)) (new : WindowAlarm), Ordered (calls ++ [.process new]) →
    ((run step (start 120 100 20000) calls).process new).2.considered = offered 120 100 calls new := by
  intro h
  have := h [.process ⟨1, 1, 1, 0⟩, .process ⟨1, 1, 1, 1⟩] ⟨2, 1, 1, 2⟩ (by unfold Ordered; decide +kernel)
  exact absurd this (by decide +kernel)

end Correlator
end NetCoreNoc.Correlate
