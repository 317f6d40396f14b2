import Mathlib
import NetCoreNoc.Bursts
import NetCoreNoc.Runs
import NetCoreNoc.Correlate.Learned

/-! How many separate occasions two things have gone wrong together (`engine/correlate/episodes.py`).
Instants are exact here; the database keeps them to the microsecond. -/
namespace NetCoreNoc.Correlate
open Writeback Bursts

namespace EpisodeTable
variable (t : EpisodeTable) (key : Key) (now : ℚ)

/-- The episodes before the current one. -/
def prior : Nat := match t.held.get key with
  | none => 0
  | some (count, last) => if now - last ≤ EPISODE_GAP_S then count - 1 else count

/-- What `observe` returns: whether it opened an episode. -/
def opened : Bool := match t.held.get key with
  | none => true
  | some (_, last) => EPISODE_GAP_S < now - last

def count : Nat := ((t.held.get key).map (·.1)).getD 0

end EpisodeTable

/-- The rows of `episode_pair`, by kind. -/
structure EpisodeRows where
  ne : Entries Key Episode := .empty
  cls : Entries Key Episode := .empty
  item : Entries Key Episode := .empty

/-- The three tables, and how often each element failed with each partner. -/
structure PartneredMemory extends EpisodeMemory where
  partners : Entries (Nat × Nat) Nat := .empty

namespace PartneredMemory
variable (e : PartneredMemory)

def ne_prior (a b : Nat) (now : ℚ) : Nat := if a = b then 0 else e.ne.prior (Key.pair [a] [b]) now

def cls_prior (a b : Nat) (now : ℚ) : Nat := e.cls.prior (Key.pair [a] [b]) now

def item_prior (a b : Nat × Nat) (now : ℚ) : Nat := e.item.prior (Key.pair [a.1, a.2] [b.1, b.2]) now

/-- One more episode of an element with a partner. -/
def partnered (partners : Entries (Nat × Nat) Nat) (x y : Nat) : Entries (Nat × Nat) Nat :=
  partners.set (x, y) ((partners.get (x, y)).getD 0 + 1)

def observe (a b : Nat × Nat) (now : ℚ) : PartneredMemory where
  toEpisodeMemory := e.toEpisodeMemory.observe a b now
  partners := if a.1 ≠ b.1 ∧ e.ne.opened (Key.pair [a.1] [b.1]) now then
      partnered (partnered e.partners a.1 b.1) b.1 a.1
    else e.partners

def prune (now : ℚ) : PartneredMemory :=
  let pruned := e.toEpisodeMemory.prune now
  { toEpisodeMemory := pruned
    partners := e.partners.filter fun p _ => Key.pair [p.1] [p.2] ∈ pruned.ne.held.keys }

def flushed : PartneredMemory := { e with toEpisodeMemory := e.toEpisodeMemory.flushed }

/-- The partners that a row of elements names. -/
def loadRow (rows : Entries Key Episode) (partners : Entries (Nat × Nat) Nat) (key : Key) : Entries (Nat × Nat) Nat :=
  match key, rows.get key with
  | [x, y], some (count, _) => (partners.set (x, y) count).set (y, x) count
  | _, _ => partners

def load (rows : EpisodeRows) : PartneredMemory where
  ne := ⟨rows.ne, ∅⟩
  cls := ⟨rows.cls, ∅⟩
  item := ⟨rows.item, ∅⟩
  partners := (ordered rows.ne.keys).foldl (loadRow rows.ne) .empty

/-- How often an element failed with another. -/
def together (x y : Nat) : Nat := (e.partners.get (x, y)).getD 0

end PartneredMemory

/-- A co-occurrence of two items, each an element and a class. -/
structure Observation where
  a : Nat × Nat
  b : Nat × Nat
  ts : ℚ

inductive EpisodeOp where
  | observe (o : Observation)
  | flush
  /-- a flush, and the load of a new process -/
  | restart

/-- The memory, and its rows in the database. -/
structure EpisodeStore where
  memory : PartneredMemory := {}
  rows : EpisodeRows := {}

namespace EpisodeStore
variable (s : EpisodeStore)

def flush : EpisodeStore where
  memory := s.memory.flushed
  rows := {
    ne := s.rows.ne.upsert (s.memory.ne.rows id)
    cls := s.rows.cls.upsert (s.memory.cls.rows id)
    item := s.rows.item.upsert (s.memory.item.rows id) }

def step : EpisodeStore → EpisodeOp → EpisodeStore
  | s, .observe o => { s with memory := s.memory.observe o.a o.b o.ts }
  | s, .flush => s.flush
  | s, .restart => { s.flush with memory := .load s.flush.rows }

end EpisodeStore

def EpisodeOp.observed : EpisodeOp → Option Observation
  | .observe o => some o
  | .flush | .restart => none

/-- The observations of a run. -/
def observations (ops : List EpisodeOp) : List Observation := ops.filterMap EpisodeOp.observed

/-- When a pair was observed, of whatever it is a pair of. -/
def times {β : Type} [DecidableEq β] (side : Observation → Sym2 β) (pair : Sym2 β) (history : List Observation) : List ℚ :=
  (history.filter fun o => side o = pair).map (·.ts)

def Observation.items (o : Observation) : Sym2 (Nat × Nat) := s(o.a, o.b)
def Observation.classes (o : Observation) : Sym2 Nat := s(o.a.2, o.b.2)
def Observation.elements (o : Observation) : Sym2 Nat := s(o.a.1, o.b.1)

/-- What a memory says of a history: its counts are the bursts of each pair. -/
structure Counts (e : PartneredMemory) (history : List Observation) : Prop where
  item : ∀ a b : Nat × Nat, e.item.count (Key.pair [a.1, a.2] [b.1, b.2]) =
    (bursts EPISODE_GAP_S (times Observation.items s(a, b) history)).length
  cls : ∀ a b, e.cls.count (Key.pair [a] [b]) = (bursts EPISODE_GAP_S (times Observation.classes s(a, b) history)).length
  ne : ∀ a b, a ≠ b → e.ne.count (Key.pair [a] [b]) = (bursts EPISODE_GAP_S (times Observation.elements s(a, b) history)).length
  together : ∀ a b, a ≠ b → e.together a b = (bursts EPISODE_GAP_S (times Observation.elements s(a, b) history)).length
  symmetric : ∀ a b, e.together a b = e.together b a

/-- What a memory tells of the past when a history has come to a time: the bursts that have ended. -/
structure Priors (e : PartneredMemory) (history : List Observation) (now : ℚ) : Prop where
  item : ∀ a b : Nat × Nat, e.item_prior a b now = (ended EPISODE_GAP_S now (times Observation.items s(a, b) history)).length
  cls : ∀ a b, e.cls_prior a b now = (ended EPISODE_GAP_S now (times Observation.classes s(a, b) history)).length
  ne : ∀ a b, a ≠ b → e.ne_prior a b now = (ended EPISODE_GAP_S now (times Observation.elements s(a, b) history)).length

/-- The observations come in the order of their timestamps. -/
def Chronological (ops : List EpisodeOp) : Prop := ((observations ops).map (·.ts)).Pairwise (· ≤ ·)

/-- A table that has the bursts of each key, and when it was last seen. -/
def EpisodeTable.Tracks (t : EpisodeTable) (seen : Key → List ℚ) : Prop := ∀ key,
  t.held.get key = (seen key).getLast?.map fun last => ((bursts EPISODE_GAP_S (seen key)).length, last)

namespace EpisodeTable.Tracks
variable {t : EpisodeTable} {seen : Key → List ℚ} {key : Key} {now : ℚ}

theorem count_eq (h : t.Tracks seen) : t.count key = (bursts EPISODE_GAP_S (seen key)).length := by
  unfold count
  rw [h key]
  cases hlast : (seen key).getLast? with
  | none => rw [List.getLast?_eq_none_iff.mp hlast]; rfl
  | some last => rfl

theorem prior_eq (h : t.Tracks seen) (hnow : ∀ s ∈ seen key, s ≤ now) :
    t.prior key now = (ended EPISODE_GAP_S now (seen key)).length := by
  unfold prior
  rw [h key]
  cases hlast : (seen key).getLast? with
  | none => rw [List.getLast?_eq_none_iff.mp hlast]; rfl
  | some last => exact (ended_length hlast hnow).symm

/-- An observation that is no earlier than any before it. -/
theorem observe (h : t.Tracks seen) (hnow : ∀ s ∈ seen key, s ≤ now) :
    (t.observe key now).Tracks (Function.update seen key (seen key ++ [now])) := by
  intro key'
  rcases eq_or_ne key' key with rfl | hne
  · rw [Function.update_self, List.getLast?_concat]
    unfold EpisodeTable.observe
    rw [h key']
    cases hlast : (seen key').getLast? with
    | none =>
      rw [List.getLast?_eq_none_iff.mp hlast]
      exact Entries.get_set _
    | some last =>
      have hle : last ≤ now := hnow last (List.mem_of_getLast? hlast)
      refine (Entries.get_set _).trans ?_
      rw [max_eq_right hle]
      split
      · rename_i hgap
        rw [Option.map_some, bursts_opened (by simpa [hlast] using hgap)]
      · rename_i hgap
        rw [Option.map_some, bursts_continued hlast (not_lt.mp hgap)]
  · rw [Function.update_of_ne hne, ← h key']
    unfold EpisodeTable.observe
    split <;> exact Entries.get_set_ne hne _

end EpisodeTable.Tracks

theorem Key.pair_comm (a b : Key) : Key.pair a b = Key.pair b a := by
  unfold Key.pair
  rcases lt_trichotomy a b with hlt | rfl | hlt
  · rw [if_pos hlt.le, if_neg (not_le.mpr hlt)]
  · rfl
  · rw [if_neg (not_le.mpr hlt), if_pos hlt.le]

/-- Of keys of one length, the pair tells which two they are. -/
theorem Key.pair_eq_iff {a b c d : Key} (hab : a.length = b.length) (hac : a.length = c.length) (hcd : c.length = d.length) :
    Key.pair a b = Key.pair c d ↔ s(a, b) = s(c, d) := by
  constructor
  · intro h
    unfold Key.pair at h
    rw [Sym2.eq_iff]
    split at h <;> split at h <;> obtain ⟨hfst, hsnd⟩ := List.append_inj h (by omega)
    · exact .inl ⟨hfst, hsnd⟩
    · exact .inr ⟨hfst, hsnd⟩
    · exact .inr ⟨hsnd, hfst⟩
    · exact .inl ⟨hsnd, hfst⟩
  · intro h
    rcases Sym2.eq_iff.mp h with ⟨rfl, rfl⟩ | ⟨rfl, rfl⟩
    · rfl
    · exact Key.pair_comm ..

/-- When a key was observed, of the keys that observations have. -/
def seen (key : Observation → Option Key) (history : List Observation) (k : Key) : List ℚ :=
  (history.filter fun o => key o = some k).map (·.ts)

def Observation.item_key (o : Observation) : Option Key := some (Key.pair [o.a.1, o.a.2] [o.b.1, o.b.2])
def Observation.cls_key (o : Observation) : Option Key := some (Key.pair [o.a.2] [o.b.2])
def Observation.ne_key (o : Observation) : Option Key := if o.a.1 ≠ o.b.1 then some (Key.pair [o.a.1] [o.b.1]) else none

section Seen
variable {key : Observation → Option Key} {history : List Observation} {o : Observation}

theorem seen_some {k : Key} (h : key o = some k) :
    seen key (history ++ [o]) = Function.update (seen key history) k (seen key history k ++ [o.ts]) := by
  funext k'
  unfold seen
  rcases eq_or_ne k' k with rfl | hne
  · rw [Function.update_self]
    simp [h]
  · rw [Function.update_of_ne hne]
    simp [h, hne.symm]

theorem seen_none (h : key o = none) : seen key (history ++ [o]) = seen key history := by
  funext k
  unfold seen
  simp [h]

theorem seen_le {k : Key} {now : ℚ} (h : ∀ o ∈ history, o.ts ≤ now) : ∀ t ∈ seen key history k, t ≤ now := by
  intro t ht
  obtain ⟨o, ho, rfl⟩ := List.mem_map.mp ht
  exact h o (List.mem_of_mem_filter ho)

end Seen

/-- The partners are what the table of elements counts, from either side. -/
def Mirrors (partners : Entries (Nat × Nat) Nat) (ne : Entries Key Episode) : Prop := ∀ x y,
  partners.get (x, y) = if x = y then none else (ne.get (Key.pair [x] [y])).map (·.1)

private theorem pair_single_iff {x y u v : Nat} : Key.pair [x] [y] = Key.pair [u] [v] ↔ s(x, y) = s(u, v) := by
  refine (Key.pair_eq_iff (a := [x]) (b := [y]) (c := [u]) (d := [v]) rfl rfl rfl).trans ?_
  simp

/-- Two entries of a pair, one for either side. -/
private theorem get_set_both {partners : Entries (Nat × Nat) Nat} {u v count : Nat} (x y : Nat) :
    ((partners.set (u, v) count).set (v, u) count).get (x, y) =
      if s(x, y) = s(u, v) then some count else partners.get (x, y) := by
  by_cases hpair : s(x, y) = s(u, v)
  · rw [if_pos hpair]
    rcases Sym2.eq_iff.mp hpair with ⟨rfl, rfl⟩ | ⟨rfl, rfl⟩
    · rcases eq_or_ne (x, y) (y, x) with heq | hne
      · rw [← heq]
        exact Entries.get_set _
      · exact (Entries.get_set_ne hne _).trans (Entries.get_set _)
    · exact Entries.get_set _
  · rw [if_neg hpair]
    rw [Sym2.eq_iff, not_or] at hpair
    refine (Entries.get_set_ne ?_ _).trans (Entries.get_set_ne ?_ _)
    · rintro ⟨rfl, rfl⟩
      exact hpair.2 ⟨rfl, rfl⟩
    · rintro ⟨rfl, rfl⟩
      exact hpair.1 ⟨rfl, rfl⟩

namespace PartneredMemory

variable {rows : Entries Key Episode}

private theorem get_loadRow {u v : Nat} {row : Episode}
    (hrow : rows.get (Key.pair [u] [v]) = some row) (partners : Entries (Nat × Nat) Nat) (x y : Nat) :
    (loadRow rows partners (Key.pair [u] [v])).get (x, y) =
      if s(x, y) = s(u, v) then some row.1 else partners.get (x, y) := by
  unfold Key.pair at hrow ⊢
  split at hrow
  · rename_i hle
    rw [if_pos hle]
    unfold loadRow
    simp only [List.cons_append, List.nil_append] at hrow ⊢
    rw [hrow]
    exact get_set_both x y
  · rename_i hle
    rw [if_neg hle, Sym2.eq_swap (a := u)]
    unfold loadRow
    simp only [List.cons_append, List.nil_append] at hrow ⊢
    rw [hrow]
    exact get_set_both x y

/-- What a load makes of rows of pairs of two elements. -/
private theorem get_loadRows (keys : List Key) (hkeys : ∀ k ∈ keys, (rows.get k).isSome ∧
    ∃ u v, u ≠ v ∧ k = Key.pair [u] [v]) (partners : Entries (Nat × Nat) Nat) (x y : Nat) :
    (keys.foldl (loadRow rows) partners).get (x, y) =
      if x ≠ y ∧ Key.pair [x] [y] ∈ keys then (rows.get (Key.pair [x] [y])).map (·.1) else partners.get (x, y) := by
  induction keys generalizing partners with
  | nil => simp
  | cons k keys ih =>
    obtain ⟨hsome, u, v, hne, rfl⟩ := hkeys k List.mem_cons_self
    obtain ⟨row, hrow⟩ := Option.isSome_iff_exists.mp hsome
    rw [List.foldl_cons, ih (fun k hk => hkeys k (List.mem_cons_of_mem _ hk)), get_loadRow hrow]
    by_cases hpair : s(x, y) = s(u, v)
    · have hxy : x ≠ y := by
        rintro rfl
        rcases Sym2.eq_iff.mp hpair with ⟨hu, hv⟩ | ⟨hv, hu⟩
        · exact hne (hu.symm.trans hv)
        · exact hne (hu.symm.trans hv)
      rw [if_pos hpair, pair_single_iff.mpr hpair, hrow]
      exact (ite_self _).trans (if_pos ⟨hxy, List.mem_cons_self⟩).symm
    · have hmem : Key.pair [x] [y] ∈ Key.pair [u] [v] :: keys ↔ Key.pair [x] [y] ∈ keys := by
        rw [List.mem_cons, pair_single_iff]
        exact or_iff_right hpair
      simp only [if_neg hpair, hmem]

/-- A load of rows of pairs of two elements finds the partners. -/
theorem mirrors_load {rows : EpisodeRows} (hkeys : ∀ k ∈ rows.ne.keys, ∃ u v, u ≠ v ∧ k = Key.pair [u] [v]) :
    Mirrors (load rows).partners rows.ne := by
  intro x y
  refine (get_loadRows _ (fun k hk => ?_) .empty x y).trans ?_
  · have hk := mem_ordered.mp hk
    exact ⟨(rows.ne.mem_keys k).mp hk, hkeys k hk⟩
  · simp only [mem_ordered, rows.ne.mem_keys]
    rcases eq_or_ne x y with rfl | hne
    · simp [Entries.empty]
    · rw [if_neg hne]
      cases hget : rows.ne.get (Key.pair [x] [y]) with
      | none => simp [Entries.empty]
      | some row => simp [hne]

end PartneredMemory

namespace EpisodeTable
variable {t : EpisodeTable} {key key' : Key} {now : ℚ}

/-- An observation counts where it opens an episode. -/
theorem count_observe :
    ((t.observe key now).held.get key).map (·.1) = some (t.count key + if t.opened key now then 1 else 0) := by
  unfold observe count opened
  cases t.held.get key with
  | none => exact congrArg _ (Entries.get_set _)
  | some entry =>
    obtain ⟨count, last⟩ := entry
    refine (congrArg _ (Entries.get_set _)).trans (congrArg some ?_)
    show (if EPISODE_GAP_S < now - last then count + 1 else count) =
      count + if decide (EPISODE_GAP_S < now - last) = true then 1 else 0
    split <;> simp_all

theorem count_continued (h : t.opened key now = false) : (t.held.get key).map (·.1) = some (t.count key) := by
  unfold opened at h
  unfold count
  cases hget : t.held.get key with
  | none => simp [hget] at h
  | some entry => rfl

theorem get_observe_ne (h : key' ≠ key) : (t.observe key now).held.get key' = t.held.get key' := by
  unfold observe
  split <;> exact Entries.get_set_ne h _

end EpisodeTable

/-- An observation keeps both sides of the partners in step with the table. -/
theorem PartneredMemory.mirrors_observe {e : PartneredMemory} (h : Mirrors e.partners e.ne.held) (a b : Nat × Nat) (now : ℚ) :
    Mirrors (e.observe a b now).partners (e.observe a b now).ne.held := by
  rcases eq_or_ne a.1 b.1 with heq | hne
  · have hpartners : (e.observe a b now).partners = e.partners := if_neg fun hopened => hopened.1 heq
    have hne : (e.observe a b now).ne = e.ne := if_neg fun hne => hne heq
    rw [hpartners, hne]
    exact h
  have htable : (e.observe a b now).ne = e.ne.observe (Key.pair [a.1] [b.1]) now := if_pos hne
  have hmine : e.partners.get (a.1, b.1) = (e.ne.held.get (Key.pair [a.1] [b.1])).map (·.1) := (h ..).trans (if_neg hne)
  have hother : e.partners.get (b.1, a.1) = (e.ne.held.get (Key.pair [a.1] [b.1])).map (·.1) := by
    rw [Key.pair_comm]
    exact (h ..).trans (if_neg hne.symm)
  -- both sides are set to the new count, or the count stays
  have hpartners (x y : Nat) : (e.observe a b now).partners.get (x, y) =
      if s(x, y) = s(a.1, b.1) then
        some (e.ne.count (Key.pair [a.1] [b.1]) + if e.ne.opened (Key.pair [a.1] [b.1]) now then 1 else 0)
      else e.partners.get (x, y) := by
    show (if _ then _ else _ : Entries (Nat × Nat) Nat).get (x, y) = _
    cases hopened : e.ne.opened (Key.pair [a.1] [b.1]) now with
    | true =>
      rw [if_pos ⟨hne, rfl⟩]
      have hswap : (b.1, a.1) ≠ (a.1, b.1) := fun heq => hne (Prod.mk.inj heq).2
      have hboth : partnered (partnered e.partners a.1 b.1) b.1 a.1 =
          (e.partners.set (a.1, b.1) (e.ne.count (Key.pair [a.1] [b.1]) + 1)).set (b.1, a.1)
            (e.ne.count (Key.pair [a.1] [b.1]) + 1) := by
        unfold partnered
        rw [Entries.get_set_ne hswap, hmine, hother]
        rfl
      rw [hboth]
      exact get_set_both x y
    | false =>
      rw [if_neg (by simp)]
      split
      · rename_i hpair
        refine Eq.trans ?_ (EpisodeTable.count_continued hopened)
        rcases Sym2.eq_iff.mp hpair with ⟨rfl, rfl⟩ | ⟨rfl, rfl⟩
        · exact hmine
        · exact hother
      · rfl
  intro x y
  rw [hpartners, htable]
  split
  · rename_i hpair
    have hxy : x ≠ y := by
      rintro rfl
      rcases Sym2.eq_iff.mp hpair with ⟨ha, hb⟩ | ⟨hb, ha⟩
      · exact hne (ha.symm.trans hb)
      · exact hne (ha.symm.trans hb)
    rw [if_neg hxy, pair_single_iff.mpr hpair]
    exact EpisodeTable.count_observe.symm
  · rename_i hpair
    rw [EpisodeTable.get_observe_ne fun hkey => hpair (pair_single_iff.mp hkey)]
    exact h x y

/-- The tables have the bursts of a history, the partners are in step, and the rows are behind at most by what changed. -/
structure Recorded (s : EpisodeStore) (history : List Observation) : Prop where
  item : s.memory.item.Tracks (seen Observation.item_key history)
  cls : s.memory.cls.Tracks (seen Observation.cls_key history)
  ne : s.memory.ne.Tracks (seen Observation.ne_key history)
  partners : Mirrors s.memory.partners s.memory.ne.held
  item_rows : s.memory.item.Synced id s.rows.item
  cls_rows : s.memory.cls.Synced id s.rows.cls
  ne_rows : s.memory.ne.Synced id s.rows.ne

namespace Recorded
variable {s : EpisodeStore} {history : List Observation}

theorem observe (h : Recorded s history) (o : Observation) (hnow : ∀ earlier ∈ history, earlier.ts ≤ o.ts) :
    Recorded (s.step (.observe o)) (history ++ [o]) := by
  have hitem := h.item.observe (seen_le hnow (k := Key.pair [o.a.1, o.a.2] [o.b.1, o.b.2]))
  have hcls := h.cls.observe (seen_le hnow (k := Key.pair [o.a.2] [o.b.2]))
  have hitem_seen : seen Observation.item_key (history ++ [o]) = _ := seen_some rfl
  have hcls_seen : seen Observation.cls_key (history ++ [o]) = _ := seen_some rfl
  refine ⟨?item, ?cls, ?ne, PartneredMemory.mirrors_observe h.partners o.a o.b o.ts,
    EpisodeTable.synced_observe h.item_rows .., EpisodeTable.synced_observe h.cls_rows .., ?rows⟩
  case item => exact hitem_seen ▸ hitem
  case cls => exact hcls_seen ▸ hcls
  case ne =>
    rcases eq_or_ne o.a.1 o.b.1 with heq | hne
    · have htable : (s.memory.observe o.a o.b o.ts).ne = s.memory.ne := if_neg fun hne => hne heq
      rw [seen_none (if_neg fun hne => hne heq)]
      exact htable ▸ h.ne
    · have htable : (s.memory.observe o.a o.b o.ts).ne = s.memory.ne.observe (Key.pair [o.a.1] [o.b.1]) o.ts := if_pos hne
      rw [seen_some (k := Key.pair [o.a.1] [o.b.1]) (if_pos hne)]
      exact htable ▸ h.ne.observe (seen_le hnow)
  case rows =>
    show (if _ then _ else _ : EpisodeTable).Synced id s.rows.ne
    split
    · exact EpisodeTable.synced_observe h.ne_rows ..
    · exact h.ne_rows

/-- After a flush, the rows are the tables. -/
private theorem flushed {t : EpisodeTable} (h : t.Synced id rows) :
    t.held.Agrees id (rows.upsert (t.rows id)) := h.flush fun _ => rfl

theorem flush (h : Recorded s history) : Recorded s.flush history where
  item := h.item
  cls := h.cls
  ne := h.ne
  partners := h.partners
  item_rows := Table.synced_of_agrees rfl (flushed h.item_rows)
  cls_rows := Table.synced_of_agrees rfl (flushed h.cls_rows)
  ne_rows := Table.synced_of_agrees rfl (flushed h.ne_rows)

/-- The keys of the elements' table are of two elements. -/
private theorem ne_keys (h : Recorded s history) {k : Key} (hk : (s.memory.ne.held.get k).isSome) :
    ∃ u v, u ≠ v ∧ k = Key.pair [u] [v] := by
  rw [h.ne k, Option.isSome_map, Option.isSome_iff_exists] at hk
  obtain ⟨last, hlast⟩ := hk
  obtain ⟨o, ho, -⟩ := List.mem_map.mp (List.mem_of_getLast? hlast)
  have hkey : o.ne_key = some k := of_decide_eq_true (List.mem_filter.mp ho).2
  unfold Observation.ne_key at hkey
  split at hkey
  · exact ⟨_, _, ‹_›, (Option.some.inj hkey).symm⟩
  · exact absurd hkey nofun

theorem restart (h : Recorded s history) : Recorded (s.step .restart) history := by
  have hitem := (flushed h.item_rows).get
  have hcls := (flushed h.cls_rows).get
  have hne := (flushed h.ne_rows).get
  refine ⟨fun key => (hitem key).symm.trans (h.item key), fun key => (hcls key).symm.trans (h.cls key),
    fun key => (hne key).symm.trans (h.ne key), PartneredMemory.mirrors_load fun k hk => ?_,
    Table.synced_of_agrees rfl fun _ => rfl, Table.synced_of_agrees rfl fun _ => rfl, Table.synced_of_agrees rfl fun _ => rfl⟩
  apply h.ne_keys
  rw [hne k, ← Entries.mem_keys]
  exact hk

theorem run (ops : List EpisodeOp) (h : Chronological ops) : Recorded (Runs.run EpisodeStore.step {} ops) (observations ops) := by
  induction ops using List.reverseRecOn with
  | nil =>
    have hnone (key : Observation → Option Key) : EpisodeTable.Tracks {} (seen key []) := fun _ => rfl
    exact ⟨hnone _, hnone _, hnone _, fun _ _ => (ite_self _).symm, Table.synced_of_agrees rfl fun _ => rfl,
      Table.synced_of_agrees rfl fun _ => rfl, Table.synced_of_agrees rfl fun _ => rfl⟩
  | append_singleton ops op ih =>
    have hobservations : observations (ops ++ [op]) = observations ops ++ op.observed.toList := by
      unfold observations
      rw [List.filterMap_append]
      cases op <;> rfl
    unfold Chronological at h ih
    rw [hobservations, List.map_append, List.pairwise_append] at h
    obtain ⟨hops, -, hlast⟩ := h
    rw [Runs.run_append, hobservations]
    cases op with
    | observe o => exact (ih hops).observe o fun earlier he => hlast _ (List.mem_map_of_mem he) _ List.mem_cons_self
    | flush => exact (List.append_nil _).symm ▸ (ih hops).flush
    | restart => exact (List.append_nil _).symm ▸ (ih hops).restart

end Recorded

/-- A key that is that of one pair was observed when the pair was. -/
private theorem seen_eq_times {β : Type} [DecidableEq β] {key : Observation → Option Key} {side : Observation → Sym2 β}
    {k : Key} {pair : Sym2 β} (h : ∀ o, key o = some k ↔ side o = pair) (history : List Observation) :
    seen key history k = times side pair history := by
  unfold seen times
  simp only [h]

section Keys
variable (history : List Observation)

private theorem seen_items (a b : Nat × Nat) :
    seen Observation.item_key history (Key.pair [a.1, a.2] [b.1, b.2]) = times Observation.items s(a, b) history := by
  refine seen_eq_times (fun o => ?_) history
  have hpair := Key.pair_eq_iff (a := [o.a.1, o.a.2]) (b := [o.b.1, o.b.2]) (c := [a.1, a.2]) (d := [b.1, b.2]) rfl rfl rfl
  refine Option.some_inj.trans (hpair.trans ?_)
  simp [Observation.items, Prod.ext_iff]

private theorem seen_classes (a b : Nat) :
    seen Observation.cls_key history (Key.pair [a] [b]) = times Observation.classes s(a, b) history :=
  seen_eq_times (fun _ => Option.some_inj.trans pair_single_iff) history

private theorem seen_elements {a b : Nat} (hne : a ≠ b) :
    seen Observation.ne_key history (Key.pair [a] [b]) = times Observation.elements s(a, b) history := by
  refine seen_eq_times (fun o => ?_) history
  unfold Observation.ne_key Observation.elements
  split
  · exact Option.some_inj.trans pair_single_iff
  · rename_i heq
    refine ⟨nofun, fun hpair => ?_⟩
    rcases Sym2.eq_iff.mp hpair with ⟨ha, hb⟩ | ⟨hb, ha⟩
    · exact absurd (ha.symm.trans ((not_not.mp heq).trans hb)) hne
    · exact absurd (ha.symm.trans ((not_not.mp heq).symm.trans hb)) hne

end Keys

namespace Recorded
variable {s : EpisodeStore} {history : List Observation} (h : Recorded s history)
include h

theorem counts : Counts s.memory history := by
  have hne {a b : Nat} (hab : a ≠ b) : s.memory.ne.count (Key.pair [a] [b]) =
      (bursts EPISODE_GAP_S (times Observation.elements s(a, b) history)).length := by
    rw [h.ne.count_eq, seen_elements history hab]
  refine ⟨fun a b => ?item, fun a b => ?cls, fun a b => hne, fun a b hab => ?together, fun a b => ?symmetric⟩
  case item => rw [h.item.count_eq, seen_items]
  case cls => rw [h.cls.count_eq, seen_classes]
  case together =>
    rw [← hne hab]
    unfold PartneredMemory.together
    rw [h.partners, if_neg hab]
    rfl
  case symmetric =>
    unfold PartneredMemory.together
    rw [h.partners, h.partners, Key.pair_comm]
    simp only [eq_comm]

theorem priors {now : ℚ} (hnow : ∀ o ∈ history, o.ts ≤ now) : Priors s.memory history now := by
  refine ⟨fun a b => ?item, fun a b => ?cls, fun a b hab => ?ne⟩
  case item => exact (h.item.prior_eq (seen_le hnow)).trans (by rw [seen_items])
  case cls => exact (h.cls.prior_eq (seen_le hnow)).trans (by rw [seen_classes])
  case ne => exact (if_neg hab).trans ((h.ne.prior_eq (seen_le hnow)).trans (by rw [seen_elements history hab]))

end Recorded

/-- With observations in order, and flushes and restarts anywhere, each count is the number of bursts of its pair, each
element's partners are counted alike from both sides, and a prior leaves out the burst that is not over. -/
theorem run_counts (ops : List EpisodeOp) (h : Chronological ops) :
    Counts (Runs.run EpisodeStore.step {} ops).memory (observations ops) ∧
    ∀ now, (∀ o ∈ observations ops, o.ts ≤ now) → Priors (Runs.run EpisodeStore.step {} ops).memory (observations ops) now :=
  ⟨(Recorded.run ops h).counts, fun _ hnow => (Recorded.run ops h).priors hnow⟩

/-- Two bursts of a pair, the second across a restart. -/
def two_bursts : List EpisodeOp :=
  [.observe ⟨(1, 7), (2, 8), 0⟩, .observe ⟨(2, 8), (1, 7), 100⟩, .flush, .observe ⟨(1, 7), (2, 8), 5000⟩, .restart,
    .observe ⟨(1, 7), (2, 8), 5100⟩]

theorem run_counts_two_bursts : (Runs.run EpisodeStore.step {} two_bursts).memory.together 2 1 = 2 ∧
    (Runs.run EpisodeStore.step {} two_bursts).memory.ne_prior 2 1 5200 = 1 := by
  obtain ⟨hcounts, hpriors⟩ := run_counts two_bursts (by unfold Chronological; decide +kernel)
  refine ⟨(hcounts.together 2 1 (by decide)).trans (by decide +kernel), ?_⟩
  have hprior := hpriors 5200 (by decide +kernel)
  exact (hprior.ne 2 1 (by decide)).trans (by decide +kernel)

end NetCoreNoc.Correlate
