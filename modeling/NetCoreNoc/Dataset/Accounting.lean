import Mathlib
import NetCoreNoc.Dataset.Capture

/-! What the counts of capture come to over any run of batches, labels, merges and restarts. -/
namespace NetCoreNoc.Dataset.Capture
open Tables Runs Correlate
variable {F : Type}

/-- A table that a memory and a sequence are of. -/
structure Backed (c : Memory) (next : ℕ) (db : Database F) : Prop extends Kept db where
  fresh : ∀ o ∈ db.dataset_observation, o.id < next
  known : ∀ alarm id, c.observations.get alarm = some id → ∀ o ∈ db.dataset_observation, o.id = id →
    o.alarm_id = alarm

/-- In no run does a count in memory fall behind the table. -/
structure Sound (c : Memory) (s : Store F) : Prop where
  working : Backed c s.next_observation s.working
  committed : Backed c s.next_observation s.committed
  issued : ∀ alarm id, c.observations.get alarm = some id → id < s.next_observation
  counts : ∀ sid n, c.per_situation.get sid = some n → s.working.sink_pairs_for_situation sid ≤ n
  grown : ∀ sid, s.committed.sink_pairs_for_situation sid ≤ s.working.sink_pairs_for_situation sid

theorem Names.mono {db db' : Database F} {reference : Option ℕ} {alarm : ℕ} (h : Names db reference alarm)
    (hsub : ∀ o ∈ db.dataset_observation, ∃ o' ∈ db'.dataset_observation, o'.id = o.id ∧ o'.alarm_id = o.alarm_id) :
    Names db' reference alarm := by
  intro id hid
  obtain ⟨o, ho, rfl, rfl⟩ := h id hid
  exact hsub o ho

/-- The tables of pairs and of observations are all that is read of a database. -/
theorem Kept.congr {db db' : Database F} (h : Kept db) (hobs : db'.dataset_observation = db.dataset_observation)
    (hpairs : db'.dataset_pair = db.dataset_pair) : Kept db' := by
  refine ⟨fun sid => ?_, fun p hp => ?_⟩
  · rw [Database.sink_pairs_for_situation, hpairs]
    exact h.capped sid
  · rw [hpairs] at hp
    exact ⟨(h.named p hp).1.mono fun o ho => ⟨o, hobs ▸ ho, rfl, rfl⟩,
      (h.named p hp).2.mono fun o ho => ⟨o, hobs ▸ ho, rfl, rfl⟩⟩

theorem Backed.congr {c c' : Memory} {next : ℕ} {db db' : Database F} (h : Backed c next db)
    (hc : c'.observations = c.observations) (hobs : db'.dataset_observation = db.dataset_observation)
    (hpairs : db'.dataset_pair = db.dataset_pair) : Backed c' next db' :=
  ⟨h.toKept.congr hobs hpairs, hobs ▸ h.fresh, hc ▸ hobs ▸ h.known⟩

/-- A memory of newer observations. -/
theorem Backed.remember {c c' : Memory} {next next' : ℕ} {db : Database F} (h : Backed c next db)
    (hnext : next ≤ next')
    (hc : ∀ alarm id, c'.observations.get alarm = some id → c.observations.get alarm = some id ∨ next ≤ id) :
    Backed c' next' db :=
  ⟨h.toKept, fun o ho => (h.fresh o ho).trans_le hnext, fun alarm id hid o ho he => by
    rcases hc alarm id hid with hid | hid
    · exact h.known alarm id hid o ho he
    · exact absurd (h.fresh o ho) (not_lt.mpr (he ▸ hid))⟩

section Runs

/-- Opening a run changes neither what is counted nor what is remembered. -/
structure Apart (c : Memory) (s : Store F) (r : Memory × Store F) : Prop where
  observations : r.1.observations = c.observations
  counts : r.1.per_situation = c.per_situation
  excess : r.1.pairs_over_cap = c.pairs_over_cap
  committed : r.2.committed = s.committed
  rows : r.2.working.dataset_observation = s.working.dataset_observation
  pairs : r.2.working.dataset_pair = s.working.dataset_pair
  next : r.2.next_observation = s.next_observation

theorem open_run_apart (c : Memory) (s : Store F) (key : RunKey) (fault : Option String) :
    Apart c s (open_run c s key fault) := by
  unfold open_run
  split
  · exact ⟨rfl, rfl, rfl, rfl, rfl, rfl, rfl⟩
  split
  · exact ⟨rfl, rfl, rfl, rfl, rfl, rfl, rfl⟩
  split <;> exact ⟨rfl, rfl, rfl, rfl, rfl, rfl, rfl⟩

theorem reload_apart (c : Memory) (s : Store F) (key : RunKey) (fault : Option String) :
    Apart c s (reload c s key fault) := by
  unfold reload
  split
  · exact ⟨rfl, rfl, rfl, rfl, rfl, rfl, rfl⟩
  · obtain ⟨h₁, h₂, h₃, h₄, h₅, h₆, h₇⟩ := open_run_apart { c with run_id := none } s key fault
    exact ⟨h₁, h₂, h₃, h₄, h₅, h₆, h₇⟩

namespace Apart
variable {c : Memory} {s : Store F} {r : Memory × Store F} (h : Apart c s r)
include h

theorem sink (sid : ℕ) :
    r.2.working.sink_pairs_for_situation sid = s.working.sink_pairs_for_situation sid := by
  rw [Database.sink_pairs_for_situation, h.pairs, Database.sink_pairs_for_situation]

theorem sound (hs : Sound c s) : Sound r.1 r.2 := by
  refine ⟨?_, ?_, ?_, fun sid n hn => ?_, fun sid => ?_⟩
  · rw [h.next]
    exact hs.working.congr h.observations h.rows h.pairs
  · rw [h.next, h.committed]
    exact hs.committed.congr h.observations rfl rfl
  · rw [h.observations, h.next]
    exact hs.issued
  · rw [h.sink]
    exact hs.counts sid n (h.counts ▸ hn)
  · rw [h.sink, h.committed]
    exact hs.grown sid

end Apart
end Runs

section Promotion
variable (db : Database F) (sid : ℕ) (ts : ℚ)

theorem mem_promoted {o : Observation} (ho : o ∈ (db.promote_for_situation sid ts).dataset_observation) :
    ∃ o' ∈ db.dataset_observation, o'.id = o.id ∧ o'.alarm_id = o.alarm_id := by
  obtain ⟨o', ho', rfl⟩ := List.mem_map.mp ho
  refine ⟨o', ho', ?_⟩
  split <;> exact ⟨rfl, rfl⟩

theorem promoted_mem {o : Observation} (ho : o ∈ db.dataset_observation) :
    ∃ o' ∈ (db.promote_for_situation sid ts).dataset_observation, o'.id = o.id ∧ o'.alarm_id = o.alarm_id := by
  refine ⟨_, List.mem_map_of_mem ho, ?_⟩
  split <;> exact ⟨rfl, rfl⟩

/-- A promotion keeps the references, and only ever makes room. -/
theorem backed_promote {c : Memory} {next : ℕ} (h : Backed c next db) :
    Backed c next (db.promote_for_situation sid ts) := by
  refine ⟨⟨fun x => ?_, fun p hp => ?_⟩, fun o ho => ?_, fun alarm id hid o ho he => ?_⟩
  · rw [Database.sink_promote]
    split
    · exact Nat.zero_le _
    · exact h.capped x
  · obtain ⟨q, hq, rfl⟩ := List.mem_map.mp hp
    have hnames := h.named q hq
    have hmono (o : Observation) (ho : o ∈ db.dataset_observation) := promoted_mem db sid ts ho
    split <;> exact ⟨hnames.1.mono hmono, hnames.2.mono hmono⟩
  · obtain ⟨o', ho', hid, -⟩ := mem_promoted db sid ts ho
    exact hid ▸ h.fresh o' ho'
  · obtain ⟨o', ho', hid', halarm⟩ := mem_promoted db sid ts ho
    exact halarm ▸ h.known alarm id hid o' ho' (hid'.trans he)

end Promotion

section Captures
variable [Zero F] {c : Memory} {s : Store F} {a : Activation F} {situation_id : Option ℕ} {faults : Faults}
  {r : Captured F}

omit [Zero F] in
theorem Memory.Taken.le {sid held : ℕ} (h : c.Taken s.working sid held) (hs : Sound c s) :
    s.working.sink_pairs_for_situation sid ≤ held :=
  h.elim (hs.counts sid held) fun h => h.2.ge

omit [Zero F] in
theorem Undone.sound (h : Undone c s a situation_id faults r) (hs : Sound c s) : Sound r.memory r.store := by
  have hnewer (alarm id : ℕ) (hid : r.memory.observations.get alarm = some id) :
      c.observations.get alarm = some id ∨ s.next_observation ≤ id :=
    (h.remembered alarm id hid).imp_right fun hid => hid.2.1.ge
  refine ⟨h.working ▸ hs.working.remember h.fresh hnewer, h.committed ▸ hs.committed.remember h.fresh hnewer,
    fun alarm id hid => ?_, fun sid n hn => ?_, fun sid => ?_⟩
  · rcases h.remembered alarm id hid with hid | ⟨-, -, hlt⟩
    · exact (hs.issued alarm id hid).trans_le h.fresh
    · exact hlt
  · rw [h.working]
    exact (h.counts sid n hn).le hs
  · rw [h.working, h.committed]
    exact hs.grown sid

variable {run : ℕ} {kept : List (EvaluatedPair F)}

theorem Written.sink (h : Written c s a situation_id r run kept) (sid : ℕ) :
    r.store.working.sink_pairs_for_situation sid =
      s.working.sink_pairs_for_situation sid + if situation_id = some sid then kept.length else 0 := by
  rw [Database.sink_pairs_for_situation, h.pairs, List.countP_append, Database.sink_rows]
  rfl

theorem Written.sound (h : Written c s a situation_id r run kept) (hs : Sound c s) : Sound r.memory r.store := by
  have hnewer (alarm id : ℕ) (hid : r.memory.observations.get alarm = some id) :
      c.observations.get alarm = some id ∨ s.next_observation ≤ id :=
    (get_observed (h.remembered alarm id hid)).imp And.right fun hid => hid.2.ge
  have hfresh : s.next_observation ≤ r.store.next_observation := h.fresh ▸ Nat.le_succ _
  have hnew : s.observation_row run a ∈ r.store.working.dataset_observation :=
    h.observations ▸ List.mem_append_right _ (List.mem_singleton_self _)
  have hold (o : Observation) (ho : o ∈ s.working.dataset_observation) :
      ∃ o' ∈ r.store.working.dataset_observation, o'.id = o.id ∧ o'.alarm_id = o.alarm_id :=
    ⟨o, h.observations ▸ List.mem_append_left _ ho, rfl, rfl⟩
  have hknown (alarm id : ℕ) (hid : (observed c s a).get alarm = some id) (o : Observation)
      (ho : o ∈ r.store.working.dataset_observation) (he : o.id = id) : o.alarm_id = alarm := by
    rw [h.observations] at ho
    rcases get_observed hid with ⟨-, hid⟩ | ⟨rfl, rfl⟩
    · rcases List.mem_append.mp ho with ho | ho
      · exact hs.working.known alarm id hid o ho he
      · cases List.mem_singleton.mp ho
        exact absurd (hs.issued alarm id hid) (he ▸ lt_irrefl _)
    · rcases List.mem_append.mp ho with ho | ho
      · exact absurd (hs.working.fresh o ho) (he ▸ lt_irrefl _)
      · cases List.mem_singleton.mp ho
        rfl
  refine ⟨⟨⟨fun sid => ?_, fun p hp => ?_⟩, fun o ho => ?_,
      fun alarm id hid => hknown alarm id (h.remembered _ _ hid)⟩,
    h.committed ▸ hs.committed.remember hfresh hnewer, fun alarm id hid => ?_, fun sid n hn => ?_, fun sid => ?_⟩
  · have hsink := hs.working.capped sid
    rw [h.sink]
    split
    · next hsid =>
      rcases h.room with ⟨hnone, -⟩ | ⟨x, held, hx, hheld, rfl, -⟩
      · exact absurd (hsid.symm.trans hnone) (Option.some_ne_none sid)
      cases Option.some.inj (hsid.symm.trans hx)
      have hle := hheld.le hs
      have htake := List.length_take_le (MAX_SINK_PAIRS_PER_SITUATION - held) a.outcome.evaluated
      omega
    · exact hsink
  · rw [h.pairs] at hp
    rcases List.mem_append.mp hp with hp | hp
    · exact ⟨(hs.working.named p hp).1.mono hold, (hs.working.named p hp).2.mono hold⟩
    · obtain ⟨q, hq, rfl⟩ := List.mem_map.mp hp
      have hmet := (Bool.and_eq_true_iff.mp (h.met q hq)).1
      refine ⟨fun id hid => ?_, fun id hid => ⟨_, hnew, Option.some.inj hid, rfl⟩⟩
      obtain ⟨o, ho, he⟩ := List.mem_map.mp (of_decide_eq_true ((Option.all_eq_true _ _).mp hmet id hid))
      exact ⟨o, ho, he, hknown _ id hid o ho he⟩
  · rw [h.observations] at ho
    rw [h.fresh]
    rcases List.mem_append.mp ho with ho | ho
    · exact (hs.working.fresh o ho).trans (Nat.lt_succ_self _)
    · cases List.mem_singleton.mp ho
      exact Nat.lt_succ_self _
  · rw [h.fresh]
    rcases get_observed (h.remembered alarm id hid) with ⟨-, hid⟩ | ⟨-, rfl⟩
    · exact (hs.issued alarm id hid).trans (Nat.lt_succ_self _)
    · exact Nat.lt_succ_self _
  · obtain ⟨held, hheld, rfl⟩ := h.counts sid n hn
    rw [h.sink]
    exact Nat.add_le_add_right (hheld.le hs) _
  · rw [h.sink, h.committed]
    exact (hs.grown sid).trans (Nat.le_add_right _ _)

theorem record_sound (hs : Sound c s) (a : Activation F) (situation_id : Option ℕ) (faults : Faults) :
    Sound (record c s a situation_id faults).memory (record c s a situation_id faults).store := by
  rcases record_cases c s a situation_id faults with h | ⟨run, kept, h⟩
  · exact h.sound hs
  · exact h.sound hs

end Captures

namespace System
variable (s : System F)

theorem abandoned_sound {c : Memory} (h : Sound c s.store) : Sound c s.abandoned.store :=
  ⟨h.committed, h.committed, h.issued, fun sid n hn => (h.grown sid).trans (h.counts sid n hn), fun _ => le_rfl⟩

variable [Zero F]

theorem step_sound (e : Event F) (h : Sound s.memory s.store) : Sound (s.step e).memory (s.step e).store := by
  cases e with
  | activation a joins faults => exact record_sound h a (s.lands a joins) faults
  | merge dst src => exact h
  | commit => exact ⟨h.working, h.working, h.issued, h.counts, fun _ => le_rfl⟩
  | rollback key fault => exact (reload_apart s.memory s.abandoned.store key fault).sound (s.abandoned_sound h)
  | label sid ts =>
    unfold step
    dsimp only
    split
    · exact h
    · have hpromoted := backed_promote s.store.working sid ts h.working
      refine ⟨hpromoted, hpromoted, h.issued, fun x n hn => ?_, fun _ => le_rfl⟩
      refine (Database.sink_promote s.store.working sid x ts).trans_le ?_
      split
      · exact Nat.zero_le n
      · exact h.counts x n hn
  | maintenance key fault =>
    unfold step
    dsimp only
    split
    · exact h
    · exact (open_run_apart s.memory s.store key fault).sound h
  | restart enabled key fault =>
    refine (open_run_apart { enabled := enabled } s.abandoned.store key fault).sound ?_
    have hempty : Backed { enabled := enabled } s.store.next_observation s.store.committed :=
      h.committed.remember le_rfl fun alarm id hid => by cases hid
    exact ⟨hempty, hempty, fun alarm id hid => (by cases hid), fun sid n hn => (by cases hn), fun _ => le_rfl⟩

omit [Zero F] in
theorem initial_sound : Sound (initial : System F).memory (initial : System F).store := by
  have hempty : Backed ({} : Memory) 1 ({} : Database F) := by
    refine ⟨⟨fun _ => Nat.zero_le _, fun p hp => absurd hp List.not_mem_nil⟩, fun o ho => ?_, fun alarm id hid => ?_⟩
    · exact absurd ho List.not_mem_nil
    · cases hid
  exact ⟨hempty, hempty, fun alarm id hid => (by cases hid), fun sid n hn => (by cases hn), fun _ => le_rfl⟩

/-- No run overfills a situation, or leaves a reference that is not to an observation of its alarm. -/
theorem run_sound (es : List (Event F)) : Sound (run step initial es).memory (run step initial es).store :=
  run_always (I := fun s : System F => Sound s.memory s.store) (fun s e h => s.step_sound e h) initial es
    initial_sound

/-- The counts in memory are those of the table. -/
structure Exact : Prop extends Accounted s where
  counts : ∀ sid n, s.memory.per_situation.get sid = some n → n = s.store.working.sink_pairs_for_situation sid

variable {s}

omit [Zero F] in
theorem Exact.taken (h : s.Exact) {sid held : ℕ} (ht : s.memory.Taken s.store.working sid held) :
    held = s.store.working.sink_pairs_for_situation sid :=
  ht.elim (h.counts sid held) And.right

theorem activate_exact (hs : Sound s.memory s.store) (h : s.Exact) {a : Activation F} {joins : Option ℕ}
    {faults : Faults} (hclean : s.Clean (.activation a joins faults)) : (s.activate a joins faults).Exact := by
  rcases record_cases s.memory s.store a (s.lands a joins) faults with hu | ⟨run, kept, hw⟩
  · have hrefused : (s.activate a joins faults).refused = s.refused := by
      rw [activate, hu.refused, List.map_nil, List.append_nil]
    refine ⟨⟨hrefused ▸ h.full, ?_⟩, fun sid n hn => ?_⟩
    · rw [hrefused]
      refine Eq.trans ?_ h.counted
      rcases hu.excess with hexcess | ⟨sid, held, hsid, hheld, hreach, hroom, hbad⟩
      · exact hexcess
      · have hexact := h.taken hheld
        subst hexact
        exact absurd (hclean sid hsid hreach hroom) hbad
    · exact (h.taken (hu.counts sid n hn)).trans (congrArg (·.sink_pairs_for_situation sid) hu.working.symm)
  · refine ⟨⟨fun held hheld => ?_, ?_⟩, fun sid n hn => ?_⟩
    · rcases List.mem_append.mp hheld with hheld | hheld
      · exact h.full held hheld
      obtain ⟨p, hp, rfl⟩ := List.mem_map.mp hheld
      rcases hw.room with ⟨-, hnone⟩ | ⟨sid, held, hsid, hheld, rfl, hdrop⟩
      · exact absurd hp (hnone ▸ List.not_mem_nil)
      have hexact := h.taken hheld
      subst hexact
      have hlong := List.length_pos_of_mem (hdrop ▸ hp)
      have hcap := hs.working.capped sid
      refine (congrArg (Option.elim · 0 _) hsid).trans ((hw.sink sid).trans ?_)
      rw [if_pos hsid, List.length_take]
      rw [List.length_drop] at hlong
      omega
    · refine hw.excess.trans ?_
      rw [h.counted]
      refine Eq.trans ?_ List.length_append.symm
      rw [List.length_map]
    · obtain ⟨held, hheld, rfl⟩ := hw.counts sid n hn
      rw [h.taken hheld]
      exact (hw.sink sid).symm

theorem step_exact (hs : Sound s.memory s.store) (h : s.Exact) (e : Event F) (hclean : s.Clean e) :
    (s.step e).Exact := by
  cases e with
  | activation a joins faults => exact activate_exact hs h hclean
  | merge dst src => exact ⟨⟨h.full, h.counted⟩, h.counts⟩
  | commit => exact ⟨⟨h.full, h.counted⟩, h.counts⟩
  | rollback key fault =>
    have hapart := reload_apart s.memory s.abandoned.store key fault
    obtain ⟨hrefused, hsame⟩ := hclean
    refine ⟨⟨fun held hheld => h.full held (hrefused ▸ hheld), ?_⟩, fun sid n hn => ?_⟩
    · exact hapart.excess.trans (h.counted.trans (congrArg List.length hrefused))
    · have hget := (congrArg (·.get sid) hapart.counts).symm.trans hn
      refine (h.counts sid n hget).trans ((hsame sid (Option.isSome_of_eq_some hget)).trans ?_)
      exact (hapart.sink sid).symm
  | label sid ts =>
    unfold step
    dsimp only
    split
    · exact h
    · next hbusy =>
      refine ⟨⟨h.full, h.counted⟩, fun x n hn => ?_⟩
      refine Eq.trans ?_ (Database.sink_promote s.store.working sid x ts).symm
      split
      · next hx =>
        subst hx
        rcases hclean with hclean | hclean | hclean
        · exact absurd hclean hbusy
        · exact absurd (hclean.symm.trans hn) (Option.some_ne_none n).symm
        · exact (h.counts x n hn).trans hclean
      · exact h.counts x n hn
  | maintenance key fault =>
    unfold step
    dsimp only
    split
    · exact h
    · have hapart := open_run_apart s.memory s.store key fault
      refine ⟨⟨h.full, hapart.excess.trans h.counted⟩, fun sid n hn => ?_⟩
      exact (h.counts sid n ((congrArg (·.get sid) hapart.counts).symm.trans hn)).trans (hapart.sink sid).symm
  | restart enabled key fault =>
    have hapart := open_run_apart { enabled := enabled } s.abandoned.store key fault
    refine ⟨⟨fun held hheld => absurd hheld List.not_mem_nil, hapart.excess⟩, fun sid n hn => ?_⟩
    cases (congrArg (·.get sid) hapart.counts).symm.trans hn

end System

/-- In a run whose steps leave the counts in memory true, what is refused is one too many and is counted, no situation
is overfilled, and the references of the pairs are met. -/
theorem capture_keeps_its_cap [Zero F] (es : List (Event F)) (h : Meets System.step System.Clean System.initial es) :
    Kept (run System.step System.initial es).store.working ∧
      Kept (run System.step System.initial es).store.committed ∧ Accounted (run System.step System.initial es) := by
  have hsound := System.run_sound es
  have hexact : (run System.step System.initial es).Exact := by
    refine (run_invariant (I := fun s : System F => Sound s.memory s.store ∧ s.Exact) ?_ System.initial es ?_ h).2
    · rintro s e ⟨hs, hexact⟩ hclean
      exact ⟨s.step_sound e hs, System.step_exact hs hexact e hclean⟩
    · refine ⟨System.initial_sound, ⟨fun held hheld => absurd hheld List.not_mem_nil, rfl⟩, fun sid n hn => ?_⟩
      cases hn
  exact ⟨hsound.working.toKept, hsound.committed.toKept, hexact.toAccounted⟩

section Retried

def key : RunKey := ⟨none, none, 21, 2000000, 365, 730⟩

def neighbour (alarm_id : ℕ) : Recall.Activation :=
  { alarm_id := alarm_id, class_id := 1, device_id := 1, ts := 0, entity_id := 1 }

/-- An activation that is compared with so many alarms, none of them captured. -/
def compared (n : ℕ) : Activation ℚ where
  entry := neighbour 0
  event := ⟨"10.0.0.1", "1.3.6.1.6.3.1.1.5.3", []⟩
  outcome := ⟨[], (List.range n).map (· + 1), true, (List.range n).map fun i =>
    { other := neighbour (i + 1), result := none, vector := some (List.replicate 15 0), margin := -1 }⟩
  a_epoch := 0
  e_epoch := 0
  ne_id := 1
  count := 1
  severity := none
  severity_rank := none
  inst := ""

/-- An activation has a pair more than a situation may hold, and the batch after it captures nothing and is rolled back. -/
def calm : List (Event ℚ) :=
  [.restart true key none, .commit, .activation (compared (MAX_SINK_PAIRS_PER_SITUATION + 1)) (some 1) {}, .commit,
    .rollback key none]

theorem calm_capture_keeps_its_cap : Meets System.step System.Clean System.initial calm ∧
    (run System.step System.initial calm).refused = [MAX_SINK_PAIRS_PER_SITUATION] ∧
    Kept (run System.step System.initial calm).store.working ∧
      Kept (run System.step System.initial calm).store.committed ∧
        Accounted (run System.step System.initial calm) := by
  have hcommitted (s : System ℚ) : s.committed.Clean (.rollback key none) ∧
      (s.committed.step (.rollback key none)).refused = s.refused := ⟨⟨rfl, fun _ _ => rfl⟩, rfl⟩
  have hmeets : Meets System.step System.Clean System.initial calm :=
    ⟨trivial, trivial, fun _ _ _ _ => ⟨rfl, fun _ _ _ _ hid => nomatch hid⟩, trivial, (hcommitted _).1, trivial⟩
  obtain ⟨s, hs⟩ : ∃ s : System ℚ, s = run System.step System.initial [.restart true key none, .commit] := ⟨_, rfl⟩
  have hrefused : (s.activate (compared (MAX_SINK_PAIRS_PER_SITUATION + 1)) (some 1) {}).refused =
      [MAX_SINK_PAIRS_PER_SITUATION] := by
    unfold System.activate record record_pairs
    simp only [fill_eq]
    subst hs
    decide +kernel
  refine ⟨hmeets, ?_, capture_keeps_its_cap calm hmeets⟩
  subst hs
  exact (hcommitted _).2.trans hrefused

/-- A batch is rolled back forty-one times before it goes through. -/
def retried : List (Event ℚ) :=
  [.restart true key none, .commit] ++
    (List.replicate 41 [.activation (compared 25) (some 1) {}, .rollback key none]).flatten ++
    [.activation (compared 25) (some 1) {}]

/-- The pairs of a situation are refused that holds none. -/
theorem refused_of_nothing : ¬ Accounted (run System.step System.initial retried) := by
  have hrefused : (run System.step System.initial retried).refused = List.replicate 25 0 := by decide +kernel
  intro h
  have hfull := h.full 0 (hrefused ▸ List.mem_replicate.mpr ⟨by decide, rfl⟩)
  exact absurd hfull (by decide)

end Retried

end NetCoreNoc.Dataset.Capture
