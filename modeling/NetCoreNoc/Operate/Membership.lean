import Mathlib
import NetCoreNoc.Operate.Proposals

/-! The two maps of the membership, through everything that edits them. -/
namespace NetCoreNoc.Operate
open Situations Correlate

/-- What happens to the engine's situations. -/
inductive EngineOp (E : Type) where
  /-- an activation, with the pairs it was scored against -/
  | assign (entry : Member) (scored : List (Scored E))
  | close (sid : Sid) (ts : ℚ)
  | forget (sid : Sid)
  | rearm (aid : Aid) (ts : ℚ) (silent : Bool)
  /-- `POST …/move`, of alarms named once each -/
  | move (moving : List Aid) (source target : Sid) (ts : ℚ)
  | merge (dst src : Sid) (ts : ℚ)
  | split (sid : Sid) (departing : List Aid) (ts : ℚ)
  /-- the two answers to a proposal -/
  | accept (sid target : Sid) (ts : ℚ)
  | reject (sid target : Sid) (ts : ℚ)
  /-- a window ends or is ended: the alarms of its ledger that were made active, each once -/
  | surface (surfaced : {l : List Member // (l.map (·.alarm_id)).Nodup})
  /-- another decider, with its grouping -/
  | set_scorer (mode : Mode) (params : GroupingParams E)
  /-- the maintenance pass drops the evidence of what is no longer open -/
  | prune
  /-- anything else that is written or rolled back; the sequence never goes back -/
  | write (store : {t : Tables // t.Sequenced})
  | reload

namespace Engine
variable {E : Type} [Zero E] [Add E] [Div E] [NatCast E] [BEq E] [LT E] [DecidableLT E]

def live (e : Engine E) (sid : Sid) : Bool := (e.store.status sid).any (·.live)

/-- `move_alarm` of `routes/lifecycle.py`, of a request that is not refused. -/
def operatorMove (e : Engine E) (moving : List Aid) (source target : Sid) (ts : ℚ) : Engine E :=
  let named := moving.dedup
  let subject := e.store.alarmsOf source
  if source ≠ target && e.live source && e.live target && named.all subject.contains &&
      named.length < subject.length then
    let e₁ := named.foldl (fun e aid =>
      { e.moved aid source target with store := e.store.move_alarm aid source target }) e
    { e₁ with store := (e₁.store.promote_situation source ts .move).getD e₁.store }
  else e

/-- `merge_situations` of `routes/lifecycle.py` -/
def operatorMerge (e : Engine E) (dst src : Sid) (ts : ℚ) : Engine E :=
  if dst ≠ src && e.live dst && e.live src then
    let e₁ := { e.merged dst src with store := e.store.merge_situations dst src ts }
    { e₁ with store := (e₁.store.promote_situation dst ts .merge).getD e₁.store }
  else e

/-- `split_situation` of `routes/lifecycle.py` -/
def operatorSplit (e : Engine E) (sid : Sid) (named : List Aid) (ts : ℚ) : Engine E :=
  let subject := e.store.alarmsOf sid
  let departing := named.filter subject.contains
  if e.live sid && departing.length = named.dedup.length && 0 < departing.length &&
      departing.length < subject.length then
    match e.store.operator_split sid departing ts with
    | some (store, new) =>
      let e₁ := { e.split sid new departing with store := store }
      { e₁ with store := (e₁.store.promote_situation sid ts .split).getD e₁.store }
    | none => e
  else e

/-- The bag proposes to join the target, and the target is open. -/
def answerable (e : Engine E) (sid target : Sid) : Bool :=
  e.store.status sid = some .pending && e.target_of sid = some target &&
    e.store.status target = some .opened

def accept (e : Engine E) (sid target : Sid) (ts : ℚ) : Engine E :=
  if e.answerable sid target then
    { e.merged target sid with store := e.store.merge_situations target sid ts }
  else e

def reject (e : Engine E) (sid target : Sid) (ts : ℚ) : Engine E :=
  if e.answerable sid target then
    { e with
      store := e.store.withdraw_proposal sid ts
      rejected_proposals := insert (sid, target) e.rejected_proposals }
  else e

/-- The placement of an activation, and its execution. -/
def activate (e : Engine E) (entry : Member) (scored : List (Scored E)) : Engine E :=
  e.assign entry (e.grouper.place scored e.sit_of (e.sit_of entry.alarm_id)) scored

def step (e : Engine E) : EngineOp E → Engine E
  | .assign entry scored => e.activate entry scored
  | .close sid ts => e.close sid ts
  | .forget sid => e.forget sid
  | .rearm aid ts silent => (e.rearm aid ts silent).1
  | .move moving source target ts => e.operatorMove moving source target ts
  | .merge dst src ts => e.operatorMerge dst src ts
  | .split sid departing ts => e.operatorSplit sid departing ts
  | .accept sid target ts => e.accept sid target ts
  | .reject sid target ts => e.reject sid target ts
  | .surface surfaced => e.surface surfaced.1
  | .set_scorer mode params => { e with grouper := ⟨mode, params, e.grouper.cross⟩ }
  | .prune => { e with grouper := e.grouper.prune e.tracks }
  | .write store => { e with store := { store.1 with next := max e.store.next store.1.next } }
  | .reload => e.reload

end Engine

namespace Engine
variable {E : Type} {e : Engine E}

/-- How many times a situation's list names an alarm. -/
def count (e : Engine E) (sid : Sid) (aid : Aid) : Nat :=
  ((e.members sid).getD []).countP (·.alarm_id = aid)

/-- The maps agree: an alarm is pointed at a situation if and only if that situation's list names it
once and no other's names it. -/
def Agrees (e : Engine E) : Prop :=
  ∀ aid sid, e.sit_of aid = some sid ↔ e.count sid aid = 1 ∧ ∀ s, s ≠ sid → e.count s aid = 0

/-- Each map is the other's mirror, over situations whose numbers have been drawn. -/
structure Mirrored (e : Engine E) : Prop where
  count : ∀ aid sid, e.count sid aid = if e.sit_of aid = some sid then 1 else 0
  drawn : ∀ sid, e.store.next ≤ sid → e.members sid = none
  sequenced : e.store.Sequenced

theorem Mirrored.agrees (h : e.Mirrored) : e.Agrees := by
  intro aid sid
  constructor
  · intro hs
    refine ⟨by rw [h.count, if_pos hs], fun s hne => ?_⟩
    rw [h.count, if_neg fun he => hne (Option.some.inj (he.symm.trans hs))]
  · rintro ⟨h1, -⟩
    by_contra hs
    rw [h.count, if_neg hs] at h1
    exact absurd h1 (by simp)

private theorem any_iff (ms : List Member) (a : Aid) :
    ms.any (·.alarm_id = a) = true ↔ ms.countP (·.alarm_id = a) ≠ 0 := by
  rw [← Nat.pos_iff_ne_zero, List.countP_pos_iff, List.any_eq_true]

/-- An alarm is pointed elsewhere if and only if a list that is taken names it. -/
theorem Mirrored.named (h : e.Mirrored) (sid : Sid) (a : Aid) :
    ((e.members sid).getD []).any (·.alarm_id = a) = true ↔ e.sit_of a = some sid := by
  have hc := h.count a sid
  rw [any_iff]
  change e.count sid a ≠ 0 ↔ _
  rw [hc]
  split <;> simp_all

theorem Mirrored.tracked (h : e.Mirrored) {a : Aid} {sid : Sid} (hs : e.sit_of a = some sid) :
    e.tracks sid = true := by
  have hc := h.count a sid
  rw [if_pos hs, Engine.count] at hc
  unfold tracks
  cases hm : e.members sid with
  | none =>
    rw [hm] at hc
    exact absurd hc (by simp)
  | some l => rfl

/-- Other writes to the store leave the maps alone. -/
theorem Mirrored.store (h : e.Mirrored) {t : Tables} (hn : e.store.next ≤ t.next) (ht : t.Sequenced)
    (g : Grouper E) : ({ e with store := t, grouper := g } : Engine E).Mirrored :=
  ⟨h.count, fun sid hs => h.drawn sid (hn.trans hs), ht⟩

theorem count_update (sid : Sid) (o : Option (List Member)) (s : Sid) (a : Aid) (t : Tables)
    (f : Aid → Option Sid) (r : Finset (Sid × Sid)) (g : Grouper E) :
    count ⟨t, f, Function.update e.members sid o, r, g⟩ s a =
      if s = sid then (o.getD []).countP (·.alarm_id = a) else e.count s a := by
  simp only [count]
  by_cases hs : s = sid
  · rw [if_pos hs, hs, Function.update_self]
  · rw [if_neg hs, Function.update_of_ne hs]

theorem mirrored_forget (h : e.Mirrored) (sid : Sid) : (e.forget sid).Mirrored := by
  refine ⟨fun a s => ?_, fun s hs => ?_, h.sequenced⟩
  · rw [forget, count_update, h.count]
    simp only [unpoint, h.named]
    grind
  · by_cases hss : s = sid
    · simp [forget, hss]
    · simp only [forget, Function.update_of_ne hss]
      exact h.drawn s hs

theorem mirrored_create (h : e.Mirrored) (ts : ℚ) (act : Act) : (e.create ts act).1.Mirrored := by
  have hseq := Tables.step_sequenced h.sequenced (.create_situation ts act)
  simp only [Tables.step] at hseq
  unfold create
  unfold Tables.create_situation at hseq ⊢
  cases hact : TRANSITIONS act none with
  | none => exact h
  | some st =>
    rw [hact] at hseq
    simp only [Option.map_some]
    refine ⟨fun a s => ?_, fun s hs => ?_, hseq⟩
    · rw [count_update]
      split
      · rename_i hs
        have := h.count a s
        rw [count, h.drawn s (by rw [hs])] at this
        rw [← this]
        rfl
      · exact h.count a s
    · have hs : e.store.next + 1 ≤ s := hs
      have hne : s ≠ e.store.next := fun he => absurd hs (by rw [he]; exact Nat.not_succ_le_self _)
      simp only [Function.update_of_ne hne]
      exact h.drawn s (Nat.le_of_succ_le hs)

theorem mirrored_mergeInto (h : e.Mirrored) (ts : ℚ) {sid other : Sid} (hne : other ≠ sid)
    (ht : e.tracks sid) : (e.mergeInto ts sid other).Mirrored := by
  obtain ⟨l, hl⟩ := Option.isSome_iff_exists.mp ht
  have hlt : sid < e.store.next := by
    by_contra hle
    rw [h.drawn sid (not_lt.mp hle)] at hl
    exact absurd hl (by simp)
  have hnext := (Tables.merge_frame (t := e.store) sid other ts).2.2.2.1
  refine ⟨fun a s => ?_, fun s hs => ?_, Tables.step_sequenced h.sequenced (.merge_situations sid other ts)⟩
  · have hcount : (e.mergeInto ts sid other).count s a = if s = sid then e.count sid a + e.count other a
        else if s = other then 0 else e.count s a := by
      unfold count mergeInto
      simp only [Function.update_of_ne hne.symm, hl, Option.map_some]
      by_cases h1 : s = sid
      · rw [if_pos h1, h1, Function.update_self, Option.getD_some, List.countP_append]
        rfl
      · rw [if_neg h1, Function.update_of_ne h1]
        by_cases h2 : s = other
        · rw [if_pos h2, h2, Function.update_self]
          rfl
        · rw [if_neg h2, Function.update_of_ne h2]
    rw [hcount, h.count, h.count, h.count]
    simp only [mergeInto, pointAt, h.named]
    grind
  · have hs : e.store.next ≤ s := hnext ▸ hs
    have h1 : s ≠ sid := fun he => absurd hlt (not_lt.mpr (he ▸ hs))
    simp only [mergeInto, Function.update_of_ne h1]
    by_cases h2 : s = other
    · rw [h2, Function.update_self]
    · rw [Function.update_of_ne h2]
      exact h.drawn s hs

theorem Mirrored.lt_next (h : e.Mirrored) {sid : Sid} (ht : e.tracks sid) : sid < e.store.next := by
  by_contra hle
  rw [tracks, h.drawn sid (not_lt.mp hle)] at ht
  exact absurd ht (by simp)

theorem Mirrored.live_lt (h : e.Mirrored) {sid : Sid} (hl : (e.store.status sid).any (·.live) = true) :
    sid < e.store.next := by
  by_contra hle
  rw [h.sequenced sid (not_lt.mp hle)] at hl
  exact absurd hl (by simp)

/-- A list that takes one more alarm, pointed at it from nowhere. -/
theorem mirrored_append (h : e.Mirrored) {sid : Sid} (hlt : sid < e.store.next) {m : Member}
    (hm : e.sit_of m.alarm_id = none) {t : Tables} (hn : e.store.next ≤ t.next) (ht : t.Sequenced) :
    ({ e with
      store := t
      sit_of := Function.update e.sit_of m.alarm_id (some sid)
      members := Function.update e.members sid (some ((e.members sid).getD [] ++ [m])) } :
        Engine E).Mirrored := by
  refine ⟨fun a s => ?_, fun s hs => ?_, ht⟩
  · rw [count_update, Option.getD_some, List.countP_append, List.countP_singleton]
    change (if s = sid then e.count sid a + _ else e.count s a) = _
    rw [h.count, h.count]
    by_cases ha : a = m.alarm_id
    · subst ha
      simp only [Function.update_self, hm]
      grind
    · simp only [Function.update_of_ne ha]
      grind
  · have hs : e.store.next ≤ s := hn.trans hs
    have hne : s ≠ sid := fun he => absurd hlt (not_lt.mpr (he ▸ hs))
    simp only [Function.update_of_ne hne]
    exact h.drawn s hs

theorem mirrored_joinMember (h : e.Mirrored) {sid : Sid} (ht : e.tracks sid) {entry : Member}
    (hs : e.sit_of entry.alarm_id = none ∨ e.sit_of entry.alarm_id = some sid) :
    (e.joinMember sid entry).Mirrored := by
  unfold joinMember
  split
  · exact h
  · rename_i hne
    obtain ⟨l, hl⟩ := Option.isSome_iff_exists.mp ht
    have hjoin := mirrored_append h (h.lt_next ht) (hs.resolve_right hne)
      (Tables.next_addMember sid entry.alarm_id).ge
      (Tables.step_sequenced h.sequenced (.insert_member sid entry.alarm_id))
    rw [hl] at hjoin ⊢
    exact hjoin

theorem mirrored_file_surfaced (h : e.Mirrored) {m : Member} {situation : Option Sid}
    (hlt : ∀ sid ∈ situation, sid < e.store.next) (hm : e.sit_of m.alarm_id = none) :
    (e.file_surfaced m situation).1.Mirrored ∧
      (e.file_surfaced m situation).2 < (e.file_surfaced m situation).1.store.next ∧
      (∀ a, a ≠ m.alarm_id → (e.file_surfaced m situation).1.sit_of a = e.sit_of a) ∧
      (e.file_surfaced m situation).1.grouper = e.grouper := by
  have hfile (e : Engine E) (h : e.Mirrored) (sid : Sid) (hlt : sid < e.store.next)
      (hm : e.sit_of m.alarm_id = none) := mirrored_append h hlt hm
    (Tables.next_addMember sid m.alarm_id).ge (Tables.step_sequenced h.sequenced (.insert_member sid m.alarm_id))
  cases situation with
  | some sid =>
    refine ⟨hfile e h sid (hlt sid rfl) hm, ?_, fun a ha => Function.update_of_ne ha .., rfl⟩
    exact (hlt sid rfl).trans_eq (Tables.next_addMember ..).symm
  | none =>
    have hnew : (e.create m.ts .surface).2 < (e.create m.ts .surface).1.store.next := Nat.lt_succ_self _
    refine ⟨hfile _ (mirrored_create h m.ts .surface) _ hnew hm, ?_, fun a ha => Function.update_of_ne ha .., rfl⟩
    exact hnew.trans_eq (Tables.next_addMember ..).symm

theorem surface_spec (h : e.Mirrored) (surfaced : List Member)
    (hnd : (surfaced.map (·.alarm_id)).Nodup) (hs : ∀ m ∈ surfaced, e.sit_of m.alarm_id = none) :
    (e.surface surfaced).Mirrored ∧
      (∀ a, e.sit_of a ≠ none → (e.surface surfaced).sit_of a = e.sit_of a) ∧
      (e.surface surfaced).grouper = e.grouper := by
  unfold surface
  have hloop : ∀ (ms : List Member) (p : Engine E × Option Sid), p.1.Mirrored →
      (∀ sid ∈ p.2, sid < p.1.store.next) → (ms.map (·.alarm_id)).Nodup →
      (∀ m ∈ ms, p.1.sit_of m.alarm_id = none) →
      let e' := (ms.foldl (fun p m => ((p.1.file_surfaced m p.2).1, some (p.1.file_surfaced m p.2).2)) p).1
      e'.Mirrored ∧ (∀ a, p.1.sit_of a ≠ none → e'.sit_of a = p.1.sit_of a) ∧ e'.grouper = p.1.grouper := by
    intro ms
    induction ms with
    | nil => exact fun p hp _ _ _ => ⟨hp, fun _ _ => rfl, rfl⟩
    | cons m ms ih =>
      intro p hp hlt hnd hs
      rw [List.map_cons, List.nodup_cons] at hnd
      have hm := hs m List.mem_cons_self
      obtain ⟨h1, h2, h3, h4⟩ := mirrored_file_surfaced hp hlt hm
      have hrest : ∀ m' ∈ ms, (p.1.file_surfaced m p.2).1.sit_of m'.alarm_id = none := by
        intro m' hm'
        have hne : m'.alarm_id ≠ m.alarm_id := fun he => hnd.1 (he ▸ List.mem_map_of_mem hm')
        exact (h3 _ hne).trans (hs m' (List.mem_cons_of_mem m hm'))
      obtain ⟨i1, i2, i3⟩ := ih ((p.1.file_surfaced m p.2).1, some (p.1.file_surfaced m p.2).2) h1
        (fun sid hsid => Option.some.inj hsid ▸ h2) hnd.2 hrest
      refine ⟨i1, fun a ha => ?_, i3.trans h4⟩
      have hsame := h3 a fun he => ha (he ▸ hm)
      exact (i2 a (hsame ▸ ha)).trans hsame
  exact hloop surfaced (e, none) h (by simp) hnd hs

theorem mirrored_moved (h : e.Mirrored) {a : Aid} {source : Sid} (target : Sid)
    (hs : e.sit_of a = some source ∨ e.sit_of a = none) :
    (e.moved a source target).Mirrored ∧ ∀ b, b ≠ a → (e.moved a source target).sit_of b = e.sit_of b := by
  unfold moved
  cases hf : ((e.members source).getD []).find? (·.alarm_id = a) with
  | none =>
    have hnone : e.sit_of a = none := by
      refine hs.resolve_left fun hsome => ?_
      obtain ⟨m, hm, hma⟩ := List.any_eq_true.mp ((h.named source a).mpr hsome)
      exact List.find?_eq_none.mp hf m hm hma
    have hid : Function.update e.sit_of a none = e.sit_of := by rw [← hnone, Function.update_eq_self]
    simp only [hid]
    exact ⟨h, fun _ _ => trivial⟩
  | some member =>
    have hma : member.alarm_id = a := by simpa using List.find?_some hf
    have hmem := List.mem_of_find?_eq_some hf
    have hsome : e.sit_of a = some source :=
      (h.named source a).mp (List.any_eq_true.mpr ⟨member, hmem, decide_eq_true hma⟩)
    obtain ⟨l, hl⟩ := Option.isSome_iff_exists.mp (h.tracked hsome)
    rw [hl, Option.getD_some] at hmem
    -- the list of the source no longer names the alarm, and names the others as before
    have hout : ({ e with
        members := Function.update e.members source ((e.members source).map (·.erase member))
        sit_of := Function.update e.sit_of a none } : Engine E).Mirrored := by
      refine ⟨fun b s => ?_, fun s hs => ?_, h.sequenced⟩
      · rw [count_update, hl, Option.map_some, Option.getD_some, List.countP_erase]
        have hc := h.count b source
        rw [Engine.count, hl, Option.getD_some] at hc
        rw [hc, h.count, hma]
        simp only [hmem, true_and]
        by_cases hb : b = a
        · subst hb
          simp only [Function.update_self, hsome]
          grind
        · simp only [Function.update_of_ne hb]
          grind
      · have hne : s ≠ source := fun he => absurd (h.drawn s hs) (by rw [he, hl]; simp)
        simp only [Function.update_of_ne hne]
        exact h.drawn s hs
    dsimp only
    cases ht : Function.update e.members source ((e.members source).map (·.erase member)) target with
    | none => exact ⟨hout, fun b hb => Function.update_of_ne hb ..⟩
    | some l' =>
      have htr : target < e.store.next := hout.lt_next (Option.isSome_iff_exists.mpr ⟨l', ht⟩)
      have hin := mirrored_append hout htr (m := member) (by simp [hma]) le_rfl h.sequenced
      simp only [ht, Option.getD_some, hma, Function.update_idem] at hin
      exact ⟨hin, fun b hb => Function.update_of_ne hb ..⟩

theorem mirrored_merged (h : e.Mirrored) {dst src : Sid} (hne : dst ≠ src) (hlt : dst < e.store.next) :
    (e.merged dst src).Mirrored := by
  refine ⟨fun a s => ?_, fun s hs => ?_, h.sequenced⟩
  · have hcount : (e.merged dst src).count s a = if s = dst then e.count dst a + e.count src a
        else if s = src then 0 else e.count s a := by
      unfold Engine.count merged
      simp only [Function.update_of_ne hne]
      split
      · rename_i hnil
        rw [hnil]
        by_cases h2 : s = src
        · rw [h2, Function.update_self, if_neg hne.symm, if_pos rfl]
          rfl
        · rw [Function.update_of_ne h2, if_neg h2]
          by_cases h1 : s = dst <;> simp [h1]
      · by_cases h1 : s = dst
        · rw [if_pos h1, h1, Function.update_self, Option.getD_some, List.countP_append]
        · rw [if_neg h1, Function.update_of_ne h1]
          by_cases h2 : s = src
          · rw [if_pos h2, h2, Function.update_self]
            rfl
          · rw [if_neg h2, Function.update_of_ne h2]
    rw [hcount, h.count, h.count, h.count]
    simp only [merged, pointAt, h.named]
    grind
  · have h1 : s ≠ dst := fun he => absurd hlt (not_lt.mpr (he ▸ hs))
    have hsrc : Function.update e.members src none s = none := by
      by_cases h2 : s = src
      · rw [h2, Function.update_self]
      · rw [Function.update_of_ne h2]
        exact h.drawn s hs
    simp only [merged]
    split
    · exact hsrc
    · rw [Function.update_of_ne h1, hsrc]

/-- The members of a situation that folds are pointed at the other; no one else is. -/
theorem Mirrored.merged_points (h : e.Mirrored) (dst src : Sid) {a : Aid} (ha : e.sit_of a ≠ some src) :
    (e.merged dst src).sit_of a = e.sit_of a := by
  simp only [merged, pointAt, h.named, if_neg ha]

theorem split_points (sid new : Sid) {departing : List Aid} {a : Aid} (ha : a ∉ departing) :
    (e.split sid new departing).sit_of a = e.sit_of a := by
  refine if_neg fun hany => ha ?_
  obtain ⟨m, hm, hma⟩ := List.any_eq_true.mp hany
  have := (List.mem_filter.mp hm).2
  rw [List.contains_iff_mem, of_decide_eq_true hma] at this
  exact this

theorem mirrored_split (h : e.Mirrored) (sid : Sid) (departing : List Aid) {t : Tables}
    (hn : t.next = e.store.next + 1) (ht : t.Sequenced) :
    ({ e.split sid e.store.next departing with store := t } : Engine E).Mirrored := by
  have hnew : e.members e.store.next = none := h.drawn _ le_rfl
  refine ⟨fun a s => ?_, fun s hs => ?_, ht⟩
  · obtain ⟨ms, hms⟩ : ∃ ms, ms = (e.members sid).getD [] := ⟨_, rfl⟩
    have hleave : (ms.filter fun m => departing.contains m.alarm_id).countP (·.alarm_id = a) =
        if a ∈ departing then e.count sid a else 0 := by
      rw [List.countP_filter]
      split
      · rename_i ha
        rw [Engine.count, ← hms]
        refine List.countP_congr fun m _ => ?_
        simp only [Bool.and_eq_true, decide_eq_true_eq, List.contains_iff_mem]
        exact ⟨And.left, fun he => ⟨he, he ▸ ha⟩⟩
      · rename_i ha
        rw [List.countP_eq_zero]
        intro m _
        simp only [Bool.and_eq_true, decide_eq_true_eq, List.contains_iff_mem]
        rintro ⟨rfl, hm⟩
        exact ha hm
    have hstay : (ms.filter fun m => !departing.contains m.alarm_id).countP (·.alarm_id = a) =
        if a ∈ departing then 0 else e.count sid a := by
      rw [List.countP_filter]
      split
      · rename_i ha
        rw [List.countP_eq_zero]
        intro m _
        simp only [Bool.and_eq_true, decide_eq_true_eq, Bool.not_eq_true', ← Bool.not_eq_true,
          List.contains_iff_mem]
        rintro ⟨rfl, hm⟩
        exact hm ha
      · rename_i ha
        rw [Engine.count, ← hms]
        refine List.countP_congr fun m _ => ?_
        simp only [Bool.and_eq_true, decide_eq_true_eq, Bool.not_eq_true', ← Bool.not_eq_true,
          List.contains_iff_mem]
        exact ⟨And.left, fun he => ⟨he, he ▸ ha⟩⟩
    have hany : (ms.filter fun m => departing.contains m.alarm_id).any (·.alarm_id = a) = true ↔
        a ∈ departing ∧ e.sit_of a = some sid := by
      rw [any_iff, hleave, h.count]
      split <;> rename_i ha <;> simp [ha]
    have hcount : ({ e.split sid e.store.next departing with store := t } : Engine E).count s a =
        if s = e.store.next then (if a ∈ departing then e.count sid a else 0)
        else if s = sid then (if a ∈ departing then 0 else e.count sid a) else e.count s a := by
      simp only [Engine.count, split, ← hms]
      by_cases h1 : s = e.store.next
      · rw [if_pos h1, h1, Function.update_self, Option.getD_some, hleave, Engine.count, ← hms]
      · rw [if_neg h1, Function.update_of_ne h1]
        by_cases h2 : s = sid
        · rw [if_pos h2, h2, Function.update_self]
          cases hm : e.members sid with
          | none => simp [hms, hm]
          | some l => rw [Option.map_some, Option.getD_some, hstay, Engine.count, ← hms]
        · rw [if_neg h2, Function.update_of_ne h2]
    have hfree : e.sit_of a ≠ some e.store.next := fun he => by
      have := h.lt_next (h.tracked he)
      exact absurd this (lt_irrefl _)
    rw [hcount, h.count, h.count]
    simp only [split, pointAt, ← hms, hany]
    grind
  · have hs : e.store.next + 1 ≤ s := hn ▸ hs
    have h1 : s ≠ e.store.next := fun he => absurd hs (by rw [he]; exact Nat.not_succ_le_self _)
    simp only [split, Function.update_of_ne h1]
    by_cases h2 : s = sid
    · rw [h2, Function.update_self, ← h2, h.drawn s (Nat.le_of_succ_le hs)]
      rfl
    · rw [Function.update_of_ne h2]
      exact h.drawn s (Nat.le_of_succ_le hs)

/-- The store names each alarm once among the members of its live situations. -/
def Single (t : Tables) : Prop :=
  ∀ a s l, liveMembers t s = some l → l.any (·.alarm_id = a) = true →
    l.countP (·.alarm_id = a) = 1 ∧
      ∀ s' l', liveMembers t s' = some l' → l'.any (·.alarm_id = a) = true → s' = s

theorem mirrored_reload (hseq : e.store.Sequenced) (h : Single e.store) : e.reload.Mirrored := by
  obtain ⟨named, hnamed⟩ : ∃ named : Sid → Aid → Prop, ∀ s a, named s a ↔
      ((liveMembers e.store s).getD []).any (·.alarm_id = a) = true := ⟨_, fun _ _ => Iff.rfl⟩
  have hlist : ∀ s a, named s a → ∃ l, liveMembers e.store s = some l ∧ l.any (·.alarm_id = a) = true := by
    intro s a hn
    rw [hnamed] at hn
    cases hl : liveMembers e.store s with
    | none => rw [hl] at hn; exact absurd hn (by simp)
    | some l => exact ⟨l, rfl, by rwa [hl] at hn⟩
  have huniq : ∀ s s' a, named s a → named s' a → s' = s := by
    intro s s' a hn hn'
    obtain ⟨l, hl, ha⟩ := hlist s a hn
    obtain ⟨l', hl', ha'⟩ := hlist s' a hn'
    exact (h a s l hl ha).2 s' l' hl' ha'
  have hlt : ∀ s l, liveMembers e.store s = some l → s < e.store.next := by
    intro s l hl
    unfold liveMembers at hl
    split at hl
    · rename_i hc
      exact of_decide_eq_true (Bool.and_eq_true_iff.mp hc).1
    · exact absurd hl (by simp)
  have hpoint : ∀ s a, e.reload.sit_of a = some s ↔ named s a := by
    intro s a
    simp only [reload]
    constructor
    · intro hs
      exact (hnamed s a).mpr (List.mem_filter.mp (List.mem_of_getLast? hs)).2
    · intro hn
      obtain ⟨l, hl, ha⟩ := hlist s a hn
      have hmem : s ∈ (((List.range e.store.next).filter fun sid => (liveMembers e.store sid).isSome).filter
          fun sid => ((liveMembers e.store sid).getD []).any (·.alarm_id = a)) := by
        refine List.mem_filter.mpr ⟨List.mem_filter.mpr ⟨List.mem_range.mpr (hlt s l hl), ?_⟩, ?_⟩
        · rw [hl]; rfl
        · exact (hnamed s a).mp hn
      obtain ⟨x, hx⟩ := Option.isSome_iff_exists.mp
        (List.getLast?_isSome.mpr (List.ne_nil_of_mem hmem))
      rw [hx, huniq s x a hn ((hnamed x a).mpr (List.mem_filter.mp (List.mem_of_getLast? hx)).2)]
  refine ⟨fun a s => ?_, fun s hs => ?_, hseq⟩
  · split
    · rename_i hs
      obtain ⟨l, hl, ha⟩ := hlist s a ((hpoint s a).mp hs)
      simp only [Engine.count, reload, hl, Option.getD_some]
      exact (h a s l hl ha).1
    · rename_i hs
      by_contra hc
      exact hs ((hpoint s a).mpr ((hnamed s a).mpr ((any_iff _ a).mpr hc)))
  · cases hl : liveMembers e.store s with
    | none => exact hl
    | some l => exact absurd (hlt s l hl) (not_lt.mpr hs)

theorem mirrored_rearm (h : e.Mirrored) (aid : Aid) (ts : ℚ) (silent : Bool) :
    (e.rearm aid ts silent).1.Mirrored := by
  unfold rearm
  split
  · exact h
  · rename_i sid _
    split
    · exact mirrored_forget (h.store (t := e.store.resolve_situation sid .idle ts) le_rfl
        (Tables.step_sequenced h.sequenced (.resolve_idle sid ts)) e.grouper) sid
    · exact h

theorem settle_spec (h : e.Mirrored) (r : Route) (ts : ℚ) :
    (e.settle r ts).1.Mirrored ∧ (e.settle r ts).1.tracks (e.settle r ts).2 = true ∧
      (e.settle r ts).1.sit_of = e.sit_of ∧ (e.settle r ts).1.grouper = e.grouper ∧
      (∀ s, e.tracks s → (e.settle r ts).1.tracks s) ∧
      ∀ s, r.sid = some s → e.tracks s → (e.settle r ts).2 = s := by
  unfold settle
  cases hs : r.sid.filter e.tracks with
  | some sid =>
    obtain ⟨hsid, ht⟩ := Option.filter_eq_some_iff.mp hs
    exact ⟨h, ht, rfl, rfl, fun _ => id, fun s hr _ => Option.some.inj (hsid.symm.trans hr)⟩
  | none =>
    have hact : ∃ st, TRANSITIONS r.act none = some st := by
      unfold Route.act
      split
      · exact ⟨.new, rfl⟩
      · exact ⟨.pending, rfl⟩
    obtain ⟨st, hst⟩ := hact
    have hc := mirrored_create h ts r.act
    simp only [create, Tables.create_situation, hst, Option.map_some] at hc ⊢
    refine ⟨hc, ?_, trivial, trivial, fun s ht => ?_, fun s hr ht => ?_⟩
    · simp [tracks]
    · have hne : s ≠ e.store.next := fun he => absurd (h.lt_next ht) (by rw [he]; exact lt_irrefl _)
      simpa only [tracks, Function.update_of_ne hne] using ht
    · have := Option.filter_eq_none_iff.mp hs s hr
      exact absurd ht this

/-- A fold keeps the mirror, and the alarms of what folds follow. -/
theorem mirrored_mergeInto_all (ts : ℚ) (sid : Sid) (bags : List Sid) (hsid : sid ∉ bags)
    (h : e.Mirrored) (ht : e.tracks sid = true) :
    let e' := bags.foldl (fun e m => e.mergeInto ts sid m) e
    e'.Mirrored ∧ e'.tracks sid = true ∧
      (∀ a, e'.sit_of a = (e.sit_of a).map fun x => if x ∈ bags then sid else x) ∧
      e'.grouper = e.grouper := by
  induction bags generalizing e with
  | nil => exact ⟨h, ht, fun a => by simp, rfl⟩
  | cons b bags ih =>
    have hne : b ≠ sid := fun he => hsid (he ▸ List.mem_cons_self)
    obtain ⟨l, hl⟩ := Option.isSome_iff_exists.mp ht
    have ht' : (e.mergeInto ts sid b).tracks sid = true := by
      simp only [tracks, mergeInto, Function.update_self, Function.update_of_ne hne.symm, hl,
        Option.map_some, Option.isSome_some]
    have hpoint : ∀ a, (e.mergeInto ts sid b).sit_of a =
        if e.sit_of a = some b then some sid else e.sit_of a := by
      intro a
      simp only [mergeInto, pointAt, h.named]
    obtain ⟨h1, h2, h3, h4⟩ := ih (fun hm => hsid (List.mem_cons_of_mem b hm)) (mirrored_mergeInto h ts hne ht) ht'
    refine ⟨h1, h2, fun a => ?_, h4⟩
    rw [List.foldl_cons, h3, hpoint]
    cases e.sit_of a with
    | none => rfl
    | some x => by_cases hx : x = b <;> simp [hx]

/-- The alarm's own situation is the one that a placement settles in, or a bag that folds into it. -/
def Follows (e : Engine E) (placement : Placement E) (own : Option Sid) : Prop :=
  let sid := placement.join.filter e.tracks
  let merges := placement.merge.filter fun m => sid ≠ some m && e.tracks m
  ∀ o ∈ own, (sid = some o ∨ o ∈ merges) ∧
    match sid.filter fun s => e.status s = .pending with
    | some s => o = s ∨ e.foldable (e.target_of s) o
    | none => match e.confirmed sid merges with
      | some target => o = target ∨ e.foldable (some target) o
      | none => sid = some o ∨ e.status o = .new

/-- Where an alarm that follows its situation is routed: there, or to what that situation folds into. -/
theorem Follows.routed {placement : Placement E} {o : Sid} (h : e.Follows placement (some o)) :
    (e.route placement (some o)).sid = some o ∨ o ∈ (e.route placement (some o)).merges := by
  obtain ⟨hin, hcase⟩ := h o rfl
  unfold route
  dsimp only
  cases hs : (placement.join.filter e.tracks).filter fun s => e.status s = .pending with
  | some s =>
    rw [hs] at hcase
    have hsid := (Option.filter_eq_some_iff.mp hs).1
    rcases hcase with rfl | hfold
    · exact .inl rfl
    · exact hin.imp (fun ho => hsid.symm.trans ho) fun ho => List.mem_filter.mpr ⟨ho, hfold⟩
  | none =>
    rw [hs] at hcase
    dsimp only at hcase ⊢
    cases hc : e.confirmed (placement.join.filter e.tracks)
        (placement.merge.filter fun m => placement.join.filter e.tracks ≠ some m && e.tracks m) with
    | none =>
      rw [hc] at hcase
      refine hin.imp id fun ho => List.mem_filter.mpr ⟨ho, decide_eq_true (hcase.resolve_left ?_)⟩
      have := (List.mem_filter.mp ho).2
      simp only [Bool.and_eq_true, decide_eq_true_eq] at this
      exact this.1
    | some target =>
      rw [hc] at hcase
      dsimp only at hcase ⊢
      by_cases hot : o = target
      · exact .inl (by rw [if_pos (congrArg some hot), hot])
      · rw [if_neg fun he => hot (Option.some.inj he)]
        by_cases hp : e.pending_for target = some o
        · exact .inl hp
        · refine .inr (List.mem_filter.mpr ⟨?_, ?_⟩)
          · rw [List.mem_append, Option.mem_toList]
            exact hin
          · simp [hot, Ne.symm hp, hcase.resolve_left hot]

/-- What an activation does to the maps: its bags fold into the situation it settles in, its alarm is
pointed there, and the grouper commits that. -/
theorem assign_spec [Zero E] [Add E] (h : e.Mirrored) {entry : Member} {placement : Placement E}
    (hf : e.Follows placement (e.sit_of entry.alarm_id)) (scored : List (Scored E)) :
    let e' := e.assign entry placement scored
    let r := e.route placement (e.sit_of entry.alarm_id)
    e'.Mirrored ∧ ∃ sid bags, (sid = (e.settle r entry.ts).2 ∧
      ∀ m, m ∈ bags ↔ m ∈ r.merges ∧ m ≠ sid ∧ (e.settle r entry.ts).1.tracks m) ∧
      (∀ o ∈ e.sit_of entry.alarm_id, o = sid ∨ o ∈ bags) ∧
      (∀ a, e'.sit_of a = if a = entry.alarm_id then some sid
        else (e.sit_of a).map fun x => if x ∈ bags then sid else x) ∧
      e'.grouper = e.grouper.commit sid bags scored e'.sit_of := by
  intro e' r₀
  obtain ⟨r, hr⟩ : ∃ r, r = e.route placement (e.sit_of entry.alarm_id) := ⟨_, rfl⟩
  have hr₀ : r₀ = r := hr.symm
  rw [hr₀]
  obtain ⟨h1, ht1, hpoint1, hgrouper1, htracks1, hsettle⟩ := settle_spec h r entry.ts
  obtain ⟨e₁, he₁⟩ : ∃ e₁, e₁ = (e.settle r entry.ts).1 := ⟨_, rfl⟩
  obtain ⟨sid, hsid⟩ : ∃ sid, sid = (e.settle r entry.ts).2 := ⟨_, rfl⟩
  rw [← hsid] at ht1 hsettle
  rw [← he₁] at h1 ht1 hpoint1 hgrouper1 htracks1
  obtain ⟨e₂, he₂⟩ : ∃ e₂, e₂ = match r.propose with
    | some target => { e₁ with store := e₁.store.set_proposal sid target }
    | none => e₁ := ⟨_, rfl⟩
  have hset : e₂.Mirrored ∧ e₂.members = e₁.members ∧ e₂.sit_of = e₁.sit_of ∧ e₂.grouper = e₁.grouper := by
    rw [he₂]
    split
    · rename_i target _
      exact ⟨h1.store (t := e₁.store.set_proposal sid target) le_rfl
        (Tables.step_sequenced h1.sequenced (.set_proposal sid target)) e₁.grouper, rfl, rfl, rfl⟩
    · exact ⟨h1, rfl, rfl, rfl⟩
  obtain ⟨h2, hmem2, hpoint2, hgrouper2⟩ := hset
  have htracks2 : ∀ s, e₂.tracks s = e₁.tracks s := fun s => by rw [tracks, hmem2]; rfl
  obtain ⟨bags, hbags⟩ : ∃ bags, bags = r.merges.filter fun m => m ≠ sid && e₂.tracks m := ⟨_, rfl⟩
  have hnot : sid ∉ bags := by rw [hbags]; simp
  obtain ⟨h3, ht3, hpoint3, hgrouper3⟩ :=
    mirrored_mergeInto_all entry.ts sid bags hnot h2 ((htracks2 sid).trans ht1)
  obtain ⟨e₃, he₃⟩ : ∃ e₃, e₃ = bags.foldl (fun e m => e.mergeInto entry.ts sid m) e₂ := ⟨_, rfl⟩
  rw [← he₃] at h3 ht3 hpoint3 hgrouper3
  rw [hpoint2, hpoint1] at hpoint3
  rw [hgrouper2, hgrouper1] at hgrouper3
  -- the alarm's own situation is the one it settles in, or one that folds into it
  have hown : ∀ o ∈ e.sit_of entry.alarm_id, o = sid ∨ o ∈ bags := by
    rintro o (hs : e.sit_of entry.alarm_id = some o)
    have ho := h.tracked hs
    rw [hs] at hf hr
    rcases hf.routed with hsome | hmerge
    · exact .inl (hsettle o (hr ▸ hsome) ho).symm
    · refine or_iff_not_imp_left.mpr fun hos => hbags ▸ List.mem_filter.mpr ⟨hr ▸ hmerge, ?_⟩
      rw [htracks2, htracks1 o ho]
      simp [hos]
  have hjoins : e₃.sit_of entry.alarm_id = none ∨ e₃.sit_of entry.alarm_id = some sid := by
    rw [hpoint3]
    cases hs : e.sit_of entry.alarm_id with
    | none => exact .inl rfl
    | some o =>
      refine .inr (congrArg some ?_)
      rcases hown o hs with rfl | hin
      · exact ite_self _
      · exact if_pos hin
  have h4 := mirrored_joinMember h3 ht3 hjoins
  have hassign : e' = { e₃.joinMember sid entry with
      grouper := (e₃.joinMember sid entry).grouper.commit sid bags scored (e₃.joinMember sid entry).sit_of
      store := (e₃.joinMember sid entry).store.touch_situation sid entry.ts } := by
    rw [he₃, hbags, he₂, he₁, hsid, hr]
    rfl
  have hjoined : (e₃.joinMember sid entry).sit_of = Function.update e₃.sit_of entry.alarm_id (some sid) ∧
      (e₃.joinMember sid entry).grouper = e₃.grouper := by
    unfold joinMember
    split
    · rename_i hin
      exact ⟨by rw [← hin, Function.update_eq_self], rfl⟩
    · exact ⟨rfl, rfl⟩
  have hin : ∀ m, m ∈ bags ↔ m ∈ r.merges ∧ m ≠ sid ∧ (e.settle r entry.ts).1.tracks m := by
    intro m
    rw [hbags, List.mem_filter, Bool.and_eq_true, decide_eq_true_eq, htracks2, he₁]
  rw [hassign]
  refine ⟨?_, sid, bags, ⟨hsid, hin⟩, hown, fun a => ?_, ?_⟩
  · exact h4.store (t := (e₃.joinMember sid entry).store.touch_situation sid entry.ts) le_rfl
      (Tables.step_sequenced h4.sequenced (.touch_situation sid entry.ts)) _
  · simp only [hjoined.1, Function.update_apply, hpoint3]
  · simp only [hjoined.2, hgrouper3]

/-- One write to the store leaves the maps alone. -/
theorem Mirrored.write (h : e.Mirrored) (op : Op) : ({ e with store := e.store.step op } : Engine E).Mirrored :=
  h.store (Tables.step_next op).1 (Tables.step_sequenced h.sequenced op) e.grouper

theorem mirrored_promote (h : e.Mirrored) (sid : Sid) (ts : ℚ) {act : Act} (hact : act ≠ .autonomy) :
    ({ e with store := (e.store.promote_situation sid ts act).getD e.store } : Engine E).Mirrored :=
  h.write (.promote_situation sid ts ⟨act, hact⟩)

theorem operatorMove_spec (h : e.Mirrored) {moving : List Aid} {source target : Sid}
    (hm : ∀ a ∈ moving, e.sit_of a = some source ∨ e.sit_of a = none) (ts : ℚ) :
    (e.operatorMove moving source target ts).Mirrored ∧
      (∀ b, b ∉ moving → (e.operatorMove moving source target ts).sit_of b = e.sit_of b) ∧
      (e.operatorMove moving source target ts).grouper = e.grouper := by
  have hloop : ∀ (l : List Aid) (e : Engine E), e.Mirrored → l.Nodup →
      (∀ a ∈ l, e.sit_of a = some source ∨ e.sit_of a = none) →
      let e' := l.foldl (fun e aid => { e.moved aid source target with
        store := e.store.move_alarm aid source target }) e
      e'.Mirrored ∧ (∀ b, b ∉ l → e'.sit_of b = e.sit_of b) ∧ e'.grouper = e.grouper := by
    intro l
    induction l with
    | nil => exact fun e he _ _ => ⟨he, fun _ _ => rfl, rfl⟩
    | cons a l ih =>
      intro e he hnd hm
      rw [List.nodup_cons] at hnd
      obtain ⟨h1, h2⟩ := mirrored_moved he target (hm a List.mem_cons_self)
      have hsame : (e.moved a source target).store = e.store ∧
          (e.moved a source target).grouper = e.grouper := by
        unfold moved
        split
        · exact ⟨rfl, rfl⟩
        · dsimp only
          split <;> exact ⟨rfl, rfl⟩
      have hstep : ({ e.moved a source target with store := e.store.move_alarm a source target } :
          Engine E).Mirrored := by
        refine h1.store ?_ (Tables.step_sequenced he.sequenced (.move_alarm a source target)) _
        exact hsame.1 ▸ (Tables.step_next (.move_alarm a source target)).1
      obtain ⟨i1, i2, i3⟩ := ih _ hstep hnd.2 fun b hb =>
        (h2 b fun hba => hnd.1 (hba ▸ hb)) ▸ hm b (List.mem_cons_of_mem a hb)
      refine ⟨i1, fun b hb => ?_, i3.trans hsame.2⟩
      rw [List.mem_cons, not_or] at hb
      exact (i2 b hb.2).trans (h2 b hb.1)
  unfold operatorMove
  dsimp only
  split
  · obtain ⟨h1, h2, h3⟩ := hloop moving.dedup e h moving.nodup_dedup fun a ha =>
      hm a (List.mem_dedup.mp ha)
    exact ⟨mirrored_promote h1 source ts (by decide), fun b hb => h2 b (mt List.mem_dedup.mp hb), h3⟩
  · exact ⟨h, fun _ _ => rfl, rfl⟩

theorem mirrored_operatorMerge (h : e.Mirrored) (dst src : Sid) (ts : ℚ) :
    (e.operatorMerge dst src ts).Mirrored := by
  unfold operatorMerge
  split
  · rename_i hc
    simp only [Bool.and_eq_true, decide_eq_true_eq] at hc
    have hm := mirrored_merged h hc.1.1 (h.live_lt hc.1.2)
    exact mirrored_promote (hm.write (.merge_situations dst src ts)) dst ts (by decide)
  · exact h

theorem mirrored_operatorSplit (h : e.Mirrored) (sid : Sid) (named : List Aid) (ts : ℚ) :
    (e.operatorSplit sid named ts).Mirrored := by
  unfold operatorSplit
  dsimp only
  split
  · cases hs : e.store.operator_split sid (named.filter (e.store.alarmsOf sid).contains) ts with
    | none => exact h
    | some p =>
      obtain ⟨store, new⟩ := p
      have hstep := Tables.step_sequenced h.sequenced
        (.operator_split sid (named.filter (e.store.alarmsOf sid).contains) ts)
      simp only [Tables.step, hs, Option.map_some, Option.getD_some] at hstep
      simp only [Tables.operator_split, Tables.create_situation, TRANSITIONS, Option.map_some,
        Option.some.injEq, Prod.mk.injEq] at hs
      obtain ⟨hstore, rfl⟩ := hs
      have hnext : store.next = e.store.next + 1 := by
        rw [← hstore, (Tables.foldl_addMember _ _ _).2.1]
        rfl
      exact mirrored_promote (mirrored_split h sid _ hnext hstep) sid ts (by decide)
  · exact h

section Step
variable [Zero E] [Add E] [Div E] [NatCast E] [BEq E] [LT E] [DecidableLT E]

/-- A cluster settles an alarm where it is. -/
theorem follows_cluster (h : e.Mirrored) (hmode : e.grouper.mode = .cluster) (scored : List (Scored E))
    {own : Option Sid} {aid : Aid} (hown : e.sit_of aid = own) (hl : ∀ o ∈ own, e.live o) :
    e.Follows (e.grouper.place scored e.sit_of own) own := by
  rintro o ho
  obtain rfl : own = some o := ho
  have hjoin : (e.grouper.place scored e.sit_of (some o)).join = some o := by
    simp only [Grouper.place, hmode, Grouper.join]
  have hsid : (e.grouper.place scored e.sit_of (some o)).join.filter e.tracks = some o := by
    rw [hjoin, Option.filter_eq_some_iff]
    exact ⟨rfl, h.tracked hown⟩
  refine ⟨.inl hsid, ?_⟩
  rw [hsid]
  cases hs : (some o).filter fun s => e.status s = .pending with
  | some s => exact .inl (Option.some.inj (Option.filter_eq_some_iff.mp hs).1)
  | none =>
    dsimp only
    split
    · rename_i target hc
      unfold confirmed at hc
      split at hc
      · rename_i s hs
        have := (Option.filter_eq_some_iff.mp hs).1
        exact .inl ((Option.some.inj this).trans (Option.some.inj hc))
      · rename_i hno
        -- a bag that is new folds into what proposes to join the confirmed situation
        have hnew : e.status o = .new := by
          have hlive := hl o rfl
          unfold live at hlive
          unfold status at hs hno ⊢
          cases hst : e.store.status o with
          | none => rfl
          | some st => cases st <;> simp_all [Status.live]
        have := List.find?_some hc
        simp only [Bool.and_eq_true] at this
        exact .inr (by simpa [foldable, hnew] using this.2)
    · exact .inl rfl

/-- When a step keeps the maps in agreement. -/
def Mirrors (e : Engine E) : EngineOp E → Prop
  | .assign entry scored =>
    let own := e.sit_of entry.alarm_id
    e.grouper.mode = .cluster ∧ (∀ o ∈ own, e.live o) ∨
      e.Follows (e.grouper.place scored e.sit_of own) own
  | .move moving source _ _ => ∀ a ∈ moving, e.sit_of a = some source ∨ e.sit_of a = none
  | .surface surfaced => ∀ m ∈ surfaced.1, e.sit_of m.alarm_id = none
  | .reload => Single e.store
  | _ => True

theorem mirrored_step (h : e.Mirrored) (op : EngineOp E) (hop : e.Mirrors op) : (e.step op).Mirrored := by
  cases op with
  | assign entry scored =>
    exact (assign_spec h (hop.elim (fun hc => follows_cluster h hc.1 scored rfl hc.2) id) scored).1
  | close sid ts => exact (mirrored_forget h sid).write (.close_situation sid ts)
  | forget sid => exact mirrored_forget h sid
  | rearm aid ts silent => exact mirrored_rearm h aid ts silent
  | move moving source target ts => exact (operatorMove_spec h hop ts).1
  | merge dst src ts => exact mirrored_operatorMerge h dst src ts
  | split sid departing ts => exact mirrored_operatorSplit h sid departing ts
  | accept sid target ts =>
    simp only [step, accept]
    split
    · rename_i hc
      simp only [answerable, Bool.and_eq_true, decide_eq_true_eq] at hc
      have hne : target ≠ sid := fun he => by simp [he, hc.1.1] at hc
      have hlive : (e.store.status target).any (·.live) = true := by rw [hc.2]; rfl
      exact (mirrored_merged h hne (h.live_lt hlive)).write (.merge_situations target sid ts)
    · exact h
  | reject sid target ts =>
    simp only [step, reject]
    split
    · have := h.write (.withdraw_proposal sid ts)
      exact ⟨this.count, this.drawn, this.sequenced⟩
    · exact h
  | surface surfaced => exact (surface_spec h surfaced.1 surfaced.2 hop).1
  | set_scorer mode params => exact h.store le_rfl h.sequenced _
  | prune => exact h.store le_rfl h.sequenced _
  | write store =>
    refine h.store (t := { store.1 with next := max e.store.next store.1.next }) (le_max_left ..) ?_ e.grouper
    exact fun sid hs => store.2 sid ((le_max_right ..).trans hs)
  | reload => exact mirrored_reload h.sequenced hop

/-- An engine that holds no situation, over a store. -/
def fresh (t : Tables) (g : Grouper E) : Engine E := { store := t, grouper := g }

/-- In every run of steps that keep them in agreement the maps agree. -/
theorem run_agrees (t : {t : Tables // t.Sequenced}) (g : Grouper E) (ops : List (EngineOp E))
    (hops : Runs.Meets step Mirrors (fresh t.1 g) ops) : (Runs.run step (fresh t.1 g) ops).Agrees := by
  have hfresh : (fresh t.1 g).Mirrored := ⟨fun _ _ => rfl, fun _ _ => rfl, t.2⟩
  have hstep (e : Engine E) (op : EngineOp E) (h : e.Mirrored) (hop : e.Mirrors op) := mirrored_step h op hop
  exact (Runs.run_invariant hstep (fresh t.1 g) ops hfresh hops).agrees

end Step

/-- A store with no situation. -/
def empty : {t : Tables // t.Sequenced} := ⟨{}, fun _ _ => rfl⟩

def clustered : Grouper ℚ := ⟨.cluster, ⟨0, 1, 3⟩, .empty⟩

/-- Three alarms open a situation each, the third's is merged into the second's, and the third is moved to the first's. -/
def gathers : List (EngineOp ℚ) :=
  [.assign ⟨1, 1, 1, 0⟩ [], .assign ⟨2, 1, 1, 1⟩ [], .assign ⟨3, 1, 1, 2⟩ [], .merge 2 3 3, .move [3] 2 1 4]

theorem run_agrees_gathers : (Runs.run step (fresh empty.1 clustered) gathers).sit_of 3 = some 1 ∧
    (Runs.run step (fresh empty.1 clustered) gathers).Agrees := by
  refine ⟨by decide +kernel, run_agrees empty clustered gathers ⟨.inl ⟨?_, ?_⟩, .inl ⟨?_, ?_⟩, .inl ⟨?_, ?_⟩, trivial,
    List.forall_mem_singleton.mpr (.inl ?_), trivial⟩⟩
  all_goals decide +kernel

/-- An alarm opens a situation, clears, is raised again in a window, and outlives that window while its
situation is still live. -/
def outlives : List (EngineOp ℚ) :=
  [.assign ⟨1, 1, 1, 0⟩ [], .surface ⟨[⟨1, 1, 1, 5⟩], by decide⟩]

theorem outlives_disagrees :
    ¬ ∀ ops : List (EngineOp ℚ), (Runs.run step (fresh empty.1 clustered) ops).Agrees := by
  intro h
  have hsit : (Runs.run step (fresh empty.1 clustered) outlives).sit_of 1 = some 2 := by decide +kernel
  have hold : (Runs.run step (fresh empty.1 clustered) outlives).count 1 1 = 1 := by decide +kernel
  have := ((h outlives 1 2).mp hsit).2 1 (by decide)
  exact absurd (hold.symm.trans this) (by decide)

end Engine
end NetCoreNoc.Operate
