import Mathlib
import NetCoreNoc.Operate.Filing

/-! An alarm's occurrences: repeats, re-arms, clears, the flap detector and the closes
(`engine/operate/occurrence.py`, `flap.py`, the tail of `Engine._process`), and where an active alarm is
after its trap. -/
namespace NetCoreNoc.Operate
open Situations Correlate

def IDLE_CLOSE_S : ℚ := 3600
def CLEAR_HOLD_S : ℚ := 300
def INTERMITTENT_ACTIVATIONS : Nat := 3

/-- `(device, trap OID, instance)`; elements and classes are numbered one to one with their addresses
and OIDs. -/
structure Fingerprint where
  device_id : Nat
  class_id : Nat
  inst : String
  deriving DecidableEq, Repr

structure FlapDetector where
  min_raises : Nat := 6
  max_mean_interval : ℚ := 900
  max_cv : ℚ := 1 / 2
  reset_gap : ℚ := 3600
  history : Fingerprint → List ℚ := fun _ => []

namespace FlapDetector
variable (d : FlapDetector)

def mean (xs : List ℚ) : ℚ := xs.sum / xs.length

/-- `statistics.pstdev`, squared -/
def variance (xs : List ℚ) : ℚ := mean (xs.map fun x => (x - mean xs) ^ 2)

def intervals (raises : List ℚ) : List ℚ := List.zipWith (fun a b => b - a) raises raises.tail

/-- What `observe` answers of a history: short, regular periods. The deviation is compared squared. -/
def regular (raises : List ℚ) : Bool :=
  if raises.length < d.min_raises then false
  else
    let m := mean (intervals raises)
    if m ≤ 1 / 100 then false
    else m ≤ d.max_mean_interval && variance (intervals raises) ≤ (d.max_cv * m) ^ 2

/-- The history after one more activation, at most eight long. -/
def raised (raises : List ℚ) (ts : ℚ) : List ℚ :=
  let kept := if raises.getLast?.any fun last => d.reset_gap < ts - last then [] else raises
  (kept ++ [ts]).drop ((kept ++ [ts]).length - 8)

def observe (fingerprint : Fingerprint) (ts : ℚ) : FlapDetector × Bool :=
  let raises := d.raised (d.history fingerprint) ts
  ({ d with history := Function.update d.history fingerprint raises }, d.regular raises)

/-- Activations in the past hour. -/
def recent (fingerprint : Fingerprint) (ts : ℚ) : Nat :=
  (d.history fingerprint).countP fun t => ts - t ≤ 3600

end FlapDetector

/-- A trap that no maintenance window suppresses, with what the process has made of it: the class that
its class clears, whether it carries a clear value, and the pairs that the correlator scores it with. -/
structure Event (E : Type) where
  fingerprint : Fingerprint
  ts : ℚ
  raise_class : Option Nat := none
  clears : Bool := false
  scored : List (Scored E) := []

structure IngestResult where
  alarm_id : Aid
  activated : Bool
  previous_seen : Option ℚ := none

/-- The engine, the rest of its alarm table, and the memory of the flap detector. -/
structure Appliance (E : Type) where
  engine : Engine E
  /-- the unique `(ne_id, class_id, instance)` of each alarm -/
  keys : List (Fingerprint × Aid) := []
  next_alarm : Aid := 1
  cleared_at : Aid → Option ℚ := fun _ => none
  flap : FlapDetector := {}
  flapping : Finset Fingerprint := ∅
  rearm_s : ℚ := 3600
  /-- the classes whose OID `OCCURRENCE_NOTIFICATIONS` has -/
  occurrence_only : Nat → Bool := fun _ => false

namespace Appliance
variable {E : Type} (a : Appliance E)

def alarm_id (fingerprint : Fingerprint) : Option Aid :=
  (a.keys.find? (·.1 = fingerprint)).map (·.2)

def active (aid : Aid) : Bool := (a.engine.store.alarm aid).any (·.active)

/-- A write to the alarm table. -/
def setAlarm (alarm : Aid → Option Alarm) : Appliance E :=
  { a with engine := { a.engine with store := { a.engine.store with alarm := alarm } } }

/-- `ingest`: a new alarm, a raise after a clear, or a repeat. -/
def ingest (event : Event E) : Appliance E × IngestResult :=
  let alarm := a.engine.store.alarm
  match a.alarm_id event.fingerprint with
  | none =>
    let row : Alarm := ⟨event.fingerprint.class_id, event.fingerprint.device_id, event.ts, event.ts, true⟩
    ({ a.setAlarm (Function.update alarm a.next_alarm (some row)) with
      keys := a.keys ++ [(event.fingerprint, a.next_alarm)]
      next_alarm := a.next_alarm + 1 }, ⟨a.next_alarm, true, none⟩)
  | some aid =>
    ({ a.setAlarm (Function.update alarm aid ((alarm aid).map fun r =>
        { r with last_seen := event.ts, active := true })) with
      cleared_at := Function.update a.cleared_at aid none },
      ⟨aid, !a.active aid, (alarm aid).map (·.last_seen)⟩)

/-- `clear_alarm` -/
def clear_alarm (fingerprint : Fingerprint) (ts : ℚ) : Appliance E :=
  match (a.alarm_id fingerprint).filter a.active with
  | none => a
  | some aid =>
    { a.setAlarm (Function.update a.engine.store.alarm aid ((a.engine.store.alarm aid).map fun r =>
        { r with last_seen := ts, active := false })) with
      cleared_at := Function.update a.cleared_at aid (some ts) }

/-- `_handle_clear`: the alarm that the class clears, and a stale one of the class itself. -/
def handle_clear (event : Event E) (raise_class : Nat) : Appliance E :=
  (a.clear_alarm { event.fingerprint with class_id := raise_class } event.ts).clear_alarm
    event.fingerprint event.ts

/-- `occurrence.rearm` -/
def rearm (result : IngestResult) (event : Event E) : Appliance E × Bool :=
  if event.fingerprint ∈ a.flapping then (a, false)
  else
    let silent := 0 < a.rearm_s && result.previous_seen.any fun previous => a.rearm_s < event.ts - previous
    let (engine, occurs) := a.engine.rearm result.alarm_id event.ts silent
    ({ a with engine := engine }, occurs)

/-- `_is_flapping` -/
def is_flapping (fingerprint : Fingerprint) (ts : ℚ) : Appliance E × Bool :=
  let (flap, found) := a.flap.observe fingerprint ts
  let flapping := if found = decide (fingerprint ∈ a.flapping) then a.flapping
    else if found then insert fingerprint a.flapping else a.flapping.erase fingerprint
  ({ a with flap := flap, flapping := flapping }, found)

section Process
variable [Zero E] [Add E] [Div E] [NatCast E] [BEq E] [LT E] [DecidableLT E]

/-- A raise, once `ingest` has it: what is not a new occurrence or is flapping goes no further. -/
def correlate (result : IngestResult) (event : Event E) : Appliance E :=
  let (a₁, occurs) := if result.activated then (a, true) else a.rearm result event
  if occurs then
    let (a₂, found) := a₁.is_flapping event.fingerprint event.ts
    if found then a₂
    else { a₂ with engine := a₂.engine.activate ⟨result.alarm_id, event.fingerprint.class_id,
      event.fingerprint.device_id, event.ts⟩ event.scored }
  else a₁

/-- `_process`, from where it knows what the trap is. -/
def process (event : Event E) : Appliance E :=
  match event.raise_class with
  | some raise_class => a.handle_clear event raise_class
  | none =>
    if event.clears then a.clear_alarm event.fingerprint event.ts
    else (a.ingest event).1.correlate (a.ingest event).2 event

end Process

/-- `idle_open_situations` -/
def idle_open_situations (cutoff : ℚ) : List Sid :=
  let t := a.engine.store
  (List.range t.next).filter fun sid =>
    (t.situation sid).any (fun r => r.status.live && r.updated_at < cutoff) && !t.hasActive sid

/-- `end_occurrences` -/
def end_occurrences (before ts : ℚ) : Appliance E :=
  let alarm := a.engine.store.alarm
  let ended (aid : Aid) : Bool :=
    (alarm aid).any fun r => r.active && r.last_seen ≤ before && a.occurrence_only r.class_id
  { a.setAlarm fun aid => if ended aid then (alarm aid).map fun r => { r with active := false } else alarm aid with
    cleared_at := fun aid => if ended aid then some ts else a.cleared_at aid }

/-- `cleared_open_situations`; with no cleared member, the epoch. -/
def cleared_open_situations (before : ℚ) : List Sid :=
  let t := a.engine.store
  (List.range t.next).filter fun sid =>
    (t.situation sid).any (fun r => r.status.live && r.updated_at ≤ before) && !t.hasActive sid &&
      decide (((t.alarmsOf sid).filterMap a.cleared_at).max?.getD 0 ≤ before)

/-- A member activated often enough in the detector's hour. -/
def intermittent (sid : Sid) (now : ℚ) : Bool :=
  (a.engine.store.alarmsOf sid).any fun aid =>
    a.keys.any fun k => k.2 = aid && INTERMITTENT_ACTIVATIONS ≤ a.flap.recent k.1 now

/-- `_close_situation`, of each. -/
def close (sids : List Sid) (ts : ℚ) : Appliance E :=
  { a with engine := sids.foldl (fun e sid => e.close sid ts) a.engine }

/-- The closes of `maintenance`: what is idle, then what `occurrence.settled` returns. -/
def maintenance (now : ℚ) : Appliance E :=
  let a₁ := a.close (a.idle_open_situations (now - IDLE_CLOSE_S)) now
  let a₂ := a₁.end_occurrences (now - CLEAR_HOLD_S) now
  let candidates := a₂.cleared_open_situations (now - CLEAR_HOLD_S)
  a₂.close (candidates.filter fun sid => !a₂.intermittent sid now) now

/-- `POST …/close`: memory forgets right after the commit, with no await between. -/
def operator_close (sid : Sid) (ts : ℚ) : Appliance E :=
  if a.engine.live sid then
    { a with engine := { a.engine with store := a.engine.store.manual_close_situation sid ts }.forget sid }
  else a

/-- The alarm of the fingerprint is active. -/
def raised (fingerprint : Fingerprint) : Bool := (a.alarm_id fingerprint).any a.active

/-- An alarm is a member of a live situation, in memory and in the store. -/
def Housed (aid : Aid) : Prop :=
  ∃ sid, a.engine.sit_of aid = some sid ∧ a.engine.count sid aid = 1 ∧
    (sid, aid) ∈ a.engine.store.situation_alarm ∧ a.engine.live sid = true

/-- Memory and store agree, and the set of what flaps is what the detector last answered. -/
structure Sound (a : Appliance E) : Prop where
  mirrored : a.engine.Mirrored
  filed : a.engine.Filed
  counted : ∀ fingerprint, fingerprint ∈ a.flapping ↔ a.flap.regular (a.flap.history fingerprint) = true

end Appliance

namespace Appliance
variable {E : Type} {a : Appliance E}

theorem Sound.housed (h : a.Sound) {aid : Aid} (hs : (a.engine.sit_of aid).isSome) : a.Housed aid := by
  obtain ⟨sid, hsid⟩ := Option.isSome_iff_exists.mp hs
  refine ⟨sid, hsid, (h.mirrored.agrees aid sid).mp hsid |>.1, h.filed.filed aid sid hsid, ?_⟩
  rw [← h.filed.live]
  exact h.mirrored.tracked hsid

/-- A step that leaves the detector alone. -/
theorem Sound.engine (h : a.Sound) {e : Engine E} (hm : e.Mirrored) (hf : e.Filed) :
    ({ a with engine := e } : Appliance E).Sound := ⟨hm, hf, h.counted⟩

/-- A step that writes to the alarm table only. -/
theorem Sound.table (h : a.Sound) (alarm : Aid → Option Alarm) (keys : List (Fingerprint × Aid))
    (next_alarm : Aid) (cleared_at : Aid → Option ℚ) :
    ({ a.setAlarm alarm with keys := keys, next_alarm := next_alarm, cleared_at := cleared_at } :
      Appliance E).Sound :=
  ⟨h.mirrored.store (t := { a.engine.store with alarm := alarm }) le_rfl h.mirrored.sequenced _,
    h.filed.store (t := { a.engine.store with alarm := alarm }) rfl rfl _, h.counted⟩

theorem ingest_spec (h : a.Sound) (event : Event E) :
    (a.ingest event).1.Sound ∧ (∃ alarm, (a.ingest event).1.engine = (a.setAlarm alarm).engine) ∧
      (a.ingest event).1.alarm_id event.fingerprint = some (a.ingest event).2.alarm_id ∧
      (a.ingest event).1.flap = a.flap ∧ (a.ingest event).1.flapping = a.flapping ∧
      (a.ingest event).2.activated = !a.raised event.fingerprint := by
  unfold ingest raised
  cases hid : a.alarm_id event.fingerprint with
  | none =>
    refine ⟨h.table .., ⟨_, rfl⟩, ?_, rfl, rfl, rfl⟩
    simp only [alarm_id, Option.map_eq_none_iff] at hid
    simp [alarm_id, List.find?_append, hid]
  | some aid => exact ⟨h.table .., ⟨_, rfl⟩, hid, rfl, rfl, rfl⟩

theorem clear_alarm_spec (h : a.Sound) (fingerprint : Fingerprint) (ts : ℚ) :
    (a.clear_alarm fingerprint ts).Sound ∧ (a.clear_alarm fingerprint ts).raised fingerprint = false := by
  unfold clear_alarm
  cases hid : (a.alarm_id fingerprint).filter a.active with
  | none =>
    refine ⟨h, ?_⟩
    rw [raised]
    cases hs : a.alarm_id fingerprint with
    | none => rfl
    | some aid => simpa using Option.filter_eq_none_iff.mp hid aid hs
  | some aid =>
    refine ⟨h.table .., ?_⟩
    obtain ⟨hs, -⟩ := Option.filter_eq_some_iff.mp hid
    change (a.alarm_id fingerprint).any _ = false
    rw [hs]
    simp only [Option.any_some, active, setAlarm, Function.update_self]
    cases a.engine.store.alarm aid <;> rfl

/-- A repeat goes no further if its fingerprint is suppressed or its alarm is in a situation. -/
theorem rearm_spec (h : a.Sound) (result : IngestResult) (event : Event E) :
    (a.rearm result event).1.Sound ∧ (a.rearm result event).1.keys = a.keys ∧
      (a.rearm result event).1.flap = a.flap ∧ (a.rearm result event).1.flapping = a.flapping ∧
      (event.fingerprint ∈ a.flapping → a.rearm result event = (a, false)) ∧
      ((a.rearm result event).2 = false → event.fingerprint ∉ a.flapping →
        (a.rearm result event).1.Housed result.alarm_id) := by
  unfold rearm
  split
  · rename_i hin
    exact ⟨h, rfl, rfl, rfl, fun _ => rfl, fun _ hout => absurd hin hout⟩
  · rename_i hout
    dsimp only
    generalize (decide (0 < a.rearm_s) && _) = silent
    have hsound := h.engine (Engine.mirrored_rearm h.mirrored result.alarm_id event.ts silent)
      (Engine.filed_rearm h.filed result.alarm_id event.ts silent)
    refine ⟨hsound, rfl, rfl, rfl, fun hin => absurd hin hout, fun hstays _ => ?_⟩
    refine hsound.housed ?_
    dsimp only at hstays ⊢
    unfold Engine.rearm at hstays ⊢
    cases hs : a.engine.sit_of result.alarm_id with
    | none =>
      rw [hs] at hstays
      exact absurd hstays (by simp)
    | some sid =>
      rw [hs] at hstays
      dsimp only at hstays ⊢
      split
      · rename_i hc
        rw [if_pos hc] at hstays
        exact absurd hstays (by simp)
      · rw [hs]
        rfl

/-- The detector's answer to an activation is what the fingerprint counts as from then on. -/
theorem is_flapping_spec (h : a.Sound) (fingerprint : Fingerprint) (ts : ℚ) :
    (a.is_flapping fingerprint ts).1.Sound ∧ (a.is_flapping fingerprint ts).1.keys = a.keys ∧
      (a.is_flapping fingerprint ts).2 = (a.flap.observe fingerprint ts).2 ∧
      (fingerprint ∈ (a.is_flapping fingerprint ts).1.flapping ↔ (a.is_flapping fingerprint ts).2 = true) := by
  have hmem : ∀ other, other ∈ (a.is_flapping fingerprint ts).1.flapping ↔
      if other = fingerprint then (a.flap.observe fingerprint ts).2 = true else other ∈ a.flapping := by
    intro other
    simp only [is_flapping]
    split
    · rename_i he
      split
      · rename_i ho
        rw [he, ho, decide_eq_true_eq]
      · exact Iff.rfl
    · split <;> split <;> simp_all
  refine ⟨⟨h.mirrored, h.filed, fun other => ?_⟩, rfl, rfl, by rw [hmem, if_pos rfl]; rfl⟩
  rw [hmem]
  by_cases ho : other = fingerprint
  · subst ho
    rw [if_pos rfl]
    simp [is_flapping, FlapDetector.observe, FlapDetector.regular]
  · rw [if_neg ho, h.counted]
    simp [is_flapping, FlapDetector.observe, FlapDetector.regular, ho]

section Run
variable [Zero E] [Add E] [Div E] [NatCast E] [BEq E] [LT E] [DecidableLT E]

/-- What is a new occurrence is heard by the detector, then placed unless it flaps. -/
def occur (a : Appliance E) (aid : Aid) (event : Event E) : Appliance E :=
  let found := a.is_flapping event.fingerprint event.ts
  if found.2 then found.1
  else { found.1 with engine := found.1.engine.activate ⟨aid, event.fingerprint.class_id,
    event.fingerprint.device_id, event.ts⟩ event.scored }

theorem correlate_eq (result : IngestResult) (event : Event E) : a.correlate result event =
    if result.activated then a.occur result.alarm_id event
    else if (a.rearm result event).2 then (a.rearm result event).1.occur result.alarm_id event
    else (a.rearm result event).1 := by
  unfold correlate occur
  cases result.activated <;> rfl

theorem occur_spec (h : a.Sound) (aid : Aid) (event : Event E) :
    (a.occur aid event).Sound ∧ (a.occur aid event).keys = a.keys ∧
      ((a.occur aid event).Housed aid ∨ event.fingerprint ∈ (a.occur aid event).flapping) ∧
      ((a.flap.observe event.fingerprint event.ts).2 = false →
        (a.occur aid event).Housed aid ∧ event.fingerprint ∉ (a.occur aid event).flapping) := by
  obtain ⟨hsound, hkeys, hfound, hin⟩ := is_flapping_spec h event.fingerprint event.ts
  simp only [occur]
  split
  · rename_i hf
    exact ⟨hsound, hkeys, .inr (hin.mpr hf), fun hno => absurd (hfound.symm.trans hf) (by simp [hno])⟩
  · rename_i hf
    obtain ⟨hm, hfiled, hpoint⟩ := Engine.activate_filed hsound.mirrored hsound.filed
      ⟨aid, event.fingerprint.class_id, event.fingerprint.device_id, event.ts⟩ event.scored
    have hs := hsound.engine hm hfiled
    exact ⟨hs, hkeys, .inl (hs.housed hpoint), fun _ => ⟨hs.housed hpoint, fun hmem => hf (hin.mp hmem)⟩⟩

/-- A raise leaves its alarm in a live situation, unless its fingerprint counts as flapping. -/
theorem correlate_spec (h : a.Sound) (result : IngestResult) (event : Event E) :
    let a' := a.correlate result event
    a'.Sound ∧ a'.keys = a.keys ∧ (a'.Housed result.alarm_id ∨ event.fingerprint ∈ a'.flapping) ∧
      (result.activated = false → event.fingerprint ∈ a.flapping → a' = a) ∧
      (result.activated = true → (a.flap.observe event.fingerprint event.ts).2 = false →
        a'.Housed result.alarm_id ∧ event.fingerprint ∉ a'.flapping) := by
  dsimp only
  rw [correlate_eq]
  cases result.activated with
  | true =>
    obtain ⟨hsound, hkeys, hplaced, hregular⟩ := occur_spec h result.alarm_id event
    exact ⟨hsound, hkeys, hplaced, fun hno => absurd hno (by simp), fun _ => hregular⟩
  | false =>
    obtain ⟨hsound, hkeys, -, hflapping, hsuppressed, hstays⟩ := rearm_spec h result event
    cases hocc : (a.rearm result event).2 with
    | false =>
      refine ⟨hsound, hkeys, ?_, fun _ hin => by simp [hsuppressed hin], fun hno => absurd hno (by simp)⟩
      by_cases hin : event.fingerprint ∈ a.flapping
      · exact .inr (hflapping ▸ hin)
      · exact .inl (hstays hocc hin)
    | true =>
      obtain ⟨hsound', hkeys', hplaced, -⟩ := occur_spec hsound result.alarm_id event
      refine ⟨hsound', hkeys'.trans hkeys, hplaced, fun _ hin => ?_, fun hno => absurd hno (by simp)⟩
      rw [hsuppressed hin] at hocc
      exact absurd hocc (by simp)

/-- What a trap leaves of its alarm. -/
theorem process_spec (h : a.Sound) (event : Event E) :
    let a' := a.process event
    a'.Sound ∧ ∀ aid, a'.alarm_id event.fingerprint = some aid → a'.active aid = true →
      (a'.Housed aid ∨ event.fingerprint ∈ a'.flapping) ∧
      (a.raised event.fingerprint = true → event.fingerprint ∈ a.flapping → a' = (a.ingest event).1) ∧
      (a.raised event.fingerprint = false → (a.flap.observe event.fingerprint event.ts).2 = false →
        a'.Housed aid ∧ event.fingerprint ∉ a'.flapping) := by
  intro a'
  have hcleared : a'.raised event.fingerprint = false → ∀ aid, a'.alarm_id event.fingerprint = some aid →
      ¬ a'.active aid = true := by
    intro hr aid hid
    rw [raised, hid] at hr
    simpa using hr
  cases hraise : event.raise_class with
  | some raise_class =>
    have ha' : a' = a.handle_clear event raise_class := by simp [a', process, hraise]
    obtain ⟨hs, -⟩ := clear_alarm_spec h { event.fingerprint with class_id := raise_class } event.ts
    obtain ⟨hs', hr'⟩ := clear_alarm_spec hs event.fingerprint event.ts
    exact ⟨ha' ▸ hs', fun aid hid hactive => absurd hactive (hcleared (ha' ▸ hr') aid hid)⟩
  | none =>
    cases hclears : event.clears with
    | true =>
      have ha' : a' = a.clear_alarm event.fingerprint event.ts := by simp [a', process, hraise, hclears]
      obtain ⟨hs, hr⟩ := clear_alarm_spec h event.fingerprint event.ts
      exact ⟨ha' ▸ hs, fun aid hid hactive => absurd hactive (hcleared (ha' ▸ hr) aid hid)⟩
    | false =>
      have ha' : a' = (a.ingest event).1.correlate (a.ingest event).2 event := by
        simp [a', process, hraise, hclears]
      obtain ⟨hs, -, hid, hflap, hflapping, hactivated⟩ := ingest_spec h event
      obtain ⟨h1, hkeys, h3, h4, h5⟩ := correlate_spec hs (a.ingest event).2 event
      rw [ha']
      refine ⟨h1, fun aid haid _ => ?_⟩
      have haid' : (a.ingest event).2.alarm_id = aid := by
        rw [alarm_id, hkeys] at haid
        exact Option.some.inj (hid.symm.trans haid)
      rw [haid'] at h3 h5
      rw [hflapping, hactivated] at h4
      rw [hflap, hactivated] at h5
      refine ⟨h3, fun hr hin => h4 (by simp [hr]) hin, fun hr hno => h5 (by simp [hr]) hno⟩

omit [Zero E] [Add E] [Div E] [NatCast E] [BEq E] [LT E] [DecidableLT E] in
/-- The closes of a pass: each situation has no active member, and the others' members stay as they are. -/
theorem close_sound (h : a.Sound) {sids : List Sid} (hs : ∀ sid ∈ sids, a.engine.store.hasActive sid = false)
    (ts : ℚ) : (a.close sids ts).Sound := by
  induction sids generalizing a with
  | nil => exact h
  | cons sid sids ih =>
    have hclose := h.engine ((Engine.mirrored_forget h.mirrored sid).write (.close_situation sid ts))
      (Engine.filed_close h.filed (hs sid List.mem_cons_self) ts)
    exact ih hclose fun sid' hsid' => hs sid' (List.mem_cons_of_mem sid hsid')

omit [Zero E] [Add E] [Div E] [NatCast E] [BEq E] [LT E] [DecidableLT E] in
theorem maintenance_sound (h : a.Sound) (now : ℚ) : (a.maintenance now).Sound := by
  have hidle : (a.close (a.idle_open_situations (now - IDLE_CLOSE_S)) now).Sound := by
    refine close_sound h (fun sid hsid => ?_) now
    have := (List.mem_filter.mp hsid).2
    simpa using (Bool.and_eq_true_iff.mp this).2
  have hended : ((a.close (a.idle_open_situations (now - IDLE_CLOSE_S)) now).end_occurrences
      (now - CLEAR_HOLD_S) now).Sound := hidle.table ..
  refine close_sound hended (fun sid hsid => ?_) now
  have := (List.mem_filter.mp (List.mem_of_mem_filter hsid)).2
  simp only [Bool.and_eq_true, Bool.not_eq_true'] at this
  exact this.1.2

omit [Zero E] [Add E] [Div E] [NatCast E] [BEq E] [LT E] [DecidableLT E] in
theorem operator_close_sound (h : a.Sound) (sid : Sid) (ts : ℚ) : (a.operator_close sid ts).Sound := by
  unfold operator_close
  split
  · exact h.engine (Engine.mirrored_forget (h.mirrored.write (.manual_close_situation sid ts)) sid)
      (Engine.filed_conclude h.filed sid .operator ts)
  · exact h

/-- What happens to the appliance. -/
inductive Happening (E : Type) where
  | process (event : Event E)
  | maintenance (now : ℚ)
  | operator_close (sid : Sid) (ts : ℚ)

def step (a : Appliance E) : Happening E → Appliance E
  | .process event => a.process event
  | .maintenance now => a.maintenance now
  | .operator_close sid ts => a.operator_close sid ts

/-- An empty database, and a process that has heard nothing. -/
def start (grouper : Grouper E) (rearm_s : ℚ) (occurrence_only : Nat → Bool) : Appliance E :=
  { engine := { grouper := grouper }, rearm_s := rearm_s, occurrence_only := occurrence_only }

omit [Zero E] [Add E] [Div E] [NatCast E] [BEq E] [LT E] [DecidableLT E] in
theorem start_sound (grouper : Grouper E) (rearm_s : ℚ) (occurrence_only : Nat → Bool) :
    (start grouper rearm_s occurrence_only).Sound :=
  ⟨⟨fun _ _ => rfl, fun _ _ => rfl, fun _ _ => rfl⟩,
    ⟨fun _ _ hs => absurd hs (by simp [start]), fun _ => rfl,
      fun _ _ hs => absurd hs (by simp [start, Tables.status])⟩,
    fun _ => iff_of_false (by simp [start]) (by simp [start, FlapDetector.regular])⟩

theorem step_sound (h : a.Sound) (op : Happening E) : (a.step op).Sound := by
  cases op with
  | process event => exact (process_spec h event).1
  | maintenance now => exact maintenance_sound h now
  | operator_close sid ts => exact operator_close_sound h sid ts

theorem run_sound (h : a.Sound) (ops : List (Happening E)) : (Runs.run step a ops).Sound := by
  induction ops generalizing a with
  | nil => exact h
  | cons op ops ih => exact ih (step_sound h op)

/-- Along every run a situation is live in the store if and only if memory tracks it, and what counts as
flapping is what the detector last found so. A trap that leaves its alarm active leaves it in a live
situation or with a fingerprint that counts as flapping. Such a fingerprint's repeats change its row only;
the first raise after a clear that the detector does not find flapping puts its alarm in a situation. -/
theorem run_housed (grouper : Grouper E) (rearm_s : ℚ) (occurrence_only : Nat → Bool)
    (ops : List (Happening E)) :
    let a := Runs.run step (start grouper rearm_s occurrence_only) ops
    (∀ sid, a.engine.tracks sid = a.engine.live sid) ∧
    (∀ fingerprint, fingerprint ∈ a.flapping ↔ a.flap.regular (a.flap.history fingerprint) = true) ∧
    ∀ (event : Event E) (aid : Aid), let a' := a.process event
      a'.alarm_id event.fingerprint = some aid → a'.active aid = true →
      (a'.Housed aid ∨ event.fingerprint ∈ a'.flapping) ∧
      (a.raised event.fingerprint = true → event.fingerprint ∈ a.flapping → a' = (a.ingest event).1) ∧
      (a.raised event.fingerprint = false → (a.flap.observe event.fingerprint event.ts).2 = false →
        a'.Housed aid ∧ event.fingerprint ∉ a'.flapping) := by
  intro a
  have h := run_sound (start_sound grouper rearm_s occurrence_only) ops
  exact ⟨h.filed.live, h.counted, fun event => (process_spec h event).2⟩

end Run

def bounced : Fingerprint := ⟨1, 1, "1/5/1"⟩

/-- Six raises ten minutes apart with their clears, and the operator's close. -/
def bouncing : List (Happening ℚ) :=
  ((List.range 5).flatMap fun n => [.process { fingerprint := bounced, ts := 600 * n },
    .process { fingerprint := bounced, ts := 600 * n + 300, clears := true }]) ++
  [.process { fingerprint := bounced, ts := 3000 }, .operator_close 1 3100]

/-- The same alarm two hours later. -/
def repeated : Event ℚ := { fingerprint := bounced, ts := 10200 }

def ungrouped : Grouper ℚ := ⟨.components, ⟨0, 1, 3⟩, .empty⟩

/-- The repeat finds its alarm suppressed still. -/
theorem run_housed_bouncing :
    let a := Runs.run step (start ungrouped 3600 fun _ => false) bouncing
    a.process repeated = (a.ingest repeated).1 :=
  ((run_housed ungrouped 3600 (fun _ => false) bouncing).2.2 repeated 1 (by decide +kernel)
    (by decide +kernel)).2.1 (by decide +kernel) (by decide +kernel)

end Appliance
end NetCoreNoc.Operate
