import Mathlib
import NetCoreNoc.Runs
import NetCoreNoc.Evaluation.Challenger

/-! Shadow mode (`shadow.py`): the sampler on the ingest path, the training beside it, and the opinions that
reach the store. -/
namespace NetCoreNoc.Evaluation.ShadowMode
open Json Runs PyArith

section
variable (F : Type)

structure WindowAlarm where
  alarm_id : ℕ
  ts : F
  oid_root : Str
  deriving DecidableEq, Repr

/-- A pair as the champion has scored it: two entries of its vector, on the fast path, or the terms. -/
structure EvaluatedPair where
  other : WindowAlarm F
  vector : Option (F × F)
  terms : List (Str × F)
  linked : Bool
  deriving DecidableEq, Repr

structure Opinion where
  challenger_run_id : ℕ
  alarm_a : ℕ
  alarm_b : ℕ
  situation_id : Option ℕ
  delta_t_s : F
  class_affinity : F
  entity_affinity : F
  same_oid_root : Bool
  score : F
  linked : Bool
  incumbent_linked : Bool
  evaluated_at : F
  deriving DecidableEq, Repr

/-- A row of `challenger_run`, as far as `reconstruct` needs it. -/
structure Run where
  id : ℕ
  coefficients : Option Str
  deriving DecidableEq, Repr

structure Tables where
  runs : List Run
  opinions : List (Opinion F)
  deriving DecidableEq, Repr

structure Shadow where
  enabled : Bool
  scorer : Coefficients F
  run_id : Option ℕ
  sample_rate : F
  errors : ℕ
  sampled : ℕ
  dropped : ℕ
  scored : ℕ
  buffer : List (Opinion F)
  seen : ℕ
  deriving DecidableEq, Repr

end

variable {F : Type} [PyArith F]

def MAX_BUFFERED : ℕ := 2000
def SHADOW_MAX_ROWS : ℕ := 200000
def DEFAULT_SAMPLE_RATE : F := div (ofInt 1) (ofInt 100)

/-- `_value_of`: a named term's value. -/
def value_of (terms : List (Str × F)) (name : Str) : F := (terms.lookup name).getD (ofInt 0)

namespace EvaluatedPair
variable (pair : EvaluatedPair F) (entry : WindowAlarm F)

def features : LinkFeatures F where
  delta_t_s := PyArith.abs (sub entry.ts pair.other.ts)
  class_affinity := (pair.vector.map (·.1)).getD (value_of pair.terms (lit "class_affinity"))
  entity_affinity := (pair.vector.map (·.2)).getD (value_of pair.terms (lit "entity_affinity"))
  same_oid_root := if entry.oid_root ≠ [] ∧ pair.other.oid_root ≠ [] then some (entry.oid_root = pair.other.oid_root) else none

/-- The row that is buffered. -/
def opinion (scorer : Coefficients F) (run_id : ℕ) (situation_id : Option ℕ) : Opinion F :=
  let features := pair.features entry
  let verdict := scorer.score features
  { challenger_run_id := run_id
    alarm_a := pair.other.alarm_id
    alarm_b := entry.alarm_id
    situation_id := situation_id
    delta_t_s := features.delta_t_s
    class_affinity := features.class_affinity
    entity_affinity := features.entity_affinity
    same_oid_root := features.same_oid_root = some true
    score := sigmoid verdict.score
    linked := verdict.linked
    incumbent_linked := pair.linked
    evaluated_at := entry.ts }

end EvaluatedPair

namespace Shadow

/-- `Shadow()` -/
def new : Shadow F := ⟨true, .untrained, none, DEFAULT_SAMPLE_RATE, 0, 0, 0, 0, [], 0⟩

def degrade (s : Shadow F) : Shadow F := { s with errors := s.errors + 1 }

/-- One pair that is due: dropped where the buffer is full. -/
def sample (entry : WindowAlarm F) (situation_id : Option ℕ) (run_id : ℕ) (s : Shadow F) (pair : EvaluatedPair F) : Shadow F :=
  if MAX_BUFFERED ≤ s.buffer.length then { s with dropped := s.dropped + 1 }
  else { s with
    buffer := s.buffer ++ [pair.opinion entry s.scorer run_id situation_id]
    scored := s.scored + 1
    sampled := s.sampled + 1 }

/-- The loop over the pairs. It ends where `round` raises. -/
def sweep (entry : WindowAlarm F) (situation_id : Option ℕ) (run_id : ℕ) : List (EvaluatedPair F) → Shadow F → Shadow F
  | [], s => s
  | pair :: rest, s =>
    let s' := { s with seen := s.seen + 1 }
    if le s.sample_rate (ofInt 0) then sweep entry situation_id run_id rest s'
    else
      match round (div (ofInt 1) s.sample_rate) with
      | none => s'.degrade
      | some n =>
        if s'.seen % (max 1 n).toNat ≠ 0 then sweep entry situation_id run_id rest s'
        else sweep entry situation_id run_id rest (s'.sample entry situation_id run_id pair)

def observe (s : Shadow F) (entry : WindowAlarm F) (evaluated : List (EvaluatedPair F)) (situation_id : Option ℕ) : Shadow F :=
  match s.run_id with
  | some run_id => if s.enabled then s.sweep entry situation_id run_id evaluated else s
  | none => s

end Shadow

/-- `prune_shadow`: over the cap, the oldest go. -/
def prune (row_cap : ℕ) (opinions : List (Opinion F)) : List (Opinion F) :=
  let oldest := opinions.zipIdx.mergeSort fun a b => le a.1.evaluated_at b.1.evaluated_at
  let gone := (oldest.take (opinions.length - row_cap)).map (·.2)
  (opinions.zipIdx.filter fun a => a.2 ∉ gone).map (·.1)

theorem mem_prune {row_cap : ℕ} {opinions : List (Opinion F)} {o : Opinion F} (h : o ∈ prune row_cap opinions) :
    o ∈ opinions := by
  obtain ⟨⟨o, i⟩, ho, rfl⟩ := List.mem_map.mp h
  exact (List.mem_zipIdx (List.mem_filter.mp ho).1).2.2 ▸ List.getElem_mem _

/-- The engine's shadow beside the store. `live` is what the open transaction has written, `durable` what is
committed; `seq` gives the ids of runs, and gives none twice. `training` is the document of a training whose fit
is over, down to its coefficients, and `recorded` the run that recorded the scorer in force, where one did. -/
structure State (F : Type) where
  shadow : Shadow F
  training : Option (Option Str)
  live : Tables F
  durable : Tables F
  seq : ℕ
  recorded : Option ℕ
  deriving DecidableEq, Repr

inductive Event (F : Type) where
  /-- the rate that a training has read -/
  | policy (rate : F)
  /-- the corpus was assessed and, where it is sufficient, a scorer fitted and put in force -/
  | fitted (chosen : Option (Coefficients F))
  /-- a training that raised before its last write -/
  | failed
  /-- its last write, under the lock: whether the run was inserted, the flush went through, and the commit -/
  | record (inserted flushed committed : Bool)
  | observe (entry : WindowAlarm F) (evaluated : List (EvaluatedPair F)) (situation_id : Option ℕ)
  | flush (ok : Bool)
  /-- another holder of the lock ends the transaction -/
  | commit
  | rollback
  | restart
  deriving DecidableEq, Repr

namespace State

def init : State F := ⟨.new, none, ⟨[], []⟩, ⟨[], []⟩, 1, none⟩

variable (s : State F)

/-- `Shadow.flush`: all the rows or none, and an opinion names a run that is there. -/
def flush (ok : Bool) : State F :=
  if s.shadow.buffer = [] then s
  else if ok ∧ s.shadow.buffer.all fun o => s.live.runs.any fun run => run.id = o.challenger_run_id then
    { s with
      shadow := { s.shadow with buffer := [] }
      live := { s.live with opinions := prune SHADOW_MAX_ROWS (s.live.opinions ++ s.shadow.buffer) } }
  else { s with shadow := { s.shadow with buffer := [], errors := s.shadow.errors + 1 } }

/-- `self.run_id = await store.open_challenger_run(**document)` -/
def opened (coefficients : Option Str) : State F :=
  { s with
    shadow := { s.shadow with run_id := some s.seq }
    training := none
    live := { s.live with runs := s.live.runs ++ [⟨s.seq, coefficients⟩] }
    seq := s.seq + 1
    recorded := if coefficients.isSome then some s.seq else s.recorded }

def step (s : State F) : Event F → State F
  | .policy rate => { s with shadow := { s.shadow with sample_rate := rate } }
  | .fitted chosen =>
    match s.training, chosen with
    | some _, _ => s
    | none, none => { s with training := some none }
    | none, some c => { s with shadow := { s.shadow with scorer := c }, training := some c.to_json, recorded := none }
  | .failed => { s with shadow := s.shadow.degrade, training := none }
  | .record inserted flushed committed =>
    match s.training with
    | none => s
    | some coefficients =>
      if inserted then
        let t := (s.opened coefficients).flush flushed
        if committed then { t with durable := t.live } else { t with shadow := t.shadow.degrade }
      else { s with shadow := s.shadow.degrade, training := none }
  | .observe entry evaluated situation_id => { s with shadow := s.shadow.observe entry evaluated situation_id }
  | .flush ok => s.flush ok
  | .commit => { s with durable := s.live }
  | .rollback => { s with live := s.durable }
  | .restart => { s with shadow := .new, training := none, live := s.durable, recorded := none }

end State

/-- `_coefficients_of` -/
def Run.coefficients_of (run : Run) : Option (Coefficients F) :=
  match run.coefficients with
  | none => none
  | some [] => none
  | some (c :: text) => (loads (c :: text)).bind Coefficients.from_dict

/-- The run's recorded coefficients give exactly the opinion's score and verdict. -/
def Run.Explains (run : Run) (o : Opinion F) : Prop := ∃ c : Coefficients F, run.coefficients_of = some c ∧
  reconstruct c o.delta_t_s o.class_affinity o.entity_affinity = (o.score, o.linked)

/-- The opinion names a run that gave it. -/
def Tables.Attributed (t : Tables F) (o : Opinion F) : Prop :=
  ∃ run ∈ t.runs, run.id = o.challenger_run_id ∧ run.Explains o

/-- The run that is named is the one that recorded the scorer in force: no training has found too little to fit
since, and none has fitted a scorer and not recorded it. -/
def State.InForce (s : State F) : Prop := s.recorded = s.shadow.run_id

/-- The step reaches the sampler. -/
def Samples (s : State F) (evaluated : List (EvaluatedPair F)) : Prop :=
  s.shadow.enabled ∧ s.shadow.run_id ≠ none ∧ evaluated ≠ [] ∧ ¬ le s.shadow.sample_rate (ofInt 0)

instance [DecidableEq F] (s : State F) (evaluated : List (EvaluatedPair F)) : Decidable (Samples s evaluated) :=
  inferInstanceAs (Decidable (_ ∧ _ ∧ _ ∧ _))

instance (s : State F) : Decidable s.InForce := inferInstanceAs (Decidable (_ = _))

/-- What is sampled is sampled with the scorer in force recorded. -/
def Recorded (s : State F) : Event F → Prop
  | .observe _ evaluated _ => Samples s evaluated → s.InForce
  | _ => True

instance [DecidableEq F] (s : State F) : (e : Event F) → Decidable (Recorded s e)
  | .observe _ evaluated _ => inferInstanceAs (Decidable (Samples s evaluated → s.InForce))
  | .policy _ => .isTrue trivial
  | .fitted _ => .isTrue trivial
  | .failed => .isTrue trivial
  | .record .. => .isTrue trivial
  | .flush _ => .isTrue trivial
  | .commit => .isTrue trivial
  | .rollback => .isTrue trivial
  | .restart => .isTrue trivial

namespace EvaluatedPair

/-- A row is what its scorer says about the features in it. -/
theorem opinion_reconstructs (pair : EvaluatedPair F) (entry : WindowAlarm F) (scorer : Coefficients F) (run_id : ℕ)
    (situation_id : Option ℕ) :
    let o := pair.opinion entry scorer run_id situation_id
    reconstruct scorer o.delta_t_s o.class_affinity o.entity_affinity = (o.score, o.linked) := rfl

end EvaluatedPair

namespace Shadow
variable {entry : WindowAlarm F} {situation_id : Option ℕ} {run_id : ℕ}

/-- What one pair adds is the scorer's row about it, or nothing. -/
theorem sample_buffer (s : Shadow F) (pair : EvaluatedPair F) :
    (s.sample entry situation_id run_id pair).scorer = s.scorer ∧ (s.sample entry situation_id run_id pair).run_id = s.run_id ∧
    ∀ o ∈ (s.sample entry situation_id run_id pair).buffer, o ∈ s.buffer ∨
      o = pair.opinion entry s.scorer run_id situation_id := by
  unfold sample
  split
  · exact ⟨rfl, rfl, fun o ho => .inl ho⟩
  · refine ⟨rfl, rfl, fun o ho => ?_⟩
    exact (List.mem_append.mp ho).imp_right List.mem_singleton.mp

theorem sweep_buffer (evaluated : List (EvaluatedPair F)) (s : Shadow F) :
    (s.sweep entry situation_id run_id evaluated).scorer = s.scorer ∧
    (s.sweep entry situation_id run_id evaluated).run_id = s.run_id ∧
    ∀ o ∈ (s.sweep entry situation_id run_id evaluated).buffer, o ∈ s.buffer ∨
      ∃ pair ∈ evaluated, o = pair.opinion entry s.scorer run_id situation_id := by
  induction evaluated generalizing s with
  | nil => exact ⟨rfl, rfl, fun o ho => .inl ho⟩
  | cons pair rest ih =>
    have hskip := ih { s with seen := s.seen + 1 }
    obtain ⟨hscorer, hid, hbuffer⟩ := @sample_buffer F _ entry situation_id run_id { s with seen := s.seen + 1 } pair
    have htake := ih (sample entry situation_id run_id { s with seen := s.seen + 1 } pair)
    rw [hscorer, hid] at htake
    unfold sweep
    dsimp only
    split
    · exact ⟨hskip.1, hskip.2.1, fun o ho => (hskip.2.2 o ho).imp_right fun ⟨q, hq, h⟩ => ⟨q, List.mem_cons_of_mem _ hq, h⟩⟩
    · split
      · exact ⟨rfl, rfl, fun o ho => .inl ho⟩
      · split
        · exact ⟨hskip.1, hskip.2.1, fun o ho => (hskip.2.2 o ho).imp_right fun ⟨q, hq, h⟩ => ⟨q, List.mem_cons_of_mem _ hq, h⟩⟩
        · refine ⟨htake.1, htake.2.1, fun o ho => ?_⟩
          rcases htake.2.2 o ho with ho | ⟨q, hq, h⟩
          · exact (hbuffer o ho).imp_right fun h => ⟨pair, List.mem_cons_self, h⟩
          · exact .inr ⟨q, List.mem_cons_of_mem _ hq, h⟩

/-- At a rate of nothing, or less, nothing is buffered. -/
theorem sweep_never {s : Shadow F} (h : le s.sample_rate (ofInt 0)) (evaluated : List (EvaluatedPair F)) :
    (s.sweep entry situation_id run_id evaluated).buffer = s.buffer := by
  induction evaluated generalizing s with
  | nil => rfl
  | cons pair rest ih =>
    unfold sweep
    dsimp only
    rw [if_pos h]
    exact @ih { s with seen := s.seen + 1 } h

end Shadow

theorem Tables.Attributed.append {t : Tables F} {o : Opinion F} (h : t.Attributed o) (more : List Run)
    (opinions : List (Opinion F)) : Tables.Attributed ⟨t.runs ++ more, opinions⟩ o := by
  obtain ⟨run, hrun, h⟩ := h
  exact ⟨run, List.mem_append_left _ hrun, h⟩

namespace State

/-- What every state keeps: the opinions that are written are attributed, and what is buffered will be, if its run
is there. -/
structure Sound (s : State F) : Prop where
  ids : ∀ run ∈ s.live.runs, run.id < s.seq
  kept : ∀ run ∈ s.durable.runs, run ∈ s.live.runs
  live : ∀ o ∈ s.live.opinions, s.live.Attributed o
  durable : ∀ o ∈ s.durable.opinions, s.durable.Attributed o
  buffered : ∀ o ∈ s.shadow.buffer, o.challenger_run_id < s.seq ∧
    ∀ run ∈ s.live.runs, run.id = o.challenger_run_id → run.Explains o
  recorded : ∀ id, s.recorded = some id → id < s.seq ∧
    ∀ run ∈ s.live.runs, run.id = id → run.coefficients_of = some s.shadow.scorer
  training : ∀ text, s.training = some (some text) → s.shadow.scorer.to_json = some text

theorem sound_init : (init : State F).Sound := by
  constructor <;> simp [init, Shadow.new]

variable {s : State F}

theorem Sound.flush (h : s.Sound) (ok : Bool) : (s.flush ok).Sound := by
  unfold State.flush
  split
  · exact h
  · split
    · rename_i hall
      refine ⟨h.ids, h.kept, fun o ho => ?_, h.durable, fun _ ho => (List.not_mem_nil ho).elim, h.recorded, h.training⟩
      rcases List.mem_append.mp (mem_prune ho) with ho | ho
      · exact h.live o ho
      · obtain ⟨run, hrun, hid⟩ := List.any_eq_true.mp (List.all_eq_true.mp hall.2 o ho)
        have hid := of_decide_eq_true hid
        exact ⟨run, hrun, hid, (h.buffered o ho).2 run hrun hid⟩
    · exact ⟨h.ids, h.kept, h.live, h.durable, fun _ ho => (List.not_mem_nil ho).elim, h.recorded, h.training⟩

variable [LawfulPyFloat F]

omit [LawfulPyFloat F] in
theorem to_json_cons (c : Coefficients F) {text : Str} (h : c.to_json = some text) : ∃ b r, text = b :: r := by
  rw [c.to_json_eq] at h
  exact ⟨_, _, (Option.some.inj h).symm⟩

theorem coefficients_of_recorded {c : Coefficients F} {text : Str} (h : c.to_json = some text) (id : ℕ) :
    (Run.mk id (some text)).coefficients_of = some c := by
  obtain ⟨b, r, rfl⟩ := to_json_cons c h
  have hback := c.from_dict_to_json
  rwa [h] at hback

theorem Sound.opened (h : s.Sound) {coefficients : Option Str} (ht : s.training = some coefficients) :
    (s.opened coefficients).Sound := by
  have hold : ∀ run ∈ s.live.runs, run.id ≠ s.seq := fun run hrun => (h.ids run hrun).ne
  refine ⟨fun run hrun => ?_, fun run hrun => List.mem_append_left _ (h.kept run hrun), fun o ho => ?_, h.durable,
    fun o ho => ?_, fun id hid => ?_, fun _ h => nomatch h⟩
  · rcases List.mem_append.mp hrun with hrun | hrun
    · exact (h.ids run hrun).trans s.seq.lt_succ_self
    · obtain rfl := List.mem_singleton.mp hrun
      exact s.seq.lt_succ_self
  · exact (h.live o ho).append _ _
  · obtain ⟨hlt, hexplains⟩ := h.buffered o ho
    refine ⟨hlt.trans s.seq.lt_succ_self, fun run hrun hid => ?_⟩
    rcases List.mem_append.mp hrun with hrun | hrun
    · exact hexplains run hrun hid
    · obtain rfl := List.mem_singleton.mp hrun
      exact absurd hid.symm hlt.ne
  · cases coefficients with
    | none =>
      obtain ⟨hlt, hrecorded⟩ := h.recorded id hid
      refine ⟨hlt.trans s.seq.lt_succ_self, fun run hrun hrid => ?_⟩
      rcases List.mem_append.mp hrun with hrun | hrun
      · exact hrecorded run hrun hrid
      · obtain rfl := List.mem_singleton.mp hrun
        exact absurd hrid.symm hlt.ne
    | some text =>
      obtain rfl : s.seq = id := Option.some.inj hid
      refine ⟨s.seq.lt_succ_self, fun run hrun hrid => ?_⟩
      rcases List.mem_append.mp hrun with hrun | hrun
      · exact absurd hrid (hold run hrun)
      · obtain rfl := List.mem_singleton.mp hrun
        exact coefficients_of_recorded (h.training text ht) s.seq

omit [LawfulPyFloat F] in
theorem Sound.observe (h : s.Sound) {entry : WindowAlarm F} {evaluated : List (EvaluatedPair F)} {situation_id : Option ℕ}
    (hr : Samples s evaluated → s.InForce) : (s.step (.observe entry evaluated situation_id)).Sound := by
  rw [step]
  unfold Shadow.observe
  split
  · rename_i run_id hid
    split
    · rename_i henabled
      obtain ⟨hscorer, -, hbuffer⟩ := @Shadow.sweep_buffer F _ entry situation_id run_id evaluated s.shadow
      refine ⟨h.ids, h.kept, h.live, h.durable, fun o ho => ?_, ?_, ?_⟩
      · rcases hbuffer o ho with hold | ⟨pair, hpair, rfl⟩
        · exact h.buffered o hold
        · by_cases hrate : le s.shadow.sample_rate (ofInt 0) = true
          · rw [Shadow.sweep_never hrate] at ho
            exact h.buffered _ ho
          · have hforce := hr ⟨henabled, by rw [hid]; exact Option.some_ne_none _, List.ne_nil_of_mem hpair, hrate⟩
            obtain ⟨hlt, hrecorded⟩ := h.recorded run_id (hforce.trans hid)
            refine ⟨hlt, fun run hrun hrid => ⟨s.shadow.scorer, hrecorded run hrun hrid, ?_⟩⟩
            exact pair.opinion_reconstructs entry s.shadow.scorer run_id situation_id
      · simpa only [hscorer] using h.recorded
      · simpa only [hscorer] using h.training
    · exact h
  · exact h

/-- What each step keeps. -/
theorem Sound.step (h : s.Sound) {e : Event F} (hr : Recorded s e) : (s.step e).Sound := by
  cases e with
  | policy rate => exact ⟨h.ids, h.kept, h.live, h.durable, h.buffered, h.recorded, h.training⟩
  | fitted chosen =>
    unfold State.step
    dsimp only
    split
    · exact h
    · exact ⟨h.ids, h.kept, h.live, h.durable, h.buffered, h.recorded, fun _ ht => nomatch ht⟩
    · rename_i c _
      refine ⟨h.ids, h.kept, h.live, h.durable, h.buffered, fun _ hid => (nomatch hid), fun text ht => ?_⟩
      exact Option.some.inj ht
  | failed => exact ⟨h.ids, h.kept, h.live, h.durable, h.buffered, h.recorded, fun _ ht => nomatch ht⟩
  | record inserted flushed committed =>
    unfold State.step
    dsimp only
    split
    · exact h
    · rename_i coefficients ht
      split
      · have hopened := (h.opened ht).flush flushed
        split
        · exact ⟨hopened.ids, fun _ hrun => hrun, hopened.live, hopened.live, hopened.buffered, hopened.recorded,
            hopened.training⟩
        · exact ⟨hopened.ids, hopened.kept, hopened.live, hopened.durable, hopened.buffered, hopened.recorded,
            hopened.training⟩
      · exact ⟨h.ids, h.kept, h.live, h.durable, h.buffered, h.recorded, fun _ ht => nomatch ht⟩
  | observe entry evaluated situation_id => exact h.observe hr
  | flush ok => exact h.flush ok
  | commit => exact ⟨h.ids, fun _ hrun => hrun, h.live, h.live, h.buffered, h.recorded, h.training⟩
  | rollback =>
    refine ⟨fun run hrun => h.ids run (h.kept run hrun), fun _ hrun => hrun, h.durable, h.durable, fun o ho => ?_,
      fun id hid => ?_, h.training⟩
    · exact (h.buffered o ho).imp_right fun hb run hrun => hb run (h.kept run hrun)
    · exact (h.recorded id hid).imp_right fun hb run hrun => hb run (h.kept run hrun)
  | restart =>
    exact ⟨fun run hrun => h.ids run (h.kept run hrun), fun _ hrun => hrun, h.durable, h.durable,
      fun _ ho => (List.not_mem_nil ho).elim, fun _ hid => (nomatch hid), fun _ ht => nomatch ht⟩

end State

/-- Along every run that samples only with the scorer in force recorded, each opinion that is committed names a
committed run whose coefficients give its score and its verdict. -/
theorem opinions_attributed {F : Type} [PyArith F] [LawfulPyFloat F] (es : List (Event F))
    (h : Meets State.step Recorded State.init es) :
    ∀ o ∈ (run State.step State.init es).durable.opinions, (run State.step State.init es).durable.Attributed o :=
  (run_invariant (I := State.Sound) (fun _ _ hs hr => hs.step hr) State.init es State.sound_init h).durable

/-- Coefficients that leave two simultaneous alarms undecided. -/
def balanced : Coefficients Half := ⟨.half (-2), .half 2, .half 0, .half 0⟩

/-- An alarm beside another of the same second, every pair sampled. -/
def beside : Event Half :=
  .observe ⟨12, .half 200, []⟩ [⟨⟨11, .half 200, []⟩, none, [(lit "class_affinity", .half 0)], true⟩] (some 1)

/-- A scorer that is fitted, recorded and sampled. -/
def sampled : List (Event Half) :=
  [.policy (.half 2), .fitted (some balanced), .record true true true, beside, .flush true, .commit]

theorem opinions_attributed_sampled : (run State.step State.init sampled).durable.opinions.length = 1 ∧
    ∀ o ∈ (run State.step State.init sampled).durable.opinions, (run State.step State.init sampled).durable.Attributed o :=
  ⟨by decide +kernel, opinions_attributed sampled (by decide +kernel)⟩

/-- A scorer that is fitted and recorded; then a training finds too little, and an alarm is sampled. -/
def resampled : List (Event Half) :=
  [.policy (.half 2), .fitted (some balanced), .record true true true, .fitted none, .record true true true, beside,
    .flush true, .commit]

theorem opinion_unattributed : ¬ ∀ es : List (Event Half), ∀ o ∈ (run State.step State.init es).durable.opinions,
    (run State.step State.init es).durable.Attributed o := by
  intro h
  have hnone : ((run State.step State.init resampled).durable.opinions.any fun o =>
      (run State.step State.init resampled).durable.runs.all fun r =>
        decide (r.id = o.challenger_run_id → r.coefficients = none)) = true := by decide +kernel
  obtain ⟨o, ho, hall⟩ := List.any_eq_true.mp hnone
  obtain ⟨r, hr, hid, c, hc, -⟩ := h resampled o ho
  have hrow := of_decide_eq_true (List.all_eq_true.mp hall r hr) hid
  rw [Run.coefficients_of, hrow] at hc
  exact nomatch hc

end NetCoreNoc.Evaluation.ShadowMode
