import Mathlib
import NetCoreNoc.Runs
import NetCoreNoc.Sha256
import NetCoreNoc.Evaluation.Corpus

/-! The sealed holdout: cut once, read through a log of accesses, in transactions of the caller (`seal.py`,
`store/seal.py`). -/
namespace NetCoreNoc.Evaluation.Holdout
open Json Runs

def HOLDOUT_FRACTION : ℕ := 3

/-- What the plan orders the incidents by: the earliest label, and the id. -/
def Labels.key (d : Labels) (incident : ℕ) : ℚ ×ₗ ℕ := toLex (d.at_ incident, incident)

def plan_ordered_incidents (d : Labels) : List ℕ := d.incidents.insertionSort fun i j => d.key i ≤ d.key j

def sealed_third (ordered : List ℕ) : List ℕ := ordered.drop (ordered.length - ordered.length / HOLDOUT_FRACTION)

def comma_joined : List ℕ → Str
  | [] => []
  | [i] => natText i
  | i :: is => natText i ++ lit "," ++ comma_joined is

def digest_of (incident_ids : List ℕ) : Str := Sha256.sha256 (comma_joined incident_ids)

theorem length_plan_ordered (d : Labels) : (plan_ordered_incidents d).length = d.entries.length := by
  rw [plan_ordered_incidents, List.length_insertionSort, Labels.incidents, List.length_map]

/-- The seal holds a third, rounded down. -/
theorem length_sealed_third (ordered : List ℕ) : (sealed_third ordered).length = ordered.length / 3 := by
  rw [sealed_third, List.length_drop, HOLDOUT_FRACTION]
  omega

private theorem plan_ordered_pairwise (d : Labels) :
    (plan_ordered_incidents d).Pairwise fun i j => d.key i < d.key j := by
  have : Std.Total fun i j : ℕ => d.key i ≤ d.key j := ⟨fun _ _ => le_total _ _⟩
  have : IsTrans ℕ fun i j => d.key i ≤ d.key j := ⟨fun _ _ _ => le_trans⟩
  have hsorted : (plan_ordered_incidents d).Pairwise fun i j => d.key i ≤ d.key j := List.pairwise_insertionSort _ _
  have hnodup : (plan_ordered_incidents d).Nodup := (List.perm_insertionSort _ _).nodup_iff.mpr d.nodup
  refine (hsorted.and hnodup).imp fun {i j} h => lt_of_le_of_ne h.1 fun heq => h.2 ?_
  exact congrArg (fun k => (ofLex k).2) heq

/-- What is sealed was labelled later than all that is kept. -/
theorem sealed_third_latest (d : Labels) {i j : ℕ} (hi : i ∈ d.incidents)
    (hkept : i ∉ sealed_third (plan_ordered_incidents d)) (hj : j ∈ sealed_third (plan_ordered_incidents d)) :
    d.key i < d.key j := by
  have hmem : i ∈ plan_ordered_incidents d := (List.perm_insertionSort _ _).mem_iff.mpr hi
  have hsplit := plan_ordered_pairwise d
  rw [sealed_third] at hkept hj
  generalize (plan_ordered_incidents d).length - (plan_ordered_incidents d).length / HOLDOUT_FRACTION = n at hkept hj
  rw [← List.take_append_drop n (plan_ordered_incidents d)] at hmem hsplit
  exact (List.pairwise_append.mp hsplit).2.2 i ((List.mem_append.mp hmem).resolve_right hkept) j hj

structure SealRow where
  release : String
  plan_sha256 : String
  created_at : ℚ
  digest : Str
  incident_count : ℕ
  corpus_incidents : ℕ

structure AccessRow where
  at_ : ℚ
  release : String
  plan_sha256 : String
  purpose : String
  granted : Bool
  outcome : String
  deriving DecidableEq, Repr

/-- `holdout_seal`, which holds one row at most, `holdout_seal_member` in the order of the positions, and
`holdout_access`. -/
structure Tables where
  seal_row : Option SealRow := none
  members : List ℕ := []
  access : List AccessRow := []

namespace Tables
variable (t : Tables)

def record_access (row : AccessRow) : Tables := { t with access := t.access ++ [row] }

/-- The seal's own plan, and every plan that a granted row of the purpose `ratify` names. -/
def ratified_plan_hashes : List String :=
  t.seal_row.toList.map (·.plan_sha256) ++
    (t.access.filter fun r => r.purpose = "ratify" && r.granted).map (·.plan_sha256)

def query_count : ℕ := t.access.countP fun r => r.granted && r.purpose ≠ "ratify"

def sealed_incident_ids : List ℕ := if t.seal_row.isSome then t.members else []

end Tables

/-- What was done to the holdout: the seal was cut over some labels, a plan was registered, or the membership was
asked for, and returned or not. -/
inductive Act where
  | cut (plan_sha256 : String) (labels : Labels)
  | ratified (plan_sha256 : String)
  | spent (plan_sha256 purpose : String) (ids : Option (List ℕ))

/-- The tables with all that was done to them. -/
structure Ledger where
  tables : Tables := {}
  acts : List Act := []

def short (plan_sha256 : String) : String := String.ofList (plan_sha256.toList.take 12)

namespace Ledger
variable (l : Ledger)

/-- `construct`; a second one violates the unique constraint. -/
def construct (release plan_sha256 : String) (now : ℚ) (first_label_at : Labels) : Option Ledger :=
  match l.tables.seal_row with
  | some _ => none
  | none =>
    let ordered := plan_ordered_incidents first_label_at
    let ids := sealed_third ordered
    some ⟨{ l.tables with
        seal_row := some ⟨release, plan_sha256, now, digest_of ids, ids.length, ordered.length⟩
        members := ids }, l.acts ++ [.cut plan_sha256 first_label_at]⟩

def ratify (release plan_sha256 : String) (now : ℚ) : Ledger where
  tables := l.tables.record_access ⟨now, release, plan_sha256, "ratify", true,
    "pre-registration " ++ short plan_sha256 ++ "… recorded for " ++ release⟩
  acts := l.acts ++ [.ratified plan_sha256]

/-- What `spend` answers: why it refuses, or the membership. -/
def asked (plan_sha256 : String) : Except String (List ℕ) :=
  match l.tables.seal_row with
  | none => .error "refused: no seal has been constructed"
  | some _ =>
    if plan_sha256 ∉ l.tables.ratified_plan_hashes then
      .error ("refused: no ratified pre-registration on record for " ++ short plan_sha256 ++
        "…. A release cannot look first and register after.")
    else .ok l.tables.sealed_incident_ids

def spend (release plan_sha256 purpose : String) (now : ℚ) : Ledger :=
  match l.asked plan_sha256 with
  | .error outcome =>
    ⟨l.tables.record_access ⟨now, release, plan_sha256, purpose, false, outcome⟩,
      l.acts ++ [.spent plan_sha256 purpose none]⟩
  | .ok ids =>
    ⟨l.tables.record_access ⟨now, release, plan_sha256, purpose, true,
        "granted: " ++ toString ids.length ++ " sealed incident id(s) returned"⟩,
      l.acts ++ [.spent plan_sha256 purpose (some ids)]⟩

end Ledger

/-- The writer: what is committed, what its open transaction sees, and whether that one has failed. -/
structure Session where
  committed : Ledger := {}
  working : Ledger := {}
  failed : Bool := false

inductive Op where
  | construct (release plan_sha256 : String) (now : ℚ) (first_label_at : Labels)
  | ratify (release plan_sha256 : String) (now : ℚ)
  | spend (release plan_sha256 purpose : String) (now : ℚ)
  /-- an operation that a statement's error interrupts -/
  | fault
  | commit
  | rollback

namespace Session
variable (s : Session)

def back : Session := { s with working := s.committed, failed := false }

/-- A statement finds a transaction that failed undone. -/
def begun : Session := if s.failed then s.back else s

def step : Op → Session
  | .construct release plan_sha256 now first_label_at =>
    match s.begun.working.construct release plan_sha256 now first_label_at with
    | some working => { s.begun with working }
    | none => { s.begun with failed := true }
  | .ratify release plan_sha256 now => { s.begun with working := s.begun.working.ratify release plan_sha256 now }
  | .spend release plan_sha256 purpose now =>
    { s.begun with working := s.begun.working.spend release plan_sha256 purpose now }
  | .fault => { s.begun with failed := true }
  | .commit => if s.failed then s.back else { s with committed := s.working }
  | .rollback => s.back

end Session

/-- A plan that was registered, or that the seal was cut under. -/
def OnRecord (acts : List Act) (plan_sha256 : String) : Prop :=
  .ratified plan_sha256 ∈ acts ∨ ∃ labels, .cut plan_sha256 labels ∈ acts

theorem OnRecord.append {acts : List Act} {plan_sha256 : String} (h : OnRecord acts plan_sha256) (more : List Act) :
    OnRecord (acts ++ more) plan_sha256 :=
  h.imp (List.mem_append_left more) fun ⟨labels, hl⟩ => ⟨labels, List.mem_append_left more hl⟩

namespace Act

def labels : Act → Option Labels
  | cut _ labels => some labels
  | _ => none

/-- The membership was returned, under a purpose that a registration does not have. -/
def counted : Act → Bool
  | spent _ purpose (some _) => purpose ≠ "ratify"
  | _ => false

end Act

namespace Ledger

def cuts (l : Ledger) : List Labels := l.acts.filterMap Act.labels

/-- The seal is the one cut, what was returned was on record before, and the log counts it. -/
structure Sound (l : Ledger) : Prop where
  cut : l.tables.seal_row = none ∧ l.cuts = [] ∨
    ∃ row labels, l.tables.seal_row = some row ∧ l.cuts = [labels] ∧
      l.tables.members = sealed_third (plan_ordered_incidents labels)
  ratified : ∀ plan_sha256 ∈ l.tables.ratified_plan_hashes, OnRecord l.acts plan_sha256
  returned : ∀ i plan_sha256 purpose ids, l.acts[i]? = some (.spent plan_sha256 purpose (some ids)) →
    OnRecord (l.acts.take i) plan_sha256 ∧ l.tables.seal_row.isSome ∧ ids = l.tables.members
  counted : l.tables.query_count = l.acts.countP Act.counted

/-- Only added to: what was done stays, and a seal stays as it is. -/
structure Grows (l m : Ledger) : Prop where
  acts : l.acts <+: m.acts
  sealed : l.tables.seal_row.isSome →
    m.tables.seal_row = l.tables.seal_row ∧ m.tables.members = l.tables.members

theorem Grows.refl (l : Ledger) : l.Grows l := ⟨List.prefix_refl _, fun _ => ⟨rfl, rfl⟩⟩

theorem Grows.trans {l m n : Ledger} (h : l.Grows m) (hn : m.Grows n) : l.Grows n where
  acts := h.acts.trans hn.acts
  sealed hs := by
    obtain ⟨hrow, hmembers⟩ := h.sealed hs
    obtain ⟨hrow', hmembers'⟩ := hn.sealed (hrow ▸ hs)
    exact ⟨hrow'.trans hrow, hmembers'.trans hmembers⟩

private theorem getElem?_snoc {acts : List Act} {a b : Act} {i : ℕ} (h : (acts ++ [a])[i]? = some b) :
    acts[i]? = some b ∧ (acts ++ [a]).take i = acts.take i ∨ b = a ∧ (acts ++ [a]).take i = acts := by
  rcases Nat.lt_trichotomy i acts.length with hi | rfl | hi
  · rw [List.getElem?_append_left hi] at h
    exact .inl ⟨h, List.take_append_of_le_length hi.le⟩
  · rw [List.getElem?_concat_length] at h
    exact .inr ⟨(Option.some.inj h).symm, List.take_left⟩
  · rw [List.getElem?_eq_none (by rw [List.length_append]; exact hi)] at h
    exact nomatch h

/-- An access that is recorded with what it did. -/
theorem Sound.recorded {l : Ledger} (h : l.Sound) {row : AccessRow} {a : Act} (hlabels : a.labels = none)
    (hratify : row.purpose = "ratify" → row.granted → OnRecord (l.acts ++ [a]) row.plan_sha256)
    (hspent : ∀ plan_sha256 purpose ids, a = .spent plan_sha256 purpose (some ids) →
      OnRecord l.acts plan_sha256 ∧ l.tables.seal_row.isSome ∧ ids = l.tables.members)
    (hcount : (row.granted && row.purpose ≠ "ratify") = a.counted) :
    Sound ⟨l.tables.record_access row, l.acts ++ [a]⟩ where
  cut := by
    have hcuts : cuts ⟨l.tables.record_access row, l.acts ++ [a]⟩ = l.cuts := by
      rw [cuts, List.filterMap_append, List.filterMap_cons_none hlabels, List.filterMap_nil, List.append_nil]
      rfl
    rw [hcuts]
    exact h.cut
  ratified plan_sha256 hp := by
    simp only [Tables.ratified_plan_hashes, Tables.record_access, List.filter_append, List.map_append,
      List.mem_append] at hp
    rcases hp with hp | hp | hp
    · exact (h.ratified plan_sha256 (List.mem_append_left _ hp)).append [a]
    · exact (h.ratified plan_sha256 (List.mem_append_right _ hp)).append [a]
    · obtain ⟨r, hr, rfl⟩ := List.mem_map.mp hp
      obtain ⟨hr, hwhich⟩ := List.mem_filter.mp hr
      obtain rfl := List.mem_singleton.mp hr
      obtain ⟨hpurpose, hgranted⟩ := Bool.and_eq_true_iff.mp hwhich
      exact hratify (of_decide_eq_true hpurpose) hgranted
  returned i plan_sha256 purpose ids hi := by
    rcases getElem?_snoc hi with ⟨hi, htake⟩ | ⟨ha, htake⟩
    · rw [htake]
      exact h.returned i plan_sha256 purpose ids hi
    · rw [htake]
      exact hspent plan_sha256 purpose ids ha.symm
  counted := by
    have hnew : Tables.query_count (l.tables.record_access row) =
        l.tables.query_count + if row.granted && row.purpose ≠ "ratify" then 1 else 0 := by
      rw [Tables.query_count, Tables.record_access, List.countP_append, List.countP_singleton]
      rfl
    rw [hnew, List.countP_append, List.countP_singleton, h.counted, hcount]

theorem Sound.ratify {l : Ledger} (h : l.Sound) (release plan_sha256 : String) (now : ℚ) :
    (l.ratify release plan_sha256 now).Sound :=
  h.recorded rfl (fun _ _ => .inl (List.mem_append_right _ List.mem_cons_self)) (fun _ _ _ ha => nomatch ha) rfl

theorem asked_ok {l : Ledger} {plan_sha256 : String} {ids : List ℕ} (h : l.asked plan_sha256 = .ok ids) :
    plan_sha256 ∈ l.tables.ratified_plan_hashes ∧ l.tables.seal_row.isSome ∧ ids = l.tables.members := by
  unfold asked at h
  split at h
  · exact nomatch h
  · rename_i hrow
    split at h
    · exact nomatch h
    · rename_i hplan
      rw [Tables.sealed_incident_ids, hrow] at h
      exact ⟨not_not.mp hplan, hrow ▸ rfl, (Except.ok.inj h).symm⟩

theorem Sound.spend {l : Ledger} (h : l.Sound) (release plan_sha256 purpose : String) (now : ℚ) :
    (l.spend release plan_sha256 purpose now).Sound := by
  unfold Ledger.spend
  split
  · exact h.recorded rfl (fun _ hg => nomatch hg) (fun _ _ _ ha => nomatch ha) rfl
  · rename_i ids hids
    obtain ⟨hplan, hrow, rfl⟩ := asked_ok hids
    have hrecord := h.ratified plan_sha256 hplan
    refine h.recorded rfl (fun _ _ => hrecord.append _) (fun _ _ _ ha => ?_) rfl
    obtain ⟨rfl, -, hids⟩ := Act.spent.injEq .. ▸ ha
    exact ⟨hrecord, hrow, (Option.some.inj hids).symm⟩

theorem Sound.construct {l m : Ledger} (h : l.Sound) {release plan_sha256 : String} {now : ℚ} {first_label_at : Labels}
    (hm : l.construct release plan_sha256 now first_label_at = some m) : m.Sound ∧ l.Grows m := by
  unfold Ledger.construct at hm
  split at hm
  · exact nomatch hm
  · rename_i hrow
    obtain rfl := Option.some.inj hm
    have hcuts : l.cuts = [] := by
      rcases h.cut with ⟨-, hcuts⟩ | ⟨row, _, hsome, -⟩
      · exact hcuts
      · exact nomatch hrow.symm.trans hsome
    refine ⟨⟨.inr ⟨_, first_label_at, rfl, ?_, rfl⟩, fun plan hp => ?_, fun i plan purpose ids hi => ?_, ?_⟩,
      List.prefix_append .., fun hs => ?_⟩
    · show (l.acts ++ [_]).filterMap Act.labels = _
      rw [List.filterMap_append]
      exact congrArg (· ++ [first_label_at]) hcuts
    · rcases List.mem_append.mp hp with hp | hp
      · obtain rfl := List.mem_singleton.mp hp
        exact .inr ⟨first_label_at, List.mem_append_right _ List.mem_cons_self⟩
      · exact (h.ratified plan (List.mem_append_right _ hp)).append _
    · -- nothing was returned before there was a seal
      rcases getElem?_snoc hi with ⟨hi, -⟩ | ⟨ha, -⟩
      · exact absurd (h.returned i plan purpose ids hi).2.1 (by rw [hrow]; exact (nomatch ·))
      · exact nomatch ha
    · have hcount := h.counted
      rw [List.countP_append]
      exact hcount
    · exact absurd hs (by rw [hrow]; exact (nomatch ·))

theorem grows_recorded (l : Ledger) (row : AccessRow) (a : Act) :
    l.Grows ⟨l.tables.record_access row, l.acts ++ [a]⟩ := ⟨List.prefix_append .., fun _ => ⟨rfl, rfl⟩⟩

theorem grows_spend (l : Ledger) (release plan_sha256 purpose : String) (now : ℚ) :
    l.Grows (l.spend release plan_sha256 purpose now) := by
  unfold Ledger.spend
  split <;> exact grows_recorded ..

end Ledger

namespace Session

/-- Both views are sound, and the open transaction adds to what is committed. -/
structure Kept (s : Session) : Prop where
  committed : s.committed.Sound
  working : s.working.Sound
  grows : s.committed.Grows s.working

theorem Kept.back {s : Session} (h : s.Kept) : s.back.Kept := ⟨h.committed, h.committed, .refl _⟩

theorem Kept.begun {s : Session} (h : s.Kept) : s.begun.Kept := by
  unfold Session.begun
  split
  · exact h.back
  · exact h

theorem begun_committed (s : Session) : s.begun.committed = s.committed := by
  unfold Session.begun
  split <;> rfl

theorem Kept.step {s : Session} (h : s.Kept) (op : Op) :
    (s.step op).Kept ∧ s.committed.Grows (s.step op).committed := by
  have hb := h.begun
  have hsame : s.committed.Grows s.begun.committed := s.begun_committed ▸ .refl _
  cases op with
  | construct release plan_sha256 now first_label_at =>
    rw [Session.step]
    split
    · rename_i m hm
      obtain ⟨hsound, hgrows⟩ := hb.working.construct hm
      exact ⟨⟨hb.committed, hsound, hb.grows.trans hgrows⟩, hsame⟩
    · exact ⟨⟨hb.committed, hb.working, hb.grows⟩, hsame⟩
  | ratify release plan_sha256 now =>
    exact ⟨⟨hb.committed, hb.working.ratify .., hb.grows.trans (Ledger.grows_recorded ..)⟩, hsame⟩
  | spend release plan_sha256 purpose now =>
    exact ⟨⟨hb.committed, hb.working.spend .., hb.grows.trans (Ledger.grows_spend ..)⟩, hsame⟩
  | fault => exact ⟨⟨hb.committed, hb.working, hb.grows⟩, hsame⟩
  | commit =>
    rw [Session.step]
    split
    · exact ⟨h.back, .refl _⟩
    · exact ⟨⟨h.working, h.working, .refl _⟩, h.grows⟩
  | rollback => exact ⟨h.back, .refl _⟩

theorem kept_start : ({} : Session).Kept := by
  have hsound : ({} : Ledger).Sound :=
    ⟨.inl ⟨rfl, rfl⟩, fun _ h => (nomatch h),
      fun i _ _ _ h => (nomatch (List.getElem?_nil (i := i)).symm.trans h), rfl⟩
  exact ⟨hsound, hsound, .refl _⟩

theorem Kept.run {s : Session} (h : s.Kept) (es : List Op) :
    (Runs.run Session.step s es).Kept ∧ s.committed.Grows (Runs.run Session.step s es).committed := by
  induction es generalizing s with
  | nil => exact ⟨h, .refl _⟩
  | cons e es ih =>
    obtain ⟨hkept, hgrows⟩ := h.step e
    obtain ⟨hrun, hmore⟩ := ih hkept
    exact ⟨hrun, hgrows.trans hmore⟩

end Session

/-- After any operations, in what is committed and in what the open transaction sees: there is at most one cut; the
membership is the last third of its incidents by their first label; it was returned only under a plan that was on record
before; and the log counts how often, but for the purpose of a registration. What is committed is only added to. Of all
this the labelled corpus reads nothing: each promoted pair has the verdict of the label that counts. -/
theorem holdout_kept (es fs : List Op) :
    (∀ l ∈ [(run Session.step {} es).committed, (run Session.step {} es).working],
      l.cuts.length ≤ 1 ∧
      (∀ labels ∈ l.cuts, l.tables.members = sealed_third (plan_ordered_incidents labels) ∧
        l.tables.members.length = labels.incidents.length / 3 ∧
        ∀ i ∈ labels.incidents, i ∉ l.tables.members → ∀ j ∈ l.tables.members, labels.key i < labels.key j) ∧
      (∀ i plan_sha256 purpose ids, l.acts[i]? = some (.spent plan_sha256 purpose (some ids)) →
        OnRecord (l.acts.take i) plan_sha256 ∧ l.cuts ≠ [] ∧ ids = l.tables.members) ∧
      l.tables.query_count = l.acts.countP Act.counted) ∧
    (run Session.step {} es).committed.Grows (run Session.step {} (es ++ fs)).committed ∧
    ∀ (c : Corpus) (include_legacy : Bool), ∀ f ∈ c.feedback, c.counts include_legacy f →
      ∀ p ∈ c.pairs, p.promoted → p.situation_id = f.situation_id →
        ∃ row ∈ c.labelled_pairs include_legacy, row.pair = p ∧ row.feedback_id = f.id ∧ row.verdict = f.verdict := by
  obtain ⟨hkept, -⟩ := Session.kept_start.run es
  refine ⟨fun l hl => ?_, ?_, fun c include_legacy f hf hcounts p hp hpromoted hs =>
    c.mem_labelled_pairs include_legacy p f hf hp hpromoted hs hcounts⟩
  · have hsound : l.Sound := by
      rcases List.mem_pair.mp hl with rfl | rfl
      · exact hkept.committed
      · exact hkept.working
    have hcut : l.cuts.length ≤ 1 ∧ (l.tables.seal_row.isSome → l.cuts ≠ []) ∧
        ∀ labels ∈ l.cuts, l.tables.members = sealed_third (plan_ordered_incidents labels) := by
      rcases hsound.cut with ⟨hrow, hcuts⟩ | ⟨row, labels, hrow, hcuts, hmembers⟩ <;> rw [hcuts, hrow]
      · exact ⟨Nat.zero_le _, (nomatch ·), fun _ h => (nomatch h)⟩
      · exact ⟨le_rfl, fun _ => List.cons_ne_nil _ _, fun x hx => List.mem_singleton.mp hx ▸ hmembers⟩
    obtain ⟨honce, hsome, hmembers⟩ := hcut
    refine ⟨honce, fun labels hlabels => ?_, fun i plan_sha256 purpose ids hi => ?_, hsound.counted⟩
    · rw [hmembers labels hlabels]
      refine ⟨rfl, ?_, fun i hi hkeep j hj => sealed_third_latest labels hi hkeep hj⟩
      rw [length_sealed_third, length_plan_ordered, Labels.incidents, List.length_map]
    · obtain ⟨hrecord, hrow, hids⟩ := hsound.returned i plan_sha256 purpose ids hi
      exact ⟨hrecord, hsome hrow, hids⟩
  · rw [run_append]
    exact (hkept.run fs).2

/-- Three situations, each with a label and a pair. -/
private def labelled (verdict : String) : Corpus where
  feedback := [⟨1, 1, "confirm", 10, true, none, none, none⟩, ⟨2, 2, "confirm", 20, true, none, none, none⟩,
    ⟨3, 3, verdict, 30, true, none, none, none⟩]
  pairs := [⟨1, 1, true, 1, 2, 5, 0, 0, true, 9⟩, ⟨2, 2, true, 3, 4, 5, 0, 0, true, 19⟩,
    ⟨3, 3, true, 5, 6, 5, 0, 0, true, 29⟩]

private def cut : List Op := [.construct "v0.10.0" "c03a" 40 (first_label_per_incident (labelled "confirm")), .commit]

/-- The membership is returned under the purpose of a registration, or in a transaction that is rolled back: the count
stays 0. And before it is returned at all, the verdict on the one sealed incident is in the labelled pairs. -/
theorem sealed_label_read :
    (run Session.step {} cut).committed.tables.members = [3] ∧
      (run Session.step {} cut).committed.tables.query_count = 0 ∧
      (labelled "confirm").feedback.filter (fun f => resolve [] f.situation_id ∉ [3]) =
        (labelled "split").feedback.filter (fun f => resolve [] f.situation_id ∉ [3]) ∧
      (labelled "confirm").pairs = (labelled "split").pairs ∧
      (labelled "confirm").labelled_pairs false ≠ (labelled "split").labelled_pairs false ∧
      (run Session.step {} (cut ++ [.spend "v" "c03a" "ratify" 50])).working.tables.access.map (·.granted) = [true] ∧
      (run Session.step {} (cut ++ [.spend "v" "c03a" "ratify" 50])).working.tables.query_count = 0 ∧
      (run Session.step {} (cut ++ [.spend "v" "c03a" "probe" 50])).working.tables.query_count = 1 ∧
      (run Session.step {} (cut ++ [.spend "v" "c03a" "probe" 50, .rollback])).working.tables.query_count = 0 := by
  decide +kernel

end NetCoreNoc.Evaluation.Holdout
