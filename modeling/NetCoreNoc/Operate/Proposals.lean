import Mathlib
import NetCoreNoc.Situations.Lifecycle
import NetCoreNoc.Operate.Engine

/-! A model never grows what an operator confirmed: what routing may do to open situations, to the
bags that propose to join them, and to proposals that were refused. -/
namespace NetCoreNoc.Situations.Tables
variable {t : Tables}

theorem mem_addMember {sid : Sid} {aid : Aid} {r : Sid × Aid} :
    r ∈ (t.addMember sid aid).situation_alarm ↔ r ∈ t.situation_alarm ∨ r = (sid, aid) := by
  unfold addMember
  split
  · rename_i h
    exact ⟨.inl, fun hr => hr.elim id fun he => he ▸ h⟩
  · simp

theorem situation_addMember (sid : Sid) (aid : Aid) : (t.addMember sid aid).situation = t.situation := by
  unfold addMember
  split <;> rfl

/-- What adding members to a situation leaves alone. -/
theorem foldl_addMember (sid : Sid) (as : List Aid) (t : Tables) :
    let t' := as.foldl (fun t a => t.addMember sid a) t
    t'.situation = t.situation ∧ t'.next = t.next ∧
      ∀ r, r.1 ≠ sid → (r ∈ t'.situation_alarm ↔ r ∈ t.situation_alarm) := by
  induction as generalizing t with
  | nil => exact ⟨rfl, rfl, fun _ _ => Iff.rfl⟩
  | cons a as ih =>
    obtain ⟨h1, h2, h3⟩ := ih (t.addMember sid a)
    refine ⟨h1.trans (situation_addMember sid a), h2.trans (next_addMember sid a), fun r hr => ?_⟩
    rw [List.foldl_cons, h3 r hr, mem_addMember]
    exact or_iff_left fun he => hr (congrArg Prod.fst he)

theorem situation_update_ne {sid i : Sid} (p : Situation → Bool) (f : Situation → Situation)
    (h : i ≠ sid) : (t.update sid p f).situation i = t.situation i := if_neg h

/-- A merge leaves every situation but the two alone, and of the destination only the clock moves. -/
theorem merge_frame (dst src : Sid) (ts : ℚ) :
    (∀ i, i ≠ src → i ≠ dst → (t.merge_situations dst src ts).situation i = t.situation i) ∧
    (dst ≠ src → (t.merge_situations dst src ts).situation dst =
      (t.situation dst).map fun r => { r with updated_at := ts }) ∧
    (dst ≠ src → ∀ r, t.situation src = some r → ∃ r', (t.merge_situations dst src ts).situation src =
      some r' ∧ r'.status = .resolved ∧ r'.merged_into = some dst) ∧
    (t.merge_situations dst src ts).next = t.next ∧
    ∀ r, r.1 ≠ src → r.1 ≠ dst →
      (r ∈ (t.merge_situations dst src ts).situation_alarm ↔ r ∈ t.situation_alarm) := by
  obtain ⟨h1, h2, h3⟩ := foldl_addMember dst (t.alarmsOf src) t
  refine ⟨fun i hi hi' => ?_, fun hne => ?_, fun hne r hr => ?_, h2, fun r hr hr' => ?_⟩
  · simp only [merge_situations, touch_situation, situation_update_ne _ _ hi', situation_update_ne _ _ hi]
    exact congrFun h1 i
  · simp only [merge_situations, touch_situation, update, removeMembers, if_true, if_neg hne, h1]
  · simp [merge_situations, touch_situation, update, removeMembers, h1, hr]
  · rw [← h3 r hr']
    simp [merge_situations, touch_situation, update, removeMembers, hr]

end NetCoreNoc.Situations.Tables

namespace NetCoreNoc.Operate
open Situations Correlate

namespace Engine
variable {E : Type} {e e' e'' : Engine E} {s sid : Sid}

/-- What the engine and its store hold of a situation stays, and no alarm is pointed at it anew. -/
structure Keeps (e e' : Engine E) (s : Sid) : Prop where
  situation : e'.store.situation s = e.store.situation s
  alarms : ∀ a, (s, a) ∈ e'.store.situation_alarm ↔ (s, a) ∈ e.store.situation_alarm
  members : e'.members s = e.members s
  points : ∀ a, e'.sit_of a = some s → e.sit_of a = some s

theorem Keeps.refl (e : Engine E) (s : Sid) : Keeps e e s := ⟨rfl, fun _ => Iff.rfl, rfl, fun _ => id⟩

theorem Keeps.trans (h : Keeps e e' s) (h' : Keeps e' e'' s) : Keeps e e'' s :=
  ⟨h'.situation.trans h.situation, fun a => (h'.alarms a).trans (h.alarms a),
    h'.members.trans h.members, fun a ha => h.points a (h'.points a ha)⟩

theorem Keeps.status (h : Keeps e e' s) : e'.store.status s = e.store.status s := by
  rw [Tables.status, h.situation]
  rfl

/-- A write to another situation's row. -/
theorem keeps_update (hs : s ≠ sid) (p : Situation → Bool) (f : Situation → Situation) (e : Engine E) :
    Keeps e { e with store := e.store.update sid p f } s :=
  ⟨Tables.situation_update_ne p f hs, fun _ => Iff.rfl, rfl, fun _ => id⟩

theorem keeps_create (ts : ℚ) (act : Act) (hs : s ≠ e.store.next) : Keeps e (e.create ts act).1 s := by
  unfold create Tables.create_situation
  cases TRANSITIONS act none with
  | none => exact .refl e s
  | some st =>
    exact ⟨if_neg hs, fun _ => Iff.rfl, Function.update_of_ne hs .., fun _ => id⟩

theorem keeps_mergeInto (ts : ℚ) {other : Sid} (hs : s ≠ sid) (ho : s ≠ other) :
    Keeps e (e.mergeInto ts sid other) s := by
  obtain ⟨hrow, -, -, -, halarm⟩ := Tables.merge_frame (t := e.store) sid other ts
  refine ⟨hrow s ho hs, fun a => halarm (s, a) ho hs, ?_, fun a ha => ?_⟩
  · simp only [mergeInto, Function.update_of_ne hs, Function.update_of_ne ho]
  · simp only [mergeInto, pointAt] at ha
    split at ha
    · exact absurd (Option.some.inj ha).symm hs
    · exact ha

theorem keeps_joinMember {entry : Member} (hs : s ≠ sid) : Keeps e (e.joinMember sid entry) s := by
  unfold joinMember
  split
  · exact .refl e s
  · refine ⟨congrFun (Tables.situation_addMember sid entry.alarm_id) s, fun a => ?_,
      Function.update_of_ne hs .., fun a ha => ?_⟩
    · refine Tables.mem_addMember.trans (or_iff_left fun he => hs (congrArg Prod.fst he))
    · by_cases h : a = entry.alarm_id
      · simp only [h, Function.update_self] at ha
        exact absurd (Option.some.inj ha).symm hs
      · simpa only [Function.update_of_ne h] using ha

/-- A fold into a situation: the others stay, it keeps its status and its target, and every bag that
folds is resolved into it. -/
theorem mergeInto_all (ts : ℚ) (sid : Sid) (bags : List Sid) (hsid : sid ∉ bags) (e : Engine E) :
    let e' := bags.foldl (fun e m => e.mergeInto ts sid m) e
    (∀ s, s ≠ sid → s ∉ bags → Keeps e e' s) ∧
    e'.store.status sid = e.store.status sid ∧ e'.target_of sid = e.target_of sid ∧
    ∀ m ∈ bags, ∀ r, e.store.situation m = some r →
      ∃ r', e'.store.situation m = some r' ∧ r'.status = .resolved ∧ r'.merged_into = some sid := by
  induction bags generalizing e with
  | nil => exact ⟨fun s _ _ => .refl e s, rfl, rfl, fun m hm => absurd hm (by simp)⟩
  | cons b bags ih =>
    obtain ⟨h1, h2, h3, h4⟩ := ih (fun h => hsid (List.mem_cons_of_mem b h)) (e.mergeInto ts sid b)
    have hne : sid ≠ b := fun h => hsid (h ▸ List.mem_cons_self)
    obtain ⟨-, hdst, hsrc, -, -⟩ := Tables.merge_frame (t := e.store) sid b ts
    refine ⟨fun s hs hb => ?_, h2.trans ?_, h3.trans ?_, fun m hm r hr => ?_⟩
    · rw [List.mem_cons, not_or] at hb
      exact (keeps_mergeInto ts hs hb.1).trans (h1 s hs hb.2)
    · rw [Tables.status, mergeInto, hdst hne, Option.map_map]
      rfl
    · rw [target_of, mergeInto, hdst hne, target_of]
      cases e.store.situation sid <;> rfl
    · by_cases hb : m = b
      · obtain ⟨r', hr', hres, hinto⟩ := hsrc hne r (hb ▸ hr)
        by_cases hin : m ∈ bags
        · exact h4 m hin r' (hb ▸ hr')
        · have hm' : m ≠ sid := fun h => hne (h ▸ hb)
          exact ⟨r', (h1 m hm' hin).situation.trans (hb ▸ hr'), hres, hinto⟩
      · have hin := (List.mem_cons.mp hm).resolve_left hb
        have hm' : m ≠ sid := fun h => hsid (h ▸ hm)
        exact h4 m hin r ((keeps_mergeInto ts hm' hb).situation.trans hr)

theorem status_eq {st : Status} (h : st ≠ .new) : e.status s = st ↔ e.store.status s = some st := by
  unfold status
  cases e.store.status s with
  | none => exact ⟨fun he => absurd he.symm h, fun he => absurd he (by simp)⟩
  | some st' => exact Option.some_inj.symm

/-- What routing may answer. -/
inductive Routed (e : Engine E) (own : Option Sid) : Route → Prop where
  /-- a bag that proposes grows, and takes what may fold into it -/
  | pending {s : Sid} {merges : List Sid} : e.tracks s → e.status s = .pending →
      (∀ m ∈ merges, e.foldable (e.target_of s) m) → Routed e own ⟨some s, merges, none⟩
  /-- no confirmed situation is involved: new bags merge -/
  | plain {sid : Option Sid} {merges : List Sid} :
      (∀ s ∈ sid, e.tracks s ∧ e.status s ≠ .pending ∧ e.status s ≠ .opened) →
      (∀ m ∈ merges, e.status m = .new) → Routed e own ⟨sid, merges, none⟩
  /-- the alarm is in the confirmed situation already -/
  | own {target : Sid} : own = some target → e.tracks target → Routed e own ⟨some target, [], none⟩
  /-- what would join a confirmed situation proposes to -/
  | propose {target : Sid} {merges : List Sid} : e.status target = .opened →
      (∀ m ∈ merges, e.foldable (some target) m) →
      Routed e own ⟨e.pending_for target, merges, some target⟩

theorem routed {F : Type} (e : Engine E) (placement : Placement F) (own : Option Sid) :
    Routed e own (e.route placement own) := by
  have htracks : ∀ s ∈ placement.join.filter e.tracks, e.tracks s = true := fun s hs =>
    (Option.filter_eq_some_iff.mp hs).2
  unfold route
  simp only
  cases hp : (placement.join.filter e.tracks).filter fun s => e.status s = .pending with
  | some s =>
    obtain ⟨hs, hst⟩ := Option.filter_eq_some_iff.mp hp
    exact .pending (htracks s hs) (of_decide_eq_true hst) fun m hm => (List.mem_filter.mp hm).2
  | none =>
    have hnp : ∀ s ∈ placement.join.filter e.tracks, e.status s ≠ .pending := by
      intro s hs hst
      have := Option.filter_eq_none_iff.mp hp s hs
      simp [hst] at this
    cases hc : e.confirmed (placement.join.filter e.tracks)
        (placement.merge.filter fun m => placement.join.filter e.tracks ≠ some m && e.tracks m) with
    | none =>
      refine .plain (fun s hs => ⟨htracks s hs, hnp s hs, fun ho => ?_⟩)
        fun m hm => of_decide_eq_true (List.mem_filter.mp hm).2
      have hopen : (placement.join.filter e.tracks).filter (fun s => e.status s = .opened) = some s :=
        Option.filter_eq_some_iff.mpr ⟨hs, decide_eq_true ho⟩
      rw [confirmed, hopen] at hc
      exact absurd hc (by simp)
    | some target =>
      have htarget : e.status target = .opened ∧ e.tracks target = true := by
        unfold confirmed at hc
        split at hc
        · rename_i s hs
          obtain ⟨hs, hst⟩ := Option.filter_eq_some_iff.mp hs
          obtain rfl := Option.some.inj hc
          exact ⟨of_decide_eq_true hst, htracks s hs⟩
        · have hst := List.find?_some hc
          rw [Bool.and_eq_true] at hst
          have hm := (List.mem_filter.mp (List.mem_of_find?_eq_some hc)).2
          exact ⟨of_decide_eq_true hst.1, (Bool.and_eq_true_iff.mp hm).2⟩
      simp only
      split
      · rename_i howns
        exact .own howns htarget.2
      · refine .propose htarget.1 fun m hm => ?_
        have := (List.mem_filter.mp hm).2
        simp only [Bool.and_eq_true] at this
        exact this.2

/-- The situation that a routed alarm settles in: one that is tracked, or the next of the sequence. -/
theorem settle_cases (e : Engine E) (r : Route) (ts : ℚ) :
    (∃ sid, r.sid = some sid ∧ e.settle r ts = (e, sid)) ∨
    (e.settle r ts).2 = e.store.next ∧
      (e.settle r ts).1.store.status e.store.next = some (if r.propose.isNone then .new else .pending) ∧
      ∀ s, s ≠ e.store.next → Keeps e (e.settle r ts).1 s := by
  unfold settle
  cases hs : r.sid.filter e.tracks with
  | some sid => exact .inl ⟨sid, (Option.filter_eq_some_iff.mp hs).1, rfl⟩
  | none =>
    refine .inr ?_
    have hkeeps : ∀ s, s ≠ e.store.next → Keeps e (e.create ts r.act).1 s := fun s => keeps_create ts r.act
    cases hp : r.propose.isNone <;>
      simp only [Route.act, hp, if_true, Bool.false_eq_true, if_false] at hkeeps ⊢ <;>
      exact ⟨rfl, by simp [create, Tables.create_situation, TRANSITIONS, Tables.insertSituation,
        Tables.status], hkeeps⟩

theorem pending_for_spec {target p : Sid} (h : e.pending_for target = some p) :
    e.store.status p = some .pending ∧ e.target_of p = some target := by
  have := List.find?_some h
  obtain ⟨r, hr, hp⟩ := Option.any_eq_true .. |>.mp this
  rw [Bool.and_eq_true, decide_eq_true_eq, decide_eq_true_eq] at hp
  exact ⟨by rw [Tables.status, hr]; exact congrArg some hp.2, by rw [target_of, hr]; exact hp.1⟩

theorem foldable_live {target : Option Sid} {m : Sid} (h : e.foldable target m = true) :
    e.status m ≠ .opened ∧ (e.status m = .pending → e.target_of m = target) := by
  unfold foldable at h
  cases hs : e.status m <;> simp_all

section Assign
variable [Zero E] [Add E]

/-- The proposal that an assignment makes: of which situation, to join which. -/
def proposes (e : Engine E) (entry : Member) (placement : Placement E) : Option (Sid × Sid) :=
  let r := e.route placement (e.sit_of entry.alarm_id)
  r.propose.map fun target => ((e.settle r entry.ts).2, target)

/-- What an assignment leaves as it was, and what it leaves of the situation it settles in and of
the bags that fold. -/
theorem assign_frame (e : Engine E) (entry : Member) (placement : Placement E) (scored : List (Scored E)) :
    let r := e.route placement (e.sit_of entry.alarm_id)
    let sid := (e.settle r entry.ts).2
    let e₁ := (e.settle r entry.ts).1
    let e' := e.assign entry placement scored
    (∀ s, s ≠ sid → s ∉ r.merges → Keeps e₁ e' s) ∧
      e'.store.status sid = e₁.store.status sid ∧
      e'.target_of sid = (match r.propose with
        | some target => (e₁.store.situation sid).bind fun _ => some target
        | none => e₁.target_of sid) ∧
      ∀ m, m ≠ sid → Keeps e₁ e' m ∨ m ∈ r.merges ∧ ∀ row, e₁.store.situation m = some row →
        ∃ row', e'.store.situation m = some row' ∧ row'.status = .resolved ∧ row'.merged_into = some sid := by
  intro r sid e₁ e'
  obtain ⟨e₂, he₂⟩ : ∃ e₂, e₂ = match r.propose with
    | some target => { e₁ with store := e₁.store.set_proposal sid target }
    | none => e₁ := ⟨_, rfl⟩
  obtain ⟨bags, hbags⟩ : ∃ bags, bags = r.merges.filter fun m => m ≠ sid && e₂.tracks m := ⟨_, rfl⟩
  have hsid : sid ∉ bags := by rw [hbags]; simp
  obtain ⟨h1, h2, h3, h4⟩ := mergeInto_all entry.ts sid bags hsid e₂
  obtain ⟨e₃, he₃⟩ : ∃ e₃, e₃ = bags.foldl (fun e m => e.mergeInto entry.ts sid m) e₂ := ⟨_, rfl⟩
  rw [← he₃] at h1 h2 h3 h4
  have hassign : e' = { e₃.joinMember sid entry with
      grouper := (e₃.joinMember sid entry).grouper.commit sid bags scored (e₃.joinMember sid entry).sit_of
      store := (e₃.joinMember sid entry).store.touch_situation sid entry.ts } := by
    rw [he₃, hbags, he₂]
    rfl
  have hpropose : ∀ s, s ≠ sid → Keeps e₁ e₂ s := by
    intro s hs
    rw [he₂]
    split
    · exact keeps_update hs ..
    · exact .refl e₁ s
  have hlast : ∀ s, s ≠ sid → Keeps e₃ e' s := by
    intro s hs
    have htouch := keeps_update hs (fun _ => true) (fun r => { r with updated_at := entry.ts })
      (e₃.joinMember sid entry)
    have hjoin : Keeps e₃ (e₃.joinMember sid entry) s := keeps_joinMember hs
    have := hjoin.trans htouch
    rw [hassign]
    exact ⟨this.situation, this.alarms, this.members, this.points⟩
  have hrow : (e₃.joinMember sid entry).store.situation = e₃.store.situation := by
    unfold joinMember
    split
    · rfl
    · exact Tables.situation_addMember ..
  have hstatus : e'.store.status sid = e₃.store.status sid := by
    rw [hassign]
    simp only [Tables.status, Tables.touch_situation, Tables.update, if_true, hrow]
    cases e₃.store.situation sid <;> rfl
  have htarget : e'.target_of sid = e₃.target_of sid := by
    rw [hassign]
    simp only [target_of, Tables.touch_situation, Tables.update, if_true, hrow]
    cases e₃.store.situation sid <;> rfl
  have hout : ∀ s, s ≠ sid → s ∉ bags → Keeps e₁ e' s := fun s hs hb =>
    ((hpropose s hs).trans (h1 s hs hb)).trans (hlast s hs)
  refine ⟨fun s hs hm => hout s hs fun hb => hm (hbags ▸ hb |> List.mem_of_mem_filter), ?_, ?_, fun m hm => ?_⟩
  · rw [hstatus, h2, he₂]
    cases r.propose with
    | none => rfl
    | some target => exact congrFun (Tables.status_set_proposal sid target) sid
  · rw [htarget, h3, he₂]
    cases r.propose with
    | none => rfl
    | some target =>
      simp only [target_of, Tables.set_proposal, Tables.update, if_true]
      cases e₁.store.situation sid <;> rfl
  · by_cases hb : m ∈ bags
    · refine .inr ⟨List.mem_of_mem_filter (hbags ▸ hb), fun row hr => ?_⟩
      obtain ⟨row', hr', hres, hinto⟩ := h4 m hb row ((hpropose m hm).situation.trans hr)
      exact ⟨row', (hlast m hm).situation.trans hr', hres, hinto⟩
    · exact .inl (hout m hm hb)

variable {entry : Member} {placement : Placement E}

/-- An alarm that is in the confirmed situation stays there. -/
theorem assign_own {target : Sid} (scored : List (Scored E))
    (hroute : e.route placement (e.sit_of entry.alarm_id) = ⟨some target, [], none⟩)
    (hown : e.sit_of entry.alarm_id = some target) (ht : e.tracks target) :
    e.assign entry placement scored = { e with
      grouper := e.grouper.commit target [] scored e.sit_of
      store := e.store.touch_situation target entry.ts } := by
  have hfilter : (some target).filter e.tracks = some target := Option.filter_eq_some_iff.mpr ⟨rfl, ht⟩
  unfold assign
  rw [hroute]
  simp only [settle, hfilter, List.filter_nil, List.foldl_nil, joinMember, hown, if_true]

/-- An assignment leaves a confirmed situation confirmed, and with the members it had. -/
theorem assign_open (h : e.store.Sequenced) (entry : Member) (placement : Placement E)
    (scored : List (Scored E)) (hs : e.store.status s = some .opened) :
    let e' := e.assign entry placement scored
    e'.store.status s = some .opened ∧
      (∀ a, (s, a) ∈ e'.store.situation_alarm ↔ (s, a) ∈ e.store.situation_alarm) ∧
      e'.members s = e.members s ∧ ∀ a, e'.sit_of a = some s → e.sit_of a = some s := by
  intro e'
  have hopen : e.status s = .opened := (status_eq (by simp)).mpr hs
  have hnext : s ≠ e.store.next := fun he => by
    rw [he, h _ le_rfl] at hs
    exact absurd hs (by simp)
  obtain ⟨r, hr⟩ : ∃ r, r = e.route placement (e.sit_of entry.alarm_id) := ⟨_, rfl⟩
  -- what is routed past the situation leaves it alone
  have past (hsid : ∀ sid, r.sid = some sid → e.status sid ≠ .opened) (hmerge : s ∉ r.merges) :
      e'.store.status s = some .opened ∧
      (∀ a, (s, a) ∈ e'.store.situation_alarm ↔ (s, a) ∈ e.store.situation_alarm) ∧
      e'.members s = e.members s ∧ ∀ a, e'.sit_of a = some s → e.sit_of a = some s := by
    have hframe := (assign_frame e entry placement scored).1 s
    rw [← hr] at hframe
    have hkeeps : Keeps e e' s := by
      rcases settle_cases e r entry.ts with ⟨sid, hrs, he⟩ | ⟨he, -, hk⟩
      · rw [he] at hframe
        exact hframe (fun hss => hsid sid hrs ((show s = sid from hss) ▸ hopen)) hmerge
      · exact (hk s hnext).trans (hframe (he ▸ hnext) hmerge)
    exact ⟨hkeeps.status.trans hs, hkeeps.alarms, hkeeps.members, hkeeps.points⟩
  have hrouted := routed e placement (e.sit_of entry.alarm_id)
  rw [← hr] at hrouted
  cases hrouted with
  | pending ht hp hall =>
    refine past (fun sid hsid => ?_) fun hm => (foldable_live (hall s hm)).1 hopen
    obtain rfl := Option.some.inj hsid
    rw [hp]
    simp
  | plain hsid hall =>
    refine past (fun sid hs => (hsid sid hs).2.2) fun hm => ?_
    rw [hall s hm] at hopen
    exact absurd hopen (by simp)
  | own hown ht =>
    rw [show e' = _ from assign_own scored hr.symm hown ht]
    exact ⟨(congrFun (Tables.status_touch ..) s).trans hs, fun _ => Iff.rfl, rfl, fun _ => id⟩
  | propose ht hall =>
    refine past (fun sid hsid => ?_) fun hm => (foldable_live (hall s hm)).1 hopen
    rw [(status_eq (by simp)).mpr (pending_for_spec hsid).1]
    simp

omit [Zero E] [Add E] in
/-- Where an alarm settles, what was there before it is as it was. -/
theorem settle_before (r : Route) (ts : ℚ) (hnext : s ≠ e.store.next) :
    (e.settle r ts).1.store.situation s = e.store.situation s ∧ ((e.settle r ts).2 = s → (e.settle r ts).1 = e) := by
  rcases settle_cases e r ts with ⟨sid, -, he⟩ | ⟨he, -, hk⟩
  · rw [he]
    exact ⟨rfl, fun _ => rfl⟩
  · exact ⟨(hk s hnext).situation, fun hss => absurd (hss.symm.trans he) hnext⟩

/-- An alarm that proposes settles in a bag that stands to join the target. -/
theorem assign_proposes (scored : List (Scored E)) {target : Sid}
    (ht : (e.route placement (e.sit_of entry.alarm_id)).propose = some target) :
    let e' := e.assign entry placement scored
    let sid := (e.settle (e.route placement (e.sit_of entry.alarm_id)) entry.ts).2
    e'.store.status sid = some .pending ∧ e'.target_of sid = some target := by
  intro e' sid
  obtain ⟨-, hstatus, htarget, -⟩ := assign_frame e entry placement scored
  have hp : (e.settle (e.route placement (e.sit_of entry.alarm_id)) entry.ts).1.store.status sid = some .pending := by
    have hrouted := routed e placement (e.sit_of entry.alarm_id)
    rcases settle_cases e (e.route placement (e.sit_of entry.alarm_id)) entry.ts with ⟨s, hs, he⟩ | ⟨he, hst, -⟩
    · rw [show sid = s from congrArg Prod.snd he, he]
      generalize e.route placement (e.sit_of entry.alarm_id) = r at hrouted ht hs
      cases hrouted with
      | pending _ _ _ | plain _ _ | own _ _ => exact absurd ht (by simp)
      | propose _ _ => exact (pending_for_spec hs).1
    · rw [show sid = _ from he, hst, ht]
      rfl
  obtain ⟨row, hrow, -⟩ := Option.map_eq_some_iff.mp hp
  refine ⟨hstatus.trans hp, htarget.trans ?_⟩
  simp only [ht]
  rw [show _ = some row from hrow, Option.bind_some]

/-- A bag that proposes keeps proposing, or folds into one that proposes to join the same target. -/
theorem assign_pending (h : e.store.Sequenced) (entry : Member) (placement : Placement E)
    (scored : List (Scored E)) (hs : e.store.status s = some .pending) :
    let e' := e.assign entry placement scored
    e'.store.status s = some .pending ∨
      ∃ row d, e'.store.situation s = some row ∧ row.status = .resolved ∧ row.merged_into = some d ∧
        e'.store.status d = some .pending ∧ e'.target_of d = e.target_of s := by
  intro e'
  have hpend : e.status s = .pending := (status_eq (by simp)).mpr hs
  have hnext : s ≠ e.store.next := fun he => by
    rw [he, h _ le_rfl] at hs
    exact absurd hs (by simp)
  obtain ⟨r, hr⟩ : ∃ r, r = e.route placement (e.sit_of entry.alarm_id) := ⟨_, rfl⟩
  obtain ⟨-, hstatus, htarget, hrest⟩ := assign_frame e entry placement scored
  rw [← hr] at hstatus htarget hrest
  obtain ⟨row, hrow, -⟩ := Option.map_eq_some_iff.mp hs
  have hsettle := settle_before r entry.ts hnext
  by_cases hsid : s = (e.settle r entry.ts).2
  · rw [← hsid, hsettle.2 hsid.symm] at hstatus
    exact .inl (hstatus.trans hs)
  · rcases hrest s hsid with hk | ⟨hm, hk⟩
    · refine .inl (hk.status.trans ?_)
      rw [Tables.status, hsettle.1]
      exact hs
    · obtain ⟨row', hrow', hres, hinto⟩ := hk row (hsettle.1.trans hrow)
      refine .inr ⟨row', _, hrow', hres, hinto, ?_⟩
      have hrouted := routed e placement (e.sit_of entry.alarm_id)
      rw [← hr] at hrouted
      cases hrouted with
      | @pending b merges ht hp hall =>
        have hset : e.settle ⟨some b, merges, none⟩ entry.ts = (e, b) := by
          have hfilter : (some b).filter e.tracks = some b := Option.filter_eq_some_iff.mpr ⟨rfl, ht⟩
          simp only [settle, hfilter]
        rw [hset] at hstatus htarget ⊢
        exact ⟨hstatus.trans ((status_eq (by simp)).mp hp),
          htarget.trans ((foldable_live (hall s hm)).2 hpend).symm⟩
      | plain _ hall =>
        rw [hall s hm] at hpend
        exact absurd hpend (by simp)
      | own _ _ => exact absurd hm (by simp)
      | @propose target merges ht hall =>
        obtain ⟨hst, htg⟩ := assign_proposes scored (congrArg Route.propose hr.symm)
        rw [← hr] at hst htg
        exact ⟨hst, htg.trans ((foldable_live (hall s hm)).2 hpend).symm⟩

omit [Zero E] [Add E] in
/-- A proposal is made by a bag that stood to it already, or by a new one. -/
theorem proposes_standing {pair : Sid × Sid}
    (h : e.store.Sequenced) (hp : e.proposes entry placement = some pair)
    (hex : e.store.status pair.1 ≠ none) :
    e.store.status pair.1 = some .pending ∧ e.target_of pair.1 = some pair.2 := by
  obtain ⟨target, ht, rfl⟩ := Option.map_eq_some_iff.mp hp
  obtain ⟨r, hr⟩ : ∃ r, r = e.route placement (e.sit_of entry.alarm_id) := ⟨_, rfl⟩
  have hrouted := routed e placement (e.sit_of entry.alarm_id)
  rw [← hr] at hrouted ht hex ⊢
  rcases settle_cases e r entry.ts with ⟨sid, hrs, he⟩ | ⟨he, -, -⟩
  · rw [he]
    cases hrouted with
    | pending _ _ _ | plain _ _ | own _ _ => exact absurd ht (by simp)
    | propose _ _ =>
      obtain rfl := Option.some.inj ht
      exact pending_for_spec hrs
  · exact absurd (h _ he.ge) hex

/-- A situation that was there stands to join what it stood to join before. -/
theorem assign_standing (h : e.store.Sequenced) (entry : Member) (placement : Placement E)
    (scored : List (Scored E)) (hex : e.store.status s ≠ none) {target : Sid} :
    let e' := e.assign entry placement scored
    e'.store.status s = some .pending → e'.target_of s = some target →
      e.store.status s = some .pending ∧ e.target_of s = some target := by
  intro e' hs ht
  obtain ⟨r, hr⟩ : ∃ r, r = e.route placement (e.sit_of entry.alarm_id) := ⟨_, rfl⟩
  obtain ⟨-, hstatus, htarget, hrest⟩ := assign_frame e entry placement scored
  rw [← hr] at hstatus htarget hrest
  obtain ⟨hbefore, hself⟩ := settle_before r entry.ts fun he => hex (h s he.ge)
  obtain ⟨row, hrow, -⟩ := Option.map_eq_some_iff.mp (Option.ne_none_iff_exists'.mp hex).choose_spec
  by_cases hsid : s = (e.settle r entry.ts).2
  · rw [← hsid, hself hsid.symm] at hstatus htarget
    have hpend := hstatus.symm.trans hs
    refine ⟨hpend, ?_⟩
    cases hpropose : r.propose with
    | none =>
      rw [hpropose] at htarget
      exact htarget.symm.trans ht
    | some joined =>
      have hproposes : e.proposes entry placement = some (s, joined) := by
        simp only [proposes, ← hr, hpropose, Option.map_some, ← hsid]
      simp only [hpropose, hrow, Option.bind_some] at htarget
      exact (proposes_standing h hproposes hex).2.trans (htarget.symm.trans ht)
  · rcases hrest s hsid with hk | ⟨-, hk⟩
    · have hsame := hk.situation.trans hbefore
      rw [Tables.status, hsame] at hs
      rw [target_of, hsame] at ht
      exact ⟨hs, ht⟩
    · obtain ⟨row', hrow', hres, -⟩ := hk row (hbefore.trans hrow)
      rw [Tables.status, hrow', Option.map_some, hres] at hs
      exact absurd hs (by simp)

/-- Routing and its execution: confirmed situations keep their members and are never merged, a bag
that proposes folds into one with the same target only, and a refused pair is not proposed again,
nor stands, unless the bag stood to it before. -/
theorem assign_respects (h : e.store.Sequenced) (entry : Member) (placement : Placement E)
    (scored : List (Scored E)) :
    let e' := e.assign entry placement scored
    (∀ s, e.store.status s = some .opened → e'.store.status s = some .opened ∧
      (∀ a, (s, a) ∈ e'.store.situation_alarm ↔ (s, a) ∈ e.store.situation_alarm) ∧
      e'.members s = e.members s ∧ ∀ a, e'.sit_of a = some s → e.sit_of a = some s) ∧
    (∀ s, e.store.status s = some .pending → e'.store.status s = some .pending ∨
      ∃ row d, e'.store.situation s = some row ∧ row.status = .resolved ∧ row.merged_into = some d ∧
        e'.store.status d = some .pending ∧ e'.target_of d = e.target_of s) ∧
    ∀ pair ∈ e.rejected_proposals, e.store.status pair.1 ≠ none →
      e.proposes entry placement = some pair ∨
        e'.store.status pair.1 = some .pending ∧ e'.target_of pair.1 = some pair.2 →
      e.store.status pair.1 = some .pending ∧ e.target_of pair.1 = some pair.2 :=
  ⟨fun _ hs => assign_open h entry placement scored hs, fun _ hs => assign_pending h entry placement scored hs,
    fun _ _ hex hp => hp.elim (fun hp => proposes_standing h hp hex) fun ⟨hs, ht⟩ =>
      assign_standing h entry placement scored hex hs ht⟩

end Assign

/-- A confirmed situation, a bag that proposes to join it, and the refusal of that proposal. -/
def refused : Engine ℚ where
  store := Runs.run Tables.step {} [.create_situation 0 .correlate,
    .promote_situation 1 0 ⟨.promote, by decide⟩, .create_situation 0 .propose, .set_proposal 2 1]
  sit_of a := if a = 1 then some 1 else if a = 2 then some 2 else none
  members s := if s = 1 then some [⟨1, 1, 1, 0⟩] else if s = 2 then some [⟨2, 1, 1, 0⟩] else none
  rejected_proposals := {(2, 1)}
  grouper := ⟨.cluster, ⟨0, 1, 3⟩, .empty⟩

theorem refused_sequenced : refused.store.Sequenced := Tables.run_sequenced _ fun _ _ => rfl

/-- The next alarm of the confirmed situation, as grouping places it. -/
def nextAlarm : Member × Placement ℚ := (⟨3, 1, 1, 1⟩, ⟨some 1, [], []⟩)

/-- The confirmed situation keeps its status through the assignment of that alarm. -/
theorem assign_respects_refused :
    (refused.assign nextAlarm.1 nextAlarm.2 []).store.status 1 = some .opened :=
  ((assign_respects refused_sequenced nextAlarm.1 nextAlarm.2 []).1 1 (by decide)).1

/-- A bag that still stands to a pair that was refused proposes it again. -/
theorem refused_proposed_again :
    ¬ ∀ (e : Engine ℚ) (entry : Member) (placement : Placement ℚ) (pair : Sid × Sid),
      e.store.Sequenced → e.proposes entry placement = some pair → pair ∉ e.rejected_proposals := by
  intro h
  have hp : refused.proposes nextAlarm.1 nextAlarm.2 = some (2, 1) := by decide
  exact h refused nextAlarm.1 nextAlarm.2 (2, 1) refused_sequenced hp (by decide)

end Engine
end NetCoreNoc.Operate
