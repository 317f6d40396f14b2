import Mathlib
import NetCoreNoc.Operate.Arrivals

/-! What memory tracks is what the store keeps live, while the situations are the correlator's own: new
until they are resolved. -/
namespace NetCoreNoc.Operate
open Situations Correlate

namespace Engine
variable {E : Type} {e : Engine E}

/-- The store has every alarm where memory points it, memory tracks the live situations and no others,
and nobody has confirmed one. -/
structure Filed (e : Engine E) : Prop where
  filed : ∀ a s, e.sit_of a = some s → (s, a) ∈ e.store.situation_alarm
  live : ∀ s, e.tracks s = e.live s
  news : ∀ s st, e.store.status s = some st → st = .new ∨ st = .resolved

theorem Filed.status (h : e.Filed) {s : Sid} (ht : e.tracks s = true) : e.store.status s = some .new := by
  rw [h.live, Engine.live] at ht
  obtain ⟨st, hst, hlive⟩ := (Option.any_eq_true ..).mp ht
  rcases h.news s st hst with rfl | rfl
  · exact hst
  · exact absurd hlive (by simp [Status.live])

/-- Another store with the same situations and members. -/
theorem Filed.store (h : e.Filed) {t : Tables} (hs : t.status = e.store.status)
    (ha : t.situation_alarm = e.store.situation_alarm) (g : Grouper E) :
    ({ e with store := t, grouper := g } : Engine E).Filed := by
  refine ⟨fun a s hp => ha ▸ h.filed a s hp, fun s => (h.live s).trans ?_, fun s st hst => h.news s st (hs ▸ hst)⟩
  simp only [Engine.live, hs]

theorem filed_create (h : e.Filed) (ts : ℚ) : (e.create ts .correlate).1.Filed := by
  have hstatus : ∀ s, (e.create ts .correlate).1.store.status s =
      if s = e.store.next then some .new else e.store.status s := by
    intro s
    simp only [create, Tables.create_situation, TRANSITIONS, Option.map_some, Tables.insertSituation,
      Tables.status]
    split <;> rfl
  refine ⟨h.filed, fun s => ?_, fun s st hst => ?_⟩
  · by_cases hs : s = e.store.next
    · simp only [Engine.live, hstatus, if_pos hs]
      simp [tracks, create, Tables.create_situation, TRANSITIONS, Tables.insertSituation, hs, Status.live]
    · have := h.live s
      simp only [Engine.live, hstatus, if_neg hs] at this ⊢
      simpa [tracks, create, Tables.create_situation, TRANSITIONS, Tables.insertSituation, hs] using this
  · rw [hstatus] at hst
    split at hst
    · exact .inl (Option.some.inj hst).symm
    · exact h.news s st hst

/-- What a merge leaves of a row's status, and of the members. -/
theorem merge_files (t : Tables) {dst src : Sid} (hne : dst ≠ src) (ts : ℚ) :
    (∀ i, (t.merge_situations dst src ts).status i =
      if i = src then (t.status src).map fun _ => .resolved else t.status i) ∧
    ∀ s a, s ≠ src → (s, a) ∈ t.situation_alarm ∨ s = dst ∧ (src, a) ∈ t.situation_alarm →
      (s, a) ∈ (t.merge_situations dst src ts).situation_alarm := by
  obtain ⟨hrow, hdst, hsrc, -, halarm⟩ := Tables.merge_frame (t := t) dst src ts
  refine ⟨fun i => ?_, ?_⟩
  · by_cases hi : i = src
    · rw [if_pos hi, hi]
      cases hr : t.situation src with
      | none =>
        have : (t.merge_situations dst src ts).situation src = none := by
          simp [Tables.merge_situations, Tables.touch_situation, Tables.update, Tables.removeMembers,
            hne.symm, (Tables.foldl_addMember dst (t.alarmsOf src) t).1, hr]
        simp [Tables.status, this, hr]
      | some r =>
        obtain ⟨r', hr', hres, -⟩ := hsrc hne r hr
        simp [Tables.status, hr, hr', hres]
    · rw [if_neg hi]
      by_cases hd : i = dst
      · rw [hd, Tables.status, hdst hne, Option.map_map]
        rfl
      · rw [Tables.status, hrow i hi hd, Tables.status]
  · have hadd : ∀ (as : List Aid) (t : Tables) (r : Sid × Aid), r ∈ t.situation_alarm ∨
        r.1 = dst ∧ r.2 ∈ as → r ∈ (as.foldl (fun t a => t.addMember dst a) t).situation_alarm := by
      intro as
      induction as with
      | nil => exact fun t r hr => hr.resolve_right fun hr => absurd hr.2 (by simp)
      | cons a as ih =>
        intro t r hr
        refine ih (t.addMember dst a) r ?_
        rw [Tables.mem_addMember]
        rcases hr with hr | ⟨hd, hr⟩
        · exact .inl (.inl hr)
        · rcases List.mem_cons.mp hr with ha | ha
          · exact .inl (.inr (Prod.ext hd ha))
          · exact .inr ⟨hd, ha⟩
    intro s a hs hr
    have hin := hadd (t.alarmsOf src) t (s, a) (hr.imp id fun hr => ⟨hr.1, List.mem_map.mpr
      ⟨(src, a), List.mem_filter.mpr ⟨hr.2, decide_eq_true rfl⟩, rfl⟩⟩)
    simpa [Tables.merge_situations, Tables.touch_situation, Tables.update, Tables.removeMembers, hs] using hin

theorem filed_mergeInto (hm : e.Mirrored) (h : e.Filed) (ts : ℚ) {sid other : Sid} (hne : other ≠ sid)
    (ht : e.tracks sid = true) : (e.mergeInto ts sid other).Filed := by
  obtain ⟨hstatus, halarm⟩ := merge_files e.store hne.symm ts
  obtain ⟨l, hl⟩ := Option.isSome_iff_exists.mp ht
  have htracks : ∀ s, (e.mergeInto ts sid other).tracks s = if s = other then false else e.tracks s := by
    intro s
    simp only [tracks, mergeInto, Function.update_apply]
    by_cases hs : s = sid
    · simp [hs, hne.symm, hl]
    · by_cases ho : s = other <;> simp [ho, hs, hne]
  have hlive : ∀ s, (e.mergeInto ts sid other).live s = if s = other then false else e.live s := by
    intro s
    change ((e.store.merge_situations sid other ts).status s).any _ = _
    rw [hstatus]
    split
    · cases e.store.status other <;> rfl
    · rfl
  refine ⟨fun a s hs => ?_, fun s => ?_, fun s st hst => ?_⟩
  · have hpoint : (e.mergeInto ts sid other).sit_of a =
        if e.sit_of a = some other then some sid else e.sit_of a := by
      simp only [mergeInto, pointAt, hm.named]
    rw [hpoint] at hs
    split at hs
    · rename_i ho
      obtain rfl := Option.some.inj hs
      exact halarm sid a hne.symm (.inr ⟨rfl, h.filed a other ho⟩)
    · rename_i ho
      exact halarm s a (fun he => ho (he ▸ hs)) (.inl (h.filed a s hs))
  · rw [htracks, hlive, h.live]
  · change (e.store.merge_situations sid other ts).status s = some st at hst
    rw [hstatus] at hst
    split at hst
    · obtain ⟨st', -, hst'⟩ := Option.map_eq_some_iff.mp hst
      exact .inr hst'.symm
    · exact h.news s st hst

theorem filed_mergeInto_all (ts : ℚ) (sid : Sid) (bags : List Sid) (hsid : sid ∉ bags) (hm : e.Mirrored)
    (h : e.Filed) (ht : e.tracks sid = true) :
    let e' := bags.foldl (fun e m => e.mergeInto ts sid m) e
    e'.Filed ∧ e'.tracks sid = true := by
  induction bags generalizing e with
  | nil => exact ⟨h, ht⟩
  | cons b bags ih =>
    have hne : b ≠ sid := fun he => hsid (he ▸ List.mem_cons_self)
    have hone : sid ∉ [b] := by simp [Ne.symm hne]
    obtain ⟨hm', ht', -, -⟩ := mirrored_mergeInto_all ts sid [b] hone hm ht
    exact ih (fun hb => hsid (List.mem_cons_of_mem b hb)) hm' (filed_mergeInto hm h ts hne ht) ht'

theorem filed_joinMember (h : e.Filed) {sid : Sid} (ht : e.tracks sid = true) (entry : Member) :
    (e.joinMember sid entry).Filed := by
  unfold joinMember
  split
  · exact h
  · obtain ⟨l, hl⟩ := Option.isSome_iff_exists.mp ht
    refine ⟨fun a s hs => ?_, fun s => ?_, fun s st hst => h.news s st ?_⟩
    · refine Tables.mem_addMember.mpr ?_
      by_cases ha : a = entry.alarm_id
      · subst ha
        simp only [Function.update_self] at hs
        exact .inr (by rw [Option.some.inj hs])
      · simp only [Function.update_of_ne ha] at hs
        exact .inl (h.filed a s hs)
    · have hstatus : (e.store.insert_member sid entry.alarm_id).1.status = e.store.status :=
        Tables.status_addMember ..
      have := h.live s
      simp only [tracks, Engine.live, hstatus, Function.update_apply] at this ⊢
      by_cases hs : s = sid
      · subst hs
        simpa [hl] using this
      · simpa [hs] using this
    · rw [← hst]
      exact (congrFun (Tables.status_addMember ..) s).symm

theorem filed_settle (h : e.Filed) {r : Route} (hp : r.propose = none) (ts : ℚ) :
    (e.settle r ts).1.Filed := by
  unfold settle
  cases r.sid.filter e.tracks with
  | some sid => exact h
  | none =>
    have hact : r.act = .correlate := by
      rw [Route.act, hp]
      rfl
    rw [hact]
    exact filed_create h ts

/-- Nothing is confirmed, so routing proposes nothing. -/
theorem Filed.proposes_none (h : e.Filed) {F : Type} (placement : Placement F) (own : Option Sid) :
    (e.route placement own).propose = none := by
  have hnever : ∀ {s st}, st ≠ .new → st ≠ .resolved → e.status s ≠ st := by
    intro s st h1 h2 hs
    rcases h.news s st ((status_eq h1).mp hs) with he | he
    · exact h1 he
    · exact h2 he
  have hrouted := routed e placement own
  generalize e.route placement own = r at hrouted
  cases hrouted with
  | pending _ hs _ => exact absurd hs (hnever (by simp) (by simp))
  | plain _ _ | own _ _ => rfl
  | propose hs _ => exact absurd hs (hnever (by simp) (by simp))

/-- Among new situations an alarm stays with its own, if that is among those that are placed. -/
theorem Filed.follows (hm : e.Mirrored) (h : e.Filed) {placement : Placement E} {own : Option Sid}
    {aid : Aid} (hown : e.sit_of aid = own)
    (hin : ∀ o ∈ own, placement.join = some o ∨ o ∈ placement.merge) : e.Follows placement own := by
  have hnew : ∀ s, e.tracks s = true → e.status s = .new := fun s ht => by
    rw [Engine.status, h.status ht]
    rfl
  intro o ho
  have ht : e.tracks o = true := hm.tracked (hown.trans ho)
  obtain ⟨sid, hsid⟩ : ∃ sid, sid = placement.join.filter e.tracks := ⟨_, rfl⟩
  have htracked : ∀ s ∈ sid, e.tracks s = true := fun s hs =>
    (Option.filter_eq_some_iff.mp (hsid ▸ hs)).2
  have hpend : (sid.filter fun s => e.status s = .pending) = none :=
    Option.filter_eq_none_iff.mpr fun s hs => by simp [hnew s (htracked s hs)]
  have hconf : e.confirmed sid (placement.merge.filter fun m => sid ≠ some m && e.tracks m) = none := by
    have hopen : (sid.filter fun s => e.status s = .opened) = none :=
      Option.filter_eq_none_iff.mpr fun s hs => by simp [hnew s (htracked s hs)]
    rw [confirmed, hopen]
    refine List.find?_eq_none.mpr fun m hm => ?_
    have := (List.mem_filter.mp hm).2
    rw [Bool.and_eq_true] at this
    simp [hnew m this.2]
  rw [← hsid, hpend]
  dsimp only
  rw [hconf]
  refine ⟨?_, .inr (hnew o ht)⟩
  by_cases hs : sid = some o
  · exact .inl hs
  · refine .inr (List.mem_filter.mpr ⟨(hin o ho).resolve_left fun hj => hs ?_, by simp [hs, ht]⟩)
    rw [hsid, hj]
    exact Option.filter_eq_some_iff.mpr ⟨rfl, ht⟩

section Place
variable [Zero E] [Add E]

theorem filed_assign (hm : e.Mirrored) (h : e.Filed) (entry : Member) (placement : Placement E)
    (scored : List (Scored E)) : (e.assign entry placement scored).Filed := by
  obtain ⟨r, hr⟩ : ∃ r, r = e.route placement (e.sit_of entry.alarm_id) := ⟨_, rfl⟩
  have hp : r.propose = none := hr ▸ h.proposes_none placement _
  obtain ⟨hm₁, ht₁, -⟩ := settle_spec hm r entry.ts
  have h₁ := filed_settle h hp entry.ts
  obtain ⟨sid, hsid⟩ : ∃ sid, sid = (e.settle r entry.ts).2 := ⟨_, rfl⟩
  obtain ⟨e₁, he₁⟩ : ∃ e₁, e₁ = (e.settle r entry.ts).1 := ⟨_, rfl⟩
  rw [← hsid] at ht₁
  rw [← he₁] at hm₁ ht₁ h₁
  obtain ⟨bags, hbags⟩ : ∃ bags, bags = r.merges.filter fun m => m ≠ sid && e₁.tracks m := ⟨_, rfl⟩
  have hnot : sid ∉ bags := by
    rw [hbags]
    simp
  obtain ⟨h₃, ht₃⟩ := filed_mergeInto_all entry.ts sid bags hnot hm₁ h₁ ht₁
  obtain ⟨e₃, he₃⟩ : ∃ e₃, e₃ = bags.foldl (fun e m => e.mergeInto entry.ts sid m) e₁ := ⟨_, rfl⟩
  rw [← he₃] at h₃ ht₃
  have hassign : e.assign entry placement scored = { e₃.joinMember sid entry with
      grouper := (e₃.joinMember sid entry).grouper.commit sid bags scored (e₃.joinMember sid entry).sit_of
      store := (e₃.joinMember sid entry).store.touch_situation sid entry.ts } := by
    rw [assign, ← hr, he₃, hbags, he₁, hsid]
    simp only [hp]
  rw [hassign]
  exact (filed_joinMember h₃ ht₃ entry).store (Tables.status_touch ..) rfl _

end Place

section Activate
variable [Zero E] [Add E] [Div E] [NatCast E] [BEq E] [LT E] [DecidableLT E]

/-- Grouping places an alarm's own situation. -/
theorem place_own (g : Grouper E) (scored : List (Scored E)) (sit_of : Aid → Option Sid) (own : Option Sid) :
    ∀ o ∈ own, (g.place scored sit_of own).join = some o ∨ o ∈ (g.place scored sit_of own).merge := by
  rintro o ho
  obtain rfl : own = some o := ho
  cases hmode : g.mode with
  | cluster =>
    left
    simp only [Grouper.place, hmode, Grouper.join]
  | components =>
    obtain ⟨hmerge, -, -⟩ := components_spec scored sit_of (some o)
    simp only [Grouper.place, hmode]
    refine or_iff_not_imp_left.mpr fun hj => (hmerge o).mpr ⟨?_, hj⟩
    exact List.mem_append_right _ (by simp)

/-- An activation puts its alarm where the store has it, in a situation that is live. -/
theorem activate_filed (hm : e.Mirrored) (h : e.Filed) (entry : Member) (scored : List (Scored E)) :
    (e.activate entry scored).Mirrored ∧ (e.activate entry scored).Filed ∧
      ((e.activate entry scored).sit_of entry.alarm_id).isSome := by
  have hfollows := h.follows hm rfl (place_own e.grouper scored e.sit_of (e.sit_of entry.alarm_id))
  obtain ⟨hm', sid, bags, -, -, hpoint, -⟩ := assign_spec hm hfollows scored
  refine ⟨hm', filed_assign hm h entry _ scored, ?_⟩
  change ((e.assign entry _ scored).sit_of entry.alarm_id).isSome
  rw [hpoint, if_pos rfl]
  rfl

end Activate

/-- A situation that is resolved in the store and forgotten in memory. -/
theorem filed_conclude (h : e.Filed) (sid : Sid) (resolution : Resolution) (ts : ℚ) :
    ({ e with store := e.store.resolve sid true resolution ts }.forget sid).Filed := by
  have hstatus : ∀ s, (e.store.resolve sid true resolution ts).status s =
      if s = sid then (e.store.status sid).map fun _ => .resolved else e.store.status s := by
    intro s
    simp only [Tables.resolve, Tables.update, Tables.status]
    by_cases hs : s = sid
    · subst hs
      cases hr : e.store.situation s with
      | none => simp
      | some row => cases hst : row.status <;> simp [hst, Status.live]
    · simp [hs]
  refine ⟨fun a s hs => ?_, fun s => ?_, fun s st hst => ?_⟩
  · simp only [forget, unpoint] at hs
    split at hs
    · exact absurd hs (by simp)
    · exact h.filed a s hs
  · have := h.live s
    simp only [Engine.live, forget, tracks, hstatus, Function.update_apply] at this ⊢
    by_cases hs : s = sid
    · simp only [hs, if_true]
      cases e.store.status sid <;> rfl
    · simpa only [hs, if_false] using this
  · change (e.store.resolve sid true resolution ts).status s = some st at hst
    rw [hstatus] at hst
    split at hst
    · obtain ⟨st', -, hst'⟩ := Option.map_eq_some_iff.mp hst
      exact .inr hst'.symm
    · exact h.news s st hst

/-- Where no member is active the guarded `UPDATE` does not decline. -/
theorem filed_close (h : e.Filed) {sid : Sid} (hactive : e.store.hasActive sid = false) (ts : ℚ) :
    (e.close sid ts).Filed := by
  have := filed_conclude h sid (e.store.closeReason sid) ts
  simpa only [close, forget, Tables.close_situation, hactive, Bool.not_false] using this

theorem filed_rearm (h : e.Filed) (aid : Aid) (ts : ℚ) (silent : Bool) : (e.rearm aid ts silent).1.Filed := by
  unfold rearm
  split
  · exact h
  · split
    · exact filed_conclude h _ .idle ts
    · exact h

end Engine
end NetCoreNoc.Operate
