import Mathlib
import NetCoreNoc.Components
import NetCoreNoc.Correlate.Placement
import NetCoreNoc.Operate.Membership

/-! Arrivals one after another, each placed and its placement executed: the situations are the
components of the linked pairs, and what a cluster merges has cleared. -/
namespace NetCoreNoc.Operate
open Situations Correlate Components

/-- One alarm arrives, with the pairs that it was scored against. -/
abbrev Arrival (E : Type) := Member × List (Scored E)

/-- The linked pairs: of an alarm that arrives, and one that had arrived before it. -/
def Linked {E : Type} (arrivals : List (Arrival E)) (a b : Aid) : Prop :=
  ∃ before x after, arrivals = before ++ x :: after ∧ x.1.alarm_id = a ∧
    (∃ p ∈ x.2, p.linked ∧ p.alarm_id = b) ∧ ∃ y ∈ before, y.1.alarm_id = b

/-- The graph of the linked pairs. -/
def linkGraph {E : Type} (arrivals : List (Arrival E)) : SimpleGraph Aid := .fromRel (Linked arrivals)

theorem linked_snoc {E : Type} (arrivals : List (Arrival E)) (x : Arrival E) (a b : Aid) :
    Linked (arrivals ++ [x]) a b ↔ Linked arrivals a b ∨ a = x.1.alarm_id ∧
      (∃ p ∈ x.2, p.linked ∧ p.alarm_id = b) ∧ ∃ y ∈ arrivals, y.1.alarm_id = b := by
  constructor
  · rintro ⟨before, z, after, hsplit, rfl, hp, hy⟩
    rcases after.eq_nil_or_concat with rfl | ⟨after, w, rfl⟩
    · obtain ⟨rfl, hz⟩ := List.append_inj' hsplit rfl
      obtain rfl := (List.cons.inj hz).1
      exact .inr ⟨rfl, hp, hy⟩
    · rw [List.concat_eq_append, ← List.cons_append, ← List.append_assoc] at hsplit
      exact .inl ⟨before, z, after, (List.append_inj' hsplit rfl).1, rfl, hp, hy⟩
  · rintro (⟨before, z, after, rfl, rfl, hp, hy⟩ | ⟨rfl, hp, hy⟩)
    · exact ⟨before, z, after ++ [x], by rw [List.append_assoc, List.cons_append], rfl, hp, hy⟩
    · exact ⟨arrivals, x, [], rfl, rfl, hp, hy⟩

/-- What connected components place: the linked situations and the alarm's own, the least of them to
join and the others to merge. -/
theorem components_spec {E : Type} (scored : List (Scored E)) (sit_of : Aid → Option Sid)
    (own : Option Sid) :
    let sids := (scored.filter (·.linked)).filterMap (sit_of ·.alarm_id) ++ own.toList
    let placement := components scored sit_of own
    (∀ m, m ∈ placement.merge ↔ m ∈ sids ∧ placement.join ≠ some m) ∧
      (∀ j, placement.join = some j → j ∈ sids) ∧ (placement.join = none → sids = []) := by
  intro sids placement
  have hmem : ∀ m, m ∈ sids.dedup.mergeSort (· ≤ ·) ↔ m ∈ sids := fun m =>
    List.mem_mergeSort.trans List.mem_dedup
  have hnodup : (sids.dedup.mergeSort (· ≤ ·)).Nodup :=
    (List.mergeSort_perm _ _).nodup_iff.mpr (List.nodup_dedup sids)
  have hplace : placement = match sids.dedup.mergeSort (· ≤ ·) with
    | [] => ⟨none, [], []⟩
    | join :: rest => ⟨some join, rest, []⟩ := rfl
  rw [hplace]
  cases hsort : sids.dedup.mergeSort (· ≤ ·) with
  | nil =>
    rw [hsort] at hmem
    have hnil : sids = [] := List.eq_nil_iff_forall_not_mem.mpr fun m hm => absurd ((hmem m).mpr hm) (by simp)
    refine ⟨fun m => ?_, fun j hj => absurd hj (by simp), fun _ => hnil⟩
    rw [hnil]
    simp
  | cons join rest =>
    rw [hsort] at hmem hnodup
    refine ⟨fun m => ?_, fun j hj => ?_, fun hj => absurd hj (by simp)⟩
    · rw [← hmem, List.mem_cons, ne_eq, Option.some_inj]
      constructor
      · intro hm
        exact ⟨.inr hm, fun he => (List.nodup_cons.mp hnodup).1 (he ▸ hm)⟩
      · rintro ⟨rfl | hm, hne⟩
        · exact absurd rfl hne
        · exact hm
    · obtain rfl := Option.some.inj hj
      exact (hmem join).mp List.mem_cons_self

namespace Engine
variable {E : Type} {e : Engine E}

/-- A placement among new situations that are tracked is executed as it is. -/
theorem plain_filters {F : Type} {placement : Placement F} (hjoin : ∀ j, placement.join = some j →
      e.tracks j = true ∧ e.status j = .new)
    (hmerge : ∀ m ∈ placement.merge, placement.join ≠ some m ∧ e.tracks m = true ∧ e.status m = .new) :
    placement.join.filter e.tracks = placement.join ∧
      (placement.merge.filter fun m => placement.join ≠ some m && e.tracks m) = placement.merge ∧
      (placement.join.filter fun s => e.status s = .pending) = none ∧
      e.confirmed placement.join placement.merge = none := by
  have hpend : (placement.join.filter fun s => e.status s = .pending) = none := by
    refine Option.filter_eq_none_iff.mpr fun s hs => ?_
    rw [(hjoin s hs).2]
    simp
  have hopen : (placement.join.filter fun s => e.status s = .opened) = none := by
    refine Option.filter_eq_none_iff.mpr fun s hs => ?_
    rw [(hjoin s hs).2]
    simp
  refine ⟨?_, List.filter_eq_self.mpr fun m hm => ?_, hpend, ?_⟩
  · cases hj : placement.join with
    | none => rfl
    | some j => exact Option.filter_eq_some_iff.mpr ⟨rfl, (hjoin j hj).1⟩
  · simp [(hmerge m hm).1, (hmerge m hm).2.1]
  · rw [confirmed, hopen]
    refine List.find?_eq_none.mpr fun m hm => ?_
    rw [(hmerge m hm).2.2]
    simp

section Arrive
variable [Zero E] [Add E] [Div E] [NatCast E] [BEq E] [LT E] [DecidableLT E]

def arrive (e : Engine E) (x : Arrival E) : Engine E := e.activate x.1 x.2

/-- Nobody has confirmed a situation, or been asked about one. -/
structure Plain (e : Engine E) : Prop where
  mirrored : e.Mirrored
  mode : e.grouper.mode = .components
  news : ∀ a s, e.sit_of a = some s → e.status s = .new

/-- The situations that an arrival is linked to, and its own. -/
def touched (e : Engine E) (x : Arrival E) : List Sid :=
  (x.2.filter (·.linked)).filterMap (e.sit_of ·.alarm_id) ++ (e.sit_of x.1.alarm_id).toList

omit [Zero E] [Add E] [Div E] [NatCast E] [BEq E] [LT E] [DecidableLT E] in
theorem mem_touched (x : Arrival E) (s : Sid) : s ∈ e.touched x ↔ e.sit_of x.1.alarm_id = some s ∨
    ∃ b, ((∃ p ∈ x.2, p.linked ∧ p.alarm_id = b) ∧ (e.sit_of b).isSome) ∧ e.sit_of b = some s := by
  rw [touched, List.mem_append, Option.mem_toList, List.mem_filterMap, or_comm]
  refine or_congr_right ⟨?_, ?_⟩
  · rintro ⟨p, hp, hs⟩
    obtain ⟨hp, hl⟩ := List.mem_filter.mp hp
    exact ⟨p.alarm_id, ⟨⟨p, hp, hl, rfl⟩, by rw [hs]; rfl⟩, hs⟩
  · rintro ⟨b, ⟨⟨p, hp, hl, rfl⟩, -⟩, hs⟩
    exact ⟨p, List.mem_filter.mpr ⟨hp, hl⟩, hs⟩

/-- One arrival: every situation that it touches becomes one, and the alarm is in it. -/
theorem arrive_step (h : e.Plain) (x : Arrival E) : (e.arrive x).Plain ∧ ∃ s,
    Attaches e.sit_of (e.arrive x).sit_of x.1.alarm_id
      (fun b => (∃ p ∈ x.2, p.linked ∧ p.alarm_id = b) ∧ (e.sit_of b).isSome) (· ∈ e.touched x) s := by
  obtain ⟨placement, hplacement⟩ : ∃ placement,
      placement = e.grouper.place x.2 e.sit_of (e.sit_of x.1.alarm_id) := ⟨_, rfl⟩
  have hcomponents : placement = components x.2 e.sit_of (e.sit_of x.1.alarm_id) := by
    rw [hplacement, Grouper.place, h.mode]
  obtain ⟨hmerge, hjoin, hnone⟩ := components_spec x.2 e.sit_of (e.sit_of x.1.alarm_id)
  rw [← hcomponents] at hmerge hjoin hnone
  change ∀ m, m ∈ placement.merge ↔ m ∈ e.touched x ∧ _ at hmerge
  change ∀ j, _ → j ∈ e.touched x at hjoin
  change _ → e.touched x = [] at hnone
  -- what an arrival touches is pointed at, so it is tracked and new
  have hpointed : ∀ s ∈ e.touched x, e.tracks s = true ∧ e.status s = .new := by
    intro s hs
    rcases (mem_touched x s).mp hs with ho | ⟨b, -, hb⟩
    · exact ⟨h.mirrored.tracked ho, h.news _ s ho⟩
    · exact ⟨h.mirrored.tracked hb, h.news b s hb⟩
  obtain ⟨hf, hfm, hpend, hconf⟩ := plain_filters (fun j hj => hpointed j (hjoin j hj))
    fun m hm => ⟨((hmerge m).mp hm).2, hpointed m ((hmerge m).mp hm).1⟩
  have hroute : e.route placement (e.sit_of x.1.alarm_id) = ⟨placement.join, placement.merge, none⟩ := by
    have hnews : (placement.merge.filter fun m => e.status m = .new) = placement.merge :=
      List.filter_eq_self.mpr fun m hm => decide_eq_true (hpointed m ((hmerge m).mp hm).1).2
    simp only [route, hf, hfm, hpend, hconf, hnews]
  have hfollows : e.Follows placement (e.sit_of x.1.alarm_id) := by
    intro o ho
    have hot : o ∈ e.touched x := (mem_touched x o).mpr (.inl ho)
    simp only [hf, hfm, hpend, hconf]
    refine ⟨?_, .inr (hpointed o hot).2⟩
    by_cases hj : placement.join = some o
    · exact .inl hj
    · exact .inr ((hmerge o).mpr ⟨hot, hj⟩)
  obtain ⟨hmir, sid, bags, ⟨hsid, hbags⟩, -, hpoint, hgrouper⟩ := assign_spec h.mirrored hfollows x.2
  have harrive : e.arrive x = e.assign x.1 placement x.2 := by rw [arrive, activate, hplacement]
  rw [← harrive] at hmir hpoint hgrouper
  obtain ⟨hframe, hstatus, -, -⟩ := assign_frame e x.1 placement x.2
  rw [← harrive] at hframe hstatus
  rw [hroute] at hsid hbags hframe hstatus
  rw [← hsid] at hframe hstatus
  -- it settles in one of the situations it touches, or in a new one if there is none
  have hplace : (∀ s, s ∈ bags ↔ s ∈ e.touched x ∧ s ≠ sid) ∧
      (sid ∈ e.touched x ∨ ∀ a, e.sit_of a ≠ some sid) ∧ (e.arrive x).status sid = .new ∧
      ∀ a s, e.sit_of a = some s → s ≠ sid → s ∉ bags → (e.arrive x).status s = e.status s := by
    cases hj : placement.join with
    | some j =>
      obtain ⟨ht, hs⟩ := hpointed j (hjoin j hj)
      have hsettle : e.settle ⟨some j, placement.merge, none⟩ x.1.ts = (e, j) := by
        simp only [settle, Option.filter_some, ht, if_true]
      rw [hj, hsettle] at hsid hbags hframe hstatus
      subst hsid
      have hin : ∀ s, s ∈ bags ↔ s ∈ e.touched x ∧ s ≠ sid := by
        intro s
        rw [hbags, hmerge, hj, ne_eq, Option.some_inj]
        constructor
        · exact fun hs => ⟨hs.1.1, hs.2.1⟩
        · exact fun hs => ⟨⟨hs.1, Ne.symm hs.2⟩, hs.2, (hpointed s hs.1).1⟩
      refine ⟨hin, .inl (hjoin sid hj), ?_, fun a s _ hne hs' => ?_⟩
      · rw [← hs, status, hstatus, status]
      · have hnm : s ∉ placement.merge := fun hm =>
          hs' ((hin s).mpr ⟨((hmerge s).mp hm).1, hne⟩)
        rw [status, (hframe s hne hnm).status, status]
    | none =>
      have htouched := hnone hj
      have hmnil : placement.merge = [] := by
        refine List.eq_nil_iff_forall_not_mem.mpr fun m hm => ?_
        have := ((hmerge m).mp hm).1
        rw [htouched] at this
        exact absurd this (by simp)
      rw [hj] at hsid hbags hframe hstatus
      rcases settle_cases e ⟨none, placement.merge, none⟩ x.1.ts with ⟨s, hs, -⟩ | ⟨hnext, hst, hk⟩
      · exact absurd hs (by simp)
      · have hfree : ∀ a, e.sit_of a ≠ some sid := fun a ha =>
          absurd (h.mirrored.lt_next (h.mirrored.tracked ha)) (by rw [hsid, hnext]; exact lt_irrefl _)
        refine ⟨fun s => ?_, .inr hfree, ?_, fun a s _ hne hs' => ?_⟩
        · rw [hbags, hmnil, htouched]
          simp
        · rw [status, hstatus, hsid, hnext, hst]
          rfl
        · have hks := hk s (by rw [← hnext, ← hsid]; exact hne)
          rw [status, (hframe s hne (by rw [hmnil]; simp)).status, hks.status, status]
  obtain ⟨hin, hfree, hnew, hkeep⟩ := hplace
  have hafter : ∀ a, (e.arrive x).sit_of a = if a = x.1.alarm_id then some sid
      else (e.sit_of a).map fun y => if y ∈ e.touched x then sid else y := by
    intro a
    rw [hpoint]
    split
    · rfl
    · congr 1
      funext y
      by_cases hy : y = sid
      · rw [hy, ite_self, ite_self]
      · exact if_congr ((hin y).trans (and_iff_left hy)) rfl rfl
  refine ⟨⟨hmir, ?_, fun a s ha => ?_⟩, sid, fun b hb => hb.2, mem_touched x, hfree, hafter⟩
  · rw [hgrouper, Grouper.commit, h.mode]
    exact h.mode
  · by_cases hs : s = sid
    · rw [hs, hnew]
    · rw [hpoint] at ha
      split at ha
      · exact absurd (Option.some.inj ha).symm hs
      · obtain ⟨y, hy, hys⟩ := Option.map_eq_some_iff.mp ha
        split at hys
        · exact absurd hys.symm hs
        · rename_i hb
          subst hys
          rw [hkeep a y hy hs hb, h.news a y hy]

/-- The run: after any arrivals the situations are the components of what they linked. -/
theorem arrivals_labelled (h : e.Plain) (hnone : ∀ a, e.sit_of a = none) (arrivals : List (Arrival E)) :
    let e' := Runs.run arrive e arrivals
    e'.Plain ∧ Labels e'.sit_of (Linked arrivals) ∧
      ∀ a, (e'.sit_of a).isSome ↔ ∃ x ∈ arrivals, x.1.alarm_id = a := by
  induction arrivals using List.reverseRecOn with
  | nil =>
    have hempty : e.sit_of = fun _ => none := funext hnone
    refine ⟨h, ?_, fun a => by simp [hnone]⟩
    rw [Runs.run_nil, hempty]
    refine Labels.none.congr fun a b => iff_false_intro ?_
    rintro ⟨before, x, after, hsplit, -⟩
    exact absurd hsplit (by simp)
  | append_singleton arrivals x ih =>
    obtain ⟨hplain, hlabels, harrived⟩ := ih
    rw [Runs.run_append, Runs.run_cons, Runs.run_nil]
    obtain ⟨hplain', s, hattach⟩ := arrive_step hplain x
    refine ⟨hplain', (hlabels.attach hattach).congr fun a b => ?_, fun a => ?_⟩
    · rw [linked_snoc, harrived]
    · rw [hattach.after]
      split
      · rename_i ha
        simp [ha]
      · rename_i ha
        rw [Option.isSome_map, harrived]
        simp [Ne.symm ha]

end Arrive

/-- Where routing proposes nothing, it folds only what the placement merges, into what that joins. -/
theorem route_merges {F : Type} {placement : Placement F} {own : Option Sid} {m : Sid}
    (hpropose : (e.route placement own).propose = none) (hm : m ∈ (e.route placement own).merges) :
    m ∈ placement.merge ∧ (e.route placement own).sid = placement.join.filter e.tracks := by
  unfold route at hpropose hm ⊢
  dsimp only at hpropose hm ⊢
  cases hp : (placement.join.filter e.tracks).filter fun s => e.status s = .pending with
  | some s =>
    rw [hp] at hm
    exact ⟨List.mem_of_mem_filter (List.mem_of_mem_filter hm), (Option.filter_eq_some_iff.mp hp).1.symm⟩
  | none =>
    rw [hp] at hpropose hm
    dsimp only at hpropose hm ⊢
    cases hc : e.confirmed (placement.join.filter e.tracks)
        (placement.merge.filter fun m => placement.join.filter e.tracks ≠ some m && e.tracks m) with
    | none =>
      rw [hc] at hm
      exact ⟨List.mem_of_mem_filter (List.mem_of_mem_filter hm), rfl⟩
    | some target =>
      rw [hc] at hpropose hm
      dsimp only at hpropose hm
      split at hm
      · exact absurd hm (by simp)
      · rename_i hown
        rw [if_neg hown] at hpropose
        exact absurd hpropose (by simp)

/-- A situation that an assignment resolves is one that routing folds. -/
theorem resolved_folds [Zero E] [Add E] {entry : Member} {placement : Placement E}
    {scored : List (Scored E)} {m : Sid} {row row' : Situation} (hrow : e.store.situation m = some row)
    (hrow' : (e.assign entry placement scored).store.situation m = some row')
    (hlive : row.status.live = true) (hresolved : row'.status.live = false) :
    let r := e.route placement (e.sit_of entry.alarm_id)
    m ∈ r.merges ∧ row'.merged_into = some (e.settle r entry.ts).2 := by
  intro r
  obtain ⟨-, hstatus, -, hfold⟩ := assign_frame e entry placement scored
  change ∀ m, m ≠ (e.settle r entry.ts).2 → _ at hfold
  change _ = (e.settle r entry.ts).1.store.status (e.settle r entry.ts).2 at hstatus
  have hst' : (e.assign entry placement scored).store.status m = some row'.status := by
    rw [Tables.status, hrow']
    rfl
  have hst : e.store.status m = some row.status := by
    rw [Tables.status, hrow]
    rfl
  have hdiffer : row.status ≠ row'.status := fun he => by
    rw [he, hresolved] at hlive
    exact absurd hlive (by simp)
  by_cases hm : m = (e.settle r entry.ts).2
  · rw [← hm, hst'] at hstatus
    rcases settle_cases e r entry.ts with ⟨sid, -, hs⟩ | ⟨hnext, hnew, -⟩
    · rw [hs, hst] at hstatus
      exact absurd (Option.some.inj hstatus).symm hdiffer
    · rw [hm, hnext, hnew] at hstatus
      rw [Option.some.inj hstatus] at hresolved
      split at hresolved <;> exact absurd hresolved (by simp [Status.live])
  · have hkeep : (e.settle r entry.ts).1.store.situation m = some row := by
      rcases settle_cases e r entry.ts with ⟨sid, -, hs⟩ | ⟨hnext, -, hk⟩
      · rw [hs, hrow]
      · exact (hk m (hnext ▸ hm)).situation.trans hrow
    rcases hfold m hm with hk | ⟨hin, hrows⟩
    · have : row' = row := Option.some.inj (hrow'.symm.trans (hk.situation.trans hkeep))
      exact absurd (congrArg Situation.status this).symm hdiffer
    · obtain ⟨row'', hrow'', -, hinto⟩ := hrows row hkeep
      obtain rfl := Option.some.inj (hrow'.symm.trans hrow'')
      exact ⟨hin, hinto⟩

section Cluster
variable [Field E] [LinearOrder E]

/-- A live situation that an activation resolves has cleared against the one the placement joins, unless
the activation proposes to join a confirmed situation. -/
theorem resolved_clears {entry : Member} {scored : List (Scored E)} {m : Sid} {row row' : Situation}
    (hmode : e.grouper.mode = .cluster) (hrow : e.store.situation m = some row)
    (hrow' : (e.activate entry scored).store.situation m = some row') (hlive : row.status.live = true)
    (hresolved : row'.status.live = false)
    (hpropose : (e.route (e.grouper.place scored e.sit_of (e.sit_of entry.alarm_id))
      (e.sit_of entry.alarm_id)).propose = none) :
    ∃ join, (e.grouper.place scored e.sit_of (e.sit_of entry.alarm_id)).join = some join ∧
      Clears e.grouper.params (e.grouper.cross.held join m + about (named scored e.sit_of) m) ∧
      (e.tracks join → row'.merged_into = some join) := by
  obtain ⟨hin, hinto⟩ := resolved_folds hrow hrow' hlive hresolved
  obtain ⟨hmerge, hsid⟩ := route_merges hpropose hin
  obtain ⟨join, hjoin, -, hclears⟩ := mem_merge hmode hmerge
  refine ⟨join, hjoin, hclears, fun ht => hinto.trans ?_⟩
  rw [settle, hsid, hjoin, Option.filter_some, if_pos ht, Option.filter_some, if_pos ht]

/-- The order of the scored pairs decides nothing. A cluster merges a situation only if all the evidence
between it and the one that is joined clears, and an activation that proposes nothing resolves only such
situations; the bags of one that proposes go to a bag that stands to join the target. Connected components make one
situation of what the linked pairs connect. -/
theorem place_executed (E : Type) [Field E] [LinearOrder E] :
    (∀ (g : Grouper E) (scored scored' : List (Scored E)) (sit_of : Aid → Option Sid) (own : Option Sid),
      scored.Perm scored' → g.place scored sit_of own = g.place scored' sit_of own) ∧
    (∀ (params : GroupingParams E) (ops : List (GrouperOp E)) (scored : List (Scored E))
      (sit_of : Aid → Option Sid) (own : Option Sid),
      let placement := (Runs.run Grouper.step ⟨.cluster, params, .empty⟩ ops).place scored sit_of own
      ∀ m ∈ placement.merge, ∃ join, placement.join = some join ∧ m ≠ join ∧
        Clears params (total (GrouperOp.evidence (ops ++ [.commit join [] scored sit_of])) join m)) ∧
    (∀ (e : Engine E) (entry : Member) (scored : List (Scored E)) (m : Sid) (row row' : Situation),
      let own := e.sit_of entry.alarm_id
      let placement := e.grouper.place scored e.sit_of own
      e.grouper.mode = .cluster → e.store.situation m = some row →
      (e.activate entry scored).store.situation m = some row' → row.status.live = true →
      row'.status.live = false →
      ((e.route placement own).propose = none → ∃ join, placement.join = some join ∧
        Clears e.grouper.params (e.grouper.cross.held join m + about (named scored e.sit_of) m) ∧
        (e.tracks join → row'.merged_into = some join)) ∧
      ∀ target, (e.route placement own).propose = some target → ∃ bag, row'.merged_into = some bag ∧
        (e.activate entry scored).store.status bag = some .pending ∧
        (e.activate entry scored).target_of bag = some target) ∧
    ∀ (t : {t : Tables // t.Sequenced}) (params : GroupingParams E) (cross : Cross E)
      (arrivals : List (Arrival E)),
      let e := Runs.run arrive (fresh t.1 ⟨.components, params, cross⟩) arrivals
      (∀ a, (e.sit_of a).isSome ↔ ∃ x ∈ arrivals, x.1.alarm_id = a) ∧
      ∀ a b s s', e.sit_of a = some s → e.sit_of b = some s' →
        (s = s' ↔ (linkGraph arrivals).Reachable a b) := by
  refine ⟨fun g scored scored' sit_of own h => g.place_perm h sit_of own, ?_, ?_, ?_⟩
  · intro params ops scored sit_of own placement m hm
    exact merge_clears params ops hm
  · intro e entry scored m row row' own placement hmode hrow hrow' hlive hresolved
    exact ⟨resolved_clears hmode hrow hrow' hlive hresolved, fun target hpropose =>
      ⟨_, (resolved_folds hrow hrow' hlive hresolved).2, assign_proposes scored hpropose⟩⟩
  · intro t params cross arrivals e
    have hfresh : (fresh t.1 ⟨.components, params, cross⟩ : Engine E).Plain :=
      ⟨⟨fun _ _ => rfl, fun _ _ => rfl, t.2⟩, rfl, fun _ _ ha => absurd ha (by simp [fresh])⟩
    obtain ⟨-, hlabels, harrived⟩ := arrivals_labelled hfresh (fun _ => rfl) arrivals
    exact ⟨harrived, fun a b s s' ha hb => hlabels.component ha hb⟩

end Cluster

/-- Three alarms that an operator puts in one situation, a fourth that proposes to join it, and a fifth
and a sixth on their own. -/
def confirmedRun : List (EngineOp ℚ) :=
  [.assign ⟨1, 1, 1, 0⟩ [], .assign ⟨2, 1, 1, 0⟩ [], .assign ⟨3, 1, 1, 0⟩ [], .merge 1 2 0, .merge 1 3 0,
    .assign ⟨4, 1, 1, 1⟩ [⟨1, 2, true⟩], .assign ⟨5, 1, 1, 1⟩ [],
    .assign ⟨6, 1, 1, 1⟩ [⟨5, 1, true⟩]]

/-- The sixth is raised again, and speaks for the three. -/
def bridging : List (Scored ℚ) := [⟨1, 2, true⟩, ⟨2, 2, true⟩, ⟨3, 2, true⟩]

/-- The fifth goes where the fourth is, which stands to join the three. -/
theorem place_executed_bridging :
    let e := Runs.run step (fresh empty.1 clustered) confirmedRun
    let e' := e.activate ⟨6, 1, 1, 2⟩ bridging
    ∃ bag, (e'.store.situation 5).bind (·.merged_into) = some bag ∧ e'.store.status bag = some .pending ∧
      e'.target_of bag = some 1 := by
  intro e e'
  have hlive : (e.store.situation 5).map (·.status.live) = some true := by decide +kernel
  have hfolded : (e'.store.situation 5).map (·.status.live) = some false := by decide +kernel
  obtain ⟨row, hrow, hlive⟩ := Option.map_eq_some_iff.mp hlive
  obtain ⟨row', hrow', hfolded⟩ := Option.map_eq_some_iff.mp hfolded
  rw [hrow']
  exact ((place_executed ℚ).2.2.1 e _ bridging 5 row row' (by decide +kernel) hrow hrow' hlive hfolded).2 1
    (by decide +kernel)

/-- The fifth goes where the fourth is, on no evidence between the two. -/
theorem proposal_folds_uncleared :
    ¬ ∀ (ops : List (EngineOp ℚ)) (entry : Member) (scored : List (Scored ℚ)) (x y : Aid) (a b s : Sid),
      let e := Runs.run step (fresh empty.1 clustered) ops
      e.sit_of x = some a → e.sit_of y = some b → a ≠ b → x ≠ entry.alarm_id → y ≠ entry.alarm_id →
      (e.activate entry scored).sit_of x = some s → (e.activate entry scored).sit_of y = some s →
      Clears e.grouper.params (e.grouper.cross.held a b + about (named scored e.sit_of) a +
        about (named scored e.sit_of) b) := by
  intro h
  have hclears := h confirmedRun ⟨6, 1, 1, 2⟩ bridging 4 5 4 5 4 (by decide +kernel) (by decide +kernel)
    (by decide) (by decide) (by decide) (by decide +kernel) (by decide +kernel)
  exact absurd hclears.1 (by decide +kernel)

end Engine
end NetCoreNoc.Operate
