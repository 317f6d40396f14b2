import Mathlib
import NetCoreNoc.Correlate.Evidence
import NetCoreNoc.Operate.Membership

/-! Whether the evidence between situations follows their members, when operators restructure them. -/
namespace NetCoreNoc.Operate
open Situations Correlate

/-- The evidence of one pair: of the two alarms that were scored. -/
abbrev Earned (E : Type) := Aid × Aid × E

/-- A pair is evidence across while its alarms are in two different situations. -/
def stands {E : Type} (sit_of : Aid → Option Sid) (p : Earned E) : Bool :=
  (sit_of p.1).isSome && (sit_of p.2.1).isSome && sit_of p.1 ≠ sit_of p.2.1

/-- Between which situations a pair that stands is evidence. -/
def locate {E : Type} (sit_of : Aid → Option Sid) (p : Earned E) : Item E :=
  ((sit_of p.1).getD 0, (sit_of p.2.1).getD 0, p.2.2)

theorem stands_iff {E : Type} {sit_of : Aid → Option Sid} {p : Earned E} : stands sit_of p = true ↔
    ∃ x y, sit_of p.1 = some x ∧ sit_of p.2.1 = some y ∧ x ≠ y := by
  unfold stands
  cases sit_of p.1 <;> cases sit_of p.2.1 <;> simp

/-- The evidence that an activation commits is that of its pairs that stand. -/
theorem across_earned {E : Type} {sit_of : Aid → Option Sid} {aid : Aid} {sid : Sid} (h : sit_of aid = some sid)
    (scored : List (Scored E)) : (across sid scored sit_of).map (fun p => (sid, p.1, p.2)) =
      ((scored.map fun p => (aid, p.alarm_id, p.evidence)).filter (stands sit_of)).map
        (locate sit_of) := by
  induction scored with
  | nil => rfl
  | cons p scored ih =>
    unfold across at ih ⊢
    rw [List.filterMap_cons, List.map_cons, List.filter_cons]
    cases hp : sit_of p.alarm_id with
    | none => simpa [stands, hp] using ih
    | some other =>
      by_cases hne : other = sid
      · simpa [stands, hp, h, hne] using ih
      · simpa [stands, locate, hp, h, hne, Ne.symm hne] using ih

namespace Engine
variable {E : Type} [AddCommMonoid E]

/-- What one situation holds about another is the evidence of pairs of their members. -/
def Attributed (e : Engine E) (pairs : List (Earned E)) : Prop :=
  ∀ x y, x ≠ y → e.grouper.cross.held x y = total (pairs.map (locate e.sit_of)) x y

/-- The evidence of the pairs, once the situations of their alarms have gone where `heir` says. -/
theorem total_relocate {s s' : Aid → Option Sid} (heir : Sid → Option Sid) (pairs : List (Earned E))
    (hs : ∀ p ∈ pairs, stands s p = true)
    (hheir : ∀ p ∈ pairs, s' p.1 = (s p.1).bind heir ∧ s' p.2.1 = (s p.2.1).bind heir)
    {a b : Nat} (hab : a ≠ b) :
    total (carry heir (pairs.map (locate s))) a b = total ((pairs.filter (stands s')).map (locate s')) a b := by
  induction pairs with
  | nil => rfl
  | cons p pairs ih =>
    have ih := ih (fun q hq => hs q (List.mem_cons_of_mem _ hq)) fun q hq => hheir q (List.mem_cons_of_mem _ hq)
    obtain ⟨x, y, hx, hy, -⟩ := stands_iff.mp (hs p List.mem_cons_self)
    obtain ⟨hx', hy'⟩ := hheir p List.mem_cons_self
    rw [hx, Option.bind_some] at hx'
    rw [hy, Option.bind_some] at hy'
    have hloc : locate s p = (x, y, p.2.2) := by rw [locate, hx, hy]; rfl
    rw [List.map_cons, carry_cons, total_append, ih, List.filter_cons, hloc]
    dsimp only
    rw [← hx', ← hy']
    cases h1 : s' p.1 with
    | none => simp [stands, h1, total]
    | some x' =>
      cases h2 : s' p.2.1 with
      | none => simp [stands, h2, total]
      | some y' =>
        have hloc' : locate s' p = (x', y', p.2.2) := by rw [locate, h1, h2]; rfl
        by_cases hxy : x' = y'
        · -- the two situations became one
          have hno : stands s' p = false := by simp [stands, h1, h2, hxy]
          rw [hno, hxy, Option.bind_some, Option.map_some, Option.toList_some, total_cons, if_neg]
          · simp [total]
          · rw [Sym2.eq_iff]
            grind
        · have hyes : stands s' p = true := stands_iff.mpr ⟨x', y', h1, h2, hxy⟩
          rw [hyes, if_pos rfl, List.map_cons, hloc', ← List.singleton_append, total_append]
          rfl

/-- The pairs stand, between the situations that the evidence is held of. -/
structure Carried (s : Engine E × List (Earned E)) : Prop where
  mirrored : s.1.Mirrored
  stands : ∀ p ∈ s.2, stands s.1.sit_of p = true
  accounts : Accounts s.1.grouper.cross (s.2.map (locate s.1.sit_of))

variable {s : Engine E × List (Earned E)}

theorem Carried.attributed (h : Carried s) : s.1.Attributed s.2 := by
  obtain ⟨ref, hs, hv⟩ := h.accounts
  intro x y hxy
  rw [Cross.held_eq, hs.represents, ← hv x y hxy]
  rfl

/-- A step that moves each standing alarm to the heir of its situation, and the evidence with it. -/
theorem Carried.relocate (h : Carried s) {e' : Engine E}
    (hm : e'.Mirrored) (heir : Sid → Option Sid) (new : List (Earned E))
    (hheir : ∀ p ∈ s.2, e'.sit_of p.1 = (s.1.sit_of p.1).bind heir ∧
      e'.sit_of p.2.1 = (s.1.sit_of p.2.1).bind heir)
    (ha : Accounts e'.grouper.cross (carry heir (s.2.map (locate s.1.sit_of)) ++
      (new.filter (Operate.stands e'.sit_of)).map (locate e'.sit_of))) :
    Carried (e', (s.2 ++ new).filter (Operate.stands e'.sit_of)) := by
  refine ⟨hm, fun p hp => (List.mem_filter.mp hp).2, ?_⟩
  obtain ⟨ref, hs, hv⟩ := ha
  refine ⟨ref, hs, fun a b hab => ?_⟩
  rw [hv a b hab, total_append, total_relocate heir s.2 h.stands hheir hab, List.filter_append,
    List.map_append, total_append]

/-- A step that leaves the evidence, and the situations of the alarms that earned it. -/
theorem Carried.frame (h : Carried s) {e' : Engine E} (hm : e'.Mirrored)
    (hsame : ∀ p ∈ s.2, e'.sit_of p.1 = s.1.sit_of p.1 ∧ e'.sit_of p.2.1 = s.1.sit_of p.2.1)
    (hc : e'.grouper.cross = s.1.grouper.cross) :
    Carried (e', (s.2 ++ []).filter (Operate.stands e'.sit_of)) := by
  refine h.relocate hm some [] (fun p hp => ?_) ?_
  · simpa using hsame p hp
  · rw [hc, carry_some]
    exact (List.append_nil _).symm ▸ h.accounts

/-- A situation that is forgotten takes its evidence with it. -/
theorem Carried.forget (h : Carried s) {e' : Engine E} (hm : e'.Mirrored)
    {sid : Sid} (hs : e'.sit_of = (s.1.forget sid).sit_of) (hg : e'.grouper = s.1.grouper.forget sid) :
    Carried (e', (s.2 ++ []).filter (Operate.stands e'.sit_of)) := by
  have hpoint : ∀ a, e'.sit_of a = (s.1.sit_of a).bind (kept fun x => x ≠ sid) := by
    intro a
    simp only [hs, Engine.forget, unpoint, h.mirrored.named]
    cases s.1.sit_of a with
    | none => simp
    | some x => by_cases hx : x = sid <;> simp [kept, hx]
  refine h.relocate hm _ [] (fun p _ => ⟨hpoint _, hpoint _⟩) ?_
  rw [hg]
  exact (List.append_nil _).symm ▸ h.accounts.forget sid

section Step
variable [Div E] [NatCast E] [BEq E] [LT E] [DecidableLT E]

/-- The pairs that an activation was scored on, if its decider keeps evidence. -/
def earned (e : Engine E) : EngineOp E → List (Earned E)
  | .assign entry scored => match e.grouper.mode with
    | .cluster => scored.map fun p => (entry.alarm_id, p.alarm_id, p.evidence)
    | .components => []
  | _ => []

/-- A step of the engine, beside the pairs that have been scored and still stand. -/
def stepEarned (s : Engine E × List (Earned E)) (op : EngineOp E) : Engine E × List (Earned E) :=
  (s.1.step op, (s.2 ++ s.1.earned op).filter (stands (s.1.step op).sit_of))

/-- When a step keeps the evidence with the members: it keeps the maps in agreement, and an alarm that
it moves from one situation to another earned no evidence that stands. -/
def Undisturbed (s : Engine E × List (Earned E)) (op : EngineOp E) : Prop :=
  s.1.Mirrors op ∧ match op with
  | .assign _ _ => s.1.grouper.mode = .cluster ∨ s.2 = []
  | .move moving _ _ _ => ∀ p ∈ s.2, p.1 ∉ moving ∧ p.2.1 ∉ moving
  | .split _ departing _ => ∀ p ∈ s.2, p.1 ∉ departing ∧ p.2.1 ∉ departing
  | .merge _ src _ => ∀ p ∈ s.2, s.1.sit_of p.1 ≠ some src ∧ s.1.sit_of p.2.1 ≠ some src
  | .accept sid _ _ => ∀ p ∈ s.2, s.1.sit_of p.1 ≠ some sid ∧ s.1.sit_of p.2.1 ≠ some sid
  | .reload => ∀ p ∈ s.2, s.1.reload.sit_of p.1 = s.1.sit_of p.1 ∧ s.1.reload.sit_of p.2.1 = s.1.sit_of p.2.1
  | _ => True

theorem carried_assign (h : Carried s) (entry : Member)
    (scored : List (Scored E)) (hop : Undisturbed s (.assign entry scored)) :
    Carried (stepEarned s (.assign entry scored)) := by
  obtain ⟨hmirrors, hmode⟩ := hop
  obtain ⟨hm, sid, bags, -, hown, hpoint, hgrouper⟩ := assign_spec h.mirrored
    (hmirrors.elim (fun hc => follows_cluster h.mirrored hc.1 scored rfl hc.2) id) scored
  obtain ⟨e', he'⟩ : ∃ e', e' = s.1.assign entry
    (s.1.grouper.place scored s.1.sit_of (s.1.sit_of entry.alarm_id)) scored := ⟨_, rfl⟩
  rw [← he'] at hm hpoint hgrouper
  have hstep : stepEarned s (.assign entry scored) =
      (e', (s.2 ++ s.1.earned (.assign entry scored)).filter (Operate.stands e'.sit_of)) := by
    rw [he']
    rfl
  rw [hstep]
  cases hg : s.1.grouper.mode with
  | components =>
    have hnone : s.2 = [] := hmode.resolve_left (by rw [hg]; decide)
    have hnew : s.1.earned (.assign entry scored) = [] := by simp only [earned, hg]
    rw [hnew]
    refine h.frame hm (fun p hp => absurd (hnone ▸ hp) List.not_mem_nil) ?_
    simp only [hgrouper, Grouper.commit, hg]
  | cluster =>
    have hheir : ∀ a x, s.1.sit_of a = some x → e'.sit_of a = some (if x ∈ bags then sid else x) := by
      intro a x hx
      rw [hpoint, hx, Option.map_some]
      by_cases ha : a = entry.alarm_id
      · rw [if_pos ha]
        rcases hown x (ha ▸ hx) with rfl | hin
        · exact congrArg some (ite_self _).symm
        · rw [if_pos hin]
      · rw [if_neg ha]
    have hentry : e'.sit_of entry.alarm_id = some sid := (hpoint entry.alarm_id).trans (if_pos rfl)
    have hnew : s.1.earned (.assign entry scored) =
        scored.map fun p => (entry.alarm_id, p.alarm_id, p.evidence) := by simp only [earned, hg]
    have hacc := (accounts_step hg h.accounts (.commit sid bags scored e'.sit_of)).2
    rw [GrouperOp.items_commit] at hacc
    rw [hnew]
    refine h.relocate hm (fun x => some (if x ∈ bags then sid else x)) _ (fun p hp => ?_) ?_
    · obtain ⟨x, y, hx, hy, -⟩ := stands_iff.mp (h.stands p hp)
      exact ⟨by rw [hx]; exact hheir _ _ hx, by rw [hy]; exact hheir _ _ hy⟩
    · rw [← across_earned hentry, hgrouper]
      exact hacc

theorem carried_step (h : Carried s) (op : EngineOp E)
    (hop : Undisturbed s op) : Carried (stepEarned s op) := by
  have hm : (s.1.step op).Mirrored := mirrored_step h.mirrored op hop.1
  cases op with
  | assign entry scored => exact carried_assign h entry scored hop
  | close sid ts => exact h.forget hm rfl rfl
  | forget sid => exact h.forget hm rfl rfl
  | rearm aid ts silent =>
    unfold stepEarned
    simp only [step, rearm] at hm ⊢
    split at hm
    · exact h.frame hm (fun _ _ => ⟨rfl, rfl⟩) rfl
    · split at hm
      · rename_i hsilent
        simp only [if_pos hsilent]
        exact h.forget hm rfl rfl
      · rename_i hsilent
        simp only [if_neg hsilent]
        exact h.frame hm (fun _ _ => ⟨rfl, rfl⟩) rfl
  | move moving source target ts =>
    obtain ⟨-, hsame, hgrouper⟩ := operatorMove_spec h.mirrored hop.1 ts
    exact h.frame hm (fun p hp => ⟨hsame _ (hop.2 p hp).1, hsame _ (hop.2 p hp).2⟩) (congrArg _ hgrouper)
  | merge dst src ts =>
    refine h.frame hm (fun p hp => ?_) ?_
    · simp only [step, operatorMerge]
      split
      · exact ⟨h.mirrored.merged_points dst src (hop.2 p hp).1, h.mirrored.merged_points dst src (hop.2 p hp).2⟩
      · exact ⟨rfl, rfl⟩
    · simp only [step, operatorMerge]
      split <;> rfl
  | split sid departing ts =>
    have hout : ∀ p ∈ s.2, p.1 ∉ departing.filter (s.1.store.alarmsOf sid).contains ∧
        p.2.1 ∉ departing.filter (s.1.store.alarmsOf sid).contains := fun p hp =>
      ⟨fun hin => (hop.2 p hp).1 (List.mem_of_mem_filter hin), fun hin => (hop.2 p hp).2 (List.mem_of_mem_filter hin)⟩
    refine h.frame hm (fun p hp => ?_) ?_ <;> simp only [step, operatorSplit] <;> split
    · split
      · exact ⟨split_points _ _ (hout p hp).1, split_points _ _ (hout p hp).2⟩
      · exact ⟨rfl, rfl⟩
    · exact ⟨rfl, rfl⟩
    · split <;> rfl
    · rfl
  | accept sid target ts =>
    refine h.frame hm (fun p hp => ?_) ?_
    · simp only [step, accept]
      split
      · exact ⟨h.mirrored.merged_points target sid (hop.2 p hp).1,
          h.mirrored.merged_points target sid (hop.2 p hp).2⟩
      · exact ⟨rfl, rfl⟩
    · simp only [step, accept]
      split <;> rfl
  | reject sid target ts =>
    refine h.frame hm (fun p hp => ?_) ?_ <;> simp only [step, reject] <;> split
    · exact ⟨rfl, rfl⟩
    · exact ⟨rfl, rfl⟩
    · rfl
    · rfl
  | surface surfaced =>
    obtain ⟨-, hsame, hgrouper⟩ := surface_spec h.mirrored surfaced.1 surfaced.2 hop.1
    refine h.frame hm (fun p hp => ?_) (congrArg _ hgrouper)
    obtain ⟨x, y, hx, hy, -⟩ := stands_iff.mp (h.stands p hp)
    exact ⟨hsame _ (by rw [hx]; simp), hsame _ (by rw [hy]; simp)⟩
  | set_scorer mode params => exact h.frame hm (fun _ _ => ⟨rfl, rfl⟩) rfl
  | prune =>
    have hkept : ∀ a, s.1.sit_of a = (s.1.sit_of a).bind (kept s.1.tracks) := by
      intro a
      cases ha : s.1.sit_of a with
      | none => rfl
      | some x => simp [kept, h.mirrored.tracked ha]
    refine h.relocate hm _ [] (fun p _ => ⟨hkept _, hkept _⟩) ?_
    exact (List.append_nil _).symm ▸ h.accounts.prune s.1.tracks
  | write store => exact h.frame hm (fun _ _ => ⟨rfl, rfl⟩) rfl
  | reload =>
    have hkept : ∀ a, s.1.reload.sit_of a = s.1.sit_of a → s.1.reload.sit_of a =
        (s.1.sit_of a).bind (kept fun sid => (liveMembers s.1.store sid).isSome) := by
      intro a ha
      cases hx : s.1.reload.sit_of a with
      | none => rw [← ha, hx]; rfl
      | some x =>
        have ht : (liveMembers s.1.store x).isSome = true := Mirrored.tracked hm hx
        rw [← ha, hx]
        simp [kept, ht]
    refine h.relocate hm _ [] (fun p hp => ⟨hkept _ (hop.2 p hp).1, hkept _ (hop.2 p hp).2⟩) ?_
    exact (List.append_nil _).symm ▸ h.accounts.prune _

/-- In every run of undisturbed steps what one situation holds about another is the evidence of every
pair of their members that was scored and still stands, and nothing else. -/
theorem run_attributed (t : {t : Tables // t.Sequenced}) (mode : Mode) (params : GroupingParams E)
    (ops : List (EngineOp E))
    (hops : Runs.Meets stepEarned Undisturbed (fresh t.1 ⟨mode, params, .empty⟩, []) ops) :
    let s := Runs.run stepEarned (fresh t.1 ⟨mode, params, .empty⟩, []) ops
    s.1.Attributed s.2 := by
  have hstart : Carried (fresh t.1 (⟨mode, params, .empty⟩ : Grouper E), ([] : List (Earned E))) := by
    refine ⟨⟨fun _ _ => rfl, fun _ _ => rfl, t.2⟩, fun p hp => absurd hp List.not_mem_nil, fun _ => none, ?_,
      fun _ _ _ => rfl⟩
    refine ⟨fun _ _ => rfl, fun _ => rfl, fun p q r hp => ?_, fun p r hp => ?_⟩
    · exact absurd hp (by simp)
    · exact absurd hp (by simp)
  have hstep (s : Engine E × List (Earned E)) (op : EngineOp E) (h : Carried s) (hop : Undisturbed s op) :=
    carried_step h op hop
  exact (Runs.run_invariant hstep _ ops hstart hops).attributed

end Step

/-- Three alarms open a situation each; the second is scored against the first. -/
def apart : List (EngineOp ℚ) :=
  [.assign ⟨1, 1, 1, 0⟩ [], .assign ⟨2, 1, 1, 1⟩ [⟨1, -1, false⟩], .assign ⟨3, 1, 1, 2⟩ []]

theorem run_attributed_apart :
    let s := Runs.run stepEarned (fresh empty.1 clustered, []) apart
    s.1.Attributed s.2 := by
  refine run_attributed empty .cluster ⟨0, 1, 3⟩ apart ⟨?_, ?_, ?_, trivial⟩
  all_goals exact ⟨.inl ⟨by decide +kernel, by decide +kernel⟩, .inl (by decide +kernel)⟩

/-- An operator merges the first situation into the third: the evidence stays with a situation that has
no member, whichever of the pairs one counts. -/
theorem merged_unattributed : ¬ ∀ ops : List (EngineOp ℚ),
    let s := Runs.run stepEarned (fresh empty.1 clustered, []) ops
    ∃ pairs : List (Earned ℚ), pairs.Sublist s.2 ∧ s.1.Attributed pairs := by
  intro h
  obtain ⟨pairs, hsub, ha⟩ := h (apart ++ [.merge 3 1 3])
  have hpairs : (Runs.run stepEarned (fresh empty.1 clustered, []) (apart ++ [.merge 3 1 3])).2 =
      [(2, 1, -1)] := by decide +kernel
  have hheld : (Runs.run stepEarned (fresh empty.1 clustered, []) (apart ++ [.merge 3 1 3])).1.grouper.cross.held
      1 2 = (-1, 1) := by decide +kernel
  have h12 := ha 1 2 (by decide)
  rw [hheld] at h12
  rw [hpairs] at hsub
  rcases List.sublist_singleton.mp hsub with rfl | rfl
  · exact absurd h12 (by decide +kernel)
  · exact absurd h12 (by decide +kernel)

end Engine
end NetCoreNoc.Operate
