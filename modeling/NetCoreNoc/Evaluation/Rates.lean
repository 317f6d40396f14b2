import Mathlib
import NetCoreNoc.Evaluation.Partition

/-! What the merge rates are named for: components of the accepted links, and the verdicts on the bags
that they span or tear. -/
namespace NetCoreNoc.Evaluation
open Components Relation

/-- Which accepted links count: those that the bags scored alike were promoted with, or all. -/
inductive Scope where
  | own
  | whole
  deriving DecidableEq, Repr

namespace Corpus
variable (c : Corpus)

def confirmAlarms : Finset ℕ := c.confirmBags.biUnion c.alarms

end Corpus

namespace Scope
variable (c : Corpus)

/-- The links over the alarms of the confirm bags. -/
def merging : Scope → Pair → Prop
  | .own, p => c.verdict p.feedback_id = some .confirm
  | .whole, p => p.alarm_a ∈ c.confirmAlarms ∧ p.alarm_b ∈ c.confirmAlarms

/-- The links that may leave a split bag whole. -/
def holding : Scope → ℕ → Pair → Prop
  | .own, f, p => p.feedback_id = f
  | .whole, _, _ => True

end Scope

namespace Corpus
variable (c : Corpus) (counts : Pair → Prop)

/-- The components that have an alarm of a confirm bag. -/
def components : Set (c.graph counts).ConnectedComponent :=
  (c.graph counts).connectedComponentMk '' (c.confirmAlarms : Set ℕ)

/-- Those with alarms of two. -/
def spanning : Set (c.graph counts).ConnectedComponent :=
  { k ∈ c.components counts | ∃ f ∈ c.confirmBags, ∃ g ∈ c.confirmBags, f ≠ g ∧
    (∃ a ∈ c.alarms f, (c.graph counts).connectedComponentMk a = k) ∧
    ∃ b ∈ c.alarms g, (c.graph counts).connectedComponentMk b = k }

noncomputable def overMerge : ℚ := ((c.spanning counts).ncard : ℚ) / (c.components counts).ncard

noncomputable def underMerge : ℚ := ((c.torn fun _ => counts).card : ℚ) / c.confirmBags.card

/-- The same corpus under other alarm and feedback ids, its pairs in another order. -/
structure Renames (alarm feedback : ℕ → ℕ) (c' : Corpus) : Prop where
  alarm_injective : Function.Injective alarm
  feedback_injective : Function.Injective feedback
  bags : c'.bags = c.bags.map fun b => { b with feedback_id := feedback b.feedback_id }
  pairs : c'.pairs.Perm (c.pairs.map fun p =>
    { p with feedback_id := feedback p.feedback_id, alarm_a := alarm p.alarm_a, alarm_b := alarm p.alarm_b })
  accepted : c'.accepted = c.accepted

end Corpus

/-- The metrics measure what they name. -/
structure Measures (hash : ℕ × ℕ → ℤ) (scope : Scope) (c : Corpus) : Prop where
  over_merge : (evaluate hash c).over_merge =
    if c.confirmBags = ∅ then none else some (c.overMerge (scope.merging c))
  under_merge : (evaluate hash c).under_merge =
    if c.confirmBags = ∅ then none else some (c.underMerge (scope.merging c))
  split_bags_intact : (evaluate hash c).split_bags_intact = (c.intact scope.holding).card
  components : ∀ edges members, Partitions (partition edges members) edges members

namespace Corpus
variable (c : Corpus)

/-- No alarm is a member of two confirm bags. -/
def Disjoint : Prop :=
  ∀ f ∈ c.confirmBags, ∀ g ∈ c.confirmBags, ∀ a ∈ c.alarms f, a ∈ c.alarms g → f = g

instance : Decidable c.Disjoint :=
  inferInstanceAs (Decidable (∀ f ∈ c.confirmBags, ∀ g ∈ c.confirmBags, ∀ a ∈ c.alarms f, a ∈ c.alarms g → f = g))

/-- No link, whichever bag it was promoted under, joins two confirm bags. -/
def Unjoined : Prop := ∀ p ∈ c.pairs, c.linked p → ∀ f ∈ c.confirmBags, ∀ g ∈ c.confirmBags,
  p.alarm_a ∈ c.alarms f → p.alarm_b ∈ c.alarms g → f = g

/-- No bag has to lean on links that were promoted under another. -/
def Alone : Prop :=
  (∀ f ∈ c.confirmBags, c.Inside (Scope.whole.merging c) f → c.Inside (under f) f) ∧
  ∀ f ∈ c.splitBags, c.Inside (Scope.whole.holding f) f → c.Inside (under f) f

def Apart : Scope → Prop
  | .own => c.Disjoint
  | .whole => c.Disjoint ∧ c.Unjoined ∧ c.Alone

variable {c} {counts counts' : Pair → Prop}

theorem Inside.mono (h : ∀ p, counts p → counts' p) {f : ℕ} (hf : c.Inside counts f) : c.Inside counts' f := by
  refine fun a ha b hb => Reachable.of_edges (fun x y hxy => ?_) (hf a ha b hb)
  obtain ⟨p, hp, hl, hcounts, rfl, rfl⟩ := hxy
  exact reachable_iff.mpr (.rel _ _ ⟨p, hp, hl, h p hcounts, rfl, rfl⟩)

/-- What the bag's own links leave whole, all the links that count do. -/
theorem Inside.merging {f : ℕ} (hf : f ∈ c.confirmBags) (h : c.Inside (under f) f) (scope : Scope) :
    c.Inside (scope.merging c) f := by
  refine fun a ha b hb => Reachable.of_edges (fun x y hxy => ?_) (h a ha b hb)
  obtain ⟨p, hp, hl, rfl, rfl, rfl⟩ := hxy
  refine reachable_iff.mpr (.rel _ _ ⟨p, hp, hl, ?_, rfl, rfl⟩)
  cases scope with
  | own => exact (mem_confirmBags.mp hf).2
  | whole =>
    exact ⟨Finset.mem_biUnion.mpr ⟨_, hf, mem_alarms.mpr ⟨p, hp, rfl, .inl rfl⟩⟩,
      Finset.mem_biUnion.mpr ⟨_, hf, mem_alarms.mpr ⟨p, hp, rfl, .inr rfl⟩⟩⟩

theorem Inside.holding {f : ℕ} (h : c.Inside (under f) f) (scope : Scope) : c.Inside (scope.holding f) f := by
  refine h.mono fun p hp => ?_
  cases scope with
  | own => exact hp
  | whole => exact trivial

/-- No two confirm bags have an alarm in one component. -/
def Parted (c : Corpus) (counts : Pair → Prop) : Prop := ∀ f ∈ c.confirmBags, ∀ g ∈ c.confirmBags,
  ∀ a ∈ c.alarms f, ∀ b ∈ c.alarms g, (c.graph counts).Reachable a b → f = g

theorem overMerge_eq_zero (hne : c.confirmBags ≠ ∅) : c.overMerge counts = 0 ↔ c.Parted counts := by
  have hfinite : (c.components counts).Finite := (Finset.finite_toSet _).image _
  obtain ⟨f, hf⟩ := Finset.nonempty_iff_ne_empty.mpr hne
  obtain ⟨a, ha⟩ := alarms_nonempty (mem_confirmBags.mp hf).1
  have hsome : (c.components counts).ncard ≠ 0 := by
    rw [Ne, Set.ncard_eq_zero hfinite, ← Ne, ← Set.nonempty_iff_ne_empty]
    exact ⟨_, a, Finset.mem_biUnion.mpr ⟨f, hf, ha⟩, rfl⟩
  rw [overMerge, div_eq_zero_iff, or_iff_left (Nat.cast_ne_zero.mpr hsome), Nat.cast_eq_zero,
    Set.ncard_eq_zero (hfinite.subset fun _ h => h.1), Set.eq_empty_iff_forall_notMem]
  constructor
  · intro h f hf g hg a ha b hb hab
    by_contra hfg
    refine h ((c.graph counts).connectedComponentMk a) ⟨⟨a, Finset.mem_biUnion.mpr ⟨f, hf, ha⟩, rfl⟩,
      f, hf, g, hg, hfg, ⟨a, ha, rfl⟩, b, hb, ?_⟩
    exact SimpleGraph.ConnectedComponent.eq.mpr hab.symm
  · rintro h k ⟨-, f, hf, g, hg, hfg, ⟨a, ha, hak⟩, b, hb, hbk⟩
    exact hfg (h f hf g hg a ha b hb (SimpleGraph.ConnectedComponent.eq.mp (hak.trans hbk.symm)))

/-- The bags that the links leave torn are the same when these and the own links of each leave the same whole. -/
theorem underMerge_eq (hne : c.confirmBags ≠ ∅) (scope : Scope) :
    ((c.torn under).card : ℚ) / c.confirmBags.card = c.underMerge (scope.merging c) ↔
      ∀ f ∈ c.confirmBags, c.Inside (scope.merging c) f → c.Inside (under f) f := by
  have hcard : (c.confirmBags.card : ℚ) ≠ 0 := Nat.cast_ne_zero.mpr (Finset.card_ne_zero.mpr
    (Finset.nonempty_iff_ne_empty.mpr hne))
  have hsub : c.torn (fun _ => scope.merging c) ⊆ c.torn under := by
    intro f hf
    rw [mem_torn] at hf ⊢
    exact hf.imp_right fun h hin => h (hin.merging hf.1 scope)
  rw [underMerge, div_left_inj' hcard, Nat.cast_inj]
  constructor
  · intro heq f hf hin
    by_contra hout
    have htorn : f ∈ c.torn under := mem_torn.mpr ⟨hf, hout⟩
    rw [← Finset.eq_of_subset_of_card_le hsub heq.le] at htorn
    exact (mem_torn.mp htorn).2 hin
  · intro h
    refine congrArg Finset.card (Finset.Subset.antisymm (fun f hf => ?_) hsub)
    rw [mem_torn] at hf ⊢
    exact hf.imp_right fun hout hin => hout (h f hf.1 hin)

theorem intact_eq (scope : Scope) : (c.intact under).card = (c.intact scope.holding).card ↔
    ∀ f ∈ c.splitBags, c.Inside (scope.holding f) f → c.Inside (under f) f := by
  have hsub : c.intact under ⊆ c.intact scope.holding := by
    intro f hf
    rw [mem_intact] at hf ⊢
    exact hf.imp_right fun h => h.holding scope
  constructor
  · intro heq f hf hin
    have hintact : f ∈ c.intact scope.holding := mem_intact.mpr ⟨hf, hin⟩
    rw [← Finset.eq_of_subset_of_card_le hsub heq.ge] at hintact
    exact (mem_intact.mp hintact).2
  · intro h
    refine congrArg Finset.card (Finset.Subset.antisymm hsub fun f hf => ?_)
    rw [mem_intact] at hf ⊢
    exact hf.imp_right fun hin => h f hf.1 hin

/-- Without an alarm in two confirm bags, a path of their links stays in the bag where it starts. -/
theorem Disjoint.stays (h : c.Disjoint) {f : ℕ} (hf : f ∈ c.confirmBags) {a b : ℕ} (ha : a ∈ c.alarms f)
    (hab : (c.graph (Scope.own.merging c)).Reachable a b) : b ∈ c.alarms f ∧ (c.graph (under f)).Reachable a b := by
  refine Reachable.closed (fun x y hxy => ?_) ha hab
  obtain ⟨p, hp, hl, hverdict, hx, hy⟩ := hxy
  have hg : p.feedback_id ∈ c.confirmBags := mem_confirmBags.mpr ⟨mem_bagged.mpr ⟨p, hp, rfl⟩, hverdict⟩
  have hxp : x ∈ c.alarms p.feedback_id := mem_alarms.mpr ⟨p, hp, rfl, .inl hx⟩
  have hyp : y ∈ c.alarms p.feedback_id := mem_alarms.mpr ⟨p, hp, rfl, .inr hy⟩
  refine ⟨⟨fun hxf => h f hf _ hg x hxf hxp ▸ hyp, fun hyf => h f hf _ hg y hyf hyp ▸ hxp⟩, fun hxf => ?_⟩
  exact ⟨p, hp, hl, (h f hf _ hg x hxf hxp).symm, hx, hy⟩

theorem Parted.disjoint (h : c.Parted counts) : c.Disjoint :=
  fun f hf g hg a haf hag => h f hf g hg a haf a hag (.refl a)

theorem parted_own : c.Parted (Scope.own.merging c) ↔ c.Disjoint := by
  refine ⟨Parted.disjoint, fun h f hf g hg a ha b hb hab => ?_⟩
  exact h f hf g hg b (h.stays hf ha hab).1 hb

theorem parted_whole : c.Parted (Scope.whole.merging c) ↔ c.Disjoint ∧ c.Unjoined := by
  constructor
  · intro h
    refine ⟨h.disjoint, fun p hp hl f hf g hg ha hb => ?_⟩
    refine h f hf g hg _ ha _ hb (reachable_iff.mpr (.rel _ _ ⟨p, hp, hl, ⟨?_, ?_⟩, rfl, rfl⟩))
    · exact Finset.mem_biUnion.mpr ⟨f, hf, ha⟩
    · exact Finset.mem_biUnion.mpr ⟨g, hg, hb⟩
  · rintro ⟨hdisjoint, hunjoined⟩ f hf g hg a ha b hb hab
    have hstays : b ∈ c.alarms f ∧ (c.graph (Scope.whole.merging c)).Reachable a b := by
      refine Reachable.closed (fun x y hxy => ⟨?_, fun _ => hxy⟩) ha hab
      obtain ⟨p, hp, hl, ⟨hpa, hpb⟩, rfl, rfl⟩ := hxy
      obtain ⟨u, hu, hpu⟩ := Finset.mem_biUnion.mp hpa
      obtain ⟨v, hv, hpv⟩ := Finset.mem_biUnion.mp hpb
      obtain rfl := hunjoined p hp hl u hu v hv hpu hpv
      exact ⟨fun hpf => hdisjoint f hf u hu _ hpf hpu ▸ hpv, fun hpf => hdisjoint f hf u hu _ hpf hpv ▸ hpu⟩
    exact hdisjoint f hf g hg b hstays.1 hb

/-- The three counts agree with what they are named for, said of the links. -/
theorem apart_iff (scope : Scope) : c.Apart scope ↔ c.Parted (scope.merging c) ∧
    (∀ f ∈ c.confirmBags, c.Inside (scope.merging c) f → c.Inside (under f) f) ∧
    ∀ f ∈ c.splitBags, c.Inside (scope.holding f) f → c.Inside (under f) f := by
  cases scope with
  | own =>
    rw [Apart, parted_own]
    refine ⟨fun h => ⟨h, fun f hf hin a ha b hb => ?_, fun _ _ hin => hin⟩, And.left⟩
    exact (h.stays hf ha (hin a ha b hb)).2
  | whole => rw [Apart, parted_whole, and_assoc, Alone]

section Renamed
variable {c' : Corpus} {alarm feedback : ℕ → ℕ}

theorem Renames.verdict (h : c.Renames alarm feedback c') (f : ℕ) : c'.verdict (feedback f) = c.verdict f := by
  have hsame : ∀ b : Bag, decide (feedback b.feedback_id = feedback f) = decide (b.feedback_id = f) := fun b =>
    decide_eq_decide.mpr h.feedback_injective.eq_iff
  rw [Corpus.verdict, Corpus.verdict, h.bags, ← List.map_reverse, List.find?_map, Option.map_map]
  simp only [Function.comp_def, hsame]

theorem Renames.mem_pairs (h : c.Renames alarm feedback c') {p' : Pair} : p' ∈ c'.pairs ↔ ∃ p ∈ c.pairs,
    { p with feedback_id := feedback p.feedback_id, alarm_a := alarm p.alarm_a, alarm_b := alarm p.alarm_b } = p' := by
  rw [h.pairs.mem_iff, List.mem_map]

theorem Renames.bagged (h : c.Renames alarm feedback c') : c'.bagged = c.bagged.image feedback := by
  ext f'
  simp only [mem_bagged, h.mem_pairs, Finset.mem_image]
  constructor
  · rintro ⟨_, ⟨p, hp, rfl⟩, rfl⟩
    exact ⟨p.feedback_id, ⟨p, hp, rfl⟩, rfl⟩
  · rintro ⟨_, ⟨p, hp, rfl⟩, rfl⟩
    exact ⟨_, ⟨p, hp, rfl⟩, rfl⟩

theorem Renames.alarms (h : c.Renames alarm feedback c') (f : ℕ) :
    c'.alarms (feedback f) = (c.alarms f).image alarm := by
  ext a'
  simp only [mem_alarms, h.mem_pairs, Finset.mem_image]
  constructor
  · rintro ⟨_, ⟨p, hp, rfl⟩, hf, ha | ha⟩
    · exact ⟨_, ⟨p, hp, h.feedback_injective hf, .inl rfl⟩, ha⟩
    · exact ⟨_, ⟨p, hp, h.feedback_injective hf, .inr rfl⟩, ha⟩
  · rintro ⟨a, ⟨p, hp, rfl, ha | ha⟩, rfl⟩
    · exact ⟨_, ⟨p, hp, rfl⟩, rfl, .inl (congrArg alarm ha)⟩
    · exact ⟨_, ⟨p, hp, rfl⟩, rfl, .inr (congrArg alarm ha)⟩

theorem Renames.links (h : c.Renames alarm feedback c') (f a' b' : ℕ) : c'.Links (under (feedback f)) a' b' ↔
    ∃ a b, c.Links (under f) a b ∧ alarm a = a' ∧ alarm b = b' := by
  constructor
  · rintro ⟨_, hp', hl, hf, rfl, rfl⟩
    obtain ⟨p, hp, rfl⟩ := h.mem_pairs.mp hp'
    rw [linked, h.accepted] at hl
    exact ⟨_, _, ⟨p, hp, hl, h.feedback_injective hf, rfl, rfl⟩, rfl, rfl⟩
  · rintro ⟨_, _, ⟨p, hp, hl, hf, rfl, rfl⟩, rfl, rfl⟩
    refine ⟨_, h.mem_pairs.mpr ⟨p, hp, rfl⟩, ?_, congrArg feedback hf, rfl, rfl⟩
    rw [linked, h.accepted]
    exact hl

theorem Renames.inside (h : c.Renames alarm feedback c') (f : ℕ) :
    c'.Inside (under (feedback f)) (feedback f) ↔ c.Inside (under f) f := by
  have hback : Function.LeftInverse (Function.invFun alarm) alarm := Function.leftInverse_invFun h.alarm_injective
  rw [Inside, Inside, h.alarms]
  constructor
  · intro hin a ha b hb
    have hab := hin _ (Finset.mem_image_of_mem alarm ha) _ (Finset.mem_image_of_mem alarm hb)
    rw [← hback a, ← hback b]
    refine Reachable.map_edges _ (fun x y hxy => ?_) hab
    obtain ⟨u, v, huv, rfl, rfl⟩ := (h.links f _ _).mp hxy
    rw [hback, hback]
    exact reachable_iff.mpr (.rel _ _ huv)
  · rintro hin a' ha' b' hb'
    obtain ⟨a, ha, rfl⟩ := Finset.mem_image.mp ha'
    obtain ⟨b, hb, rfl⟩ := Finset.mem_image.mp hb'
    refine Reachable.map_edges alarm (fun x y hxy => ?_) (hin a ha b hb)
    exact reachable_iff.mpr (.rel _ _ ((h.links f _ _).mpr ⟨x, y, hxy, rfl, rfl⟩))

/-- The bags of a kind that does not change under a renaming are renamed one by one. -/
theorem Renames.filter (h : c.Renames alarm feedback c') {P P' : ℕ → Prop} [DecidablePred P] [DecidablePred P']
    (hP : ∀ f, P' (feedback f) ↔ P f) : c'.bagged.filter P' = (c.bagged.filter P).image feedback := by
  rw [h.bagged, Finset.filter_image]
  simp only [hP]

theorem Renames.evaluate_eq (h : c.Renames alarm feedback c') {hash : ℕ × ℕ → ℤ} (hs : c.Separates hash)
    (hs' : c'.Separates hash) : evaluate hash c' = evaluate hash c := by
  have hconfirm : c'.confirmBags = c.confirmBags.image feedback := h.filter fun f => by rw [h.verdict]
  have hsplit : c'.splitBags = c.splitBags.image feedback := h.filter fun f => by rw [h.verdict]
  have htorn : c'.torn under = (c.torn under).image feedback := by
    ext f'
    simp only [mem_torn, hconfirm, Finset.mem_image]
    constructor
    · rintro ⟨⟨f, hf, rfl⟩, hout⟩
      exact ⟨f, ⟨hf, fun hin => hout ((h.inside f).mpr hin)⟩, rfl⟩
    · rintro ⟨f, ⟨hf, hout⟩, rfl⟩
      exact ⟨⟨f, hf, rfl⟩, fun hin => hout ((h.inside f).mp hin)⟩
  have hintact : c'.intact under = (c.intact under).image feedback := by
    ext f'
    simp only [mem_intact, hsplit, Finset.mem_image]
    constructor
    · rintro ⟨⟨f, hf, rfl⟩, hin⟩
      exact ⟨f, ⟨hf, (h.inside f).mp hin⟩, rfl⟩
    · rintro ⟨f, ⟨hf, hin⟩, rfl⟩
      exact ⟨⟨f, hf, rfl⟩, (h.inside f).mpr hin⟩
  have hcard : ∀ s : Finset ℕ, (s.image feedback).card = s.card := fun s =>
    Finset.card_image_of_injective s h.feedback_injective
  rw [Corpus.evaluate_eq hs, Corpus.evaluate_eq hs', hconfirm, hsplit, htorn, hintact, hcard, hcard, hcard, hcard,
    Finset.sum_image fun x _ y _ hxy => h.feedback_injective hxy]
  simp only [h.alarms, Finset.card_image_of_injective _ h.alarm_injective, Finset.image_eq_empty]

end Renamed
end Corpus

/-- Of a corpus whose labels the hash tells apart: the three rates are what they are named for exactly where no component
has the alarms of two confirm bags; and a renaming whose labels it tells apart changes none of them. -/
theorem measures_iff (hash : ℕ × ℕ → ℤ) (scope : Scope) (c : Corpus) (h : c.Separates hash) :
    (Measures hash scope c ↔ c.Apart scope) ∧ ∀ alarm feedback c', c.Renames alarm feedback c' → c'.Separates hash →
      evaluate hash c' = evaluate hash c := by
  refine ⟨?_, fun _ _ _ hrenames hs' => hrenames.evaluate_eq h hs'⟩
  rw [Corpus.apart_iff]
  constructor
  · intro hm
    have hover := hm.over_merge
    have hunder := hm.under_merge
    have hintact := hm.split_bags_intact
    rw [Corpus.evaluate_eq h] at hover hunder hintact
    refine ⟨?_, ?_, (Corpus.intact_eq scope).mp hintact⟩
    · by_cases hne : c.confirmBags = ∅
      · exact fun f hf => absurd (hne ▸ hf) (Finset.notMem_empty f)
      · simp only [if_neg hne, Option.some_inj] at hover
        exact (Corpus.overMerge_eq_zero hne).mp hover.symm
    · by_cases hne : c.confirmBags = ∅
      · exact fun f hf => absurd (hne ▸ hf) (Finset.notMem_empty f)
      · simp only [if_neg hne, Option.some_inj] at hunder
        exact (Corpus.underMerge_eq hne scope).mp hunder
  · rintro ⟨hparted, hconfirm, hsplit⟩
    refine ⟨?_, ?_, ?_, partition_spec⟩
    · rw [Corpus.evaluate_eq h]
      split
      · rfl
      · rename_i hne
        rw [(Corpus.overMerge_eq_zero hne).mpr hparted]
    · rw [Corpus.evaluate_eq h]
      split
      · rfl
      · rename_i hne
        rw [(Corpus.underMerge_eq hne scope).mpr hconfirm]
    · rw [Corpus.evaluate_eq h]
      exact (Corpus.intact_eq scope).mpr hsplit

/-- `hash` of a pair of ids, as the interpreter has it: 64 bits, folded lane by lane. -/
def tuplehash (x : ℕ × ℕ) : ℤ :=
  let XXPRIME_1 : BitVec 64 := 11400714785074694791
  let XXPRIME_2 : BitVec 64 := 14029467366897019727
  let XXPRIME_5 : BitVec 64 := 2870177450012600261
  let lane (acc : BitVec 64) (id : ℕ) := (acc + .ofNat 64 (id % (2 ^ 61 - 1)) * XXPRIME_2).rotateLeft 31 * XXPRIME_1
  let acc := lane (lane XXPRIME_5 x.1) x.2 + (2 ^^^ (XXPRIME_5 ^^^ 3527539))
  if acc = -1 then 1546275796 else acc.toInt

example : tuplehash (1, 1) = 8389048192121911274 := by decide +kernel

-- labels of two bags that it does not tell apart
example : tuplehash (1, 11) = tuplehash (5, 1678395250935405377) := by decide +kernel

namespace Corpus
variable {c : Corpus} {hash : ℕ × ℕ → ℤ}

theorem separates_of (h : ∀ f ∈ c.bagged, ∀ a ∈ c.alarms f, ∀ g ∈ c.bagged, ∀ b ∈ c.alarms g,
    hash (f, a) = hash (g, b) → (f, a) = (g, b)) : c.Separates hash := by
  intro x hx y hy hxy
  obtain ⟨hf, -, ha⟩ := mem_labels hx
  obtain ⟨hg, -, hb⟩ := mem_labels hy
  exact h x.1 ((Finset.mem_sort _).mp hf) x.2 ha y.1 ((Finset.mem_sort _).mp hg) y.2 hb hxy

/-- Two incidents that an operator confirmed, one of them torn, and one that was two. -/
def confirmed : Corpus where
  bags := [⟨1, .confirm⟩, ⟨2, .confirm⟩, ⟨3, .split⟩]
  pairs := [⟨1, 1, 11, 12⟩, ⟨2, 1, 12, 13⟩, ⟨3, 2, 21, 22⟩, ⟨4, 3, 31, 32⟩]
  accepted := [(1, true), (2, false), (3, true), (4, true)]

/-- Two incidents that were confirmed, with one alarm in both. -/
def shared : Corpus where
  bags := [⟨1, .confirm⟩, ⟨2, .confirm⟩]
  pairs := [⟨1, 1, 11, 12⟩, ⟨2, 2, 12, 13⟩]
  accepted := [(1, true), (2, true)]

end Corpus

theorem measures_confirmed : Measures tuplehash .own Corpus.confirmed :=
  (measures_iff tuplehash .own Corpus.confirmed (Corpus.separates_of (by decide +kernel))).1.mpr
    (show Corpus.confirmed.Disjoint by decide +kernel)

/-- The two are one component, and it is not counted. -/
theorem shared_unmeasured : Corpus.shared.Separates tuplehash ∧
    (evaluate tuplehash Corpus.shared).over_merge = some 0 ∧ ∀ scope, ¬ Measures tuplehash scope Corpus.shared := by
  have hs : Corpus.shared.Separates tuplehash := Corpus.separates_of (by decide +kernel)
  have hne : Corpus.shared.confirmBags ≠ ∅ := by decide +kernel
  have hover : (evaluate tuplehash Corpus.shared).over_merge = some 0 := by
    simp only [Corpus.evaluate_eq hs, if_neg hne]
  refine ⟨hs, hover, fun scope hm => ?_⟩
  have hzero := hm.over_merge.symm.trans hover
  rw [if_neg hne, Option.some_inj, Corpus.overMerge_eq_zero hne] at hzero
  exact absurd (hzero.disjoint 1 (by decide +kernel) 2 (by decide +kernel) 12 (by decide +kernel) (by decide +kernel))
    (by decide)

end NetCoreNoc.Evaluation
