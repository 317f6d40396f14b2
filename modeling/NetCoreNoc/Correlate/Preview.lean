import Mathlib
import NetCoreNoc.Components
import NetCoreNoc.Correlate.Recall

/-! The additive formula with its gates and its bounds, and the what-if that partitions recent alarms
under it (`scoring.py`, `gates.py`, `preview.py`). -/
namespace NetCoreNoc.Correlate.Recall
open Components

section Scoring
variable {E : Type} [Field E] [LinearOrder E]

/-- Different elements, and nothing learned about the two. -/
def unrelated_elements (f : LinkFeatures E) : Bool := f.ne_i ≠ f.ne_j && f.entity_affinity = 0

/-- Different elements, and different enterprise subtrees. -/
def cross_subtree_elements (f : LinkFeatures E) : Bool :=
  f.same_oid_root = some false && f.ne_i ≠ f.ne_j

structure AdditiveScorer (E : Type) where
  w_t : E
  w_a : E
  w_e : E
  tau_s : E
  threshold : E

/-- Why a parameter set is refused: which bound, and the value. The wording is left out. -/
inductive ScorerParamsError (E : Type) where
  | range (name : String) (value : E)
  | tau_s (value : E)
  | weight_sum (value : E)
  | threshold (value : E)
  | headroom (threshold weight_sum : E)

def MIN_TAU_S : E := 1
def MAX_TAU_S : E := 3600
def MIN_WEIGHT_SUM : E := 1 / (10 : Nat)
def MIN_THRESHOLD : E := 1 / 100
def THRESHOLD_MARGIN : E := 1 / 100

namespace AdditiveScorer
variable (s : AdditiveScorer E)

/-- `validate_params` -/
def validate_params : Except (ScorerParamsError E) Unit :=
  match [("w_t", s.w_t), ("w_a", s.w_a), ("w_e", s.w_e), ("threshold", s.threshold)].find? fun p =>
      !(0 ≤ p.2 && p.2 ≤ 1) with
  | some p => .error (.range p.1 p.2)
  | none =>
    if !(MIN_TAU_S ≤ s.tau_s && s.tau_s ≤ MAX_TAU_S) then .error (.tau_s s.tau_s)
    else
      let weight_sum := s.w_t + s.w_a + s.w_e
      if weight_sum < MIN_WEIGHT_SUM then .error (.weight_sum weight_sum)
      else if s.threshold < MIN_THRESHOLD then .error (.threshold s.threshold)
      else if weight_sum - THRESHOLD_MARGIN < s.threshold then .error (.headroom s.threshold weight_sum)
      else .ok ()

/-- The three terms, of the affinities as they are gated. -/
def total (exp : E → E) (delta_t_s : ℚ) (class_affinity entity_affinity : E) : E :=
  s.w_t * exp (-(|delta_t_s| : ℚ) / s.tau_s) + s.w_a * class_affinity + s.w_e * entity_affinity

def score (exp : E → E) (f : LinkFeatures E) : LinkScore E :=
  let entity_affinity := if cross_subtree_elements f then 0 else f.entity_affinity
  let class_affinity := if unrelated_elements f then 0 else f.class_affinity
  let total := s.total exp f.delta_t_s class_affinity entity_affinity
  ⟨s.threshold < total, total, s.threshold⟩

/-- The formula as the active scorer: it has no logit. -/
def scorer (exp : E → E) : LinkScorer E := ⟨s.score exp, s.threshold, none⟩

end AdditiveScorer

end Scoring

structure PreviewAlarm where
  alarm_id : Nat
  class_id : Nat
  ne_id : Nat
  entity_id : Nat
  ts : ℚ
  deriving DecidableEq, Repr

instance : WindowEntry PreviewAlarm := ⟨(·.alarm_id), (·.ts)⟩

/-- `parent`: nothing is above itself. -/
structure Forest where
  parent : Nat → Nat
  le : ∀ x, parent x ≤ x

namespace Forest

/-- `{a.alarm_id: a.alarm_id for a in alarms}` -/
def single : Forest := ⟨id, fun _ => le_rfl⟩

variable (f : Forest)

/-- `parent[x] = y` -/
def point (x y : Nat) (h : y ≤ x) : Forest where
  parent := Function.update f.parent x y
  le z := by
    rw [Function.update_apply]
    split
    · rename_i hz
      exact hz ▸ h
    · exact f.le z

/-- `parent[x] = parent[parent[x]]` -/
def halve (x : Nat) : Forest := f.point x (f.parent (f.parent x)) ((f.le _).trans (f.le x))

theorem halve_parent (x : Nat) : (f.halve x).parent x = f.parent (f.parent x) := Function.update_self ..

def find (f : Forest) (x : Nat) : Forest × Nat :=
  if f.parent x = x then (f, x) else find (f.halve x) ((f.halve x).parent x)
termination_by x
decreasing_by
  rename_i hne
  rw [halve_parent]
  exact (f.le _).trans_lt (lt_of_le_of_ne (f.le x) hne)

def union (a b : Nat) : Forest :=
  let ra := f.find a
  let rb := ra.1.find b
  if ra.2 ≠ rb.2 then rb.1.point (max ra.2 rb.2) (min ra.2 rb.2) (min_le_max) else rb.1

end Forest

def MAX_CANDIDATES : Nat := 100
def WINDOW_S : ℚ := 120
def PREVIEW_WINDOW_S : ℚ := WINDOW_S
def PREVIEW_MAX_CANDIDATES : Nat := MAX_CANDIDATES

section Partition
variable {E : Type}

/-- The scorer's input for a pair, as the what-if builds it. -/
def previewed (affinities : Affinities E) (new old : PreviewAlarm) : LinkFeatures E where
  delta_t_s := |new.ts - old.ts|
  class_i := new.class_id
  class_j := old.class_id
  class_affinity := affinities.class_affinity new.class_id old.class_id
  ne_i := new.ne_id
  ne_j := old.ne_id
  entity_affinity := affinities.entity_affinity new.entity_id new.ne_id old.entity_id old.ne_id

/-- The inner loop: the links of one alarm. -/
def unite (scorer : LinkScorer E) (affinities : Affinities E) (new : PreviewAlarm) (s : Forest × Nat)
    (old : PreviewAlarm) : Forest × Nat :=
  if (scorer.score (previewed affinities new old)).linked then (s.1.union new.alarm_id old.alarm_id, s.2 + 1)
  else s

/-- The outer loop, after the alarms of `window`. -/
def unites (scorer : LinkScorer E) (affinities : Affinities E) :
    List PreviewAlarm → List PreviewAlarm → Forest × Nat → Forest × Nat
  | _, [], s => s
  | window, new :: rest, s =>
    unites scorer affinities (window ++ [new]) rest
      ((select_candidates window new.ts PREVIEW_WINDOW_S PREVIEW_MAX_CANDIDATES none).foldl
        (unite scorer affinities new) s)

/-- `{a.alarm_id: find(a.alarm_id) for a in alarms}` -/
def labels (f : Forest) : List PreviewAlarm → List (Nat × Nat)
  | [] => []
  | a :: rest => (a.alarm_id, (f.find a.alarm_id).2) :: labels (f.find a.alarm_id).1 rest

/-- The component of each alarm, and the number of links. -/
def partition (alarms : List PreviewAlarm) (scorer : LinkScorer E) (affinities : Affinities E) :
    List (Nat × Nat) × Nat :=
  let s := unites scorer affinities [] alarms (Forest.single, 0)
  (labels s.1 alarms, s.2)

end Partition

namespace Forest
variable {f : Forest} {x y : Nat}

/-- What is above everything above an alarm. -/
def root (f : Forest) (x : Nat) : Nat := if f.parent x = x then x else root f (f.parent x)
termination_by x
decreasing_by exact lt_of_le_of_ne (f.le x) ‹_›

theorem root_self (h : f.parent x = x) : f.root x = x := by rw [root, if_pos h]

theorem root_parent : f.root (f.parent x) = f.root x := by
  by_cases h : f.parent x = x
  · rw [h]
  · rw [root.eq_def f x, if_neg h]

theorem parent_root (f : Forest) (x : Nat) : f.parent (f.root x) = f.root x := by
  induction x using Nat.strongRecOn with
  | ind x ih =>
    by_cases h : f.parent x = x
    · rw [root_self h, h]
    · rw [← root_parent, ih _ (lt_of_le_of_ne (f.le x) h)]

/-- A shorter way to the root leads to it. -/
theorem root_halve (f : Forest) (x y : Nat) : (f.halve x).root y = f.root y := by
  induction y using Nat.strongRecOn with
  | ind y ih =>
    by_cases hy : y = x
    · subst hy
      by_cases h : f.parent (f.parent y) = y
      · have hp : f.parent y = y := le_antisymm (f.le y) (h.symm.le.trans (f.le _))
        rw [root_self hp, root_self ((halve_parent f y).trans h)]
      · have hlt := lt_of_le_of_ne ((f.le _).trans (f.le y)) h
        rw [← root_parent, halve_parent, ih _ hlt, root_parent, root_parent]
    · have hp : (f.halve x).parent y = f.parent y := Function.update_of_ne hy ..
      by_cases h : f.parent y = y
      · rw [root_self h, root_self (hp.trans h)]
      · rw [← root_parent, hp, ih _ (lt_of_le_of_ne (f.le y) h), root_parent]

theorem find_spec (f : Forest) (x : Nat) :
    (f.find x).2 = f.root x ∧ ∀ y, (f.find x).1.root y = f.root y := by
  induction f, x using find.induct with
  | case1 f x h => rw [find, if_pos h, root_self h]; exact ⟨rfl, fun _ => rfl⟩
  | case2 f x h ih =>
    rw [find, if_neg h]
    refine ⟨ih.1.trans ?_, fun y => (ih.2 y).trans (root_halve f x y)⟩
    rw [root_halve, halve_parent, root_parent, root_parent]

/-- One root is put above another that is greater. -/
theorem root_point {hi lo : Nat} (hhi : f.parent hi = hi) (hlo : f.parent lo = lo) (hlt : lo < hi) (y : Nat) :
    (f.point hi lo hlt.le).root y = if f.root y = hi then lo else f.root y := by
  have hlo' : (f.point hi lo hlt.le).parent lo = lo := (Function.update_of_ne hlt.ne ..).trans hlo
  induction y using Nat.strongRecOn with
  | ind y ih =>
    by_cases hy : y = hi
    · subst hy
      have hp : (f.point y lo hlt.le).parent y = lo := Function.update_self ..
      rw [root_self hhi, if_pos rfl, ← root_parent, hp, root_self hlo']
    · have hp : (f.point hi lo hlt.le).parent y = f.parent y := Function.update_of_ne hy ..
      by_cases h : f.parent y = y
      · rw [root_self (hp.trans h), root_self h, if_neg hy]
      · rw [← root_parent, hp, ih _ (lt_of_le_of_ne (f.le y) h), root_parent]

theorem root_union (f : Forest) (a b y : Nat) : (f.union a b).root y =
    if f.root y = f.root a ∨ f.root y = f.root b then min (f.root a) (f.root b) else f.root y := by
  obtain ⟨ha, hroots⟩ := find_spec f a
  obtain ⟨hb, hroots'⟩ := find_spec (f.find a).1 b
  rw [hroots] at hb
  simp only [hroots] at hroots'
  unfold union
  dsimp only
  by_cases heq : f.root a = f.root b
  · rw [if_neg (by rw [ha, hb, heq]; exact not_not.mpr rfl), hroots', heq, min_self]
    grind
  · rw [if_pos (by rw [ha, hb]; exact heq)]
    have hparent : ∀ r, f.parent r = r → ((f.find a).1.find b).1.parent r = r := by
      intro r hr
      rw [← root_self hr, ← hroots']
      exact parent_root _ _
    have hmax : f.parent (max (f.root a) (f.root b)) = max (f.root a) (f.root b) := by
      rcases max_choice (f.root a) (f.root b) with h | h <;> rw [h] <;> exact parent_root f _
    have hmin : f.parent (min (f.root a) (f.root b)) = min (f.root a) (f.root b) := by
      rcases min_choice (f.root a) (f.root b) with h | h <;> rw [h] <;> exact parent_root f _
    have hlt : min (f.root a) (f.root b) < max (f.root a) (f.root b) := min_lt_max.mpr heq
    simp only [ha, hb]
    rw [root_point (hparent _ hmax) (hparent _ hmin) hlt, hroots']
    grind

/-- A link between alarms seen makes one component of the two that it joins. -/
theorem union_attaches (f : Forest) {seen : Nat → Bool} {a b : Nat} (ha : seen a) (hb : seen b) :
    Attaches (fun x => if seen x then some (f.root x) else none)
      (fun x => if seen x then some ((f.union a b).root x) else none) a (· = b)
      (fun r => r = f.root a ∨ r = f.root b) (min (f.root a) (f.root b)) := by
  refine ⟨?_, fun r => ?_, .inl (min_choice ..), fun x => ?_⟩
  · rintro c rfl
    rw [if_pos hb]
    rfl
  · simp only [ha, if_true, Option.some_inj, exists_eq_left, hb]
    exact or_congr eq_comm eq_comm
  · simp only [root_union]
    by_cases hx : x = a
    · subst hx
      simp [ha]
    · rw [if_neg hx]
      cases seen x <;> simp

end Forest

section Compared
variable {α : Type} [WindowEntry α]

/-- The pairs that are compared when the alarms of `rest` arrive after those of `window`. -/
def compared (window : List α) : List α → List (α × α)
  | [] => []
  | new :: rest =>
    (select_candidates window (WindowEntry.ts new) WINDOW_S MAX_CANDIDATES none).map (new, ·) ++
      compared (window ++ [new]) rest

private theorem select_subset (now window_s : ℚ) (max_candidates : Nat) (live : Nat → Bool)
    (entries recent : List α) : select now window_s max_candidates live entries recent ⊆ recent ++ entries := by
  induction entries generalizing recent with
  | nil => simp [select]
  | cons entry rest ih =>
    rw [select]
    split
    · exact List.subset_append_left ..
    · split
      · exact List.Subset.trans (ih recent) (by simp)
      · split
        · simp
        · simpa using ih (recent ++ [entry])

theorem mem_of_mem_candidates {window : List α} {now window_s : ℚ} {max_candidates : Nat}
    {live : Option (Nat → Bool)} {a : α} (h : a ∈ select_candidates window now window_s max_candidates live) :
    a ∈ window := by
  have := select_subset now window_s max_candidates (live.getD fun _ => true) window.reverse [] (List.mem_reverse.mp h)
  simpa using this

theorem mem_compared {window rest : List α} {p : α × α} (h : p ∈ compared window rest) :
    p.1 ∈ rest ∧ p.2 ∈ window ++ rest := by
  induction rest generalizing window with
  | nil => exact absurd h List.not_mem_nil
  | cons new rest ih =>
    rcases List.mem_append.mp h with h | h
    · obtain ⟨old, hold, rfl⟩ := List.mem_map.mp h
      exact ⟨List.mem_cons_self, List.mem_append_left _ (mem_of_mem_candidates hold)⟩
    · obtain ⟨h1, h2⟩ := ih h
      exact ⟨List.mem_cons_of_mem new h1, by simpa using h2⟩

section Map
variable {β : Type} [WindowEntry β] {f : α → β} (hid : ∀ a, WindowEntry.alarm_id (f a) = WindowEntry.alarm_id a)
  (hts : ∀ a, WindowEntry.ts (f a) = WindowEntry.ts a)
include hid hts

private theorem select_map (now window_s : ℚ) (max_candidates : Nat) (live : Nat → Bool) (entries recent : List α) :
    select now window_s max_candidates live (entries.map f) (recent.map f) =
      (select now window_s max_candidates live entries recent).map f := by
  induction entries generalizing recent with
  | nil => rfl
  | cons entry rest ih =>
    simp only [List.map_cons, select, hid, hts]
    split
    · rfl
    · split
      · exact ih recent
      · simp only [← List.map_singleton (f := f), ← List.map_append, List.length_map]
        split
        · rfl
        · exact ih (recent ++ [entry])

/-- What is compared depends on the numbers and the times of the alarms alone. -/
theorem compared_map (window rest : List α) :
    compared (window.map f) (rest.map f) = (compared window rest).map fun p => (f p.1, f p.2) := by
  induction rest generalizing window with
  | nil => rfl
  | cons new rest ih =>
    have hselect : select_candidates (window.map f) (WindowEntry.ts new) WINDOW_S MAX_CANDIDATES none =
        (select_candidates window (WindowEntry.ts new) WINDOW_S MAX_CANDIDATES none).map f := by
      have := select_map hid hts (WindowEntry.ts new) WINDOW_S MAX_CANDIDATES (fun _ => true) window.reverse []
      rw [select_candidates, select_candidates, ← List.map_reverse, List.map_reverse, ← List.map_reverse]
      simpa using congrArg List.reverse this
    have hrest := ih (window ++ [new])
    rw [List.map_append, List.map_singleton] at hrest
    simp only [List.map_cons, compared, hts, hselect, hrest, List.map_append, List.map_map]
    rfl

end Map
end Compared

section Labelled
variable {E : Type} {scorer : LinkScorer E} {affinities : Affinities E}

theorem unites_eq (window rest : List PreviewAlarm) (s : Forest × Nat) :
    unites scorer affinities window rest s =
      (compared window rest).foldl (fun s p => unite scorer affinities p.1 s p.2) s := by
  induction rest generalizing window s with
  | nil => rfl
  | cons new rest ih =>
    rw [unites, ih, compared, List.foldl_append, List.foldl_map]
    rfl

theorem labels_eq (f : Forest) (alarms : List PreviewAlarm) :
    labels f alarms = alarms.map fun a => (a.alarm_id, f.root a.alarm_id) := by
  induction alarms generalizing f with
  | nil => rfl
  | cons a rest ih =>
    obtain ⟨hroot, hroots⟩ := Forest.find_spec f a.alarm_id
    rw [labels, ih, hroot]
    simp only [hroots, List.map_cons]

/-- The links of the what-if, among the pairs it has compared. -/
def Previewed (scorer : LinkScorer E) (affinities : Affinities E) (pairs : List (PreviewAlarm × PreviewAlarm))
    (a b : Nat) : Prop :=
  ∃ p ∈ pairs, (scorer.score (previewed affinities p.1 p.2)).linked ∧ p.1.alarm_id = a ∧ p.2.alarm_id = b

/-- The union-find holds the components of the links among alarms that are all in the snapshot. -/
theorem unite_labels (seen : Nat → Bool) (pairs : List (PreviewAlarm × PreviewAlarm))
    (hseen : ∀ p ∈ pairs, seen p.1.alarm_id ∧ seen p.2.alarm_id) (n : Nat) :
    Labels (fun a => if seen a then some ((pairs.foldl (fun s p => unite scorer affinities p.1 s p.2)
      (Forest.single, n)).1.root a) else none) (Previewed scorer affinities pairs) := by
  induction pairs using List.reverseRecOn with
  | nil =>
    have hsingle : ∀ a, Forest.single.root a = a := fun a => Forest.root_self rfl
    simp only [List.foldl_nil, hsingle]
    refine (Labels.single seen).congr fun a b => iff_false_intro ?_
    rintro ⟨p, hp, -⟩
    exact absurd hp (by simp)
  | append_singleton pairs p ih =>
    have hl := ih fun q hq => hseen q (List.mem_append_left _ hq)
    obtain ⟨ha, hb⟩ := hseen p (by simp)
    rw [List.foldl_append, List.foldl_cons, List.foldl_nil]
    obtain ⟨s, hs⟩ : ∃ s, s = pairs.foldl (fun s p => unite scorer affinities p.1 s p.2) (Forest.single, n) :=
      ⟨_, rfl⟩
    rw [← hs] at hl ⊢
    by_cases hlink : (scorer.score (previewed affinities p.1 p.2)).linked = true
    · rw [unite, if_pos hlink]
      refine (hl.attach (Forest.union_attaches s.1 ha hb)).congr fun a b => ⟨?_, ?_⟩
      · rintro ⟨q, hq, hlq, rfl, rfl⟩
        rcases List.mem_append.mp hq with hq | hq
        · exact .inl ⟨q, hq, hlq, rfl, rfl⟩
        · obtain rfl := List.mem_singleton.mp hq
          exact .inr ⟨rfl, rfl⟩
      · rintro (⟨q, hq, hlq, rfl, rfl⟩ | ⟨rfl, rfl⟩)
        · exact ⟨q, List.mem_append_left _ hq, hlq, rfl, rfl⟩
        · exact ⟨p, by simp, hlink, rfl, rfl⟩
    · rw [unite, if_neg hlink]
      refine hl.congr fun a b => ⟨?_, ?_⟩
      · rintro ⟨q, hq, hlq, rfl, rfl⟩
        rcases List.mem_append.mp hq with hq | hq
        · exact ⟨q, hq, hlq, rfl, rfl⟩
        · obtain rfl := List.mem_singleton.mp hq
          exact absurd hlq hlink
      · rintro ⟨q, hq, hlq, rfl, rfl⟩
        exact ⟨q, List.mem_append_left _ hq, hlq, rfl, rfl⟩

/-- What the what-if answers: one component an alarm, and the components of its links. -/
theorem partition_component (alarms : List PreviewAlarm) :
    let answer := (partition alarms scorer affinities).1
    (∀ a ∈ alarms, (answer.lookup a.alarm_id).isSome) ∧
    ∀ a ∈ alarms, ∀ b ∈ alarms, answer.lookup a.alarm_id = answer.lookup b.alarm_id ↔
      (SimpleGraph.fromRel (Previewed scorer affinities (compared [] alarms))).Reachable a.alarm_id b.alarm_id := by
  intro answer
  obtain ⟨f, hf⟩ : ∃ f, f = (unites scorer affinities [] alarms (Forest.single, 0)).1 := ⟨_, rfl⟩
  have hlookup : ∀ a ∈ alarms, answer.lookup a.alarm_id = some (f.root a.alarm_id) := by
    have hanswer : answer = alarms.map fun a => (a.alarm_id, f.root a.alarm_id) := by
      rw [hf, ← labels_eq]
      rfl
    rw [hanswer]
    clear hf hanswer answer
    intro a ha
    induction alarms with
    | nil => exact absurd ha List.not_mem_nil
    | cons b rest ih =>
      rw [List.map_cons, List.lookup_cons]
      by_cases hab : a.alarm_id = b.alarm_id
      · rw [hab, beq_self_eq_true]
      · rw [beq_eq_false_iff_ne.mpr hab]
        exact ih ((List.mem_cons.mp ha).resolve_left fun he => hab (congrArg PreviewAlarm.alarm_id he))
  have hlabels := @unite_labels E scorer affinities
    (fun id => alarms.any (·.alarm_id = id)) (compared [] alarms) (fun p hp => ?_) 0
  · rw [← unites_eq, ← hf] at hlabels
    refine ⟨fun a ha => by rw [hlookup a ha]; rfl, fun a ha b hb => ?_⟩
    have hseen : ∀ c ∈ alarms, (alarms.any (·.alarm_id = c.alarm_id)) = true := fun c hc =>
      List.any_eq_true.mpr ⟨c, hc, decide_eq_true rfl⟩
    rw [hlookup a ha, hlookup b hb, Option.some_inj]
    exact hlabels.component (if_pos (hseen a ha)) (if_pos (hseen b hb))
  · obtain ⟨h1, h2⟩ := mem_compared hp
    exact ⟨List.any_eq_true.mpr ⟨_, h1, decide_eq_true rfl⟩, List.any_eq_true.mpr ⟨_, h2, decide_eq_true rfl⟩⟩

end Labelled
end NetCoreNoc.Correlate.Recall
