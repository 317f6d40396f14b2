import Mathlib
import NetCoreNoc.Runs

/-! Which alarm class turns which one off (`engine/correlate/alternation.py`): pairs that are known,
learned from strict alternation, or stored. -/
namespace NetCoreNoc.Correlate

/-- Full alternations before a pair is trusted. -/
def CLEAR_CYCLES_TO_LEARN : Nat := 2

/-- `_Alternation` -/
structure Alternation where
  first : Nat
  second : Option Nat := none
  last : Nat := 0
  cycles : Nat := 0
  deriving DecidableEq, Repr

/-- The role that a class holds. -/
inductive Role where
  | raise | clear
  deriving DecidableEq, Repr

structure ClearPairLearner where
  raise_to_clear : Nat → Option Nat := fun _ => none
  clear_to_raise : Nat → Option Nat := fun _ => none
  /-- by device and instance -/
  state : Nat × String → Option Alternation := fun _ => none
  dirty : List (Nat × Nat) := []

/-- `sorted`, of pairs -/
def sortedPairs (edges : List (Nat × Nat)) : List (Nat × Nat) :=
  edges.mergeSort fun p q => p.1 < q.1 || p.1 = q.1 && p.2 ≤ q.2

namespace ClearPairLearner
variable (l : ClearPairLearner)

def known_role (class_id : Nat) : Option Role :=
  if (l.raise_to_clear class_id).isSome then some .raise
  else if (l.clear_to_raise class_id).isSome then some .clear
  else none

/-- `raise_to_clear[a] = b; clear_to_raise[b] = a` -/
def pair (a b : Nat) : ClearPairLearner := { l with
  raise_to_clear := Function.update l.raise_to_clear a (some b)
  clear_to_raise := Function.update l.clear_to_raise b (some a) }

def register (raise_class clear_class : Nat) : ClearPairLearner :=
  if (l.known_role raise_class).isSome || (l.known_role clear_class).isSome then l
  else { l.pair raise_class clear_class with dirty := l.dirty.insert (raise_class, clear_class) }

def observe (device_id : Nat) (inst : String) (class_id : Nat) : ClearPairLearner :=
  let slot := (device_id, inst)
  match l.state slot with
  | none => { l with state := Function.update l.state slot (some { first := class_id, last := class_id }) }
  | some alt =>
    if class_id = alt.last then l
    else
      let second := if alt.second = none && class_id ≠ alt.first then some class_id else alt.second
      if class_id ≠ alt.first && some class_id ≠ second then
        { l with state := Function.update l.state slot (some { first := class_id, last := class_id }) }
      else
        let cycles := if some class_id = second then alt.cycles + 1 else alt.cycles
        let l₁ := { l with
          state := Function.update l.state slot (some ⟨alt.first, second, class_id, cycles⟩) }
        match second with
        | none => l₁
        | some second =>
          let known := (l₁.known_role alt.first).isSome || (l₁.known_role second).isSome
          if class_id = second && CLEAR_CYCLES_TO_LEARN ≤ cycles && !known then
            l₁.register alt.first second
          else l₁

/-- The rows of `clear_pair` that are handed out; their weights are constants. -/
def flush : List (Nat × Nat) × ClearPairLearner := (sortedPairs l.dirty, { l with dirty := [] })

/-- The first pass of `load`: the first pair of every raise class, and the classes that two rows
name the other way round. -/
def contradicted (edges : List (Nat × Nat)) : (Nat → Option Nat) × Finset Nat :=
  edges.foldl (fun p edge =>
    let contradicted := if p.1 edge.2 = some edge.1 then insert edge.1 (insert edge.2 p.2) else p.2
    (if (p.1 edge.1).isSome then p.1 else Function.update p.1 edge.1 (some edge.2), contradicted))
    (fun _ => none, ∅)

/-- The stored pairs, less the classes they contradict; those classes are returned. -/
def load (edges : List (Nat × Nat)) : ClearPairLearner × List Nat :=
  let refused := (contradicted (sortedPairs edges)).2
  ((sortedPairs edges).foldl (fun l edge =>
    if edge.1 ∈ refused || edge.2 ∈ refused then l else l.pair edge.1 edge.2) l, refused.sort (· ≤ ·))

/-- The maps are mutually inverse, and no class is the raise of one pair and the clear of another. -/
structure Paired (l : ClearPairLearner) : Prop where
  inverse : ∀ a b, l.raise_to_clear a = some b ↔ l.clear_to_raise b = some a
  roles : ∀ a b c, l.raise_to_clear a = some b → l.raise_to_clear b = some c → a = b ∧ b = c

variable {l r : ClearPairLearner}

theorem known_role_none {c : Nat} (h : (l.known_role c).isSome = false) :
    l.raise_to_clear c = none ∧ l.clear_to_raise c = none := by
  unfold known_role at h
  cases hr : l.raise_to_clear c <;> cases hc : l.clear_to_raise c <;> simp_all

/-- A pair is registered of two classes that hold no role, or not at all. -/
theorem register_cases (l : ClearPairLearner) (a b : Nat) : l.register a b = l ∨
    (l.raise_to_clear a = none ∧ l.clear_to_raise a = none) ∧
    (l.raise_to_clear b = none ∧ l.clear_to_raise b = none) ∧
    l.register a b = { l.pair a b with dirty := l.dirty.insert (a, b) } := by
  unfold register
  split
  · exact .inl rfl
  · rename_i h
    rw [Bool.or_eq_true, not_or, Bool.not_eq_true, Bool.not_eq_true] at h
    exact .inr ⟨known_role_none h.1, known_role_none h.2, rfl⟩

/-- Alternation only moves its trackers, and registers what it trusts. -/
theorem observe_cases (l : ClearPairLearner) (device_id : Nat) (inst : String) (class_id : Nat) :
    ∃ state, l.observe device_id inst class_id = { l with state := state } ∨
      ∃ a b, l.observe device_id inst class_id = ({ l with state := state }).register a b := by
  unfold observe
  dsimp only
  cases l.state (device_id, inst) with
  | none => exact ⟨_, .inl rfl⟩
  | some alt =>
    dsimp only
    generalize (if alt.second = none && class_id ≠ alt.first then some class_id else alt.second) = second
    by_cases hlast : class_id = alt.last
    · exact ⟨l.state, .inl (if_pos hlast)⟩
    rw [if_neg hlast]
    by_cases hthird : (decide (class_id ≠ alt.first) && decide (some class_id ≠ second)) = true
    · exact ⟨_, .inl (if_pos hthird)⟩
    rw [if_neg hthird]
    cases second with
    | none => exact ⟨_, .inl rfl⟩
    | some second =>
      dsimp only
      generalize (if some class_id = some second then alt.cycles + 1 else alt.cycles) = cycles
      split
      · exact ⟨_, .inr ⟨_, _, rfl⟩⟩
      · exact ⟨_, .inl rfl⟩

/-- Everything that one learner has paired, another has. -/
structure Within (l r : ClearPairLearner) : Prop where
  raise_to_clear : ∀ a b, l.raise_to_clear a = some b → r.raise_to_clear a = some b
  clear_to_raise : ∀ a b, l.clear_to_raise b = some a → r.clear_to_raise b = some a

theorem Within.refl (l : ClearPairLearner) : l.Within l := ⟨fun _ _ => id, fun _ _ => id⟩

/-- A pair of the larger learner adds itself to the smaller, and nothing else. -/
theorem Within.pair (h : l.Within r) (hr : r.Paired) {a b : Nat} (hab : r.raise_to_clear a = some b) :
    (l.pair a b).Within r ∧
    (∀ x y, (l.pair a b).raise_to_clear x = some y ↔ l.raise_to_clear x = some y ∨ (x, y) = (a, b)) ∧
    ∀ x y, (l.pair a b).clear_to_raise y = some x ↔ l.clear_to_raise y = some x ∨ (x, y) = (a, b) := by
  have hba := (hr.inverse a b).mp hab
  have hraise : ∀ x y, (l.pair a b).raise_to_clear x = some y ↔
      l.raise_to_clear x = some y ∨ (x, y) = (a, b) := by
    intro x y
    by_cases hx : x = a
    · have := h.raise_to_clear a y
      simp only [ClearPairLearner.pair, hx, Function.update_self]
      grind
    · simp [ClearPairLearner.pair, hx]
  have hclear : ∀ x y, (l.pair a b).clear_to_raise y = some x ↔
      l.clear_to_raise y = some x ∨ (x, y) = (a, b) := by
    intro x y
    by_cases hy : y = b
    · have := h.clear_to_raise x b
      simp only [ClearPairLearner.pair, hy, Function.update_self]
      grind
    · simp [ClearPairLearner.pair, hy]
  refine ⟨⟨fun x y hxy => ?_, fun x y hxy => ?_⟩, hraise, hclear⟩
  · rcases (hraise x y).mp hxy with hold | hnew
    · exact h.raise_to_clear x y hold
    · obtain ⟨rfl, rfl⟩ := Prod.mk.inj hnew
      exact hab
  · rcases (hclear x y).mp hxy with hold | hnew
    · exact h.clear_to_raise x y hold
    · obtain ⟨rfl, rfl⟩ := Prod.mk.inj hnew
      exact hba

/-- The pairs of a list that a learner has all paired, added to a smaller one. -/
private theorem adopt (hr : r.Paired) (refused : Finset Nat) (edges : List (Nat × Nat))
    (he : ∀ e ∈ edges, r.raise_to_clear e.1 = some e.2) (l : ClearPairLearner) (hl : l.Within r) :
    let l' := edges.foldl (fun l edge =>
      if edge.1 ∈ refused || edge.2 ∈ refused then l else l.pair edge.1 edge.2) l
    let adopted := edges.filter fun edge => !(edge.1 ∈ refused || edge.2 ∈ refused)
    l'.Within r ∧ l'.dirty = l.dirty ∧
    (∀ x y, l'.raise_to_clear x = some y ↔ l.raise_to_clear x = some y ∨ (x, y) ∈ adopted) ∧
    ∀ x y, l'.clear_to_raise y = some x ↔ l.clear_to_raise y = some x ∨ (x, y) ∈ adopted := by
  induction edges generalizing l with
  | nil => exact ⟨hl, rfl, fun x y => by simp, fun x y => by simp⟩
  | cons edge edges ih =>
    have hrest : ∀ e ∈ edges, r.raise_to_clear e.1 = some e.2 := fun e h => he e (List.mem_cons_of_mem _ h)
    obtain ⟨a, b⟩ := edge
    cases hc : (decide (a ∈ refused) || decide (b ∈ refused)) with
    | true =>
      simp only [List.foldl_cons, List.filter_cons, hc]
      exact ih hrest l hl
    | false =>
      obtain ⟨h1, h2, h3⟩ := hl.pair hr (he (a, b) List.mem_cons_self)
      obtain ⟨i1, i2, i3, i4⟩ := ih hrest (l.pair a b) h1
      simp only [List.foldl_cons, List.filter_cons, hc]
      refine ⟨i1, i2, fun x y => (i3 x y).trans ?_, fun x y => (i4 x y).trans ?_⟩
      · rw [h2]
        simp [or_assoc]
      · rw [h3]
        simp [or_assoc]

theorem mem_sortedPairs {e : Nat × Nat} {edges : List (Nat × Nat)} : e ∈ sortedPairs edges ↔ e ∈ edges :=
  (List.mergeSort_perm edges _).mem_iff

/-- Rows that are paired already, each once, contradict nothing. -/
theorem contradicted_nodup (hr : r.Paired) {edges : List (Nat × Nat)} (hnd : edges.Nodup)
    (he : ∀ e ∈ edges, r.raise_to_clear e.1 = some e.2) : (contradicted edges).2 = ∅ := by
  have hloop : ∀ (todo done : List (Nat × Nat)) (p : (Nat → Option Nat) × Finset Nat),
      (done ++ todo).Nodup → (∀ e ∈ done ++ todo, r.raise_to_clear e.1 = some e.2) →
      (∀ a b, p.1 a = some b → (a, b) ∈ done) → p.2 = ∅ →
      (todo.foldl (fun p edge =>
        let contradicted := if p.1 edge.2 = some edge.1 then insert edge.1 (insert edge.2 p.2) else p.2
        (if (p.1 edge.1).isSome then p.1 else Function.update p.1 edge.1 (some edge.2), contradicted))
        p).2 = ∅ := by
    intro todo
    induction todo with
    | nil => exact fun _ _ _ _ _ hp => hp
    | cons edge todo ih =>
      intro done p hnd he hfirst hp
      obtain ⟨a, b⟩ := edge
      have hnot : p.1 b ≠ some a := by
        intro hba
        have hmem := hfirst b a hba
        -- a row and its inverse are one row, of a class paired with itself
        have hb := he (b, a) (List.mem_append_left _ hmem)
        have ha := he (a, b) (List.mem_append_right _ List.mem_cons_self)
        obtain ⟨rfl, -⟩ := hr.roles b a b hb ha
        exact List.disjoint_of_nodup_append hnd hmem List.mem_cons_self
      simp only [List.foldl_cons, if_neg hnot]
      refine ih (done ++ [(a, b)]) _ (by simpa using hnd) (by simpa using he) (fun x y hxy => ?_) hp
      dsimp only at hxy
      split at hxy
      · exact List.mem_append_left _ (hfirst x y hxy)
      · by_cases hx : x = a
        · rw [hx, Function.update_self] at hxy
          rw [hx, Option.some.inj hxy]
          simp
        · rw [Function.update_of_ne hx] at hxy
          exact List.mem_append_left _ (hfirst x y hxy)
  exact hloop edges [] (fun _ => none, ∅) hnd he (by simp) rfl

/-- What is within a paired learner, with maps that mirror one another, is paired. -/
theorem Within.paired (h : l.Within r) (hr : r.Paired)
    (hi : ∀ a b, l.raise_to_clear a = some b ↔ l.clear_to_raise b = some a) : l.Paired :=
  ⟨hi, fun a b c hab hbc => hr.roles a b c (h.raise_to_clear a b hab) (h.raise_to_clear b c hbc)⟩

/-- What a registration leaves: a paired learner that has all the pairs it had. -/
theorem register_paired (h : l.Paired) (a b : Nat) : (l.register a b).Paired ∧ l.Within (l.register a b) ∧
    ∀ p ∈ (l.register a b).dirty, p ∈ l.dirty ∨ (l.register a b).raise_to_clear p.1 = some p.2 := by
  rcases register_cases l a b with he | ⟨⟨har, hac⟩, ⟨hbr, hbc⟩, he⟩
  · rw [he]
    exact ⟨h, .refl l, fun p => .inl⟩
  · have hfree : ∀ x y, l.raise_to_clear x = some y → x ≠ a ∧ x ≠ b ∧ y ≠ a ∧ y ≠ b := by
      intro x y hxy
      have := (h.inverse x y).mp hxy
      grind
    have hraise : ∀ x y, (l.register a b).raise_to_clear x = some y ↔
        l.raise_to_clear x = some y ∨ x = a ∧ y = b := by
      intro x y
      rw [he]
      by_cases hx : x = a
      · subst hx
        simp [pair, har, eq_comm]
      · simp [pair, hx]
    have hclear : ∀ x y, (l.register a b).clear_to_raise y = some x ↔
        l.clear_to_raise y = some x ∨ x = a ∧ y = b := by
      intro x y
      rw [he]
      by_cases hy : y = b
      · subst hy
        simp [pair, hbc, eq_comm]
      · simp [pair, hy]
    refine ⟨⟨fun x y => ?_, fun x y z hxy hyz => ?_⟩, ⟨fun x y hxy => ?_, fun x y hxy => ?_⟩, fun p hp => ?_⟩
    · rw [hraise, hclear, h.inverse]
    · rw [hraise] at hxy hyz
      have hroles := h.roles x y z
      have := hfree x y
      have := hfree y z
      grind
    · exact (hraise x y).mpr (.inl hxy)
    · exact (hclear x y).mpr (.inl hxy)
    · rw [he] at hp
      refine (List.mem_insert_iff.mp hp).symm.imp id fun hpab => ?_
      rw [hraise, hpab]
      exact .inr ⟨rfl, rfl⟩

/-- A load of rows that another learner has all paired, into one that is within it. -/
theorem load_paired (hl : l.Paired) (hr : r.Paired) (hlr : l.Within r) {edges : List (Nat × Nat)}
    (he : ∀ e ∈ edges, r.raise_to_clear e.1 = some e.2) :
    (l.load edges).1.Paired ∧ l.Within (l.load edges).1 ∧ (l.load edges).1.dirty = l.dirty ∧
      (edges.Nodup → ∀ e ∈ edges, (l.load edges).1.raise_to_clear e.1 = some e.2) := by
  have hsorted : ∀ e ∈ sortedPairs edges, r.raise_to_clear e.1 = some e.2 := fun e h =>
    he e (mem_sortedPairs.mp h)
  obtain ⟨h1, h2, h3, h4⟩ := adopt hr (contradicted (sortedPairs edges)).2 (sortedPairs edges) hsorted l hlr
  refine ⟨h1.paired hr fun a b => ?_, ⟨fun a b hab => ?_, fun a b hab => ?_⟩, h2, fun hnd e hmem => ?_⟩
  · exact (h3 a b).trans (((hl.inverse a b).or Iff.rfl).trans (h4 a b).symm)
  · exact (h3 a b).mpr (.inl hab)
  · exact (h4 a b).mpr (.inl hab)
  · have hempty : (contradicted (sortedPairs edges)).2 = ∅ :=
      contradicted_nodup hr ((List.mergeSort_perm edges _).nodup_iff.mpr hnd) hsorted
    refine (h3 e.1 e.2).mpr (.inr (List.mem_filter.mpr ⟨mem_sortedPairs.mpr hmem, ?_⟩))
    rw [hempty]
    simp

end ClearPairLearner

/-- A learner, and the rows of `clear_pair` that flushes have written. -/
structure Pairing where
  learner : ClearPairLearner := {}
  stored : List (Nat × Nat) := []

inductive PairOp where
  | register (raise_class clear_class : Nat)
  | observe (device_id : Nat) (inst : String) (class_id : Nat)
  /-- a flush, whose rows are written or lost with their transaction -/
  | flush (committed : Bool)
  | load (edges : List (Nat × Nat))
  /-- a new process, that loads as it starts -/
  | restart (edges : List (Nat × Nat))

namespace Pairing

def step (p : Pairing) : PairOp → Pairing
  | .register a b => { p with learner := p.learner.register a b }
  | .observe device_id inst class_id => { p with learner := p.learner.observe device_id inst class_id }
  | .flush committed =>
    let (rows, learner) := p.learner.flush
    ⟨learner, if committed then rows.union p.stored else p.stored⟩
  | .load edges => { p with learner := (p.learner.load edges).1 }
  | .restart edges => { p with learner := (ClearPairLearner.load {} edges).1 }

/-- A load is given rows that a flush wrote. -/
def Written (p : Pairing) : PairOp → Prop
  | .load edges | .restart edges => ∀ e ∈ edges, e ∈ p.stored
  | _ => True

/-- A load is given rows that a flush wrote; a process that starts is given them all, in any order. -/
def Started (p : Pairing) : PairOp → Prop
  | .load edges => ∀ e ∈ edges, e ∈ p.stored
  | .restart edges => edges.Perm p.stored
  | _ => True

/-- The learner is paired, and has paired whatever it or a flush was given. -/
structure Kept (p : Pairing) : Prop where
  paired : p.learner.Paired
  dirty : ∀ e ∈ p.learner.dirty, p.learner.raise_to_clear e.1 = some e.2
  stored : ∀ e ∈ p.stored, p.learner.raise_to_clear e.1 = some e.2
  nodup : p.stored.Nodup

instance (p : Pairing) (op : PairOp) : Decidable (p.Written op) := by
  cases op <;> unfold Written <;> infer_instance

instance (p : Pairing) (op : PairOp) : Decidable (p.Started op) := by
  cases op <;> unfold Started <;> infer_instance

variable {p : Pairing}

/-- A learner that keeps its pairs, and whose new rows are paired, keeps what was stored. -/
private theorem Kept.grow (h : p.Kept) {l : ClearPairLearner} (hl : l.Paired) (hw : p.learner.Within l)
    (hd : ∀ e ∈ l.dirty, e ∈ p.learner.dirty ∨ l.raise_to_clear e.1 = some e.2) :
    ({ p with learner := l } : Pairing).Kept :=
  ⟨hl, fun e he => (hd e he).elim (fun hold => hw.raise_to_clear _ _ (h.dirty e hold)) id,
    fun e he => hw.raise_to_clear _ _ (h.stored e he), h.nodup⟩

theorem kept_step (h : p.Kept) (op : PairOp) (hop : p.Started op) : (p.step op).Kept := by
  cases op with
  | register a b =>
    obtain ⟨h1, h2, h3⟩ := ClearPairLearner.register_paired h.paired a b
    exact h.grow h1 h2 h3
  | observe device_id inst class_id =>
    obtain ⟨state, he | ⟨a, b, he⟩⟩ := p.learner.observe_cases device_id inst class_id
    · simp only [step, he]
      exact h.grow ⟨h.paired.inverse, h.paired.roles⟩ ⟨fun _ _ => id, fun _ _ => id⟩ fun e => .inl
    · have htracked : ({ p.learner with state := state } : ClearPairLearner).Paired :=
        ⟨h.paired.inverse, h.paired.roles⟩
      obtain ⟨h1, h2, h3⟩ := ClearPairLearner.register_paired htracked a b
      simp only [step, he]
      exact h.grow h1 ⟨h2.raise_to_clear, h2.clear_to_raise⟩ h3
  | flush committed =>
    refine ⟨⟨h.paired.inverse, h.paired.roles⟩, fun e he => absurd he List.not_mem_nil, fun e he => ?_, ?_⟩
    · cases committed with
      | false => exact h.stored e he
      | true =>
        rcases List.mem_union_iff.mp he with hrow | hold
        · exact h.dirty e (ClearPairLearner.mem_sortedPairs.mp hrow)
        · exact h.stored e hold
    · cases committed with
      | false => exact h.nodup
      | true => exact List.Nodup.union _ h.nodup
  | load edges =>
    obtain ⟨h1, h2, h3, -⟩ := ClearPairLearner.load_paired h.paired h.paired (.refl _)
      fun e he => h.stored e (hop e he)
    exact h.grow h1 h2 fun e he => .inl (h3 ▸ he)
  | restart edges =>
    have hfresh : ClearPairLearner.Paired {} := ⟨fun _ _ => by simp, fun _ _ _ hab => by simp at hab⟩
    obtain ⟨h1, -, h3, h4⟩ := ClearPairLearner.load_paired hfresh h.paired
      ⟨fun _ _ hab => by simp at hab, fun _ _ hab => by simp at hab⟩
      fun e he => h.stored e (hop.mem_iff.mp he)
    refine ⟨h1, fun e he => ?_, fun e he => ?_, h.nodup⟩
    · exact absurd (h3 ▸ he) List.not_mem_nil
    · exact h4 (hop.nodup_iff.mpr h.nodup) e (hop.mem_iff.mpr he)

/-- In every run of a learner and its successors, each of which starts from the rows that flushes
wrote, the pairs stay one to one. -/
theorem run_paired (ops : List PairOp) (hops : Runs.Meets step Started {} ops) :
    (Runs.run step {} ops).learner.Paired := by
  have hstart : Kept {} := by
    refine ⟨⟨fun _ _ => by simp, fun _ _ _ hab => by simp at hab⟩, ?_, ?_, List.nodup_nil⟩ <;>
      exact fun e he => absurd he List.not_mem_nil
  have hstep (p : Pairing) (op : PairOp) (h : p.Kept) (hop : p.Started op) := kept_step h op hop
  exact (Runs.run_invariant hstep {} ops hstart hops).paired

/-- A pair is learned and written, and a new process loads it. -/
theorem run_paired_restart : (Runs.run step {} [.observe 1 "eth0" 1, .observe 1 "eth0" 2,
    .observe 1 "eth0" 1, .observe 1 "eth0" 2, .flush true, .restart [(1, 2)]]).learner.Paired :=
  run_paired _ (by decide +kernel)

/-- A new process pairs two classes before it loads. -/
def late : List PairOp := [.register 1 2, .flush true, .restart [], .register 2 3, .load [(1, 2)]]

theorem late_unpaired :
    ¬ ∀ ops, Runs.Meets step Written {} ops → (Runs.run step {} ops).learner.Paired := by
  intro h
  have hmeets : Runs.Meets step Written {} late := by decide +kernel
  have h12 : (Runs.run step {} late).learner.raise_to_clear 1 = some 2 := by decide +kernel
  have h23 : (Runs.run step {} late).learner.raise_to_clear 2 = some 3 := by decide +kernel
  exact absurd ((h late hmeets).roles 1 2 3 h12 h23).1 (by decide)

end Pairing
end NetCoreNoc.Correlate
