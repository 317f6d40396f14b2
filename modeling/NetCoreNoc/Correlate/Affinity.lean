import Mathlib
import NetCoreNoc.Decay
import NetCoreNoc.Runs
import NetCoreNoc.Correlate.Learned

/-! What a learning matrix reports: masses that were stored in any epoch, and the affinity that is computed from
them (`Matrix` in `engine/correlate/learn.py`), against a reference that decays every mass in every epoch. -/
namespace NetCoreNoc.Correlate
open Writeback Decay

/-- `npmi`, of the masses that it reads and the logarithm. -/
def npmi {K : Type*} [Field K] [LinearOrder K] (log : K → K) (m_ab total m_a m_b : K) : K :=
  if m_ab ≤ 0 ∨ total ≤ 0 then 0
  else if m_a ≤ 0 ∨ m_b ≤ 0 then 0
  else
    let discount := m_ab / (m_ab + 1)
    let p_ab := min (m_ab / total) 1
    if 1 - 1 / 10 ^ 9 ≤ p_ab then discount
    else
      let p_a := min (m_a / total) 1
      let p_b := min (m_b / total) 1
      let pmi := log (p_ab / (p_a * p_b))
      max 0 (min 1 (pmi / -log p_ab)) * discount

namespace Matrix
variable (m : Matrix)

/-- The decayed mass of a pair. -/
def mass (key : Sides) : ℚ := m.decayed ((m.pairs.held.get key).getD (0, m.epoch))

/-- The decayed mass of one class or element. -/
def activation (item : Nat) : ℚ := m.decayed ((m.marginals.get item).getD (0, m.epoch))

/-- The decayed total. -/
def activations : ℚ := m.decayed m.total

/-- The affinity of two classes or elements. -/
def affinity {K : Type*} [Field K] [LinearOrder K] (log : K → K) (a b : Nat) : K :=
  npmi log (m.pair_mass a b : K) (m.activations : K) (m.activation a : K) (m.activation b : K)

end Matrix

/-- The same quantities, each decayed in every epoch. -/
structure Reference where
  epoch : ℤ := 0
  total : ℚ := 0
  pairs : Sides → ℚ := fun _ => 0
  marginals : Nat → ℚ := fun _ => 0

namespace Reference
variable (r : Reference)

def tick : Reference where
  epoch := r.epoch + 1
  total := r.total * (1 - LAMBDA)
  pairs key := r.pairs key * (1 - LAMBDA)
  marginals item := r.marginals item * (1 - LAMBDA)

def advance_to (epoch : ℤ) : Reference := tick^[(epoch - r.epoch).toNat] r

def observe_occurrence (item : Nat) : Reference :=
  { r with total := r.total + 1, marginals := Function.update r.marginals item (r.marginals item + 1) }

def observe_pair (weight : ℚ) (key : Sides) : Reference :=
  { r with pairs := Function.update r.pairs key (r.pairs key + weight) }

def scale_pair (factor : ℚ) (key : Sides) : Reference :=
  { r with pairs := Function.update r.pairs key (r.pairs key * factor) }

def affinity {K : Type*} [Field K] [LinearOrder K] (log : K → K) (a b : Nat) : K :=
  npmi log (r.pairs (sides a b) : K) (r.total : K) (r.marginals a : K) (r.marginals b : K)

end Reference

inductive MatrixOp where
  | advance_to (epoch : ℤ)
  | tick
  | observe_occurrence (item : Nat)
  | observe_pair (weight : ℚ) (key : Sides)
  | scale_pair (factor : ℚ) (key : Sides)
  | rebase (epoch : ℤ)
  /-- a flush, with the state -/
  | save
  /-- a new process loads what was saved -/
  | load

/-- A matrix in memory, and its rows and its state in the database. -/
structure MatrixStore where
  matrix : Matrix := {}
  edges : Entries Sides Mass := .empty
  state : Option MatrixState := none

namespace MatrixStore

def loaded (s : MatrixStore) : Matrix := (s.state.map (Matrix.load_state · s.edges)).getD {}

def step : MatrixStore → MatrixOp → MatrixStore
  | s, .advance_to epoch => { s with matrix := s.matrix.advance_to epoch }
  | s, .tick => { s with matrix := s.matrix.tick }
  | s, .observe_occurrence item => { s with matrix := s.matrix.observe_occurrence item }
  | s, .observe_pair weight key => { s with matrix := s.matrix.observe_pair weight key }
  | s, .scale_pair factor key => { s with matrix := s.matrix.scale_pair factor key }
  | s, .rebase epoch => { s with matrix := s.matrix.rebase epoch }
  | s, .save => { matrix := s.matrix.flushed, edges := s.edges.upsert s.matrix.rows, state := some s.matrix.state }
  | s, .load => { s with matrix := s.loaded }

end MatrixStore

/-- The reference, and what was saved of it. -/
structure ReferenceStore where
  current : Reference := {}
  saved : Reference := {}

namespace ReferenceStore

def step : ReferenceStore → MatrixOp → ReferenceStore
  | r, .advance_to epoch => { r with current := r.current.advance_to epoch }
  | r, .tick => { r with current := r.current.tick }
  | r, .observe_occurrence item => { r with current := r.current.observe_occurrence item }
  | r, .observe_pair weight key => { r with current := r.current.observe_pair weight key }
  | r, .scale_pair factor key => { r with current := r.current.scale_pair factor key }
  | r, .rebase epoch => { r with current := { r.current with epoch := epoch } }
  | r, .save => { r with saved := r.current }
  | r, .load => { r with current := r.saved }

end ReferenceStore

namespace Matrix
variable (m : Matrix)

private theorem base_ne : (1 - LAMBDA : ℚ) ≠ 0 := by norm_num [LAMBDA]

@[simp] theorem decayed_fresh (x : ℚ) : m.decayed (x, m.epoch) = x := worth_fresh _ _ x

/-- A mass that is absent reads as zero, as of any epoch. -/
theorem decayed_absent (now epoch : ℤ) (o : Option Mass) :
    worth (1 - LAMBDA) now (o.getD (0, epoch)) = (o.map (worth (1 - LAMBDA) now)).getD 0 := by
  cases o with
  | none => exact worth_zero _ now epoch
  | some mass => rfl

theorem mass_eq (key : Sides) :
    m.mass key = ((m.pairs.held.get key).map (worth (1 - LAMBDA) m.epoch)).getD 0 := decayed_absent ..

theorem activation_eq (item : Nat) :
    m.activation item = ((m.marginals.get item).map (worth (1 - LAMBDA) m.epoch)).getD 0 := decayed_absent ..

/-- The same stored masses, read epochs later. -/
theorem decayed_later (now later : ℤ) (o : Option Mass) :
    (o.map (worth (1 - LAMBDA) later)).getD 0 = (o.map (worth (1 - LAMBDA) now)).getD 0 * (1 - LAMBDA) ^ (later - now) := by
  cases o with
  | none => exact (zero_mul _).symm
  | some mass => exact worth_later base_ne now later mass

variable {m} {key key' : Sides} {item item' : Nat} {weight factor : ℚ}

theorem mass_observe_pair : (m.observe_pair weight key).mass key' =
    if key' = key then m.mass key + weight else m.mass key' := by
  rcases eq_or_ne key' key with rfl | hne
  · rw [if_pos rfl, mass_eq]
    show ((Entries.get (Entries.set _ _ _) _).map _).getD 0 = _
    rw [Entries.get_set]
    exact decayed_fresh m _
  · rw [if_neg hne, mass_eq, mass_eq]
    show ((Entries.get (Entries.set _ _ _) _).map _).getD 0 = _
    rw [Entries.get_set_ne hne]
    rfl

theorem mass_scale_pair : (m.scale_pair factor key).mass key' =
    if key' = key then m.mass key * factor else m.mass key' := by
  unfold scale_pair
  cases hget : m.pairs.held.get key with
  | none =>
    have hzero : m.mass key = 0 := by rw [mass_eq, hget]; rfl
    dsimp only
    split
    · rename_i heq
      rw [heq, hzero, zero_mul]
    · rfl
  | some mass =>
    rcases eq_or_ne key' key with rfl | hne
    · rw [if_pos rfl, mass_eq, mass_eq, hget]
      show ((Entries.get (Entries.set _ _ _) _).map _).getD 0 = _
      rw [Entries.get_set]
      exact worth_scale ..
    · rw [if_neg hne, mass_eq, mass_eq]
      show ((Entries.get (Entries.set _ _ _) _).map _).getD 0 = _
      rw [Entries.get_set_ne hne]

theorem activation_observe : (m.observe_occurrence item).activation item' =
    if item' = item then m.activation item + 1 else m.activation item' := by
  rcases eq_or_ne item' item with rfl | hne
  · rw [if_pos rfl, activation_eq]
    show ((Entries.get (Entries.set _ _ _) _).map _).getD 0 = _
    rw [Entries.get_set]
    exact decayed_fresh m _
  · rw [if_neg hne, activation_eq, activation_eq]
    show ((Entries.get (Entries.set _ _ _) _).map _).getD 0 = _
    rw [Entries.get_set_ne hne]
    rfl

theorem activations_observe : (m.observe_occurrence item).activations = m.activations + 1 := decayed_fresh m _

/-- Every mass of a matrix that is read epochs later. -/
theorem mass_later {later : Matrix} (hpairs : later.pairs = m.pairs) :
    later.mass key = m.mass key * (1 - LAMBDA) ^ (later.epoch - m.epoch) := by
  rw [mass_eq, mass_eq, hpairs]
  exact decayed_later ..

theorem activation_later {later : Matrix} (hmarginals : later.marginals = m.marginals) :
    later.activation item = m.activation item * (1 - LAMBDA) ^ (later.epoch - m.epoch) := by
  rw [activation_eq, activation_eq, hmarginals]
  exact decayed_later ..

theorem activations_later {later : Matrix} (htotal : later.total = m.total) :
    later.activations = m.activations * (1 - LAMBDA) ^ (later.epoch - m.epoch) := by
  unfold activations
  rw [htotal]
  exact worth_later base_ne ..

end Matrix

/-- A matrix reports what the reference holds. -/
structure Reads (m : Matrix) (r : Reference) : Prop where
  epoch : m.epoch = r.epoch
  total : m.activations = r.total
  pairs : ∀ key, m.mass key = r.pairs key
  marginals : ∀ item, m.activation item = r.marginals item

namespace Reference
variable (r : Reference) (n : Nat)

private theorem iterate_epoch : (tick^[n] r).epoch = r.epoch + n := by
  induction n with
  | zero => exact (add_zero _).symm
  | succ n ih =>
    rw [Function.iterate_succ_apply']
    show (tick^[n] r).epoch + 1 = _
    rw [ih]
    push_cast
    ring

private theorem iterate_total : (tick^[n] r).total = r.total * (1 - LAMBDA) ^ n := by
  have hsemi : Function.Semiconj Reference.total tick (· * (1 - LAMBDA)) := fun _ => rfl
  exact (hsemi.iterate_right n r).trans (iterate_decay ..)

private theorem iterate_pairs (key : Sides) : (tick^[n] r).pairs key = r.pairs key * (1 - LAMBDA) ^ n := by
  have hsemi : Function.Semiconj (fun r : Reference => r.pairs key) tick (· * (1 - LAMBDA)) := fun _ => rfl
  exact (hsemi.iterate_right n r).trans (iterate_decay ..)

private theorem iterate_marginals (item : Nat) : (tick^[n] r).marginals item = r.marginals item * (1 - LAMBDA) ^ n := by
  have hsemi : Function.Semiconj (fun r : Reference => r.marginals item) tick (· * (1 - LAMBDA)) := fun _ => rfl
  exact (hsemi.iterate_right n r).trans (iterate_decay ..)

end Reference

namespace Reads
variable {m : Matrix} {r : Reference} (h : Reads m r)
include h

/-- A matrix that only moved its clock reads as the reference that decayed once for each epoch. -/
theorem aged {later : Matrix} {n : Nat} (hepoch : later.epoch = m.epoch + n) (hpairs : later.pairs = m.pairs)
    (hmarginals : later.marginals = m.marginals) (htotal : later.total = m.total) :
    Reads later (Reference.tick^[n] r) := by
  have hpow : (1 - LAMBDA) ^ (later.epoch - m.epoch) = (1 - LAMBDA) ^ n := by
    rw [hepoch, add_sub_cancel_left, zpow_natCast]
  refine ⟨?epoch, ?total, fun key => ?pairs, fun item => ?marginals⟩
  case epoch => rw [Reference.iterate_epoch, hepoch, h.epoch]
  case total => rw [Reference.iterate_total, Matrix.activations_later htotal, hpow, h.total]
  case pairs => rw [Reference.iterate_pairs, Matrix.mass_later hpairs, hpow, h.pairs]
  case marginals => rw [Reference.iterate_marginals, Matrix.activation_later hmarginals, hpow, h.marginals]

theorem tick : Reads m.tick r.tick := h.aged (n := 1) rfl rfl rfl rfl

theorem advance_to (epoch : ℤ) : Reads (m.advance_to epoch) (r.advance_to epoch) := by
  refine h.aged ?_ rfl rfl rfl
  show max m.epoch epoch = m.epoch + ((epoch - r.epoch).toNat : ℤ)
  rw [← h.epoch]
  omega

theorem observe_occurrence (item : Nat) : Reads (m.observe_occurrence item) (r.observe_occurrence item) := by
  refine ⟨h.epoch, ?total, h.pairs, fun item' => ?marginals⟩
  case total => rw [Matrix.activations_observe, h.total]; rfl
  case marginals =>
    rw [Matrix.activation_observe, h.marginals, h.marginals]
    exact (Function.update_apply ..).symm

theorem observe_pair (weight : ℚ) (key : Sides) : Reads (m.observe_pair weight key) (r.observe_pair weight key) := by
  refine ⟨h.epoch, h.total, fun key' => ?_, h.marginals⟩
  rw [Matrix.mass_observe_pair, h.pairs, h.pairs]
  exact (Function.update_apply ..).symm

theorem scale_pair (factor : ℚ) (key : Sides) : Reads (m.scale_pair factor key) (r.scale_pair factor key) := by
  have hsame : (m.scale_pair factor key).epoch = m.epoch ∧ (m.scale_pair factor key).total = m.total ∧
      (m.scale_pair factor key).marginals = m.marginals := by
    unfold Matrix.scale_pair
    split <;> exact ⟨rfl, rfl, rfl⟩
  obtain ⟨hepoch, htotal, hmarginals⟩ := hsame
  refine ⟨hepoch.trans h.epoch, ?total, fun key' => ?pairs, fun item => ?marginals⟩
  case total =>
    rw [Matrix.activations_later htotal, hepoch, sub_self, zpow_zero, mul_one]
    exact h.total
  case pairs =>
    rw [Matrix.mass_scale_pair, h.pairs, h.pairs]
    exact (Function.update_apply ..).symm
  case marginals =>
    rw [Matrix.activation_later hmarginals, hepoch, sub_self, zpow_zero, mul_one]
    exact h.marginals item

/-- A shift of all epochs keeps what is reported. -/
theorem rebase (epoch : ℤ) : Reads (m.rebase epoch) { r with epoch := epoch } := by
  have hshift (o : Option Mass) (shift : ℤ) :
      ((o.map fun mass => (mass.1, mass.2 + shift)).map (worth (1 - LAMBDA) (m.epoch + shift))).getD 0 =
        (o.map (worth (1 - LAMBDA) m.epoch)).getD 0 := by
    cases o with
    | none => rfl
    | some mass => exact worth_shift ..
  unfold Matrix.rebase
  dsimp only
  split
  · rename_i hzero
    exact ⟨sub_eq_zero.mp hzero |>.symm, h.total, h.pairs, h.marginals⟩
  · refine ⟨add_sub_cancel _ _, ?total, fun key => ?pairs, fun item => ?marginals⟩
    case total => exact (worth_shift ..).trans h.total
    case pairs =>
      rw [Matrix.mass_eq]
      exact (hshift _ _).trans ((Matrix.mass_eq m key).symm.trans (h.pairs key))
    case marginals =>
      rw [Matrix.activation_eq]
      exact (hshift _ _).trans ((Matrix.activation_eq m item).symm.trans (h.marginals item))

/-- What is saved reads as what was in memory. -/
theorem saved {edges : Entries Sides Mass} (hb : m.Backed edges) :
    Reads (.load_state m.state (edges.upsert m.rows)) r := by
  refine ⟨h.epoch, h.total, fun key => ?_, h.marginals⟩
  have hsettled := Table.Synced.flush hb (Matrix.settled_decayed m) key
  have hworth (o : Option Mass) : (o.map (worth (1 - LAMBDA) m.epoch)).getD 0 =
      (o.map Mass.settled).getD 0 * (1 - LAMBDA) ^ m.epoch := by
    cases o with
    | none => exact (zero_mul _).symm
    | some mass =>
      have := worth_later (Matrix.base_ne) 0 m.epoch mass
      simpa [worth, Mass.settled] using this
  rw [← h.pairs, Matrix.mass_eq, Matrix.mass_eq, hworth]
  refine (hworth _).trans ?_
  exact congrArg (fun o : Option ℚ => o.getD 0 * (1 - LAMBDA) ^ m.epoch) hsettled.symm

end Reads

/-- The matrix reads as the reference, what was saved as the saved reference, and the rows lack at most what changed. -/
structure Refines (s : MatrixStore) (r : ReferenceStore) : Prop where
  current : Reads s.matrix r.current
  saved : Reads s.loaded r.saved
  backed : s.matrix.Backed s.edges
  fresh : s.state = none → ∀ key, s.edges.get key = none

namespace Refines
variable {s : MatrixStore} {r : ReferenceStore}

/-- What was loaded has all its pairs in the store. -/
private theorem loaded_backed (h : Refines s r) : s.loaded.Backed s.edges := by
  unfold MatrixStore.loaded
  cases hstate : s.state with
  | none =>
    refine Table.synced_of_agrees rfl fun key => ?_
    rw [h.fresh hstate key]
    rfl
  | some st => exact Table.synced_of_agrees rfl fun _ => rfl

theorem step (h : Refines s r) (op : MatrixOp) : Refines (s.step op) (r.step op) := by
  cases op with
  | advance_to epoch => exact ⟨h.current.advance_to epoch, h.saved, h.backed, h.fresh⟩
  | tick => exact ⟨h.current.tick, h.saved, h.backed, h.fresh⟩
  | observe_occurrence item => exact ⟨h.current.observe_occurrence item, h.saved, h.backed, h.fresh⟩
  | observe_pair weight key =>
    exact ⟨h.current.observe_pair weight key, h.saved, h.backed.observe_pairs weight [key], h.fresh⟩
  | scale_pair factor key =>
    exact ⟨h.current.scale_pair factor key, h.saved, h.backed.scale_pair factor key, h.fresh⟩
  | rebase epoch => exact ⟨h.current.rebase epoch, h.saved, h.backed.rebase epoch, h.fresh⟩
  | save =>
    have hsynced := Table.Synced.flush h.backed (Matrix.settled_decayed s.matrix)
    exact ⟨⟨h.current.epoch, h.current.total, h.current.pairs, h.current.marginals⟩, h.current.saved h.backed,
      Table.synced_of_agrees rfl hsynced, nofun⟩
  | load => exact ⟨h.saved, h.saved, h.loaded_backed, h.fresh⟩

theorem run (ops : List MatrixOp) : Refines (Runs.run MatrixStore.step {} ops) (Runs.run ReferenceStore.step {} ops) := by
  have hempty : Reads {} {} :=
    ⟨rfl, worth_zero .., fun key => (Matrix.mass_eq _ key).trans rfl, fun item => (Matrix.activation_eq _ item).trans rfl⟩
  induction ops using List.reverseRecOn with
  | nil => exact ⟨hempty, hempty, Table.synced_of_agrees rfl fun _ => rfl, fun _ _ => rfl⟩
  | append_singleton ops op ih =>
    rw [Runs.run_append, Runs.run_append]
    exact ih.step op

end Refines

/-- All that a matrix reports is what the reference computes. -/
structure Reports {K : Type*} [Field K] [LinearOrder K] (log : K → K) (m : Matrix) (r : Reference) : Prop where
  pair_mass : ∀ a b, m.pair_mass a b = r.pairs (sides a b)
  activation : ∀ item, m.activation item = r.marginals item
  activations : m.activations = r.total
  affinity : ∀ a b, m.affinity log a b = r.affinity log a b

theorem Reads.reports {K : Type*} [Field K] [LinearOrder K] (log : K → K) {m : Matrix} {r : Reference}
    (h : Reads m r) : Reports log m r := by
  refine ⟨fun a b => h.pairs (sides a b), h.marginals, h.total, fun a b => ?_⟩
  have hpair : m.pair_mass a b = r.pairs (sides a b) := h.pairs (sides a b)
  unfold Matrix.affinity Reference.affinity
  rw [hpair, h.total, h.marginals, h.marginals]

/-- After any operations a matrix reports what a reference that decays every mass in every epoch does, also when it is
rebased then, or saved and loaded. -/
theorem run_exact {K : Type*} [Field K] [LinearOrder K] (log : K → K) (ops : List MatrixOp) :
    let s := Runs.run MatrixStore.step {} ops
    let r := (Runs.run ReferenceStore.step {} ops).current
    Reports log s.matrix r ∧ (∀ epoch, Reports log (s.step (.rebase epoch)).matrix r) ∧
      Reports log ((s.step .save).step .load).matrix r := by
  have h := Refines.run ops
  refine ⟨h.current.reports log, fun epoch => ?rebased, ?reloaded⟩
  case rebased =>
    obtain ⟨hmass, hactivation, htotal, haffinity⟩ := (h.step (.rebase epoch)).current.reports log
    exact ⟨hmass, hactivation, htotal, haffinity⟩
  case reloaded => exact ((h.step .save).step .load).current.reports log

end NetCoreNoc.Correlate
