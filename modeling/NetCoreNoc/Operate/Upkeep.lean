import Mathlib
import NetCoreNoc.Earliest
import NetCoreNoc.Operate.Engine
import NetCoreNoc.Runs

/-! The root's sample of each situation (`engine/operate/upkeep.py`), over the lists of members as the engine edits
them in place (`engine.py`, `membership.py`, `window_sweep.py`). -/
namespace NetCoreNoc.Operate
open Situations

def ROOT_SAMPLE : ℕ := 25

/-- A `Member` in memory: which one it is, and what it says. -/
structure Held where
  ref : ℕ
  member : Member
  deriving DecidableEq

def first_seen (m : Held) : ℚ := m.member.ts

/-- `_Sample`. The last field is what it was last taken of, which no code reads. -/
structure Sample where
  members : ℕ
  seen : ℕ
  last : Option ℕ
  earliest : List Held
  taken : List Held

/-- The lists by their identity, and which one each situation has. -/
structure Roster where
  lists : ℕ → List Held := fun _ => []
  members : Sid → Option ℕ := fun _ => none
  samples : Sid → Option Sample := fun _ => none
  /-- identities that no list and no member has yet -/
  fresh : ℕ := 0

/-- What edits the lists, and what reads them. -/
inductive MemberOp where
  /-- `members[sid] = []` -/
  | opened (sid : Sid)
  /-- a new `Member` at the end of a list: an activation, or an alarm that a window's ledger surfaced -/
  | appended (sid : Sid) (member : Member)
  | moved (alarm_id : Aid) (source target : Sid)
  /-- `merged`, and the same loop of `_assign_situation` -/
  | merged (dst src : Sid)
  | split (sid new : Sid) (departing : List Aid)
  | closed (sid : Sid)
  | reloaded (rows : List (Sid × Member))
  /-- the maintenance sweep forgets the samples of what is no longer open -/
  | swept
  | earliest (sid : Sid)

namespace Roster
variable (s : Roster)

def list (sid : Sid) : List Held := ((s.members sid).map s.lists).getD []

/-- A new list. -/
def place (sid : Sid) (l : List Held) : Roster :=
  { s with
    lists := Function.update s.lists s.fresh l
    members := Function.update s.members sid (some s.fresh)
    fresh := s.fresh + 1 }

/-- `members.setdefault(sid, []).append(member)` for each member -/
def extend (sid : Sid) (l : List Held) : Roster :=
  if l = [] then s
  else match s.members sid with
    | some i => { s with lists := Function.update s.lists i (s.lists i ++ l) }
    | none => s.place sid l

def append (sid : Sid) (member : Member) : Roster :=
  { s with fresh := s.fresh + 1 }.extend sid [⟨s.fresh, member⟩]

/-- The list loses its first member of that alarm. -/
def remove (alarm_id : Aid) (sid : Sid) : Roster :=
  match s.members sid with
  | some i =>
    { s with lists := Function.update s.lists i ((s.lists i).eraseP (·.member.alarm_id = alarm_id)) }
  | none => s

def moved (alarm_id : Aid) (source target : Sid) : Roster :=
  match (s.list source).find? (·.member.alarm_id = alarm_id) with
  | none => s
  | some m =>
    let s := s.remove alarm_id source
    if (s.members target).isSome then s.extend target [m] else s

/-- `members.pop(sid, None)` -/
def pop (sid : Sid) : Roster := { s with members := Function.update s.members sid none }

def merged (dst src : Sid) : Roster := (s.pop src).extend dst (s.list src)

def split (sid new : Sid) (departing : List Aid) : Roster :=
  let staying := (s.list sid).filter fun m => !departing.contains m.member.alarm_id
  let leaving := (s.list sid).filter fun m => departing.contains m.member.alarm_id
  (if (s.members sid).isSome then s.place sid staying else s).place new leaving

def reloaded (rows : List (Sid × Member)) : Roster :=
  rows.foldl (fun s row => s.append row.1 row.2) { s with members := fun _ => none, samples := fun _ => none }

def swept : Roster :=
  { s with samples := fun sid => if (s.members sid).isSome then s.samples sid else none }

/-- The sample of a situation stands: its list is the same, has not become shorter, and has the last member that was
accounted for where it was. -/
def Stands (c : Sample) (i : ℕ) : Prop :=
  c.members = i ∧ c.seen ≤ (s.lists i).length ∧ (c.seen ≠ 0 → ((s.lists i)[c.seen - 1]?).map (·.ref) = c.last)

instance (c : Sample) (i : ℕ) : Decidable (s.Stands c i) := inferInstanceAs (Decidable (_ ∧ _ ∧ _))

/-- The sample that `earliest` leaves, of the list that it is given. -/
def sample (sid : Sid) (i : ℕ) : Sample :=
  let members := s.lists i
  let last := members.getLast?.map (·.ref)
  match (s.samples sid).filter fun c => s.Stands c i with
  | none => ⟨i, members.length, last, (Earliest.ordered first_seen members).take ROOT_SAMPLE, members⟩
  | some c =>
    ⟨i, members.length, last, Earliest.keep first_seen ROOT_SAMPLE c.earliest (members.drop c.seen), members⟩

def earliest (sid : Sid) : Roster :=
  match s.members sid with
  | none => s
  | some i => { s with samples := Function.update s.samples sid (some (s.sample sid i)) }

def step : Roster → MemberOp → Roster
  | s, .opened sid => s.place sid []
  | s, .appended sid member => s.append sid member
  | s, .moved alarm_id source target => s.moved alarm_id source target
  | s, .merged dst src => s.merged dst src
  | s, .split sid new departing => s.split sid new departing
  | s, .closed sid => s.pop sid
  | s, .reloaded rows => s.reloaded rows
  | s, .swept => s.swept
  | s, .earliest sid => s.earliest sid

theorem sample_eq (sid : Sid) (i : ℕ) : (s.sample sid i).members = i ∧
    (s.sample sid i).seen = (s.lists i).length ∧ (s.sample sid i).last = (s.lists i).getLast?.map (·.ref) ∧
    (s.sample sid i).taken = s.lists i := by
  unfold sample
  dsimp only
  split <;> exact ⟨rfl, rfl, rfl, rfl⟩

/-- Where a sample stands when it is asked for, the members that it accounted for are still the first of the list. -/
def Unfooled : MemberOp → Prop
  | .earliest sid => ∀ i ∈ s.members sid, ∀ c ∈ s.samples sid, s.Stands c i → (s.lists i).take c.seen = c.taken
  | _ => True

instance : ∀ op, Decidable (s.Unfooled op)
  | .earliest sid => inferInstanceAs (Decidable (∀ i ∈ s.members sid, ∀ c ∈ s.samples sid, _ → _))
  | .opened _ | .appended .. | .moved .. | .merged .. | .split .. | .closed _ | .reloaded _ | .swept => .isTrue trivial

/-- Every sample is exact for what it was taken of. -/
def Sampled : Prop := ∀ sid c, s.samples sid = some c →
  c.seen = c.taken.length ∧ c.earliest = (Earliest.ordered first_seen c.taken).take ROOT_SAMPLE

variable {s} {sid : Sid} {i : ℕ}

theorem sample_earliest (hs : s.Sampled) (hi : s.members sid = some i) (h : s.Unfooled (.earliest sid)) :
    (s.sample sid i).earliest = (Earliest.ordered first_seen (s.lists i)).take ROOT_SAMPLE := by
  unfold sample
  dsimp only
  split
  · rfl
  · next c hc =>
    obtain ⟨hsome, hstands⟩ := Option.filter_eq_some_iff.mp hc
    have htake := h i hi c hsome (of_decide_eq_true hstands)
    obtain ⟨-, hearliest⟩ := hs sid c hsome
    dsimp only
    rw [hearliest, ← htake, Earliest.keep_ordered, List.take_append_drop]

/-! Edits leave the samples as they are -/

@[simp] theorem samples_place (l : List Held) : (s.place sid l).samples = s.samples := rfl

@[simp] theorem samples_extend (l : List Held) : (s.extend sid l).samples = s.samples := by
  unfold extend
  split
  · rfl
  · split <;> rfl

@[simp] theorem samples_append (member : Member) : (s.append sid member).samples = s.samples := samples_extend _

@[simp] theorem samples_remove (alarm_id : Aid) : (s.remove alarm_id sid).samples = s.samples := by
  unfold remove
  split <;> rfl

@[simp] theorem samples_moved (alarm_id : Aid) (source target : Sid) :
    (s.moved alarm_id source target).samples = s.samples := by
  unfold moved
  split
  · rfl
  · dsimp only
    split <;> simp

@[simp] theorem samples_split (new : Sid) (departing : List Aid) :
    (s.split sid new departing).samples = s.samples := by
  unfold split
  dsimp only
  rw [samples_place]
  split <;> rfl

@[simp] theorem samples_reloaded (rows : List (Sid × Member)) : (s.reloaded rows).samples = fun _ => none := by
  have hrows (s : Roster) : (rows.foldl (fun s row => s.append row.1 row.2) s).samples = s.samples := by
    induction rows generalizing s with
    | nil => rfl
    | cons row rows ih => rw [List.foldl_cons, ih, samples_append]
  exact hrows _

theorem sampled_step (hs : s.Sampled) (op : MemberOp) (h : s.Unfooled op) : (s.step op).Sampled := by
  have hkept {t : Roster} (ht : t.samples = s.samples) : t.Sampled := by
    unfold Sampled
    rw [ht]
    exact hs
  cases op with
  | opened sid => exact hkept rfl
  | appended sid member => exact hkept (samples_append member)
  | moved alarm_id source target => exact hkept (samples_moved ..)
  | merged dst src => exact hkept (samples_extend _)
  | split sid new departing => exact hkept (samples_split ..)
  | closed sid => exact hkept rfl
  | reloaded rows =>
    intro sid c hc
    rw [step, samples_reloaded] at hc
    cases hc
  | swept =>
    intro sid c hc
    simp only [step, swept] at hc
    split at hc
    · exact hs sid c hc
    · cases hc
  | earliest sid =>
    simp only [step, earliest]
    split
    · exact hs
    · next i hi =>
      intro sid' c hc
      change Function.update s.samples sid (some (s.sample sid i)) sid' = some c at hc
      rcases eq_or_ne sid' sid with rfl | hne
      · rw [Function.update_self] at hc
        obtain rfl := Option.some.inj hc
        obtain ⟨-, hseen, -, htaken⟩ := s.sample_eq sid' i
        exact ⟨by rw [hseen, htaken], by rw [sample_earliest hs hi h, htaken]⟩
      · rw [Function.update_of_ne hne] at hc
        exact hs sid' c hc

end Roster

theorem earliest_exact (ops : List MemberOp) (h : Runs.Meets Roster.step Roster.Unfooled {} ops) :
    ∀ before sid after, ops = before ++ .earliest sid :: after →
      ∀ i, (Runs.run Roster.step {} before).members sid = some i →
        ((Runs.run Roster.step {} before).sample sid i).earliest =
          (Earliest.ordered first_seen ((Runs.run Roster.step {} before).list sid)).take ROOT_SAMPLE := by
  rintro before sid after rfl i hi
  obtain ⟨hbefore, hasked, -⟩ := (Runs.meets_append ..).mp h
  have hsampled := Runs.run_invariant (I := Roster.Sampled) (fun s op hs hg => Roster.sampled_step hs op hg) {} before
    (by intro sid c hc; cases hc) hbefore
  rw [Roster.list, hi]
  exact Roster.sample_earliest hsampled hi hasked

/-- Two situations that grow. -/
def growing : List MemberOp := [
  .opened 1, .appended 1 ⟨1, 1, 1, 0⟩, .earliest 1, .appended 1 ⟨2, 1, 1, 2⟩, .earliest 1,
  .opened 2, .appended 2 ⟨3, 1, 1, 1⟩, .earliest 2, .appended 2 ⟨4, 1, 1, 3⟩, .earliest 2]

/-- Every sample stands, and is extended. -/
theorem earliest_exact_growing : (Runs.run Roster.step {} growing).members 1 = some 0 ∧
    ((Runs.run Roster.step {} growing).sample 1 0).earliest =
      (Earliest.ordered first_seen ((Runs.run Roster.step {} growing).list 1)).take ROOT_SAMPLE := by
  have hlist : (Runs.run Roster.step {} growing).members 1 = some 0 := by decide +kernel
  exact ⟨hlist, earliest_exact (growing ++ [.earliest 1]) (by decide +kernel) growing 1 [] rfl 0 hlist⟩

/-- The third alarm is moved in, the first and the second out, and the second back: it stands where it stood. -/
def shuffled : List MemberOp :=
  growing ++ [.moved 3 2 1, .moved 1 1 2, .moved 2 1 2, .moved 2 2 1, .appended 1 ⟨5, 1, 1, 4⟩]

/-- The first alarm is in the sample of a situation that it has left, and the third is not. -/
theorem shuffled_stale : ¬ ∀ ops before sid after, ops = before ++ .earliest sid :: after →
    ∀ i, (Runs.run Roster.step {} before).members sid = some i →
      ((Runs.run Roster.step {} before).sample sid i).earliest =
        (Earliest.ordered first_seen ((Runs.run Roster.step {} before).list sid)).take ROOT_SAMPLE := by
  intro h
  have hlist : (Runs.run Roster.step {} shuffled).members 1 = some 0 := by decide +kernel
  have hsample : ((Runs.run Roster.step {} shuffled).sample 1 0).earliest.map (·.member.alarm_id) = [1, 2, 5] := by
    decide +kernel
  rw [h (shuffled ++ [.earliest 1]) shuffled 1 [] rfl 0 hlist] at hsample
  exact absurd hsample (by decide +kernel)

end NetCoreNoc.Operate
