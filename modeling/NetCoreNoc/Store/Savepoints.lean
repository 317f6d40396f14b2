import Mathlib
import NetCoreNoc.Store.Connection

/-! What savepoint blocks undo (`Connection.savepoint` in `store/db.py`). All of them use one savepoint name, so a
`ROLLBACK TO` finds the newest savepoint, which a block that failed may have left behind. -/
namespace NetCoreNoc.Store
open Runs
variable {α : Type}

/-- Which transaction is open and what it holds, where the connection can go on in it. -/
def Connection.standing (c : Connection α) : Option (ℕ × List α) :=
  if c.failed || !c.server.alive then none
  else c.server.tx.bind fun t => if t.aborted then none else some (c.server.begun, t.writes)

/-- A block that is open: the transaction on its entry, and the savepoints that blocks inside it have left, newest first,
by what had been written when each was set. -/
structure Block (α : Type) where
  entry : ℕ × List α
  left : List (List α) := []
  deriving DecidableEq, Repr

/-- Those that were left in it, and its own. -/
def Block.marks (b : Block α) : List (List α) := b.left ++ [b.entry.2]

/-- Savepoints stay in the innermost block. -/
def leaves (marks : List (List α)) : List (Block α) → List (Block α)
  | [] => []
  | b :: bs => { b with left := marks ++ b.left } :: bs

/-- What a task does with the connection, in blocks or outside: a statement's exception leaves a block, or is caught in it. -/
structure Nest (α : Type) where
  conn : Connection α := {}
  /-- the open blocks, innermost first -/
  blocks : List (Block α) := []
  deriving DecidableEq, Repr

/-- Whether an operation ends the transaction, or the connection with it. -/
def Op.ends : Op α → Bool
  | .commit _ | .rollback | .dropped => true
  | .executemany rows r => !rows.isEmpty && r = .lost
  | .execute _ _ r | .enter r | .leave r | .leaveFailed r => r = .lost
  | .begin => false

namespace Nest
variable (s : Nest α)

/-- The open blocks after an operation. -/
def after : Op α → List (Block α)
  | .enter r => match s.conn.begin_.1.standing with
    | none => s.blocks
    | some entry =>
      if (s.conn.enter r).2 = .done then ⟨entry, []⟩ :: s.blocks
      else if r = .overtaken then leaves [entry.2] s.blocks
      else s.blocks
  | .leave r => match s.blocks with
    | [] => []
    | b :: bs => leaves (if r = .ok ∨ r = .overtaken then b.marks.tail else b.marks) bs
  | .leaveFailed _ => match s.blocks with
    | [] => []
    | b :: bs => leaves b.marks bs
  | _ => s.blocks

def step (op : Op α) : Nest α := ⟨(s.conn.apply op).1, s.after op⟩

/-- A block can only be left from inside it. -/
def Enabled : Op α → Prop
  | .leave _ | .leaveFailed _ => s.blocks ≠ []
  | _ => True

instance : ∀ op, Decidable (s.Enabled op)
  | .leave _ | .leaveFailed _ => inferInstanceAs (Decidable (s.blocks ≠ []))
  | .begin | .execute .. | .executemany .. | .enter _ | .commit _ | .rollback | .dropped => .isTrue trivial

/-- A statement that returns has added its writes to the transaction; one that raises has done so or nothing, or nothing
can go on in it. -/
def Adds (op : Op α) (ws : List α) : Prop :=
  let added := s.conn.standing.map fun held => (held.1, held.2 ++ ws)
  if (s.conn.apply op).2 = .done then (s.step op).conn.standing = added
  else (s.step op).conn.standing ∈ [added, s.conn.standing, none]

/-- The transaction that the open blocks were entered in goes on; a block that fails, inside or at one of its commands,
leaves it as it was on the block's entry; one that ends keeps what it holds. -/
def Undoes (op : Op α) : Prop :=
  (∀ b ∈ s.after op, (s.step op).conn.server.tx.isSome ∧ (s.step op).conn.server.begun = b.entry.1) ∧
    match op, s.blocks with
    | .begin, _ :: _ => (s.step .begin).conn.standing = s.conn.standing
    | .execute writes w r, _ :: _ => s.Adds (.execute writes w r) (if writes then [w] else [])
    | .executemany rows r, _ :: _ => s.Adds (.executemany rows r) rows
    | .enter r, _ => (s.conn.enter r).2 ≠ .done → (s.step (.enter r)).conn.standing = s.conn.begin_.1.standing
    | .leave r, b :: _ =>
      if (s.conn.leave r).2 = .done then
        (s.step (.leave r)).conn.standing = s.conn.standing ∧ s.conn.standing.map (·.1) = some b.entry.1
      else (s.step (.leave r)).conn.standing = some b.entry
    | .leaveFailed r, b :: _ => (s.step (.leaveFailed r)).conn.standing = some b.entry
    | _, _ => True

/-- The operation leaves what the code can undo. In a block: nothing is sent after a failure that would have the
transaction rolled back, and nothing ends it. A savepoint is set, where it can be. A block that ends does so in a
transaction that can go on, or is cancelled there when it has written nothing. One that fails finds, newest, a savepoint
at what was written on its entry; and its own rollback is answered. -/
def Fit (op : Op α) : Prop :=
  (s.blocks ≠ [] → (op.begins s.conn = true → s.conn.failed = false) ∧ op.ends = false) ∧
    match op, s.blocks with
    | .enter r, _ => s.conn.begin_.1.standing.isSome → r ≠ .error ∧ r ≠ .cancelled ∧ r ≠ .lost
    | .leave r, b :: _ =>
      (r = .ok ∧ s.conn.standing.isSome) ∨ ((r = .refused ∨ r = .overtaken) ∧ s.conn.standing = some b.entry)
    | .leaveFailed r, b :: _ =>
      ((r = .ok ∨ (r = .overtaken ∧ s.conn.failed = false)) ∧ b.marks.head? = some b.entry.2) ∨
        (r = .refused ∧ s.conn.standing = some b.entry)
    | _, _ => True

instance [DecidableEq α] : ∀ (s : Nest α) op, Decidable (s.Fit op)
  | _, .begin | _, .execute .. | _, .executemany .. | _, .enter _ | _, .commit _ | _, .rollback | _, .dropped
  | ⟨_, []⟩, .leave _ | ⟨_, _ :: _⟩, .leave _ | ⟨_, []⟩, .leaveFailed _ | ⟨_, _ :: _⟩, .leaveFailed _ =>
    inferInstanceAs (Decidable (_ ∧ _))

end Nest

/-- A session in blocks: the connection is in one transaction, with their savepoints. -/
def inside (committed ws : List α) (below : List (List α)) (aborted : Bool) (begun : ℕ) (failed : Bool)
    (bs : List (Block α)) : Nest α :=
  ⟨⟨⟨true, committed, some ⟨ws, bs.flatMap Block.marks ++ below, aborted⟩, begun⟩, true, failed⟩, bs⟩

/-- Whatever blocks are open, the connection is in the transaction that they were all entered in. -/
def Nest.Tracks (s : Nest α) : Prop := s.blocks ≠ [] → ∃ committed ws below aborted begun failed,
  s = inside committed ws below aborted begun failed s.blocks ∧ ∀ b ∈ s.blocks, b.entry.1 = begun

theorem Server.begun_answer {s : Server α} {runs : Server α × Outcome} (h : runs.1.begun = s.begun) (r : Reply) :
    (s.answer r runs).1.begun = s.begun := by
  unfold Server.answer
  split
  · cases r <;> first | exact h | rfl
  · rfl

theorem Server.begun_statement (s : Server α) (new : List α) (r : Reply) : (s.statement new r).1.begun = s.begun := by
  unfold Server.statement
  refine Server.begun_answer ?_ r
  split <;> rfl

theorem Connection.server_run_ (c : Connection α) (new : List α) (r : Reply) :
    (c.run_ new r).1.server = (c.server.statement new r).1 := by
  unfold Connection.run_
  obtain ⟨server, o⟩ := c.server.statement new r
  cases o <;> rfl

/-- After a failure that the connection knows of, what begins has another transaction. -/
theorem begun_failed {c : Connection α} (halive : c.server.alive = true) (hfailed : c.failed = true) {op : Op α}
    (h : op.begins c = true) : (c.apply op).1.server.begun = c.server.begun + 1 := by
  have hbegin : c.begin_ = (⟨{ c.server with tx := some {}, begun := c.server.begun + 1 }, true, false⟩, .done) := by
    simp [Connection.begin_, hfailed, Server.ROLLBACK, Server.BEGIN, halive]
  cases op with
  | begin => rw [Connection.apply, hbegin]
  | execute writes w r =>
    rw [Connection.apply, Connection.execute, hfailed, Bool.or_true, if_pos rfl, hbegin]
    exact (congrArg Server.begun (Connection.server_run_ _ _ r)).trans (Server.begun_statement _ _ r)
  | executemany rows r =>
    have hrows : ¬ rows.isEmpty = true := by simpa [Op.begins] using h
    rw [Connection.apply, Connection.executemany, if_neg hrows, hbegin]
    refine Eq.trans ?_ (Server.begun_statement { c.server with tx := some {}, begun := c.server.begun + 1 } rows r)
    dsimp only
    split <;> rename_i hs <;> exact congrArg (fun p => p.1.begun) hs.symm
  | enter r =>
    rw [Connection.apply, Connection.enter, hbegin]
    exact @Server.begun_answer α { c.server with tx := some {}, begun := c.server.begun + 1 } _ rfl r
  | leave r | leaveFailed r | commit r | rollback | dropped => exact nomatch h

section Step
variable {committed ws : List α} {below : List (List α)} {aborted : Bool} {begun : ℕ} {failed : Bool} {b : Block α}
  {bs : List (Block α)}

theorem tracks_nil (c : Connection α) : (⟨c, []⟩ : Nest α).Tracks := fun hne => absurd rfl hne

theorem tracks_inside (hn : ∀ x ∈ bs, x.entry.1 = begun) : (inside committed ws below aborted begun failed bs).Tracks :=
  fun _ => ⟨committed, ws, below, aborted, begun, failed, rfl, hn⟩

/-- An operation that ends the transaction of an open block, or has another one begun, does not undo. -/
theorem not_undoes {s : Nest α} {op : Op α} {x : Block α} (hx : x ∈ s.after op)
    (h : (s.step op).conn.server.tx = none ∨ (s.step op).conn.server.begun ≠ x.entry.1) : ¬ s.Undoes op := by
  rintro ⟨hgoes, -⟩
  obtain ⟨htx, hbegun⟩ := hgoes x hx
  rcases h with h | h
  · rw [h] at htx
    exact nomatch htx
  · exact h hbegun

/-- What a statement does in a transaction that is not known to have failed. -/
theorem run_inside (new : List α) (r : Reply) :
    let c := (inside committed ws below aborted begun false bs).conn
    let added := c.standing.map fun held => (held.1, held.2 ++ new)
    (r = .lost → (c.run_ new r).1.server.tx = none) ∧ (r ≠ .lost → ∃ ws' aborted' failed',
      (c.run_ new r).1 = (inside committed ws' below aborted' begun failed' bs).conn ∧
        if (c.run_ new r).2 = .done then (c.run_ new r).1.standing = added
        else (c.run_ new r).1.standing ∈ [added, c.standing, none]) := by
  intro c added
  refine ⟨fun hr => hr ▸ rfl, fun hr => ?_⟩
  cases r with
  | lost => exact absurd rfl hr
  | ok | overtaken | error | refused | cancelled =>
    cases aborted <;> exact ⟨_, _, _, rfl, by
      simp [added, c, inside, Connection.run_, Connection.standing, Server.statement, Server.answer, Server.fail,
        Server.abort]⟩

variable (hn : ∀ x ∈ b :: bs, x.entry.1 = begun)
include hn

/-- A statement in a block. -/
theorem statement_inside {op : Op α} {new : List α} {r : Reply}
    (happly : (inside committed ws below aborted begun false (b :: bs)).conn.apply op =
      (inside committed ws below aborted begun false (b :: bs)).conn.run_ new r)
    (hafter : (inside committed ws below aborted begun false (b :: bs)).after op = b :: bs)
    (hundoes : (inside committed ws below aborted begun false (b :: bs)).Undoes op ↔
      (∀ x ∈ b :: bs, ((inside committed ws below aborted begun false (b :: bs)).step op).conn.server.tx.isSome ∧
        ((inside committed ws below aborted begun false (b :: bs)).step op).conn.server.begun = x.entry.1) ∧
      (inside committed ws below aborted begun false (b :: bs)).Adds op new)
    (hfit : (inside committed ws below aborted begun false (b :: bs)).Fit op ↔ r ≠ .lost) :
    let s := inside committed ws below aborted begun false (b :: bs)
    (s.Undoes op ↔ s.Fit op) ∧ (s.Fit op → (s.step op).Tracks) := by
  intro s
  obtain ⟨hlost, hran⟩ := @run_inside α committed ws below aborted begun (b :: bs) new r
  by_cases hr : r = .lost
  · have hnot : ¬ s.Fit op := fun h => hfit.mp h hr
    refine ⟨iff_of_false (not_undoes (x := b) (hafter ▸ List.mem_cons_self) (.inl ?_)) hnot, fun h => absurd h hnot⟩
    exact (congrArg (fun p => p.1.server.tx) happly).trans (hlost hr)
  · obtain ⟨ws', aborted', failed', hconn, hadds⟩ := hran hr
    have hstep : s.step op = inside committed ws' below aborted' begun failed' (b :: bs) := by
      rw [Nest.step, hafter, happly, hconn]
      rfl
    refine ⟨iff_of_true (hundoes.mpr ⟨fun x hx => ?_, ?_⟩) (hfit.mpr hr), fun _ => hstep ▸ tracks_inside hn⟩
    · rw [hstep]
      exact ⟨rfl, (hn x hx).symm⟩
    · rw [Nest.Adds, Nest.step, happly]
      exact hadds

/-- What follows a failure that the connection knows of, where the operation has the transaction rolled back. -/
theorem begins_failed {op : Op α} (h : op.begins (inside committed ws below aborted begun true (b :: bs)).conn = true) :
    let s := inside committed ws below aborted begun true (b :: bs)
    (s.Undoes op ↔ s.Fit op) ∧ (s.Fit op → (s.step op).Tracks) := by
  intro s
  have hnot : ¬ s.Fit op := fun hfit => absurd ((hfit.1 (List.cons_ne_nil b bs)).1 h) (by simp [s, inside])
  have hnext : (s.step op).conn.server.begun = begun + 1 := begun_failed rfl rfl h
  have hb : ∃ x ∈ s.after op, x.entry.1 = begun := by
    have hentry : b.entry.1 = begun := hn b List.mem_cons_self
    cases op with
    | begin | execute writes w r | executemany rows r => exact ⟨b, List.mem_cons_self, hentry⟩
    | enter r =>
      simp only [Nest.after]
      split
      · exact ⟨b, List.mem_cons_self, hentry⟩
      · split_ifs
        · exact ⟨b, List.mem_cons_of_mem _ List.mem_cons_self, hentry⟩
        · exact ⟨_, List.mem_cons_self, hentry⟩
        · exact ⟨b, List.mem_cons_self, hentry⟩
    | leave r | leaveFailed r | commit r | rollback | dropped => exact nomatch h
  obtain ⟨x, hx, hxn⟩ := hb
  refine ⟨iff_of_false (not_undoes hx (.inr ?_)) hnot, fun h => absurd h hnot⟩
  rw [hnext, hxn]
  exact Nat.succ_ne_self begun

omit hn in
theorem number_leaves (hn : ∀ x ∈ bs, x.entry.1 = begun) (marks : List (List α)) :
    ∀ x ∈ leaves marks bs, begun = x.entry.1 := by
  intro x hx
  obtain _ | ⟨b', bs⟩ := bs
  · exact nomatch hx
  · rcases List.mem_cons.mp hx with rfl | hx
    · exact (hn b' List.mem_cons_self).symm
    · exact (hn x (List.mem_cons_of_mem b' hx)).symm

omit hn in
/-- The savepoints of a block that ended are now those of the block around it. -/
theorem tracks_leaves (hn : ∀ x ∈ bs, x.entry.1 = begun) (marks : List (List α)) :
    (⟨⟨⟨true, committed, some ⟨ws, marks ++ (bs.flatMap Block.marks ++ below), aborted⟩, begun⟩, true, failed⟩,
      leaves marks bs⟩ : Nest α).Tracks := by
  intro hne
  obtain _ | ⟨b', bs⟩ := bs
  · exact absurd rfl hne
  · refine ⟨committed, ws, below, aborted, begun, failed, ?_, fun x hx => (number_leaves hn marks x hx).symm⟩
    simp [inside, leaves, Block.marks]

attribute [local simp] inside Nest.Undoes Nest.Fit Nest.step Nest.after Connection.apply Connection.standing Op.begins
  Op.ends Server.answer Server.fail Server.abort Server.drop

theorem step_enter (r : Reply) :
    let s := inside committed ws below aborted begun false (b :: bs)
    (s.Undoes (.enter r) ↔ s.Fit (.enter r)) ∧ (s.Fit (.enter r) → (s.step (.enter r)).Tracks) := by
  have hb : begun = b.entry.1 := (hn b List.mem_cons_self).symm
  have hbs (x : Block α) (hx : x ∈ bs) : begun = x.entry.1 := (hn x (List.mem_cons_of_mem b hx)).symm
  have hstays (aborted : Bool) : (inside committed ws below aborted begun false (b :: bs)).Tracks := tracks_inside hn
  simp only [inside, List.flatMap_cons, List.append_assoc] at hstays
  cases r <;> cases aborted <;> simp [Connection.enter, Connection.begin_, Server.SAVEPOINT, Server.marked]
  case ok.false =>
    refine ⟨⟨hb, hbs⟩, ?_⟩
    refine fun _ => ⟨committed, ws, below, false, begun, false, by simp [Block.marks], fun x hx => ?_⟩
    exact (List.mem_cons.mp hx).elim (fun h => h ▸ rfl) (hn x)
  case overtaken.false =>
    refine ⟨number_leaves hn [ws], ?_⟩
    simpa using @tracks_leaves α committed ws below false begun false (b :: bs) hn [ws]
  case lost.true => exact ⟨b, fun h => absurd rfl h⟩
  all_goals exact ⟨⟨hb, hbs⟩, hstays _⟩

theorem step_leave (r : Reply) :
    let s := inside committed ws below aborted begun failed (b :: bs)
    (s.Undoes (.leave r) ↔ s.Fit (.leave r)) ∧ (s.Fit (.leave r) → (s.step (.leave r)).Tracks) := by
  have hb : begun = b.entry.1 := (hn b List.mem_cons_self).symm
  have hbs (x : Block α) (hx : x ∈ bs) : x.entry.1 = begun := hn x (List.mem_cons_of_mem b hx)
  obtain ⟨m, ms, hm⟩ := List.exists_cons_of_ne_nil (show b.marks ≠ [] by simp [Block.marks])
  cases r <;> cases aborted <;> cases failed <;> simp [Connection.leave, Server.RELEASE, Server.released, hm]
  case ok.false.false => exact ⟨⟨number_leaves hbs ms, hb⟩, tracks_leaves hbs ms⟩
  case refused.false.false => exact ⟨fun _ => number_leaves hbs (m :: ms), fun _ => tracks_leaves hbs (m :: ms)⟩
  case overtaken.false.false => exact ⟨fun _ => number_leaves hbs ms, fun _ => tracks_leaves hbs ms⟩

theorem step_leaveFailed (r : Reply) :
    let s := inside committed ws below aborted begun failed (b :: bs)
    (s.Undoes (.leaveFailed r) ↔ s.Fit (.leaveFailed r)) ∧ (s.Fit (.leaveFailed r) → (s.step (.leaveFailed r)).Tracks) := by
  have hb : begun = b.entry.1 := (hn b List.mem_cons_self).symm
  have hbs (x : Block α) (hx : x ∈ bs) : x.entry.1 = begun := hn x (List.mem_cons_of_mem b hx)
  obtain ⟨m, ms, hm⟩ := List.exists_cons_of_ne_nil (show b.marks ≠ [] by simp [Block.marks])
  have hback : (begun, m) = b.entry ↔ m = b.entry.2 := by
    rw [Prod.ext_iff]
    exact and_iff_right hb
  have hrestored : ((∀ x ∈ leaves (m :: ms) bs, begun = x.entry.1) ∧ (begun, m) = b.entry) ↔ m = b.entry.2 :=
    (and_iff_right (number_leaves hbs (m :: ms))).trans hback
  cases r <;> cases aborted <;> cases failed <;> simp [Connection.leaveFailed, Server.ROLLBACK_TO, Server.returned, hm]
  case refused.false.false => exact ⟨fun _ => number_leaves hbs (m :: ms), fun _ => tracks_leaves hbs (m :: ms)⟩
  all_goals exact ⟨hrestored, fun _ => tracks_leaves hbs (m :: ms)⟩

omit hn
variable {s : Nest α}

theorem begin_cases (c : Connection α) : (c.begin_.2 = .done ∧ c.begin_.1.opened = true ∧ c.begin_.1.failed = false) ∨
    (c.begin_.2 ≠ .done ∧ c.begin_.1.server.alive = false) := by
  obtain ⟨⟨alive, committed, tx, begun⟩, opened, failed⟩ := c
  cases alive <;> cases tx <;> cases opened <;> cases failed <;>
    simp [Connection.begin_, Server.ROLLBACK, Server.BEGIN]

/-- The outermost block is entered in whatever transaction its command finds. -/
theorem step_outside (hnone : s.blocks = []) (r : Reply) :
    (s.Undoes (.enter r) ↔ s.Fit (.enter r)) ∧ (s.Fit (.enter r) → (s.step (.enter r)).Tracks) := by
  obtain ⟨c, blocks⟩ := s
  obtain rfl : blocks = [] := hnone
  rcases begin_cases c with ⟨hdone, hopened, hfailed⟩ | ⟨hnot, hdead⟩
  · rcases hbegin : c.begin_ with ⟨c', o⟩
    rw [hbegin] at hdone hopened hfailed
    obtain ⟨⟨alive, committed, tx, begun⟩, opened, failed⟩ := c'
    obtain rfl : o = .done := hdone
    obtain rfl : opened = true := hopened
    obtain rfl : failed = false := hfailed
    have henter : c.enter r = (⟨((⟨alive, committed, tx, begun⟩ : Server α).SAVEPOINT r).1, true, false⟩,
        ((⟨alive, committed, tx, begun⟩ : Server α).SAVEPOINT r).2) := by
      rw [Connection.enter, hbegin]
    cases alive with
    | false => simp [henter, hbegin, Server.SAVEPOINT, tracks_nil]
    | true =>
      rcases tx with _ | ⟨ws, marks, _ | _⟩
      · cases r <;> simp [henter, hbegin, Server.SAVEPOINT, Server.marked, tracks_nil]
      · cases r <;> simp [henter, hbegin, Server.SAVEPOINT, Server.marked, tracks_nil, leaves]
        -- the block is entered
        refine fun _ => ⟨committed, ws, marks, false, begun, false, by simp [Block.marks], fun x hx => ?_⟩
        rw [List.mem_singleton.mp hx]
      · cases r <;> simp [henter, hbegin, Server.SAVEPOINT, Server.marked, tracks_nil]
  · have hstanding : c.begin_.1.standing = none := by simp [hdead]
    have henter : c.enter r = c.begin_ := by
      rcases hbegin : c.begin_ with ⟨c', o⟩
      rw [hbegin] at hnot
      cases o with
      | done => exact absurd rfl hnot
      | pgError | otherError => rw [Connection.enter, hbegin]
    refine ⟨iff_of_true ⟨?_, fun _ => ?_⟩ ⟨fun h => absurd rfl h, ?_⟩, fun _ => ?_⟩
    · simp only [Nest.after, hstanding]
      exact fun b hb => nomatch hb
    · exact congrArg (fun p => p.1.standing) henter
    · rw [hstanding]
      exact nofun
    · simp only [Nest.step, Nest.after, hstanding]
      exact tracks_nil _

theorem step_tracks (h : s.Tracks) (op : Op α) (hen : s.Enabled op) :
    (s.Undoes op ↔ s.Fit op) ∧ (s.Fit op → (s.step op).Tracks) := by
  by_cases hnone : s.blocks = []
  · cases op with
    | enter r => exact step_outside hnone r
    | leave r | leaveFailed r => exact absurd hnone hen
    | begin | execute writes w r | executemany rows r | commit r | rollback | dropped =>
      obtain ⟨c, blocks⟩ := s
      obtain rfl : blocks = [] := hnone
      exact ⟨iff_of_true ⟨(fun b hb => nomatch hb), trivial⟩ ⟨fun h => absurd rfl h, trivial⟩, fun _ => tracks_nil _⟩
  · obtain ⟨committed, ws, below, aborted, begun, failed, hs, hn⟩ := h hnone
    obtain ⟨b, bs, hblocks⟩ := List.exists_cons_of_ne_nil hnone
    rw [hblocks] at hs hn
    subst hs
    have hends (op : Op α) (hafter : (inside committed ws below aborted begun failed (b :: bs)).after op = b :: bs)
        (hfit : op.ends = true)
        (htx : ((inside committed ws below aborted begun failed (b :: bs)).conn.apply op).1.server.tx = none) :
        let s := inside committed ws below aborted begun failed (b :: bs)
        (s.Undoes op ↔ s.Fit op) ∧ (s.Fit op → (s.step op).Tracks) := by
      intro s
      have hnot : ¬ s.Fit op := fun h => absurd ((h.1 (List.cons_ne_nil b bs)).2.symm.trans hfit) nofun
      exact ⟨iff_of_false (not_undoes (hafter ▸ List.mem_cons_self) (.inl htx)) hnot, fun h => absurd h hnot⟩
    cases op with
    | leave r => exact step_leave hn r
    | leaveFailed r => exact step_leaveFailed hn r
    | commit r => exact hends _ rfl rfl (by cases failed <;> cases r <;> rfl)
    | rollback => exact hends _ rfl rfl rfl
    | dropped => exact hends _ rfl rfl rfl
    | begin =>
      cases failed with
      | true => exact begins_failed hn rfl
      | false =>
        refine ⟨iff_of_true ⟨fun x hx => ⟨rfl, (hn x hx).symm⟩, rfl⟩ ⟨fun _ => ⟨fun _ => rfl, rfl⟩, trivial⟩, ?_⟩
        exact fun _ => tracks_inside hn
    | execute writes w r =>
      cases failed with
      | true => exact begins_failed hn (Bool.or_true _)
      | false =>
        refine statement_inside hn (r := r) ?_ rfl Iff.rfl ?_
        · cases writes <;> rfl
        · simp
    | executemany rows r =>
      by_cases hrows : rows = []
      · subst hrows
        refine ⟨iff_of_true ⟨fun x hx => ⟨rfl, (hn x hx).symm⟩, ?_⟩ ?_, fun _ => tracks_inside hn⟩
        · simp [Nest.Adds, Connection.executemany]
        · simp
      cases failed with
      | true => exact begins_failed hn (by simpa using hrows)
      | false =>
        refine statement_inside hn (r := r) ?_ rfl Iff.rfl ?_
        · simp [Connection.executemany, Connection.run_, Connection.begin_, hrows]
        · simp [hrows]
    | enter r =>
      cases failed with
      | true => exact begins_failed hn rfl
      | false => exact step_enter hn r

end Step

/-- In every run of operations, blocks left only from inside: each step undoes what it is to undo, and nothing else, exactly
if each is one that the code can undo. -/
theorem undoes_iff (ops : List (Op α)) (h : Meets Nest.step Nest.Enabled {} ops) :
    Meets Nest.step Nest.Undoes {} ops ↔ Meets Nest.step Nest.Fit {} ops := by
  have hstart : ({} : Nest α).Tracks := tracks_nil _
  generalize ({} : Nest α) = s at h hstart
  induction ops generalizing s with
  | nil => exact Iff.rfl
  | cons op ops ih =>
    obtain ⟨hsame, htracks⟩ := step_tracks hstart op h.1
    refine (and_congr_left' hsame).trans (and_congr_right fun hfit => ?_)
    exact ih _ h.2 (htracks hfit)

/-- A block writes, a block inside it fails and is caught, and then the outer one fails. -/
def half_undone : List (Op Nat) := [.enter .ok, .execute true 1 .ok, .enter .ok, .leaveFailed .ok, .leaveFailed .ok]

/-- The outer block's write stays, and is committed. -/
theorem half_undone_stands : Meets Nest.step Nest.Enabled {} half_undone ∧ ¬ Meets Nest.step Nest.Undoes {} half_undone ∧
    ((run Nest.step {} half_undone).conn.commit .ok).1.server.committed = [1] := by
  refine ⟨by decide, ?_, by decide⟩
  rintro ⟨-, -, -, -, ⟨-, hback⟩, -⟩
  have hkept : some (1, [1]) = some (1, []) := hback
  exact absurd hkept (by decide)

/-- A block in which a block fails and is caught before anything is written, a statement's error leaves the one, and then
the other ends. -/
def undone : List (Op Nat) := [.execute true 1 .ok, .enter .ok, .enter .ok, .execute true 2 .error, .leaveFailed .ok,
  .execute true 3 .ok, .leave .ok]

theorem undone_undoes : Meets Nest.step Nest.Undoes {} undone :=
  (undoes_iff undone (by decide)).mpr (by decide)

end NetCoreNoc.Store
