import Mathlib
import NetCoreNoc.Store.Connection

/-! What a unit of work on the writer's connection keeps. A unit is read off the operations and
their outcomes alone: the writes issued since its start, less those of savepoint blocks that failed.
The connection is then held to it at the commit. -/
namespace NetCoreNoc.Store
open Runs
variable {α : Type}

/-- The writes a unit of work has issued, and how many of them each open block began with. -/
structure Work (α : Type) where
  issued : List α := []
  blocks : List (List α) := []
  deriving DecidableEq, Repr

/-- A new unit starts; the blocks still open belong to it and have issued nothing in it yet. -/
def Work.restart (g : Work α) : Work α := ⟨[], g.blocks.map fun _ => []⟩

/-- The unit after an operation with the given outcome. -/
def Work.after (g : Work α) : Op α → Outcome → Work α
  | .execute true w _, .done => { g with issued := g.issued ++ [w] }
  | .executemany rows _, .done => { g with issued := g.issued ++ rows }
  | .enter _, .done => { g with blocks := g.issued :: g.blocks }
  | .leave _, .done => { g with blocks := g.blocks.tail }
  | .leave _, _ | .leaveFailed _, _ => ⟨g.blocks.headD [], g.blocks.tail⟩
  | .commit _, _ | .rollback, _ => g.restart
  | _, _ => g

structure Session (α : Type) where
  conn : Connection α := {}
  work : Work α := {}
  deriving DecidableEq, Repr

/-- One operation. With `logged`, the rollback of a transaction that was left open after a failure
(the one `_begin` warns of) also starts a new unit. -/
def Session.step (logged : Bool) (s : Session α) (op : Op α) : Session α :=
  let work := if logged && s.conn.failed && op.begins s.conn then s.work.restart else s.work
  ⟨(s.conn.apply op).1, work.after op (s.conn.apply op).2⟩

/-- A block can only be left from inside it. -/
def Session.Enabled (s : Session α) : Op α → Prop
  | .leave _ | .leaveFailed _ => s.work.blocks ≠ []
  | _ => True

instance (s : Session α) (op : Op α) : Decidable (s.Enabled op) := by
  cases op <;> unfold Session.Enabled <;> infer_instance

/-- The server stops no statement for a cancellation, and no savepoint command for that or of its own accord. -/
def Session.Undisturbed (s : Session α) (op : Op α) : Prop :=
  s.Enabled op ∧
    match op with
    | .execute _ _ r | .executemany _ r => r ≠ .cancelled
    | .enter r | .leave r | .leaveFailed r => r ≠ .cancelled ∧ r ≠ .error
    | _ => True

instance (s : Session α) (op : Op α) : Decidable (s.Undisturbed op) := by
  unfold Session.Undisturbed
  cases op <;> infer_instance

/-- A commit that returns normally has added the unit's writes, in order, to what is committed. -/
def Session.Keeps (s : Session α) (r : CommitReply) : Prop :=
  (s.conn.commit r).2 = .done →
    ∃ ws, (s.conn.commit r).1.server.committed = s.conn.server.committed ++ ws ∧
      s.work.issued.Sublist ws

/-- Every unit that only a commit or a rollback ends is kept. -/
def CommitKeepsUnit (α : Type) : Prop :=
  ∀ (ops : List (Op α)) (r : CommitReply), Meets (Session.step false) Session.Enabled {} ops →
    (run (Session.step false) {} ops).Keeps r

/-- A failed statement that its caller catches costs the unit the writes before it: the next write
rolls the dead transaction back and commits alone. -/
theorem caught_failure_loses_earlier_write : ¬ CommitKeepsUnit Nat := by
  intro h
  obtain ⟨ws, he, hs⟩ :=
    h [.execute true 1 .ok, .execute true 2 .error, .execute true 3 .ok] .ok (by decide) (by decide)
  have hc : [3] = [] ++ ws := he
  rw [List.nil_append] at hc
  subst hc
  exact absurd hs (by decide)

/-- Savepoint blocks against the savepoints the server holds, innermost first. A block owns its own
mark and those that failed blocks inside it have left, or nothing survives of it at all. -/
def Aligned : List (List α) → List (List α) → Prop
  | [], _ => True
  | b :: bs, marks =>
    (∀ b' ∈ b :: bs, b' = []) ∨
      ∃ l ls rest, marks = l :: ls ++ rest ∧ (∀ m ∈ l :: ls, b.Sublist m) ∧ Aligned bs rest

variable {bs marks : List (List α)}

theorem Aligned.of_nil (h : ∀ b ∈ bs, b = []) : Aligned bs marks := by
  cases bs with
  | nil => trivial
  | cons b bs => exact .inl h

/-- The marks of an ended block count for the block around it. -/
theorem Aligned.outer {b : List α} {bs ls rest : List (List α)} (h : Aligned bs rest)
    (hb : ∀ b' ∈ bs, b'.Sublist b) (hm : ∀ m ∈ ls, b.Sublist m) : Aligned bs (ls ++ rest) := by
  cases bs with
  | nil => trivial
  | cons b' bs =>
    rcases h with h | ⟨l, ls', rest', rfl, hl, hr⟩
    · exact .inl h
    · cases ls with
      | nil => exact .inr ⟨l, ls', rest', rfl, hl, hr⟩
      | cons m ls =>
        refine .inr ⟨m, ls ++ l :: ls', rest', by simp, ?_, hr⟩
        intro x hx
        have hcase : x ∈ m :: ls ∨ x ∈ l :: ls' := by simpa [or_assoc] using hx
        rcases hcase with hx | hx
        · exact (hb b' (by simp)).trans (hm x hx)
        · exact hl x hx

/-- Leaving the innermost block normally drops the newest mark. -/
theorem Aligned.leave {b m : List α}
    (h : Aligned (b :: bs) (m :: marks)) (hb : ∀ b' ∈ bs, b'.Sublist b) : Aligned bs marks := by
  rcases h with h | ⟨l, ls, rest, he, hl, hr⟩
  · exact .of_nil fun b' hb' => h b' (by simp [hb'])
  · obtain ⟨rfl, rfl⟩ := List.cons.inj he
    exact hr.outer hb fun x hx => hl x (by simp [hx])

/-- Leaving it by a failure keeps every mark, and the newest one still holds what it began with. -/
theorem Aligned.leaveFailed {b m : List α}
    (h : Aligned (b :: bs) (m :: marks)) (hb : ∀ b' ∈ bs, b'.Sublist b) :
    b.Sublist m ∧ Aligned bs (m :: marks) := by
  rcases h with h | ⟨l, ls, rest, he, hl, hr⟩
  · refine ⟨?_, .of_nil fun b' hb' => h b' (by simp [hb'])⟩
    rw [h b (by simp)]
    exact List.nil_sublist m
  · rw [he]
    obtain ⟨rfl, -⟩ := List.cons.inj he
    exact ⟨hl m (by simp), hr.outer hb hl⟩

/-- The transaction holds what the unit has issued, and it is not aborted unknown to the connection, but where the unit
has issued nothing. -/
structure Holds (t : Transaction α) (failed : Bool) (g : Work α) : Prop where
  issued : g.issued.Sublist t.writes
  blocks : Aligned g.blocks t.marks
  known : failed = false → t.aborted = true → g.issued = []

/-- The connection agrees with the server, and the server holds what the unit has issued. -/
structure Sound (s : Session α) : Prop where
  failed_open : s.conn.failed → s.conn.opened
  dead : s.conn.server.alive = false → s.conn.server.tx = none
  closed : s.conn.opened = false →
    s.conn.server.tx = none ∧ s.work.issued = [] ∧ ∀ b ∈ s.work.blocks, b = []
  nested : (s.work.issued :: s.work.blocks).Pairwise fun a b => b.Sublist a
  held : s.conn.opened → s.conn.server.alive → ∃ t, s.conn.server.tx = some t ∧ Holds t s.conn.failed s.work

theorem Sound.init : Sound ({} : Session α) := by
  constructor <;> simp

theorem Work.restart_nested (g : Work α) :
    (g.restart.issued :: g.restart.blocks).Pairwise fun a b : List α => b.Sublist a := by
  rw [List.pairwise_iff_forall_sublist]
  intro a b h
  have hb : b ∈ g.restart.issued :: g.restart.blocks := h.subset (by simp)
  have hnil : b = [] := by
    rcases List.mem_cons.mp hb with rfl | hb
    · rfl
    · obtain ⟨_, _, rfl⟩ := List.mem_map.mp hb
      rfl
  rw [hnil]
  exact List.nil_sublist a

theorem Work.restart_blocks (g : Work α) : ∀ b ∈ g.restart.blocks, b = [] := by
  intro b hb
  obtain ⟨_, _, rfl⟩ := List.mem_map.mp hb
  rfl

/-- A connection with no transaction is sound for a unit that has just started. -/
theorem Sound.fresh {server : Server α} (g : Work α) (htx : server.tx = none) :
    Sound ⟨⟨server, false, false⟩, g.restart⟩ where
  failed_open := by simp
  dead _ := htx
  closed _ := ⟨htx, rfl, g.restart_blocks⟩
  nested := g.restart_nested
  held := by simp

theorem Server.ROLLBACK_tx {s : Server α} (h : s.alive = false → s.tx = none) :
    s.ROLLBACK.1.tx = none := by
  unfold Server.ROLLBACK
  split
  · rfl
  · exact h (by simpa using ‹¬ s.alive = true›)

variable {c : Connection α} {g : Work α}

/-- `_begin` opens a transaction or leaves the connection closed; a failed one ends its unit. -/
theorem Sound.begin_ (h : Sound ⟨c, g⟩) :
    Sound ⟨c.begin_.1, if c.failed then g.restart else g⟩ ∧
      (c.begin_.2 = .done → c.begin_.1.opened = true ∧ c.begin_.1.failed = false) := by
  obtain ⟨server, opened, failed⟩ := c
  cases failed with
  | true =>
    have hf := Sound.fresh g (Server.ROLLBACK_tx h.dead)
    cases ha : server.alive with
    | false =>
      simp only [Server.ROLLBACK, ha] at hf
      simpa [Connection.begin_, Server.ROLLBACK, ha] using hf
    | true =>
      simp only [Connection.begin_, Server.ROLLBACK, Server.BEGIN, ha, if_true]
      refine ⟨⟨by simp, by simp, by simp, g.restart_nested, ?_⟩, by simp⟩
      intro _ _
      exact ⟨{}, rfl, List.nil_sublist _, .of_nil g.restart_blocks, fun _ _ => rfl⟩
  | false =>
    cases opened with
    | true => simpa [Connection.begin_] using h
    | false =>
      obtain ⟨htx, hi, hb⟩ := h.closed rfl
      cases ha : server.alive with
      | false => simpa [Connection.begin_, Server.BEGIN, ha] using h
      | true =>
        have he : Connection.begin_ ⟨server, false, false⟩ =
            (⟨{ server with tx := some {}, begun := server.begun + 1 }, true, false⟩, .done) := by
          simp [Connection.begin_, Server.BEGIN, ha, show server.tx = none from htx]
        rw [he]
        refine ⟨⟨by simp, by simp [ha], by simp, h.nested, fun _ _ => ⟨{}, rfl, ?_, .of_nil hb, fun _ _ => hi⟩⟩, by simp⟩
        change g.issued.Sublist []
        rw [show g.issued = [] from hi]

/-- The unit after a statement that would issue `ws`. -/
def Work.issue (g : Work α) (ws : List α) (o : Outcome) : Work α :=
  if o = .done then { g with issued := g.issued ++ ws } else g

theorem Work.nested_append {g : Work α} (ws : List α)
    (h : (g.issued :: g.blocks).Pairwise fun a b : List α => b.Sublist a) :
    ((g.issued ++ ws) :: g.blocks).Pairwise fun a b : List α => b.Sublist a := by
  rw [List.pairwise_cons] at h ⊢
  exact ⟨fun b hb => (h.1 b hb).trans (List.sublist_append_left _ _), h.2⟩

/-- Outside a transaction, a statement that writes nothing leaves the server as it is. -/
theorem Server.statement_nil {server : Server α} (htx : server.tx = none) (ha : server.alive = true) :
    server.statement [] .ok = (server, .done) ∧ server.statement [] .overtaken = (server, .otherError) := by
  obtain ⟨alive, committed, tx, begun⟩ := server
  obtain rfl : tx = none := htx
  obtain rfl : alive = true := ha
  simp [Server.statement, Server.answer]

/-- A statement that is not stopped for a cancellation keeps its writes, or is known to have failed. -/
theorem Sound.run_ {ws : List α} {r : Reply} (h : Sound ⟨c, g⟩)
    (hf : c.failed = false) (hw : c.opened = true ∨ ws = []) (hr : r ≠ .cancelled) :
    Sound ⟨(c.run_ ws r).1, g.issue ws (c.run_ ws r).2⟩ := by
  obtain ⟨server, opened, failed⟩ := c
  unfold Work.issue
  obtain rfl : failed = false := hf
  cases ha : server.alive with
  | false => simpa [Connection.run_, Server.statement, Server.answer, ha] using h
  | true =>
    cases r with
    | cancelled => exact absurd rfl hr
    | refused => simpa [Connection.run_, Server.statement, Server.answer, ha] using h
    | lost =>
      simp only [Connection.run_, Server.statement, Server.answer, ha, if_true]
      exact ⟨by simp, by simp [Server.drop], fun ho => ⟨rfl, (h.closed ho).2⟩, h.nested,
        by simp [Server.drop]⟩
    | error =>
      simp only [Connection.run_, Server.statement, Server.answer, ha, if_true, Server.fail]
      refine ⟨by simp, by simp [Server.abort, ha], fun ho => ?_, h.nested, fun ho _ => ?_⟩
      · obtain ⟨htx, hg⟩ := h.closed ho
        exact ⟨by simpa [Server.abort] using htx, hg⟩
      · obtain ⟨t, htx, hi, hm, -⟩ := h.held ho ha
        have ht : server.tx = some t := htx
        exact ⟨{ t with aborted := true }, by simp [Server.abort, ht], hi, hm, fun hf => by simp_all⟩
    | ok =>
      cases opened with
      | true =>
        obtain ⟨⟨w, ms, aborted⟩, htx, hi, hm, hk⟩ := h.held rfl ha
        have ht : server.tx = some ⟨w, ms, aborted⟩ := htx
        cases aborted with
        | false =>
          simp only [Connection.run_, Server.statement, Server.answer, ha, if_true, ht]
          exact ⟨by simp, by simp, by simp, Work.nested_append ws h.nested,
            fun _ _ => ⟨_, rfl, hi.append (List.Sublist.refl ws), hm, by simp⟩⟩
        | true =>
          simp only [Connection.run_, Server.statement, Server.answer, ha, if_true, ht, Server.fail]
          exact ⟨by simp, by simp [Server.abort, ha], by simp, h.nested,
            fun _ _ => ⟨⟨w, ms, true⟩, by simp [Server.abort, ht], hi, hm, by simp⟩⟩
      | false =>
        obtain rfl : ws = [] := by simpa using hw
        simpa [Connection.run_, (Server.statement_nil (h.closed rfl).1 ha).1] using h
    | overtaken =>
      cases opened with
      | true =>
        obtain ⟨⟨w, ms, aborted⟩, htx, hi, hm, hk⟩ := h.held rfl ha
        have ht : server.tx = some ⟨w, ms, aborted⟩ := htx
        cases aborted with
        | false =>
          simp only [Connection.run_, Server.statement, Server.answer, ha, if_true, ht]
          exact ⟨by simp, by simp, by simp, h.nested,
            fun _ _ => ⟨_, rfl, hi.trans (List.sublist_append_left w ws), hm, by simp⟩⟩
        | true =>
          simp only [Connection.run_, Server.statement, Server.answer, ha, if_true, ht, Server.fail]
          exact ⟨by simp, by simp [Server.abort, ha], by simp, h.nested,
            fun _ _ => ⟨⟨w, ms, true⟩, by simp [Server.abort, ht], hi, hm, hk⟩⟩
      | false =>
        obtain rfl : ws = [] := by simpa using hw
        simpa [Connection.run_, (Server.statement_nil (h.closed rfl).1 ha).2] using h

/-- A statement that goes through `_begin`, whichever way that one ends. -/
theorem Sound.begin_run {ws : List α} {r : Reply}
    {p : Connection α × Outcome} (h : Sound ⟨c, g⟩) (hr : r ≠ .cancelled)
    (hdone : c.begin_.2 = .done → p = c.begin_.1.run_ ws r)
    (hstop : c.begin_.2 ≠ .done → p = c.begin_) :
    Sound ⟨p.1, (if c.failed then g.restart else g).issue ws p.2⟩ := by
  obtain ⟨hs, hopen⟩ := h.begin_
  by_cases ho : c.begin_.2 = .done
  · rw [hdone ho]
    exact hs.run_ (hopen ho).2 (.inl (hopen ho).1) hr
  · rw [hstop ho, Work.issue, if_neg ho]
    exact hs

theorem Work.after_execute (g : Work α) (writes : Bool) (w : α) (r : Reply) (o : Outcome) :
    g.after (.execute writes w r) o = g.issue (if writes then [w] else []) o := by
  cases writes <;> cases o <;> simp [Work.after, Work.issue]

theorem Sound.execute {writes : Bool} {w : α} {r : Reply}
    (h : Sound ⟨c, g⟩) (hr : r ≠ .cancelled) :
    Sound (Session.step true ⟨c, g⟩ (.execute writes w r)) := by
  simp only [Session.step, Connection.apply, Op.begins, Bool.true_and, Work.after_execute]
  cases hb : writes || c.failed with
  | true =>
    have hg : (c.failed && true) = c.failed := Bool.and_true _
    rw [hg]
    simp only [Connection.execute, hb, if_true]
    refine h.begin_run hr ?_ ?_ <;> obtain ⟨c', o⟩ := c.begin_ <;> cases o <;> simp
  | false =>
    obtain ⟨rfl, hf⟩ := Bool.or_eq_false_iff.mp hb
    have hrun : Sound ⟨(c.run_ [] r).1, g.issue [] (c.run_ [] r).2⟩ := h.run_ hf (.inr rfl) hr
    simpa [Connection.execute, hf] using hrun

theorem Sound.executemany {rows : List α} {r : Reply}
    (h : Sound ⟨c, g⟩) (hr : r ≠ .cancelled) :
    Sound (Session.step true ⟨c, g⟩ (.executemany rows r)) := by
  cases hb : rows.isEmpty with
  | true =>
    obtain rfl : rows = [] := by simpa using hb
    simpa [Session.step, Connection.apply, Op.begins, Connection.executemany, Work.after] using h
  | false =>
    have hw : (g : Work α) → (o : Outcome) → g.after (.executemany rows r) o = g.issue rows o := by
      intro g o
      cases o <;> simp [Work.after, Work.issue]
    simp only [Session.step, Connection.apply, Op.begins, Bool.true_and, hw, hb, Bool.not_false,
      Bool.and_true]
    have hopen := h.begin_.2
    simp only [Connection.executemany, hb]
    refine h.begin_run hr ?_ ?_ <;> revert hopen <;> obtain ⟨⟨server, opened, failed⟩, o⟩ := c.begin_ <;>
      cases o <;> simp
    rintro rfl rfl
    rfl

theorem Sound.enter {r : Reply} (h : Sound ⟨c, g⟩) (hr : r ≠ .cancelled ∧ r ≠ .error) :
    Sound (Session.step true ⟨c, g⟩ (.enter r)) := by
  obtain ⟨hs, hopen⟩ := h.begin_
  simp only [Session.step, Connection.apply, Op.begins, Bool.true_and, Bool.and_true,
    Connection.enter]
  revert hs hopen
  generalize (if c.failed = true then g.restart else g) = g'
  obtain ⟨⟨server, opened, failed⟩, o⟩ := c.begin_
  intro hs hopen
  cases o with
  | pgError | otherError => exact hs
  | done =>
    obtain ⟨rfl, rfl⟩ : opened = true ∧ failed = false := hopen rfl
    cases ha : server.alive with
    | false => simpa [Server.SAVEPOINT, Server.answer, ha, Work.after] using hs
    | true =>
      obtain ⟨⟨w, ms, aborted⟩, htx, hi, hm, hk⟩ := hs.held rfl ha
      have ht : server.tx = some ⟨w, ms, aborted⟩ := htx
      have hsub := (List.pairwise_cons.mp hs.nested).1
      -- an aborted transaction stays as it is
      have hdead (o : Outcome) (ho : o ≠ .done) (haborted : aborted = true) :
          Sound ⟨⟨server.abort, true, false⟩, g'.after (.enter r) o⟩ := by
        subst haborted
        have hg : g'.after (.enter r) o = g' := by cases o <;> first | rfl | exact absurd rfl ho
        rw [hg]
        exact ⟨by simp, by simp [Server.abort, ha], by simp, hs.nested,
          fun _ _ => ⟨⟨w, ms, true⟩, by simp [Server.abort, ht], hi, hm, hk⟩⟩
      cases r with
      | cancelled => exact absurd rfl hr.1
      | error => exact absurd rfl hr.2
      | refused => simpa [Server.SAVEPOINT, Server.answer, ha, Work.after] using hs
      | lost =>
        simp only [Server.SAVEPOINT, Server.answer, ha, if_true]
        exact ⟨by simp, by simp [Server.drop], by simp, hs.nested, by simp [Server.drop]⟩
      | ok =>
        cases aborted with
        | true =>
          simp only [Server.SAVEPOINT, Server.answer, Server.marked, ha, if_true, ht, Server.fail]
          exact hdead _ nofun rfl
        | false =>
          simp only [Server.SAVEPOINT, Server.answer, Server.marked, ha, if_true, ht, Work.after]
          refine ⟨by simp, by simp, by simp, ?_, fun _ _ => ⟨_, rfl, hi, ?_, by simp⟩⟩
          · refine List.pairwise_cons.mpr ⟨fun b hb => ?_, hs.nested⟩
            rcases List.mem_cons.mp hb with rfl | hb
            · exact List.Sublist.refl _
            · exact hsub b hb
          · exact .inr ⟨w, [], ms, rfl, by simpa using hi, hm⟩
      | overtaken =>
        cases aborted with
        | true =>
          simp only [Server.SAVEPOINT, Server.answer, Server.marked, ha, if_true, ht, Server.fail]
          exact hdead _ nofun rfl
        | false =>
          simp only [Server.SAVEPOINT, Server.answer, Server.marked, ha, if_true, ht, Work.after]
          refine ⟨by simp, by simp, by simp, hs.nested, fun _ _ => ⟨_, rfl, hi, ?_, by simp⟩⟩
          exact @Aligned.outer α g'.issued g'.blocks [w] ms hm hsub (by simpa using hi)

variable {issued b : List α} {bs : List (List α)}

/-- Where nothing has changed, or the connection is lost, a unit drops its innermost block. -/
theorem Sound.abandon {c : Connection α}
    (h : Sound ⟨c, ⟨issued, b :: bs⟩⟩) : Sound ⟨c, ⟨b, bs⟩⟩ := by
  have hsub : b.Sublist issued := (List.pairwise_cons.mp h.nested).1 b List.mem_cons_self
  have hbs := (List.pairwise_cons.mp (List.pairwise_cons.mp h.nested).2).1
  refine ⟨h.failed_open, h.dead, fun ho => ?_, h.nested.tail, fun ho ha => ?_⟩
  · obtain ⟨htx, -, hb⟩ := h.closed ho
    exact ⟨htx, hb b (by simp), fun b' hb' => hb b' (by simp [hb'])⟩
  · obtain ⟨t, htx, hi, hm, hk⟩ := h.held ho ha
    refine ⟨t, htx, hsub.trans hi, ?_, fun hf hab => ?_⟩
    · rcases hm with hm | ⟨l, ls, rest, he, hl, hr⟩
      · exact .of_nil fun b' hb' => hm b' (by simp [hb'])
      · rw [he]
        exact hr.outer hbs hl
    · have hnil : issued = [] := hk hf hab
      exact List.sublist_nil.mp (hnil ▸ hsub)

variable {server : Server α} {opened failed : Bool}

/-- A command that the server refuses aborts the transaction, if it was not: then there is none of the unit's in it. -/
theorem Sound.refuse {g : Work α} (h : Sound ⟨⟨server, opened, failed⟩, g⟩)
    (hissued : ∀ t, server.tx = some t → t.aborted = false → failed = false → g.issued = []) :
    Sound ⟨⟨server.abort, opened, failed⟩, g⟩ := by
  refine ⟨h.failed_open, fun ha => ?_, fun ho => ?_, h.nested, fun ho ha => ?_⟩
  · have htx : server.tx = none := h.dead ha
    simp [Server.abort, htx]
  · obtain ⟨htx, hg⟩ := h.closed ho
    exact ⟨by simpa [Server.abort] using htx, hg⟩
  · obtain ⟨t, htx, hi, hm, hk⟩ := h.held ho ha
    have ht : server.tx = some t := htx
    refine ⟨{ t with aborted := true }, by simp [Server.abort, ht], hi, hm, fun hf _ => ?_⟩
    cases hab : t.aborted with
    | true => exact hk hf hab
    | false => exact hissued t ht hab hf

theorem Aligned.nil {b : List α} {bs : List (List α)} (h : Aligned (b :: bs) []) : b = [] := by
  rcases h with h | ⟨l, ls, rest, he, -⟩
  · exact h b List.mem_cons_self
  · exact nomatch he

/-- A transaction on the server is one that the connection has opened. -/
theorem Sound.opened_of_tx {t : Transaction α} (h : Sound ⟨c, g⟩)
    (ht : c.server.tx = some t) : c.opened = true := by
  by_contra ho
  have hn : c.server.tx = none := (h.closed (by simpa using ho)).1
  rw [hn] at ht
  exact nomatch ht

/-- A command that finds no savepoint is refused: then no block has begun with anything. -/
theorem Sound.refused_block
    (h : Sound ⟨⟨server, opened, failed⟩, ⟨issued, b :: bs⟩⟩) (ha : server.alive = true)
    (hnone : ∀ t, server.tx = some t → t.aborted = false → t.marks = []) :
    Sound ⟨⟨server.abort, opened, failed⟩, ⟨b, bs⟩⟩ := by
  refine h.abandon.refuse fun t ht hab _ => ?_
  obtain ⟨t', ht', -, hm, -⟩ := h.held (h.opened_of_tx ht) ha
  obtain rfl : t = t' := Option.some.inj (ht.symm.trans ht')
  rw [hnone t ht hab] at hm
  exact hm.nil

/-- A connection that drops loses the transaction, and the unit its innermost block. -/
theorem Sound.lost_block
    (h : Sound ⟨⟨server, opened, failed⟩, ⟨issued, b :: bs⟩⟩) : Sound ⟨⟨server.drop, opened, failed⟩, ⟨b, bs⟩⟩ :=
  ⟨h.failed_open, fun _ => rfl, fun ho => ⟨rfl, (h.abandon.closed ho).2⟩, h.nested.tail,
    fun _ ha => absurd ha (by simp [Server.drop])⟩

theorem Sound.leave {r : Reply} (h : Sound ⟨c, g⟩) (hblocks : g.blocks ≠ [])
    (hr : r ≠ .cancelled ∧ r ≠ .error) : Sound (Session.step true ⟨c, g⟩ (.leave r)) := by
  obtain ⟨issued, blocks⟩ := g
  obtain ⟨server, opened, failed⟩ := c
  obtain _ | ⟨b, bs⟩ := blocks
  · exact absurd rfl hblocks
  simp only [Session.step, Connection.apply, Op.begins, Bool.and_false, Connection.leave, Server.RELEASE, Server.answer]
  cases ha : server.alive with
  | false => exact h.abandon
  | true =>
    have hsub : b.Sublist issued := (List.pairwise_cons.mp h.nested).1 b List.mem_cons_self
    have hbs := (List.pairwise_cons.mp (List.pairwise_cons.mp h.nested).2).1
    cases r with
    | cancelled => exact absurd rfl hr.1
    | error => exact absurd rfl hr.2
    | refused => exact h.abandon
    | lost => exact h.lost_block
    | ok | overtaken =>
      rcases server.released_cases with ⟨w, m, ms, htx, he⟩ | ⟨hnone, he⟩
      · have hopen : opened = true := h.opened_of_tx htx
        obtain ⟨t, ht, hi, hm, -⟩ := h.held hopen ha
        obtain rfl : t = ⟨w, m :: ms, false⟩ := Option.some.inj (ht.symm.trans htx)
        simp only [if_true, he]
        refine ⟨h.failed_open, by simp [ha], by simp [hopen], h.nested.sublist (by simp [Work.after]),
          fun _ _ => ⟨_, rfl, ?_, hm.leave hbs, by simp⟩⟩
        -- an overtaken block leaves the unit with what it had before
        first | exact hi | exact hsub.trans hi
      · simp only [if_true, he]
        exact h.refused_block ha hnone

theorem Sound.leaveFailed {r : Reply} (h : Sound ⟨c, g⟩) (hblocks : g.blocks ≠ [])
    (hr : r ≠ .cancelled ∧ r ≠ .error) : Sound (Session.step true ⟨c, g⟩ (.leaveFailed r)) := by
  obtain ⟨issued, blocks⟩ := g
  obtain ⟨server, opened, failed⟩ := c
  obtain _ | ⟨b, bs⟩ := blocks
  · exact absurd rfl hblocks
  simp only [Session.step, Connection.apply, Op.begins, Bool.and_false, Connection.leaveFailed, Server.ROLLBACK_TO,
    Server.answer]
  cases ha : server.alive with
  | false => exact h.abandon
  | true =>
    have hbs := (List.pairwise_cons.mp (List.pairwise_cons.mp h.nested).2).1
    cases r with
    | cancelled => exact absurd rfl hr.1
    | error => exact absurd rfl hr.2
    | refused => exact h.abandon
    | lost => exact h.lost_block
    | ok | overtaken =>
      rcases server.returned_cases with ⟨w, m, ms, aborted, htx, he⟩ | ⟨hnone, he⟩
      · have hopen : opened = true := h.opened_of_tx htx
        obtain ⟨t, ht, -, hm, -⟩ := h.held hopen ha
        obtain rfl : t = ⟨w, m :: ms, aborted⟩ := Option.some.inj (ht.symm.trans htx)
        obtain ⟨hb, hal⟩ := hm.leaveFailed hbs
        simp only [if_true, he]
        refine ⟨?_, by simp [ha], by simp [hopen], h.nested.tail, fun _ _ => ⟨_, rfl, hb, hal, by simp⟩⟩
        first | exact h.failed_open | exact nofun
      · simp only [if_true, he]
        exact h.refused_block ha fun t ht _ => hnone t ht

/-- A commit, however it ends, leaves no transaction and no failure behind. -/
theorem Sound.commit (h : Sound ⟨c, g⟩) (r : CommitReply) :
    Sound (Session.step true ⟨c, g⟩ (.commit r)) := by
  have hroll := Server.ROLLBACK_tx h.dead
  have hcommit : c.server.COMMIT.1.tx = none := by
    unfold Server.COMMIT
    split
    · split
      · assumption
      · rfl
    · exact h.dead (by simpa using ‹¬ c.server.alive = true›)
  obtain ⟨server, opened, failed⟩ := c
  simp only [Session.step, Connection.apply, Op.begins, Bool.and_false, Work.after]
  cases failed with
  | true => exact Sound.fresh g hroll
  | false =>
    cases opened with
    | false => exact Sound.fresh g (h.closed rfl).1
    | true =>
      cases r with
      | ok | cancelled => exact Sound.fresh g hcommit
      | error => exact Sound.fresh g hroll
      | lost => exact Sound.fresh g rfl

theorem Sound.rollback (h : Sound ⟨c, g⟩) :
    Sound (Session.step true ⟨c, g⟩ .rollback) := by
  obtain ⟨server, opened, failed⟩ := c
  simp only [Session.step, Connection.apply, Op.begins, Bool.and_false, Work.after,
    Connection.rollback]
  cases opened with
  | true =>
    refine Sound.fresh g ?_
    split
    · exact Server.ROLLBACK_tx h.dead
    · exact h.dead (by simpa using ‹¬ server.alive = true›)
  | false =>
    obtain rfl : failed = false := by
      by_contra hf
      exact absurd (h.failed_open (by simpa using hf)) (by simp)
    exact Sound.fresh g (h.closed rfl).1

/-- One operation on the writer's connection keeps the unit of work sound. -/
theorem Sound.step {s : Session α} {op : Op α} (h : Sound s) (hu : s.Undisturbed op) :
    Sound (s.step true op) := by
  obtain ⟨c, g⟩ := s
  cases op with
  | begin => simpa [Session.step, Connection.apply, Op.begins, Work.after] using h.begin_.1
  | execute writes w r => exact h.execute hu.2
  | executemany rows r => exact h.executemany hu.2
  | enter r => exact h.enter hu.2
  | leave r => exact h.leave hu.1 hu.2
  | leaveFailed r => exact h.leaveFailed hu.1 hu.2
  | commit r => exact h.commit r
  | rollback => exact h.rollback
  | dropped =>
    have hw : Session.step true ⟨c, g⟩ .dropped = ⟨{ c with server := c.server.drop }, g⟩ := by
      simp [Session.step, Connection.apply, Op.begins, Work.after]
    rw [hw]
    exact ⟨h.failed_open, fun _ => rfl, fun ho => ⟨rfl, (h.closed ho).2⟩, h.nested,
      fun _ ha => absurd ha (by simp [Server.drop])⟩

/-- A sound unit is committed by a commit that returns. -/
theorem Sound.keeps {s : Session α} (h : Sound s) (r : CommitReply) : s.Keeps r := by
  obtain ⟨⟨server, opened, failed⟩, g⟩ := s
  intro hdone
  cases failed with
  | true => exact absurd hdone (by simp [Connection.commit])
  | false =>
    cases opened with
    | false =>
      refine ⟨[], by simp [Connection.commit], ?_⟩
      rw [show g.issued = [] from (h.closed rfl).2.1]
    | true =>
      obtain ⟨rfl, ha⟩ : r = .ok ∧ server.alive = true := by
        cases r <;> simp_all [Connection.commit, Server.COMMIT]
        by_contra ha
        simp [ha] at hdone
      obtain ⟨⟨w, ms, aborted⟩, htx, hi, -, hk⟩ := h.held rfl ha
      have ht : server.tx = some ⟨w, ms, aborted⟩ := htx
      cases aborted with
      | false => exact ⟨w, by simp [Connection.commit, Server.COMMIT, ha, ht], hi⟩
      | true =>
        have hnil : g.issued = [] := hk rfl rfl
        exact ⟨[], by simp [Connection.commit, Server.COMMIT, ha, ht], by simp [hnil]⟩

/-- Whatever fails, a commit that returns has committed every write its unit issued, in order; a
unit ends at a commit, a rollback or the logged rollback of a failed transaction. -/
theorem commit_keeps_unit (ops : List (Op α)) (r : CommitReply)
    (h : Meets (Session.step true) Session.Undisturbed {} ops) :
    (run (Session.step true) {} ops).Keeps r := by
  have hs : Sound (run (Session.step true) ({} : Session α) ops) :=
    run_invariant (fun _ _ hs hu => Sound.step hs hu) _ ops Sound.init h
  exact hs.keeps r

/-- A failed statement inside a block, caught around the block, costs the unit nothing else. -/
theorem commit_keeps_unit_after_failed_block :
    (run (Session.step true) {} [.execute true 1 .ok, .enter .ok, .execute true 2 .error, .leaveFailed .ok,
      .execute true 3 .ok]).Keeps CommitReply.ok :=
  commit_keeps_unit _ _ (by decide)

end NetCoreNoc.Store
