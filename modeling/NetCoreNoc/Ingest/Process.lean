import Mathlib
import NetCoreNoc.Runs
import NetCoreNoc.Ingest.Worker

/-! The main process's view of the ingest process (`ingest/process.py`): the reports it reads off the pipe
and the totals it keeps over the processes that it starts one after the other. -/
namespace NetCoreNoc.Ingest
variable {A : Type}

/-- Where the parent is with the process: its reader waits for messages, or has seen the pipe end. -/
inductive Reader where
  | reading
  /-- another process is to be started -/
  | restarting
  | ended
  deriving DecidableEq, Repr

/-- `IngestProcess`, with the pipes and the process itself. -/
structure IngestProcess (A : Type) where
  networks : Option (List (A → Bool)) := none
  /-- the last record the process made durable -/
  head : ℕ := 0
  spool : SpoolState := {}
  /-- what earlier incarnations counted -/
  base : Counters := {}
  /-- what the running one has reported -/
  child : Counters := {}
  restarts : ℕ := 0
  ready : Bool := false
  closing : Bool := false
  reader : Reader := .reading
  /-- from the process, and to it -/
  events : List Message := []
  control : List (Control A) := []
  worker : Option (Worker A)
  /-- how many datagrams were read so far, and before this process started -/
  arrived : ℕ := 0
  first : ℕ := 0

inductive IngestOp (A : Type) where
  /-- a step of the process -/
  | work (op : WorkerOp A)
  /-- the process reads its control pipe -/
  | control
  /-- the process ends: it is done, or it crashed or was killed -/
  | exit
  /-- the parent takes the next message, or finds the pipe at its end -/
  | read
  | exited
  /-- the next process starts, on a spool that holds so many records -/
  | respawn (head : ℕ)
  | set_networks (networks : Option (List (A → Bool)))
  | close

namespace IngestProcess
variable (p : IngestProcess A)

/-- `total`, the sums that `stats` and `spooled` give. -/
def total : Counters := p.base.add p.child

/-- A process that starts, with its first message. -/
def spawn (head : ℕ) : IngestProcess A :=
  { p with
    worker := some { networks := p.networks, head := head }
    events := [.ready head], control := [], ready := false, reader := .reading }

/-- `_written`, `_started` and `_counted`. -/
def handle : Message → IngestProcess A
  | .ready head => { p with head := max p.head head, ready := true }
  | .written head => { p with head := max p.head head }
  | .counted counters state => { p with child := counters, spool := state }

/-- `_exited`. -/
def exited : IngestProcess A :=
  if p.ready = false then { p with reader := .ended }
  else if p.closing then { p with reader := .ended }
  else { p with
    base := p.base.add p.child, child := {}, restarts := p.restarts + 1, reader := .restarting
    first := p.arrived }

def step (p : IngestProcess A) : IngestOp A → IngestProcess A
  | .work op => match p.worker with
    | some w => { p with
        worker := some (w.step p.arrived op), events := p.events ++ w.sends op, arrived := p.arrived + 1 }
    | none => p
  | .control => match p.worker, p.control with
    | some w, m :: rest => { p with worker := some (w.control m), control := rest }
    | _, _ => p
  | .exit => { p with worker := none }
  | .read => match p.events with
    | m :: rest => { p with events := rest }.handle m
    | [] => p
  | .exited => if p.worker.isNone && p.events.isEmpty && p.reader = .reading then p.exited else p
  | .respawn head =>
    if p.reader = .restarting then (if p.closing then { p with reader := .ended } else p.spawn head) else p
  | .set_networks networks => { p with networks := networks, control := p.control ++ [.allowlist networks] }
  | .close => { p with closing := true, control := p.control ++ [.stop] }

/-- Started on a spool that holds so many records. -/
def started (networks : Option (List (A → Bool))) (head : ℕ) : IngestProcess A :=
  spawn { networks := networks, worker := none } head

/-- When the process counts what is left in the outbox, nothing is. -/
def Emptied (p : IngestProcess A) : IngestOp A → Prop
  | .work .count => ∀ w ∈ p.worker, w.main = .waiting → w.outbox = []
  | _ => True

instance (p : IngestProcess A) (op : IngestOp A) : Decidable (p.Emptied op) := by
  unfold Emptied
  split <;> infer_instance

structure Sound (p : IngestProcess A) : Prop where
  order : p.first ≤ p.arrived
  base : p.base.Sound 0 p.first
  child : p.child.Sound p.first p.arrived
  events : ∀ c state, .counted c state ∈ p.events → c.Sound p.first p.arrived
  worker : ∀ w ∈ p.worker, w.Sound p.first p.arrived

variable {p}

theorem Sound.total (h : p.Sound) : p.total.Sound 0 p.arrived :=
  h.base.add h.child h.order (Nat.zero_le _)

theorem sound_spawn (h : p.Sound) (head : ℕ) : (p.spawn head).Sound := by
  refine ⟨h.order, h.base, h.child, fun c state hc => ?_, fun w hw => ?_⟩
  · cases List.mem_singleton.mp hc
  · cases hw
    exact ⟨.nil, List.nodup_nil, by simp, .nil, List.nodup_nil, by simp, fun _ => rfl, trivial⟩

theorem sound_started (networks : Option (List (A → Bool))) (head : ℕ) :
    (started networks head).Sound :=
  sound_spawn ⟨le_rfl, Counters.sound_empty, Counters.sound_empty, by simp, by simp⟩ head

theorem Sound.handle (h : p.Sound) {m : Message} {rest : List Message} (he : p.events = m :: rest) :
    ({ p with events := rest }.handle m).Sound := by
  have hrest : ∀ c state, .counted c state ∈ rest → c.Sound p.first p.arrived := fun c state hc =>
    h.events c state (he ▸ List.mem_cons_of_mem m hc)
  cases m with
  | ready head => exact ⟨h.order, h.base, h.child, hrest, h.worker⟩
  | written head => exact ⟨h.order, h.base, h.child, hrest, h.worker⟩
  | counted c state =>
    exact ⟨h.order, h.base, h.events c state (he ▸ List.mem_cons_self), hrest, h.worker⟩

theorem Sound.exited (h : p.Sound) (hw : p.worker = none) (he : p.events = []) : p.exited.Sound := by
  unfold IngestProcess.exited
  split
  · exact ⟨h.order, h.base, h.child, h.events, h.worker⟩
  split
  · exact ⟨h.order, h.base, h.child, h.events, h.worker⟩
  · refine ⟨le_rfl, h.total, Counters.sound_empty, fun c state hc => ?_, fun w hin => ?_⟩
    · rw [he] at hc
      exact absurd hc List.not_mem_nil
    · rw [hw] at hin
      exact absurd hin (by simp)

theorem Sound.step (h : p.Sound) (op : IngestOp A) : (p.step op).Sound := by
  cases op with
  | work op =>
    simp only [IngestProcess.step]
    split
    · rename_i w hw
      have hsound := h.worker w hw
      refine ⟨Nat.le_succ_of_le h.order, h.base, h.child.mono (Nat.le_succ _), fun c state hc => ?_, ?_⟩
      · rcases List.mem_append.mp hc with hc | hc
        · exact (h.events c state hc).mono (Nat.le_succ _)
        · rw [Worker.sends_counted hc]
          exact hsound.counters.mono (Nat.le_succ _)
      · intro w' hw'
        cases hw'
        exact hsound.step h.order op
    · exact h
  | control =>
    simp only [IngestProcess.step]
    split
    · rename_i w m rest hw _
      have hsound := h.worker w hw
      refine ⟨h.order, h.base, h.child, h.events, fun w' hw' => ?_⟩
      cases hw'
      cases m with
      | stop => exact { hsound with }
      | allowlist networks => exact { hsound with }
    · exact h
  | exit => exact ⟨h.order, h.base, h.child, h.events, by simp [IngestProcess.step]⟩
  | read =>
    simp only [IngestProcess.step]
    split
    · rename_i m rest he
      exact h.handle he
    · exact h
  | exited =>
    simp only [IngestProcess.step]
    split
    · rename_i hc
      simp only [Bool.and_eq_true, Option.isNone_iff_eq_none, List.isEmpty_iff, decide_eq_true_eq] at hc
      exact h.exited hc.1.1 hc.1.2
    · exact h
  | respawn head =>
    simp only [IngestProcess.step]
    split
    · split
      · exact ⟨h.order, h.base, h.child, h.events, h.worker⟩
      · exact sound_spawn h head
    · exact h
  | set_networks networks => exact ⟨h.order, h.base, h.child, h.events, h.worker⟩
  | close => exact ⟨h.order, h.base, h.child, h.events, h.worker⟩

theorem Sound.run (h : p.Sound) (ops : List (IngestOp A)) : (Runs.run IngestProcess.step p ops).Sound := by
  induction ops generalizing p with
  | nil => exact h
  | cons op ops ih => exact ih (h.step op)

/-- Nothing has been written off, in the process, on its way or in the totals. -/
structure Clean (p : IngestProcess A) : Prop where
  base : p.base.written_off = []
  child : p.child.written_off = []
  events : ∀ c state, .counted c state ∈ p.events → c.written_off = []
  worker : ∀ w ∈ p.worker, w.counters.written_off = []

theorem Clean.total (h : p.Clean) : p.total.written_off = [] := by
  show p.base.written_off ++ p.child.written_off = []
  rw [h.base, h.child, List.append_nil]

theorem clean_spawn (h : p.Clean) (head : ℕ) : (p.spawn head).Clean := by
  refine ⟨h.base, h.child, fun c state hc => ?_, fun w hw => ?_⟩
  · cases List.mem_singleton.mp hc
  · cases hw
    rfl

theorem Clean.step (h : p.Clean) {op : IngestOp A} (hg : p.Emptied op) : (p.step op).Clean := by
  cases op with
  | work op =>
    simp only [IngestProcess.step]
    split
    · rename_i w hw
      have hclean := h.worker w hw
      refine ⟨h.base, h.child, fun c state hc => ?_, fun w' hw' => ?_⟩
      · rcases List.mem_append.mp hc with hc | hc
        · exact h.events c state hc
        · rw [Worker.sends_counted hc]
          exact hclean
      · cases hw'
        rw [Worker.step_written_off _ _ fun hop => by subst hop; exact hg w hw]
        exact hclean
    · exact h
  | control =>
    simp only [IngestProcess.step]
    split
    · rename_i w m rest hw _
      refine ⟨h.base, h.child, h.events, fun w' hw' => ?_⟩
      cases hw'
      cases m with
      | stop => exact h.worker w hw
      | allowlist networks => exact h.worker w hw
    · exact h
  | exit => exact ⟨h.base, h.child, h.events, by simp [IngestProcess.step]⟩
  | read =>
    simp only [IngestProcess.step]
    split
    · rename_i m rest he
      have hrest : ∀ c state, .counted c state ∈ rest → c.written_off = [] := fun c state hc =>
        h.events c state (he ▸ List.mem_cons_of_mem m hc)
      cases m with
      | ready head => exact ⟨h.base, h.child, hrest, h.worker⟩
      | written head => exact ⟨h.base, h.child, hrest, h.worker⟩
      | counted c state => exact ⟨h.base, h.events c state (he ▸ List.mem_cons_self), hrest, h.worker⟩
    · exact h
  | exited =>
    simp only [IngestProcess.step]
    split
    · unfold IngestProcess.exited
      split
      · exact ⟨h.base, h.child, h.events, h.worker⟩
      split
      · exact ⟨h.base, h.child, h.events, h.worker⟩
      · exact ⟨h.total, rfl, h.events, h.worker⟩
    · exact h
  | respawn head =>
    simp only [IngestProcess.step]
    split
    · split
      · exact ⟨h.base, h.child, h.events, h.worker⟩
      · exact clean_spawn h head
    · exact h
  | set_networks networks => exact ⟨h.base, h.child, h.events, h.worker⟩
  | close => exact ⟨h.base, h.child, h.events, h.worker⟩

/-- Every run, over any number of processes. The numbers of the process account for each datagram once
where what its spool thread holds uncounted is what was written off, and the parent's totals count none
twice where none that was written off was spooled after all. So a run in which every shutdown finds the
outbox empty counts each datagram once, but for the moment between the spool thread's taking a group off
the outbox and its counting it. -/
theorem run_counted (networks : Option (List (A → Bool))) (head : ℕ) (ops : List (IngestOp A)) :
    let p := Runs.run step (started networks head) ops
    (∀ w ∈ p.worker, w.CountsOnce ↔ w.popped.Perm w.counters.written_off) ∧
    (p.total.NeverTwice ↔ ∀ d ∈ p.total.written_off, d ∉ p.total.spooled.of) ∧
    (Runs.Meets step Emptied (started networks head) ops →
      (∀ w ∈ p.worker, w.CountsOnce ↔ w.popped = []) ∧ p.total.NeverTwice) := by
  intro p
  have hsound : p.Sound := (sound_started networks head).run ops
  refine ⟨fun w hw => (hsound.worker w hw).countsOnce_iff, hsound.total.neverTwice_iff, fun hg => ?_⟩
  have hstart : (started networks head).Clean :=
    clean_spawn ⟨rfl, rfl, by simp, by simp⟩ head
  have hclean : p.Clean := Runs.run_invariant (fun _ _ h hg => h.step hg) _ ops hstart hg
  refine ⟨fun w hw => ?_, hsound.total.neverTwice_iff.mpr ?_⟩
  · rw [(hsound.worker w hw).countsOnce_iff, hclean.worker w hw, List.perm_nil]
  · rw [hclean.total]
    exact fun d hd => absurd hd List.not_mem_nil

/-- A process that spools one datagram and reports, ends, and is replaced by one that denies another and
is stopped. -/
theorem run_counted_restarted :
    let p := Runs.run step (started (A := Bool) (some [id]) 0) [
      .work (.receive (some true)), .read, .work .take, .work .append, .work .pop, .work .tally, .work .measure,
      .work .report, .read, .read, .exit, .exited, .respawn 1,
      .work (.receive (some false)), .read, .close, .control, .work .leave, .work .close, .work .take,
      .work .look, .work .count, .work .measure, .work .report, .read]
    p.restarts = 1 ∧ p.total.received.value = 2 ∧ p.total.denied.value = 1 ∧ p.total.spooled.value = 1 ∧
      (∀ w ∈ p.worker, w.CountsOnce) ∧ p.total.NeverTwice := by
  intro p
  have h := (run_counted (A := Bool) (some [id]) 0 [
      .work (.receive (some true)), .read, .work .take, .work .append, .work .pop, .work .tally, .work .measure,
      .work .report, .read, .read, .exit, .exited, .respawn 1,
      .work (.receive (some false)), .read, .close, .control, .work .leave, .work .close, .work .take,
      .work .look, .work .count, .work .measure, .work .report, .read]).2.2 (by decide +kernel)
  have hpopped : ∀ w ∈ p.worker, w.popped = [] := by decide +kernel
  refine ⟨by decide +kernel, by decide +kernel, by decide +kernel, by decide +kernel, fun w hw => ?_, h.2⟩
  exact (h.1 w hw).mpr (hpopped w hw)

/-- Two shutdowns. The spool thread finds the outbox empty and the last datagram read, with one that came
between the two: it is counted as dropped, and is in the outbox. And the spool is slow: a datagram in the
spool thread's hands is counted as dropped when the time is out, and as spooled when the write returns. -/
theorem late_datagram_counted_twice :
    ¬ (∀ ops : List (IngestOp Unit), ∀ w ∈ (Runs.run step (started none 0) ops).worker, w.CountsOnce) ∧
    ¬ (∀ ops : List (IngestOp Unit), (Runs.run step (started none 0) ops).total.NeverTwice) := by
  constructor
  · exact fun h => absurd (h [.close, .control, .work .leave, .work .take, .work (.receive (some ())),
      .work .close, .work .look, .work .count]) (by decide +kernel)
  · exact fun h => absurd (h [.work (.receive (some ())), .work .take, .close, .control, .work .leave,
      .work .close, .work .count, .work .append, .work .pop, .work .tally, .work .measure, .work .report,
      .read, .read, .read]) (by decide +kernel)

end IngestProcess
end NetCoreNoc.Ingest
