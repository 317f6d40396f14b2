import Mathlib

/-! The ingest process (`ingest/worker.py`): the thread that reads the socket and the spool thread, and
the datagrams that each of its counters has counted. -/
namespace NetCoreNoc.Ingest

/-- Records per group commit. -/
def BATCH_MAX : ℕ := 1024
def FLUSH_S : ℚ := 1 / 200
/-- Raw datagrams held in memory while the spool cannot take them. -/
def OUTBOX_MAX : ℕ := 100000
def RECV_BURST : ℕ := 1024
/-- The longest pause before a refused write is tried again. -/
def RETRY_MAX_S : ℚ := 1

/-- A counter, and the datagrams it has counted, by the order of their arrival. -/
structure Count where
  value : ℕ := 0
  of : List ℕ := []
  exact : value = of.length := by rfl

def Count.add (c : Count) (ds : List ℕ) : Count :=
  { value := c.value + ds.length, of := c.of ++ ds, exact := by rw [c.exact, List.length_append] }

@[simp] theorem Count.add_of (c : Count) (ds : List ℕ) : (c.add ds).of = c.of ++ ds := rfl

/-- `Counters`. Those dropped are of two kinds, which the code does not tell apart: refused by a full
outbox, and written off when the process stopped. -/
structure Counters where
  received : Count := {}
  denied : Count := {}
  spooled : Count := {}
  dropped : Count := {}
  refused : List ℕ := []
  written_off : List ℕ := []

/-- What `_report` says of the spool. -/
structure SpoolState where
  head : ℕ := 0
  waiting : ℕ := 0
  error : String := ""
  refusals : ℕ := 0
  deriving DecidableEq, Repr

/-- Where the thread that reads the socket is in `run`. -/
inductive Main where
  | serving
  /-- in `_report`, the spool's state taken and the counters not yet read -/
  | reporting (state : SpoolState)
  /-- the last `_drain`, which reads so many datagrams more at most -/
  | draining (left : ℕ)
  /-- waits for the spool thread -/
  | waiting
  /-- has counted what was left -/
  | counted
  | last_report (state : SpoolState)
  | done
  deriving DecidableEq, Repr

/-- Where the spool thread is in `_spool_loop`. -/
inductive Spooler where
  | idle
  /-- has found the outbox empty, and not yet looked whether the last datagram has been read -/
  | empty
  /-- in `append`, with a copy of the head of the outbox -/
  | writing (group : List ℕ)
  /-- the group is durable, and so many of it are off the outbox -/
  | popping (group : List ℕ) (k : ℕ)
  | ended
  deriving DecidableEq, Repr

/-- No datagram is read any more, and what was left has been counted. -/
def Main.late : Main → Bool
  | .counted | .last_report _ | .done => true
  | _ => false

variable {A : Type}

/-- `allowed`: none set admits every source; one that is no address is in no network. -/
def allowed (networks : Option (List (A → Bool))) (source : Option A) : Bool :=
  match networks, source with
  | none, _ => true
  | some _, none => false
  | some nets, some address => nets.any fun net => net address

structure Worker (A : Type) where
  networks : Option (List (A → Bool))
  counters : Counters := {}
  outbox : List ℕ := []
  error : String := ""
  refusals : ℕ := 0
  /-- `writer.head` -/
  head : ℕ
  stopping : Bool := false
  closed : Bool := false
  pause : ℚ := FLUSH_S
  main : Main := .serving
  spooler : Spooler := .idle

/-- What crosses to the parent. -/
inductive Message where
  | ready (head : ℕ)
  | written (head : ℕ)
  | counted (counters : Counters) (state : SpoolState)

/-- What the parent sends. -/
inductive Control (A : Type) where
  | stop
  | allowlist (networks : Option (List (A → Bool)))

inductive WorkerOp (A : Type) where
  /-- a datagram is read from the socket -/
  | receive (source : Option A)
  /-- the parent is gone: the control pipe ended, or a message could not be sent -/
  | orphaned
  /-- `_report` takes the state of the spool, then reads the counters and sends -/
  | measure
  | report
  /-- out of the loop, for the last `_drain` -/
  | leave
  | close
  /-- `spooled.wait` returns, the thread having ended or the time being out, and what is left counts as
  dropped -/
  | count
  /-- the spool thread copies a group off the outbox, or finds it empty -/
  | take
  | look
  | append
  /-- `append` raises `SpoolFullError` or `OSError` -/
  | refuse (error : String)
  /-- `append` raises anything else, which ends the thread -/
  | raise
  | pop
  | tally

namespace Worker
variable (w : Worker A)

def receive (d : ℕ) (source : Option A) : Worker A :=
  let c := { w.counters with received := w.counters.received.add [d] }
  if allowed w.networks source = false then { w with counters := { c with denied := c.denied.add [d] } }
  else if OUTBOX_MAX ≤ w.outbox.length then
    { w with counters := { c with dropped := c.dropped.add [d], refused := c.refused ++ [d] } }
  else { w with counters := c, outbox := w.outbox ++ [d] }

def control : Control A → Worker A
  | .stop => { w with stopping := true }
  | .allowlist networks => { w with networks := networks }

/-- `counters.dropped += len(self.outbox)`. -/
def write_off : Worker A :=
  { w with
    counters := { w.counters with
      dropped := w.counters.dropped.add w.outbox
      written_off := w.counters.written_off ++ w.outbox }
    main := .counted }

def state : SpoolState := ⟨w.head, w.outbox.length, w.error, w.refusals⟩

/-- What the spool thread does when the spool refuses a group. -/
def refused (error : String) : Worker A :=
  if w.closed && w.stopping && decide (RETRY_MAX_S ≤ w.pause) then
    { w with refusals := w.refusals + 1, error := error, spooler := .ended }
  else { w with
    refusals := w.refusals + 1, error := error, pause := min RETRY_MAX_S (w.pause * 2), spooler := .idle }

/-- What it does when the group is off the outbox. -/
def tally (group : List ℕ) : Worker A :=
  { w with
    counters := { w.counters with spooled := w.counters.spooled.add group }
    error := "", pause := FLUSH_S, spooler := .idle }

/-- One step of either thread; an operation that is not its next one changes nothing. The datagram that a
step reads has the number `d`. -/
def step (d : ℕ) : WorkerOp A → Worker A
  | .receive source => match w.main with
    | .serving => w.receive d source
    | .draining (left + 1) => { w.receive d source with main := .draining left }
    | _ => w
  | .orphaned => { w with stopping := true }
  | .measure => match w.main with
    | .serving => { w with main := .reporting w.state }
    | .counted => { w with main := .last_report w.state }
    | _ => w
  | .report => match w.main with
    | .reporting _ => { w with main := .serving }
    | .last_report _ => { w with main := .done }
    | _ => w
  | .leave => match w.main with
    | .serving => if w.stopping then { w with main := .draining RECV_BURST } else w
    | _ => w
  | .close => match w.main with
    | .draining _ => { w with closed := true, main := .waiting }
    | _ => w
  | .count => match w.main with
    | .waiting => w.write_off
    | _ => w
  | .take => match w.spooler with
    | .idle =>
      if w.outbox = [] then { w with spooler := .empty }
      else { w with spooler := .writing (w.outbox.take BATCH_MAX) }
    | _ => w
  | .look => match w.spooler with
    | .empty => { w with spooler := if w.closed then .ended else .idle }
    | _ => w
  | .append => match w.spooler with
    | .writing group => { w with head := w.head + group.length, spooler := .popping group 0 }
    | _ => w
  | .refuse error => match w.spooler with
    | .writing _ => w.refused error
    | _ => w
  | .raise => match w.spooler with
    | .writing _ => { w with spooler := .ended }
    | _ => w
  | .pop => match w.spooler with
    | .popping group k =>
      if k < group.length then { w with outbox := w.outbox.tail, spooler := .popping group (k + 1) } else w
    | _ => w
  | .tally => match w.spooler with
    | .popping group k => if k = group.length then w.tally group else w
    | _ => w

/-- What the step sends to the parent. -/
def sends : WorkerOp A → List Message
  | .report => match w.main with
    | .reporting state | .last_report state => [.counted w.counters state]
    | _ => []
  | .tally => match w.spooler with
    | .popping group k => if k = group.length then [.written w.head] else []
    | _ => []
  | _ => []

/-- What the spool thread has taken off the outbox and not yet counted. -/
def popped : List ℕ :=
  match w.spooler with
  | .popping group k => group.take k
  | _ => []

/-- The four numbers account for what was received, and each datagram is in one of them. -/
def CountsOnce : Prop :=
  w.counters.received.value = w.counters.denied.value + w.counters.dropped.value +
    w.counters.spooled.value + w.outbox.length ∧
  ∀ d ∈ w.counters.received.of, (w.counters.denied.of ++ w.counters.dropped.of ++
    w.counters.spooled.of ++ w.outbox).count d = 1

instance : Decidable w.CountsOnce := inferInstanceAs (Decidable (_ ∧ _))

end Worker

/-- The datagrams that the counters know of. -/
def Counters.seen (c : Counters) : List ℕ :=
  c.received.of ++ (c.denied.of ++ c.refused ++ c.spooled.of) ++ c.written_off

/-- What holds of any counters of one worker, or of several: no counter has a datagram twice, and two of
them share one only where it was written off. -/
structure Counters.Sound (c : Counters) (first arrived : ℕ) : Prop where
  received : c.received.of.Nodup
  apart : (c.denied.of ++ c.refused ++ c.spooled.of).Nodup
  dropped : c.dropped.of.Perm (c.refused ++ c.written_off)
  off_nodup : c.written_off.Nodup
  off_apart : ∀ d ∈ c.written_off, d ∉ c.denied.of ++ c.refused
  range : ∀ d ∈ c.seen, first ≤ d ∧ d < arrived

/-- No datagram is counted twice. -/
def Counters.NeverTwice (c : Counters) : Prop :=
  c.received.of.Nodup ∧ (c.denied.of ++ c.dropped.of ++ c.spooled.of).Nodup

instance (c : Counters) : Decidable c.NeverTwice := inferInstanceAs (Decidable (_ ∧ _))

/-- `_base[name] += _child[name]`, for each counter. -/
def Counters.add (c c' : Counters) : Counters where
  received := c.received.add c'.received.of
  denied := c.denied.add c'.denied.of
  spooled := c.spooled.add c'.spooled.of
  dropped := c.dropped.add c'.dropped.of
  refused := c.refused ++ c'.refused
  written_off := c.written_off ++ c'.written_off

namespace Counters
variable {c c' : Counters} {first middle arrived later : ℕ}

theorem sound_empty : ({} : Counters).Sound first arrived where
  received := List.nodup_nil
  apart := List.nodup_nil
  dropped := .nil
  off_nodup := List.nodup_nil
  off_apart := by simp
  range := by simp [seen]

theorem Sound.mono (h : c.Sound first arrived) (hle : arrived ≤ later) : c.Sound first later :=
  { h with range := fun d hd => ⟨(h.range d hd).1, (h.range d hd).2.trans_le hle⟩ }

/-- The counters of workers that ran one after the other. -/
theorem Sound.add (h : c.Sound first middle) (h' : c'.Sound middle arrived) (hle : middle ≤ arrived)
    (hfirst : first ≤ middle) : (c.add c').Sound first arrived := by
  have hout : ∀ d ∈ c.seen, d ∉ c'.seen := by
    intro d hd hd'
    have h1 := (h.range d hd).2
    have h2 := (h'.range d hd').1
    omega
  refine ⟨?_, ?_, ?_, ?_, ?_, ?_⟩
  · refine List.nodup_append'.mpr ⟨h.received, h'.received, fun d hd hd' => hout d ?_ ?_⟩
    · exact List.mem_append_left _ (List.mem_append_left _ hd)
    · exact List.mem_append_left _ (List.mem_append_left _ hd')
  · have hperm : ((c.add c').denied.of ++ (c.add c').refused ++ (c.add c').spooled.of).Perm
        ((c.denied.of ++ c.refused ++ c.spooled.of) ++ (c'.denied.of ++ c'.refused ++ c'.spooled.of)) := by
      refine List.perm_iff_count.mpr fun d => ?_
      simp only [Counters.add, Count.add_of, List.count_append]
      omega
    refine hperm.nodup_iff.mpr (List.nodup_append'.mpr ⟨h.apart, h'.apart, fun d hd hd' => hout d ?_ ?_⟩)
    · exact List.mem_append_left _ (List.mem_append_right _ hd)
    · exact List.mem_append_left _ (List.mem_append_right _ hd')
  · refine List.perm_iff_count.mpr fun d => ?_
    have h1 := h.dropped.count_eq d
    have h2 := h'.dropped.count_eq d
    simp only [Counters.add, Count.add_of, List.count_append] at h1 h2 ⊢
    omega
  · refine List.nodup_append'.mpr ⟨h.off_nodup, h'.off_nodup, fun d hd hd' => hout d ?_ ?_⟩
    · exact List.mem_append_right _ hd
    · exact List.mem_append_right _ hd'
  · intro d hd
    have h1 := h.off_apart d
    have h2 := h'.off_apart d
    have h3 := hout d
    simp only [seen, Counters.add, Count.add_of, List.mem_append] at hd h1 h2 h3 ⊢
    tauto
  · intro d hd
    have hseen : d ∈ c.seen ∨ d ∈ c'.seen := by
      simp only [seen, Counters.add, Count.add_of, List.mem_append] at hd ⊢
      tauto
    rcases hseen with hin | hin
    · have := h.range d hin
      omega
    · have := h'.range d hin
      omega

/-- A datagram is counted twice only where one that was written off was spooled after all. -/
theorem Sound.neverTwice_iff (h : c.Sound first arrived) :
    c.NeverTwice ↔ ∀ d ∈ c.written_off, d ∉ c.spooled.of := by
  have hperm : (c.denied.of ++ c.dropped.of ++ c.spooled.of).Perm
      (c.denied.of ++ c.refused ++ c.spooled.of ++ c.written_off) := by
    refine List.perm_iff_count.mpr fun d => ?_
    have := h.dropped.count_eq d
    simp only [List.count_append] at this ⊢
    omega
  have hoff := h.off_apart
  simp only [List.mem_append, not_or] at hoff
  rw [NeverTwice, hperm.nodup_iff, List.nodup_append']
  constructor
  · rintro ⟨-, -, -, hdis⟩ d hd hs
    exact hdis (List.mem_append_right _ hs) hd
  · intro hs
    refine ⟨h.received, h.apart, h.off_nodup, fun d hd hd' => ?_⟩
    simp only [List.mem_append] at hd
    have := hoff d hd'
    have := hs d hd'
    tauto

end Counters

/-- A group that the spool thread has in hand is the head of the outbox. -/
def Spooler.Holds (outbox : List ℕ) : Spooler → Prop
  | .writing group => group <+: outbox
  | .popping group k => k ≤ group.length ∧ group.drop k <+: outbox
  | _ => True

namespace Worker
variable {w : Worker A} {first arrived : ℕ}

/-- The datagrams that entered the outbox, in order. -/
def queued (w : Worker A) : List ℕ := w.counters.spooled.of ++ w.popped ++ w.outbox

structure Sound (w : Worker A) (first arrived : ℕ) : Prop where
  parted : w.counters.received.of.Perm (w.counters.denied.of ++ w.counters.refused ++ w.queued)
  nodup : w.counters.received.of.Nodup
  range : ∀ d ∈ w.counters.received.of, first ≤ d ∧ d < arrived
  dropped : w.counters.dropped.of.Perm (w.counters.refused ++ w.counters.written_off)
  off_nodup : w.counters.written_off.Nodup
  off_queued : ∀ d ∈ w.counters.written_off, d ∈ w.queued
  off_late : w.main.late = false → w.counters.written_off = []
  holds : w.spooler.Holds w.outbox

theorem Sound.counters (h : w.Sound first arrived) : w.counters.Sound first arrived := by
  have hnodup : (w.counters.denied.of ++ w.counters.refused ++ w.queued).Nodup :=
    h.parted.nodup_iff.mp h.nodup
  have hsub : (w.counters.denied.of ++ w.counters.refused ++ w.counters.spooled.of).Sublist
      (w.counters.denied.of ++ w.counters.refused ++ w.queued) := by
    refine (List.Sublist.refl _).append ?_
    rw [queued, List.append_assoc]
    exact List.sublist_append_left _ _
  refine ⟨h.nodup, hnodup.sublist hsub, h.dropped, h.off_nodup, fun d hd hin => ?_, fun d hd => ?_⟩
  · exact (List.nodup_append'.mp hnodup).2.2 hin (h.off_queued d hd)
  · apply h.range d
    rcases List.mem_append.mp hd with hd | hd
    · rcases List.mem_append.mp hd with hd | hd
      · exact hd
      · exact h.parted.mem_iff.mpr (hsub.subset hd)
    · exact h.parted.mem_iff.mpr (List.mem_append_right _ (h.off_queued d hd))

/-- The numbers account for each datagram once where what the spool thread has in hand, uncounted, is what
was written off. -/
theorem Sound.countsOnce_iff (h : w.Sound first arrived) :
    w.CountsOnce ↔ w.popped.Perm w.counters.written_off := by
  have hcount (d : ℕ) : w.counters.received.of.count d = w.counters.denied.of.count d +
      w.counters.refused.count d + w.counters.spooled.of.count d + w.popped.count d + w.outbox.count d := by
    rw [h.parted.count_eq d, queued]
    simp only [List.count_append]
    omega
  have hdropped (d : ℕ) : w.counters.dropped.of.count d =
      w.counters.refused.count d + w.counters.written_off.count d := by
    rw [h.dropped.count_eq d, List.count_append]
  constructor
  · rintro ⟨-, honce⟩
    refine List.perm_iff_count.mpr fun d => ?_
    by_cases hd : d ∈ w.counters.received.of
    · have h1 := List.count_eq_one_of_mem h.nodup hd
      have h2 := honce d hd
      simp only [List.count_append, hdropped] at h2
      rw [hcount] at h1
      omega
    · have h0 := List.count_eq_zero_of_not_mem hd
      have hoff : w.counters.written_off.count d = 0 :=
        List.count_eq_zero_of_not_mem fun hin =>
          hd (h.parted.mem_iff.mpr (List.mem_append_right _ (h.off_queued d hin)))
      rw [hcount] at h0
      omega
  · intro hp
    refine ⟨?_, fun d hd => ?_⟩
    · have h1 := h.parted.length_eq
      have h2 := h.dropped.length_eq
      have h3 := hp.length_eq
      simp only [queued, List.length_append] at h1 h2
      rw [Count.exact, Count.exact, Count.exact, Count.exact]
      omega
    · have h1 := List.count_eq_one_of_mem h.nodup hd
      have h2 := hp.count_eq d
      rw [hcount] at h1
      simp only [List.count_append, hdropped]
      omega

@[simp] theorem receive_main (w : Worker A) (d : ℕ) (source : Option A) :
    (w.receive d source).main = w.main := by
  unfold receive
  split
  · rfl
  · split <;> rfl

/-- A step that reads no datagram and drops none, and moves what is queued between the outbox, the spool
thread's hands and the spool. -/
theorem Sound.keep (h : w.Sound first arrived) {w' : Worker A}
    (hc : w'.counters = { w.counters with spooled := w'.counters.spooled }) (hq : w'.queued = w.queued)
    (hm : w'.main.late = false → w.main.late = false) (hh : w'.spooler.Holds w'.outbox) :
    w'.Sound first (arrived + 1) := by
  refine ⟨?_, ?_, fun d hd => ?_, ?_, ?_, ?_, fun hl => ?_, hh⟩
  · rw [hc, hq]
    exact h.parted
  · rw [hc]
    exact h.nodup
  · rw [hc] at hd
    have := h.range d hd
    omega
  · rw [hc]
    exact h.dropped
  · rw [hc]
    exact h.off_nodup
  · rw [hc, hq]
    exact h.off_queued
  · rw [hc]
    exact h.off_late (hm hl)

theorem Sound.next (h : w.Sound first arrived) : w.Sound first (arrived + 1) :=
  h.keep rfl rfl id h.holds

theorem Spooler.Holds.append {outbox : List ℕ} {sp : Spooler} (h : sp.Holds outbox) (ds : List ℕ) :
    sp.Holds (outbox ++ ds) := by
  cases sp with
  | writing group => exact List.IsPrefix.trans h (List.prefix_append _ _)
  | popping group k => exact ⟨h.1, h.2.trans (List.prefix_append _ _)⟩
  | _ => trivial

/-- A datagram that is read is counted once, whichever way it goes. -/
theorem Sound.receive (h : w.Sound first arrived) (hfirst : first ≤ arrived) (hearly : w.main.late = false)
    (source : Option A) : (w.receive arrived source).Sound first (arrived + 1) := by
  have hoff := h.off_late hearly
  have hnew : arrived ∉ w.counters.received.of := fun hin => absurd (h.range _ hin).2 (lt_irrefl _)
  have hnodup : (w.counters.received.of ++ [arrived]).Nodup := by
    refine List.nodup_append'.mpr ⟨h.nodup, List.nodup_singleton _, ?_⟩
    simpa [List.disjoint_singleton] using hnew
  have hrange : ∀ d ∈ w.counters.received.of ++ [arrived], first ≤ d ∧ d < arrived + 1 := by
    intro d hd
    rcases List.mem_append.mp hd with hd | hd
    · have := h.range d hd
      omega
    · obtain rfl := List.mem_singleton.mp hd
      omega
  have hcount (d : ℕ) := h.parted.count_eq d
  simp only [queued, List.count_append] at hcount
  have hdropped := h.dropped
  rw [hoff, List.append_nil] at hdropped
  unfold Worker.receive
  split
  · refine ⟨List.perm_iff_count.mpr fun d => ?_, hnodup, hrange, h.dropped, h.off_nodup, ?_, h.off_late, h.holds⟩
    · have := hcount d
      simp only [queued, popped, Count.add_of, List.count_append] at this ⊢
      omega
    · simp [hoff]
  split
  · refine ⟨List.perm_iff_count.mpr fun d => ?_, hnodup, hrange, ?_, ?_, ?_, fun _ => hoff, h.holds⟩
    · have := hcount d
      simp only [queued, popped, Count.add_of, List.count_append] at this ⊢
      omega
    · simpa [hoff] using hdropped.append_right [arrived]
    · simp [hoff]
    · simp [hoff]
  · refine ⟨List.perm_iff_count.mpr fun d => ?_, hnodup, hrange, h.dropped, h.off_nodup, ?_, h.off_late,
      Spooler.Holds.append h.holds _⟩
    · have := hcount d
      simp only [queued, popped, Count.add_of, List.count_append] at this ⊢
      omega
    · simp [hoff]

theorem Sound.write_off (h : w.Sound first arrived) (hearly : w.main.late = false) :
    w.write_off.Sound first (arrived + 1) := by
  have hoff := h.off_late hearly
  have hnodup : w.queued.Nodup := (List.nodup_append'.mp (h.parted.nodup_iff.mp h.nodup)).2.1
  have hqueued : w.write_off.queued = w.queued := rfl
  have hwritten : w.write_off.counters.written_off = w.outbox := by
    show w.counters.written_off ++ w.outbox = w.outbox
    rw [hoff, List.nil_append]
  refine ⟨h.parted, h.nodup, fun d hd => ?_, ?_, ?_, fun d hd => ?_, fun hl => ?_, h.holds⟩
  · have := h.range d hd
    omega
  · rw [hwritten]
    have hdropped := h.dropped
    rw [hoff, List.append_nil] at hdropped
    exact hdropped.append_right w.outbox
  · rw [hwritten]
    exact (List.nodup_append'.mp hnodup).2.1
  · rw [hwritten] at hd
    rw [hqueued]
    exact List.mem_append_right _ hd
  · exact absurd hl (by simp [Worker.write_off, Main.late])

/-- One datagram less in the outbox is one more in the spool thread's hands. -/
private theorem pop_queued {group outbox : List ℕ} {k : ℕ} (hk : k < group.length)
    (hpre : group.drop k <+: outbox) : group.take (k + 1) ++ outbox.tail = group.take k ++ outbox ∧
      group.drop (k + 1) <+: outbox.tail := by
  obtain ⟨rest, rfl⟩ := hpre
  rw [List.drop_eq_getElem_cons hk, List.cons_append, List.tail_cons]
  refine ⟨?_, List.prefix_append _ _⟩
  rw [← List.take_append_getElem hk, List.append_assoc]
  rfl

theorem Sound.step (h : w.Sound first arrived) (hfirst : first ≤ arrived) (op : WorkerOp A) :
    (w.step arrived op).Sound first (arrived + 1) := by
  cases op with
  | receive source =>
    simp only [Worker.step]
    split
    · rename_i hm
      exact h.receive hfirst (by rw [hm]; rfl) source
    · rename_i hm
      have hr := h.receive hfirst (by rw [hm]; rfl) source
      exact { hr with off_late := fun _ => hr.off_late (by rw [receive_main, hm]; rfl) }
    · exact h.next
  | orphaned => exact h.keep rfl rfl id h.holds
  | measure =>
    simp only [Worker.step]
    split
    · rename_i hm
      exact h.keep rfl rfl (fun _ => by rw [hm]; rfl) h.holds
    · rename_i hm
      exact h.keep rfl rfl (fun hl => absurd hl (by simp [Main.late])) h.holds
    · exact h.next
  | report =>
    simp only [Worker.step]
    split
    · rename_i hm
      exact h.keep rfl rfl (fun _ => by rw [hm]; rfl) h.holds
    · rename_i hm
      exact h.keep rfl rfl (fun hl => absurd hl (by simp [Main.late])) h.holds
    · exact h.next
  | leave =>
    simp only [Worker.step]
    split
    · rename_i hm
      split
      · exact h.keep rfl rfl (fun _ => by rw [hm]; rfl) h.holds
      · exact h.next
    · exact h.next
  | close =>
    simp only [Worker.step]
    split
    · rename_i hm
      exact h.keep rfl rfl (fun _ => by rw [hm]; rfl) h.holds
    · exact h.next
  | count =>
    simp only [Worker.step]
    split
    · rename_i hm
      exact h.write_off (by rw [hm]; rfl)
    · exact h.next
  | take =>
    simp only [Worker.step]
    split
    · rename_i hs
      have hpop : w.popped = [] := by rw [popped, hs]
      split
      · exact h.keep rfl (by simp [queued, popped, hs]) id trivial
      · exact h.keep rfl (by simp [queued, popped, hs]) id (List.take_prefix _ _)
    · exact h.next
  | look =>
    simp only [Worker.step]
    split
    · rename_i hs
      refine h.keep rfl ?_ id ?_
      · rcases Bool.eq_false_or_eq_true w.closed with hc | hc <;> simp [queued, popped, hs, hc]
      · rcases Bool.eq_false_or_eq_true w.closed with hc | hc <;> simp [hc, Spooler.Holds]
    · exact h.next
  | append =>
    simp only [Worker.step]
    split
    · rename_i group hs
      have hh := h.holds
      rw [hs] at hh
      exact h.keep rfl (by simp [queued, popped, hs]) id ⟨Nat.zero_le _, hh⟩
    · exact h.next
  | refuse error =>
    simp only [Worker.step]
    split
    · rename_i group hs
      unfold Worker.refused
      split
      · exact h.keep rfl (by simp [queued, popped, hs]) id trivial
      · exact h.keep rfl (by simp [queued, popped, hs]) id trivial
    · exact h.next
  | raise =>
    simp only [Worker.step]
    split
    · rename_i group hs
      exact h.keep rfl (by simp [queued, popped, hs]) id trivial
    · exact h.next
  | pop =>
    simp only [Worker.step]
    split
    · rename_i group k hs
      split
      · rename_i hk
        have hh := h.holds
        rw [hs] at hh
        obtain ⟨hq, hpre⟩ := pop_queued hk hh.2
        exact h.keep rfl (by simp only [queued, popped, hs, List.append_assoc, hq]) id ⟨hk, hpre⟩
      · exact h.next
    · exact h.next
  | tally =>
    simp only [Worker.step]
    split
    · rename_i group k hs
      split
      · rename_i hk
        subst hk
        exact h.keep rfl (by simp [queued, popped, hs, Worker.tally]) id trivial
      · exact h.next
    · exact h.next

/-- The counters that a step sends are those of the process. -/
theorem sends_counted {op : WorkerOp A} {c : Counters} {state : SpoolState}
    (hm : .counted c state ∈ w.sends op) : c = w.counters := by
  unfold sends at hm
  split at hm
  · split at hm
    · cases List.mem_singleton.mp hm
      rfl
    · cases List.mem_singleton.mp hm
      rfl
    · exact absurd hm List.not_mem_nil
  · split at hm
    · split at hm
      · cases List.mem_singleton.mp hm
      · exact absurd hm List.not_mem_nil
    · exact absurd hm List.not_mem_nil
  · exact absurd hm List.not_mem_nil

/-- Only the shutdown's count writes datagrams off. -/
theorem step_written_off (d : ℕ) (op : WorkerOp A) (h : op = .count → w.main = .waiting → w.outbox = []) :
    (w.step d op).counters.written_off = w.counters.written_off := by
  have hreceive (source : Option A) : (w.receive d source).counters.written_off = w.counters.written_off := by
    unfold receive
    split
    · rfl
    · split <;> rfl
  have hrefused (error : String) : (w.refused error).counters = w.counters := by
    unfold refused
    split <;> rfl
  cases op with
  | count =>
    simp only [step]
    split
    · rename_i hm
      show w.counters.written_off ++ w.outbox = _
      rw [h rfl hm, List.append_nil]
    · rfl
  | receive source =>
    simp only [step]
    split
    · exact hreceive source
    · exact hreceive source
    · rfl
  | refuse error =>
    simp only [step]
    split
    · rw [hrefused]
    · rfl
  | orphaned => rfl
  | leave | take | pop | tally =>
    simp only [step]
    split
    · split <;> rfl
    · rfl
  | measure | report | close | look | append | raise =>
    simp only [step]
    split <;> rfl

end Worker
end NetCoreNoc.Ingest
