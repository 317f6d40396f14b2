import Mathlib
import NetCoreNoc.Runs
import NetCoreNoc.Spool.Follow

/-! The writer and a reader over one directory, in any interleaving: what the reader returns is what
was appended, in order and once each. The disk is undamaged: bytes leave a file only when the writer
cuts a failed write back or a start cuts a torn tail. -/
namespace NetCoreNoc.Spool
open Runs Parsing

/-- The spool at work. `log` is every payload appended, from sequence number 1 on: those whose append
returned, and those that an append left whole on disk when its process ended. `owed` is the group of
a failed append, until it is appended. -/
structure System where
  disk : Disk := {}
  writer : Writer := .down
  reader : SpoolReader := { after := 0 }
  log : List Bytes := []
  owed : List Bytes := []
  returned : List Record := []
  deriving DecidableEq

inductive Event where
  | writer (op : WriterOp)
  | call (limit : Nat)
  | turn
  deriving DecidableEq

/-- Of two prefixes of one list, the one that goes further. -/
def longer (a b : List Bytes) : List Bytes := if b.length ≤ a.length then a else b

theorem longer_spec {a b g : List Bytes} (ha : a <+: g) (hb : b <+: g) :
    a <+: longer a b ∧ b <+: longer a b ∧ longer a b <+: g := by
  unfold longer
  split
  · exact ⟨List.prefix_rfl, List.prefix_of_prefix_length_le hb ha ‹_›, ha⟩
  · exact ⟨List.prefix_of_prefix_length_le ha hb (by omega), List.prefix_rfl, hb⟩

namespace System

/-- The payloads of the group under way that stand whole on disk. -/
def whole (s : System) : List Bytes :=
  match s.writer with
  | .writing w group _ => group.take (parse ((s.disk.bytes w.ino).drop w.size)).1.length
  | _ => []

/-- The group under way, or the one that a failed append still owes. -/
def pending (s : System) : List Bytes :=
  match s.writer with
  | .writing _ group _ => group
  | _ => s.owed

/-- What an operation of the writer does to `log` and `owed`. -/
def account (s : System) (op : WriterOp) : List Bytes × List Bytes :=
  match s.writer with
  | .writing _ group view =>
    match op with
    | .sync => if view = [] then (s.log ++ group, []) else (s.log, s.owed)
    | .fail => (s.log, group)
    | .crash => (s.log ++ s.whole, s.owed.drop s.whole.length)
    | _ => (s.log, s.owed)
  | _ => (s.log, s.owed)

def step (s : System) : Event → System
  | .writer op =>
    { s with disk := (s.writer.step s.disk op).1, writer := (s.writer.step s.disk op).2,
             log := (s.account op).1, owed := (s.account op).2 }
  | .call limit => { s with reader := s.reader.call limit }
  | .turn =>
    let r := s.reader.turn s.disk
    match r.phase with
    | .idle => { s with reader := { r with out := [] }, returned := s.returned ++ r.out }
    | _ => { s with reader := r }

/-- Payloads are within the bound, and a failed append is retried with the same prefix. -/
def Retries (s : System) : Event → Prop
  | .writer (.append group) => s.owed <+: group ∧ ∀ p ∈ group, p.length ≤ MAX_PAYLOAD
  | _ => True

instance (s : System) (e : Event) : Decidable (s.Retries e) := by
  unfold Retries
  split <;> infer_instance

/-- Every payload a reader may have seen whole. -/
def seen (s : System) : List Bytes := s.log ++ longer s.owed s.whole

def view (s : System) (live : Option Nat) : View := ⟨s.log, s.log ++ s.owed, s.seen, live⟩

end System

@[simp] theorem Disk.write_dir (d : Disk) (i : Nat) (b : Bytes) : (d.write i b).dir = d.dir := rfl
@[simp] theorem Disk.write_files_length (d : Disk) (i : Nat) (b : Bytes) :
    (d.write i b).files.length = d.files.length := List.length_set

theorem Disk.bytes_write {d : Disk} {i : Nat} (h : i < d.files.length) (b : Bytes) :
    (d.write i b).bytes i = b := by
  simp [Disk.write, Disk.bytes, h]

theorem Disk.bytes_write_ne {d : Disk} {i j : Nat} (h : i ≠ j) (b : Bytes) :
    (d.write i b).bytes j = d.bytes j := by
  simp [Disk.write, Disk.bytes, h]

/-- Where the writer's newest file stands: `done` are its bytes after the records appended. -/
def Tail (s : System) (i : Nat) (done : Bytes) : Prop :=
  match s.writer with
  | .down => front done = .short ∧
      (done <+: frames (number (s.log.length + 1) s.owed) ∨
        frames (number (s.log.length + 1) s.owed) <+: done)
  | .opening _ _ => False
  | .idle w => done = [] ∧ w.ino = i ∧ w.size = (s.disk.bytes i).length
  | .writing w group view => w.ino = i ∧ w.size + done.length = (s.disk.bytes i).length ∧
      done ++ view = frames (number (s.log.length + 1) group)

variable {s : System}

theorem tail_down {i : Nat} {done : Bytes} (hs : s.writer = .down) :
    Tail s i done ↔ front done = .short ∧
      (done <+: frames (number (s.log.length + 1) s.owed) ∨
        frames (number (s.log.length + 1) s.owed) <+: done) := by
  rw [Tail, hs]

variable {w : SpoolWriter}

theorem tail_idle {i : Nat} {done : Bytes} (hs : s.writer = .idle w) :
    Tail s i done ↔ done = [] ∧ w.ino = i ∧ w.size = (s.disk.bytes i).length := by
  rw [Tail, hs]

variable {w : SpoolWriter} {group : List Bytes} {view : Bytes}

theorem tail_writing {i : Nat}
    {done : Bytes} (hs : s.writer = .writing w group view) :
    Tail s i done ↔ w.ino = i ∧ w.size + done.length = (s.disk.bytes i).length ∧
      done ++ view = frames (number (s.log.length + 1) group) := by
  rw [Tail, hs]

/-- The writer and its directory, between any two steps. -/
structure Works (s : System) (live : Option Nat) : Prop where
  writable : Writable (s.log ++ s.pending)
  owed_pending : s.owed <+: s.pending
  sorted : s.disk.dir.Pairwise fun a b => a.1 < b.1
  inodes : s.disk.dir.Pairwise fun a b => a.2 ≠ b.2
  named : ∀ e ∈ s.disk.dir, 1 ≤ e.1 ∧ e.1 ≤ s.log.length + 1 ∧ e.2 < s.disk.files.length
  oldest : ∀ e l, s.disk.dir = e :: l → e.1 = 1
  empty : s.disk.dir = [] → s.log = []
  final : ∀ e ∈ s.disk.dir, live ≠ some e.2 →
    s.disk.bytes e.2 = frames (span s.log (e.1 - 1) (next s.disk (s.view live) ⟨e.2, 0, e.1⟩ - 1))
  newest : ∀ i, live = some i → ∃ l f, s.disk.dir = l ++ [(f, i)]
  tail : ∀ f i, live = some i → (f, i) ∈ s.disk.dir → ∃ done,
    s.disk.bytes i = frames (span s.log (f - 1) s.log.length) ++ done ∧ Tail s i done
  numbered : match s.writer with
    | .down => True
    | .opening w _ => live = none ∧ w.nextSeq = s.log.length + 1 ∧
        ∀ e ∈ s.disk.dir, e.1 ≤ s.log.length
    | .idle w | .writing w _ _ => live = some w.ino ∧ w.nextSeq = s.log.length + 1

theorem number_span (ps qs : List Bytes) :
    number (ps.length + 1) qs = span (ps ++ qs) ps.length (ps ++ qs).length := by
  rw [span, List.take_length, List.drop_left]

theorem frames_span_append {ps qs : List Bytes} {a : Nat} (ha : a ≤ ps.length) :
    frames (span (ps ++ qs) a (ps ++ qs).length) =
      frames (span ps a ps.length) ++ frames (number (ps.length + 1) qs) := by
  rw [number_span, span_append (b := ps.length) ha (by simp), frames_append,
    span_of_mono (List.prefix_append ps qs) le_rfl]

theorem frames_span_mono {ps qs : List Bytes} (h : ps <+: qs) (a : Nat) :
    frames (span ps a ps.length) <+: frames (span qs a qs.length) := by
  obtain ⟨rs, rfl⟩ := h
  rcases Nat.le_total a ps.length with ha | ha
  · rw [frames_span_append ha]
    exact List.prefix_append _ _
  · have hn : span ps a ps.length = [] := List.eq_nil_of_length_eq_zero (by rw [span_length le_rfl]; omega)
    rw [hn]
    exact List.nil_prefix

theorem System.whole_le (s : System) : s.whole <+: s.pending := by
  unfold System.whole System.pending
  cases s.writer with
  | writing w group view => exact List.take_prefix _ _
  | _ => exact List.nil_prefix

theorem System.seen_of_whole_nil (h : s.whole = []) : s.seen = s.log ++ s.owed := by
  unfold System.seen longer
  rw [h, if_pos (show ([] : List Bytes).length ≤ s.owed.length from Nat.zero_le _)]

namespace Works
variable {s : System} {live : Option Nat}

theorem seen_spec (h : Works s live) :
    s.log ++ s.owed <+: s.seen ∧ s.log ++ s.whole <+: s.seen ∧ s.seen <+: s.log ++ s.pending := by
  obtain ⟨h1, h2, h3⟩ := longer_spec h.owed_pending s.whole_le
  exact ⟨(List.prefix_append_right_inj _).mpr h1, (List.prefix_append_right_inj _).mpr h2,
    (List.prefix_append_right_inj _).mpr h3⟩

/-- During an append the file ends in the whole records of its group and a torn one. -/
theorem torn (h : Works s live) {i : Nat}
    {base done : Bytes} (hw : s.writer = .writing w group view) (ht : Tail s i done)
    (hb : s.disk.bytes i = base ++ done) :
    ∃ t, done = frames (number (s.log.length + 1) s.whole) ++ t ∧ front t = .short ∧
      t <+: frames (number (s.log.length + 1 + s.whole.length) (group.drop s.whole.length)) := by
  unfold Tail at ht
  rw [hw] at ht
  obtain ⟨rfl, hsize, hview⟩ := ht
  have hfits : ∀ r ∈ number (s.log.length + 1) group, Fits r := by
    have hwr := h.writable.of_span s.log.length (s.log ++ s.pending).length
    rwa [← number_span, System.pending, hw] at hwr
  obtain ⟨n, t, hd, ht, hp⟩ := Coding.prefix_encodes (C := records) hfits ⟨view, hview⟩
  have hdone : (s.disk.bytes w.ino).drop w.size = done := by
    have hlen : base.length = w.size := by
      have hl := congrArg List.length hb
      rw [List.length_append] at hl
      omega
    rw [hb, ← hlen, List.drop_left]
  have hd' : done = frames ((number (s.log.length + 1) group).take n) ++ t := hd
  have hparse : parse done = ((number (s.log.length + 1) group).take n, t, false) := by
    rw [hd', parse_frames (fun r hr => hfits r (List.mem_of_mem_take hr)) ht]
  have hwhole : s.whole = group.take n := by
    simp only [System.whole, hw, hdone, hparse, List.length_take, number_length]
    rw [← List.take_eq_take_min]
  refine ⟨t, by rw [hwhole, ← number_take, hd'], ht, ?_⟩
  have hdrop : group.drop s.whole.length = group.drop n := by
    rw [hwhole, List.length_take]
    rcases Nat.le_total n group.length with hn | hn
    · rw [Nat.min_eq_left hn]
    · rw [Nat.min_eq_right hn, List.drop_length, List.drop_eq_nil_of_le hn]
  rcases Nat.le_total n group.length with hn | hn
  · have hl : s.whole.length = n := by rw [hwhole, List.length_take, Nat.min_eq_left hn]
    rw [hl, ← number_drop]
    exact hp
  · have hnil : (number (s.log.length + 1) group).drop n = [] :=
      List.drop_eq_nil_of_le (by simpa using hn)
    rw [hnil] at hp
    rw [show t = [] from List.prefix_nil.mp hp]
    exact List.nil_prefix

theorem fits_whole (h : Works s live) : ∀ r ∈ number (s.log.length + 1) s.whole, Fits r := by
  have h1 : Writable (s.log ++ s.whole) :=
    h.writable.mono ((List.prefix_append_right_inj _).mpr s.whole_le)
  have h2 := h1.of_span s.log.length (s.log ++ s.whole).length
  rwa [← number_span] at h2

theorem low (h : Works s live) {f i : Nat} (he : (f, i) ∈ s.disk.dir) : f - 1 ≤ s.log.length := by
  have hf : f ≤ s.log.length + 1 := (h.named _ he).2.1
  omega

theorem writing (h : Works s live)
    (hs : s.writer = .writing w group view) :
    live = some w.ino ∧ w.nextSeq = s.log.length + 1 ∧ s.pending = group := by
  have hn := h.numbered
  rw [hs] at hn
  exact ⟨hn.1, hn.2, by rw [System.pending, hs]⟩

/-- A reader can rely on the directory. -/
theorem kept (h : Works s live) : Kept s.disk (s.view live) where
  writable := h.writable.mono h.seen_spec.2.2
  log_promised := List.prefix_append _ _
  promised_seen := h.seen_spec.1
  sorted := h.sorted
  inodes := h.inodes
  named := h.named
  oldest := h.oldest
  empty := h.empty
  final := h.final
  newest := h.newest
  growing f i hl he := by
    obtain ⟨done, hb, ht⟩ := h.tail f i hl he
    have hf' := h.low he
    have hlog : s.log <+: s.seen := (List.prefix_append _ _).trans h.seen_spec.1
    have hspan : span s.log (f - 1) s.log.length = span s.seen (f - 1) s.log.length :=
      span_of_mono hlog le_rfl
    have hprom : frames (span (s.log ++ s.owed) (f - 1) (s.log ++ s.owed).length) = _ :=
      frames_span_append hf'
    cases hw : s.writer with
    | opening w starting => rw [Tail, hw] at ht; exact ht.elim
    | idle w =>
      rw [Tail, hw] at ht
      rw [ht.1] at hb
      refine ⟨s.log.length, [], _, le_rfl, hlog.length_le, hb.trans (by rw [hspan]; rfl), rfl, ?_, List.prefix_rfl⟩
      change _ <+: frames (span (s.log ++ s.owed) (f - 1) (s.log ++ s.owed).length)
      rw [hprom, hb, List.append_nil]
      exact List.prefix_append _ _
    | down =>
      rw [Tail, hw] at ht
      obtain ⟨hs, ht⟩ := ht
      have hp : frames (span (s.log ++ s.owed) (f - 1) (s.log ++ s.owed).length) <+:
          frames (span s.log (f - 1) s.log.length) ++ (frames (number (s.log.length + 1) s.owed)) :=
        hprom ▸ List.prefix_rfl
      rcases ht with ht | ht
      · exact ⟨s.log.length, done, _, le_rfl, hlog.length_le, hb.trans (by rw [hspan]; rfl), hs,
          hb ▸ (List.prefix_append_right_inj _).mpr ht, hp⟩
      · exact ⟨s.log.length, done, _, le_rfl, hlog.length_le, hb.trans (by rw [hspan]; rfl), hs, List.prefix_rfl,
          hb ▸ hp.trans ((List.prefix_append_right_inj _).mpr ht)⟩
    | writing w group view =>
      obtain ⟨t, hd, hs, -⟩ := h.torn hw ht hb
      have hpend := (h.writing hw).2.2
      have hq := h.seen_spec.2.1
      refine ⟨(s.log ++ s.whole).length, t, frames (span (s.log ++ group) (f - 1) (s.log ++ group).length),
        by simp [System.view], hq.length_le, ?_, hs, ?_, ?_⟩
      · change _ = frames (span s.seen (f - 1) (s.log ++ s.whole).length) ++ t
        rw [← span_of_mono hq le_rfl, frames_span_append hf', hb, hd, List.append_assoc]
      · rw [Tail, hw] at ht
        rw [frames_span_append hf', hb, ← ht.2.2, ← List.append_assoc]
        exact List.prefix_append _ _
      · have howed := h.owed_pending
        rw [hpend] at howed
        exact frames_span_mono ((List.prefix_append_right_inj _).mpr howed) _

/-- What is next after a listed segment does not hang on anything but the listing. -/
theorem next_congr {d : Disk} (v v' : View) (h : v.log.length = v'.log.length) (hd : Handle) :
    next d v hd = next d v' hd := by
  simp only [next, h]

/-- A step that changes nothing but the writer's own state. -/
theorem relabel {s' : System} (h : Works s live) (hd : s'.disk = s.disk) (hl : s'.log = s.log)
    (ho : s'.owed = s.owed) (hw : Writable (s.log ++ s'.pending)) (hop : s.owed <+: s'.pending)
    (ht : ∀ i done, live = some i → Tail s i done → Tail s' i done)
    (hn : match s'.writer with
      | .down => True
      | .opening w _ => live = none ∧ w.nextSeq = s.log.length + 1 ∧
          ∀ e ∈ s.disk.dir, e.1 ≤ s.log.length
      | .idle w | .writing w _ _ => live = some w.ino ∧ w.nextSeq = s.log.length + 1) :
    Works s' live where
  writable := by rw [hl]; exact hw
  owed_pending := by rw [ho]; exact hop
  sorted := by rw [hd]; exact h.sorted
  inodes := by rw [hd]; exact h.inodes
  named := by rw [hd, hl]; exact h.named
  oldest := by rw [hd]; exact h.oldest
  empty := by rw [hd, hl]; exact h.empty
  final e he hne := by
    rw [hd] at he
    rw [hd, hl, h.final e he hne, next_congr (s'.view live) (s.view live)]
    simp [System.view, hl]
  newest := by rw [hd]; exact h.newest
  tail f i hli he := by
    rw [hd] at he
    obtain ⟨done, hb, hdone⟩ := h.tail f i hli he
    exact ⟨done, by rw [hd, hl]; exact hb, ht i done hli hdone⟩
  numbered := by rw [hd, hl]; exact hn

end Works

/-- The spool in step: a writer that keeps its directory, and a reader behind it. -/
def Steady (s : System) : Prop :=
  ∃ live, Works s live ∧ Reads s.disk (s.view live) s.reader (s.returned ++ s.reader.out)

variable {s s' : System}

variable {live : Option Nat}

theorem Reads.relabel {got : List Record}
    (hr : Reads s.disk (s.view live) s.reader got) (hd : s'.disk = s.disk)
    (hl : s'.log = s.log) (ho : s'.owed = s.owed) (hw : s'.whole = s.whole) (hre : s'.reader = s.reader) :
    Reads s'.disk (s'.view live) s'.reader got := by
  have hv : s'.view live = s.view live := by simp only [System.view, System.seen, hl, ho, hw]
  rw [hd, hv, hre]
  exact hr

/-- Only the writer's own state changes, and it takes no part of a group for written. -/
theorem Steady.relabel (h : Steady s)
    (hd : s'.disk = s.disk) (hl : s'.log = s.log) (ho : s'.owed = s.owed) (hr : s'.reader = s.reader)
    (hret : s'.returned = s.returned) (hwh : s'.whole = s.whole)
    (hw : ∀ live, Works s live → Works s' live) : Steady s' := by
  obtain ⟨live, hk, hre⟩ := h
  refine ⟨live, hw live hk, ?_⟩
  rw [hret, show s'.reader.out = s.reader.out by rw [hr]]
  exact hre.relabel hd hl ho hwh hr

theorem whole_of_idle (hs : s.writer = .idle w) : s.whole = [] := by
  rw [System.whole, hs]

theorem whole_of_writing
    (hs : s.writer = .writing w group view) :
    s.whole = group.take (parse ((s.disk.bytes w.ino).drop w.size)).1.length := by
  rw [System.whole, hs]

theorem pending_of_idle (hs : s.writer = .idle w) :
    s.pending = s.owed := by
  rw [System.pending, hs]

theorem Steady.refreshUsage (h : Steady s) (hs : s.writer = .idle w) :
    Steady (s.step (.writer .refreshUsage)) := by
  have he : s.step (.writer .refreshUsage) =
      { s with writer := .idle { w with used := s.disk.usage } } := by
    simp [System.step, Writer.step, System.account, hs]
  rw [he]
  refine h.relabel rfl rfl rfl rfl rfl (by simp [System.whole, hs]) fun live hw => ?_
  have hn := hw.numbered
  rw [hs] at hn
  have hwr := hw.writable
  rw [pending_of_idle hs] at hwr
  refine hw.relabel rfl rfl rfl hwr List.prefix_rfl (fun i done _ ht => ?_) hn
  simpa [Tail, hs] using ht

/-- An append begins with what a failed one owes, and has nothing on disk. -/
theorem Steady.append (h : Steady s) (hs : s.writer = .idle w)
    {group : List Bytes} (hg : s.Retries (.writer (.append group))) :
    Steady (s.step (.writer (.append group))) := by
  obtain ⟨howed, hsize⟩ := hg
  by_cases hfull : w.used ≥ w.maxBytes
  · have he : s.step (.writer (.append group)) = s := by
      obtain ⟨disk, writer, reader, log, owed, returned⟩ := s
      obtain rfl : writer = .idle w := hs
      simp [System.step, Writer.step, System.account, hfull]
    rw [he]
    exact h
  by_cases hpk : Packs w.nextSeq group
  · have he : s.step (.writer (.append group)) =
        { s with writer := .writing w group (frames (number w.nextSeq group)) } := by
      simp [System.step, Writer.step, System.account, hs, hfull, hpk]
    have hdrop : ∀ live, Works s live → (s.disk.bytes w.ino).drop w.size = [] := by
      intro live hw
      have hn := hw.numbered
      rw [hs] at hn
      obtain ⟨l, f, hd⟩ := hw.newest _ hn.1
      obtain ⟨done, -, ht⟩ := hw.tail f _ hn.1 (by rw [hd]; simp)
      rw [Tail, hs] at ht
      rw [ht.2.2, List.drop_length]
    rw [he]
    obtain ⟨live₀, hw₀, -⟩ := id h
    have hwh : ({ s with writer := .writing w group (frames (number w.nextSeq group)) } : System).whole =
        s.whole := by
      rw [whole_of_idle hs, whole_of_writing rfl]
      simp only [hdrop live₀ hw₀]
      rfl
    refine h.relabel rfl rfl rfl rfl rfl hwh fun live hw => ?_
    have hn := hw.numbered
    rw [hs] at hn
    refine hw.relabel rfl rfl rfl ?_ howed (fun i done hli ht => ?_) hn
    · intro r hr
      have hp : ({ s with writer := .writing w group (frames (number w.nextSeq group)) } : System).pending =
          group := rfl
      rw [hp, number_append, List.mem_append] at hr
      rcases hr with hr | hr
      · exact (hw.writable.mono (List.prefix_append _ _)) r hr
      · obtain ⟨h1, h2⟩ := mem_number hr
        have hlt := hpk.1
        exact ⟨by omega, hsize _ h2⟩
    · rw [Tail, hs] at ht
      obtain ⟨rfl, rfl, hsz⟩ := ht
      exact ⟨rfl, by simpa using hsz, by rw [hn.2]; rfl⟩
  · have he : s.step (.writer (.append group)) = s := by
      obtain ⟨disk, writer, reader, log, owed, returned⟩ := s
      obtain rfl : writer = .idle w := hs
      simp [System.step, Writer.step, System.account, hfull, hpk]
    rw [he]
    exact h

/-- Nothing happens but to the writer, the file that may grow, and the log it grows by. -/
structure Grows (s s' : System) (i : Nat) : Prop where
  dir : s'.disk.dir = s.disk.dir
  files : s'.disk.files.length = s.disk.files.length
  other : ∀ j, j ≠ i → s'.disk.bytes j = s.disk.bytes j
  log : s.log <+: s'.log
  reader : s'.reader = s.reader
  returned : s'.returned = s.returned

theorem Grows.next {i : Nat} (hg : Grows s s' i)
    {h : Handle} (hl : SpoolReader.later s.disk h ≠ []) :
    next s'.disk (s'.view live) h = next s.disk (s.view live) h := by
  have he : SpoolReader.later s'.disk h = SpoolReader.later s.disk h := by
    simp only [SpoolReader.later, hg.dir]
  unfold Spool.next
  rw [he]
  split
  · exact absurd ‹_› hl
  · rfl

theorem Works.advance {i : Nat} (h : Works s (some i)) (hg : Grows s s' i)
    (hw : Writable (s'.log ++ s'.pending)) (hop : s'.owed <+: s'.pending)
    (ht : ∀ f, (f, i) ∈ s.disk.dir → ∃ done,
      s'.disk.bytes i = frames (span s'.log (f - 1) s'.log.length) ++ done ∧ Tail s' i done)
    (hn : match s'.writer with
      | .down => True
      | .opening _ _ => False
      | .idle w | .writing w _ _ => w.ino = i ∧ w.nextSeq = s'.log.length + 1) :
    Works s' (some i) where
  writable := hw
  owed_pending := hop
  sorted := by rw [hg.dir]; exact h.sorted
  inodes := by rw [hg.dir]; exact h.inodes
  named e he := by
    rw [hg.dir] at he
    obtain ⟨h1, h2, h3⟩ := h.named e he
    exact ⟨h1, h2.trans (Nat.succ_le_succ hg.log.length_le), by rw [hg.files]; exact h3⟩
  oldest := by rw [hg.dir]; exact h.oldest
  empty he := by
    obtain ⟨l, f, hd⟩ := h.newest i rfl
    rw [hg.dir, hd] at he
    exact absurd he (by simp)
  final e he hne := by
    rw [hg.dir] at he
    have hei : e.2 ≠ i := fun hei => hne (by rw [hei])
    have hlater : SpoolReader.later s.disk ⟨e.2, 0, e.1⟩ ≠ [] := fun hn =>
      hei (h.kept.live_of_later_nil he hn rfl)
    have hle : Spool.next s.disk (s.view (some i)) ⟨e.2, 0, e.1⟩ ≤ s.log.length + 1 := h.kept.next_le _
    rw [hg.next hlater, hg.other _ hei, h.final e he hne, span_of_mono hg.log (by omega)]
  newest := by rw [hg.dir]; exact h.newest
  tail f j hj he := by
    obtain rfl := Option.some.inj hj
    exact ht f (hg.dir ▸ he)
  numbered := by
    revert hn
    cases s'.writer with
    | down => exact id
    | opening => exact False.elim
    | idle w | writing w => exact fun ⟨hi, hn⟩ => ⟨by rw [hi], hn⟩

theorem Steady.advance {i : Nat}
    (hr : Reads s.disk (s.view (some i)) s.reader (s.returned ++ s.reader.out)) (hg : Grows s s' i)
    (hw : Works s' (some i)) (hseen : s.seen <+: s'.seen)
    (hgot : ∀ f, (f, i) ∈ s.disk.dir → ∀ b,
      b <+: s.disk.bytes i ∨ b <+: frames (span (s.log ++ s.owed) (f - 1) (s.log ++ s.owed).length) →
      b <+: s'.disk.bytes i ∨
        b <+: frames (span (s'.log ++ s'.owed) (f - 1) (s'.log ++ s'.owed).length)) :
    Steady s' := by
  refine ⟨some i, hw, ?_⟩
  rw [hg.reader, hg.returned]
  refine hr.view hseen fun h m hf => ?_
  refine hf.view hr.after_le hg.log hseen hg.files.ge (fun hl => ⟨hl, fun hd => ?_⟩) fun hl => ?_
  · obtain rfl : i = h.ino := Option.some.inj hl
    exact ⟨hg.dir ▸ hd, hgot _ hd⟩
  · have hlater : SpoolReader.later s.disk h ≠ [] := fun hn =>
      absurd ((hf.final hl).1 hn) (by simp [System.view])
    have hi : h.ino ≠ i := fun hi => hl (by rw [hi]; rfl)
    refine ⟨hl, hg.other _ hi, hg.next hlater, fun hn => absurd ?_ hlater⟩
    rw [← hn]
    simp only [SpoolReader.later, hg.dir]

/-- More of the group reaches the file. -/
theorem Steady.write
    (h : Steady s) (hs : s.writer = .writing w group view) (n : Nat) :
    Steady (s.step (.writer (.write n))) := by
  obtain ⟨live, hw, hr⟩ := h
  obtain ⟨rfl, hseq, hpend⟩ := hw.writing hs
  obtain ⟨l, f₀, hd⟩ := hw.newest _ rfl
  have hlt : w.ino < s.disk.files.length := (hw.named (f₀, w.ino) (by rw [hd]; simp)).2.2
  have he : s.step (.writer (.write n)) =
      { s with disk := s.disk.write w.ino (s.disk.bytes w.ino ++ view.take n),
               writer := .writing w group (view.drop n) } := by
    simp [System.step, Writer.step, System.account, hs]
  obtain ⟨s', hs'⟩ : ∃ s', s' = s.step (.writer (.write n)) := ⟨_, rfl⟩
  rw [← hs']
  rw [he] at hs'
  have hwr' : s'.writer = .writing w group (view.drop n) := by rw [hs']
  have hlog : s'.log = s.log := by rw [hs']
  have howed : s'.owed = s.owed := by rw [hs']
  have hbytes : s'.disk.bytes w.ino = s.disk.bytes w.ino ++ view.take n := by
    rw [hs']
    exact Disk.bytes_write hlt _
  have hp : s'.pending = s.pending := by rw [System.pending, hwr', hpend]
  have hg : Grows s s' w.ino := by
    rw [hs']
    exact ⟨rfl, by simp, fun j hj => Disk.bytes_write_ne hj.symm _, List.prefix_rfl, rfl, rfl⟩
  have htail : ∀ f, (f, w.ino) ∈ s.disk.dir → ∀ done,
      s.disk.bytes w.ino = frames (span s.log (f - 1) s.log.length) ++ done → Tail s w.ino done →
      s'.disk.bytes w.ino = frames (span s'.log (f - 1) s'.log.length) ++ (done ++ view.take n) ∧
        Tail s' w.ino (done ++ view.take n) := by
    intro f hf done hb ht
    rw [Tail, hs] at ht
    refine ⟨by rw [hbytes, hb, hlog, List.append_assoc], ?_⟩
    rw [tail_writing hwr', hlog, hbytes]
    refine ⟨rfl, by simp only [List.length_append]; omega, ?_⟩
    rw [List.append_assoc, List.take_append_drop]
    exact ht.2.2
  have hw' : Works s' (some w.ino) := by
    refine hw.advance hg (by rw [hlog, hp]; exact hw.writable) (by rw [howed, hp]; exact hw.owed_pending)
      (fun f hf => ?_) (by rw [hwr', hlog]; exact ⟨rfl, hseq⟩)
    obtain ⟨done, hb, ht⟩ := hw.tail f _ rfl hf
    exact ⟨_, htail f hf done hb ht⟩
  have hseen : s.seen <+: s'.seen := by
    obtain ⟨done, hb, ht⟩ := hw.tail f₀ _ rfl (by rw [hd]; simp)
    obtain ⟨hb', ht'⟩ := htail f₀ (by rw [hd]; simp) done hb ht
    obtain ⟨t, hd₁, hs₁, -⟩ := hw.torn hs ht hb
    obtain ⟨t', hd₂, hs₂, -⟩ := hw'.torn hwr' ht' hb'
    have hfits := hw'.fits_whole
    rw [hlog] at hd₂ hfits
    rw [hd₁, List.append_assoc] at hd₂
    have hlen := (frames_front hw.fits_whole hfits hs₂ hd₂).length_le
    rw [number_length, number_length] at hlen
    have hle : s.whole <+: s'.whole :=
      List.prefix_of_prefix_length_le s.whole_le (hp ▸ s'.whole_le) hlen
    obtain ⟨h1, h2, -⟩ := hw'.seen_spec
    rw [hlog] at h1 h2
    unfold System.seen longer
    split
    · rw [← howed]
      exact h1
    · exact ((List.prefix_append_right_inj _).mpr hle).trans h2
  refine Steady.advance hr hg hw' hseen fun f hf b hb => ?_
  rw [hbytes, hlog, howed]
  exact hb.imp (fun hb => hb.trans (List.prefix_append _ _)) id

/-- What the newest file holds during an append, less what the group has added. -/
theorem Works.cut {i : Nat}
    {base done : Bytes} (hs : s.writer = .writing w group view) (hb : s.disk.bytes i = base ++ done)
    (ht : Tail s i done) : (s.disk.bytes i).take w.size = base := by
  rw [Tail, hs] at ht
  have hl := congrArg List.length hb
  rw [List.length_append] at hl
  have hsize : w.size = base.length := by omega
  rw [hb, hsize, List.take_left]

/-- A failed append is cut back, and its group is owed. -/
theorem Steady.fail
    (h : Steady s) (hs : s.writer = .writing w group view) : Steady (s.step (.writer .fail)) := by
  obtain ⟨live, hw, hr⟩ := h
  obtain ⟨rfl, hseq, hpend⟩ := hw.writing hs
  obtain ⟨l, f₀, hd⟩ := hw.newest _ rfl
  have hlt : w.ino < s.disk.files.length := (hw.named (f₀, w.ino) (by rw [hd]; simp)).2.2
  have he : s.step (.writer .fail) =
      { s with disk := s.disk.write w.ino ((s.disk.bytes w.ino).take w.size), writer := .idle w,
               owed := group } := by
    simp [System.step, Writer.step, System.account, hs]
  obtain ⟨s', hs'⟩ : ∃ s', s' = s.step (.writer .fail) := ⟨_, rfl⟩
  rw [← hs']
  rw [he] at hs'
  have hwr' : s'.writer = .idle w := by rw [hs']
  have hlog : s'.log = s.log := by rw [hs']
  have howed : s'.owed = group := by rw [hs']
  have hbytes : s'.disk.bytes w.ino = (s.disk.bytes w.ino).take w.size := by
    rw [hs']
    exact Disk.bytes_write hlt _
  have hg : Grows s s' w.ino := by
    rw [hs']
    exact ⟨rfl, by simp, fun j hj => Disk.bytes_write_ne hj.symm _, List.prefix_rfl, rfl, rfl⟩
  refine Steady.advance hr hg ?_ ?_ fun f hf b hb => .inr ?_
  · refine hw.advance hg ?_ ?_ (fun f hf => ?_) (by rw [hwr', hlog]; exact ⟨rfl, hseq⟩)
    · rw [hlog, pending_of_idle hwr', howed, ← hpend]
      exact hw.writable
    · rw [pending_of_idle hwr']
    · obtain ⟨done, hb, ht⟩ := hw.tail f _ rfl hf
      have hcut := Works.cut hs hb ht
      refine ⟨[], by rw [hbytes, hcut, hlog, List.append_nil], ?_⟩
      rw [Tail, hs] at ht
      rw [tail_idle hwr', hbytes, List.length_take]
      exact ⟨rfl, rfl, by omega⟩
  · rw [System.seen_of_whole_nil (whole_of_idle hwr'), howed, hlog, ← hpend]
    exact hw.seen_spec.2.2
  · rw [hlog, howed]
    obtain ⟨done, hbd, ht⟩ := hw.tail f _ rfl hf
    rcases hb with hb | hb
    · rw [Tail, hs] at ht
      rw [frames_span_append (hw.low hf), ← ht.2.2, ← List.append_assoc, ← hbd]
      exact hb.trans (List.prefix_append _ _)
    · refine hb.trans (frames_span_mono ((List.prefix_append_right_inj _).mpr ?_) _)
      rw [← hpend]
      exact hw.owed_pending

/-- A durable append puts its group into the log. -/
theorem Steady.sync_idle {group : List Bytes}
    (h : Steady s) (hs : s.writer = .writing w group [])
    (hs' : s' = { s with writer := .idle (w.appended group), log := s.log ++ group, owed := [] }) :
    Steady s' := by
  obtain ⟨live, hw, hr⟩ := h
  obtain ⟨rfl, hseq, hpend⟩ := hw.writing hs
  have hwr' : s'.writer = .idle (w.appended group) := by rw [hs']
  have hlog : s'.log = s.log ++ group := by rw [hs']
  have howed : s'.owed = [] := by rw [hs']
  have hdisk : s'.disk = s.disk := by rw [hs']
  have hg : Grows s s' w.ino := by
    rw [hs']
    exact ⟨rfl, rfl, fun _ _ => rfl, List.prefix_append _ _, rfl, rfl⟩
  refine Steady.advance hr hg ?_ ?_ fun f hf b hb => ?_
  · refine hw.advance hg ?_ ?_ (fun f hf => ?_) ?_
    · rw [hlog, pending_of_idle hwr', howed, List.append_nil, ← hpend]
      exact hw.writable
    · rw [howed]
      exact List.nil_prefix
    · obtain ⟨done, hb, ht⟩ := hw.tail f _ rfl hf
      rw [tail_writing hs, List.append_nil] at ht
      refine ⟨[], ?_, ?_⟩
      · rw [hdisk, hb, hlog, frames_span_append (hw.low hf), ht.2.2, List.append_nil]
      · rw [tail_idle hwr', hdisk]
        refine ⟨rfl, rfl, ?_⟩
        have hlen := ht.2.1
        rw [ht.2.2, ← hseq] at hlen
        exact hlen
    · rw [hwr', hlog]
      refine ⟨rfl, ?_⟩
      simp only [SpoolWriter.appended, List.length_append]
      omega
  · rw [System.seen_of_whole_nil (whole_of_idle hwr'), howed, hlog, List.append_nil, ← hpend]
    exact hw.seen_spec.2.2
  · rw [hdisk, hlog, howed, List.append_nil]
    refine hb.imp id fun hb => hb.trans (frames_span_mono ((List.prefix_append_right_inj _).mpr ?_) _)
    rw [← hpend]
    exact hw.owed_pending

/-- A process that ends in an append leaves its whole records to the log and a torn one behind. -/
theorem Steady.crash_writing
    (h : Steady s) (hs : s.writer = .writing w group view) : Steady (s.step (.writer .crash)) := by
  obtain ⟨live, hw, hr⟩ := h
  obtain ⟨rfl, hseq, hpend⟩ := hw.writing hs
  have he : s.step (.writer .crash) =
      { s with writer := .down, log := s.log ++ s.whole, owed := s.owed.drop s.whole.length } := by
    simp [System.step, Writer.step, System.account, hs]
  obtain ⟨s', hs'⟩ : ∃ s', s' = s.step (.writer .crash) := ⟨_, rfl⟩
  rw [← hs']
  rw [he] at hs'
  have hwr' : s'.writer = .down := by rw [hs']
  have hlog : s'.log = s.log ++ s.whole := by rw [hs']
  have howed : s'.owed = s.owed.drop s.whole.length := by rw [hs']
  have hdisk : s'.disk = s.disk := by rw [hs']
  have hpend' : s'.pending = s'.owed := by rw [System.pending, hwr']
  have hwhole := s.whole_le
  have hop := hw.owed_pending
  rw [hpend] at hwhole hop
  have hall : s'.log ++ s'.owed = s.seen := by
    rw [hlog, howed, List.append_assoc]
    unfold System.seen longer
    split
    · have hp : s.whole <+: s.owed := List.prefix_of_prefix_length_le hwhole hop ‹_›
      obtain ⟨q, hq⟩ := hp
      rw [← hq, List.drop_left]
    · rw [List.drop_eq_nil_of_le (by omega), List.append_nil]
  have hg : Grows s s' w.ino := by
    rw [hs']
    exact ⟨rfl, rfl, fun _ _ => rfl, List.prefix_append _ _, rfl, rfl⟩
  refine Steady.advance hr hg ?_ ?_ fun f hf b hb => ?_
  · refine hw.advance hg ?_ ?_ (fun f hf => ?_) (by rw [hwr']; trivial)
    · rw [hpend', hall]
      exact hw.writable.mono hw.seen_spec.2.2
    · rw [hpend']
    · obtain ⟨done, hb, ht⟩ := hw.tail f _ rfl hf
      obtain ⟨t, hd, hshort, hp⟩ := hw.torn hs ht hb
      refine ⟨t, by rw [hdisk, hb, hlog, frames_span_append (hw.low hf), hd, List.append_assoc], ?_⟩
      rw [tail_down hwr', howed, hlog, List.length_append,
        show s.log.length + s.whole.length + 1 = s.log.length + 1 + s.whole.length by omega]
      refine ⟨hshort, List.prefix_or_prefix_of_prefix hp ?_⟩
      have hdrop : s.owed.drop s.whole.length <+: group.drop s.whole.length := hop.drop _
      obtain ⟨q, hq⟩ := number_mono (s.log.length + 1 + s.whole.length) hdrop
      rw [← hq, frames_append]
      exact List.prefix_append _ _
  · rw [System.seen_of_whole_nil (s := s') (by rw [System.whole, hwr']), hall]
  · rw [hdisk, hall]
    exact hb.imp id fun hb => hb.trans (frames_span_mono hw.seen_spec.1 _)

/-- A process that ends outside an append. -/
theorem Steady.crash_quiet (h : Steady s) (hq : s.whole = [] ∧ s.pending = s.owed)
    (hs : ∀ i done, Tail s i done → done = []) (hs' : s' = { s with writer := .down }) : Steady s' := by
  have hwr' : s'.writer = .down := by rw [hs']
  have hwh : s'.whole = s.whole := by rw [hq.1, System.whole, hwr']
  subst hs'
  refine h.relabel rfl rfl rfl rfl rfl hwh fun live hw => ?_
  have hwr := hw.writable
  rw [hq.2] at hwr
  refine hw.relabel rfl rfl rfl hwr List.prefix_rfl (fun i done _ ht => ?_) trivial
  obtain rfl := hs i done ht
  exact (tail_down rfl).mpr ⟨records.front_nil, .inl List.nil_prefix⟩

/-- The newest file is final: the writer is about to open the next one. -/
structure Settles (s s' : System) (live : Option Nat) : Prop where
  log : s'.log = s.log
  owed : s'.owed = s.owed
  whole : s.whole = [] ∧ s.pending = s.owed
  reader : s'.reader = s.reader
  returned : s'.returned = s.returned
  opening : ∃ w starting, s'.writer = .opening w starting ∧ w.nextSeq = s.log.length + 1
  dir : s'.disk.dir <+: s.disk.dir
  empty : s'.disk.dir = [] → s.log = []
  names : ∀ e ∈ s'.disk.dir, e.1 ≤ s.log.length
  files : s'.disk.files.length = s.disk.files.length
  other : ∀ j, live ≠ some j → s'.disk.bytes j = s.disk.bytes j
  next : ∀ h, next s'.disk (s'.view none) h = next s.disk (s.view live) h
  cut : ∀ f i, live = some i → (f, i) ∈ s.disk.dir →
    s'.disk.bytes i = frames (span s.log (f - 1) s.log.length)

theorem Steady.settle (h : Steady s) (hs : ∀ live, Works s live → Settles s s' live) :
    Steady s' := by
  obtain ⟨live, hw, hr⟩ := h
  obtain ⟨hlog, howed, ⟨hwhole, hpend⟩, hre, hret, ⟨w, starting, hwr', hnum⟩, hdir, hempty, hnames, hfiles,
    hother, hnext, hcut⟩ := hs live hw
  have hpend' : s'.pending = s'.owed := by rw [System.pending, hwr']
  have hseen : s'.seen = s.seen := by
    rw [System.seen_of_whole_nil hwhole, System.seen_of_whole_nil (by rw [System.whole, hwr']), hlog,
      howed]
  have hlp : (s.view live).log <+: (s'.view none).log := by
    simp only [System.view, hlog, List.prefix_rfl]
  have hsp : (s.view live).seen <+: (s'.view none).seen := by
    simp only [System.view, hseen, List.prefix_rfl]
  refine ⟨none, ⟨?_, by rw [hpend'], ?_, ?_, ?_, ?_, ?_, ?_, by simp, by simp, ?_⟩, ?_⟩
  · rw [hlog, hpend', howed, ← hpend]
    exact hw.writable
  · exact hw.sorted.sublist hdir.sublist
  · exact hw.inodes.sublist hdir.sublist
  · intro e he
    rw [hlog, hfiles]
    exact hw.named e (hdir.subset he)
  · intro e l he
    obtain ⟨q, hq⟩ := hdir
    rw [he] at hq
    exact hw.oldest e _ hq.symm
  · rw [hlog]
    exact hempty
  · intro e he _
    have he' := hdir.subset he
    rw [hnext, hlog]
    by_cases hl : live = some e.2
    · have hn : Spool.next s.disk (s.view live) ⟨e.2, 0, e.1⟩ = s.log.length + 1 := by
        have hnil : SpoolReader.later s.disk ⟨e.2, 0, e.1⟩ = [] := hw.kept.later_nil hl he' 0
        rw [Spool.next, hnil]
        rfl
      rw [hn, Nat.add_sub_cancel]
      exact hcut e.1 e.2 hl he'
    · rw [hother _ hl]
      exact hw.final e he' hl
  · rw [hwr']
    exact ⟨rfl, by rw [hlog, hnum], by rw [hlog]; exact hnames⟩
  · rw [hre, hret]
    refine hr.view hsp fun h m hf => ?_
    by_cases hl : live = some h.ino
    · have hd := (hf.growing hl).1
      obtain ⟨done, hb, -⟩ := hw.tail _ _ hl hd
      have hbytes := hcut _ _ hl hd
      refine hf.closed hw.kept hr.after_le hl rfl hlp hsp
        hfiles.ge ?_ ?_ ?_ ?_
      · change s'.log <+: s.seen
        rw [hlog]
        exact (List.prefix_append _ _).trans hw.seen_spec.1
      · change _ = frames (span s'.log (h.first - 1) s'.log.length)
        rw [hlog]
        exact hbytes
      · rw [hbytes, hb]
        exact List.prefix_append _ _
      · rw [hnext]
        change _ ≤ s'.log.length + 1
        rw [hlog]
        exact hw.kept.next_le h
    · exact hf.view hr.after_le hlp hsp hfiles.ge
        (fun hn => absurd hn (by simp [System.view]))
        fun _ => ⟨hl, hother _ hl, hnext h, fun _ => rfl⟩

/-- A full segment is closed; the next one is still to be opened. -/
theorem Steady.sync_full {group : List Bytes}
    (h : Steady s) (hs : s.writer = .writing w group [])
    (hfull : (w.appended group).size ≥ SEGMENT_BYTES)
    (hs' : s' = { s with
      writer := .opening (w.appended group) false, log := s.log ++ group, owed := [] }) :
    Steady s' := by
  have h₁ := h.sync_idle hs rfl
  refine h₁.settle fun live hw => ?_
  have hn := hw.numbered
  simp only at hn
  obtain ⟨l, f₀, hd⟩ := hw.newest _ hn.1
  have hcut : ∀ f, (f, w.ino) ∈ s.disk.dir →
      s.disk.bytes w.ino = frames (span (s.log ++ group) (f - 1) (s.log ++ group).length) ∧
        (w.appended group).size = (s.disk.bytes w.ino).length := by
    intro f hf
    obtain ⟨done, hb, ht⟩ := hw.tail f _ hn.1 hf
    obtain ⟨rfl, -, hsz⟩ := (tail_idle rfl).mp ht
    exact ⟨hb.trans (List.append_nil _), hsz⟩
  subst hs'
  refine ⟨rfl, rfl, ⟨rfl, rfl⟩, rfl, rfl, ⟨_, _, rfl, hn.2⟩, List.prefix_rfl, hw.empty, ?_, rfl,
    fun _ _ => rfl, fun _ => rfl, ?_⟩
  · intro e he
    have hlast : f₀ ≤ (s.log ++ group).length := by
      obtain ⟨hb, hsz⟩ := hcut f₀ (by
        have hd' : s.disk.dir = l ++ [(f₀, w.ino)] := hd
        rw [hd']
        simp)
      by_contra hlt
      have hnil : span (s.log ++ group) (f₀ - 1) (s.log ++ group).length = [] :=
        List.eq_nil_of_length_eq_zero (by rw [span_length le_rfl]; omega)
      rw [hnil] at hb
      rw [hb] at hsz
      have hz : (w.appended group).size = 0 := hsz
      rw [hz] at hfull
      exact absurd hfull (by decide)
    have hsort := hw.sorted
    simp only at hd hsort he
    rw [hd, List.pairwise_append] at hsort
    rw [hd, List.mem_append, List.mem_singleton] at he
    rcases he with he | rfl
    · exact (hsort.2.2 e he _ (List.mem_singleton_self _)).le.trans hlast
    · exact hlast
  · intro f i hl he
    obtain rfl : w.ino = i := Option.some.inj (hn.1.symm.trans hl)
    exact (hcut f he).1

/-- What a start finds in the newest segment: its records up to the end of the log, and a torn end
that only the file of the writer before can have. -/
theorem Works.newest_bytes (hw : Works s live) (hs : s.writer = .down)
    {l : List (Nat × Nat)} {f i : Nat} (hd : s.disk.dir = l ++ [(f, i)]) :
    ∃ done, s.disk.bytes i = frames (span s.log (f - 1) s.log.length) ++ done ∧ front done = .short ∧
      (live ≠ some i → done = []) := by
  have he : (f, i) ∈ s.disk.dir := by rw [hd]; simp
  by_cases hl : live = some i
  · obtain ⟨done, hb, ht⟩ := hw.tail f i hl he
    exact ⟨done, hb, ((tail_down hs).mp ht).1, fun hne => absurd hl hne⟩
  · have hb := hw.final _ he hl
    have hnil : SpoolReader.later s.disk ⟨i, 0, f⟩ = [] := later_listed hw.sorted hd 0
    have hn : next s.disk (s.view live) ⟨i, 0, f⟩ = s.log.length + 1 := by
      rw [next, hnil]
      rfl
    simp only [hn, Nat.add_sub_cancel] at hb
    exact ⟨[], by rw [hb, List.append_nil], records.front_nil, fun _ => rfl⟩

/-- A torn end is cut off the newest segment, and no other byte changes. -/
theorem Works.cut_back (hw : Works s live) (hs : s.writer = .down)
    {l : List (Nat × Nat)} {f i : Nat} (hd : s.disk.dir = l ++ [(f, i)]) :
    let kept := s.disk.write i (frames (span s.log (f - 1) s.log.length))
    (∀ j, live ≠ some j → kept.bytes j = s.disk.bytes j) ∧
      ∀ g j, live = some j → (g, j) ∈ s.disk.dir → kept.bytes j = frames (span s.log (g - 1) s.log.length) := by
  obtain ⟨done, hb, -, hdone⟩ := hw.newest_bytes hs hd
  have hi : i < s.disk.files.length := (hw.named (f, i) (by rw [hd]; simp)).2.2
  refine ⟨fun j hj => ?_, fun g j hj hg => ?_⟩
  · by_cases hij : i = j
    · subst hij
      rw [Disk.bytes_write hi, hb, hdone hj, List.append_nil]
    · exact Disk.bytes_write_ne hij _
  · obtain ⟨l', f', hd'⟩ := hw.newest j hj
    obtain ⟨-, hlast⟩ := List.append_inj' (hd.symm.trans hd') rfl
    obtain ⟨rfl, rfl⟩ := Prod.mk.inj (List.cons.inj hlast).1
    have hgf : g = f := by
      have hne := hw.inodes
      rw [hd, List.pairwise_append] at hne
      rw [hd, List.mem_append, List.mem_singleton] at hg
      rcases hg with hg | hg
      · exact absurd rfl (hne.2.2 _ hg (f, i) (List.mem_singleton_self _))
      · exact (Prod.mk.inj hg).1
    rw [Disk.bytes_write hi, hgf]

/-- `_recover` goes on after the last record in the log. -/
theorem Works.recover (hw : Works s live) (hs : s.writer = .down)
    {maxBytes : Nat} {s' : System} (hs' : s' = s.step (.writer (.start maxBytes))) :
    Settles s s' live := by
  have hwhole : s.whole = [] ∧ s.pending = s.owed := by
    rw [System.whole, System.pending, hs]
    exact ⟨rfl, rfl⟩
  have he : s.step (.writer (.start maxBytes)) =
      { s with
        disk := (Spool.recover s.disk).1
        writer := .opening
          ⟨maxBytes, (Spool.recover s.disk).2.1, (Spool.recover s.disk).2.2, 0, 0, 0⟩ true } := by
    simp [System.step, Writer.step, System.account, hs]
  rw [he] at hs'
  rcases List.eq_nil_or_concat s.disk.dir with hd | ⟨l, ⟨f, i⟩, hd⟩
  · have hlog := hw.empty hd
    have hr : Spool.recover s.disk = (s.disk, 1, 0) := by simp [Spool.recover, hd]
    rw [hr] at hs'
    have hlive : live = none := by
      cases hl : live with
      | none => rfl
      | some i =>
        obtain ⟨l, f, hd'⟩ := hw.newest i hl
        rw [hd] at hd'
        exact absurd hd' (by simp)
    subst hs' hlive
    exact ⟨rfl, rfl, hwhole, rfl, rfl, ⟨_, _, rfl, by simp [hlog]⟩, List.prefix_rfl, fun _ => hlog,
      by simp [hd], rfl, fun _ _ => rfl, fun _ => rfl, by simp⟩
  · rw [List.concat_eq_append] at hd
    obtain ⟨done, hb, hshort, -⟩ := hw.newest_bytes hs hd
    have hmem : (f, i) ∈ s.disk.dir := by rw [hd]; simp
    obtain ⟨hf1, hf2, hi⟩ := hw.named _ hmem
    simp only at hf1 hf2 hi
    have hfits := (hw.writable.mono (List.prefix_append _ _)).of_span (f - 1) s.log.length
    have hparse : parse (s.disk.bytes i) = (span s.log (f - 1) s.log.length, done, false) := by
      rw [hb, parse_frames hfits hshort]
    obtain ⟨hother, hcut⟩ := hw.cut_back hs hd
    have hsort := hw.sorted
    rw [hd, List.pairwise_append] at hsort
    have hbefore : ∀ a ∈ l, a.1 < f := fun a ha => hsort.2.2 a ha _ (List.mem_singleton_self _)
    have hlen : (span s.log (f - 1) s.log.length).length = _ := span_length le_rfl
    have hrec := recover_snoc hd hb hparse
    by_cases hfl : f ≤ s.log.length
    · have hne : (s.log.take s.log.length).drop (f - 1) ≠ [] := by
        rw [List.take_length]
        exact List.ne_nil_of_length_pos (by rw [List.length_drop]; omega)
      obtain ⟨p, hlast⟩ := number_getLast (f - 1 + 1) hne
      rw [span, hlast] at hrec
      have hseq : f - 1 + 1 + ((s.log.take s.log.length).drop (f - 1)).length - 1 = s.log.length := by
        rw [List.take_length, List.length_drop]
        omega
      rw [hseq] at hrec
      rw [hrec] at hs'
      subst hs'
      refine ⟨rfl, rfl, hwhole, rfl, rfl, ⟨_, _, rfl, rfl⟩, List.prefix_rfl, hw.empty, ?_, by simp, hother,
        fun _ => rfl, hcut⟩
      intro e he
      rw [Disk.write_dir, hd, List.mem_append, List.mem_singleton] at he
      rcases he with he | rfl
      · exact (hbefore e he).le.trans hfl
      · exact hfl
    · have hf : f = s.log.length + 1 := by omega
      have hnil : span s.log (f - 1) s.log.length = [] :=
        List.eq_nil_of_length_eq_zero (by omega)
      rw [hnil] at hrec
      have hdir : ((s.disk.write i (frames [])).unlink f).dir = l := by
        simp only [Disk.unlink, Disk.write_dir, hd, List.filter_append]
        rw [List.filter_eq_self.mpr fun a ha => by simpa using (hbefore a ha).ne]
        simp
      rw [hrec] at hs'
      rw [hnil] at hother hcut
      subst hs'
      refine ⟨rfl, rfl, hwhole, rfl, rfl, ⟨_, _, rfl, hf⟩, ?_, ?_, ?_, by simp [Disk.unlink], hother, ?_, hcut⟩
      · simp only [List.getLast?_nil]
        rw [hdir, hd]
        exact List.prefix_append _ _
      · simp only [List.getLast?_nil]
        rw [hdir]
        rintro rfl
        have hone := hw.oldest _ _ hd
        rw [List.eq_nil_iff_length_eq_zero]
        simp only at hone
        omega
      · simp only [List.getLast?_nil]
        rw [hdir]
        intro e he
        have hlt := hbefore e he
        omega
      · intro h
        exact (next_snoc hd hdir rfl hf h).symm

theorem Steady.start (h : Steady s) (hs : s.writer = .down) (maxBytes : Nat) :
    Steady (s.step (.writer (.start maxBytes))) :=
  h.settle fun _ hw => hw.recover hs rfl

/-- A name after all the others is a new segment at the end of the listing. -/
theorem openAppend_fresh {d : Disk} {n : Nat} (h : ∀ e ∈ d.dir, e.1 < n) :
    d.openAppend n = (⟨d.files ++ [[]], d.dir ++ [(n, d.files.length)]⟩, d.files.length) := by
  have hlook : d.dir.lookup n = none := by
    rw [List.lookup_eq_none_iff]
    intro e he
    simpa using (h e he).ne'
  have hlt : d.dir.filter (fun e => decide (e.1 < n)) = d.dir :=
    List.filter_eq_self.mpr fun e he => by simpa using h e he
  have hgt : d.dir.filter (fun e => decide (n < e.1)) = [] :=
    List.filter_eq_nil_iff.mpr fun e he => by simpa using (h e he).le
  unfold Disk.openAppend
  rw [hlook]
  simp only [hlt, hgt]

/-- The new segment is the newest, and the only one that grows. -/
theorem Steady.openSegment {starting : Bool} (h : Steady s)
    (hs : s.writer = .opening w starting) : Steady (s.step (.writer .openSegment)) := by
  obtain ⟨live, hw, hr⟩ := h
  have hn := hw.numbered
  rw [hs] at hn
  obtain ⟨rfl, hseq, hnames⟩ := hn
  have hopen := openAppend_fresh (d := s.disk) (n := w.nextSeq) fun e he => by
    have := hnames e he
    omega
  obtain ⟨s', hs'⟩ : ∃ s', s' = s.step (.writer .openSegment) := ⟨_, rfl⟩
  rw [← hs']
  have hdisk : s'.disk = ⟨s.disk.files ++ [[]], s.disk.dir ++ [(w.nextSeq, s.disk.files.length)]⟩ := by
    rw [hs']
    simp [System.step, Writer.step, hs, hopen]
  have hnew : s'.disk.bytes s.disk.files.length = [] := by
    rw [hdisk]
    simp [Disk.bytes]
  have hold : ∀ j, j < s.disk.files.length → s'.disk.bytes j = s.disk.bytes j := by
    intro j hj
    rw [hdisk]
    simp [Disk.bytes, List.getElem?_append_left hj]
  obtain ⟨w', hwr', hino, hsize, hseq'⟩ : ∃ w', s'.writer = .idle w' ∧
      w'.ino = s.disk.files.length ∧ w'.size = 0 ∧ w'.nextSeq = w.nextSeq := by
    rw [hs']
    simp [System.step, Writer.step, hs, hopen, Disk.bytes]
  have hlog : s'.log = s.log := by rw [hs']; simp [System.step, System.account, hs]
  have howed : s'.owed = s.owed := by rw [hs']; simp [System.step, System.account, hs]
  have hre : s'.reader = s.reader := by rw [hs']; rfl
  have hret : s'.returned = s.returned := by rw [hs']; rfl
  have hpend : s.pending = s.owed := by rw [System.pending, hs]
  have hseen : s'.seen = s.seen := by
    rw [System.seen_of_whole_nil (whole_of_idle hwr'),
      System.seen_of_whole_nil (by rw [System.whole, hs]), hlog, howed]
  have hdir : s'.disk.dir = s.disk.dir ++ [(w.nextSeq, s.disk.files.length)] := by rw [hdisk]
  have hfiles : s'.disk.files.length = s.disk.files.length + 1 := by rw [hdisk]; simp
  have hnext : ∀ hd, next s'.disk (s'.view (some s.disk.files.length)) hd = next s.disk (s.view none) hd :=
    fun hd => next_snoc hdir rfl (by simp [System.view, hlog])
      (by simp only [System.view, hlog, hseq]) hd
  refine ⟨some s.disk.files.length, ⟨?_, ?_, ?_, ?_, ?_, ?_, ?_, ?_, ?_, ?_, ?_⟩, ?_⟩
  · rw [hlog, pending_of_idle hwr', howed, ← hpend]
    exact hw.writable
  · rw [pending_of_idle hwr']
  · rw [hdir, List.pairwise_append]
    refine ⟨hw.sorted, List.pairwise_singleton _ _, fun a ha b hb => ?_⟩
    rw [List.mem_singleton.mp hb]
    have := hnames a ha
    simp only
    omega
  · rw [hdir, List.pairwise_append]
    refine ⟨hw.inodes, List.pairwise_singleton _ _, fun a ha b hb => ?_⟩
    rw [List.mem_singleton.mp hb]
    exact (hw.named a ha).2.2.ne
  · intro e he
    rw [hdir, List.mem_append, List.mem_singleton] at he
    rw [hlog, hfiles]
    rcases he with he | rfl
    · obtain ⟨h1, h2, h3⟩ := hw.named e he
      exact ⟨h1, h2, h3.trans (Nat.lt_succ_self _)⟩
    · simp only
      omega
  · intro e l he
    rw [hdir] at he
    cases hd : s.disk.dir with
    | nil =>
      rw [hd] at he
      have hlog0 := hw.empty hd
      rw [← (List.cons.inj he).1]
      simp [hseq, hlog0]
    | cons a as =>
      rw [hd] at he
      rw [← (List.cons.inj he).1]
      exact hw.oldest a as hd
  · intro he
    rw [hdir] at he
    exact absurd he (by simp)
  · intro e he hne
    rw [hdir, List.mem_append, List.mem_singleton] at he
    rcases he with he | rfl
    · rw [hold _ (hw.named e he).2.2, hnext, hlog]
      exact hw.final e he (by simp)
    · exact absurd rfl hne
  · rintro i ⟨⟩
    exact ⟨_, _, hdir⟩
  · rintro f i ⟨⟩ he
    rw [hdir, List.mem_append, List.mem_singleton] at he
    obtain rfl : f = w.nextSeq := by
      rcases he with he | he
      · exact absurd (hw.named _ he).2.2 (lt_irrefl _)
      · exact (Prod.mk.inj he).1
    refine ⟨[], ?_, (tail_idle hwr').mpr ⟨rfl, hino, by rw [hnew, hsize]; rfl⟩⟩
    rw [hnew, hlog, hseq, Nat.add_sub_cancel, span_self]
    rfl
  · rw [hwr']
    exact ⟨by rw [hino], by rw [hseq', hseq, hlog]⟩
  · rw [hre, hret]
    have hlp : (s.view none).log <+: (s'.view (some s.disk.files.length)).log := by
      simp only [System.view, hlog, List.prefix_rfl]
    have hsp : (s.view none).seen <+: (s'.view (some s.disk.files.length)).seen := by
      simp only [System.view, hseen, List.prefix_rfl]
    refine hr.view hsp fun h m hf => ?_
    refine hf.view hr.after_le hlp hsp (by omega) (fun hl => ?_) fun _ => ?_
    · obtain hi : s.disk.files.length = h.ino := Option.some.inj hl
      exact absurd hf.known (by omega)
    · refine ⟨by simp [System.view], hold _ hf.known, hnext h, fun hn => ?_⟩
      obtain ⟨q, hq, -, hlast⟩ := later_snoc hdir rfl h
      have hfirst := hf.first_log
      have hone := hlast (by simp only [hseq]; exact hfirst)
        (fun a ha => by have := hnames a ha; simp only; omega) hf.known.ne
      rw [hn, hone] at hq
      exact absurd hq (by simp)

/-- Every operation of the writer keeps the spool in step. -/
theorem Steady.writer (h : Steady s) {op : WriterOp} (hg : s.Retries (.writer op)) :
    Steady (s.step (.writer op)) := by
  obtain ⟨disk, writer, reader, log, owed, returned⟩ := s
  cases op with
  | start maxBytes =>
    cases writer with
    | down => exact h.start rfl maxBytes
    | _ => exact h
  | openSegment =>
    cases writer with
    | opening w starting => exact h.openSegment rfl
    | _ => exact h
  | refreshUsage =>
    cases writer with
    | idle w => exact h.refreshUsage rfl
    | _ => exact h
  | append group =>
    cases writer with
    | idle w => exact h.append rfl hg
    | _ => exact h
  | write n =>
    cases writer with
    | writing w group view => exact h.write rfl n
    | _ => exact h
  | sync =>
    cases writer with
    | writing w group view =>
      cases view with
      | cons b bs => exact h
      | nil =>
        by_cases hfull : (w.appended group).size ≥ SEGMENT_BYTES
        · exact h.sync_full rfl hfull (by simp [System.step, Writer.step, System.account, hfull])
        · exact h.sync_idle rfl (by simp [System.step, Writer.step, System.account, hfull])
    | _ => exact h
  | fail =>
    cases writer with
    | writing w group view => exact h.fail rfl
    | _ => exact h
  | crash =>
    cases writer with
    | writing w group view => exact h.crash_writing rfl
    | idle w => exact h.crash_quiet ⟨rfl, rfl⟩ (fun _ _ ht => ((tail_idle rfl).mp ht).1) rfl
    | opening w starting => exact h.crash_quiet ⟨rfl, rfl⟩ (fun _ _ ht => ht.elim) rfl
    | down => exact h

theorem Reads.reader {d : Disk} {v : View} {r r' : SpoolReader} {got : List Record}
    (hr : Reads d v r got) (ha : r'.after = r.after) (hf : r'.file = r.file) (hb : r'.buffer = r.buffer)
    (hp : r'.phase = .ended → r.phase = .ended) : Reads d v r' got :=
  ⟨by rw [hr.got_eq, ha], by rw [ha]; exact hr.after_le,
    fun h hh => (hr.file h (hf ▸ hh)).imp fun _ hm => hm.mono hb ha.ge,
    fun he => by rw [hb, hf]; exact hr.ended (hp he)⟩

/-- The spool is in step, and a reader outside `read` holds nothing back. -/
def Sound (s : System) : Prop := Steady s ∧ (s.reader.phase = .idle → s.reader.out = [])

theorem Sound.init : Sound {} := by
  refine ⟨⟨none, ⟨?_, ?_, ?_, ?_, ?_, ?_, ?_, ?_, ?_, ?_, ?_⟩, ?_⟩, fun _ => rfl⟩
  any_goals simp
  · exact fun r hr => absurd hr (by simp [System.pending, number])
  · exact ⟨rfl, le_refl 0, by simp, by simp⟩

theorem Sound.step {e : Event} (h : Sound s) (hg : s.Retries e) : Sound (s.step e) := by
  obtain ⟨hs, hout⟩ := h
  cases e with
  | writer op => exact ⟨hs.writer hg, hout⟩
  | call limit =>
    obtain ⟨live, hw, hr⟩ := hs
    cases hp : s.reader.phase with
    | reading | ended =>
      have he : s.step (.call limit) = s := by simp [System.step, SpoolReader.call, hp]
      rw [he]
      exact ⟨⟨live, hw, hr⟩, hout⟩
    | idle =>
      have he : s.step (.call limit) =
          { s with reader := { s.reader with limit, out := [], phase := .reading } } := by
        simp [System.step, SpoolReader.call, hp]
      rw [hout hp] at hr
      rw [he]
      exact ⟨⟨live, hw.relabel rfl rfl rfl hw.writable hw.owed_pending (fun _ _ _ ht => ht) hw.numbered,
        hr.reader rfl rfl rfl (by simp)⟩, by simp⟩
  | turn =>
    obtain ⟨live, hw, hr⟩ := hs
    have hr' := hr.turn hw.kept
    have hwr : ∀ r ret, Works { s with reader := r, returned := ret } live := fun _ _ =>
      hw.relabel rfl rfl rfl hw.writable hw.owed_pending (fun _ _ _ ht => ht) hw.numbered
    cases hp : (s.reader.turn s.disk).phase with
    | idle =>
      have he : s.step .turn = { s with
          reader := { s.reader.turn s.disk with out := [] }
          returned := s.returned ++ (s.reader.turn s.disk).out } := by
        simp [System.step, hp]
      rw [he]
      exact ⟨⟨live, hwr _ _, by
        rw [List.append_nil]
        exact hr'.reader rfl rfl rfl id⟩, fun _ => rfl⟩
    | reading | ended =>
      have he : s.step .turn = { s with reader := s.reader.turn s.disk } := by
        simp [System.step, hp]
      rw [he]
      exact ⟨⟨live, hwr _ _, hr'⟩, fun hi => absurd (hp.symm.trans hi) (by simp)⟩

/-- Along every run the spool stays in step. -/
theorem Sound.run {es : List Event} (h : Meets System.step System.Retries {} es) :
    Sound (run System.step {} es) :=
  run_invariant (fun _ _ hs hg => hs.step hg) _ es Sound.init h

/-- What has been returned, or is about to be, is the first of what may be seen. -/
theorem Sound.returned (h : Sound s) :
    s.returned ++ s.reader.out <+: number 1 (s.log ++ s.pending) := by
  obtain ⟨⟨live, hw, hr⟩, -⟩ := h
  refine List.IsPrefix.trans ?_ (number_mono 1 hw.seen_spec.2.2)
  rw [hr.got_eq]
  change span s.seen 0 s.reader.after <+: number 1 s.seen
  rw [span, List.drop_zero, Nat.zero_add]
  exact number_mono 1 (List.take_prefix _ _)

end NetCoreNoc.Spool
