import Mathlib
import NetCoreNoc.Spool.Drain

/-! The spool and the engine's cursor (`engine/operate/intake.py`): which sequence numbers a writer
gives out, behind a reader that commits how far it came, prunes what it has done with, and a disk that
may lose or change bytes. -/
namespace NetCoreNoc.Spool
open Runs Parsing

/-- `SpoolFeed` beside the spool. `cursor` is the one the database holds. -/
structure Feed where
  spool : System := {}
  cursor : Nat := 0
  /-- `prune`: the segments it has listed and not yet unlinked -/
  doomed : List Nat := []
  deriving DecidableEq

inductive FeedEvent where
  | writer (op : WriterOp)
  | call (limit : Nat)
  | turn
  /-- the batch that ends with a record of this number commits -/
  | commit (seq : Nat)
  /-- the engine starts again from its cursor -/
  | rewind
  /-- `prune` lists, then unlinks one by one -/
  | list
  | unlink
  /-- the bytes of a file change in place -/
  | rot (ino : Nat) (b : Bytes)
  /-- the newest segment after a power loss -/
  | lose (b : Bytes)
  deriving DecidableEq

/-- `prunable`: the segments whose records are all at or before the cursor, never the newest. -/
def prunable : List (Nat × Nat) → Nat → List Nat
  | a :: b :: found, cursor =>
    if b.1 ≤ cursor + 1 then a.1 :: prunable (b :: found) cursor else prunable (b :: found) cursor
  | _, _ => []

/-- The writer that holds the lock, once `_recover` has given it its next number. -/
def Writer.up : Writer → Option SpoolWriter
  | .down => none
  | .opening w _ => some w
  | .idle w => some w
  | .writing w _ _ => some w

namespace Feed

def disk (s : Feed) : Disk := s.spool.disk

def setDisk (s : Feed) (d : Disk) : Feed := { s with spool := { s.spool with disk := d } }

def step (s : Feed) : FeedEvent → Feed
  | .writer op => { s with spool := s.spool.step (.writer op) }
  | .call limit => { s with spool := s.spool.step (.call limit) }
  | .turn => { s with spool := s.spool.step .turn }
  | .commit seq =>
    if s.cursor ≤ seq ∧ seq ∈ s.spool.returned.map Prod.fst then { s with cursor := seq } else s
  | .rewind => { s with spool := { s.spool with reader := { after := s.cursor }, returned := [] } }
  | .list => { s with doomed := prunable s.disk.dir s.cursor }
  | .unlink =>
    match s.doomed with
    | [] => s
    | first :: doomed => { s.setDisk (s.disk.unlink first) with doomed }
  | .rot ino b =>
    if b.length = (s.disk.bytes ino).length then s.setDisk (s.disk.write ino b) else s
  | .lose b =>
    match s.spool.writer, s.disk.dir.getLast? with
    | .down, some (_, ino) => s.setDisk (s.disk.write ino b)
    | _, _ => s

end Feed

/-- How many records from the first on are numbered one after the other. -/
def sequential (seq : Nat) : List Record → Nat
  | [] => 0
  | r :: rs => if r.1 = seq then sequential (seq + 1) rs + 1 else 0

/-- The newest segment begins after a record, or holds it: from its name on to the record, all are
intact. -/
def Disk.Holds (d : Disk) (seq : Nat) : Prop :=
  match d.dir.getLast? with
  | none => seq = 0
  | some (first, ino) => seq < first + sequential first (parse (d.bytes ino)).1

instance (d : Disk) (seq : Nat) : Decidable (d.Holds seq) := by
  unfold Disk.Holds
  split <;> infer_instance

/-- Every record that passes the check is numbered on from the segment's name. -/
def Disk.Numbered (d : Disk) : Prop :=
  match d.dir.getLast? with
  | none => True
  | some (first, ino) =>
    sequential first (parse (d.bytes ino)).1 = (parse (d.bytes ino)).1.length

instance (d : Disk) : Decidable d.Numbered := by
  unfold Disk.Numbered
  split <;> infer_instance

/-- Where a writer stands in its directory, and its count of the bytes of its segment. -/
def Writer.Stands (d : Disk) : Writer → Prop
  | .down => True
  | .opening w _ => ∀ e ∈ d.dir, e.1 < w.nextSeq
  | .idle w => w.ino < d.files.length ∧ w.size = (d.bytes w.ino).length ∧ ∃ l first,
      d.dir = l ++ [(first, w.ino)] ∧ first ≤ w.nextSeq ∧ (w.size = 0 ∨ first < w.nextSeq)
  | .writing w group view => w.ino < d.files.length ∧
      (∃ n, w.size + n = (d.bytes w.ino).length ∧
        n + view.length = (frames (number w.nextSeq group)).length) ∧ ∃ l first,
      d.dir = l ++ [(first, w.ino)] ∧ first ≤ w.nextSeq ∧ (w.size = 0 ∨ first < w.nextSeq)

/-- Between the `_recover` and the `_open_segment` of a start. -/
def Writer.starting : Writer → Bool
  | .opening _ starting => starting
  | _ => false

/-- The disk without the bytes that a failed write would take back. -/
def Writer.durable (d : Disk) : Writer → Disk
  | .writing w _ _ => d.write w.ino ((d.bytes w.ino).take w.size)
  | _ => d

namespace Feed

def durable (s : Feed) : Disk := s.spool.writer.durable s.disk

/-- Only durable records are committed, no committed record is damaged or lost in the newest segment,
nothing damaged passes for a record, and no start ends before it has opened its segment, unless the
segment before it holds the cursor. -/
def Spares (s : Feed) (e : FeedEvent) : Prop :=
  match e with
  | .commit seq => (s.spool.writer.starting = false → s.durable.Holds seq) ∧
      ∀ w ∈ s.spool.writer.up, seq < w.nextSeq
  | .rot _ _ | .lose _ => s.spool.writer.starting = false → (s.step e).durable.Holds s.cursor
  | .writer (.start _) => s.spool.writer = .down → s.disk.Numbered
  | .writer .crash => s.spool.writer.starting = true → s.disk.Holds s.cursor
  | .unlink => ∀ e ∈ s.disk.dir.getLast?, ∀ first ∈ s.doomed.head?, e.1 ≠ first
  | _ => True

instance (s : Feed) (e : FeedEvent) : Decidable (s.Spares e) := by
  unfold Spares
  split <;> infer_instance

/-- The writer's next number is beyond the cursor, and will be after whatever comes. -/
structure Ahead (s : Feed) : Prop where
  sorted : s.disk.dir.Pairwise fun a b => a.1 < b.1
  stands : s.spool.writer.Stands s.disk
  next : ∀ w ∈ s.spool.writer.up, s.cursor < w.nextSeq
  holds : s.spool.writer.starting = false → s.durable.Holds s.cursor

end Feed

theorem sequential_mono {n : Nat} {rs qs : List Record} (h : rs <+: qs) :
    sequential n rs ≤ sequential n qs := by
  induction rs generalizing n qs with
  | nil => exact Nat.zero_le _
  | cons r rs ih =>
    obtain ⟨t, rfl⟩ := h
    simp only [List.cons_append, sequential]
    split
    · exact Nat.succ_le_succ (ih (List.prefix_append rs t))
    · exact le_rfl

theorem sequential_getLast {seq : Nat} {rs : List Record} {r : Record}
    (h : sequential seq rs = rs.length) (hr : rs.getLast? = some r) : r.1 + 1 = seq + rs.length := by
  induction rs generalizing seq with
  | nil => exact absurd hr (by simp)
  | cons q rs ih =>
    simp only [sequential, List.length_cons] at h ⊢
    split at h
    · rename_i hq
      cases rs with
      | nil =>
        obtain rfl : q = r := by simpa using hr
        simp only [List.length_nil]
        omega
      | cons q' rs =>
        rw [List.getLast?_cons_cons] at hr
        have := ih (Nat.succ.inj h) hr
        simp only [List.length_cons] at this ⊢
        omega
    · omega

theorem parse_mono (b c : Bytes) : (parse b).1 <+: (parse (b ++ c)).1 := by
  have h := Framing.parse_append (F := records.toFraming) b c
  change parse (b ++ c) = if (parse b).2.2 then ((parse b).1, (parse b).2.1 ++ c, true)
    else ((parse b).1 ++ (parse ((parse b).2.1 ++ c)).1, (parse ((parse b).2.1 ++ c)).2) at h
  rw [h]
  split
  · exact List.prefix_rfl
  · exact List.prefix_append _ _

/-- More bytes behind take nothing away. -/
theorem Disk.Holds.mono {d d' : Disk} {seq : Nat} (h : d.Holds seq)
    (hd : d'.dir.getLast? = d.dir.getLast?) (hb : ∀ i, d.bytes i <+: d'.bytes i) : d'.Holds seq := by
  unfold Disk.Holds at h ⊢
  rw [hd]
  cases hl : d.dir.getLast? with
  | none => simpa only [hl] using h
  | some e =>
    obtain ⟨t, ht⟩ := hb e.2
    have := sequential_mono (n := e.1) (parse_mono (d.bytes e.2) t)
    simp only [hl] at h ⊢
    rw [← ht]
    omega

theorem Disk.write_self (d : Disk) (i : Nat) : d.write i (d.bytes i) = d := by
  by_cases hi : i < d.files.length
  · simp [Disk.write, Disk.bytes, hi]
  · have hset : d.files.set i (d.bytes i) = d.files := List.set_eq_of_length_le (by omega)
    rw [Disk.write, hset]

theorem bytes_write_take (d : Disk) (i n j : Nat) :
    (d.write i ((d.bytes i).take n)).bytes j <+: d.bytes j := by
  by_cases hj : i = j
  · subst hj
    by_cases hi : i < d.files.length
    · rw [Disk.bytes_write hi]
      exact List.take_prefix _ _
    · have hn : (d.write i ((d.bytes i).take n)).bytes i = [] := by
        simp [Disk.write, Disk.bytes, hi]
      rw [hn]
      exact List.nil_prefix
  · rw [Disk.bytes_write_ne hj]

namespace Feed
variable {s s' : Feed}

theorem durable_dir (d : Disk) (w : Writer) : (w.durable d).dir = d.dir := by
  cases w <;> rfl

theorem durable_bytes (d : Disk) (w : Writer) (i : Nat) :
    (w.durable d).bytes i <+: d.bytes i := by
  cases w with
  | writing w group view => exact bytes_write_take _ _ _ _
  | down | opening | idle => exact List.prefix_rfl

theorem Ahead.disk_holds (h : s.Ahead) (hs : s.spool.writer.starting = false) :
    s.disk.Holds s.cursor :=
  (h.holds hs).mono (by rw [durable, durable_dir]) (durable_bytes _ _)

theorem Ahead.congr (h : s.Ahead) (hd : s'.disk = s.disk) (hw : s'.spool.writer = s.spool.writer)
    (hc : s'.cursor = s.cursor) : s'.Ahead := by
  have hdur : s'.durable = s.durable := by rw [durable, durable, hw, hd]
  exact ⟨hd ▸ h.sorted, by rw [hw, hd]; exact h.stands, by rw [hw, hc]; exact h.next,
    by rw [hw, hc, hdur]; exact h.holds⟩

theorem Ahead.init : Ahead {} := by
  refine ⟨by simp [disk], trivial, by simp [Writer.up], fun _ => ?_⟩
  simp [Disk.Holds, durable, Writer.durable, disk]

theorem step_reader (s : System) (e : Event) (h : ∀ op, e ≠ .writer op) :
    (s.step e).disk = s.disk ∧ (s.step e).writer = s.writer := by
  cases e with
  | writer op => exact absurd rfl (h op)
  | call limit => exact ⟨rfl, rfl⟩
  | turn =>
    simp only [System.step]
    split <;> exact ⟨rfl, rfl⟩

/-- An operation is judged by the directory and the writer it leaves. -/
theorem ahead_of {op : WriterOp} {d : Disk} {v : Writer}
    (he : s.spool.writer.step s.disk op = (d, v)) (hs : d.dir.Pairwise fun a b => a.1 < b.1)
    (hst : v.Stands d) (hn : ∀ w ∈ v.up, s.cursor < w.nextSeq)
    (hh : v.starting = false → (v.durable d).Holds s.cursor) : (s.step (.writer op)).Ahead := by
  have hd : (s.step (.writer op)).disk = d := congrArg Prod.fst he
  have hw : (s.step (.writer op)).spool.writer = v := congrArg Prod.snd he
  exact ⟨hd ▸ hs, by rw [hw, hd]; exact hst, by rw [hw]; exact hn,
    by rw [durable, hw, hd]; exact hh⟩

/-- `_recover` finds every record up to the cursor. -/
theorem Ahead.start (h : s.Ahead) {maxBytes : Nat} (hs : s.spool.writer = .down)
    (hg : s.disk.Numbered) : (s.step (.writer (.start maxBytes))).Ahead := by
  have hheld := h.disk_holds (by rw [hs]; rfl)
  obtain ⟨d, n, t, hr⟩ : ∃ d n t, recover s.disk = (d, n, t) := ⟨_, _, _, rfl⟩
  have hfacts : (∀ e ∈ d.dir, e.1 < n) ∧ s.cursor < n ∧ d.dir.Pairwise fun a b => a.1 < b.1 := by
    have hsort := h.sorted
    unfold Disk.Holds at hheld
    unfold Disk.Numbered at hg
    unfold recover at hr
    cases hl : s.disk.dir.getLast? with
    | none =>
      have hnil := List.getLast?_eq_none_iff.mp hl
      simp only [hl, Prod.mk.injEq] at hr hheld
      obtain ⟨rfl, rfl, -⟩ := hr
      exact ⟨by simp [hnil], by omega, hsort⟩
    | some e =>
      obtain ⟨l, hdir⟩ := List.getLast?_eq_some_iff.mp hl
      simp only [hl] at hr hheld hg
      have hle : ∀ a ∈ s.disk.dir, a.1 ≤ e.1 := by
        intro a ha
        rw [hdir, List.pairwise_append] at hsort
        rw [hdir, List.mem_append, List.mem_singleton] at ha
        rcases ha with ha | rfl
        · exact (hsort.2.2 a ha e (by simp)).le
        · exact le_rfl
      cases hrs : (parse (s.disk.bytes e.2)).1.getLast? with
      | none =>
        rw [List.getLast?_eq_none_iff] at hrs
        simp only [hrs, List.getLast?_nil, Prod.mk.injEq] at hr
        rw [hrs] at hheld
        obtain ⟨rfl, rfl, -⟩ := hr
        refine ⟨fun a ha => ?_, by simpa [sequential] using hheld, hsort.filter _⟩
        obtain ⟨ha, hne⟩ := List.mem_filter.mp ha
        have := hle a ha
        simp only [ne_eq, decide_not, Bool.not_eq_eq_eq_not, Bool.not_true, decide_eq_false_iff_not]
          at hne
        omega
      | some r =>
        simp only [hrs, Prod.mk.injEq] at hr
        obtain ⟨rfl, rfl, -⟩ := hr
        have hlast := sequential_getLast hg hrs
        have hpos : 0 < (parse (s.disk.bytes e.2)).1.length := by
          refine List.length_pos_iff.mpr fun hnil => ?_
          rw [hnil] at hrs
          exact absurd hrs (by simp)
        refine ⟨fun a ha => ?_, by omega, hsort⟩
        have := hle a ha
        omega
  obtain ⟨hlt, hnext, hsort⟩ := hfacts
  have he : s.spool.writer.step s.disk (.start maxBytes) =
      (d, .opening { maxBytes, nextSeq := n, torn := t } true) := by
    rw [hs]
    simp only [Writer.step, hr]
  exact ahead_of he hsort hlt (by simpa [Writer.up] using hnext) (by simp [Writer.starting])

/-- The new segment begins beyond the cursor. -/
theorem Ahead.openSegment (h : s.Ahead) {w : SpoolWriter} {starting : Bool}
    (hs : s.spool.writer = .opening w starting) : (s.step (.writer .openSegment)).Ahead := by
  have hst := h.stands
  have hnext := h.next
  rw [hs] at hst hnext
  have hcur : s.cursor < w.nextSeq := hnext w rfl
  obtain ⟨d, hd⟩ : ∃ d, d = Disk.mk (s.disk.files ++ [[]])
      (s.disk.dir ++ [(w.nextSeq, s.disk.files.length)]) := ⟨_, rfl⟩
  have hopen : s.disk.openAppend w.nextSeq = (d, s.disk.files.length) := by
    rw [hd]
    exact openAppend_fresh hst
  have hnew : d.bytes s.disk.files.length = [] := by simp [hd, Disk.bytes]
  have he : s.spool.writer.step s.disk .openSegment =
      (d, .idle { w with
        ino := s.disk.files.length, size := 0, used := if starting then d.usage else w.used }) := by
    rw [hs]
    simp only [Writer.step, hopen, hnew, List.length_nil]
  refine ahead_of he ?_ ⟨by simp [hd], by rw [hnew]; rfl, _, w.nextSeq, by rw [hd], le_rfl, .inl rfl⟩
    (by simpa [Writer.up] using hcur) fun _ => ?_
  · rw [hd]
    refine List.pairwise_append.mpr ⟨h.sorted, List.pairwise_singleton _ _, fun a ha b hb => ?_⟩
    rw [List.mem_singleton.mp hb]
    exact hst a ha
  · have hlast : d.dir.getLast? = some (w.nextSeq, s.disk.files.length) := by
      rw [hd]
      exact List.getLast?_concat
    simp only [Disk.Holds, Writer.durable, hlast]
    exact Nat.lt_add_right _ hcur

/-- An operation that leaves the names and all of the durable bytes alone, and takes the number no
lower. -/
theorem Ahead.advance (h : s.Ahead) {op : WriterOp} {d : Disk} {v : Writer}
    (he : s.spool.writer.step s.disk op = (d, v)) (hup : s.spool.writer.starting = false)
    (hd : d.dir = s.disk.dir) (hb : ∀ i, s.durable.bytes i <+: (v.durable d).bytes i)
    (hst : v.Stands d) (hn : ∀ w' ∈ v.up, ∃ w ∈ s.spool.writer.up, w.nextSeq ≤ w'.nextSeq) :
    (s.step (.writer op)).Ahead := by
  refine ahead_of he (hd ▸ h.sorted) hst (fun w' hw' => ?_) fun _ => ?_
  · obtain ⟨w, hw, hle⟩ := hn w' hw'
    exact (h.next w hw).trans_le hle
  · exact (h.holds hup).mono (by rw [durable, durable_dir, durable_dir, hd]) hb

theorem Ahead.crash (h : s.Ahead) (hg : s.spool.writer.starting = true → s.disk.Holds s.cursor) :
    (s.step (.writer .crash)).Ahead := by
  refine ahead_of (d := s.disk) (v := .down) rfl h.sorted trivial (by simp [Writer.up]) fun _ => ?_
  cases hs : s.spool.writer.starting with
  | true => exact hg hs
  | false => exact h.disk_holds hs

theorem Ahead.writing (h : s.Ahead) {w : SpoolWriter} {group : List Bytes} {view : Bytes}
    (hs : s.spool.writer = .writing w group view) {op : WriterOp} (hop : op ≠ .crash) :
    (s.step (.writer op)).Ahead := by
  have hst := h.stands
  rw [hs] at hst
  obtain ⟨hino, ⟨k, hk, hview⟩, l, first, hdir, hle, hsize⟩ := hst
  have hup : s.spool.writer.starting = false := by rw [hs]; rfl
  have hdur : s.durable = s.disk.write w.ino ((s.disk.bytes w.ino).take w.size) := by
    rw [durable, hs]
    rfl
  have hsame : s.spool.writer.step s.disk op = (s.disk, s.spool.writer) →
      (s.step (.writer op)).Ahead := fun he =>
    h.congr (congrArg Prod.fst he) (congrArg Prod.snd he) rfl
  cases op with
  | crash => exact absurd rfl hop
  | start | openSegment | refreshUsage | append => exact hsame (by rw [hs]; rfl)
  | write n =>
    obtain ⟨d, hd⟩ : ∃ d, d = s.disk.write w.ino (s.disk.bytes w.ino ++ view.take n) := ⟨_, rfl⟩
    have hbytes : d.bytes w.ino = s.disk.bytes w.ino ++ view.take n := by
      rw [hd, Disk.bytes_write hino]
    have hlen : (view.take n).length + (view.drop n).length = view.length := by
      rw [← List.length_append, List.take_append_drop]
    refine h.advance (d := d) (v := .writing w group (view.drop n)) (by rw [hs, hd]; rfl) hup
      (by rw [hd]; rfl) (fun i => ?_) ⟨by simpa [hd] using hino, ⟨k + (view.take n).length, ?_, ?_⟩,
        l, first, by rw [hd]; exact hdir, hle, hsize⟩ (by simp [hs, Writer.up])
    · -- what is written comes behind the durable bytes
      have hwrite : (Writer.writing w group (view.drop n)).durable d = s.durable := by
        rw [hdur, Writer.durable, hbytes, List.take_append_of_le_length (by omega), hd]
        simp only [Disk.write, List.set_set]
      rw [hwrite]
    · rw [hbytes, List.length_append]
      omega
    · omega
  | sync =>
    cases view with
    | cons b view => exact hsame (by rw [hs]; rfl)
    | nil =>
      have hprefix : ∀ i, s.durable.bytes i <+: s.disk.bytes i := durable_bytes _ _
      have hnext : (w.appended group).nextSeq = w.nextSeq + group.length := rfl
      have hlen : (w.appended group).size = (s.disk.bytes w.ino).length := by
        simp only [SpoolWriter.appended]
        simp only [List.length_nil] at hview
        omega
      have hgrown : (w.appended group).size = 0 ∨ first < (w.appended group).nextSeq := by
        rcases hsize with h0 | hlt
        · cases group with
          | nil => exact .inl (by simp [SpoolWriter.appended, h0, number, frames, Coding.encodes])
          | cons p group => exact .inr (by rw [hnext, List.length_cons]; omega)
        · exact .inr (by omega)
      have hn : ∀ w' ∈ some (w.appended group), ∃ w₀ ∈ s.spool.writer.up, w₀.nextSeq ≤ w'.nextSeq := by
        rintro w' hw'
        obtain rfl := Option.mem_some_iff.mp hw'
        exact ⟨w, by rw [hs]; rfl, by rw [hnext]; omega⟩
      by_cases hfull : (w.appended group).size ≥ SEGMENT_BYTES
      · refine h.advance (d := s.disk) (v := .opening (w.appended group) false)
          (by simp [hs, Writer.step, hfull]) hup rfl hprefix (fun e he => ?_) hn
        have hfirst : first < (w.appended group).nextSeq := hgrown.resolve_left fun h0 => by
          rw [h0] at hfull
          exact absurd hfull (by decide)
        have hsort := h.sorted
        rw [hdir, List.pairwise_append] at hsort
        rw [hdir, List.mem_append, List.mem_singleton] at he
        rcases he with he | rfl
        · exact (hsort.2.2 e he (first, w.ino) (by simp)).trans hfirst
        · exact hfirst
      · exact h.advance (d := s.disk) (v := .idle (w.appended group))
          (by simp [hs, Writer.step, hfull]) hup rfl hprefix
          ⟨hino, hlen, l, first, hdir, by rw [hnext]; omega, hgrown⟩ hn
  | fail =>
    obtain ⟨d, hd⟩ : ∃ d, d = s.durable := ⟨_, rfl⟩
    refine h.advance (d := d) (v := .idle w) (by rw [hs, hd, hdur]; rfl) hup (by rw [hd, hdur]; rfl)
      (fun i => by rw [hd]; exact List.prefix_rfl) ⟨by simpa [hd, hdur] using hino, ?_,
        l, first, by rw [hd, hdur]; exact hdir, hle, hsize⟩ (by simp [hs, Writer.up])
    rw [hd, hdur, Disk.bytes_write hino, List.length_take]
    omega

theorem Ahead.writer (h : s.Ahead) {op : WriterOp} (hg : s.Spares (.writer op)) :
    (s.step (.writer op)).Ahead := by
  have hsame : s.spool.writer.step s.disk op = (s.disk, s.spool.writer) →
      (s.step (.writer op)).Ahead := fun he =>
    h.congr (congrArg Prod.fst he) (congrArg Prod.snd he) rfl
  cases hs : s.spool.writer with
  | down =>
    cases op with
    | start maxBytes => exact h.start hs (hg hs)
    | crash => exact h.crash hg
    | openSegment | refreshUsage | append | write | sync | fail => exact hsame (by rw [hs]; rfl)
  | opening w starting =>
    cases op with
    | openSegment => exact h.openSegment hs
    | crash => exact h.crash hg
    | start | refreshUsage | append | write | sync | fail => exact hsame (by rw [hs]; rfl)
  | idle w =>
    have hst := h.stands
    rw [hs] at hst
    have hup : s.spool.writer.starting = false := by rw [hs]; rfl
    cases op with
    | refreshUsage =>
      refine h.advance (d := s.disk) (v := .idle { w with used := s.disk.usage }) (by rw [hs]; rfl) hup
        rfl (fun i => ?_) hst (by simp [hs, Writer.up])
      rw [durable, hs]
      exact List.prefix_rfl
    | append group =>
      by_cases hfull : w.used ≥ w.maxBytes
      · exact hsame (by simp [hs, Writer.step, hfull])
      · by_cases hpack : Packs w.nextSeq group
        · obtain ⟨hino, hsize, hdir⟩ := hst
          refine h.advance (d := s.disk) (v := .writing w group (frames (number w.nextSeq group)))
            (by simp [hs, Writer.step, hfull, hpack]) hup rfl (fun i => ?_)
            ⟨hino, ⟨0, hsize, Nat.zero_add _⟩, hdir⟩ (by simp [hs, Writer.up])
          have hdur : s.durable = s.disk := by rw [durable, hs]; rfl
          rw [hdur, Writer.durable, hsize, List.take_length, Disk.write_self]
        · exact hsame (by simp [hs, Writer.step, hfull, hpack])
    | crash => exact h.crash hg
    | start | openSegment | write | sync | fail => exact hsame (by rw [hs]; rfl)
  | writing w group view =>
    by_cases hop : op = .crash
    · subst hop
      exact h.crash hg
    · exact h.writing hs hop

theorem getLast?_filter {α : Type*} {l : List α} {p : α → Bool} {a : α} (h : l.getLast? = some a)
    (hp : p a = true) : (l.filter p).getLast? = some a := by
  obtain ⟨l', rfl⟩ := List.getLast?_eq_some_iff.mp h
  rw [List.filter_append, List.filter_cons, if_pos hp]
  exact List.getLast?_concat

/-- A pruned segment is not the newest. -/
theorem Ahead.unlink (h : s.Ahead) (hg : s.Spares .unlink) : (s.step .unlink).Ahead := by
  cases hdoom : s.doomed with
  | nil =>
    have he : s.step .unlink = s := by simp [step, hdoom]
    rw [he]
    exact h
  | cons first doomed =>
    have he : s.step .unlink = { s.setDisk (s.disk.unlink first) with doomed } := by
      simp [step, hdoom]
    rw [he]
    have hlast : (s.disk.unlink first).dir.getLast? = s.disk.dir.getLast? := by
      cases hl : s.disk.dir.getLast? with
      | none => simp [Disk.unlink, List.getLast?_eq_none_iff.mp hl]
      | some e =>
        have hne : e.1 ≠ first := hg e hl first (by simp [hdoom])
        exact getLast?_filter hl (by simpa using hne)
    refine ⟨h.sorted.filter _, ?_, h.next, fun hs => (h.holds hs).mono ?_ fun i => ?_⟩
    · have hst := h.stands
      change s.spool.writer.Stands (s.disk.unlink first)
      have hnewest : ∀ (l : List (Nat × Nat)) (f i : Nat), s.disk.dir = l ++ [(f, i)] →
          ∃ l', (s.disk.unlink first).dir = l' ++ [(f, i)] := fun l f i hd => by
        rw [hd, List.getLast?_concat] at hlast
        exact List.getLast?_eq_some_iff.mp hlast
      cases hs : s.spool.writer with
      | down => trivial
      | opening w starting =>
        rw [hs] at hst
        exact fun e he => hst e (List.mem_of_mem_filter he)
      | idle w =>
        rw [hs] at hst
        obtain ⟨hino, hsize, l, f, hd, hle, hgrown⟩ := hst
        obtain ⟨l', hl'⟩ := hnewest l f w.ino hd
        exact ⟨hino, hsize, l', f, hl', hle, hgrown⟩
      | writing w group view =>
        rw [hs] at hst
        obtain ⟨hino, hsize, l, f, hd, hle, hgrown⟩ := hst
        obtain ⟨l', hl'⟩ := hnewest l f w.ino hd
        exact ⟨hino, hsize, l', f, hl', hle, hgrown⟩
    · rw [durable, durable_dir, durable, durable_dir]
      exact hlast
    · have hdur : (Feed.durable { s.setDisk (s.disk.unlink first) with doomed }).bytes i =
          s.durable.bytes i := by
        simp only [durable, setDisk, disk]
        cases s.spool.writer <;> rfl
      rw [hdur]

/-- Bytes changed in place are as many as they were. -/
theorem Ahead.rot (h : s.Ahead) {ino : Nat} {b : Bytes} (hg : s.Spares (.rot ino b)) :
    (s.step (.rot ino b)).Ahead := by
  by_cases hb : b.length = (s.disk.bytes ino).length
  · have he : s.step (.rot ino b) = s.setDisk (s.disk.write ino b) := by simp [step, hb]
    have hlen : ∀ i, ((s.disk.write ino b).bytes i).length = (s.disk.bytes i).length := by
      intro i
      by_cases hi : ino = i
      · subst hi
        by_cases hlt : ino < s.disk.files.length
        · rw [Disk.bytes_write hlt, hb]
        · simp [Disk.bytes, Disk.write, hlt]
      · rw [Disk.bytes_write_ne hi]
    have hst := h.stands
    simp only [Spares, he] at hg
    rw [he]
    refine ⟨h.sorted, ?_, h.next, hg⟩
    change s.spool.writer.Stands (s.disk.write ino b)
    cases hs : s.spool.writer with
    | down => trivial
    | opening w starting =>
      rw [hs] at hst
      exact hst
    | idle w =>
      rw [hs] at hst
      obtain ⟨hino, hsize, hd⟩ := hst
      exact ⟨by simpa using hino, hsize.trans (hlen _).symm, hd⟩
    | writing w group view =>
      rw [hs] at hst
      obtain ⟨hino, ⟨k, hk, hview⟩, hd⟩ := hst
      exact ⟨by simpa using hino, ⟨k, hk.trans (hlen _).symm, hview⟩, hd⟩
  · have he : s.step (.rot ino b) = s := by simp [step, hb]
    rw [he]
    exact h

theorem Ahead.lose (h : s.Ahead) {b : Bytes} (hg : s.Spares (.lose b)) : (s.step (.lose b)).Ahead := by
  cases hs : s.spool.writer with
  | down =>
    cases hl : s.disk.dir.getLast? with
    | none =>
      have he : s.step (.lose b) = s := by simp [step, hs, hl]
      rw [he]
      exact h
    | some e =>
      have he : s.step (.lose b) = s.setDisk (s.disk.write e.2 b) := by simp [step, hs, hl]
      simp only [Spares, he] at hg
      rw [he]
      refine ⟨h.sorted, ?_, h.next, hg⟩
      change s.spool.writer.Stands (s.disk.write e.2 b)
      rw [hs]
      trivial
  | opening | idle | writing =>
    have he : s.step (.lose b) = s := by simp [step, hs]
    rw [he]
    exact h

theorem Ahead.step {e : FeedEvent} (h : s.Ahead) (hg : s.Spares e) : (s.step e).Ahead := by
  cases e with
  | writer op => exact h.writer hg
  | call limit => exact h.congr rfl rfl rfl
  | turn =>
    obtain ⟨hd, hw⟩ := step_reader s.spool .turn (by simp)
    exact h.congr hd hw rfl
  | commit seq =>
    by_cases hc : s.cursor ≤ seq ∧ seq ∈ s.spool.returned.map Prod.fst
    · have he : s.step (.commit seq) = { s with cursor := seq } := by rw [Feed.step, if_pos hc]
      rw [he]
      exact ⟨h.sorted, h.stands, hg.2, hg.1⟩
    · have he : s.step (.commit seq) = s := by rw [Feed.step, if_neg hc]
      rw [he]
      exact h
  | rewind => exact h.congr rfl rfl rfl
  | list => exact h.congr rfl rfl rfl
  | unlink => exact h.unlink hg
  | rot ino b => exact h.rot hg
  | lose b => exact h.lose hg

/-- The writer's next number is beyond the cursor, and a reader at the cursor takes whatever is
appended from there on. -/
def Fresh (s : Feed) : Prop :=
  ∀ w ∈ s.spool.writer.up, s.cursor < w.nextSeq ∧
    ∀ group, (SpoolReader.accept { after := s.cursor } (number w.nextSeq group)).out =
      number w.nextSeq group

theorem Ahead.fresh (h : s.Ahead) : s.Fresh := by
  intro w hw
  have hlt := h.next w hw
  refine ⟨hlt, fun group => ?_⟩
  obtain ⟨m, hm⟩ : ∃ m, w.nextSeq = m + 1 := ⟨w.nextSeq - 1, by omega⟩
  rw [hm, accept_fresh _ _ _ (show s.cursor ≤ m by omega)]
  rfl

end Feed

/-- No number is given out twice: in every run of a writer, a reader that commits, prunes and starts
again, and a disk, in which the committed records of the newest segment are durable and stay so. -/
theorem next_beyond_cursor (es : List FeedEvent) (h : Meets Feed.step Feed.Spares {} es) :
    (run Feed.step {} es).Fresh :=
  (run_invariant (fun _ _ hs hg => hs.step hg) _ es Feed.Ahead.init h).fresh

/-- Three records appended, returned and committed up to a number; the writer's process ends, bytes
of its segment change, and it starts again. -/
def restartAfter (cursor : Nat) (b : Bytes) : List FeedEvent :=
  [.writer (.start 1000), .writer .openSegment, .writer (.append [[1], [2], [3]]), .writer (.write 51),
    .writer .sync, .call 10, .turn, .turn, .turn, .turn, .turn, .commit cursor, .writer .crash, .rot 0 b,
    .writer (.start 1000)]

/-- The third record is damaged and not committed. -/
theorem next_beyond_cursor_after_damage :
    let es := restartAfter 2 (frame 1 [1] ++ frame 2 [2] ++ (frame 3 [3]).set 16 0)
    (run Feed.step {} es).cursor = 2 ∧ (run Feed.step {} es).Fresh :=
  ⟨by decide +kernel, next_beyond_cursor _ (by decide +kernel)⟩

/-- The second one is damaged and all are committed: the writer gives out 2 and 3 again. -/
theorem damage_reuses_committed_numbers : ¬ ∀ es : List FeedEvent, (run Feed.step {} es).Fresh := by
  intro hall
  have h := hall (restartAfter 3 (frame 1 [1] ++ (frame 2 [2]).set 16 0 ++ frame 3 [3]))
    { maxBytes := 1000, nextSeq := 2, torn := 34 } (by decide +kernel)
  exact absurd h.1 (by decide +kernel)

end NetCoreNoc.Spool
