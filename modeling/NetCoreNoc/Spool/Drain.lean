import Mathlib
import NetCoreNoc.Spool.Refine

/-! With the writer quiet, repeated reads come to an end and return every record. -/
namespace NetCoreNoc.Spool
open Runs

/-- The bytes of some listed segments. -/
def ahead (d : Disk) (es : List (Nat × Nat)) : Nat := (es.map fun e => (d.bytes e.2).length).sum

/-- What a reader still has before it, weighed so that every turn takes from it. -/
def SpoolReader.work (d : Disk) (r : SpoolReader) : Nat :=
  (match r.file with
    | none => 3 * ahead d d.dir + 2 * d.dir.length + 2
    | some h => 3 * (ahead d (SpoolReader.later d h) + ((d.bytes h.ino).drop h.pos).length) +
        r.buffer.length + 2 * (SpoolReader.later d h).length) +
  match r.phase with
  | .reading => 1
  | _ => 0

private theorem filter_suffix {l : List (Nat × Nat)} (h : l.Pairwise fun a b => a.1 < b.1) (n : Nat) :
    l = l.filter (fun a => decide (a.1 < n)) ++ l.filter (fun a => decide (n ≤ a.1)) := by
  induction l with
  | nil => rfl
  | cons a l ih =>
    obtain ⟨ha, hl⟩ := List.pairwise_cons.mp h
    by_cases hn : a.1 < n
    · simp only [List.filter_cons, hn, decide_true, if_true, List.cons_append, not_le.mpr hn,
        decide_false, Bool.false_eq_true, if_false]
      rw [← ih hl]
    · have hnil : l.filter (fun a => decide (a.1 < n)) = [] := by
        rw [List.filter_eq_nil_iff]
        intro b hb
        have := ha b hb
        simp only [decide_eq_true_eq]
        omega
      have hall : l.filter (fun a => decide (n ≤ a.1)) = l := by
        rw [List.filter_eq_self]
        intro b hb
        have := ha b hb
        simp only [decide_eq_true_eq]
        omega
      simp [hn, hnil, hall, not_lt.mp hn]

private theorem entry_unique {l : List (Nat × Nat)} (h : l.Pairwise fun a b => a.1 < b.1)
    {a b : Nat × Nat} (ha : a ∈ l) (hb : b ∈ l) (hab : a.1 = b.1) : a = b := by
  obtain ⟨l₁, l₂, rfl⟩ := List.append_of_mem hb
  rw [List.pairwise_append, List.pairwise_cons] at h
  rcases List.mem_append.mp ha with ha | ha
  · exact absurd hab (h.2.2 a ha b (by simp)).ne
  · rcases List.mem_cons.mp ha with rfl | ha
    · rfl
    · exact absurd hab (h.2.1.1 a ha).ne'

/-- What comes after an open file is the end of the listing. -/
theorem later_suffix {d : Disk} (hs : d.dir.Pairwise fun a b => a.1 < b.1) (h : Handle) :
    ∃ l, d.dir = l ++ SpoolReader.later d h := by
  obtain ⟨n, hn⟩ : ∃ n, SpoolReader.later d h = d.dir.filter (fun a => decide (n ≤ a.1)) := by
    obtain ⟨replaced, hr⟩ : ∃ b, SpoolReader.later d h =
        (d.dir.filter (fun a => decide (h.first ≤ a.1))).filter fun e => h.first < e.1 || b :=
      ⟨_, rfl⟩
    rw [hr, List.filter_filter]
    cases replaced with
    | true => exact ⟨h.first, List.filter_congr fun a _ => by simp⟩
    | false =>
      refine ⟨h.first + 1, List.filter_congr fun a _ => ?_⟩
      rw [Bool.eq_iff_iff]
      simp only [Bool.or_false, Bool.and_eq_true, decide_eq_true_eq]
      omega
  exact ⟨_, hn ▸ filter_suffix hs n⟩

theorem later_tail {d : Disk} (hs : d.dir.Pairwise fun a b => a.1 < b.1) {h : Handle}
    {e : Nat × Nat} {l : List (Nat × Nat)} (he : SpoolReader.later d h = e :: l) :
    SpoolReader.later d ⟨e.2, 0, e.1⟩ = l := by
  obtain ⟨l', hl'⟩ := later_suffix hs h
  rw [he] at hl'
  exact later_listed hs hl' 0

variable {d : Disk} {v : View} {r : SpoolReader}

/-- An open file that gives no more bytes has been read to where the next begins. -/
theorem Follows.at_end {h : Handle} {m : Nat}
    (hf : Follows d v r h m) (hk : Kept d v) (ha : r.after ≤ v.seen.length) (hp : v.promised = v.log)
    (hs : front r.buffer = .short) (he : (d.bytes h.ino).drop h.pos = []) : next d v h ≤ m + 1 := by
  by_cases hl : v.live = some h.ino
  · obtain ⟨hd, hpos, hgot⟩ := hf.growing hl
    obtain ⟨q, t, stream, hlq, hq, hb, ht, hs₁, hs₂⟩ := hk.growing _ _ hl hd
    have hlog := hk.log_promised.trans hk.promised_seen
    have hfirst := hf.first_le
    have hfl := hf.first_log
    have hpre : frames (span v.seen (h.first - 1) m) ++ r.buffer <+: d.bytes h.ino := by
      refine hgot.elim id fun hg => hg.trans ?_
      rw [hp, hb, span_of_mono hlog le_rfl, span_append (a := h.first - 1) (b := v.log.length) (by omega) hlq,
        frames_append, List.append_assoc]
      exact List.prefix_append _ _
    have hall : frames (span v.seen (h.first - 1) m) ++ r.buffer = d.bytes h.ino :=
      hpre.eq_of_length_le (by rw [hpos]; exact List.drop_eq_nil_iff.mp he)
    rw [hb] at hall
    obtain ⟨hmq, hbuf⟩ := cancel_span hk.writable (by omega) (hf.m_le.trans ha) hq ht hall
    have hpf := parse_frames (hk.writable.of_span m (max m q)) ht
    rw [← hbuf, parse, Parsing.Framing.parse_short (F := records.toFraming) hs] at hpf
    have hlen := congrArg List.length (Prod.mk.inj hpf).1
    rw [span_length (max_le (hf.m_le.trans ha) hq), List.length_nil] at hlen
    have hnext := hk.next_le h
    omega
  · exact hf.caught_up hk hs hl he

/-- A reader of a quiet spool: at the end of a file it has all of it. -/
structure Drains (d : Disk) (v : View) (r : SpoolReader) (ret : List Record) : Prop where
  reads : Reads d v r (ret ++ r.out)
  kept : Kept d v
  quiet : v.promised = v.log ∧ v.seen = v.log
  eof : r.phase = .ended → ∀ h, r.file = some h → (d.bytes h.ino).drop h.pos = []

/-- A turn that returns has what was asked for, or all there is. -/
def Returns (v : View) (r r' : SpoolReader) : Prop :=
  r'.phase = .idle → r.limit ≤ r'.out.length ∨ r'.after = v.log.length

private theorem ahead_append (d : Disk) (l l' : List (Nat × Nat)) :
    ahead d (l ++ l') = ahead d l + ahead d l' := by
  simp [ahead]

private theorem ahead_cons (d : Disk) (e : Nat × Nat) (l : List (Nat × Nat)) :
    ahead d (e :: l) = (d.bytes e.2).length + ahead d l := by
  simp [ahead]

variable {d : Disk} {r : SpoolReader}

/-- Opening a segment leaves what comes after it. -/
theorem work_opened {e : Nat × Nat} (hf : r.file = some ⟨e.2, 0, e.1⟩)
    (hb : r.buffer = []) (hp : r.phase = .reading) :
    r.work d = 3 * (ahead d (SpoolReader.later d ⟨e.2, 0, e.1⟩) + (d.bytes e.2).length) +
      2 * (SpoolReader.later d ⟨e.2, 0, e.1⟩).length + 1 := by
  simp [SpoolReader.work, hf, hb, hp]

theorem accept_eq (r : SpoolReader) (rs : List Record) :
    ∃ out after, r.accept rs = { r with out, after } := by
  induction rs generalizing r with
  | nil => exact ⟨r.out, r.after, rfl⟩
  | cons q rs ih =>
    have hcons : r.accept (q :: rs) =
        (if q.1 > r.after then { r with out := r.out ++ [q], after := q.1 } else r).accept rs := rfl
    rw [hcons]
    obtain ⟨out, after, h⟩ :=
      ih (if q.1 > r.after then { r with out := r.out ++ [q], after := q.1 } else r)
    refine ⟨out, after, ?_⟩
    rw [h]
    split <;> rfl

theorem resyncStep_pos (buffer : Bytes) : 0 < SpoolReader.resyncStep buffer := by
  unfold SpoolReader.resyncStep
  simp only
  split
  · unfold HEADER_SIZE
    omega
  · exact Nat.one_pos

/-- The scan does not run out of what it has. -/
theorem resyncStep_le {buffer : Bytes} (h : front buffer = .corrupt) :
    SpoolReader.resyncStep buffer ≤ buffer.length := by
  unfold SpoolReader.resyncStep
  simp only
  split
  · rename_i hleads
    by_contra hlt
    rw [List.drop_eq_nil_of_le (by omega)] at hleads
    exact hleads.2 rfl
  · cases buffer with
    | nil => exact absurd h (by decide)
    | cons b bs => simp

/-- A turn over an open file, whatever it holds. -/
theorem turn_open {h : Handle} {rs : List Record} {rest : Bytes} {c : Bool}
    {out : List Record} {after : Nat} (hp : r.phase = .reading) (hh : r.file = some h)
    (hl : ¬ r.limit ≤ r.out.length) (hb : parse r.buffer = (rs, rest, c))
    (ha : SpoolReader.accept { r with buffer := rest } rs = { r with buffer := rest, out, after }) :
    r.turn d =
      let r' : SpoolReader := { r with buffer := rest, out, after }
      let chunk := ((d.bytes h.ino).drop h.pos).take READ_CHUNK
      if c then r'.resync
      else if rs ≠ [] then r'
      else if chunk ≠ [] then
        { r' with buffer := rest ++ chunk, file := some { h with pos := h.pos + chunk.length } }
      else { r' with phase := .ended } := by
  simp only [SpoolReader.turn, hp, hh, hl, if_false, hb] at ha ⊢
  rw [ha]

/-- A turn over an open file takes from the work. -/
theorem work_reading {h : Handle} (hp : r.phase = .reading)
    (hh : r.file = some h) (hl : r.out.length < r.limit) :
    (r.turn d).work d < r.work d ∧ (r.turn d).phase ≠ .idle ∧ (r.turn d).limit = r.limit := by
  obtain ⟨hle, hlt⟩ := Parsing.Framing.parse_length (F := records.toFraming) r.buffer
  have hrest := Parsing.Framing.parse_rest (F := records.toFraming) r.buffer
  obtain ⟨rs, rest, c, hb⟩ : ∃ rs rest c, records.parse r.buffer = (rs, rest, c) := ⟨_, _, _, rfl⟩
  simp only [hb] at hle hlt hrest
  obtain ⟨out, after, ha⟩ := accept_eq { r with buffer := rest } rs
  rw [turn_open hp hh (by omega) hb ha]
  cases c with
  | true =>
    have hne : 0 < rest.length := by
      refine List.length_pos_iff.mpr fun hnil => ?_
      simp only [hnil, if_true] at hrest
      exact absurd (records.front_nil.symm.trans hrest) (by simp)
    have hpos := resyncStep_pos rest
    simp only [if_true, SpoolReader.resync, SpoolReader.work, hh, hp, List.length_drop]
    exact ⟨by omega, by simp, trivial⟩
  | false =>
    simp only [Bool.false_eq_true, if_false]
    split
    · rename_i hrs
      have := hlt hrs
      simp only [SpoolReader.work, hh, hp] at this ⊢
      exact ⟨by omega, by simp, trivial⟩
    · split
      · rename_i hchunk
        have hc : 0 < (((d.bytes h.ino).drop h.pos).take READ_CHUNK).length :=
          List.length_pos_iff.mpr hchunk
        have hdrop : ((d.bytes h.ino).drop (h.pos +
            (((d.bytes h.ino).drop h.pos).take READ_CHUNK).length)).length +
            (((d.bytes h.ino).drop h.pos).take READ_CHUNK).length =
            ((d.bytes h.ino).drop h.pos).length := by
          simp only [List.length_drop, List.length_take]
          omega
        have hlater : SpoolReader.later d { h with
            pos := h.pos + (((d.bytes h.ino).drop h.pos).take READ_CHUNK).length } =
            SpoolReader.later d h := rfl
        simp only [SpoolReader.work, hh, hp, hlater, List.length_append] at hle ⊢
        exact ⟨by omega, by simp, trivial⟩
      · simp only [SpoolReader.work, hh, hp] at hle ⊢
        exact ⟨by omega, by simp, trivial⟩

/-- Opening the first file takes from the work. -/
theorem work_opening {d : Disk} {r r' : SpoolReader} {e : Nat × Nat}
    (hs : d.dir.Pairwise fun a b => a.1 < b.1) (he : e ∈ d.dir) (hf : r.file = none)
    (hp : r.phase = .reading) (hf' : r'.file = some ⟨e.2, 0, e.1⟩) (hb' : r'.buffer = [])
    (hp' : r'.phase = .reading) : r'.work d < r.work d := by
  obtain ⟨l₁, l₂, hd⟩ := List.append_of_mem he
  have hlater := later_listed hs hd 0
  rw [work_opened hf' hb' hp', hlater]
  simp only [SpoolReader.work, hf, hp, hd, ahead_append, ahead_cons, List.length_append,
    List.length_cons]
  omega

/-- The work left after a turn, which is less unless the call has returned from a file's end. -/
structure Progress (d : Disk) (v : View) (r r' : SpoolReader) : Prop where
  limit : r'.limit = r.limit
  returns : Returns v r r'
  le : r'.work d ≤ r.work d
  lt : r.phase = .reading ∨ r'.phase ≠ .idle → r'.work d < r.work d

private theorem progress_idle (hp : r.phase = .reading)
    (hr : r.limit ≤ r.out.length ∨ r.after = v.log.length) :
    Progress d v r { r with phase := .idle } := by
  have hlt : SpoolReader.work d { r with phase := .idle } < r.work d := by
    simp [SpoolReader.work, hp]
  exact ⟨rfl, fun _ => hr, hlt.le, fun _ => hlt⟩

variable {ret : List Record}

/-- At the end of a segment the reader goes on to the next, or has everything. -/
theorem Drains.finished {h : Handle}
    (hr : Drains d v r ret) (hp : r.phase = .ended) (hh : r.file = some h) :
    Progress d v r (r.finished d h) ∧ (r.finished d h).phase ≠ .ended := by
  obtain ⟨m, hf⟩ := hr.reads.file h hh
  have hrest := hr.eof hp h hh
  have hnext := hf.at_end hr.kept hr.reads.after_le hr.quiet.1 (hr.reads.ended hp).1 hrest
  have hm := hf.m_le
  cases hlater : SpoolReader.later d h with
  | nil =>
    have he : r.finished d h = { r with phase := .idle } := by simp [SpoolReader.finished, hlater]
    have hw : SpoolReader.work d { r with phase := .idle } = r.work d := by
      simp [SpoolReader.work, hp]
    rw [he]
    refine ⟨⟨rfl, fun _ => .inr ?_, hw.le, by simp [hp]⟩, by simp⟩
    rw [next, hlater] at hnext
    have hle := hr.reads.after_le
    rw [hr.quiet.2] at hle
    simp only at hnext ⊢
    omega
  | cons e l =>
    have hmem : e ∈ d.dir := by
      have : e ∈ SpoolReader.later d h := by rw [hlater]; simp
      exact List.mem_of_mem_filter (List.mem_of_mem_filter this)
    obtain ⟨r₀, hr₀⟩ : ∃ r₀, r₀ = { r with
        torn := r.torn + r.buffer.length, file := none, skipped := r.skipped + (e.1 - (r.after + 1)) } :=
      ⟨_, rfl⟩
    rcases hr.kept.openFile r₀ e.1 (hr.kept.named e hmem).1 with ⟨hnil, -⟩ | ⟨e', he', hle, hmax, hopen⟩
    · rw [hnil] at hmem
      exact absurd hmem (by simp)
    · have hee : e' = e := entry_unique hr.kept.sorted he' hmem (le_antisymm hle (hmax e hmem le_rfl))
      subst hee
      have he : r.finished d h = { r₀ with file := some ⟨e'.2, 0, e'.1⟩, buffer := [], phase := .reading } := by
        rw [hr₀] at hopen ⊢
        simp [SpoolReader.finished, hlater, hrest, hopen]
      have hw : (r.finished d h).work d < r.work d := by
        rw [he, work_opened rfl rfl rfl, later_tail hr.kept.sorted hlater]
        simp only [SpoolReader.work, hh, hlater, ahead_cons, hp, List.length_cons]
        omega
      refine ⟨⟨by rw [he, hr₀], fun hi => ?_, hw.le, fun _ => hw⟩, by rw [he]; simp⟩
      rw [he] at hi
      exact absurd hi (by simp)

/-- A turn of a call takes from the work that is left. -/
theorem Drains.progress
    (hr : Drains d v r ret) (hp : r.phase ≠ .idle) : Progress d v r (r.turn d) := by
  cases hph : r.phase with
  | idle => exact absurd hph hp
  | ended =>
    cases hh : r.file with
    | none => exact absurd hh (hr.reads.ended hph).2
    | some h => simpa [SpoolReader.turn, hph, hh] using (hr.finished hph hh).1
  | reading =>
    by_cases hlim : r.limit ≤ r.out.length
    · cases hh : r.file <;>
        simpa [SpoolReader.turn, hph, hh, hlim] using progress_idle hph (.inl hlim)
    · cases hh : r.file with
      | none =>
        rcases hr.kept.openFile r (r.after + 1) (by omega) with ⟨hd, he⟩ | ⟨e, hed, hel, -, he⟩
        · have hlog := hr.kept.empty hd
          have hle := hr.reads.after_le
          rw [hr.quiet.2, hlog] at hle
          simpa [SpoolReader.turn, hph, hh, hlim, he] using
            progress_idle hph (.inr (by rw [hlog]; exact Nat.le_zero.mp hle))
        · have ht : r.turn d = { r with file := some ⟨e.2, 0, e.1⟩, buffer := [] } := by
            simp [SpoolReader.turn, hph, hh, hlim, he]
          have hw : (r.turn d).work d < r.work d := by
            rw [ht]
            exact work_opening hr.kept.sorted hed hh hph rfl rfl hph
          refine ⟨by rw [ht], fun hi => ?_, hw.le, fun _ => hw⟩
          rw [ht] at hi
          exact absurd (hph.symm.trans hi) (by simp)
      | some h =>
        obtain ⟨hw, hne, hlimit⟩ := work_reading (d := d) hph hh (by omega)
        exact ⟨hlimit, fun hi => absurd hi hne, hw.le, fun _ => hw⟩

theorem finished_not_ended (d : Disk) (r : SpoolReader) (h : Handle) :
    (r.finished d h).phase ≠ .ended := by
  unfold SpoolReader.finished
  split
  · simp
  · simp only
    split
    · simp
    · split <;> simp

theorem Drains.turn
    (hr : Drains d v r ret) : Drains d v (r.turn d) ret := by
  refine ⟨hr.reads.turn hr.kept, hr.kept, hr.quiet, fun he h' hh' => ?_⟩
  cases hph : r.phase with
  | idle =>
    have ht : r.turn d = r := by simp [SpoolReader.turn, hph]
    rw [ht, hph] at he
    exact absurd he (by simp)
  | ended =>
    cases hh : r.file with
    | none => exact absurd hh (hr.reads.ended hph).2
    | some h =>
      have ht : r.turn d = r.finished d h := by simp [SpoolReader.turn, hph, hh]
      rw [ht] at he
      exact absurd he (finished_not_ended d r h)
  | reading =>
    by_cases hlim : r.limit ≤ r.out.length
    · have ht : r.turn d = { r with phase := .idle } := by
        cases hh : r.file <;> simp [SpoolReader.turn, hph, hh, hlim]
      rw [ht] at he
      exact absurd he (by simp)
    · cases hh : r.file with
      | none =>
        rcases hr.kept.openFile r (r.after + 1) (by omega) with ⟨-, ho⟩ | ⟨e, -, -, -, ho⟩
        · simp [SpoolReader.turn, hph, hh, hlim, ho] at he
        · simp [SpoolReader.turn, hph, hh, hlim, ho] at he
      | some h =>
        obtain ⟨m, hf⟩ := hr.reads.file h hh
        obtain ⟨n, t, hb, ht, hn⟩ := hf.buffer hr.kept hr.reads.after_le
        have hparse : parse r.buffer = (span v.seen m (m + n), t, false) := by
          rw [hb, parse_frames (hr.kept.writable.of_span _ _) ht]
        rw [turn_reading hph hh (by omega) hparse] at he hh'
        split at he
        · rw [accept_span (r := { r with buffer := t }) hf.m_le hn] at he
          exact absurd (hph.symm.trans he) (by simp)
        · rename_i hnil
          rw [if_neg hnil] at hh'
          split at he
          · exact absurd (hph.symm.trans he) (by simp)
          · rename_i hchunk
            rw [if_neg hchunk] at hh'
            obtain rfl : h = h' := Option.some.inj (hh.symm.trans hh')
            rw [not_not, List.take_eq_nil_iff] at hchunk
            exact hchunk.resolve_left (by decide)

/-- Turns of `read` over a directory that stands still. -/
def SpoolReader.turns (d : Disk) : Nat → SpoolReader → SpoolReader
  | 0, r => r
  | k + 1, r => turns d k (r.turn d)

theorem turns_idle (h : r.phase = .idle) (k : Nat) : r.turns d k = r := by
  induction k with
  | zero => rfl
  | succ k ih =>
    have ht : r.turn d = r := by simp [SpoolReader.turn, h]
    rw [SpoolReader.turns, ht, ih]

/-- A call of `read` comes back, with as many records as it was asked for or with all there are. -/
theorem Drains.turns {d : Disk} {v : View} {n : Nat} {r : SpoolReader}
    (hr : Drains d v r ret) (hn : r.work d ≤ n) (k : Nat) (hk : n < k) :
    (r.turns d k).phase = .idle ∧ Drains d v (r.turns d k) ret ∧
      (r.phase = .reading → (r.turns d k).work d < r.work d) ∧ (r.turns d k).work d ≤ r.work d ∧
      (r.phase ≠ .idle → r.limit ≤ (r.turns d k).out.length ∨ (r.turns d k).after = v.log.length) := by
  induction n generalizing r k with
  | zero =>
    obtain ⟨k, rfl⟩ : ∃ j, k = j + 1 := ⟨k - 1, by omega⟩
    by_cases hi : r.phase = .idle
    · rw [turns_idle hi]
      exact ⟨hi, hr, fun hp => absurd (hi.symm.trans hp) (by simp), le_rfl, fun hp => absurd hi hp⟩
    · have hpr := hr.progress hi
      have hidle : (r.turn d).phase = .idle := by
        by_contra hne
        have := hpr.lt (.inr hne)
        omega
      rw [SpoolReader.turns, turns_idle hidle]
      exact ⟨hidle, hr.turn, fun hp => hpr.lt (.inl hp), hpr.le, fun _ => hpr.returns hidle⟩
  | succ n ih =>
    obtain ⟨k, rfl⟩ : ∃ j, k = j + 1 := ⟨k - 1, by omega⟩
    by_cases hi : r.phase = .idle
    · rw [turns_idle hi]
      exact ⟨hi, hr, fun hp => absurd (hi.symm.trans hp) (by simp), le_rfl, fun hp => absurd hi hp⟩
    · have hpr := hr.progress hi
      rw [SpoolReader.turns]
      by_cases hidle : (r.turn d).phase = .idle
      · rw [turns_idle hidle]
        exact ⟨hidle, hr.turn, fun hp => hpr.lt (.inl hp), hpr.le, fun _ => hpr.returns hidle⟩
      · have hlt := hpr.lt (.inr hidle)
        obtain ⟨h1, h2, h3, h4, h5⟩ := ih hr.turn (by omega) k (by omega)
        refine ⟨h1, h2, fun _ => by omega, by omega, fun _ => ?_⟩
        rw [← hpr.limit]
        exact h5 hidle

/-- Turns of a run that hold the writer still. -/
theorem run_turns {s : System} (hout : s.reader.phase = .idle → s.reader.out = []) (k : Nat) :
    run System.step s (List.replicate k .turn) =
      match (s.reader.turns s.disk k).phase with
      | .idle => { s with
          reader := { s.reader.turns s.disk k with out := [] }
          returned := s.returned ++ (s.reader.turns s.disk k).out }
      | _ => { s with reader := s.reader.turns s.disk k } := by
  induction k generalizing s with
  | zero =>
    cases hp : s.reader.phase with
    | idle =>
      obtain ⟨disk, writer, ⟨after, torn, corrupt, skipped, file, buffer, limit, out, phase⟩, log, owed,
        returned⟩ := s
      obtain rfl : phase = .idle := hp
      obtain rfl : out = [] := hout rfl
      simp [SpoolReader.turns]
    | reading | ended => simp only [List.replicate, run_nil, SpoolReader.turns, hp]
  | succ k ih =>
    rw [List.replicate_succ, run_cons, SpoolReader.turns]
    cases hp : (s.reader.turn s.disk).phase with
    | idle =>
      obtain ⟨r, hr⟩ : ∃ r, r = { s.reader.turn s.disk with out := [] } := ⟨_, rfl⟩
      have he : s.step .turn =
          { s with reader := r, returned := s.returned ++ (s.reader.turn s.disk).out } := by
        simp [System.step, hp, hr]
      have hri : r.phase = .idle := by rw [hr]; exact hp
      have hro : r.out = [] := by rw [hr]
      rw [he, ih fun _ => hro, turns_idle hp]
      simp only [turns_idle hri, hri, hp, hro, List.append_nil]
      rw [hr]
    | reading | ended =>
      have he : s.step .turn = { s with reader := s.reader.turn s.disk } := by
        simp [System.step, hp]
      rw [he, ih fun hi => absurd (hp.symm.trans hi) (by simp)]

/-- The writer is in no append, and owes none. -/
def System.Quiet (s : System) : Prop := s.pending = [] ∧ s.whole = []

/-- A call that is under way comes to its end in `k` turns, then each limit is read in `k` turns. -/
def reads (k : Nat) (limits : List Nat) : List Event :=
  List.replicate k .turn ++ limits.flatMap fun limit => .call limit :: List.replicate k .turn

/-- Between two calls: everything returned so far, and no more work left than `n`. -/
structure Rests (s : System) (v : View) (n : Nat) : Prop where
  idle : s.reader.phase = .idle
  out : s.reader.out = []
  drains : Drains s.disk v s.reader s.returned
  work : s.reader.work s.disk ≤ n

theorem Drains.rests {s s' : System} {v : View} {n k : Nat}
    (hd : Drains s.disk v s.reader s.returned) (hout : s.reader.phase = .idle → s.reader.out = [])
    (hw : s.reader.work s.disk ≤ n) (hk : n < k)
    (hs' : s' = run System.step s (List.replicate k .turn)) :
    Rests s' v n ∧ s'.disk = s.disk ∧
      (s.reader.phase = .reading → s'.reader.work s.disk < s.reader.work s.disk) ∧
      (s.reader.phase ≠ .idle → s.reader.limit + s.returned.length ≤ s'.returned.length ∨
        s'.reader.after = v.log.length) := by
  obtain ⟨h1, h2, h3, h4, h5⟩ := hd.turns hw k hk
  rw [run_turns hout, h1] at hs'
  subst hs'
  refine ⟨⟨h1, rfl, ⟨?_, h2.kept, h2.quiet, h2.eof⟩, h4.trans hw⟩, rfl, h3, fun hi => ?_⟩
  · rw [List.append_nil]
    exact h2.reads.reader rfl rfl rfl id
  · refine (h5 hi).imp (fun hl => ?_) id
    simp only [List.length_append]
    omega

theorem Rests.returned {s : System} {v : View} {n : Nat} (h : Rests s v n) :
    s.returned = span v.log 0 s.reader.after ∧ s.returned.length = s.reader.after ∧
      s.reader.after ≤ v.log.length := by
  have hr := h.drains.reads
  have hle := hr.after_le
  have hg := hr.got_eq
  rw [h.drains.quiet.2] at hle hg
  rw [h.out, List.append_nil] at hg
  exact ⟨hg, by rw [hg, span_length hle, Nat.sub_zero], hle⟩

/-- One more call returns at least one more record, or there are none left. -/
theorem Rests.call {s s' : System} {v : View} {n k limit : Nat} (h : Rests s v n) (hl : 0 < limit)
    (hk : n + 1 < k) (hs' : s' = run System.step s (.call limit :: List.replicate k .turn)) :
    Rests s' v n ∧ min (s.reader.after + 1) v.log.length ≤ s'.reader.after := by
  have hc : s.step (.call limit) =
      { s with reader := { s.reader with limit, out := [], phase := .reading } } := by
    simp [System.step, SpoolReader.call, h.idle]
  rw [run_cons, hc] at hs'
  have hwork : SpoolReader.work s.disk { s.reader with limit, out := [], phase := .reading } =
      s.reader.work s.disk + 1 := by
    simp [SpoolReader.work, h.idle]
  have hreads := h.drains.reads
  rw [h.out] at hreads
  have hd : Drains s.disk v { s.reader with limit, out := [], phase := .reading } s.returned :=
    ⟨hreads.reader rfl rfl rfl (by simp), h.drains.kept, h.drains.quiet, by simp⟩
  have hw := h.work
  obtain ⟨h1, h2, h3, h4⟩ := Drains.rests (n := n + 1)
    (s := { s with reader := { s.reader with limit, out := [], phase := .reading } }) hd (by simp)
    (by simp only [hwork]; omega) hk hs'
  have hlt := h3 rfl
  simp only [hwork] at hlt
  have hlim := h4 (by simp)
  obtain ⟨-, hlen, -⟩ := h.returned
  obtain ⟨-, hlen', -⟩ := h1.returned
  refine ⟨⟨h1.idle, h1.out, h1.drains, ?_⟩, ?_⟩
  · rw [h2]
    simp only
    omega
  · simp only at hlim
    omega

theorem Rests.calls {v : View} {n k : Nat} (hk : n + 1 < k) (limits : List Nat) :
    ∀ s, Rests s v n → (∀ l ∈ limits, 0 < l) →
      let s' := run System.step s (limits.flatMap fun limit => .call limit :: List.replicate k .turn)
      Rests s' v n ∧ min (s.reader.after + limits.length) v.log.length ≤ s'.reader.after := by
  induction limits with
  | nil =>
    intro s h _
    exact ⟨h, Nat.min_le_left _ _⟩
  | cons l limits ih =>
    intro s h hl
    obtain ⟨h1, h2⟩ := h.call (hl l (by simp)) hk rfl
    obtain ⟨h3, h4⟩ := ih _ h1 fun l' hl' => hl l' (by simp [hl'])
    rw [List.flatMap_cons, run_append]
    refine ⟨h3, ?_⟩
    simp only [List.length_cons]
    omega

/-- With the writer quiet, every call comes back, and as many calls as there are records return them
all. -/
theorem Sound.drained {s : System} (h : Sound s) (hq : s.Quiet) :
    ∃ k₀, ∀ k ≥ k₀, ∀ limits : List Nat, (∀ l ∈ limits, 0 < l) → s.log.length ≤ limits.length →
      (Runs.run System.step s (reads k limits)).returned = number 1 s.log := by
  obtain ⟨hp, hwh⟩ := hq
  obtain ⟨⟨live, hw, hr⟩, hout⟩ := h
  have howed : s.owed = [] := List.prefix_nil.mp (hp ▸ hw.owed_pending)
  have hquiet : (s.view live).promised = (s.view live).log ∧ (s.view live).seen = (s.view live).log := by
    simp only [System.view, System.seen_of_whole_nil hwh, howed, List.append_nil, and_self]
  have hone : Drains s.disk (s.view live) (s.reader.turn s.disk) s.returned := by
    by_cases he : s.reader.phase = .ended
    · refine ⟨hr.turn hw.kept, hw.kept, hquiet, fun hph => ?_⟩
      cases hh : s.reader.file with
      | none => exact absurd hh (hr.ended he).2
      | some h =>
        have ht : s.reader.turn s.disk = s.reader.finished s.disk h := by
          simp [SpoolReader.turn, he, hh]
        rw [ht] at hph
        exact absurd hph (finished_not_ended _ _ _)
    · exact Drains.turn ⟨hr, hw.kept, hquiet, fun hph => absurd hph he⟩
  refine ⟨(s.reader.turn s.disk).work s.disk + 3, fun k hk limits hl hlen => ?_⟩
  obtain ⟨j, rfl⟩ : ∃ j, k = j + 1 := ⟨k - 1, by omega⟩
  obtain ⟨s₁, hs₁⟩ : ∃ s₁, s₁ = Runs.run System.step s (List.replicate (j + 1) .turn) := ⟨_, rfl⟩
  have hrest : Rests s₁ (s.view live) ((s.reader.turn s.disk).work s.disk) := by
    obtain ⟨h1, h2, -, h4, -⟩ := hone.turns le_rfl j (by omega)
    rw [run_turns hout, SpoolReader.turns, h1] at hs₁
    subst hs₁
    refine ⟨h1, rfl, ⟨?_, h2.kept, h2.quiet, h2.eof⟩, h4⟩
    rw [List.append_nil]
    exact h2.reads.reader rfl rfl rfl id
  obtain ⟨h1, h2⟩ := Rests.calls (k := j + 1) (Nat.lt_of_lt_of_le (by omega) hk) limits s₁ hrest hl
  rw [reads, run_append, ← hs₁]
  obtain ⟨hret, -, hle⟩ := h1.returned
  have hlog : (s.view live).log = s.log := rfl
  rw [hlog] at hret h2 hle
  rw [hret, span, List.drop_zero, List.take_of_length_le (by omega)]

end NetCoreNoc.Spool
