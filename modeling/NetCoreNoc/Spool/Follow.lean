import Mathlib
import NetCoreNoc.Spool.Disk

/-! A reader behind an undamaged spool: where it stands in the sequence of records, and what a turn
of `read` does to that. -/
namespace NetCoreNoc.Spool
open Parsing

attribute [local simp] number

@[simp] theorem number_length (seq : Nat) (ps : List Bytes) : (number seq ps).length = ps.length := by
  induction ps generalizing seq with
  | nil => rfl
  | cons p ps ih => simp [ih]

theorem number_append (seq : Nat) (ps qs : List Bytes) :
    number seq (ps ++ qs) = number seq ps ++ number (seq + ps.length) qs := by
  induction ps generalizing seq with
  | nil => simp
  | cons p ps ih =>
    have he : seq + (ps.length + 1) = seq + 1 + ps.length := by omega
    simp [ih, he]

theorem number_take (seq n : Nat) (ps : List Bytes) : (number seq ps).take n = number seq (ps.take n) := by
  induction ps generalizing seq n with
  | nil => simp
  | cons p ps ih =>
    cases n with
    | zero => simp
    | succ n => simp [ih]

theorem number_drop (seq n : Nat) (ps : List Bytes) :
    (number seq ps).drop n = number (seq + n) (ps.drop n) := by
  induction ps generalizing seq n with
  | nil => simp
  | cons p ps ih =>
    cases n with
    | zero => simp
    | succ n =>
      have he : seq + (n + 1) = seq + 1 + n := by omega
      simp [ih, he]

variable {ps : List Bytes}

theorem mem_number {seq : Nat} {r : Record} (h : r ∈ number seq ps) :
    r.1 < seq + ps.length ∧ r.2 ∈ ps := by
  induction ps generalizing seq with
  | nil => exact absurd h (by simp)
  | cons p ps ih =>
    rcases List.mem_cons.mp h with rfl | h
    · simp
    · obtain ⟨h1, h2⟩ := ih h
      exact ⟨by simp only [List.length_cons]; omega, by simp [h2]⟩

theorem number_mono (seq : Nat) {ps qs : List Bytes} (h : ps <+: qs) :
    number seq ps <+: number seq qs := by
  obtain ⟨rs, rfl⟩ := h
  rw [number_append]
  exact List.prefix_append _ _

theorem number_getLast (seq : Nat) (h : ps ≠ []) :
    ∃ p, (number seq ps).getLast? = some (seq + ps.length - 1, p) := by
  rcases List.eq_nil_or_concat ps with rfl | ⟨init, p, rfl⟩
  · exact absurd rfl h
  · refine ⟨p, ?_⟩
    rw [List.concat_eq_append, number_append]
    simp [number]

/-- The records numbered after `a`, up to `b`. -/
def span (ps : List Bytes) (a b : Nat) : List Record := number (a + 1) ((ps.take b).drop a)

private theorem take_drop_split {a b c : Nat} (hab : a ≤ b) (hbc : b ≤ c) :
    (ps.take c).drop a = (ps.take b).drop a ++ (ps.take c).drop b := by
  have hb : (ps.take b).drop a = ((ps.take c).drop a).take (b - a) := by
    rw [← List.drop_take, List.take_take, Nat.min_eq_left hbc]
  have hd : (ps.take c).drop b = ((ps.take c).drop a).drop (b - a) := by
    rw [List.drop_drop, Nat.add_sub_cancel' hab]
  rw [hb, hd, List.take_append_drop]

theorem span_append {a b c : Nat} (hab : a ≤ b) (hbc : b ≤ c) :
    span ps a c = span ps a b ++ span ps b c := by
  unfold span
  rw [take_drop_split hab hbc, number_append]
  by_cases hl : b ≤ ps.length
  · have he : a + 1 + ((ps.take b).drop a).length = b + 1 := by
      simp only [List.length_drop, List.length_take]
      omega
    rw [he]
  · have hn : (ps.take c).drop b = [] := List.drop_eq_nil_of_le (by simp; omega)
    rw [hn]
    rfl

theorem span_length {a b : Nat} (hb : b ≤ ps.length) : (span ps a b).length = b - a := by
  simp [span, Nat.min_eq_left hb]

theorem span_of_mono {ps qs : List Bytes} (h : ps <+: qs) {a b : Nat} (hb : b ≤ ps.length) :
    span ps a b = span qs a b := by
  obtain ⟨rs, rfl⟩ := h
  rw [span, span, List.take_append_of_le_length hb]

@[simp] theorem span_self (ps : List Bytes) (a : Nat) : span ps a a = [] := by
  rw [span, List.drop_eq_nil_of_le (List.length_take_le a ps)]
  rfl

theorem span_take (ps : List Bytes) (a b n : Nat) :
    (span ps a b).take n = span ps a (min (a + n) b) := by
  rw [span, number_take, List.take_drop, List.take_take, span]

/-- Every payload can be framed under its number. -/
def Writable (ps : List Bytes) : Prop := ∀ r ∈ number 1 ps, Fits r

theorem Writable.of_span (h : Writable ps) (a b : Nat) :
    ∀ r ∈ span ps a b, Fits r := by
  intro r hr
  refine h r ?_
  have hs : span ps a b = ((number 1 ps).take b).drop a := by
    rw [number_take, number_drop, span, Nat.add_comm]
  rw [hs] at hr
  exact List.mem_of_mem_take (List.mem_of_mem_drop hr)

theorem Writable.mono {ps qs : List Bytes} (h : Writable qs) (hp : ps <+: qs) : Writable ps :=
  fun r hr => h r ((number_mono 1 hp).subset hr)

theorem frames_append (rs qs : List Record) : frames (rs ++ qs) = frames rs ++ frames qs :=
  Coding.encodes_append rs qs

theorem parse_frames {rs : List Record} (h : ∀ r ∈ rs, Fits r) {t : Bytes} (ht : front t = .short) :
    parse (frames rs ++ t) = (rs, t, false) := Coding.parse_encodes_short h ht

/-- What has arrived of framed records and a torn tail. -/
theorem prefix_frames {rs : List Record} (h : ∀ r ∈ rs, Fits r) {b u : Bytes} (hu : front u = .short)
    (hb : b <+: frames rs ++ u) : ∃ n t, b = frames (rs.take n) ++ t ∧ front t = .short := by
  rcases List.prefix_or_prefix_of_prefix hb (List.prefix_append (frames rs) u) with hb | ⟨t, rfl⟩
  · obtain ⟨n, t, rfl, ht, -⟩ := Coding.prefix_encodes (C := records) h hb
    exact ⟨n, t, rfl, ht⟩
  · refine ⟨rs.length, t, by rw [List.take_length], records.short_mono hu ?_⟩
    exact (List.prefix_append_right_inj _).mp hb

/-- `_recover` on its newest segment: the records it parses, and what is cut off behind them. -/
theorem recover_snoc {d : Disk} {l : List (Nat × Nat)} {f i : Nat} {rs : List Record}
    {base done : Bytes} {c : Bool} (hd : d.dir = l ++ [(f, i)]) (hb : d.bytes i = base ++ done)
    (hp : parse (d.bytes i) = (rs, done, c)) :
    recover d = match rs.getLast? with
      | some r => (d.write i base, r.1 + 1, done.length)
      | none => ((d.write i base).unlink f, f, done.length) := by
  have hbase : (d.bytes i).take ((d.bytes i).length - done.length) = base := by
    rw [hb, List.length_append, Nat.add_sub_cancel, List.take_left]
  have hlast : d.dir.getLast? = some (f, i) := by rw [hd, List.getLast?_concat]
  unfold recover
  rw [hlast]
  cases hl : rs.getLast? <;> simp only [hp, hbase, hl]

/-- What a directory holds, to a reader: the payloads appended, those and the ones that a failed
write still owes, every one a reader may have seen, and the file that may grow. -/
structure View where
  log : List Bytes
  promised : List Bytes
  seen : List Bytes
  live : Option Nat

/-- The number a reader goes on with after the file it has open. -/
def next (d : Disk) (v : View) (h : Handle) : Nat :=
  match SpoolReader.later d h with
  | [] => v.log.length + 1
  | e :: _ => e.1

/-- The directory keeps what the view says, whole segments up to the newest. -/
structure Kept (d : Disk) (v : View) : Prop where
  writable : Writable v.seen
  log_promised : v.log <+: v.promised
  promised_seen : v.promised <+: v.seen
  sorted : d.dir.Pairwise fun a b => a.1 < b.1
  inodes : d.dir.Pairwise fun a b => a.2 ≠ b.2
  named : ∀ e ∈ d.dir, 1 ≤ e.1 ∧ e.1 ≤ v.log.length + 1 ∧ e.2 < d.files.length
  oldest : ∀ e l, d.dir = e :: l → e.1 = 1
  empty : d.dir = [] → v.log = []
  final : ∀ e ∈ d.dir, v.live ≠ some e.2 →
    d.bytes e.2 = frames (span v.log (e.1 - 1) (next d v ⟨e.2, 0, e.1⟩ - 1))
  newest : ∀ i, v.live = some i → ∃ l f, d.dir = l ++ [(f, i)]
  growing : ∀ f i, v.live = some i → (f, i) ∈ d.dir → ∃ q t stream,
    v.log.length ≤ q ∧ q ≤ v.seen.length ∧ d.bytes i = frames (span v.seen (f - 1) q) ++ t ∧
      front t = .short ∧ d.bytes i <+: stream ∧ frames (span v.promised (f - 1) v.promised.length) <+: stream

/-- Where the open file has a reader: `m` records into the sequence, all of them returned. -/
structure Follows (d : Disk) (v : View) (r : SpoolReader) (h : Handle) (m : Nat) : Prop where
  first_pos : 1 ≤ h.first
  first_le : h.first ≤ m + 1
  first_log : h.first ≤ v.log.length + 1
  m_le : m ≤ r.after
  known : h.ino < d.files.length
  growing : v.live = some h.ino → (h.first, h.ino) ∈ d.dir ∧
    (frames (span v.seen (h.first - 1) m) ++ r.buffer).length = h.pos ∧
    (frames (span v.seen (h.first - 1) m) ++ r.buffer <+: d.bytes h.ino ∨
      frames (span v.seen (h.first - 1) m) ++ r.buffer <+:
        frames (span v.promised (h.first - 1) v.promised.length))
  final : v.live ≠ some h.ino → (SpoolReader.later d h = [] → v.live = none) ∧
    ∃ n t, r.buffer ++ (d.bytes h.ino).drop h.pos = frames (span v.seen m (m + n)) ++ t ∧
      m + n ≤ v.seen.length ∧ front t = .short ∧ next d v h ≤ m + n + 1

/-- A reader that has returned the records up to its number, in order and once each. -/
structure Reads (d : Disk) (v : View) (r : SpoolReader) (got : List Record) : Prop where
  got_eq : got = span v.seen 0 r.after
  after_le : r.after ≤ v.seen.length
  file : ∀ h, r.file = some h → ∃ m, Follows d v r h m
  ended : r.phase = .ended → front r.buffer = .short ∧ r.file ≠ none

/-- Whole records at the front of the same bytes are the same. -/
theorem frames_front {rs qs : List Record} (hr : ∀ r ∈ rs, Fits r) (hq : ∀ r ∈ qs, Fits r)
    {b t : Bytes} (ht : front t = .short) (he : frames rs ++ b = frames qs ++ t) : rs <+: qs := by
  have h1 : parse (frames rs ++ b) = (rs ++ (parse b).1, (parse b).2) := Coding.parse_encodes hr b
  rw [he, parse_frames hq ht] at h1
  exact ⟨(parse b).1, (Prod.mk.inj h1).1.symm⟩

/-- A frame is what its bytes say: `a` records in, the rest of the span follows. -/
theorem cancel_span (hw : Writable ps) {a b c : Nat} (hab : a ≤ b)
    (hb : b ≤ ps.length) (hc : c ≤ ps.length) {u t : Bytes} (ht : front t = .short)
    (he : frames (span ps a b) ++ u = frames (span ps a c) ++ t) :
    b ≤ max a c ∧ u = frames (span ps b (max b c)) ++ t := by
  have hp := (frames_front (hw.of_span a b) (hw.of_span a c) ht he).length_le
  rw [span_length hb, span_length hc] at hp
  refine ⟨by omega, ?_⟩
  rcases Nat.le_total b c with hbc | hcb
  · rw [span_append hab hbc, frames_append, List.append_assoc] at he
    rw [Nat.max_eq_right hbc]
    exact List.append_cancel_left he
  · have hcb' : span ps a b = span ps a c := by
      rcases Nat.lt_or_ge a c with hac | hca
      · rw [show b = c by omega]
      · have hba : b = a := by omega
        have hn : span ps a c = [] := List.eq_nil_of_length_eq_zero (by rw [span_length hc]; omega)
        rw [hba, hn, span_self]
    rw [hcb'] at he
    rw [Nat.max_eq_left hcb, span_self]
    exact List.append_cancel_left he

variable {d : Disk} {v : View} {r : SpoolReader}

variable {h : Handle} {m : Nat}

/-- What the buffer holds: whole records that follow the `m` before, and a torn end. -/
theorem Follows.buffer
    (hf : Follows d v r h m) (hk : Kept d v) (ha : r.after ≤ v.seen.length) :
    ∃ n t, r.buffer = frames (span v.seen m (m + n)) ++ t ∧ front t = .short ∧
      m + n ≤ v.seen.length := by
  have hm := hf.m_le
  by_cases hl : v.live = some h.ino
  · obtain ⟨hd, -, hp⟩ := hf.growing hl
    obtain ⟨q, t, -, -, hq, hb, ht, -, -⟩ := hk.growing _ _ hl hd
    have hs : ∃ q t, q ≤ v.seen.length ∧ front t = .short ∧
        frames (span v.seen (h.first - 1) m) ++ r.buffer <+:
          frames (span v.seen (h.first - 1) q) ++ t := by
      rcases hp with hp | hp
      · exact ⟨q, t, hq, ht, hb ▸ hp⟩
      · refine ⟨v.promised.length, [], hk.promised_seen.length_le, rfl, ?_⟩
        rw [List.append_nil, ← span_of_mono hk.promised_seen le_rfl]
        exact hp
    obtain ⟨q, t, hq, ht, hp⟩ := hs
    obtain ⟨n, u, he, hu⟩ := prefix_frames (hk.writable.of_span _ _) ht hp
    have hfirst := hf.first_le
    by_cases hqf : h.first - 1 ≤ q
    · rw [span_take] at he
      obtain ⟨hmc, hbuf⟩ := cancel_span hk.writable (by omega) (by omega) (by omega) hu he
      refine ⟨max m (min (h.first - 1 + n) q) - m, u, ?_, hu, by omega⟩
      rw [hbuf, Nat.add_sub_cancel' (Nat.le_max_left _ _)]
    · have hn : span v.seen (h.first - 1) q = [] :=
        List.eq_nil_of_length_eq_zero (by rw [span_length hq]; omega)
      rw [hn, List.take_nil, ← span_self v.seen (h.first - 1)] at he
      obtain ⟨hmc, hbuf⟩ := cancel_span hk.writable (by omega) (by omega) (by omega) hu he
      refine ⟨0, u, ?_, hu, by omega⟩
      rw [hbuf, Nat.add_zero, Nat.max_eq_left (by omega)]
  · obtain ⟨-, n, t, he, hn, ht, -⟩ := hf.final hl
    have hp : r.buffer <+: frames (span v.seen m (m + n)) ++ t := ⟨_, he⟩
    obtain ⟨k, u, hb, hu⟩ := prefix_frames (hk.writable.of_span _ _) ht hp
    rw [span_take] at hb
    exact ⟨min (m + k) (m + n) - m, u, by rw [hb, Nat.add_sub_cancel' (by omega)], hu, by omega⟩

/-- `read` keeps the records of a span that are new to it. -/
theorem accept_number (r : SpoolReader) (m : Nat) (ps : List Bytes) (h : m ≤ r.after) :
    r.accept (number (m + 1) ps) =
      { r with out := r.out ++ (number (m + 1) ps).drop (r.after - m),
               after := max r.after (m + ps.length) } := by
  induction ps generalizing m r with
  | nil => simp [SpoolReader.accept, number, Nat.max_eq_left h]
  | cons p ps ih =>
    have hstep : r.accept (number (m + 1) (p :: ps)) =
        (if m + 1 > r.after then { r with out := r.out ++ [(m + 1, p)], after := m + 1 } else r).accept
          (number (m + 1 + 1) ps) := rfl
    rw [hstep]
    by_cases hm : m + 1 > r.after
    · obtain rfl : m = r.after := by omega
      rw [if_pos hm, ih _ _ le_rfl]
      simp only [number, List.length_cons, Nat.sub_self, List.drop_zero, List.append_assoc,
        List.singleton_append, SpoolReader.mk.injEq, and_true]
      omega
    · rw [if_neg hm, ih _ _ (by omega)]
      have hd : r.after - m = r.after - (m + 1) + 1 := by omega
      simp only [number, List.length_cons, hd, List.drop_succ_cons, SpoolReader.mk.injEq, and_true]
      omega

/-- `read` keeps all of the records numbered on from beyond its own. -/
theorem accept_fresh (r : SpoolReader) (m : Nat) (ps : List Bytes) (h : r.after ≤ m) :
    r.accept (number (m + 1) ps) =
      { r with out := r.out ++ number (m + 1) ps,
               after := if ps = [] then r.after else m + ps.length } := by
  cases ps with
  | nil => simp [SpoolReader.accept, number]
  | cons p ps =>
    have hstep : r.accept (number (m + 1) (p :: ps)) =
        SpoolReader.accept { r with out := r.out ++ [(m + 1, p)], after := m + 1 }
          (number (m + 1 + 1) ps) := by
      have hm : m + 1 > r.after := by omega
      simp [SpoolReader.accept, number, hm]
    rw [hstep, accept_number _ _ _ le_rfl]
    simp only [Nat.sub_self, List.drop_zero, number, List.append_assoc, List.singleton_append,
      List.length_cons, reduceCtorEq, if_false, SpoolReader.mk.injEq, and_true]
    omega

theorem accept_span {r : SpoolReader} {m n : Nat} (h : m ≤ r.after)
    (hn : m + n ≤ ps.length) :
    r.accept (span ps m (m + n)) =
      { r with out := r.out ++ span ps r.after (max r.after (m + n)), after := max r.after (m + n) } := by
  have hl : ((ps.take (m + n)).drop m).length = n := by simp; omega
  rw [span, accept_number r m _ h, hl]
  simp only [SpoolReader.mk.injEq, true_and, and_true, List.append_cancel_left_eq]
  rw [number_drop, List.drop_drop, span]
  have hm : m + (r.after - m) = r.after := by omega
  have hm1 : m + 1 + (r.after - m) = r.after + 1 := by omega
  rw [hm, hm1]
  rcases Nat.le_total r.after (m + n) with hle | hle
  · rw [Nat.max_eq_right hle]
  · rw [Nat.max_eq_left hle, List.drop_eq_nil_of_le (by simp; omega),
      List.drop_eq_nil_of_le (List.length_take_le _ ps)]

variable {d : Disk} {v : View}

/-- Taking the whole records out of the buffer moves the reader past them. -/
theorem Follows.taken {r r' : SpoolReader} {h : Handle} {m n : Nat} {t : Bytes}
    (hf : Follows d v r h m) (hk : Kept d v)
    (hb : r.buffer = frames (span v.seen m (m + n)) ++ t) (hn : m + n ≤ v.seen.length)
    (hb' : r'.buffer = t) (ha' : m + n ≤ r'.after) : Follows d v r' h (m + n) where
  first_pos := hf.first_pos
  first_le := by have := hf.first_le; omega
  first_log := hf.first_log
  m_le := ha'
  known := hf.known
  growing hl := by
    have hfirst := hf.first_le
    have he : frames (span v.seen (h.first - 1) (m + n)) ++ r'.buffer =
        frames (span v.seen (h.first - 1) m) ++ r.buffer := by
      rw [span_append (b := m) (by omega) (by omega), frames_append, hb', hb, List.append_assoc]
    rw [he]
    exact hf.growing hl
  final hl := by
    obtain ⟨hlast, k, u, he, hk', hu, hnext⟩ := hf.final hl
    rw [hb, List.append_assoc] at he
    obtain ⟨hle, hrest⟩ := cancel_span hk.writable (by omega) hn hk' hu he
    have hmax : max (m + n) (m + k) = m + n + (m + k - (m + n)) := by omega
    rw [hmax] at hrest
    exact ⟨hlast, m + k - (m + n), u, by rw [hb', hrest], by omega, hu, by omega⟩

/-- The next bytes of the file join the buffer. -/
theorem Follows.chunk {r r' : SpoolReader} {c rest : Bytes}
    (hf : Follows d v r h m) (hk : Kept d v) (hc : (d.bytes h.ino).drop h.pos = c ++ rest)
    (hne : c ≠ []) (hb' : r'.buffer = r.buffer ++ c) (ha' : r.after ≤ r'.after) :
    Follows d v r' { h with pos := h.pos + c.length } m where
  first_pos := hf.first_pos
  first_le := hf.first_le
  first_log := hf.first_log
  m_le := hf.m_le.trans ha'
  known := hf.known
  growing hl := by
    obtain ⟨hd, hpos, hp⟩ := hf.growing hl
    generalize hg : frames (span v.seen (h.first - 1) m) ++ r.buffer = got at hpos hp
    have hlt : got.length < (d.bytes h.ino).length := by
      by_contra hge
      rw [List.drop_eq_nil_of_le (by omega)] at hc
      exact hne (List.append_eq_nil_iff.mp hc.symm).1
    have hgot : got <+: d.bytes h.ino := by
      rcases hp with hp | hp
      · exact hp
      · obtain ⟨q, t, stream, -, -, -, -, hs, hs'⟩ := hk.growing _ _ hl hd
        exact List.prefix_of_prefix_length_le (hp.trans hs') hs hlt.le
    obtain ⟨w, hw⟩ := hgot
    have hwc : w = c ++ rest := by
      rw [← hc, ← hw, ← hpos, List.drop_left]
    have he : frames (span v.seen (h.first - 1) m) ++ r'.buffer = got ++ c := by
      rw [hb', ← List.append_assoc, hg]
    rw [he]
    exact ⟨hd, by simp [hpos], .inl ⟨rest, by rw [List.append_assoc, ← hwc, hw]⟩⟩
  final hl := by
    obtain ⟨hlast, k, u, he, hk', hu, hnext⟩ := hf.final hl
    refine ⟨hlast, k, u, ?_, hk', hu, hnext⟩
    have hd : (d.bytes h.ino).drop (h.pos + c.length) = rest := by
      rw [← List.drop_drop, hc, List.drop_left]
    rw [← he, hb', hc]
    simp [hd]

/-- Behind a listed segment come those listed after it. -/
theorem later_listed {d : Disk} {l₁ l₂ : List (Nat × Nat)} {e : Nat × Nat}
    (hs : d.dir.Pairwise fun a b => a.1 < b.1) (hd : d.dir = l₁ ++ e :: l₂) (pos : Nat) :
    SpoolReader.later d ⟨e.2, pos, e.1⟩ = l₂ := by
  rw [hd, List.pairwise_append, List.pairwise_cons] at hs
  obtain ⟨-, ⟨hl₂, -⟩, hl₁⟩ := hs
  have hfound : d.dir.filter (fun a => decide (e.1 ≤ a.1)) = e :: l₂ := by
    rw [hd, List.filter_append, List.filter_eq_nil_iff.mpr, List.nil_append, List.filter_eq_self.mpr]
    · intro a ha
      rcases List.mem_cons.mp ha with rfl | ha
      · simp
      · simpa using (hl₂ a ha).le
    · intro a ha
      simpa using hl₁ a ha e (by simp)
  unfold SpoolReader.later
  simp only [hfound, beq_self_eq_true, bne_self_eq_false, Bool.and_false, Bool.or_false,
    List.filter_cons, lt_irrefl, decide_false]
  rw [if_neg (by simp), List.filter_eq_self]
  intro a ha
  simpa using hl₂ a ha

/-- A listed segment is the one that holds its first record. -/
theorem openFile_listed {d : Disk} {l₁ l₂ : List (Nat × Nat)} {e : Nat × Nat}
    (hs : d.dir.Pairwise fun a b => a.1 < b.1) (hd : d.dir = l₁ ++ e :: l₂) (r : SpoolReader) :
    r.openFile d e.1 = some { r with file := some ⟨e.2, 0, e.1⟩, buffer := [] } := by
  rw [hd, List.pairwise_append, List.pairwise_cons] at hs
  obtain ⟨-, ⟨hl₂, -⟩, hl₁⟩ := hs
  have hholding : d.dir.filter (fun a => decide (a.1 ≤ e.1)) = l₁ ++ [e] := by
    rw [hd, List.filter_append, List.filter_cons, if_pos (by simp), List.filter_eq_self.mpr,
      List.filter_eq_nil_iff.mpr]
    · intro a ha
      simpa using hl₂ a ha
    · intro a ha
      simpa using (hl₁ a ha e (by simp)).le
  unfold SpoolReader.openFile
  cases hdir : d.dir with
  | nil => exact absurd (hd.symm.trans hdir) (by simp)
  | cons oldest l =>
    rw [hdir] at hholding
    simp [hholding]

/-- One more segment at the end of the listing comes after what was listed before. -/
theorem later_snoc {d d' : Disk} {l : List (Nat × Nat)} {e : Nat × Nat} (hd : d.dir = l ++ [e])
    (hd' : d'.dir = l) (h : Handle) : ∃ q, SpoolReader.later d h = SpoolReader.later d' h ++ q ∧
      (q = [] ∨ q = [e]) ∧
      (h.first ≤ e.1 → (∀ a ∈ l, a.1 < e.1) → h.ino ≠ e.2 → q = [e]) := by
  have hfound : d.dir.filter (fun a => decide (h.first ≤ a.1)) =
      l.filter (fun a => decide (h.first ≤ a.1)) ++ if h.first ≤ e.1 then [e] else [] := by
    rw [hd, List.filter_append]
    congr 1
    by_cases he : h.first ≤ e.1 <;> simp [he]
  have hone : ∀ p : Nat × Nat → Bool, (if h.first ≤ e.1 then [e] else []).filter p = [] ∨
      (if h.first ≤ e.1 then [e] else []).filter p = [e] := by
    intro p
    by_cases he : h.first ≤ e.1 <;> cases hp : p e <;> simp [he, hp]
  unfold SpoolReader.later
  simp only [hfound, hd']
  cases hl : l.filter (fun a => decide (h.first ≤ a.1)) with
  | nil =>
    by_cases he : h.first ≤ e.1
    · simp only [if_pos he, List.nil_append, List.filter_nil, List.filter_cons]
      refine ⟨_, rfl, ?_, ?_⟩
      · split
        · exact .inr rfl
        · exact .inl rfl
      · intro _ _ hne
        rw [if_pos]
        rcases Nat.lt_or_eq_of_le he with hlt | heq
        · simp [hlt]
        · simp [heq, Ne.symm hne]
    · refine ⟨[], by simp [if_neg he], .inl rfl, fun hle => absurd hle he⟩
  | cons a as =>
    have ha : a ∈ l ∧ h.first ≤ a.1 := by
      have : a ∈ l.filter (fun a => decide (h.first ≤ a.1)) := by rw [hl]; simp
      simpa using this
    rw [List.filter_append]
    refine ⟨_, rfl, hone _, fun hle hlt _ => ?_⟩
    · have hfirst := ha.2.trans_lt (hlt a ha.1)
      simp [if_pos hle, hfirst]

theorem next_snoc {d d' : Disk} {v v' : View} {l : List (Nat × Nat)} {e : Nat × Nat}
    (hd : d.dir = l ++ [e]) (hd' : d'.dir = l) (hlog : v.log.length = v'.log.length)
    (he : e.1 = v.log.length + 1) (h : Handle) : next d v h = next d' v' h := by
  obtain ⟨q, hq, hcase, -⟩ := later_snoc hd hd' h
  unfold next
  rw [hq]
  cases SpoolReader.later d' h with
  | cons a as => rfl
  | nil =>
    rcases hcase with rfl | rfl
    · simp only [List.nil_append, hlog]
    · simp only [List.nil_append, he, hlog]

theorem Kept.later_nil (hk : Kept d v) {f i : Nat} (hl : v.live = some i)
    (he : (f, i) ∈ d.dir) (pos : Nat) : SpoolReader.later d ⟨i, pos, f⟩ = [] := by
  obtain ⟨l, g, hd⟩ := hk.newest i hl
  obtain rfl : f = g := by
    rw [hd, List.mem_append, List.mem_singleton] at he
    rcases he with he | he
    · have hi := hk.inodes
      rw [hd, List.pairwise_append] at hi
      exact absurd rfl (hi.2.2 _ he (g, i) (by simp))
    · exact (Prod.mk.inj he).1
  exact later_listed hk.sorted hd pos

/-- Only the newest segment has none behind it. -/
theorem Kept.live_of_later_nil (hk : Kept d v) {e : Nat × Nat} {pos i : Nat}
    (he : e ∈ d.dir) (hn : SpoolReader.later d ⟨e.2, pos, e.1⟩ = []) (hl : v.live = some i) :
    e.2 = i := by
  obtain ⟨l₁, l₂, hd⟩ := List.append_of_mem he
  rw [later_listed hk.sorted hd] at hn
  obtain ⟨l, g, hd'⟩ := hk.newest i hl
  rw [hn] at hd
  have hlast := hd.symm.trans hd'
  obtain ⟨-, hcons⟩ := List.append_inj' hlast rfl
  rw [(List.cons.inj hcons).1]

theorem Kept.next_le (hk : Kept d v) (h : Handle) :
    next d v h ≤ v.log.length + 1 := by
  unfold next
  split
  · exact le_rfl
  · rename_i e l heq
    have hmem : e ∈ SpoolReader.later d h := by rw [heq]; simp
    exact (hk.named e (List.mem_of_mem_filter (List.mem_of_mem_filter hmem))).2.1

theorem Kept.le_next (hk : Kept d v) {e : Nat × Nat} (he : e ∈ d.dir) :
    e.1 ≤ next d v ⟨e.2, 0, e.1⟩ := by
  obtain ⟨l₁, l₂, hd⟩ := List.append_of_mem he
  unfold next
  rw [later_listed hk.sorted hd]
  cases l₂ with
  | nil => exact (hk.named e he).2.1
  | cons e' l₂ =>
    have hs := hk.sorted
    rw [hd, List.pairwise_append, List.pairwise_cons] at hs
    exact (hs.2.1.1 e' (by simp)).le

/-- `_open` finds the newest segment that begins at or before the number it wants. -/
theorem Kept.openFile (hk : Kept d v) (r : SpoolReader) (want : Nat)
    (hw : 1 ≤ want) :
    (d.dir = [] ∧ r.openFile d want = none) ∨
      ∃ e ∈ d.dir, e.1 ≤ want ∧ (∀ a ∈ d.dir, a.1 ≤ want → a.1 ≤ e.1) ∧
        r.openFile d want = some { r with file := some ⟨e.2, 0, e.1⟩, buffer := [] } := by
  cases hd : d.dir with
  | nil => exact .inl ⟨rfl, by simp [SpoolReader.openFile, hd]⟩
  | cons oldest l =>
    have ho : oldest ∈ d.dir.filter (fun a => decide (a.1 ≤ want)) := by
      rw [List.mem_filter]
      exact ⟨by rw [hd]; simp, by simpa [hk.oldest _ _ hd] using hw⟩
    obtain ⟨init, e, he⟩ : ∃ init e, d.dir.filter (fun a => decide (a.1 ≤ want)) = init ++ [e] := by
      rcases List.eq_nil_or_concat (d.dir.filter fun a => decide (a.1 ≤ want)) with hn | ⟨init, e, he⟩
      · rw [hn] at ho
        exact absurd ho (by simp)
      · exact ⟨init, e, by simpa using he⟩
    have hmem : e ∈ d.dir.filter (fun a => decide (a.1 ≤ want)) := by rw [he]; simp
    rw [List.mem_filter, hd] at hmem
    refine .inr ⟨e, hmem.1, by simpa using hmem.2, fun a ha hle => ?_, ?_⟩
    · have hsort := hk.sorted.filter (fun a => decide (a.1 ≤ want))
      have ha' : a ∈ d.dir.filter (fun a => decide (a.1 ≤ want)) :=
        List.mem_filter.mpr ⟨hd ▸ ha, by simpa using hle⟩
      rw [he, List.pairwise_append] at hsort
      rw [he, List.mem_append, List.mem_singleton] at ha'
      rcases ha' with ha' | rfl
      · exact (hsort.2.2 a ha' _ (by simp)).le
      · exact le_rfl
    · unfold SpoolReader.openFile
      split
      · rename_i hn
        exact absurd (hn.symm.trans hd) (by simp)
      · simp [he]

/-- A segment just opened stands at its first record. -/
theorem Follows.opened (hk : Kept d v) {e : Nat × Nat}
    (he : e ∈ d.dir) (hle : e.1 ≤ r.after + 1) (hb : r.buffer = []) :
    Follows d v r ⟨e.2, 0, e.1⟩ (e.1 - 1) := by
  obtain ⟨h1, h2, h3⟩ := hk.named e he
  refine ⟨h1, by simp; omega, h2, by omega, h3, fun _ => ⟨he, by simp [hb, frames, Coding.encodes], ?_⟩,
    fun hl => ⟨fun hn => ?_, ?_⟩⟩
  · left
    simp [hb, frames, Coding.encodes]
  · cases hv : v.live with
    | none => rfl
    | some i => exact absurd (hv.trans (by rw [hk.live_of_later_nil he hn hv])) hl
  · have hnext := hk.next_le ⟨e.2, 0, e.1⟩
    have hseen := (hk.log_promised.trans hk.promised_seen)
    have hlen := hseen.length_le
    have hge := hk.le_next he
    refine ⟨next d v ⟨e.2, 0, e.1⟩ - e.1, [], ?_, by omega, rfl, by omega⟩
    have hq : e.1 - 1 + (next d v ⟨e.2, 0, e.1⟩ - e.1) = next d v ⟨e.2, 0, e.1⟩ - 1 := by omega
    rw [hb, List.nil_append, List.drop_zero, hk.final e he hl, List.append_nil, hq,
      span_of_mono hseen (by omega)]

theorem Follows.mono {r r' : SpoolReader}
    (hf : Follows d v r h m) (hb : r'.buffer = r.buffer) (ha : r.after ≤ r'.after) :
    Follows d v r' h m :=
  { hf with
    m_le := hf.m_le.trans ha
    growing := by rw [hb]; exact hf.growing
    final := by rw [hb]; exact hf.final }

/-- A reader does not notice what the writer does to files and payloads it has not come to. -/
theorem Follows.view {d d' : Disk} {v v' : View} {r : SpoolReader}
    (hf : Follows d v r h m) (ha : r.after ≤ v.seen.length) (hlog : v.log <+: v'.log)
    (hseen : v.seen <+: v'.seen) (hfiles : d.files.length ≤ d'.files.length)
    (hgrow : v'.live = some h.ino → v.live = some h.ino ∧
      ((h.first, h.ino) ∈ d.dir → (h.first, h.ino) ∈ d'.dir ∧ ∀ got,
        got <+: d.bytes h.ino ∨ got <+: frames (span v.promised (h.first - 1) v.promised.length) →
        got <+: d'.bytes h.ino ∨
          got <+: frames (span v'.promised (h.first - 1) v'.promised.length)))
    (hfinal : v'.live ≠ some h.ino → v.live ≠ some h.ino ∧ d'.bytes h.ino = d.bytes h.ino ∧
      next d' v' h = next d v h ∧ (SpoolReader.later d' h = [] → v'.live = none)) :
    Follows d' v' r h m where
  first_pos := hf.first_pos
  first_le := hf.first_le
  first_log := hf.first_log.trans (Nat.succ_le_succ hlog.length_le)
  m_le := hf.m_le
  known := hf.known.trans_le hfiles
  growing hl := by
    obtain ⟨hl', hrest⟩ := hgrow hl
    obtain ⟨hd, hpos, hp⟩ := hf.growing hl'
    obtain ⟨hd', hall⟩ := hrest hd
    rw [← span_of_mono hseen (hf.m_le.trans ha)]
    exact ⟨hd', hpos, hall _ hp⟩
  final hl := by
    obtain ⟨hl', hb, hn, hlast⟩ := hfinal hl
    obtain ⟨-, n, t, he, hk, ht, hnext⟩ := hf.final hl'
    exact ⟨hlast, n, t, by rw [hb, ← span_of_mono hseen hk]; exact he, hk.trans hseen.length_le, ht,
      by rw [hn]; exact hnext⟩

/-- The file a reader has open stops growing at the end of the log: whatever the reader holds beyond
that is records still owed and a torn one. -/
theorem Follows.closed {d d' : Disk} {v v' : View} {r : SpoolReader}
    (hf : Follows d v r h m) (hk : Kept d v) (ha : r.after ≤ v.seen.length) (hl : v.live = some h.ino)
    (hlive : v'.live = none) (hlog : v.log <+: v'.log) (hseen : v.seen <+: v'.seen)
    (hfiles : d.files.length ≤ d'.files.length) (hsub : v'.log <+: v.seen)
    (hbytes : d'.bytes h.ino = frames (span v'.log (h.first - 1) v'.log.length))
    (hcut : d'.bytes h.ino <+: d.bytes h.ino)
    (hnext : next d' v' h ≤ v'.log.length + 1) : Follows d' v' r h m where
  first_pos := hf.first_pos
  first_le := hf.first_le
  first_log := hf.first_log.trans (Nat.succ_le_succ hlog.length_le)
  m_le := hf.m_le
  known := hf.known.trans_le hfiles
  growing hl' := absurd (hl'.symm.trans hlive) (by simp)
  final _ := by
    refine ⟨fun _ => hlive, ?_⟩
    obtain ⟨n, t, hb, ht, hn⟩ := hf.buffer hk ha
    obtain ⟨hd, hpos, hp⟩ := hf.growing hl
    obtain ⟨_, _, stream, -, -, -, -, hs, hs'⟩ := hk.growing _ _ hl hd
    have hm := hf.m_le
    have hfirst := hf.first_le
    have hfl := hf.first_log.trans (Nat.succ_le_succ hlog.length_le)
    have hgot : frames (span v.seen (h.first - 1) m) ++ r.buffer <+: stream :=
      hp.elim (fun hp => hp.trans hs) fun hp => hp.trans hs'
    have hsub' : span v'.log (h.first - 1) v'.log.length = span v.seen (h.first - 1) v'.log.length :=
      span_of_mono hsub le_rfl
    rcases List.prefix_or_prefix_of_prefix (hcut.trans hs) hgot with hc | hc
    · obtain ⟨u, hu⟩ := hc
      have hlen : (d'.bytes h.ino).length ≤ h.pos := by
        rw [← hpos, ← hu, List.length_append]
        omega
      rw [hb, ← List.append_assoc, ← frames_append, ← span_append (by omega) (by omega), hbytes,
        hsub'] at hu
      have hle := (cancel_span hk.writable (by omega) hsub.length_le hn ht hu).1
      refine ⟨n, t, ?_, hn.trans hseen.length_le, ht, by omega⟩
      rw [List.drop_eq_nil_of_le hlen, List.append_nil, hb, span_of_mono hseen hn]
    · obtain ⟨w, hw⟩ := hc
      have hdrop : (d'.bytes h.ino).drop h.pos = w := by rw [← hw, ← hpos, List.drop_left]
      rw [hbytes, hsub', List.append_assoc, ← List.append_nil (frames (span v.seen _ v'.log.length))]
        at hw
      obtain ⟨hle, hrest⟩ := cancel_span hk.writable (by omega) (hm.trans ha) hsub.length_le rfl hw
      have hmax : m + (v'.log.length - m) = max m v'.log.length := by omega
      refine ⟨v'.log.length - m, [], ?_, ?_, rfl, by omega⟩
      · rw [hdrop, hrest, hmax, span_of_mono hseen (max_le (hm.trans ha) hsub.length_le)]
      · rw [hmax]
        exact (max_le (hm.trans ha) hsub.length_le).trans hseen.length_le

/-- A turn over the loop's buffer: what `parse` gives goes to the caller; without any, the file is
asked for more. -/
theorem turn_reading {d : Disk} {r : SpoolReader} {h : Handle} {rs : List Record} {t : Bytes}
    (hp : r.phase = .reading) (hh : r.file = some h) (hl : r.out.length < r.limit)
    (hb : parse r.buffer = (rs, t, false)) :
    r.turn d =
      if rs ≠ [] then SpoolReader.accept { r with buffer := t } rs
      else if ((d.bytes h.ino).drop h.pos).take READ_CHUNK ≠ [] then
        { r with buffer := t ++ ((d.bytes h.ino).drop h.pos).take READ_CHUNK,
                 file := some { h with
                   pos := h.pos + (((d.bytes h.ino).drop h.pos).take READ_CHUNK).length } }
      else { r with buffer := t, phase := .ended } := by
  have hlim : ¬ r.limit ≤ r.out.length := by omega
  by_cases hrs : rs = []
  · subst hrs
    simp [SpoolReader.turn, hp, hh, hlim, hb, SpoolReader.accept]
  · simp [SpoolReader.turn, hp, hh, hlim, hb, hrs]

/-- At the end of a segment with others behind it, the reader has returned all that it holds. -/
theorem Follows.caught_up
    (hf : Follows d v r h m) (hk : Kept d v) (hs : front r.buffer = .short)
    (hl : v.live ≠ some h.ino) (he : (d.bytes h.ino).drop h.pos = []) : next d v h ≤ m + 1 := by
  obtain ⟨-, n, t, hb, hn, ht, hnext⟩ := hf.final hl
  rw [he, List.append_nil] at hb
  have hp := parse_frames (hk.writable.of_span m (m + n)) ht
  rw [← hb, parse, Framing.parse_short (F := records.toFraming) hs] at hp
  have hlen := congrArg List.length (Prod.mk.inj hp).1
  rw [span_length hn, List.length_nil] at hlen
  omega

theorem Reads.view {d d' : Disk} {v v' : View} {r : SpoolReader} {got : List Record}
    (hr : Reads d v r got) (hseen : v.seen <+: v'.seen)
    (hf : ∀ h m, Follows d v r h m → Follows d' v' r h m) : Reads d' v' r got :=
  ⟨by rw [hr.got_eq, span_of_mono hseen hr.after_le], hr.after_le.trans hseen.length_le,
    fun h hh => (hr.file h hh).imp fun m hm => hf h m hm, hr.ended⟩

theorem Reads.idle {got : List Record}
    (hr : Reads d v r got) : Reads d v { r with phase := .idle } got :=
  ⟨hr.got_eq, hr.after_le, fun h hh => (hr.file h hh).imp fun _ hf => hf.mono rfl le_rfl, by simp⟩

/-- A reader that has just opened the segment its next record is in. -/
theorem Reads.opened {r r' : SpoolReader} {got : List Record} {e : Nat × Nat}
    (hr : Reads d v r got) (hk : Kept d v) (he : e ∈ d.dir) (hle : e.1 ≤ r.after + 1)
    (ha : r'.after = r.after) (hf : r'.file = some ⟨e.2, 0, e.1⟩) (hb : r'.buffer = [])
    (hp : r'.phase = .reading) : Reads d v r' got := by
  refine ⟨by rw [hr.got_eq, ha], by rw [ha]; exact hr.after_le, fun h hh => ?_, by simp [hp]⟩
  obtain rfl : h = ⟨e.2, 0, e.1⟩ := Option.some.inj (hh.symm.trans hf)
  exact ⟨_, Follows.opened hk he (by omega) hb⟩

/-- A turn at the end of the open segment. -/
theorem Reads.finished {h : Handle} {ret : List Record}
    (hr : Reads d v r (ret ++ r.out)) (hk : Kept d v) (hp : r.phase = .ended)
    (hh : r.file = some h) : Reads d v (r.finished d h) (ret ++ (r.finished d h).out) := by
  obtain ⟨m, hf⟩ := hr.file h hh
  have hs := (hr.ended hp).1
  unfold SpoolReader.finished
  split
  · exact hr.idle
  · rename_i e l hlater
    by_cases hrest : (d.bytes h.ino).drop h.pos = []
    · have hdead : v.live ≠ some h.ino := by
        intro hl
        have hnil := hk.later_nil hl (hf.growing hl).1 h.pos
        rw [hlater] at hnil
        exact absurd hnil (by simp)
      have hnext := hf.caught_up hk hs hdead hrest
      have hm := hf.m_le
      have hmem : e ∈ d.dir := by
        have : e ∈ SpoolReader.later d h := by rw [hlater]; simp
        exact List.mem_of_mem_filter (List.mem_of_mem_filter this)
      have hfirst : next d v h = e.1 := by rw [next, hlater]
      simp only [hrest, ne_eq, not_true_eq_false, if_false]
      rcases hk.openFile { r with
          torn := r.torn + r.buffer.length, file := none, skipped := r.skipped + (e.1 - (r.after + 1)) }
        e.1 (hk.named e hmem).1 with ⟨hnil, -⟩ | ⟨e', he', hle, -, hopen⟩
      · rw [hnil] at hmem
        exact absurd hmem (by simp)
      · rw [hopen]
        exact hr.opened hk he' (by omega) rfl rfl rfl rfl
    · simp only [ne_eq, hrest, not_false_eq_true, if_true]
      refine ⟨hr.got_eq, hr.after_le, fun h' hh' => ?_, by simp⟩
      obtain rfl := Option.some.inj hh'
      exact ⟨m, hf.chunk hk (List.append_nil _).symm hrest rfl le_rfl⟩

/-- A turn of `read` keeps the reader in step. -/
theorem Reads.turn {ret : List Record}
    (hr : Reads d v r (ret ++ r.out)) (hk : Kept d v) :
    Reads d v (r.turn d) (ret ++ (r.turn d).out) := by
  cases hp : r.phase with
  | idle => simpa [SpoolReader.turn, hp] using hr
  | ended =>
    cases hh : r.file with
    | none => simpa [SpoolReader.turn, hp, hh] using hr.idle
    | some h => simpa [SpoolReader.turn, hp, hh] using hr.finished hk hp hh
  | reading =>
    by_cases hlim : r.limit ≤ r.out.length
    · cases hh : r.file <;> simpa [SpoolReader.turn, hp, hh, hlim] using hr.idle
    · cases hh : r.file with
      | none =>
        rcases hk.openFile r (r.after + 1) (by omega) with ⟨-, he⟩ | ⟨e, hed, hel, -, he⟩
        · simpa [SpoolReader.turn, hp, hh, hlim, he] using hr.idle
        · have ht : r.turn d = { r with file := some ⟨e.2, 0, e.1⟩, buffer := [] } := by
            simp [SpoolReader.turn, hp, hh, hlim, he]
          rw [ht]
          exact hr.opened hk hed hel rfl rfl rfl hp
      | some h =>
        obtain ⟨m, hf⟩ := hr.file h hh
        obtain ⟨n, t, hb, ht, hn⟩ := hf.buffer hk hr.after_le
        have hparse : parse r.buffer = (span v.seen m (m + n), t, false) := by
          rw [hb, parse_frames (hk.writable.of_span _ _) ht]
        have hlen := span_length (a := m) hn
        rw [turn_reading hp hh (by omega) hparse]
        split
        · rw [accept_span (r := { r with buffer := t }) hf.m_le hn]
          refine ⟨?_, max_le hr.after_le hn, fun h' hh' => ?_, by simp [hp]⟩
          · simp only
            rw [← List.append_assoc, hr.got_eq, ← span_append (by omega) (by omega)]
          · obtain rfl : h = h' := Option.some.inj (hh.symm.trans hh')
            exact ⟨_, hf.taken hk hb hn rfl (Nat.le_max_right _ _)⟩
        · rename_i hnil
          obtain rfl : n = 0 := by
            rw [not_not] at hnil
            rw [hnil, List.length_nil] at hlen
            omega
          have hb' : r.buffer = t := by simpa [frames, Coding.encodes] using hb
          split
          · rename_i hchunk
            refine ⟨hr.got_eq, hr.after_le, fun h' hh' => ?_, by simp [hp]⟩
            obtain rfl := Option.some.inj hh'
            exact ⟨m, hf.chunk hk (List.take_append_drop READ_CHUNK _).symm hchunk (by rw [hb'])
              le_rfl⟩
          · refine ⟨hr.got_eq, hr.after_le, fun h' hh' => ?_, fun _ => ⟨ht, by simp [hh]⟩⟩
            obtain rfl : h = h' := Option.some.inj (hh.symm.trans hh')
            exact ⟨m, hf.mono hb'.symm le_rfl⟩

end NetCoreNoc.Spool
