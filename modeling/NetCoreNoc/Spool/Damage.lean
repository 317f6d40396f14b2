import Mathlib
import NetCoreNoc.Spool.Drain

/-! A reader over a segment in which one record has been damaged, behind a writer that has moved on to
the next segment. -/
namespace NetCoreNoc.Spool
open Runs Parsing

/-- A segment of framed records, the bytes of one of them altered to bytes that do not pass for a
record, in a directory with later segments. -/
structure Damage where
  disk : Disk
  first : Nat
  ino : Nat
  older : List (Nat × Nat)
  next : Nat × Nat
  newer : List (Nat × Nat)
  before : List Bytes
  record : Bytes
  behind : List Bytes
  altered : Bytes
  first_pos : 1 ≤ first
  numbered : next.1 = first + before.length + 1 + behind.length
  listed : disk.dir = older ++ (first, ino) :: next :: newer
  sorted : disk.dir.Pairwise fun a b => a.1 < b.1
  fits : ∀ r ∈ number first (before ++ record :: behind), Fits r
  same_size : altered.length = (frame (first + before.length) record).length
  file : disk.bytes ino = frames (number first before) ++
    (altered ++ frames (number (first + before.length + 1) behind))
  rejected : ∀ r rest,
    front (altered ++ frames (number (first + before.length + 1) behind)) ≠ .intact r rest

namespace Damage
variable (D : Damage)

/-- The records of the segment but the altered one. -/
def spared : List Record :=
  number D.first D.before ++ number (D.first + D.before.length + 1) D.behind

/-- Where the altered bytes begin and end. -/
def start : Nat := (frames (number D.first D.before)).length
def stop : Nat := D.start + D.altered.length

/-- A reader that comes to the segment. -/
def system : System := { disk := D.disk, reader := { after := D.first - 1 } }

/-- The segment is behind the reader: it has all of the spared records, and has counted the bytes of
the altered one as lost. -/
def Settled (r : SpoolReader) (got : List Record) : Prop :=
  got = D.spared ∧ r.torn + r.corrupt = D.altered.length ∧
    r.skipped = if D.behind = [] then 1 else 0

/-- In the segment, the reader has returned the first of the spared records; at the beginning of the
next one, it is settled. -/
def Spares (s : System) : Prop :=
  (∀ h, s.reader.file = some h → h.first = D.first → s.returned ++ s.reader.out <+: D.spared) ∧
    (s.reader.file = some ⟨D.next.2, 0, D.next.1⟩ → D.Settled s.reader (s.returned ++ s.reader.out))

/-- The claim of the header at the front leads to an intact record. -/
def Leads (buffer : Bytes) : Prop :=
  (unpack buffer).length ≤ MAX_PAYLOAD ∧
    (parse (buffer.drop (HEADER_SIZE + (unpack buffer).length))).1 ≠ []

instance (buffer : Bytes) : Decidable (Leads buffer) := inferInstanceAs (Decidable (_ ∧ _))

instance (buffer : Bytes) : Decidable (∀ r rest, front buffer ≠ .intact r rest) :=
  match h : front buffer with
  | .short => .isTrue (by simp)
  | .corrupt => .isTrue (by simp)
  | .intact r rest => .isFalse fun hn => hn r rest rfl

/-- Where the scan stands in the altered bytes, no record begins there, what is claimed there does
not lead to an intact record beyond them, and they do not run into the end of the file while records
follow. -/
def Passes (r : SpoolReader) : Prop :=
  match r.file, r.phase with
  | some h, .reading =>
    h.first = D.first → h.pos - r.buffer.length < D.stop →
      (∀ q rest, front (r.buffer.drop (D.start - (h.pos - r.buffer.length))) ≠ .intact q rest) ∧
      (Leads (r.buffer.drop (D.start - (h.pos - r.buffer.length))) →
        max (h.pos - r.buffer.length) D.start + (HEADER_SIZE +
          (unpack (r.buffer.drop (D.start - (h.pos - r.buffer.length)))).length) ≤ D.stop)
  | some h, .ended => h.first = D.first → h.pos - r.buffer.length < D.stop → D.behind = []
  | _, _ => True

instance (r : SpoolReader) : Decidable (D.Passes r) := by
  unfold Passes
  split <;> infer_instance

/-- A step of the reader that passes the altered bytes by. -/
def Harmless (s : System) : Event → Prop
  | .writer _ => False
  | .call _ => True
  | .turn => D.Passes s.reader

instance (s : System) (e : Event) : Decidable (D.Harmless s e) := by
  unfold Harmless
  split <;> infer_instance

end Damage

theorem frames_split (seq n : Nat) (ps : List Bytes) (h : n ≤ ps.length) :
    frames (number seq ps) =
      frames (number seq (ps.take n)) ++ frames (number (seq + n) (ps.drop n)) := by
  have hn : (ps.take n).length = n := List.length_take_of_le h
  nth_rewrite 1 [← List.take_append_drop n ps]
  rw [number_append, hn, frames_append]

theorem take_drop_length {α : Type*} (l : List α) (n : Nat) :
    l.take n ++ l.drop (l.take n).length = l := by
  conv_rhs => rw [← List.take_append_drop n l]
  rw [List.length_take]
  rcases Nat.le_total n l.length with h | h
  · rw [Nat.min_eq_left h]
  · rw [Nat.min_eq_right h, List.drop_length, List.drop_eq_nil_of_le h]

theorem number_take_add (seq n k : Nat) (ps : List Bytes) (h : n ≤ ps.length) :
    number seq (ps.take (n + k)) =
      number seq (ps.take n) ++ number (seq + n) ((ps.drop n).take k) := by
  have hn : (ps.take n).length = n := List.length_take_of_le h
  rw [List.take_add, number_append, hn]

/-- Where no record begins, nothing is taken. -/
theorem parse_none {b : Bytes} (h : ∀ q rest, front b ≠ .intact q rest) :
    ∃ c, parse b = ([], b, c) ∧ front b = if c then .corrupt else .short := by
  cases hf : front b with
  | short => exact ⟨false, Framing.parse_short (F := records.toFraming) hf, rfl⟩
  | corrupt => exact ⟨true, Framing.parse_corrupt (F := records.toFraming) hf, rfl⟩
  | intact q rest => exact absurd hf (h q rest)

/-- A buffer that begins with records: all that it holds of them are taken, and if it holds them all,
parsing goes on behind them. -/
theorem parse_records {rs : List Record} (h : ∀ r ∈ rs, Fits r) {b u : Bytes}
    (hb : b <+: frames rs ++ u) :
    (∃ k t, b = frames (rs.take k) ++ t ∧ k < rs.length ∧ front t = .short) ∨
      ∃ t, b = frames rs ++ t ∧ t <+: u := by
  rcases List.prefix_or_prefix_of_prefix hb (List.prefix_append (frames rs) u) with hb' | ⟨t, rfl⟩
  · obtain ⟨k, t, rfl, ht, -⟩ := Coding.prefix_encodes (C := records) h hb'
    rcases Nat.lt_or_ge k rs.length with hk | hk
    · exact .inl ⟨k, t, rfl, hk, ht⟩
    · refine .inr ⟨t, by rw [List.take_of_length_le hk]; rfl, ?_⟩
      rw [List.take_of_length_le hk] at hb
      exact (List.prefix_append_right_inj _).mp hb
  · exact .inr ⟨t, rfl, (List.prefix_append_right_inj _).mp hb⟩

namespace Damage
variable {D : Damage}

theorem altered_pos : HEADER_SIZE ≤ D.altered.length := by
  rw [D.same_size, frame_length]
  exact Nat.le_add_right _ _

theorem fits_before (n : Nat) : ∀ r ∈ number (D.first + n) (D.before.drop n), Fits r := by
  intro r hr
  rw [← number_drop] at hr
  exact D.fits r ((number_mono _ (List.prefix_append _ _)).subset (List.mem_of_mem_drop hr))

theorem fits_behind (n : Nat) :
    ∀ r ∈ number (D.first + D.before.length + 1 + n) (D.behind.drop n), Fits r := by
  intro r hr
  rw [← number_drop] at hr
  refine D.fits r ?_
  rw [number_append]
  exact List.mem_append_right _ (List.mem_cons_of_mem _ (List.mem_of_mem_drop hr))

/-- The bytes from an offset on, before the altered record, in it and behind it. -/
theorem drop_before {n : Nat} (h : n ≤ D.before.length) :
    (D.disk.bytes D.ino).drop (frames (number D.first (D.before.take n))).length =
      frames (number (D.first + n) (D.before.drop n)) ++
        (D.altered ++ frames (number (D.first + D.before.length + 1) D.behind)) := by
  rw [D.file, frames_split D.first n D.before h, List.append_assoc, List.drop_left]

theorem drop_inside {k : Nat} (h : k ≤ D.altered.length) :
    (D.disk.bytes D.ino).drop (D.start + k) =
      D.altered.drop k ++ frames (number (D.first + D.before.length + 1) D.behind) := by
  rw [D.file, start, ← List.drop_drop, List.drop_left, List.drop_append_of_le_length h]

theorem drop_behind {n : Nat} (h : n ≤ D.behind.length) :
    (D.disk.bytes D.ino).drop
        (D.stop + (frames (number (D.first + D.before.length + 1) (D.behind.take n))).length) =
      frames (number (D.first + D.before.length + 1 + n) (D.behind.drop n)) := by
  rw [stop, ← List.drop_drop, drop_inside le_rfl, List.drop_length, List.nil_append,
    frames_split _ n D.behind h, List.drop_left]

/-- How far a scan of the segment has come: its offset, the records taken, the number of the last and
the bytes passed over. -/
inductive Stands (D : Damage) : Nat → List Record → Nat → Nat → Prop where
  | before (n : Nat) : n ≤ D.before.length →
      Stands D (frames (number D.first (D.before.take n))).length
        (number D.first (D.before.take n)) (D.first + n - 1) 0
  | inside (k : Nat) : 0 < k → k < D.altered.length →
      Stands D (D.start + k) (number D.first D.before) (D.first + D.before.length - 1) k
  | behind (n : Nat) : n ≤ D.behind.length →
      Stands D (D.stop + (frames (number (D.first + D.before.length + 1) (D.behind.take n))).length)
        (number D.first D.before ++ number (D.first + D.before.length + 1) (D.behind.take n))
        (if n = 0 then D.first + D.before.length - 1 else D.first + D.before.length + n)
        D.altered.length

variable {o after lost : Nat} {got : List Record}

theorem Stands.spared (h : D.Stands o got after lost) :
    got <+: D.spared := by
  cases h with
  | before n hn =>
    exact (number_mono _ (List.take_prefix _ _)).trans (List.prefix_append _ _)
  | inside k h0 hk => exact List.prefix_append _ _
  | behind n hn =>
    exact (List.prefix_append_right_inj _).mpr (number_mono _ (List.take_prefix _ _))

/-- A scan that stands at the altered record. -/
theorem Stands.at_start (D : Damage) :
    D.Stands D.start (number D.first D.before) (D.first + D.before.length - 1) 0 := by
  have h := Stands.before (D := D) D.before.length le_rfl
  rwa [List.take_length] at h

/-- Bytes passed over within the altered record. -/
theorem Stands.skipped {k : Nat} (h0 : 0 < k) (hk : D.start + k ≤ D.stop) :
    D.Stands (D.start + k) (number D.first D.before) (D.first + D.before.length - 1) k := by
  unfold stop at hk
  rcases Nat.lt_or_ge k D.altered.length with hlt | hge
  · exact .inside k h0 hlt
  · obtain rfl : k = D.altered.length := by omega
    have h := Stands.behind (D := D) 0 (Nat.zero_le _)
    simpa [number, frames, Coding.encodes, stop] using h

/-- What the reader does with the records of its buffer. -/
theorem Stands.parsed (h : D.Stands o got after lost)
    {b : Bytes} (hb : b <+: (D.disk.bytes D.ino).drop o)
    (hg : o < D.stop → ∀ q rest, front (b.drop (D.start - o)) ≠ .intact q rest) :
    ∃ rs rest c o' after', parse b = (rs, rest, c) ∧ D.Stands o' (got ++ rs) after' lost ∧
      (∀ r : SpoolReader, r.after = after →
        r.accept rs = { r with out := r.out ++ rs, after := after' }) ∧
      (∃ taken, b = taken ++ rest ∧ o' = o + taken.length) ∧
      (c = true → o' = max o D.start ∧ o' < D.stop ∧ rest = b.drop (D.start - o) ∧
        ∀ j, 0 < j → o' + j ≤ D.stop → D.Stands (o' + j) (got ++ rs) after' (lost + j)) := by
  have hfirst := D.first_pos
  cases h with
  | before n hn =>
    rw [drop_before hn] at hb
    have hm : D.first + n - 1 + 1 = D.first + n := by omega
    have hfits := fits_before (D := D) n
    rcases parse_records hfits hb with ⟨k, t, rfl, hk, ht⟩ | ⟨t, rfl, ht⟩
    · rw [number_length, List.length_drop] at hk
      rw [number_take]
      have hlen : ((D.before.drop n).take k).length = k := by simp; omega
      have hnk := number_take_add D.first n k D.before hn
      have hs := Stands.before (D := D) (n + k) (by omega)
      refine ⟨_, t, false, _, _, parse_frames ?_ ht, by rw [← hnk]; exact hs, ?_, ?_, by simp⟩
      · exact fun q hq => hfits q ((number_mono _ (List.take_prefix _ _)).subset hq)
      · intro r ha
        rw [← hm, accept_fresh r _ _ ha.le]
        split
        · rename_i hnil
          rw [hnil, List.length_nil] at hlen
          rw [ha]
          congr 1
          omega
        · rw [hlen]
          congr 1
          omega
      · exact ⟨_, rfl, by rw [hnk, frames_append, List.length_append]⟩
    · have hend : (frames (number D.first (D.before.take n))).length +
          (frames (number (D.first + n) (D.before.drop n))).length = D.start := by
        rw [start, frames_split D.first n D.before hn, List.length_append]
      have hdrop : (frames (number (D.first + n) (D.before.drop n)) ++ t).drop
          (D.start - (frames (number D.first (D.before.take n))).length) = t := by
        rw [← hend, Nat.add_sub_cancel_left, List.drop_left]
      have hstop : D.start < D.stop := by
        have := altered_pos (D := D)
        unfold stop HEADER_SIZE at *
        omega
      rw [hdrop] at hg ⊢
      obtain ⟨c, hc, hf⟩ := parse_none (hg (by omega))
      have hp : parse (frames (number (D.first + n) (D.before.drop n)) ++ t) =
          (number (D.first + n) (D.before.drop n) ++ (parse t).1, (parse t).2) :=
        Coding.parse_encodes (C := records) hfits t
      rw [hc, List.append_nil] at hp
      have hall : number D.first (D.before.take n) ++ number (D.first + n) (D.before.drop n) =
          number D.first D.before := by
        rw [← number_drop, ← number_take, List.take_append_drop]
      have hs := Stands.at_start D
      refine ⟨_, t, c, _, _, hp, hall.symm ▸ hs, ?_, ?_, ?_⟩
      · intro r ha
        rw [← hm, accept_fresh r _ _ ha.le]
        split
        · rename_i hnil
          rw [List.drop_eq_nil_iff] at hnil
          rw [ha]
          congr 1
          omega
        · congr 1
          rw [List.length_drop]
          omega
      · exact ⟨_, rfl, hend.symm⟩
      · rintro rfl
        refine ⟨(Nat.max_eq_right (by omega)).symm, hstop, rfl, fun j hj hle => ?_⟩
        rw [hall, Nat.zero_add]
        exact .skipped hj hle
  | inside _ h0 hk =>
    have hs := Stands.inside (D := D) lost h0 hk
    have hzero : D.start - (D.start + lost) = 0 := by omega
    have hlt : D.start + lost < D.stop := by
      unfold stop
      omega
    rw [hzero, List.drop_zero] at hg ⊢
    obtain ⟨c, hc, hf⟩ := parse_none (hg hlt)
    refine ⟨[], b, c, D.start + lost, _, hc, by rwa [List.append_nil], ?_, ⟨[], rfl, rfl⟩, ?_⟩
    · intro r ha
      rw [← ha, List.append_nil]
      rfl
    · rintro rfl
      refine ⟨(Nat.max_eq_left (by omega)).symm, hlt, rfl, fun j hj hle => ?_⟩
      rw [Nat.add_assoc] at hle ⊢
      rw [List.append_nil]
      exact .skipped (by omega) hle
  | behind n hn =>
    rw [drop_behind hn, ← List.append_nil (frames _)] at hb
    have hfits := fits_behind (D := D) n
    obtain ⟨k, t, rfl, ht⟩ := prefix_frames hfits (show front [] = .short from rfl) hb
    obtain ⟨j, hj, htake⟩ : ∃ j, n + j ≤ D.behind.length ∧
        (D.behind.drop n).take k = (D.behind.drop n).take j := by
      refine ⟨min k (D.behind.length - n), by omega, ?_⟩
      rw [← List.length_drop, List.take_eq_take_min]
    rw [number_take, htake]
    have hnj := number_take_add (D.first + D.before.length + 1) n j D.behind hn
    have hlen : ((D.behind.drop n).take j).length = j := by simp; omega
    have hs := Stands.behind (D := D) (n + j) hj
    refine ⟨_, t, false, _, _, parse_frames ?_ ht, by rw [List.append_assoc, ← hnj]; exact hs, ?_, ?_,
      by simp⟩
    · exact fun q hq => hfits q ((number_mono _ (List.take_prefix _ _)).subset hq)
    · intro r ha
      have hm : D.first + D.before.length + n + 1 = D.first + D.before.length + 1 + n := by omega
      rw [← hm, accept_fresh r _ _ (by rw [ha]; split <;> omega)]
      congr 1
      split
      · rename_i hnil
        rw [hnil, List.length_nil] at hlen
        rw [ha, ← hlen, Nat.add_zero]
      · rename_i hne
        have hpos := List.length_pos_iff.mpr hne
        rw [if_neg (by omega)]
        omega
    · exact ⟨_, rfl, by rw [hnj, frames_append, List.length_append]; omega⟩

/-- A scan at the end of the file has all the spared records, and no byte of them is left over. -/
theorem Stands.at_end (h : D.Stands o got after lost)
    (hs : front ((D.disk.bytes D.ino).drop o) = .short) (hb : o < D.stop → D.behind = []) :
    got = D.spared ∧ ((D.disk.bytes D.ino).drop o).length + lost = D.altered.length ∧
      D.next.1 - (after + 1) = if D.behind = [] then 1 else 0 := by
  have hfirst := D.first_pos
  have hnext := D.numbered
  have hnil : ∀ seq ps u, (∀ q ∈ number seq ps, Fits q) → front (frames (number seq ps) ++ u) = .short →
      ps = [] := by
    intro seq ps u hf hsh
    cases ps with
    | nil => rfl
    | cons p ps =>
      have hp : front (frames (number seq (p :: ps)) ++ u) =
          .intact (seq, p) (frames (number (seq + 1) ps) ++ u) := by
        have := front_frame (frames (number (seq + 1) ps) ++ u) (hf (seq, p) (by simp [number]))
        simpa [number, frames, records, List.append_assoc] using this
      rw [hp] at hsh
      exact absurd hsh (by simp)
  have hstop := altered_pos (D := D)
  cases h with
  | before n hn =>
    rw [drop_before hn] at hs ⊢
    have hd := hnil _ _ _ (fits_before n) hs
    obtain rfl : n = D.before.length := by
      have := List.drop_eq_nil_iff.mp hd
      omega
    have hbeh := hb (by rw [List.take_length]; unfold stop start HEADER_SIZE at *; omega)
    rw [List.take_length, hd, hbeh]
    simp [Damage.spared, hbeh, number, frames, Coding.encodes, hnext]
    omega
  | inside _ h0 hk =>
    have hbeh := hb (by unfold stop; omega)
    rw [drop_inside hk.le, hbeh]
    simp [Damage.spared, hbeh, number, frames, Coding.encodes, hnext]
    omega
  | behind n hn =>
    rw [drop_behind hn] at hs ⊢
    have hd := hnil _ _ [] (fits_behind n) (by rwa [List.append_nil])
    obtain rfl : n = D.behind.length := by
      have := List.drop_eq_nil_iff.mp hd
      omega
    rw [List.take_length, hd]
    refine ⟨rfl, by simp [number, frames, Coding.encodes], ?_⟩
    rw [hnext]
    by_cases hbeh : D.behind = []
    · simp [hbeh]
      omega
    · have := List.length_pos_iff.mpr hbeh
      rw [if_neg hbeh, if_neg (by omega)]
      omega

/-- A reader in the segment: its buffer begins at offset `o` of the file. -/
structure Inside (D : Damage) (r : SpoolReader) (got : List Record) (o pos : Nat) : Prop where
  file : r.file = some ⟨D.ino, pos, D.first⟩
  offset : o + r.buffer.length = pos
  bytes : r.buffer ++ (D.disk.bytes D.ino).drop pos = (D.disk.bytes D.ino).drop o
  stands : D.Stands o got r.after r.corrupt
  torn : r.torn = 0
  skipped : r.skipped = 0
  ended : r.phase = .ended → front r.buffer = .short ∧ (D.disk.bytes D.ino).drop pos = []

/-- A reader at the beginning of the next segment. -/
structure Arrived (D : Damage) (r : SpoolReader) (got : List Record) : Prop where
  file : r.file = some ⟨D.next.2, 0, D.next.1⟩
  buffer : r.buffer = []
  settled : D.Settled r got

theorem later_eq (pos : Nat) :
    SpoolReader.later D.disk ⟨D.ino, pos, D.first⟩ = D.next :: D.newer :=
  later_listed D.sorted D.listed pos

theorem openFile_next (r : SpoolReader) :
    r.openFile D.disk D.next.1 =
      some { r with file := some ⟨D.next.2, 0, D.next.1⟩, buffer := [] } := by
  have hlisted : D.disk.dir = (D.older ++ [(D.first, D.ino)]) ++ D.next :: D.newer := by
    simp [D.listed]
  exact openFile_listed D.sorted hlisted r

variable {r : SpoolReader} {ret : List Record}

theorem Inside.finished {o pos : Nat}
    (h : D.Inside r (ret ++ r.out) o pos) (hp : r.phase = .ended) (hg : D.Passes r) :
    D.Arrived (r.turn D.disk) (ret ++ (r.turn D.disk).out) ∧ (r.turn D.disk).phase = .reading ∧
      (r.turn D.disk).limit = r.limit := by
  obtain ⟨hs, hrest⟩ := h.ended hp
  have ho : pos - r.buffer.length = o := by
    have := h.offset
    omega
  have hbuf : r.buffer = (D.disk.bytes D.ino).drop o := by
    rw [← h.bytes, hrest, List.append_nil]
  have hbeh : o < D.stop → D.behind = [] := by
    rw [Passes, h.file, hp] at hg
    simpa [ho] using hg
  obtain ⟨hgot, hlost, hskip⟩ := h.stands.at_end (hbuf ▸ hs) hbeh
  have hturn : r.turn D.disk = { r with
      torn := r.torn + r.buffer.length, skipped := r.skipped + (D.next.1 - (r.after + 1))
      file := some ⟨D.next.2, 0, D.next.1⟩, buffer := [], phase := .reading } := by
    simp [SpoolReader.turn, hp, h.file, SpoolReader.finished, later_eq, hrest, openFile_next]
  rw [hturn]
  refine ⟨⟨rfl, rfl, hgot, ?_, ?_⟩, rfl, rfl⟩
  · rw [← hbuf] at hlost
    simp only [h.torn]
    omega
  · simp only [h.skipped, hskip, Nat.zero_add]

/-- A turn within the segment stays in it. -/
theorem Inside.reading {o pos : Nat}
    (h : D.Inside r (ret ++ r.out) o pos) (hp : r.phase = .reading) (hg : D.Passes r) :
    ∃ o' pos', D.Inside (r.turn D.disk) (ret ++ (r.turn D.disk).out) o' pos' := by
  by_cases hlim : r.limit ≤ r.out.length
  · have hturn : r.turn D.disk = { r with phase := .idle } := by
      simp [SpoolReader.turn, hp, h.file, hlim]
    rw [hturn]
    exact ⟨o, pos, h.file, h.offset, h.bytes, h.stands, h.torn, h.skipped, by simp⟩
  · have ho : pos - r.buffer.length = o := by
      have := h.offset
      omega
    rw [Passes, h.file, hp] at hg
    simp only [forall_const, ho] at hg
    obtain ⟨rs, rest, c, o', after', hparse, hstands, haccept, ⟨taken, htaken, ho'⟩, hc⟩ :=
      h.stands.parsed ⟨_, h.bytes⟩ fun hlt => (hg hlt).1
    have hverdict : front rest = if c then .corrupt else .short := by
      have hr := Parsing.Framing.parse_rest (F := records.toFraming) r.buffer
      rwa [show records.parse r.buffer = _ from hparse] at hr
    have hoff := h.offset
    have hbytes := h.bytes
    rw [htaken] at hoff
    rw [htaken, List.append_assoc] at hbytes
    have hrest : rest ++ (D.disk.bytes D.ino).drop pos = (D.disk.bytes D.ino).drop o' := by
      rw [ho', ← List.drop_drop, ← hbytes, List.drop_left]
    rw [List.length_append] at hoff
    rw [turn_open hp h.file hlim hparse (haccept { r with buffer := rest } rfl)]
    cases c with
    | true =>
      obtain ⟨hmax, hlt, hdrop, hskip⟩ := hc rfl
      have hpos := resyncStep_pos rest
      have hj : o' + SpoolReader.resyncStep rest ≤ D.stop := by
        unfold SpoolReader.resyncStep
        simp only
        split
        · rename_i hleads
          rw [hdrop] at hleads ⊢
          rw [hmax]
          exact (hg (by omega)).2 hleads
        · omega
      have hle := resyncStep_le hverdict
      refine ⟨o' + SpoolReader.resyncStep rest, pos, h.file, ?_, ?_, ?_, h.torn, h.skipped, ?_⟩
      · simp only [if_true, SpoolReader.resync, List.length_drop]
        omega
      · simp only [if_true, SpoolReader.resync]
        rw [← List.drop_drop, ← hrest, List.drop_append_of_le_length hle]
      · simpa [SpoolReader.resync] using hskip _ hpos hj
      · simp [SpoolReader.resync, hp]
    | false =>
      simp only [Bool.false_eq_true, if_false]
      split
      · refine ⟨o', pos, h.file, by simp only; omega, hrest, ?_, h.torn, h.skipped, by simp [hp]⟩
        simpa using hstands
      · rename_i hnil
        rw [not_not] at hnil
        subst hnil
        rw [List.append_nil] at hstands
        split
        · refine ⟨o', _, rfl, ?_, ?_, by simpa using hstands, h.torn, h.skipped, by simp [hp]⟩
          · simp only [List.length_append]
            omega
          · simp only
            rw [← hrest, List.append_assoc, ← List.drop_drop, take_drop_length]
        · rename_i hchunk
          refine ⟨o', pos, h.file, by simp only; omega, hrest, by simpa using hstands, h.torn,
            h.skipped, fun _ => ⟨hverdict, ?_⟩⟩
          rw [not_not, List.take_eq_nil_iff] at hchunk
          exact hchunk.resolve_left (by decide)

/-- A reader that has not opened a segment yet. -/
structure Fresh (D : Damage) (r : SpoolReader) (got : List Record) : Prop where
  file : r.file = none
  after : r.after + 1 = D.first
  got : got = []
  lost : r.torn = 0 ∧ r.corrupt = 0 ∧ r.skipped = 0
  phase : r.phase ≠ .ended

/-- A reader that has not left the segment. -/
def Within (D : Damage) (r : SpoolReader) (got : List Record) : Prop :=
  D.Fresh r got ∨ ∃ o pos, D.Inside r got o pos

/-- A reader that has. -/
def Beyond (D : Damage) (r : SpoolReader) (got : List Record) : Prop :=
  ∃ h, r.file = some h ∧ (h.first, h.ino) ∈ D.disk.dir ∧ D.next.1 ≤ h.first ∧
    (h = ⟨D.next.2, 0, D.next.1⟩ → D.Arrived r got)

variable {r : SpoolReader} {got : List Record}

theorem Arrived.beyond (h : D.Arrived r got) : D.Beyond r got :=
  ⟨_, h.file, by simp [D.listed], le_rfl, fun _ => h⟩

theorem Fresh.turn (h : D.Fresh r (ret ++ r.out)) :
    D.Within (r.turn D.disk) (ret ++ (r.turn D.disk).out) ∧
      (r.phase = .reading → r.out.length < r.limit → (r.turn D.disk).phase ≠ .idle ∧
        (r.turn D.disk).limit = r.limit ∧ (r.turn D.disk).work D.disk < r.work D.disk) := by
  cases hp : r.phase with
  | idle =>
    have hturn : r.turn D.disk = r := by simp [SpoolReader.turn, hp]
    rw [hturn]
    exact ⟨.inl h, fun hr => absurd hr (by simp)⟩
  | ended => exact absurd hp h.phase
  | reading =>
    by_cases hlim : r.limit ≤ r.out.length
    · have hturn : r.turn D.disk = { r with phase := .idle } := by
        simp [SpoolReader.turn, hp, h.file, hlim]
      rw [hturn]
      exact ⟨.inl ⟨h.file, h.after, h.got, h.lost, by simp⟩, fun _ hlt => by omega⟩
    · have hopen := openFile_listed (e := (D.first, D.ino)) D.sorted D.listed r
      have hturn : r.turn D.disk = { r with file := some ⟨D.ino, 0, D.first⟩, buffer := [] } := by
        simp [SpoolReader.turn, hp, h.file, hlim, h.after, hopen]
      have hbefore := Stands.before (D := D) 0 (Nat.zero_le _)
      have hafter := h.after
      rw [hturn]
      refine ⟨.inr ⟨0, 0, rfl, rfl, rfl, ?_, h.lost.1, h.lost.2.2, by simp [hp]⟩, fun _ _ =>
        ⟨by simp [hp], rfl, work_opening (e := (D.first, D.ino)) D.sorted (by simp [D.listed]) h.file hp
          rfl rfl hp⟩⟩
      have hgot := h.got
      simp only [h.lost.2.1, hgot, ← hafter] at hbefore ⊢
      simpa [number, frames, Coding.encodes] using hbefore

/-- A turn within the segment stays in it or comes to the next one; under way, it takes from the
work. -/
theorem Within.turn {r : SpoolReader} {l : List Record} (h : D.Within r (l ++ r.out))
    (hg : D.Passes r) :
    (D.Within (r.turn D.disk) (l ++ (r.turn D.disk).out) ∧
      (r.phase ≠ .idle → r.out.length < r.limit → (r.turn D.disk).phase ≠ .idle ∧
        (r.turn D.disk).limit = r.limit ∧ (r.turn D.disk).work D.disk < r.work D.disk)) ∨
      D.Arrived (r.turn D.disk) (l ++ (r.turn D.disk).out) ∧ (r.turn D.disk).phase ≠ .idle := by
  rcases h with h | ⟨o, pos, h⟩
  · refine .inl ⟨h.turn.1, fun hp => h.turn.2 ?_⟩
    cases hph : r.phase with
    | idle => exact absurd hph hp
    | reading => rfl
    | ended => exact absurd hph h.phase
  · cases hp : r.phase with
    | idle =>
      have hturn : r.turn D.disk = r := by simp [SpoolReader.turn, hp]
      rw [hturn]
      exact .inl ⟨.inr ⟨o, pos, h⟩, fun hi => absurd rfl hi⟩
    | ended =>
      obtain ⟨harr, hph, -⟩ := h.finished hp hg
      exact .inr ⟨harr, by rw [hph]; simp⟩
    | reading =>
      refine .inl ⟨.inr (h.reading hp hg), fun _ hlt => ?_⟩
      obtain ⟨hw, hne, hl⟩ := work_reading (d := D.disk) hp h.file hlt
      exact ⟨hne, hl, hw⟩

theorem Arrived.phase (h : D.Arrived r got) (p : Phase) :
    D.Arrived { r with phase := p } got := ⟨h.file, h.buffer, h.settled⟩

/-- A reader that moves on in a file beyond the segment. -/
theorem Beyond.moved {h : Handle} {n : Nat} (hn : 0 < n)
    (hf : r.file = some { h with pos := h.pos + n }) (hd : (h.first, h.ino) ∈ D.disk.dir)
    (hle : D.next.1 ≤ h.first) : D.Beyond r got :=
  ⟨_, hf, hd, hle, fun he => absurd (congrArg Handle.pos he) (by simp only; omega)⟩

theorem Beyond.finished {h : Handle} (hf : r.file = some h)
    (hd : (h.first, h.ino) ∈ D.disk.dir) (hle : D.next.1 ≤ h.first)
    (ha : h = ⟨D.next.2, 0, D.next.1⟩ → D.Arrived r got) :
    D.Beyond (r.finished D.disk h) got ∧ (r.finished D.disk h).out = r.out := by
  obtain ⟨l₁, l₂, hdir⟩ := List.append_of_mem hd
  have hlater := later_listed D.sorted hdir h.pos
  have hsort := D.sorted
  rw [hdir, List.pairwise_append, List.pairwise_cons] at hsort
  unfold SpoolReader.finished
  rw [hlater]
  cases l₂ with
  | nil => exact ⟨⟨h, hf, hd, hle, fun he => (ha he).phase .idle⟩, rfl⟩
  | cons e l₂ =>
    simp only
    split
    · rename_i hrest
      exact ⟨.moved (List.length_pos_iff.mpr hrest) rfl hd hle, rfl⟩
    · have he : h.first < e.1 := hsort.2.1.1 e (by simp)
      have hdir' : D.disk.dir = (l₁ ++ [(h.first, h.ino)]) ++ e :: l₂ := by simp [hdir]
      rw [openFile_listed D.sorted hdir']
      refine ⟨⟨⟨e.2, 0, e.1⟩, rfl, by simp [hdir'], by simp only; omega, fun heq => ?_⟩, rfl⟩
      have := congrArg Handle.first heq
      simp only at this
      omega

/-- What comes after the segment stays behind it. -/
theorem Beyond.turn (h : D.Beyond r (ret ++ r.out)) :
    D.Beyond (r.turn D.disk) (ret ++ (r.turn D.disk).out) := by
  obtain ⟨h, hf, hd, hle, ha⟩ := h
  cases hp : r.phase with
  | idle =>
    have hturn : r.turn D.disk = r := by simp [SpoolReader.turn, hp]
    rw [hturn]
    exact ⟨h, hf, hd, hle, ha⟩
  | ended =>
    have hturn : r.turn D.disk = r.finished D.disk h := by simp [SpoolReader.turn, hp, hf]
    obtain ⟨hb, hout⟩ := Beyond.finished hf hd hle ha
    rw [hturn, hout]
    exact hb
  | reading =>
    by_cases hlim : r.limit ≤ r.out.length
    · have hturn : r.turn D.disk = { r with phase := .idle } := by
        simp [SpoolReader.turn, hp, hf, hlim]
      rw [hturn]
      exact ⟨h, hf, hd, hle, fun he => (ha he).phase .idle⟩
    · obtain ⟨rs, rest, c, hb⟩ : ∃ rs rest c, parse r.buffer = (rs, rest, c) := ⟨_, _, _, rfl⟩
      obtain ⟨out, after, hacc⟩ := accept_eq { r with buffer := rest } rs
      rw [turn_open hp hf hlim hb hacc]
      by_cases he : h = ⟨D.next.2, 0, D.next.1⟩
      · have harr := ha he
        have hempty : parse [] = ([], [], false) := rfl
        rw [harr.buffer, hempty] at hb
        obtain ⟨rfl, rfl, rfl⟩ : rs = [] ∧ rest = [] ∧ c = false := by simpa [eq_comm] using hb
        have hsame : out = r.out := by
          have := congrArg SpoolReader.out hacc
          exact this.symm
        simp only [Bool.false_eq_true, if_false, ne_eq, not_true_eq_false]
        split
        · rename_i hchunk
          exact .moved (List.length_pos_iff.mpr hchunk) rfl hd hle
        · rw [hsame]
          exact ⟨h, hf, hd, hle, fun _ => ⟨harr.file, rfl, harr.settled⟩⟩
      · cases c with
        | true => exact ⟨h, hf, hd, hle, fun heq => absurd heq he⟩
        | false =>
          simp only [Bool.false_eq_true, if_false]
          split
          · exact ⟨h, hf, hd, hle, fun heq => absurd heq he⟩
          · split
            · rename_i hchunk
              exact .moved (List.length_pos_iff.mpr hchunk) rfl hd hle
            · exact ⟨h, hf, hd, hle, fun heq => absurd heq he⟩

/-- The damaged segment and its reader, between any two steps. -/
structure Along (D : Damage) (s : System) : Prop where
  disk : s.disk = D.disk
  out : s.reader.phase = .idle → s.reader.out = []
  stage : D.Within s.reader (s.returned ++ s.reader.out) ∨
    D.Beyond s.reader (s.returned ++ s.reader.out)

theorem Within.reader (h : D.Within r got) (limit : Nat)
    (out : List Record) (p : Phase) (hp : p ≠ .ended) :
    D.Within { r with limit, out, phase := p } got := by
  rcases h with h | ⟨o, pos, h⟩
  · exact .inl ⟨h.file, h.after, h.got, h.lost, hp⟩
  · exact .inr ⟨o, pos, h.file, h.offset, h.bytes, h.stands, h.torn, h.skipped, fun he => absurd he hp⟩

theorem Beyond.reader (h : D.Beyond r got) (limit : Nat)
    (out : List Record) (p : Phase) : D.Beyond { r with limit, out, phase := p } got := by
  obtain ⟨h, hf, hd, hle, ha⟩ := h
  exact ⟨h, hf, hd, hle, fun he => ⟨(ha he).file, (ha he).buffer, (ha he).settled⟩⟩

theorem Along.init (D : Damage) : D.Along D.system := by
  refine ⟨rfl, fun _ => rfl, .inl (.inl ⟨rfl, ?_, rfl, ⟨rfl, rfl, rfl⟩, by simp [system]⟩)⟩
  exact Nat.sub_add_cancel D.first_pos

theorem Along.step {s : System} {e : Event} (h : D.Along s) (hg : D.Harmless s e) :
    D.Along (s.step e) := by
  obtain ⟨hd, hout, hs⟩ := h
  cases e with
  | writer op => exact hg.elim
  | call limit =>
    cases hp : s.reader.phase with
    | reading | ended =>
      have he : s.step (.call limit) = s := by simp [System.step, SpoolReader.call, hp]
      rw [he]
      exact ⟨hd, hout, hs⟩
    | idle =>
      have he : s.step (.call limit) =
          { s with reader := { s.reader with limit, out := [], phase := .reading } } := by
        simp [System.step, SpoolReader.call, hp]
      rw [hout hp] at hs
      rw [he]
      exact ⟨hd, by simp, hs.imp (·.reader limit [] .reading (by simp)) (·.reader limit [] .reading)⟩
  | turn =>
    have hs' : D.Within (s.reader.turn s.disk) (s.returned ++ (s.reader.turn s.disk).out) ∨
        D.Beyond (s.reader.turn s.disk) (s.returned ++ (s.reader.turn s.disk).out) := by
      rw [hd]
      rcases hs with hs | hs
      · rcases hs.turn hg with ⟨hw, -⟩ | ⟨harr, -⟩
        · exact .inl hw
        · exact .inr harr.beyond
      · exact .inr hs.turn
    cases hp : (s.reader.turn s.disk).phase with
    | idle =>
      have he : s.step .turn = { s with
          reader := { s.reader.turn s.disk with out := [] }
          returned := s.returned ++ (s.reader.turn s.disk).out } := by
        simp [System.step, hp]
      rw [he]
      refine ⟨hd, fun _ => rfl, ?_⟩
      rw [List.append_nil]
      have hi := hs'.imp (·.reader (s.reader.turn s.disk).limit [] .idle (by simp))
        (·.reader (s.reader.turn s.disk).limit [] .idle)
      rwa [← hp] at hi
    | reading | ended =>
      have he : s.step .turn = { s with reader := s.reader.turn s.disk } := by
        simp [System.step, hp]
      rw [he]
      exact ⟨hd, fun hi => absurd (hp.symm.trans hi) (by simp), hs'⟩

theorem Along.spares {s : System} (h : D.Along s) : D.Spares s := by
  have hnum := D.numbered
  obtain ⟨-, -, (hs | ⟨o, pos, hs⟩) | ⟨h, hf, hd, hle, ha⟩⟩ := h
  · exact ⟨fun h hf => absurd (hs.file.symm.trans hf) (by simp),
      fun hf => absurd (hs.file.symm.trans hf) (by simp)⟩
  · refine ⟨fun _ _ _ => hs.stands.spared, fun hf => ?_⟩
    have := congrArg Handle.first (Option.some.inj (hs.file.symm.trans hf))
    simp only at this
    omega
  · refine ⟨fun h' hf' hfirst => ?_, fun hf' => (ha (Option.some.inj (hf.symm.trans hf'))).settled⟩
    obtain rfl := Option.some.inj (hf.symm.trans hf')
    omega

/-- Turns enough to read to the end of the segment. -/
def turns (D : Damage) : Nat := D.system.reader.work D.disk + 2

theorem Within.spared (h : D.Within r got) :
    got <+: D.spared := by
  rcases h with h | ⟨o, pos, h⟩
  · rw [h.got]
    exact List.nil_prefix
  · exact h.stands.spared

/-- A call of a limit it does not come to, under way in the segment. -/
structure Calls (D : Damage) (s : System) : Prop where
  along : D.Along s
  within : D.Within s.reader s.reader.out
  returned : s.returned = []
  phase : s.reader.phase ≠ .idle
  limit : D.spared.length < s.reader.limit

theorem Calls.turn {s : System} (h : D.Calls s) (hg : D.Harmless s .turn) :
    (s.step .turn).reader.file = some ⟨D.next.2, 0, D.next.1⟩ ∨
      D.Calls (s.step .turn) ∧ (s.step .turn).reader.work D.disk < s.reader.work D.disk := by
  have halong := h.along.step hg
  have hlt : s.reader.out.length < s.reader.limit :=
    h.within.spared.length_le.trans_lt h.limit
  have he : (s.reader.turn s.disk).phase ≠ .idle →
      s.step .turn = { s with reader := s.reader.turn s.disk } := by
    intro hne
    cases hp : (s.reader.turn s.disk).phase with
    | idle => exact absurd hp hne
    | reading | ended => simp [System.step, hp]
  rcases Within.turn (l := []) h.within hg with ⟨hw, hgo⟩ | ⟨harr, hne⟩
  · obtain ⟨hne, hlimit, hwork⟩ := hgo h.phase hlt
    rw [← h.along.disk] at hw hne hlimit hwork
    rw [he hne] at halong ⊢
    exact .inr ⟨⟨halong, hw, h.returned, hne, hlimit ▸ h.limit⟩, h.along.disk ▸ hwork⟩
  · rw [← h.along.disk] at harr hne
    rw [he hne]
    exact .inl harr.file

theorem Calls.arrives {n : Nat} {s : System} (h : D.Calls s) (hn : s.reader.work D.disk ≤ n)
    (hg : Meets System.step D.Harmless s (List.replicate (n + 1) .turn)) :
    ∃ k ≤ n + 1, (run System.step s (List.replicate k .turn)).reader.file =
      some ⟨D.next.2, 0, D.next.1⟩ := by
  induction n generalizing s with
  | zero =>
    rcases h.turn hg.1 with hf | ⟨-, hlt⟩
    · exact ⟨1, le_rfl, hf⟩
    · omega
  | succ n ih =>
    rcases h.turn hg.1 with hf | ⟨hc, hlt⟩
    · exact ⟨1, by omega, hf⟩
    · obtain ⟨k, hk, hf⟩ := ih hc (by omega) hg.2
      exact ⟨k + 1, by omega, hf⟩

/-- A run spares every other record and, as one call that asks for them all, comes to the next
segment. -/
def Recovers (D : Damage) (es : List Event) : Prop :=
  D.Spares (run System.step D.system es) ∧
    ∀ limit, D.spared.length < limit → es = .call limit :: List.replicate D.turns .turn →
      ∃ k ≤ D.turns, (run System.step D.system (.call limit :: List.replicate k .turn)).reader.file =
        some ⟨D.next.2, 0, D.next.1⟩

end Damage

/-- A reader of a segment with one damaged record returns every other record, in order and once
each, counts the damaged one's bytes alone as lost and comes to the next segment, in every run whose
steps pass the damaged bytes by. -/
theorem damage_spares_others (D : Damage) (es : List Event)
    (h : Meets System.step D.Harmless D.system es) : D.Recovers es := by
  refine ⟨(run_invariant (fun _ _ hs hg => hs.step hg) _ es (Damage.Along.init D) h).spares, ?_⟩
  rintro limit hlim rfl
  have hcall : D.system.step (.call limit) =
      { D.system with reader := { D.system.reader with limit, out := [], phase := .reading } } := by
    simp [System.step, SpoolReader.call, Damage.system]
  obtain ⟨hg, hgs⟩ := h
  have halong := (Damage.Along.init D).step hg
  rw [hcall] at halong hgs
  have hinit : D.Within D.system.reader [] :=
    .inl ⟨rfl, Nat.sub_add_cancel D.first_pos, rfl, ⟨rfl, rfl, rfl⟩, by simp [Damage.system]⟩
  have hc : D.Calls { D.system with
      reader := { D.system.reader with limit, out := [], phase := .reading } } :=
    ⟨halong, hinit.reader limit [] .reading (by simp), rfl, by simp, hlim⟩
  obtain ⟨k, hk, hf⟩ := hc.arrives (n := D.system.reader.work D.disk + 1) (le_of_eq rfl) hgs
  exact ⟨k, hk, by rw [run_cons, hcall]; exact hf⟩

instance (r : Record) : Decidable (Fits r) := inferInstanceAs (Decidable (_ ∧ _))

/-- Three records, a byte of the second one's payload lost. -/
def Damage.payloadLost : Damage where
  disk := ⟨[frame 1 [1] ++ (frame 2 [2]).set 16 0 ++ frame 3 [3], []], [(1, 0), (4, 1)]⟩
  first := 1
  ino := 0
  older := []
  next := (4, 1)
  newer := []
  before := [[1]]
  record := [2]
  behind := [[3]]
  altered := (frame 2 [2]).set 16 0
  first_pos := by decide
  numbered := by decide
  listed := rfl
  sorted := by decide
  fits := by decide
  same_size := by decide +kernel
  file := by decide +kernel
  rejected := by decide +kernel

/-- The scan over a lost payload comes upon the next record. -/
theorem payload_damage_spares_others :
    let es : List Event := .call 10 :: List.replicate Damage.payloadLost.turns .turn
    Meets System.step Damage.payloadLost.Harmless Damage.payloadLost.system es ∧
      Damage.payloadLost.Recovers es :=
  ⟨by decide +kernel, damage_spares_others _ _ (by decide +kernel)⟩

/-- Three records, the first one's length changed from 1 to 18: as many bytes on from its header the
third record begins. -/
def Damage.lengthChanged : Damage where
  disk := ⟨[(frame 1 [1]).set 0 18 ++ frame 2 [2] ++ frame 3 [3], []], [(1, 0), (4, 1)]⟩
  first := 1
  ino := 0
  older := []
  next := (4, 1)
  newer := []
  before := []
  record := [1]
  behind := [[2], [3]]
  altered := (frame 1 [1]).set 0 18
  first_pos := by decide
  numbered := by decide
  listed := rfl
  sorted := by decide
  fits := by decide
  same_size := by decide +kernel
  file := by decide +kernel
  rejected := by decide +kernel

/-- The scan takes the length at its word, and steps over the second record to the third. -/
theorem length_damage_costs_next :
    ¬ ∀ (D : Damage) (es : List Event), (∀ e ∈ es, ∀ op, e ≠ .writer op) → D.Recovers es := by
  intro hall
  have h := hall Damage.lengthChanged (.call 10 :: List.replicate 6 .turn) (by simp)
  have hf : (run System.step Damage.lengthChanged.system
      (.call 10 :: List.replicate 6 .turn)).reader.file = some ⟨1, 0, 4⟩ := by decide +kernel
  exact absurd (h.1.2 hf).1 (by decide +kernel)

end NetCoreNoc.Spool
