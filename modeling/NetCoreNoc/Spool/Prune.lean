import Mathlib
import NetCoreNoc.Runs
import NetCoreNoc.Spool.Sequence

/-! The segments that `SpoolFeed.prune` deletes (`engine/operate/intake.py`), against a database whose
commits may be lost until they are on disk, and a writer that goes on beside it. -/
namespace NetCoreNoc.Spool
open Runs Parsing

/-- PostgreSQL's side of the cursor: where each commit left it, and how many of the commits are on disk. -/
structure Database where
  commits : List Nat := []
  flushed : Nat := 0
  flushed_le : flushed ≤ commits.length := by simp

namespace Database
variable (db : Database)

/-- `get_meta(CURSOR_KEY)` after so many commits. -/
def after (n : Nat) : Nat := (db.commits.take n).getLastD 0

def stored : Nat := db.after db.commits.length

/-- The WAL is one sequence: what makes a commit durable makes those before it durable. -/
def flush (n : Nat) : Database where
  commits := db.commits
  flushed := max db.flushed (min n db.commits.length)
  flushed_le := max_le db.flushed_le (min_le_right _ _)

def push (seq : Nat) : Database where
  commits := db.commits ++ [seq]
  flushed := db.flushed
  flushed_le := by
    rw [List.length_append]
    exact Nat.le_add_right_of_le db.flushed_le

def commit (seq : Nat) (relaxed : Bool) : Database :=
  if relaxed then db.push seq else (db.push seq).flush (db.commits.length + 1)

/-- The cursors that the database may come back with. -/
def Returns (x : Nat) : Prop := ∃ n, db.flushed ≤ n ∧ n ≤ db.commits.length ∧ db.after n = x

/-- It comes back with so many commits, which are then on disk. -/
def crash (n : Nat) : Database :=
  if h : db.flushed ≤ n ∧ n ≤ db.commits.length then
    { commits := db.commits.take n, flushed := n, flushed_le := by rw [List.length_take, min_eq_left h.2] }
  else db

end Database

/-- Where `prune` is: it has listed the segments it may delete, by a cursor, or is past the checkpoint. -/
inductive Prune where
  | idle
  | chosen (cursor : Nat) (doomed : List Nat)
  | unlinking (cursor : Nat) (doomed : List Nat)
  deriving DecidableEq

/-- `SpoolFeed` as its pruning sees it, with the writer's process and the database. -/
structure Keeper where
  spool : System := {}
  db : Database := {}
  /-- the last record classified, as the feed knows it -/
  cursor : Nat := 0
  /-- the cursor that the open transaction wrote, and whether its commit waits for the disk -/
  staged : Option (Nat × Bool) := none
  prune : Prune := .idle
  /-- what has been pruned, in order -/
  removed : List (Nat × Nat) := []

inductive KeeperOp where
  | writer (op : WriterOp)
  /-- `stage`, and `_set_aside`, whose commit is not relaxed -/
  | stage (seq : Nat) (relaxed : Bool)
  /-- the transaction commits, and the feed hears of it or its connection is lost -/
  | commit (heard : Bool)
  | rollback
  /-- the database writes its WAL -/
  | flush (n : Nat)
  | choose
  | checkpoint
  /-- the checkpoint raises, or `prune` is cancelled -/
  | abandon
  | unlink
  /-- the database crashes, and comes back with so many commits -/
  | database_crash (n : Nat)
  /-- the main process starts again -/
  | restart
  /-- everything stops: so many commits survive, so many bytes of an append under way, and so many of the
  deletions -/
  | power_cut (n kept unlinked : Nat)

/-- A datagram is no longer than a payload may be. -/
def WriterOp.Sized : WriterOp → Prop
  | .append group => ∀ p ∈ group, p.length ≤ MAX_PAYLOAD
  | _ => True

instance (op : WriterOp) : Decidable op.Sized := by
  unfold WriterOp.Sized
  split <;> infer_instance

/-- What a power cut leaves of a file that is being appended to. -/
def Writer.cut (d : Disk) (kept : Nat) : Writer → Disk
  | .writing w _ _ => d.write w.ino ((d.bytes w.ino).take (w.size + kept))
  | _ => d

namespace Keeper
variable (s : Keeper)

/-- The main process, started. -/
def resume : Keeper := { s with cursor := s.db.stored, staged := none, prune := .idle }

/-- What of an append under way and of the deletions a power cut leaves. -/
def survive (kept unlinked : Nat) : Keeper :=
  let disk := s.spool.writer.cut s.spool.disk kept
  { s with
    spool := { s.spool with disk := { disk with dir := s.removed.drop unlinked ++ disk.dir } }
    removed := s.removed.take unlinked }

def write (op : WriterOp) : Keeper := { s with spool := s.spool.step (.writer op) }

def step (s : Keeper) : KeeperOp → Keeper
  | .writer op => if op.Sized then s.write op else s
  | .stage seq relaxed =>
    -- what is delivered comes after the cursor
    if s.staged = none ∧ s.cursor ≤ seq then { s with staged := some (seq, relaxed) } else s
  | .commit heard => match s.staged with
    | some (seq, relaxed) => { s with
        db := s.db.commit seq relaxed, staged := none
        cursor := if heard then max s.cursor seq else s.cursor }
    | none => s
  | .rollback => { s with staged := none }
  | .flush n => { s with db := s.db.flush n }
  | .choose => match s.prune with
    | .idle => { s with prune := .chosen s.cursor (prunable s.spool.disk.dir s.cursor) }
    | _ => s
  | .checkpoint => match s.prune with
    | .chosen cursor doomed =>
      if s.staged.isSome then { s with prune := .idle }
      else { s with db := s.db.flush s.db.commits.length, prune := .unlinking cursor doomed }
    | _ => s
  | .abandon => { s with prune := .idle }
  | .unlink => match s.prune with
    | .unlinking cursor (first :: doomed) => { s with
        spool := { s.spool with disk := s.spool.disk.unlink first }
        prune := .unlinking cursor doomed
        removed := s.removed ++ s.spool.disk.dir.filter (·.1 = first) }
    | .unlinking _ [] => { s with prune := .idle }
    | _ => s
  | .database_crash n => { s with db := s.db.crash n, staged := none }
  | .restart => s.resume
  | .power_cut n kept unlinked =>
    ({ s with db := s.db.crash n }.resume.survive kept unlinked).write .crash

end Keeper

/-- The directory with segments before its first. -/
def Disk.behind (d : Disk) (removed : List (Nat × Nat)) : Disk := { d with dir := removed ++ d.dir }

section Works
variable {s : System} {live : Option Nat}

/-- Nothing hangs on what a failed append owes but the append that retries it. -/
theorem Works.forget (h : Works s live) : Works { s with owed := [], reader := { after := 0 }, returned := [] } live where
  writable := h.writable.mono (by
    cases hw : s.writer with
    | writing w group view => simp only [System.pending, hw, List.prefix_rfl]
    | _ => simp only [System.pending, hw, List.append_nil, List.prefix_append])
  owed_pending := List.nil_prefix
  sorted := h.sorted
  inodes := h.inodes
  named := h.named
  oldest := h.oldest
  empty := h.empty
  final := h.final
  newest := h.newest
  tail f i hl he := by
    obtain ⟨done, hb, ht⟩ := h.tail f i hl he
    refine ⟨done, hb, ?_⟩
    cases hw : s.writer with
    | down =>
      rw [Tail, hw] at ht
      rw [Tail]
      exact ⟨ht.1, .inr List.nil_prefix⟩
    | opening w starting =>
      rw [Tail, hw] at ht
      exact ht.elim
    | idle w =>
      rw [Tail, hw] at ht
      rw [Tail]
      exact ht
    | writing w group view =>
      rw [Tail, hw] at ht
      rw [Tail]
      exact ht
  numbered := h.numbered

variable {op : WriterOp}

/-- An operation of the writer, on its own. -/
theorem Works.writer (h : Works s live) (hr : s.reader = { after := 0 }) (hret : s.returned = [])
    (ho : s.owed = []) (hg : op.Sized) : ∃ live', Works (s.step (.writer op)) live' := by
  have hreads : Reads s.disk (s.view live) s.reader (s.returned ++ s.reader.out) := by
    rw [hr, hret]
    exact ⟨by simp, Nat.zero_le _, by simp, by simp⟩
  have hretries : s.Retries (.writer op) := by
    cases op with
    | append group => exact ⟨by rw [ho]; exact List.nil_prefix, hg⟩
    | _ => trivial
  obtain ⟨live', hw, -⟩ := Steady.writer ⟨live, h, hreads⟩ hretries
  exact ⟨live', hw⟩

/-- How full the writer takes the spool to be matters to no file. -/
theorem Works.used (h : Works s live) {w v : SpoolWriter} (hs : s.writer = .idle w) (hn : v.nextSeq = w.nextSeq)
    (hi : v.ino = w.ino) (hsize : v.size = w.size) : Works { s with writer := .idle v } live := by
  have hnum := h.numbered
  rw [hs] at hnum
  refine h.relabel rfl rfl rfl ?_ ?_ (fun i done _ ht => ?_) ?_
  · have := h.writable
    rwa [pending_of_idle hs] at this
  · exact List.prefix_rfl
  · rw [tail_idle hs] at ht
    rw [tail_idle rfl, hi, hsize]
    exact ht
  · simp only [hi, hn]
    exact hnum

/-- An append of which fewer bytes have reached the disk. -/
theorem Works.truncate (h : Works s live) {w : SpoolWriter} {group : List Bytes} {view : Bytes}
    (hs : s.writer = .writing w group view) (kept : Nat) : ∃ view', Works { s with
      disk := s.disk.write w.ino ((s.disk.bytes w.ino).take (w.size + kept)), writer := .writing w group view' }
      live := by
  obtain ⟨rfl, hseq, hpend⟩ := h.writing hs
  obtain ⟨l, f₀, hd⟩ := h.newest _ rfl
  have he : (f₀, w.ino) ∈ s.disk.dir := by rw [hd]; simp
  obtain ⟨done, hb, ht⟩ := h.tail f₀ _ rfl he
  rw [tail_writing hs] at ht
  have hlen := congrArg List.length hb
  rw [List.length_append] at hlen
  have hsize : w.size = (frames (span s.log (f₀ - 1) s.log.length)).length := by omega
  refine ⟨done.drop kept ++ view, h.advance ⟨rfl, by simp, fun j hj => Disk.bytes_write_ne hj.symm _,
    List.prefix_rfl, rfl, rfl⟩ ?_ ?_ (fun f hf => ?_) ⟨rfl, hseq⟩⟩
  · have := h.writable
    rwa [hpend] at this
  · have := h.owed_pending
    rwa [hpend] at this
  · obtain rfl : f₀ = f := by
      rw [hd] at hf
      rcases List.mem_append.mp hf with hf | hf
      · have := (List.pairwise_append.mp (hd ▸ h.inodes)).2.2 _ hf _ (List.mem_singleton_self _)
        exact absurd rfl this
      · exact (Prod.mk.inj (List.mem_singleton.mp hf)).1.symm
    have hbytes : (s.disk.write w.ino ((s.disk.bytes w.ino).take (w.size + kept))).bytes w.ino =
        frames (span s.log (f₀ - 1) s.log.length) ++ done.take kept := by
      rw [Disk.bytes_write (h.named _ he).2.2, hb, hsize, List.take_length_add_append]
    refine ⟨done.take kept, hbytes, (tail_writing rfl).mpr ⟨rfl, ?_, ?_⟩⟩
    · rw [hbytes, List.length_append, hsize]
    · rw [← List.append_assoc, List.take_append_drop]
      exact ht.2.2

end Works

theorem mem_number_iff {seq : Nat} {ps : List Bytes} {r : Record} :
    r ∈ number seq ps ↔ seq ≤ r.1 ∧ ps[r.1 - seq]? = some r.2 := by
  induction ps generalizing seq with
  | nil => simp [number]
  | cons p ps ih =>
    rw [number, List.mem_cons, ih]
    constructor
    · rintro (rfl | ⟨hle, hp⟩)
      · simp
      · have he : r.1 - seq = r.1 - (seq + 1) + 1 := by omega
        exact ⟨by omega, by rw [he, List.getElem?_cons_succ]; exact hp⟩
    · rintro ⟨hle, hp⟩
      rcases Nat.eq_or_lt_of_le hle with rfl | hlt
      · rw [Nat.sub_self, List.getElem?_cons_zero, Option.some.injEq] at hp
        exact .inl (Prod.ext rfl hp.symm)
      · have he : r.1 - seq = r.1 - (seq + 1) + 1 := by omega
        rw [he, List.getElem?_cons_succ] at hp
        exact .inr ⟨hlt, hp⟩

theorem mem_span {ps : List Bytes} {a b : Nat} {r : Record} :
    r ∈ span ps a b ↔ r ∈ number 1 ps ∧ a < r.1 ∧ r.1 ≤ b := by
  rw [span, mem_number_iff, mem_number_iff, List.getElem?_drop, List.getElem?_take]
  constructor
  · rintro ⟨hle, hp⟩
    have he : a + (r.1 - (a + 1)) = r.1 - 1 := by omega
    rw [he] at hp
    split at hp
    · exact ⟨⟨by omega, hp⟩, hle, by omega⟩
    · exact absurd hp (by simp)
  · rintro ⟨⟨hone, hp⟩, hlt, hle⟩
    have he : a + (r.1 - (a + 1)) = r.1 - 1 := by omega
    rw [he, if_pos (by omega)]
    exact ⟨hlt, hp⟩

/-- The number that the first of some listed segments begins with, the newest of the directory among them. -/
def System.upto (s : System) : List (Nat × Nat) → Nat
  | [] => s.log.length + 1
  | e :: _ => e.1

private theorem parse_whole {rs : List Record} (h : ∀ r ∈ rs, Fits r) : parse (frames rs) = (rs, [], false) := by
  have hall : parse (frames rs ++ []) = (rs, [], false) := parse_frames h records.front_nil
  rwa [List.append_nil] at hall

section Content
variable {s : System} {live : Option Nat} {e : Nat × Nat} {l r : List (Nat × Nat)}

/-- A segment that is not the newest holds what lies between its name and the next. -/
theorem Works.content (h : Works s live) (hd : s.disk.dir = l ++ e :: r) (hr : r ≠ []) :
    (parse (s.disk.bytes e.2)).1 = span s.log (e.1 - 1) (s.upto r - 1) := by
  have he : e ∈ s.disk.dir := by rw [hd]; simp
  have hlive : live ≠ some e.2 := by
    intro hl
    obtain ⟨l', f, hl'⟩ := h.newest _ hl
    obtain ⟨r', b, rfl⟩ : ∃ r' b, r = r' ++ [b] := ⟨_, _, (List.dropLast_concat_getLast hr).symm⟩
    have hlast : (f, e.2) = b := by
      have := congrArg List.getLast? (hd.symm.trans hl')
      rw [← List.cons_append, ← List.append_assoc, List.getLast?_concat, List.getLast?_concat] at this
      exact (Option.some.inj this).symm
    have hpair := h.inodes
    rw [hd] at hpair
    have := (List.pairwise_cons.mp (List.pairwise_append.mp hpair).2.1).1 b (by simp)
    exact this (by rw [← hlast])
  have hlater : SpoolReader.later s.disk ⟨e.2, 0, e.1⟩ = r := later_listed h.sorted hd 0
  have hnext : next s.disk (s.view live) ⟨e.2, 0, e.1⟩ = s.upto r := by
    rw [next, hlater]
    cases r <;> rfl
  have hfits := (h.writable.mono (List.prefix_append s.log _)).of_span (e.1 - 1) (s.upto r - 1)
  rw [h.final e he hlive, hnext, parse_whole hfits]

/-- A segment holds what lies between its name and the next. -/
theorem Works.span_content (h : Works s live) (hd : s.disk.dir = l ++ e :: r) :
    ∀ rec ∈ span s.log (e.1 - 1) (s.upto r - 1), rec ∈ (parse (s.disk.bytes e.2)).1 := by
  by_cases hr : r = []
  · subst hr
    have he : e ∈ s.disk.dir := by rw [hd]; simp
    have hfits := (h.writable.mono (List.prefix_append s.log _)).of_span (e.1 - 1) s.log.length
    have hup : s.upto [] - 1 = s.log.length := rfl
    rw [hup]
    by_cases hl : live = some e.2
    · obtain ⟨done, hb, -⟩ := h.tail e.1 _ hl he
      have hparse : parse (frames (span s.log (e.1 - 1) s.log.length) ++ done) = _ :=
        Coding.parse_encodes hfits done
      rw [hb, hparse]
      exact fun rec hrec => List.mem_append_left _ hrec
    · have hlater : SpoolReader.later s.disk ⟨e.2, 0, e.1⟩ = [] := later_listed h.sorted hd 0
      have hnext : next s.disk (s.view live) ⟨e.2, 0, e.1⟩ - 1 = s.log.length := by
        rw [next, hlater]
        rfl
      rw [h.final e he hl, hnext, parse_whole hfits]
      exact fun rec hrec => hrec
  · rw [h.content hd hr]
    exact fun rec hrec => hrec

/-- What is in the log from a listed segment on is in the segments from there on. -/
theorem Works.found (h : Works s live) {rec : Record} (hrec : rec ∈ number 1 s.log) :
    ∀ l r, s.disk.dir = l ++ r → s.upto r ≤ rec.1 → ∃ e ∈ r, rec ∈ (parse (s.disk.bytes e.2)).1 := by
  intro l r
  induction r generalizing l with
  | nil =>
    intro hd hle
    obtain ⟨hone, hp⟩ := mem_number_iff.mp hrec
    have hlt := (List.getElem?_eq_some_iff.mp hp).1
    have hup : s.upto [] = s.log.length + 1 := rfl
    omega
  | cons e r ih =>
    intro hd hle
    by_cases hin : rec.1 ≤ s.upto r - 1
    · obtain ⟨hone, -⟩ := mem_number_iff.mp hrec
      have hpos := (h.named e (by rw [hd]; simp)).1
      have hup : s.upto (e :: r) = e.1 := rfl
      refine ⟨e, List.mem_cons_self, h.span_content hd rec (mem_span.mpr ⟨hrec, by omega, hin⟩)⟩
    · obtain ⟨e', he', hin'⟩ := ih (l ++ [e]) (by rw [hd, List.append_assoc]; rfl) (by omega)
      exact ⟨e', List.mem_cons_of_mem _ he', hin'⟩

end Content

/-- `prunable` lists the segments up to one that begins at or before what comes after the cursor. -/
theorem prunable_spec {dir : List (Nat × Nat)} (hs : dir.Pairwise fun a b => a.1 < b.1) (cursor : Nat) :
    ∃ gone rest, dir = gone ++ rest ∧ prunable dir cursor = gone.map Prod.fst ∧
      (gone ≠ [] → ∃ e r, rest = e :: r ∧ e.1 ≤ cursor + 1) := by
  induction dir with
  | nil => exact ⟨[], [], rfl, rfl, fun h => absurd rfl h⟩
  | cons a dir ih =>
    cases dir with
    | nil => exact ⟨[], [a], rfl, rfl, fun h => absurd rfl h⟩
    | cons b dir =>
      obtain ⟨gone, rest, hd, hp, hrest⟩ := ih (List.pairwise_cons.mp hs).2
      by_cases hb : b.1 ≤ cursor + 1
      · refine ⟨a :: gone, rest, by rw [hd]; rfl, by rw [prunable, if_pos hb, hp]; rfl, fun _ => ?_⟩
        cases gone with
        | nil => exact ⟨b, dir, hd.symm, hb⟩
        | cons g gone => exact hrest (by simp)
      · cases gone with
        | nil =>
          exact ⟨[], a :: rest, by rw [hd, List.nil_append, List.nil_append], by rw [prunable, if_neg hb, hp],
            fun h => absurd rfl h⟩
        | cons g gone =>
          obtain ⟨e, r, rfl, he⟩ := hrest (by simp)
          have hsorted := (List.pairwise_cons.mp hs).2
          have hlt : b.1 < e.1 := by
            rw [hd] at hsorted
            obtain rfl : b = g := (List.cons.inj hd).1
            exact (List.pairwise_cons.mp hsorted).1 e (by simp)
          omega

/-- Of the operations, three look at the directory. -/
def WriterOp.lists : WriterOp → Bool
  | .start _ | .openSegment | .refreshUsage => true
  | _ => false

/-- The others do the same with segments before the first, and leave the listing as it is. -/
theorem step_behind (d : Disk) (wr : Writer) (h : op.lists = false) (removed : List (Nat × Nat)) :
    wr.step (d.behind removed) op = ((wr.step d op).1.behind removed, (wr.step d op).2) ∧
      (wr.step d op).1.dir = d.dir := by
  cases op with
  | start _ | openSegment | refreshUsage => exact absurd h (by simp [WriterOp.lists])
  | append group =>
    cases wr with
    | idle w =>
      simp only [Writer.step]
      split
      · exact ⟨rfl, rfl⟩
      · split <;> exact ⟨rfl, rfl⟩
    | _ => exact ⟨rfl, rfl⟩
  | sync =>
    cases wr with
    | writing w group view => cases view <;> exact ⟨rfl, rfl⟩
    | _ => exact ⟨rfl, rfl⟩
  | write n | fail => cases wr <;> exact ⟨rfl, rfl⟩
  | crash => exact ⟨rfl, rfl⟩

namespace Keeper
variable {s : Keeper} {live : Option Nat}

/-- The spool as it would be had nothing been pruned. -/
def full (s : Keeper) : System :=
  { disk := s.spool.disk.behind s.removed, writer := s.spool.writer, log := s.spool.log }

theorem account_full (s : Keeper) (op : WriterOp) : (s.full.account op).1 = (s.spool.account op).1 := by
  obtain ⟨⟨disk, writer, reader, log, owed, returned⟩, db, cursor, staged, prune, removed⟩ := s
  cases writer with
  | writing w group view =>
    cases op with
    | sync => cases view <;> rfl
    | _ => rfl
  | _ => rfl

theorem full_write (h : Works s.full live) (hl : op.lists = false) (hg : op.Sized) :
    ∃ live', Works (s.write op).full live' := by
  obtain ⟨live', hw⟩ := h.writer rfl rfl rfl hg
  refine ⟨live', ?_⟩
  have he : (s.write op).full = { s.full.step (.writer op) with owed := [], reader := { after := 0 }, returned := [] } := by
    simp only [Keeper.full, Keeper.write, System.step]
    rw [← account_full]
    simp only [full, (step_behind _ _ hl _).1]
  rw [he]
  exact hw.forget

end Keeper

/-- A start goes by the newest segment. -/
theorem recover_behind {d : Disk} {removed : List (Nat × Nat)}
    (hs : (removed ++ d.dir).Pairwise fun a b => a.1 < b.1) (hd : d.dir ≠ []) :
    recover (d.behind removed) = ((recover d).1.behind removed, (recover d).2) := by
  obtain ⟨init, e, he⟩ : ∃ init e, d.dir = init ++ [e] := ⟨_, _, (List.dropLast_concat_getLast hd).symm⟩
  have hlast : (d.behind removed).dir.getLast? = some e := by
    show (removed ++ d.dir).getLast? = some e
    rw [he, ← List.append_assoc, List.getLast?_concat]
  have hlast' : d.dir.getLast? = some e := by rw [he, List.getLast?_concat]
  have hne : removed.filter (fun a => decide (a.1 ≠ e.1)) = removed := by
    refine List.filter_eq_self.mpr fun a ha => ?_
    have := (List.pairwise_append.mp hs).2.2 a ha e (by rw [he]; simp)
    simp only [ne_eq, decide_eq_true_eq]
    omega
  have hunlink (d' : Disk) : (d'.behind removed).unlink e.1 = (d'.unlink e.1).behind removed := by
    show Disk.mk _ ((removed ++ d'.dir).filter _) = Disk.mk _ (removed ++ d'.dir.filter _)
    rw [List.filter_append, hne]
    rfl
  unfold recover
  rw [hlast, hlast']
  simp only
  have hbytes : (d.behind removed).bytes e.2 = d.bytes e.2 := rfl
  rw [hbytes]
  cases (parse (d.bytes e.2)).1.getLast? with
  | some r => rfl
  | none =>
    exact Prod.ext (hunlink (d.write e.2 ((d.bytes e.2).take
      ((d.bytes e.2).length - (parse (d.bytes e.2)).2.1.length)))) rfl

/-- A start takes away nothing but a newest segment without records, whose name it then goes on with. -/
theorem recover_dir {d : Disk} (hs : d.dir.Pairwise fun a b => a.1 < b.1) : (recover d).1.dir = d.dir ∨
    ∃ init e, d.dir = init ++ [e] ∧ (recover d).1.dir = init ∧ (recover d).2.1 = e.1 ∧
      (parse (d.bytes e.2)).1 = [] := by
  unfold recover
  cases hlast : d.dir.getLast? with
  | none => exact .inl rfl
  | some e =>
    simp only
    obtain ⟨init, he⟩ := List.getLast?_eq_some_iff.mp hlast
    cases hrec : (parse (d.bytes e.2)).1.getLast? with
    | some r => exact .inl rfl
    | none =>
      refine .inr ⟨init, e, he, ?_, rfl, List.getLast?_eq_none_iff.mp hrec⟩
      show d.dir.filter (fun a => decide (a.1 ≠ e.1)) = init
      rw [he, List.filter_append, List.filter_eq_self.mpr, List.filter_eq_nil_iff.mpr, List.append_nil]
      · simp
      · intro a ha
        have := (List.pairwise_append.mp (he ▸ hs)).2.2 a ha e (by simp)
        simp only [ne_eq, decide_eq_true_eq]
        omega

namespace Keeper
variable {s : Keeper} {live : Option Nat}

theorem full_start (h : Works s.full live) (hs : s.spool.writer = .down)
    (hd : s.spool.disk.dir = [] → s.removed = []) (maxBytes : Nat) :
    ∃ live', Works (s.write (.start maxBytes)).full live' := by
  obtain ⟨live', hw⟩ : ∃ live', Works (s.full.step (.writer (.start maxBytes))) live' :=
    h.writer rfl rfl rfl trivial
  refine ⟨live', ?_⟩
  have hrec : recover (s.spool.disk.behind s.removed) =
      ((recover s.spool.disk).1.behind s.removed, (recover s.spool.disk).2) := by
    by_cases hnil : s.spool.disk.dir = []
    · rw [hd hnil]
      rfl
    · exact recover_behind h.sorted hnil
  have he : (s.write (.start maxBytes)).full = { s.full.step (.writer (.start maxBytes)) with
      owed := [], reader := { after := 0 }, returned := [] } := by
    simp only [Keeper.full, Keeper.write, System.step, Writer.step, System.account, hs, hrec]
  rw [he]
  exact hw.forget

theorem full_open (h : Works s.full live) {w : SpoolWriter} {starting : Bool}
    (hs : s.spool.writer = .opening w starting) :
    (∃ live', Works (s.write .openSegment).full live') ∧ w.nextSeq = s.spool.log.length + 1 ∧
      ∃ i, (s.write .openSegment).spool.disk.dir = s.spool.disk.dir ++ [(w.nextSeq, i)] := by
  have hn := h.numbered
  have hs' : s.full.writer = .opening w starting := hs
  rw [hs'] at hn
  obtain ⟨-, hseq, hnames⟩ := hn
  have hnames' : ∀ e ∈ s.removed ++ s.spool.disk.dir, e.1 < w.nextSeq := fun e he => by
    have := hnames e he
    omega
  have hopen := openAppend_fresh (d := s.spool.disk) fun e he => hnames' e (List.mem_append_right _ he)
  have hopen' := openAppend_fresh (d := s.spool.disk.behind s.removed) hnames'
  obtain ⟨live', hw⟩ : ∃ live', Works (s.full.step (.writer .openSegment)) live' := h.writer rfl rfl rfl trivial
  refine ⟨⟨live', ?_⟩, hseq, s.spool.disk.files.length, ?_⟩
  · have hdisk : (s.full.step (.writer .openSegment)).disk = (s.write .openSegment).full.disk := by
      simp only [Keeper.full, Keeper.write, System.step, Writer.step, hs, hopen, hopen']
      simp only [Disk.behind, List.append_assoc]
    obtain ⟨w₁, w₂, h1, h2, hseq', hino, hsize⟩ : ∃ w₁ w₂,
        (s.full.step (.writer .openSegment)).writer = .idle w₁ ∧ (s.write .openSegment).full.writer = .idle w₂ ∧
        w₂.nextSeq = w₁.nextSeq ∧ w₂.ino = w₁.ino ∧ w₂.size = w₁.size := by
      simp only [Keeper.full, Keeper.write, System.step, Writer.step, hs, hopen, hopen']
      exact ⟨_, _, rfl, rfl, rfl, rfl, rfl⟩
    have he : (s.write .openSegment).full = { { s.full.step (.writer .openSegment) with
        owed := [], reader := { after := 0 }, returned := [] } with writer := .idle w₂ } := by
      have hlog : (s.full.step (.writer .openSegment)).log = (s.write .openSegment).full.log :=
        account_full s .openSegment
      rw [← h2]
      simp only [hdisk, hlog]
      rfl
    rw [he]
    exact hw.forget.used (w := w₁) h1 hseq' hino hsize
  · simp only [Keeper.write, System.step, Writer.step, hs, hopen]

theorem full_refresh (h : Works s.full live) : Works (s.write .refreshUsage).full live := by
  obtain ⟨⟨disk, writer, reader, log, owed, returned⟩, db, cursor, staged, prune, removed⟩ := s
  cases writer with
  | idle w => exact h.used (w := w) (v := { w with used := disk.usage }) rfl rfl rfl rfl
  | _ => exact h

/-- What an operation of the writer does to the directory. -/
inductive Lists (s : Keeper) (op : WriterOp) : Prop where
  | same (h : (s.write op).spool.disk.dir = s.spool.disk.dir)
  | opened (i : Nat) (h : (s.write op).spool.disk.dir = s.spool.disk.dir ++ [(s.spool.log.length + 1, i)])
  /-- a start takes away an empty segment -/
  | taken (init : List (Nat × Nat)) (e : Nat × Nat) (h : s.spool.disk.dir = init ++ [e])
      (h' : (s.write op).spool.disk.dir = init) (hlog : (s.write op).spool.log.length + 1 = e.1)
      (hw : ∃ w starting, (s.write op).spool.writer = .opening w starting)
      (hop : ∃ maxBytes, op = .start maxBytes) (hdown : s.spool.writer = .down)
      (hempty : (parse (s.spool.disk.bytes e.2)).1 = [])

theorem write_spec (h : Works s.full live) (hg : op.Sized)
    (hd : s.spool.writer = .down → s.spool.disk.dir = [] → s.removed = []) :
    (∃ live', Works (s.write op).full live') ∧ s.Lists op := by
  by_cases hl : op.lists = false
  · exact ⟨full_write h hl hg, .same (step_behind _ _ hl []).2⟩
  · cases op with
    | start maxBytes =>
      cases hs : s.spool.writer with
      | down =>
        obtain ⟨live', hw⟩ := full_start h hs (hd hs) maxBytes
        refine ⟨⟨live', hw⟩, ?_⟩
        have hsorted : s.spool.disk.dir.Pairwise fun a b => a.1 < b.1 :=
          (List.pairwise_append.mp h.sorted).2.1
        have hdir : (s.write (.start maxBytes)).spool.disk.dir = (recover s.spool.disk).1.dir := by
          simp only [Keeper.write, System.step, Writer.step, hs]
        have hwriter : (s.write (.start maxBytes)).full.writer = .opening
            { maxBytes, nextSeq := (recover s.spool.disk).2.1, torn := (recover s.spool.disk).2.2 } true := by
          simp only [Keeper.full, Keeper.write, System.step, Writer.step, hs]
        rcases recover_dir hsorted with hrec | ⟨init, e, he, hinit, hnext, hempty⟩
        · exact .same (hdir.trans hrec)
        · have hn := hw.numbered
          rw [hwriter] at hn
          refine .taken init e he (hdir.trans hinit) ?_ ⟨_, _, hwriter⟩ ⟨_, rfl⟩ hs hempty
          rw [← hnext]
          exact hn.2.1.symm
      | opening _ _ | idle _ | writing _ _ _ =>
        have he : (s.write (.start maxBytes)).full = s.full := by
          obtain ⟨⟨disk, writer, reader, log, owed, returned⟩, db, cursor, staged, prune, removed⟩ := s
          subst hs
          rfl
        exact ⟨⟨live, he ▸ h⟩, .same (by simp only [Keeper.write, System.step, Writer.step, hs])⟩
    | openSegment =>
      cases hs : s.spool.writer with
      | opening w starting =>
        obtain ⟨hw, hseq, i, hi⟩ := full_open h hs
        exact ⟨hw, .opened i (hseq ▸ hi)⟩
      | down | idle _ | writing _ _ _ =>
        have he : (s.write .openSegment).full = s.full := by
          obtain ⟨⟨disk, writer, reader, log, owed, returned⟩, db, cursor, staged, prune, removed⟩ := s
          subst hs
          rfl
        exact ⟨⟨live, he ▸ h⟩, .same (by simp only [Keeper.write, System.step, Writer.step, hs])⟩
    | refreshUsage =>
      refine ⟨⟨live, full_refresh h⟩, .same ?_⟩
      cases hs : s.spool.writer <;> simp only [Keeper.write, System.step, Writer.step, hs]
    | _ => exact absurd rfl hl

/-- The number that the directory begins with. -/
def lowest (s : Keeper) : Nat := s.full.upto s.spool.disk.dir

/-- The segments that are to be deleted come first, and what follows them begins at or before the record
after the cursor. -/
def Doomed (s : Keeper) (cursor : Nat) (doomed : List Nat) : Prop :=
  ∃ gone rest, s.spool.disk.dir = gone ++ rest ∧ doomed = gone.map Prod.fst ∧
    (gone ≠ [] → ∃ e r, rest = e :: r ∧ e.1 ≤ cursor + 1)

theorem Doomed.grow {s' : Keeper} {cursor : Nat} {doomed : List Nat} (h : s.Doomed cursor doomed)
    {more : List (Nat × Nat)} (hd : s'.spool.disk.dir = s.spool.disk.dir ++ more) : s'.Doomed cursor doomed := by
  obtain ⟨gone, rest, he, hdoomed, hrest⟩ := h
  refine ⟨gone, rest ++ more, by rw [hd, he, List.append_assoc], hdoomed, fun hne => ?_⟩
  obtain ⟨e, r, rfl, hle⟩ := hrest hne
  exact ⟨e, r ++ more, rfl, hle⟩

structure Inv (s : Keeper) : Prop where
  works : ∃ live, Works s.full live
  /-- a directory that has nothing left is about to get a segment -/
  emptied : s.spool.disk.dir = [] → s.removed ≠ [] → ∃ w starting, s.spool.writer = .opening w starting
  floor : s.removed ≠ [] → s.lowest ≤ s.cursor + 1 ∧ ∀ x, s.db.Returns x → s.lowest ≤ x + 1
  known : s.cursor ≤ s.db.stored
  staged : ∀ seq relaxed, s.staged = some (seq, relaxed) → s.cursor ≤ seq
  pruning : match s.prune with
    | .idle => True
    | .chosen cursor doomed => s.Doomed cursor doomed ∧ cursor ≤ s.cursor
    | .unlinking cursor doomed => s.Doomed cursor doomed ∧ cursor ≤ s.cursor ∧ ∀ x, s.db.Returns x → cursor ≤ x

/-- Only what the database and the feed know changes. -/
theorem Inv.spool (h : s.Inv) {t : Keeper} (hs : t.spool = s.spool) (hr : t.removed = s.removed) :
    (∃ live, Works t.full live) ∧
      (t.spool.disk.dir = [] → t.removed ≠ [] → ∃ w starting, t.spool.writer = .opening w starting) ∧
      t.lowest = s.lowest := by
  have hfull : t.full = s.full := by simp only [full, hs, hr]
  refine ⟨?_, ?_, ?_⟩
  · rw [hfull]
    exact h.works
  · rw [hs, hr]
    exact h.emptied
  · rw [lowest, lowest, hfull, hs]

end Keeper

namespace Database
variable {db : Database} {x n seq : Nat}

theorem returns_flush (h : (db.flush n).Returns x) : db.Returns x := by
  obtain ⟨k, hle, hlen, hx⟩ := h
  exact ⟨k, (le_max_left _ _).trans hle, hlen, hx⟩

theorem returns_stored (db : Database) : db.Returns db.stored := ⟨_, db.flushed_le, le_rfl, rfl⟩

/-- All commits are on disk. -/
theorem returns_all (h : (db.flush db.commits.length).Returns x) : x = db.stored := by
  obtain ⟨k, hle, hlen, hx⟩ := h
  have hk : db.commits.length ≤ k := by
    have : (db.flush db.commits.length).flushed = max db.flushed (min db.commits.length db.commits.length) := rfl
    omega
  obtain rfl : k = db.commits.length := le_antisymm hlen hk
  exact hx.symm

theorem after_push (hn : n ≤ db.commits.length) : (db.push seq).after n = db.after n := by
  rw [after, after, push, List.take_append_of_le_length hn]

theorem returns_commit {relaxed : Bool} (h : (db.commit seq relaxed).Returns x) : db.Returns x ∨ x = seq := by
  have hpush : (db.push seq).Returns x := by
    cases relaxed with
    | true => exact h
    | false => exact returns_flush h
  obtain ⟨k, hle, hlen, hx⟩ := hpush
  rw [push, List.length_append] at hlen
  rcases Nat.lt_or_ge db.commits.length k with hlt | hge
  · obtain rfl : k = db.commits.length + 1 := le_antisymm hlen hlt
    refine .inr ?_
    rw [← hx, after, push, List.take_of_length_le (by simp)]
    simp
  · exact .inl ⟨k, hle, hge, (after_push hge).symm.trans hx⟩

theorem stored_commit {relaxed : Bool} : (db.commit seq relaxed).stored = seq := by
  have hpush : (db.push seq).stored = seq := by
    rw [stored, after, List.take_length, push]
    simp
  cases relaxed with
  | true => exact hpush
  | false => exact hpush

theorem returns_crash (h : (db.crash n).Returns x) : db.Returns x := by
  unfold crash at h
  split at h
  · rename_i hn
    obtain ⟨k, hle, hlen, hx⟩ := h
    rw [List.length_take] at hlen
    obtain rfl : k = n := by
      have : n ≤ k := hle
      omega
    refine ⟨k, hn.1, hn.2, ?_⟩
    rw [← hx, after, after, List.take_take, Nat.min_self]
  · exact h

end Database
namespace Keeper
variable {s : Keeper}

/-- No start finds an empty newest segment while a prune is under way, no process ends that has taken the
only segment away and not opened it again, and the database comes back with the cursor that the feed
knows of, unless the feed starts again with it. -/
def Keeps (s : Keeper) : KeeperOp → Prop
  | .writer (.start _) => s.spool.writer = .down → s.prune = .idle ∨
      ∀ e ∈ s.spool.disk.dir.getLast?, (parse (s.spool.disk.bytes e.2)).1 ≠ []
  | .writer .crash | .power_cut _ _ _ => s.spool.disk.dir = [] → s.removed = []
  | .database_crash n => s.cursor ≤ (s.db.crash n).stored
  | _ => True

instance (s : Keeper) (op : KeeperOp) : Decidable (s.Keeps op) := by
  unfold Keeps
  split <;> infer_instance

theorem Inv.write (h : s.Inv) (hg : op.Sized) (hk : s.Keeps (.writer op)) : (s.write op).Inv := by
  obtain ⟨live, hw⟩ := h.works
  have hdown : s.spool.writer = .down → s.spool.disk.dir = [] → s.removed = [] := by
    intro hd hnil
    by_contra hne
    obtain ⟨w, starting, ho⟩ := h.emptied hnil hne
    rw [hd] at ho
    cases ho
  have hopening : ∀ w starting, s.spool.writer = .opening w starting →
      (s.write op).spool.log = s.spool.log := fun w starting hs => by
    simp only [Keeper.write, System.step, System.account, hs]
  obtain ⟨hworks, hlists⟩ := write_spec hw hg hdown
  have hlowest : s.removed ≠ [] → (s.write op).lowest = s.lowest := by
    intro hne
    cases hlists with
    | same hd =>
      rw [lowest, lowest, hd]
      cases hdir : s.spool.disk.dir with
      | nil =>
        obtain ⟨w, starting, ho⟩ := h.emptied hdir hne
        show (s.write op).spool.log.length + 1 = s.spool.log.length + 1
        rw [hopening w starting ho]
      | cons e r => rfl
    | opened i hd =>
      rw [lowest, lowest, hd]
      cases s.spool.disk.dir <;> rfl
    | taken init e hd hd' hlog =>
      rw [lowest, lowest, hd, hd']
      cases init with
      | nil => exact hlog
      | cons a init => rfl
  have hdoomed : ∀ cursor doomed, s.prune ≠ .idle → s.Doomed cursor doomed →
      (s.write op).Doomed cursor doomed := by
    intro cursor doomed hp hd
    cases hlists with
    | same hdir => exact hd.grow (hdir.trans (List.append_nil _).symm)
    | opened i hdir => exact hd.grow hdir
    | taken init e hdir _ _ _ hop hs hempty =>
      obtain ⟨maxBytes, rfl⟩ := hop
      rcases hk hs with hidle | hfull
      · exact absurd hidle hp
      · exact absurd hempty (hfull e (by rw [hdir, List.getLast?_concat]; rfl))
  refine ⟨hworks, fun hnil hne => ?_, fun hne => ?_, h.known, h.staged, ?_⟩
  · cases hlists with
    | same hd =>
      rw [hd] at hnil
      obtain ⟨w, starting, ho⟩ := h.emptied hnil hne
      cases op with
      | crash => exact absurd (hk hnil) hne
      | openSegment =>
        obtain ⟨-, -, i, hi⟩ := full_open hw ho
        rw [hd, hnil] at hi
        exact absurd hi (by simp)
      | _ => exact ⟨w, starting, by simp only [Keeper.write, System.step, Writer.step, ho]⟩
    | opened i hd =>
      rw [hd] at hnil
      exact absurd hnil (by simp)
    | taken _ _ _ _ _ ho => exact ho
  · rw [hlowest hne]
    exact h.floor hne
  · have hp := h.pruning
    show match s.prune with | .idle => _ | .chosen _ _ => _ | .unlinking _ _ => _
    cases hs : s.prune with
    | idle => trivial
    | chosen cursor doomed =>
      rw [hs] at hp
      exact ⟨hdoomed _ _ (by simp [hs]) hp.1, hp.2⟩
    | unlinking cursor doomed =>
      rw [hs] at hp
      exact ⟨hdoomed _ _ (by simp [hs]) hp.1, hp.2⟩

theorem Inv.resume (h : s.Inv) {db : Database} (hr : ∀ x, db.Returns x → s.db.Returns x) :
    ({ s with db := db }.resume).Inv := by
  obtain ⟨hworks, hemptied, hlowest⟩ := h.spool (t := { s with db := db }.resume) rfl rfl
  refine ⟨hworks, hemptied, fun hne => ?_, le_rfl, by simp [Keeper.resume], trivial⟩
  rw [hlowest]
  exact ⟨(h.floor hne).2 _ (hr _ db.returns_stored), fun x hx => (h.floor hne).2 x (hr x hx)⟩

/-- Where the newest file would stand had the power gone before the last bytes came. -/
theorem Inv.survive (h : s.Inv) (hp : s.prune = .idle) (kept unlinked : Nat) : ∃ s' : Keeper, s'.Inv ∧
    s'.write .crash = (s.survive kept unlinked).write .crash ∧
    s'.spool.disk.dir = s.removed.drop unlinked ++ s.spool.disk.dir ∧ s'.removed = s.removed.take unlinked := by
  obtain ⟨live, hw⟩ := h.works
  have hdir : (s.survive kept unlinked).spool.disk.dir = s.removed.drop unlinked ++ s.spool.disk.dir := by
    simp only [Keeper.survive, Writer.cut]
    split <;> rfl
  have hlisting : s.removed.take unlinked ++ (s.removed.drop unlinked ++ s.spool.disk.dir) =
      s.removed ++ s.spool.disk.dir := by rw [← List.append_assoc, List.take_append_drop]
  have hremoved : s.removed.take unlinked ≠ [] → s.removed ≠ [] := fun hne he => hne (by rw [he, List.take_nil])
  have hlowest : s.full.upto (s.removed.drop unlinked ++ s.spool.disk.dir) ≤ s.lowest := by
    cases hd : s.removed.drop unlinked with
    | nil => exact le_rfl
    | cons e r =>
      have he : e ∈ s.removed := List.mem_of_mem_drop (hd ▸ List.mem_cons_self)
      show e.1 ≤ s.full.upto s.spool.disk.dir
      cases hdir : s.spool.disk.dir with
      | nil => exact (hw.named e (List.mem_append_left _ he)).2.1
      | cons a l => exact ((List.pairwise_append.mp hw.sorted).2.2 e he a (by rw [hdir]; simp)).le
  cases hs : s.spool.writer with
  | writing w group view =>
    obtain ⟨view', hcut⟩ := hw.truncate hs kept
    let s' : Keeper := { s.survive kept unlinked with
      spool := { (s.survive kept unlinked).spool with writer := .writing w group view' } }
    have hdisk : (s.survive kept unlinked).spool.disk = { s.spool.disk.write w.ino
        ((s.spool.disk.bytes w.ino).take (w.size + kept)) with
        dir := s.removed.drop unlinked ++ s.spool.disk.dir } := by
      simp only [Keeper.survive, Writer.cut, hs, Disk.write_dir]
    have hfull : s'.full = { s.full with
        disk := s.full.disk.write w.ino ((s.full.disk.bytes w.ino).take (w.size + kept))
        writer := .writing w group view' } := by
      show System.mk ((s.survive kept unlinked).spool.disk.behind _) _ _ _ _ _ = _
      rw [hdisk]
      show System.mk (Disk.mk _ (s.removed.take unlinked ++ _)) _ _ _ _ _ = _
      rw [hlisting]
      rfl
    refine ⟨s', ⟨⟨live, hfull ▸ hcut⟩, fun hnil hne => ?_, fun hne => ?_, h.known, h.staged, ?_⟩, ?_, hdir, rfl⟩
    · have hnil' := List.append_eq_nil_iff.mp (hdir.symm.trans hnil)
      obtain ⟨w', starting, ho⟩ := h.emptied hnil'.2 (hremoved hne)
      rw [hs] at ho
      cases ho
    · have hle : s'.lowest ≤ s.lowest := by
        rw [lowest, hfull]
        show System.upto _ (s.survive kept unlinked).spool.disk.dir ≤ _
        rw [hdir]
        exact hlowest
      obtain ⟨h1, h2⟩ := h.floor (hremoved hne)
      exact ⟨hle.trans h1, fun x hx => hle.trans (h2 x hx)⟩
    · show match s.prune with | .idle => _ | .chosen _ _ => _ | .unlinking _ _ => _
      rw [hp]
      trivial
    · have hwriter : (s.survive kept unlinked).spool.writer = .writing w group view := hs
      simp only [Keeper.write, System.step, Writer.step, System.account, System.whole, hwriter, s']
  | down | opening _ _ | idle _ =>
    have hdisk : (s.survive kept unlinked).spool.disk = { s.spool.disk with
        dir := s.removed.drop unlinked ++ s.spool.disk.dir } := by
      simp only [Keeper.survive, Writer.cut, hs]
    have hfull : (s.survive kept unlinked).full = s.full := by
      show System.mk ((s.survive kept unlinked).spool.disk.behind _) _ _ _ _ _ = _
      rw [hdisk]
      show System.mk (Disk.mk _ (s.removed.take unlinked ++ _)) _ _ _ _ _ = _
      rw [hlisting]
      rfl
    refine ⟨s.survive kept unlinked, ⟨⟨live, hfull ▸ hw⟩, fun hnil hne => ?_, fun hne => ?_, h.known, h.staged, ?_⟩,
      rfl, hdir, rfl⟩
    · have hnil' := List.append_eq_nil_iff.mp (hdir.symm.trans hnil)
      exact h.emptied hnil'.2 (hremoved hne)
    · have hle : (s.survive kept unlinked).lowest ≤ s.lowest := by
        rw [lowest, hfull, hdir]
        exact hlowest
      obtain ⟨h1, h2⟩ := h.floor (hremoved hne)
      exact ⟨hle.trans h1, fun x hx => hle.trans (h2 x hx)⟩
    · show match s.prune with | .idle => _ | .chosen _ _ => _ | .unlinking _ _ => _
      rw [hp]
      trivial

/-- The oldest segment goes, and what follows it was there. -/
theorem Inv.unlink (h : s.Inv) {cursor first : Nat} {doomed : List Nat}
    (hp : s.prune = .unlinking cursor (first :: doomed)) : (s.step .unlink).Inv := by
  obtain ⟨live, hw⟩ := h.works
  have hpruning := h.pruning
  rw [hp] at hpruning
  obtain ⟨⟨gone, rest, hd, hdoomed, hrest⟩, hcursor, hdurable⟩ := hpruning
  obtain ⟨g, gone, rfl, rfl, rfl⟩ : ∃ g gone', gone = g :: gone' ∧ g.1 = first ∧ gone'.map Prod.fst = doomed := by
    cases gone with
    | nil => exact absurd hdoomed (by simp)
    | cons g gone' =>
      obtain ⟨h1, h2⟩ := List.cons.inj hdoomed
      exact ⟨g, gone', rfl, h1.symm, h2.symm⟩
  obtain ⟨e, r, rfl, hle⟩ := hrest (by simp)
  have hsorted : (g :: (gone ++ e :: r)).Pairwise fun a b => a.1 < b.1 :=
    List.cons_append ▸ hd ▸ (List.pairwise_append.mp hw.sorted).2.1
  obtain ⟨hfirst, hothers⟩ := List.pairwise_cons.mp hsorted
  have hkeep : s.spool.disk.dir.filter (fun a => decide (a.1 ≠ g.1)) = gone ++ e :: r := by
    rw [hd, List.cons_append, List.filter_cons_of_neg (by simp), List.filter_eq_self.mpr]
    intro a ha
    have := hfirst a ha
    simp only [ne_eq, decide_eq_true_eq]
    omega
  have htake : s.spool.disk.dir.filter (fun a => decide (a.1 = g.1)) = [g] := by
    rw [hd, List.cons_append, List.filter_cons_of_pos (by simp), List.filter_eq_nil_iff.mpr]
    intro a ha
    have := hfirst a ha
    simp only [decide_eq_true_eq]
    omega
  have hstep : s.step .unlink = { s with
      spool := { s.spool with disk := { s.spool.disk with dir := gone ++ e :: r } }
      prune := .unlinking cursor (gone.map Prod.fst), removed := s.removed ++ [g] } := by
    simp only [Keeper.step, hp, Disk.unlink, htake, hkeep]
  have hfull : (s.step .unlink).full = s.full := by
    rw [hstep]
    show System.mk (Disk.mk _ (s.removed ++ [g] ++ (gone ++ e :: r))) _ _ _ _ _ =
      System.mk (Disk.mk _ (s.removed ++ s.spool.disk.dir)) _ _ _ _ _
    rw [hd, List.append_assoc]
    rfl
  have hlow : (s.step .unlink).lowest ≤ cursor + 1 := by
    rw [lowest, hfull, hstep]
    refine le_trans ?_ hle
    cases gone with
    | nil => exact le_rfl
    | cons a gone => exact ((List.pairwise_cons.mp hothers).1 e (by simp)).le
  refine ⟨⟨live, hfull ▸ hw⟩, fun hnil => ?_, fun _ => ?_, ?_, ?_, ?_⟩
  · rw [hstep] at hnil
    exact absurd hnil (by simp)
  · have hdb : (s.step .unlink).db = s.db := by rw [hstep]
    have hc : (s.step .unlink).cursor = s.cursor := by rw [hstep]
    rw [hdb, hc]
    refine ⟨by omega, fun x hx => ?_⟩
    have := hdurable x hx
    omega
  · rw [hstep]
    exact h.known
  · rw [hstep]
    exact h.staged
  · rw [hstep]
    exact ⟨⟨gone, e :: r, rfl, rfl, fun _ => ⟨e, r, rfl, hle⟩⟩, hcursor, hdurable⟩

theorem Inv.commit (h : s.Inv) {seq : Nat} {relaxed heard : Bool} (hs : s.staged = some (seq, relaxed)) :
    (s.step (.commit heard)).Inv := by
  have hle := h.staged seq relaxed hs
  have hstep : s.step (.commit heard) = { s with
      db := s.db.commit seq relaxed, staged := none
      cursor := if heard then max s.cursor seq else s.cursor } := by
    simp only [Keeper.step, hs]
  obtain ⟨hworks, hemptied, hlowest⟩ := h.spool (t := s.step (.commit heard)) (by rw [hstep]) (by rw [hstep])
  have hcursor : s.cursor ≤ (s.step (.commit heard)).cursor ∧ (s.step (.commit heard)).cursor ≤ seq := by
    rw [hstep]
    cases heard
    · exact ⟨le_rfl, hle⟩
    · exact ⟨le_max_left _ _, max_le hle le_rfl⟩
  have hreturns : ∀ x, (s.step (.commit heard)).db.Returns x → s.db.Returns x ∨ x = seq := by
    rw [hstep]
    exact fun x hx => Database.returns_commit hx
  refine ⟨hworks, hemptied, fun hne => ?_, ?_, ?_, ?_⟩
  · rw [hlowest]
    have hne' : s.removed ≠ [] := by rwa [hstep] at hne
    obtain ⟨h1, h2⟩ := h.floor hne'
    refine ⟨by omega, fun x hx => ?_⟩
    rcases hreturns x hx with hx | rfl
    · exact h2 x hx
    · omega
  · have hstored : (s.step (.commit heard)).db.stored = seq := by
      rw [hstep]
      exact Database.stored_commit
    rw [hstored]
    exact hcursor.2
  · rw [hstep]
    simp
  · have hp := h.pruning
    rw [hstep] at hcursor hreturns ⊢
    show match s.prune with | .idle => _ | .chosen _ _ => _ | .unlinking _ _ => _
    cases hpr : s.prune with
    | idle => trivial
    | chosen cursor doomed =>
      rw [hpr] at hp
      exact ⟨hp.1, hp.2.trans hcursor.1⟩
    | unlinking cursor doomed =>
      rw [hpr] at hp
      refine ⟨hp.1, hp.2.1.trans hcursor.1, fun x hx => ?_⟩
      rcases hreturns x hx with hx | rfl
      · exact hp.2.2 x hx
      · exact hp.2.1.trans hle

/-- The commits that the feed knows of are the ones that can come back. -/
theorem Inv.database (h : s.Inv) {db : Database} (hr : ∀ x, db.Returns x → s.db.Returns x)
    (hk : s.cursor ≤ db.stored) {staged : Option (Nat × Bool)} (hs : staged = s.staged ∨ staged = none) :
    Inv { s with db := db, staged := staged } := by
  obtain ⟨hworks, hemptied, hlowest⟩ := h.spool (t := { s with db := db, staged := staged }) rfl rfl
  refine ⟨hworks, hemptied, fun hne => ?_, hk, fun seq relaxed he => ?_, ?_⟩
  · rw [hlowest]
    exact ⟨(h.floor hne).1, fun x hx => (h.floor hne).2 x (hr x hx)⟩
  · rcases hs with rfl | rfl
    · exact h.staged seq relaxed he
    · exact absurd he (by simp)
  · have hp := h.pruning
    show match s.prune with | .idle => _ | .chosen _ _ => _ | .unlinking _ _ => _
    cases hpr : s.prune with
    | idle => trivial
    | chosen cursor doomed =>
      rw [hpr] at hp
      exact hp
    | unlinking cursor doomed =>
      rw [hpr] at hp
      exact ⟨hp.1, hp.2.1, fun x hx => hp.2.2 x (hr x hx)⟩

theorem Inv.step (h : s.Inv) {op : KeeperOp} (hk : s.Keeps op) : (s.step op).Inv := by
  cases op with
  | writer op =>
    simp only [Keeper.step]
    split
    · rename_i hg
      exact h.write hg hk
    · exact h
  | stage seq relaxed =>
    simp only [Keeper.step]
    split
    · rename_i hs
      obtain ⟨hworks, hemptied, hlowest⟩ := h.spool (t := { s with staged := some (seq, relaxed) }) rfl rfl
      refine ⟨hworks, hemptied, fun hne => ?_, h.known, fun seq' relaxed' he => ?_, h.pruning⟩
      · rw [hlowest]
        exact h.floor hne
      · cases he
        exact hs.2
    · exact h
  | commit heard =>
    cases hs : s.staged with
    | none =>
      simp only [Keeper.step, hs]
      exact h
    | some p => exact h.commit hs
  | rollback => exact h.database (fun _ hx => hx) h.known (.inr rfl)
  | flush n => exact h.database (fun _ hx => Database.returns_flush hx) h.known (.inl rfl)
  | choose =>
    simp only [Keeper.step]
    split
    · obtain ⟨live, hw⟩ := h.works
      refine ⟨h.works, h.emptied, h.floor, h.known, h.staged, ?_, le_rfl⟩
      exact prunable_spec (List.pairwise_append.mp hw.sorted).2.1 s.cursor
    · exact h
  | checkpoint =>
    simp only [Keeper.step]
    split
    · rename_i cursor doomed hp
      have hpruning := h.pruning
      rw [hp] at hpruning
      split
      · exact ⟨h.works, h.emptied, h.floor, h.known, h.staged, trivial⟩
      · refine ⟨h.works, h.emptied, fun hne => ⟨(h.floor hne).1, fun x hx => ?_⟩, h.known, h.staged,
          hpruning.1, hpruning.2, fun x hx => ?_⟩
        · exact (h.floor hne).2 x (Database.returns_flush hx)
        · rw [Database.returns_all hx]
          exact hpruning.2.trans h.known
    · exact h
  | abandon => exact ⟨h.works, h.emptied, h.floor, h.known, h.staged, trivial⟩
  | unlink =>
    cases hp : s.prune with
    | unlinking cursor doomed =>
      cases doomed with
      | cons first doomed => exact h.unlink hp
      | nil =>
        simp only [Keeper.step, hp]
        exact ⟨h.works, h.emptied, h.floor, h.known, h.staged, trivial⟩
    | idle | chosen _ _ =>
      simp only [Keeper.step, hp]
      exact h
  | database_crash n => exact h.database (fun _ hx => Database.returns_crash hx) hk (.inr rfl)
  | restart => exact h.resume fun _ hx => hx
  | power_cut n kept unlinked =>
    have hr : ({ s with db := s.db.crash n }.resume).Inv := h.resume fun _ hx => Database.returns_crash hx
    obtain ⟨s', hs', he, hdir, hremoved⟩ := hr.survive rfl kept unlinked
    show Inv (Keeper.write _ _)
    rw [← he]
    refine hs'.write trivial fun hnil => ?_
    rw [hdir] at hnil
    have hnone : s.removed = [] := hk (List.append_eq_nil_iff.mp hnil).2
    rw [hremoved, Keeper.resume, hnone, List.take_nil]

theorem Inv.init : Inv {} := by
  refine ⟨⟨none, ?_⟩, by simp, by simp, le_rfl, by simp, trivial⟩
  obtain ⟨⟨live, hw, hr⟩, -⟩ := Sound.init
  refine ⟨?_, ?_, ?_, ?_, ?_, ?_, ?_, ?_, ?_, ?_, ?_⟩
  any_goals simp [full, Disk.behind]
  exact fun r hr => absurd hr (by simp [System.pending, number])

end Keeper
end NetCoreNoc.Spool
