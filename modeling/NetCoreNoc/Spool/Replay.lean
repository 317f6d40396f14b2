import Mathlib
import NetCoreNoc.Spool.Prune

/-! What a reader that starts from a cursor finds in a pruned spool: the records after the cursor, as it
would had nothing been pruned. -/
namespace NetCoreNoc.Spool
open Runs Parsing

section Behind
variable {d : Disk} {removed rest : List (Nat × Nat)} {e₀ : Nat × Nat} {r r' : SpoolReader}

/-- A reader that wants nothing before the first segment that is left. -/
def SpoolReader.Past (first : Nat) (r : SpoolReader) : Prop :=
  first ≤ r.after + 1 ∧ ∀ h, r.file = some h → first ≤ h.first

/-- It opens the segment it would open with others before it. -/
theorem openFile_behind (hd : d.dir = e₀ :: rest) {want : Nat} (hw : e₀.1 ≤ want) :
    r.openFile (d.behind removed) want = r.openFile d want := by
  have hin : e₀ ∈ d.dir.filter (·.1 ≤ want) := by
    rw [hd]
    exact List.mem_filter.mpr ⟨List.mem_cons_self, by simpa using hw⟩
  have hne : d.dir.filter (·.1 ≤ want) ≠ [] := List.ne_nil_of_mem hin
  have hall : (removed ++ d.dir).filter (·.1 ≤ want) =
      removed.filter (·.1 ≤ want) ++ d.dir.filter (·.1 ≤ want) := List.filter_append _ _
  have hlast (oldest : Nat × Nat) : (removed.filter (·.1 ≤ want) ++ d.dir.filter (·.1 ≤ want)).getLastD oldest =
      (d.dir.filter (·.1 ≤ want)).getLastD e₀ := by
    rw [List.getLastD_eq_getLast?, List.getLastD_eq_getLast?, List.getLast?_append_of_ne_nil _ hne,
      List.getLast?_eq_some_getLast hne]
    rfl
  obtain ⟨a, l, ha⟩ : ∃ a l, removed ++ d.dir = a :: l := by
    cases removed with
    | nil => exact ⟨e₀, rest, hd⟩
    | cons a removed => exact ⟨a, _, rfl⟩
  have hempty : (removed.filter (·.1 ≤ want) ++ d.dir.filter (·.1 ≤ want)).isEmpty = false := by
    simpa using fun _ => hne
  have hempty' : (d.dir.filter (·.1 ≤ want)).isEmpty = false := by simpa using hne
  have hbehind : (d.behind removed).dir = removed ++ d.dir := rfl
  unfold SpoolReader.openFile
  rw [hd, hbehind, ha]
  simp only [← ha, ← hd, hall, hlast, hempty, hempty']

theorem openFile_first (hs : d.dir.Pairwise fun a b => a.1 < b.1) (hd : d.dir = e₀ :: rest) {want : Nat}
    (h : r.openFile d want = some r') : r'.after = r.after ∧ ∀ h, r'.file = some h → e₀.1 ≤ h.first := by
  unfold SpoolReader.openFile at h
  rw [hd] at h
  cases h
  refine ⟨rfl, fun h hh => ?_⟩
  cases hh
  show e₀.1 ≤ (((e₀ :: rest).filter (·.1 ≤ want)).getLastD e₀).1
  obtain ⟨hfirst, -⟩ := List.pairwise_cons.mp (hd ▸ hs)
  rw [List.getLastD_eq_getLast?]
  cases hl : ((e₀ :: rest).filter (·.1 ≤ want)).getLast? with
  | none => exact le_rfl
  | some e =>
    rcases List.mem_cons.mp (List.mem_of_mem_filter (List.mem_of_getLast? hl)) with rfl | he
    · exact le_rfl
    · exact (hfirst e he).le

theorem later_behind (hr : ∀ a ∈ removed, a.1 < e₀.1) {h : Handle} (hh : e₀.1 ≤ h.first) :
    SpoolReader.later (d.behind removed) h = SpoolReader.later d h := by
  have hall : (removed ++ d.dir).filter (h.first ≤ ·.1) = d.dir.filter (h.first ≤ ·.1) := by
    rw [List.filter_append, List.filter_eq_nil_iff.mpr, List.nil_append]
    intro a ha
    have := hr a ha
    simp only [decide_eq_true_eq]
    omega
  show ((((removed ++ d.dir).filter (h.first ≤ ·.1))).filter _) = _
  simp only [SpoolReader.later, Disk.behind, hall]

theorem accept_after (r : SpoolReader) (rs : List Record) : r.after ≤ (r.accept rs).after := by
  induction rs generalizing r with
  | nil => exact le_rfl
  | cons q rs ih =>
    have hcons : r.accept (q :: rs) =
        (if q.1 > r.after then { r with out := r.out ++ [q], after := q.1 } else r).accept rs := rfl
    rw [hcons]
    refine le_trans ?_ (ih _)
    split
    · rename_i h
      exact h.le
    · exact le_rfl

theorem accept_file (r : SpoolReader) (rs : List Record) : (r.accept rs).file = r.file := by
  obtain ⟨out, after, h⟩ := accept_eq r rs
  rw [h]

/-- What is next in the listing is not before the first segment. -/
theorem later_first (hs : d.dir.Pairwise fun a b => a.1 < b.1) (hd : d.dir = e₀ :: rest) {h : Handle}
    {e : Nat × Nat} {l : List (Nat × Nat)} (hl : SpoolReader.later d h = e :: l) : e₀.1 ≤ e.1 := by
  obtain ⟨l', hl'⟩ := later_suffix hs h
  rw [hl, hd] at hl'
  have he : e ∈ e₀ :: rest := hl' ▸ (by simp)
  obtain ⟨hfirst, -⟩ := List.pairwise_cons.mp (hd ▸ hs)
  rcases List.mem_cons.mp he with rfl | he
  · exact le_rfl
  · exact (hfirst e he).le

theorem finished_behind (hs : d.dir.Pairwise fun a b => a.1 < b.1) (hr : ∀ a ∈ removed, a.1 < e₀.1)
    (hd : d.dir = e₀ :: rest) {h : Handle} (hp : r.Past e₀.1) (hf : e₀.1 ≤ h.first) :
    r.finished (d.behind removed) h = r.finished d h ∧ (r.finished d h).Past e₀.1 := by
  unfold SpoolReader.finished
  rw [later_behind hr hf]
  cases hl : SpoolReader.later d h with
  | nil => exact ⟨rfl, hp.1, hp.2⟩
  | cons e l =>
    have hfirst := later_first hs hd hl
    have hbytes : (d.behind removed).bytes h.ino = d.bytes h.ino := rfl
    simp only [hbytes]
    split
    · refine ⟨rfl, hp.1, fun h' hh' => ?_⟩
      cases hh'
      exact hf
    · rw [openFile_behind hd hfirst]
      split
      · rename_i r' ho
        obtain ⟨hafter, hfile⟩ := openFile_first hs hd ho
        exact ⟨rfl, by rw [hafter]; exact hp.1, hfile⟩
      · exact ⟨rfl, hp.1, by simp⟩

/-- A turn is the turn it would be with segments before the first, which it never comes back to. -/
theorem turn_behind (hs : d.dir.Pairwise fun a b => a.1 < b.1) (hr : ∀ a ∈ removed, a.1 < e₀.1)
    (hd : d.dir = e₀ :: rest) (hp : r.Past e₀.1) :
    r.turn (d.behind removed) = r.turn d ∧ (r.turn d).Past e₀.1 := by
  have hbytes (i : Nat) : (d.behind removed).bytes i = d.bytes i := rfl
  unfold SpoolReader.turn
  split
  · exact ⟨rfl, hp⟩
  · split
    · exact ⟨rfl, hp.1, hp.2⟩
    · rw [openFile_behind hd hp.1]
      refine ⟨rfl, ?_⟩
      cases ho : r.openFile d (r.after + 1) with
      | none => exact ⟨hp.1, hp.2⟩
      | some r' =>
        obtain ⟨hafter, hfile⟩ := openFile_first hs hd ho
        exact ⟨by rw [Option.getD_some, hafter]; exact hp.1, hfile⟩
  · rename_i h _ hf
    have hfirst := hp.2 h hf
    split
    · exact ⟨rfl, hp.1, hp.2⟩
    · simp only [hbytes]
      refine ⟨trivial, ?_⟩
      have hle := accept_after { r with buffer := (parse r.buffer).2.1 } (parse r.buffer).1
      have hsame := accept_file { r with buffer := (parse r.buffer).2.1 } (parse r.buffer).1
      have hpast : (SpoolReader.accept { r with buffer := (parse r.buffer).2.1 } (parse r.buffer).1).Past e₀.1 := by
        refine ⟨hp.1.trans (Nat.succ_le_succ hle), fun h' hh' => ?_⟩
        rw [hsame] at hh'
        exact hp.2 h' hh'
      split
      · exact ⟨hpast.1, hpast.2⟩
      split
      · exact hpast
      split
      · refine ⟨hpast.1, fun h' hh' => ?_⟩
        cases hh'
        exact hfirst
      · exact ⟨hpast.1, hpast.2⟩
  · rename_i h _ hf
    exact finished_behind hs hr hd hp (hp.2 h hf)
  · exact ⟨rfl, hp.1, hp.2⟩

end Behind

/-- A reader of the pruned directory beside one of the directory as it was, which has returned some records
before. -/
structure Twin (removed : List (Nat × Nat)) (before : List Record) (s t : System) : Prop where
  disk : t.disk = s.disk.behind removed
  reader : t.reader = s.reader
  returned : t.returned = before ++ s.returned

private theorem step_idle {u : System} (h : (u.reader.turn u.disk).phase = .idle) : u.step .turn = { u with
    reader := { u.reader.turn u.disk with out := [] }
    returned := u.returned ++ (u.reader.turn u.disk).out } := by
  unfold System.step
  dsimp only
  rw [h]

private theorem step_busy {u : System} (h : (u.reader.turn u.disk).phase ≠ .idle) :
    u.step .turn = { u with reader := u.reader.turn u.disk } := by
  unfold System.step
  dsimp only
  split
  · next hidle => exact absurd hidle h
  · rfl

/-- The two return the same. -/
theorem Twin.run {removed rest : List (Nat × Nat)} {e₀ : Nat × Nat} {before : List Record} {s t : System}
    (hs : s.disk.dir.Pairwise fun a b => a.1 < b.1) (hr : ∀ a ∈ removed, a.1 < e₀.1)
    (hd : s.disk.dir = e₀ :: rest) (es : List Event) (hes : ∀ op, .writer op ∉ es)
    (h : Twin removed before s t) (hp : s.reader.Past e₀.1) :
    Twin removed before (Runs.run System.step s es) (Runs.run System.step t es) := by
  induction es generalizing s t with
  | nil => exact h
  | cons e es ih =>
    have hes' : ∀ op, .writer op ∉ es := fun op hop => hes op (List.mem_cons_of_mem _ hop)
    cases e with
    | writer op => exact absurd List.mem_cons_self (hes op)
    | call limit =>
      have hcall : (s.reader.call limit).Past e₀.1 := by
        unfold SpoolReader.call
        split
        · exact ⟨hp.1, hp.2⟩
        · exact hp
      refine ih (s := s.step (.call limit)) (t := t.step (.call limit)) hs hd hes' ⟨h.disk, ?_, h.returned⟩ hcall
      show t.reader.call limit = s.reader.call limit
      rw [h.reader]
    | turn =>
      obtain ⟨hturn, hpast⟩ := turn_behind hs hr hd hp
      have hsame : t.reader.turn t.disk = s.reader.turn s.disk := by rw [h.reader, h.disk, hturn]
      rw [run_cons, run_cons]
      by_cases hidle : (s.reader.turn s.disk).phase = .idle
      · rw [step_idle hidle, step_idle (hsame ▸ hidle), hsame]
        refine ih hs hd hes' ⟨h.disk, rfl, ?_⟩ ⟨hpast.1, hpast.2⟩
        show t.returned ++ _ = before ++ (s.returned ++ _)
        rw [h.returned, List.append_assoc]
      · rw [step_busy hidle, step_busy (hsame ▸ hidle), hsame]
        exact ih hs hd hes' ⟨h.disk, rfl, h.returned⟩ hpast

theorem reads_writer (k : Nat) (limits : List Nat) (op : WriterOp) : .writer op ∉ reads k limits := by
  intro h
  rcases List.mem_append.mp h with h | h
  · cases List.eq_of_mem_replicate h
  · obtain ⟨limit, -, h⟩ := List.mem_flatMap.mp h
    rcases List.mem_cons.mp h with h | h
    · cases h
    · cases List.eq_of_mem_replicate h

def Prune.doomed : Prune → List Nat
  | .idle => []
  | .chosen _ doomed | .unlinking _ doomed => doomed

namespace Keeper
variable {s : Keeper}

/-- The spool as a reader finds it that starts after a record. -/
def reopened (s : Keeper) (cursor : Nat) : System :=
  { s.spool with reader := { after := cursor }, returned := [] }

/-- Nothing is lost that is still to be classified, whichever cursor the database comes back with. -/
structure Safe (s : Keeper) : Prop where
  /-- past the checkpoint, the segments to be deleted hold nothing after a durable cursor -/
  spent : ∀ cursor doomed, s.prune = .unlinking cursor doomed → ∀ x, s.db.Returns x →
    ∀ e ∈ s.spool.disk.dir, e.1 ∈ doomed → ∀ r ∈ (parse (s.spool.disk.bytes e.2)).1, r.1 ≤ x
  newest : ∀ e ∈ s.spool.disk.dir.getLast?, e.1 ∉ s.prune.doomed
  /-- every later record is in a segment -/
  kept : ∀ x, s.db.Returns x → ∀ r ∈ number 1 s.spool.log, x < r.1 →
    ∃ e ∈ s.spool.disk.dir, r ∈ (parse (s.spool.disk.bytes e.2)).1
  /-- and is read, between two appends, by as many calls as there are records -/
  replays : ∀ x, s.db.Returns x → x ≤ s.spool.log.length → ∀ w, s.spool.writer = .idle w →
    ∃ k₀, ∀ k ≥ k₀, ∀ limits : List Nat, (∀ l ∈ limits, 0 < l) → s.spool.log.length ≤ limits.length →
      (run System.step (s.reopened x) (reads k limits)).returned = (number 1 s.spool.log).drop x

theorem Inv.lowest_le (h : s.Inv) {x : Nat} (hx : s.db.Returns x) : s.spool.log = [] ∨ s.lowest ≤ x + 1 := by
  obtain ⟨live, hw⟩ := h.works
  by_cases hr : s.removed = []
  · cases hd : s.spool.disk.dir with
    | nil => exact .inl (hw.empty (by show s.removed ++ s.spool.disk.dir = []; rw [hr, hd]; rfl))
    | cons e l =>
      have he : e.1 = 1 := hw.oldest e l (by show s.removed ++ s.spool.disk.dir = _; rw [hr, hd]; rfl)
      refine .inr ?_
      rw [lowest, hd]
      show e.1 ≤ x + 1
      omega
  · exact .inr ((h.floor hr).2 x hx)

theorem Inv.doomed (h : s.Inv) : ∃ cursor, s.Doomed cursor s.prune.doomed := by
  have hp := h.pruning
  cases hs : s.prune with
  | idle => exact ⟨0, [], _, rfl, rfl, fun hne => absurd rfl hne⟩
  | chosen cursor doomed =>
    rw [hs] at hp
    exact ⟨cursor, hp.1⟩
  | unlinking cursor doomed =>
    rw [hs] at hp
    exact ⟨cursor, hp.1⟩

theorem Inv.spent (h : s.Inv) {cursor : Nat} {doomed : List Nat} (hp : s.prune = .unlinking cursor doomed)
    {x : Nat} (hx : s.db.Returns x) {e : Nat × Nat} (he : e ∈ s.spool.disk.dir) (hin : e.1 ∈ doomed) :
    ∀ r ∈ (parse (s.spool.disk.bytes e.2)).1, r.1 ≤ x := by
  obtain ⟨live, hw⟩ := h.works
  have hpruning := h.pruning
  rw [hp] at hpruning
  obtain ⟨⟨gone, rest, hd, rfl, hrest⟩, -, hdurable⟩ := hpruning
  have hsorted : (gone ++ rest).Pairwise fun a b => a.1 < b.1 := hd ▸ (List.pairwise_append.mp hw.sorted).2.1
  obtain ⟨-, -, hacross⟩ := List.pairwise_append.mp hsorted
  have hgone : e ∈ gone := by
    rw [hd] at he
    refine (List.mem_append.mp he).resolve_right fun her => ?_
    obtain ⟨a, ha, hae⟩ := List.mem_map.mp hin
    exact absurd hae (hacross a ha e her).ne
  obtain ⟨f, r, rfl, hle⟩ := hrest (List.ne_nil_of_mem hgone)
  obtain ⟨gone₁, gone₂, rfl⟩ := List.append_of_mem hgone
  have hdir : s.full.disk.dir = (s.removed ++ gone₁) ++ e :: (gone₂ ++ f :: r) := by
    show s.removed ++ s.spool.disk.dir = _
    rw [hd]
    simp
  have hup : s.full.upto (gone₂ ++ f :: r) ≤ x + 1 := by
    have hf : s.full.upto (gone₂ ++ f :: r) ≤ f.1 := by
      cases gone₂ with
      | nil => exact le_rfl
      | cons a gone₂ => exact (hacross a (by simp) f (by simp)).le
    have := hdurable x hx
    omega
  intro rec hrec
  have hcontent := hw.content hdir (by simp)
  have hbytes : s.full.disk.bytes e.2 = s.spool.disk.bytes e.2 := rfl
  rw [hbytes] at hcontent
  rw [hcontent] at hrec
  have := (mem_span.mp hrec).2.2
  omega

theorem Inv.newest (h : s.Inv) {e : Nat × Nat} (he : e ∈ s.spool.disk.dir.getLast?) : e.1 ∉ s.prune.doomed := by
  obtain ⟨live, hw⟩ := h.works
  obtain ⟨cursor, gone, rest, hd, hdoomed, hrest⟩ := h.doomed
  rw [hdoomed]
  intro hin
  obtain ⟨a, ha, hae⟩ := List.mem_map.mp hin
  obtain ⟨f, r, rfl, -⟩ := hrest (List.ne_nil_of_mem ha)
  have hsorted : (gone ++ f :: r).Pairwise fun a b => a.1 < b.1 := hd ▸ (List.pairwise_append.mp hw.sorted).2.1
  have hlast : e ∈ f :: r := by
    rw [hd, List.getLast?_append_of_ne_nil _ (by simp)] at he
    exact List.mem_of_getLast? he
  exact absurd hae ((List.pairwise_append.mp hsorted).2.2 a ha e hlast).ne

theorem Inv.kept (h : s.Inv) {x : Nat} (hx : s.db.Returns x) {rec : Record} (hrec : rec ∈ number 1 s.spool.log)
    (hlt : x < rec.1) : ∃ e ∈ s.spool.disk.dir, rec ∈ (parse (s.spool.disk.bytes e.2)).1 := by
  obtain ⟨live, hw⟩ := h.works
  rcases h.lowest_le hx with hnil | hle
  · rw [hnil] at hrec
    exact absurd hrec List.not_mem_nil
  · exact hw.found (s := s.full) hrec s.removed s.spool.disk.dir rfl (hle.trans hlt)

theorem Inv.replays (h : s.Inv) {x : Nat} (hx : s.db.Returns x) (hlog : x ≤ s.spool.log.length) {w : SpoolWriter}
    (hidle : s.spool.writer = .idle w) : ∃ k₀, ∀ k ≥ k₀, ∀ limits : List Nat, (∀ l ∈ limits, 0 < l) →
      s.spool.log.length ≤ limits.length →
        (run System.step (s.reopened x) (reads k limits)).returned = (number 1 s.spool.log).drop x := by
  obtain ⟨live, hw⟩ := h.works
  obtain ⟨e₀, rest, hd⟩ : ∃ e₀ rest, s.spool.disk.dir = e₀ :: rest := by
    cases hd : s.spool.disk.dir with
    | cons e₀ rest => exact ⟨e₀, rest, rfl⟩
    | nil =>
      have hn := hw.numbered
      have hwriter : s.full.writer = .idle w := hidle
      rw [hwriter] at hn
      obtain ⟨l, f, hl⟩ := hw.newest _ hn.1
      have hne : s.removed ≠ [] := by
        intro hr
        have hempty : s.removed ++ s.spool.disk.dir = l ++ [(f, w.ino)] := hl
        rw [hr, hd] at hempty
        exact absurd hempty (by simp)
      obtain ⟨w', starting, ho⟩ := h.emptied hd hne
      rw [hidle] at ho
      cases ho
  have hsorted := List.pairwise_append.mp hw.sorted
  have hbefore : ∀ a ∈ s.removed, a.1 < e₀.1 := fun a ha => hsorted.2.2 a ha e₀ (by rw [hd]; simp)
  have hpast : (s.reopened x).reader.Past e₀.1 := by
    refine ⟨?_, by simp [reopened]⟩
    rcases h.lowest_le hx with hnil | hle
    · have hle := (hw.named e₀ (List.mem_append_right _ (by rw [hd]; simp))).2.1
      have hzero : s.full.log.length = 0 := by
        show s.spool.log.length = 0
        rw [hnil]
        rfl
      show e₀.1 ≤ x + 1
      omega
    · rw [lowest, hd] at hle
      exact hle
  let t : System := { s.full with reader := { after := x }, returned := span s.spool.log 0 x }
  have hwt : Works t live := hw.relabel rfl rfl rfl hw.writable hw.owed_pending (fun _ _ _ ht => ht) hw.numbered
  have hseen : s.spool.log <+: t.seen := List.prefix_append _ _
  have hsound : Sound t := by
    refine ⟨⟨live, hwt, ?_, hlog.trans hseen.length_le, by simp [t], by simp [t]⟩, fun _ => rfl⟩
    show span s.spool.log 0 x ++ [] = span t.seen 0 x
    rw [List.append_nil, span_of_mono hseen hlog]
  have hquiet : t.Quiet := by
    have hwriter : t.writer = .idle w := hidle
    exact ⟨pending_of_idle hwriter, whole_of_idle hwriter⟩
  obtain ⟨k₀, hk⟩ := hsound.drained hquiet
  refine ⟨k₀, fun k hle limits hl hlen => ?_⟩
  have htwin : Twin s.removed (span s.spool.log 0 x) (s.reopened x) t := ⟨rfl, rfl, by simp [reopened, t]⟩
  have hrun := Twin.run (s := s.reopened x) hsorted.2.1 hbefore hd (reads k limits) (reads_writer k limits) htwin hpast
  have hall := hk k hle limits hl hlen
  rw [hrun.returned] at hall
  have hsplit : span s.spool.log 0 x ++ (number 1 s.spool.log).drop x = number 1 s.spool.log := by
    rw [span, List.drop_zero, ← number_take, List.take_append_drop]
  exact List.append_cancel_left (hall.trans hsplit.symm)

theorem Inv.safe (h : s.Inv) : s.Safe where
  spent _ _ hp _ hx _ he hin := h.spent hp hx he hin
  newest _ he := h.newest he
  kept _ hx _ hr hlt := h.kept hx hr hlt
  replays _ hx hlog _ hw := h.replays hx hlog hw

/-- Every run of the writer, the feed's commits, its prunes and crashes of each and of all, in which no start
takes an empty newest segment away under a prune, no process ends that has taken the only one, and the
database never comes back behind the cursor of a feed that goes on. -/
theorem run_safe (ops : List KeeperOp) (h : Meets step Keeps {} ops) : (run step {} ops).Safe := by
  have hstep : ∀ (s : Keeper) (op : KeeperOp), s.Inv → s.Keeps op → (s.step op).Inv := fun _ _ hs hk => hs.step hk
  exact (run_invariant hstep {} ops Inv.init h).safe

/-- Two segments, the first classified and deleted; then a power cut. -/
theorem run_safe_pruned :
    let ops : List KeeperOp := [.writer (.start 100), .writer .openSegment, .writer (.append [[7]]),
      .writer (.write 17), .writer .sync, .writer .crash, .writer (.start 100), .writer .openSegment,
      .stage 1 true, .commit true, .choose, .checkpoint, .unlink, .unlink, .power_cut 1 0 1,
      .writer (.start 100), .writer .openSegment, .writer (.append [[8]]), .writer (.write 17), .writer .sync]
    (run step {} ops).spool.disk.dir = [(2, 2)] ∧ (run step {} ops).Safe :=
  ⟨by decide +kernel, run_safe _ (by decide +kernel)⟩

/-- The database crashes and loses the commit by which the feed then prunes; and a start takes the empty
newest segment away while the one before it is about to be deleted. -/
theorem lost_commit_pruned :
    ¬ (∀ ops : List KeeperOp, ∀ x, (run step {} ops).db.Returns x → ∀ r ∈ number 1 (run step {} ops).spool.log,
      x < r.1 → ∃ e ∈ (run step {} ops).spool.disk.dir, r ∈ (parse ((run step {} ops).spool.disk.bytes e.2)).1) ∧
    ¬ (∀ ops : List KeeperOp, ∀ e ∈ (run step {} ops).spool.disk.dir.getLast?,
      e.1 ∉ (run step {} ops).prune.doomed) := by
  let before : List KeeperOp := [.writer (.start 100), .writer .openSegment, .writer (.append [[7]]),
    .writer (.write 17), .writer .sync, .writer .crash, .writer (.start 100), .writer .openSegment, .stage 1 true,
    .commit true]
  constructor
  · intro h
    have hreturns : (run step {} (before ++ [.database_crash 0, .choose, .checkpoint, .unlink])).db.Returns 0 :=
      ⟨0, by decide +kernel, by decide +kernel, by decide +kernel⟩
    exact absurd (h _ 0 hreturns (1, [7]) (by decide +kernel) Nat.one_pos) (by decide +kernel)
  · exact fun h => absurd (h (before ++ [.choose, .checkpoint, .writer .crash, .writer (.start 100)]))
      (by decide +kernel)

end Keeper
end NetCoreNoc.Spool
