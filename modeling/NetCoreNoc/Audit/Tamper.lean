import Mathlib
import NetCoreNoc.Audit.Log
import NetCoreNoc.Json.Nesting

/-! What an accepted log says of the rows that were appended: the seal is over a hash, and the hash is over the details
as they read, not as they stand. -/
namespace NetCoreNoc.Audit
open Json
variable {F : Type}

section
variable {sha256 entry_mac : Str → Str} [PyFloat F] [PyOrder F] {w : Walk} {rows : List (Row F)}

theorem Walk.Accepts.checks {sealed_from : Option ℤ} (h : w.Accepts sha256 entry_mac sealed_from rows) :
    ∀ row ∈ rows, row.Checks sha256 := by
  induction rows generalizing w with
  | nil => exact nofun
  | cons row rows ih => exact List.forall_mem_cons.mpr ⟨h.2.2.1, ih h.2.2.2.2⟩

theorem Walk.Accepts.linked {sealed_from : Option ℤ} (h : w.Accepts sha256 entry_mac sealed_from rows) :
    rows.IsChain fun a b => b.prev_hash = a.entry_hash := by
  induction rows generalizing w with
  | nil => exact .nil
  | cons row rows ih =>
    refine List.isChain_cons.mpr ⟨fun next hnext => ?_, ih h.2.2.2.2⟩
    cases rows with
    | nil => cases hnext
    | cons b rows =>
      obtain rfl : b = next := Option.some.inj hnext
      exact h.2.2.2.2.2.1 (Nat.succ_ne_zero _)

theorem Walk.Accepts.sealed {sealed_from : Option ℤ} (h : w.Accepts sha256 entry_mac sealed_from rows)
    (hs : w.sealed = true) : ∀ row ∈ rows, row.mac = some (entry_mac row.entry_hash) := by
  induction rows generalizing w with
  | nil => exact nofun
  | cons row rows ih =>
    have hdue : w.due sealed_from row = true := by simp [Walk.due, hs]
    exact List.forall_mem_cons.mpr ⟨h.2.2.2.1 hdue, ih h.2.2.2.2 hdue⟩

/-- Behind the rows before the first sealed id, all are sealed. -/
theorem Walk.Accepts.split {k : ℤ} (h : w.Accepts sha256 entry_mac (some k) rows) :
    ∃ old new, rows = old ++ new ∧ (∀ row ∈ old, row.id < k) ∧
      ∀ row ∈ new, row.mac = some (entry_mac row.entry_hash) := by
  induction rows generalizing w with
  | nil => exact ⟨[], [], rfl, nofun, nofun⟩
  | cons row rows ih =>
    by_cases hdue : w.due (some k) row = true
    · exact ⟨[], row :: rows, rfl, nofun, List.forall_mem_cons.mpr ⟨h.2.2.2.1 hdue, h.2.2.2.2.sealed hdue⟩⟩
    · obtain ⟨old, new, hsplit, hold, hnew⟩ := ih h.2.2.2.2
      have hid : row.id < k := by
        simp only [Walk.due, Option.any_some, decide_eq_true_eq, not_or] at hdue
        exact not_le.mp hdue.2.2
      exact ⟨row :: old, new, by rw [hsplit, List.cons_append], List.forall_mem_cons.mpr ⟨hid, hold⟩, hnew⟩

end

section
variable [PyFloat F] [LawfulPyFloat F]

theorem column_inj {c d : Column} (h : text (F := F) (.str c.text) = text (F := F) (.str d.text)) : c = d := by
  have happart (c : Column) : joined c.text = c.text := by
    have hall := List.all_eq_true.mp c.scalar
    have hhigh : ∀ x ∈ c.text, ¬ isHigh x := fun x hx => (of_decide_eq_true (hall x hx)).1
    have hpairs : c.text.Pairwise fun x y => ¬ (isHigh x ∧ isLow y) :=
      List.pairwise_of_forall_mem_list fun x hx _ _ hp => hhigh x hx hp.1
    exact (joined_eq_iff _).mpr hpairs.isChain
  have hback := text_inj h
  rw [back, back, Doc.str.injEq, happart, happart] at hback
  cases c
  cases d
  exact Column.mk.injEq _ _ _ _ ▸ hback

theorem optional_inj {c d : Option Column} (h : text (F := F) (optionalDoc c) = text (F := F) (optionalDoc d)) : c = d := by
  cases c with
  | none =>
    cases d with
    | none => rfl
    | some d => exact nomatch text_inj h
  | some c =>
    cases d with
    | none => exact nomatch text_inj h
    | some d => exact congrArg some (column_inj h)

theorem outcome_inj {o p : Outcome} (h : text (F := F) (.str o.text) = text (F := F) (.str p.text)) : o = p := by
  have hback := text_inj h
  rw [back, back, Doc.str.injEq] at hback
  cases o <;> cases p <;> first | rfl | exact absurd hback (by decide +kernel)

/-- A canonical text says every field, and the text of the details. -/
theorem docs_inj {r s : Row F} {v v' : Value F} {d d' : Doc F}
    (h : text (.obj ((r.entry v).docs d)) = text (.obj ((s.entry v').docs d'))) :
    r.entry .null = s.entry .null ∧ text d = text d' := by
  have hkeys : ((r.entry v).docs d).map Prod.fst = ((s.entry v').docs d').map Prod.fst := rfl
  have hvalues := text_obj_inj hkeys h
  simp only [Entry.docs, Row.entry, List.map_cons, List.map_nil, List.cons.injEq, and_true] at hvalues
  obtain ⟨haction, hactor, hdetails, hid, hobject_id, hobject_type, houtcome, hrole, hsource_ip, hts⟩ := hvalues
  have hid' := text_inj hid
  have hts' := text_inj hts
  rw [back, back, Doc.int.injEq] at hid'
  rw [back, back, Doc.float.injEq] at hts'
  refine ⟨?_, hdetails⟩
  rw [Row.entry, Row.entry, hid', hts', column_inj hactor, optional_inj hrole, optional_inj hsource_ip,
    column_inj haction, optional_inj hobject_type, optional_inj hobject_id, outcome_inj houtcome]

/-- What stands before a canonical text is not of it. -/
theorem docs_split {p q : Str} {e f : Entry F} {d d' : Doc F}
    (h : p ++ text (.obj (e.docs d)) = q ++ text (.obj (f.docs d'))) :
    p = q ∧ text (.obj (e.docs d)) = text (.obj (f.docs d')) := by
  have hsuffix {e f : Entry F} {d d' : Doc F} {x : Str} (hx : text (.obj (e.docs d)) = x ++ text (.obj (f.docs d'))) :
      x = [] :=
    suffix_eq (by decide : 97 ≤ (chr 'a').val ∧ (chr 'a').val ≤ 122) hx
  rcases List.append_eq_append_iff.mp h with ⟨x, hq, hx⟩ | ⟨x, hp, hx⟩
  · obtain rfl := hsuffix hx
    exact ⟨by rw [hq, List.append_nil], hx⟩
  · obtain rfl := hsuffix hx
    exact ⟨by rw [hp, List.append_nil], hx.symm⟩

end

section
variable [PyFloat F] [PyOrder F]

/-- The text that `write_event` hashed. -/
def Append.hashed (a : Append F) : Option Str :=
  (canonical (a.row.entry a.details)).map fun c => a.row.prev_hash ++ c

/-- The text that `verify_rows` hashes. -/
def Row.hashed (row : Row F) : Option Str := ((row_entry row).bind canonical).map fun c => row.prev_hash ++ c

/-- The fields that `export_line` writes. -/
def Row.exported (row : Row F) : Row F := { row with mac := none }

/-- Details that stand as they would be written. -/
def Row.Canonical (row : Row F) : Prop := ∃ j ∈ loads row.details, dumps (F := F) j.value = some row.details

instance (row : Row F) [DecidableEq F] : Decidable row.Canonical :=
  inferInstanceAs (Decidable (∃ j ∈ loads row.details, dumps (F := F) j.value = some row.details))

/-- Rows that were appended, each right after the one before, with every field as it was written. -/
def AsWritten (appended : List (Append F)) (rows : List (Row F)) : Prop :=
  ∃ run ⊆ appended, run.IsChain (fun a b => b.onto = some a.row) ∧
    run.map (fun a => a.row.exported) = rows.map Row.exported

/-- A row that has the hash of an appended one: it is that row but for the seal, and for details that read alike. -/
structure Row.Traces (row : Row F) (a : Append F) : Prop where
  hash : row.entry_hash = a.row.entry_hash
  prev : row.prev_hash = a.row.prev_hash
  fields : row.entry .null = a.row.entry .null
  reads : ∃ j ∈ loads row.details, dumps (F := F) j.value = some a.row.details

omit [PyFloat F] [PyOrder F] in
theorem row_eq {r s : Row F} (hfields : r.entry .null = s.entry .null) (hdetails : r.details = s.details)
    (hprev : r.prev_hash = s.prev_hash) (hash : r.entry_hash = s.entry_hash) (hmac : r.mac = s.mac) : r = s := by
  cases r
  cases s
  simp only [Row.entry, Entry.mk.injEq, and_true] at hfields
  simp only at hdetails hprev hash hmac
  simp only [hfields, hdetails, hprev, hash, hmac]

variable {a : Append F}

theorem Row.Traces.exported {row : Row F} (h : row.Traces a) :
    row.exported = a.row.exported ↔ row.Canonical := by
  obtain ⟨j, hj, hdumps⟩ := h.reads
  constructor
  · intro he
    have hdetails : row.exported.details = a.row.exported.details := congrArg Row.details he
    change row.details = a.row.details at hdetails
    exact ⟨j, hj, hdetails ▸ hdumps⟩
  · rintro ⟨j', hj', hdumps'⟩
    obtain rfl : j = j' := Option.some.inj (hj.symm.trans hj')
    have hdetails : row.details = a.row.details := Option.some.inj (hdumps'.symm.trans hdumps)
    exact row_eq h.fields hdetails h.prev h.hash rfl

variable {sha256 entry_mac : Str → Str}

theorem Append.Made.hashed_text (h : a.Made sha256 entry_mac) : ∃ d,
    a.hashed = some (a.row.prev_hash ++ text (.obj ((a.row.entry a.details).docs d))) ∧ a.row.details = text d ∧
      sha256 (a.row.prev_hash ++ text (.obj ((a.row.entry a.details).docs d))) = a.row.entry_hash := by
  obtain ⟨d, hd, hstored, hhash⟩ := h.hash
  refine ⟨d, ?_, hstored, hhash.symm⟩
  have hcanonical : canonical (a.row.entry a.details) = some (text (.obj ((a.row.entry a.details).docs d))) := by
    rw [canonical_eq, if_pos (show digitCount (a.row.entry a.details).id ≤ MAX_STR_DIGITS from h.digits)]
    exact congrArg (Option.map _) hd
  exact congrArg (Option.map _) hcanonical

theorem Row.Checks.hashed_eq {row : Row F} (h : row.Checks sha256) : ∃ t ∈ row.hashed, sha256 t = row.entry_hash := by
  obtain ⟨entry, c, hentry, hc, hhash⟩ := h
  exact ⟨row.prev_hash ++ c, by rw [Row.hashed, hentry, Option.bind_some, hc]; rfl, hhash⟩

variable [LawfulPyFloat F]

/-- A row and an appended one whose hashes are of one text. -/
theorem Append.Made.traced (h : a.Made sha256 entry_mac) {row : Row F} {t : Str}
    (ht : t ∈ row.hashed) (ha : t ∈ a.hashed) (hash : row.entry_hash = a.row.entry_hash) :
    row.Traces a := by
  obtain ⟨d, hd, hstored, -⟩ := h.hashed_text
  obtain ⟨c, hc, hsame⟩ := Option.map_eq_some_iff.mp ht
  obtain ⟨entry, hentry, hcanonical⟩ := Option.bind_eq_some_iff.mp hc
  obtain ⟨j, hj, rfl⟩ := Option.map_eq_some_iff.mp hentry
  rw [canonical_eq] at hcanonical
  split_ifs at hcanonical
  obtain ⟨i, hi, rfl⟩ := Option.map_eq_some_iff.mp hcanonical
  obtain ⟨hprev, htext⟩ := docs_split (hsame.trans (Option.some.inj (ha.symm.trans hd)))
  obtain ⟨hfields, hdetails⟩ := docs_inj htext
  refine ⟨hash, hprev, hfields, j, hj, ?_⟩
  rw [hstored, ← hdetails]
  exact congrArg (Option.map text) hi

end

/-- Every row of the log was appended, and so was every row that one was appended to. -/
structure Log.Kept [PyFloat F] [PyOrder F] (sha256 entry_mac : Str → Str) (s : Log F) : Prop where
  made : ∀ a ∈ s.appended, a.Made sha256 entry_mac
  onto : ∀ a ∈ s.appended, ∀ row ∈ a.onto, ∃ b ∈ s.appended, b.row = row
  rows : ∀ row ∈ s.rows, ∃ a ∈ s.appended, a.row = row
  pending : ∀ row ∈ s.pending, ∃ a ∈ s.appended, a.row = row

theorem delete_before_subset [DbOrder F] {cutoff : F} {unseen : ℕ} (rows : List (Row F)) :
    delete_before cutoff unseen rows ⊆ rows := by
  induction rows with
  | nil => exact List.Subset.refl _
  | cons row rows ih =>
    rw [delete_before]
    split_ifs
    · exact List.Subset.trans ih (List.subset_cons_self row rows)
    · exact List.cons_subset_cons row ih

section
variable [PyFloat F] [PyOrder F] [DbOrder F] {sha256 entry_mac : Str → Str}

theorem Log.Kept.step {s : Log F} (h : s.Kept sha256 entry_mac) (op : AuditOp F) :
    (s.step sha256 entry_mac op).Kept sha256 entry_mac := by
  obtain ⟨made, onto, rows, pending⟩ := h
  cases op with
  | commit => exact ⟨made, onto, pending, pending⟩
  | rollback => exact ⟨made, onto, rows, rows⟩
  | prune cutoff limit unseen =>
    refine ⟨made, onto, rows, ?_⟩
    show ∀ row ∈ (prune_audit_log s.pending cutoff limit unseen).getD s.rows, ∃ a ∈ s.appended, a.row = row
    unfold prune_audit_log
    split
    · exact rows
    · exact fun row hrow => pending row (delete_before_subset _ hrow)
  | write event =>
    rw [Log.step]
    split
    · exact ⟨made, onto, rows, rows⟩
    · next row hw =>
      obtain ⟨details, hd, hmade⟩ := write_event_made hw
      have hkeep {r : Row F} (hr : ∃ a ∈ s.appended, a.row = r) (b : Append F) : ∃ a ∈ s.appended ++ [b], a.row = r :=
        hr.imp fun _ ha => ⟨List.mem_append_left _ ha.1, ha.2⟩
      refine ⟨fun a ha => ?_, fun a ha r hr => hkeep ?_ _, fun r hr => hkeep (rows r hr) _, fun r hr => ?_⟩
      · rcases List.mem_append.mp ha with ha | ha
        · exact made a ha
        · rw [List.mem_singleton.mp ha, hd]
          exact hmade
      · rcases List.mem_append.mp ha with ha | ha
        · exact onto a ha r hr
        · rw [List.mem_singleton.mp ha] at hr
          exact pending r (List.mem_of_getLast? hr)
      · rcases List.mem_append.mp hr with hr | hr
        · exact hkeep (pending r hr) _
        · rw [List.mem_singleton.mp hr]
          exact ⟨_, List.mem_append_right _ (List.mem_singleton_self _), rfl⟩

theorem run_kept (ops : List (AuditOp F)) :
    (Runs.run (Log.step sha256 entry_mac) {} ops).Kept sha256 entry_mac := by
  have hrun (s : Log F) (h : s.Kept sha256 entry_mac) :
      (Runs.run (Log.step sha256 entry_mac) s ops).Kept sha256 entry_mac := by
    induction ops generalizing s with
    | nil => exact h
    | cons op ops ih => exact ih _ (h.step op)
  have hnone {p : Append F → Prop} : ∀ a ∈ ({} : Log F).appended, p a := fun _ ha => nomatch ha
  exact hrun {} ⟨hnone, hnone, nofun, nofun⟩

end

section
variable [PyFloat F] [PyOrder F] (sha256 entry_mac : Str → Str)

/-- What is asked of the hash and the seal: different texts, of those that were hashed or that the verification hashes,
have different hashes, and none of an append's is the hash that a log starts from; and a seal that is right is of the hash of an
append. -/
structure Secure (s : Log F) (rows : List (Row F)) : Prop where
  collision_free : ∀ t ∈ s.appended.filterMap Append.hashed ++ rows.filterMap Row.hashed,
    ∀ u ∈ s.appended.filterMap Append.hashed ++ rows.filterMap Row.hashed, t ≠ u → sha256 t ≠ sha256 u
  genesis : ∀ t ∈ s.appended.filterMap Append.hashed, sha256 t ≠ GENESIS_HASH
  unforged : ∀ row ∈ rows, row.mac = some (entry_mac row.entry_hash) →
    ∃ a ∈ s.appended, a.row.entry_hash = row.entry_hash

variable {sha256 entry_mac} {s : Log F} {rows : List (Row F)}

instance [DecidableEq F] : Decidable (Secure sha256 entry_mac s rows) :=
  decidable_of_iff (_ ∧ _ ∧ _) ⟨fun ⟨h, h', h''⟩ => ⟨h, h', h''⟩, fun ⟨h, h', h''⟩ => ⟨h, h', h''⟩⟩

variable (rows) in
theorem Log.Kept.checks (h : s.Kept sha256 entry_mac) (ha : a ∈ s.appended) : ∃ t ∈ a.hashed,
    t ∈ s.appended.filterMap Append.hashed ++ rows.filterMap Row.hashed ∧ sha256 t = a.row.entry_hash := by
  obtain ⟨d, ht, -, hhash⟩ := (h.made a ha).hashed_text
  exact ⟨_, ht, List.mem_append_left _ (List.mem_filterMap.mpr ⟨a, ha, ht⟩), hhash⟩

variable [LawfulPyFloat F]

theorem Secure.traces (h : Secure sha256 entry_mac s rows) (hs : s.Kept sha256 entry_mac) {row : Row F}
    (hrow : row ∈ rows) (hchecks : row.Checks sha256) (ha : a ∈ s.appended)
    (hash : row.entry_hash = a.row.entry_hash) : row.Traces a := by
  obtain ⟨t, ht, hin, hhash⟩ := hs.checks rows ha
  obtain ⟨u, hu, hhash'⟩ := hchecks.hashed_eq
  have hin' : u ∈ rows.filterMap Row.hashed := List.mem_filterMap.mpr ⟨row, hrow, hu⟩
  obtain rfl : u = t := by
    by_contra hne
    exact h.collision_free u (List.mem_append_right _ hin') t hin hne (hhash'.trans (hash.trans hhash.symm))
  exact (hs.made a ha).traced hu ht hash

/-- Appended rows of one hash are one row. -/
theorem Secure.same (h : Secure sha256 entry_mac s rows) (hs : s.Kept sha256 entry_mac) {a b : Append F}
    (ha : a ∈ s.appended) (hb : b ∈ s.appended) (hash : a.row.entry_hash = b.row.entry_hash) : a.row = b.row := by
  obtain ⟨t, ht, hin, hhash⟩ := hs.checks rows ha
  obtain ⟨u, hu, hin', hhash'⟩ := hs.checks rows hb
  obtain rfl : t = u := by
    by_contra hne
    exact h.collision_free t hin u hin' hne (hhash.trans (hash.trans hhash'.symm))
  obtain ⟨d, hd, hstored, -⟩ := (hs.made a ha).hashed_text
  obtain ⟨d', hd', hstored', -⟩ := (hs.made b hb).hashed_text
  obtain ⟨hprev, htext⟩ := docs_split (Option.some.inj (hd.symm.trans (ht.trans (hu.symm.trans hd'))))
  obtain ⟨hfields, hdetails⟩ := docs_inj htext
  refine row_eq hfields (by rw [hstored, hstored', hdetails]) hprev hash ?_
  rw [(hs.made a ha).mac, (hs.made b hb).mac, hash]

/-- An append whose row names the hash of another was onto that one. -/
theorem Secure.linked (h : Secure sha256 entry_mac s rows) (hs : s.Kept sha256 entry_mac) {a b : Append F}
    (ha : a ∈ s.appended) (hb : b ∈ s.appended) (hprev : b.row.prev_hash = a.row.entry_hash) :
    b.onto = some a.row := by
  have hmade := (hs.made b hb).prev
  cases honto : b.onto with
  | none =>
    obtain ⟨t, ht, -, hhash⟩ := hs.checks rows ha
    rw [honto] at hmade
    exact absurd (hhash.trans (hprev.symm.trans hmade)) (h.genesis t (List.mem_filterMap.mpr ⟨a, ha, ht⟩))
  | some c =>
    obtain ⟨c, hc, rfl⟩ := hs.onto b hb c honto
    rw [honto] at hmade
    exact congrArg some (h.same hs hc ha (hmade.symm.trans hprev))

/-- Sealed rows, each linked to the one before, trace appends, each onto the one before. -/
theorem Secure.run (h : Secure sha256 entry_mac s rows) (hs : s.Kept sha256 entry_mac) {new : List (Row F)}
    (hin : new ⊆ rows) (hchecks : ∀ row ∈ new, row.Checks sha256)
    (hsealed : ∀ row ∈ new, row.mac = some (entry_mac row.entry_hash))
    (hlinked : new.IsChain fun a b => b.prev_hash = a.entry_hash) :
    ∃ run ⊆ s.appended, run.IsChain (fun a b => b.onto = some a.row) ∧ List.Forall₂ Row.Traces new run := by
  induction new with
  | nil => exact ⟨[], List.nil_subset _, .nil, .nil⟩
  | cons row new ih =>
    obtain ⟨hrow, hin⟩ := List.cons_subset.mp hin
    obtain ⟨hcheck, hchecks⟩ := List.forall_mem_cons.mp hchecks
    obtain ⟨hseal, hsealed⟩ := List.forall_mem_cons.mp hsealed
    obtain ⟨hnext, hlinked⟩ := List.isChain_cons.mp hlinked
    obtain ⟨run, hsub, hchain, htraces⟩ := ih hin hchecks hsealed hlinked
    obtain ⟨a, ha, hash⟩ := h.unforged row hrow hseal
    refine ⟨a :: run, List.cons_subset.mpr ⟨ha, hsub⟩, List.isChain_cons.mpr ⟨fun b hb => ?_, hchain⟩,
      .cons (h.traces hs hrow hcheck ha hash.symm) htraces⟩
    cases htraces with
    | nil => cases hb
    | cons hfirst _ =>
      obtain rfl := Option.some.inj hb
      have hprev := hnext _ rfl
      exact h.linked hs ha (hsub List.mem_cons_self) (hfirst.prev.symm.trans (hprev.trans hash.symm))

omit [LawfulPyFloat F] in
/-- Appends each onto the one before are numbered on, so those from an id on are the last of them. -/
theorem Log.Kept.from_suffix (hs : s.Kept sha256 entry_mac) {run : List (Append F)} (hsub : run ⊆ s.appended)
    (hchain : run.IsChain fun a b => b.onto = some a.row) (k : ℤ) :
    run.filter (fun a => k ≤ a.row.id) <:+ run := by
  induction run with
  | nil => exact List.suffix_rfl
  | cons a run ih =>
    obtain ⟨ha, hsub'⟩ := List.cons_subset.mp hsub
    by_cases hk : k ≤ a.row.id
    · have hids : ((a :: run).map fun a => a.row.id).IsChain (· < ·) := by
        refine (List.isChain_map _).mpr (hchain.imp_of_mem_imp fun x y _ hy hxy => ?_)
        have hid := (hs.made y (hsub hy)).id
        rw [hxy] at hid
        exact lt_of_lt_of_eq (lt_add_one x.row.id) hid.symm
      have hlater := (List.pairwise_cons.mp hids.pairwise).1
      have hall : ∀ b ∈ a :: run, decide (k ≤ b.row.id) = true := List.forall_mem_cons.mpr
        ⟨decide_eq_true hk, fun b hb => decide_eq_true (hk.trans (hlater _ (List.mem_map_of_mem hb)).le)⟩
      rw [List.filter_eq_self.mpr hall]
    · rw [List.filter_cons_of_neg (by simpa using hk)]
      exact (ih hsub' (List.isChain_cons.mp hchain).2).trans (List.suffix_cons a run)

omit [LawfulPyFloat F] in
theorem exported_eq {l : List (Row F)} {run : List (Append F)} (h : List.Forall₂ Row.Traces l run)
    (hc : ∀ row ∈ l, row.Canonical) : run.map (fun a => a.row.exported) = l.map Row.exported := by
  induction h with
  | nil => rfl
  | cons hfirst _ ih =>
    obtain ⟨hrow, hc⟩ := List.forall_mem_cons.mp hc
    rw [List.map_cons, List.map_cons, ih hc, hfirst.exported.mpr hrow]

/-- The rows of an accepted log from the first sealed id on are as they were appended, where, and only where, their
details stand as they would be written. -/
theorem accepted_as_written [DbOrder F] (ops : List (AuditOp F)) {k : ℤ}
    (h : Secure sha256 entry_mac (Runs.run (Log.step sha256 entry_mac) {} ops) rows)
    (hok : ∃ r ∈ verify_rows sha256 entry_mac rows (some k), r.ok) :
    AsWritten (Runs.run (Log.step sha256 entry_mac) {} ops).appended (rows.filter fun row => k ≤ row.id) ↔
      ∀ row ∈ rows, k ≤ row.id → row.Canonical := by
  have hs : (Runs.run (Log.step sha256 entry_mac) {} ops).Kept sha256 entry_mac := run_kept ops
  have haccepts := (Walk.verify_ok_iff sha256 entry_mac (some k) {} rows).mp hok
  constructor
  · rintro ⟨run, hsub, -, hmap⟩ row hrow hk
    have hin : row.exported ∈ run.map fun a => a.row.exported := by
      rw [hmap]
      exact List.mem_map_of_mem (List.mem_filter.mpr ⟨hrow, decide_eq_true hk⟩)
    obtain ⟨a, ha, he⟩ := List.mem_map.mp hin
    have hash : a.row.exported.entry_hash = row.exported.entry_hash := congrArg Row.entry_hash he
    exact (h.traces hs hrow (haccepts.checks row hrow) (hsub ha) hash.symm).exported.mp he.symm
  · intro hcanonical
    obtain ⟨old, new, rfl, hold, hsealed⟩ := haccepts.split
    have hnew : new ⊆ old ++ new := List.subset_append_right old new
    have hfilter : (old ++ new).filter (fun row => k ≤ row.id) = new.filter fun row => k ≤ row.id := by
      rw [List.filter_append, List.filter_eq_nil_iff.mpr fun row hrow => by simpa using hold row hrow, List.nil_append]
    obtain ⟨run, hsub, hchain, htraces⟩ := h.run hs hnew (fun row hrow => haccepts.checks row (hnew hrow)) hsealed
      haccepts.linked.right_of_append
    have hids : List.Forall₂ Row.Traces (new.filter fun row => k ≤ row.id) (run.filter fun a => k ≤ a.row.id) := by
      refine List.rel_filter (fun row a ht => ?_) htraces
      have hid : row.id = a.row.id := congrArg Entry.id ht.fields
      simp only [hid]
    refine ⟨run.filter fun a => k ≤ a.row.id, List.Subset.trans (List.filter_subset_self run) hsub,
      hchain.suffix (hs.from_suffix hsub hchain k), ?_⟩
    rw [hfilter]
    refine exported_eq hids fun row hrow => ?_
    obtain ⟨hrow, hk⟩ := List.mem_filter.mp hrow
    exact hcanonical row (hnew hrow) (of_decide_eq_true hk)

end

/-- A log of two logins. -/
def logins : Log Whole := Runs.run (Log.step Sha256.sha256 keyed) {}
  [.write (login 50 []), .write (login 100 [(.str (lit "n"), .int 1)]), .commit]

theorem logins_as_written : AsWritten logins.appended (logins.rows.filter fun row => 2 ≤ row.id) := by
  have h : Secure Sha256.sha256 keyed logins logins.rows ∧
      (∃ r ∈ verify_rows Sha256.sha256 keyed logins.rows (some 2), r.ok) ∧
      ∀ row ∈ logins.rows, 2 ≤ row.id → row.Canonical := by decide +kernel
  exact (accepted_as_written _ h.1 h.2.1).mpr h.2.2

/-- The details of the second login, with a value written before the one that they read as. -/
def edited : List (Row Whole) := logins.rows.map fun row =>
  if row.id = 2 then { row with details := lit "\x7b\"n\":9,\"n\":1\x7d" } else row

theorem edited_accepted : Secure Sha256.sha256 keyed logins edited ∧
    (∃ r ∈ verify_rows Sha256.sha256 keyed edited (some 2), r.ok) ∧
    ¬ AsWritten logins.appended (edited.filter fun row => 2 ≤ row.id) := by
  have h : Secure Sha256.sha256 keyed logins edited ∧
      (∃ r ∈ verify_rows Sha256.sha256 keyed edited (some 2), r.ok) ∧
      ¬ ∀ row ∈ edited.filter fun row => 2 ≤ row.id, ∃ a ∈ logins.appended, a.row.exported = row.exported := by
    decide +kernel
  refine ⟨h.1, h.2.1, ?_⟩
  rintro ⟨run, hsub, -, hmap⟩
  refine h.2.2 fun row hrow => ?_
  have hin : row.exported ∈ run.map fun a => a.row.exported := hmap ▸ List.mem_map_of_mem hrow
  obtain ⟨a, ha, he⟩ := List.mem_map.mp hin
  exact ⟨a, hsub ha, he⟩

end NetCoreNoc.Audit
