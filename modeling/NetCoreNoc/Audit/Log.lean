import Mathlib
import NetCoreNoc.Audit.Chain
import NetCoreNoc.Json.Whole
import NetCoreNoc.Sha256

/-! The audit log over runs of appends and prunes, and what its verification says of it. -/
namespace NetCoreNoc.Audit
open Json

/-- `<` of `double precision`: a NaN is above all others. -/
class DbOrder (F : Type) where
  lt : F → F → Bool

variable {F : Type}

section
variable [DbOrder F]

/-- What `prune_audit_log` leaves, in a transaction that another's newest rows have come before: these it has not
seen. -/
def delete_before (cutoff : F) (unseen : ℕ) : List (Row F) → List (Row F)
  | [] => []
  | row :: rows =>
    if unseen ≤ rows.length ∧ DbOrder.lt row.ts cutoff then delete_before cutoff unseen rows
    else row :: delete_before cutoff unseen rows

/-- The row at a place is older than the cutoff, and is seen. -/
def Old (cutoff : F) (unseen : ℕ) (rows : List (Row F)) (i : ℕ) : Prop :=
  i + unseen < rows.length ∧ ∃ row ∈ rows[i]?, DbOrder.lt row.ts cutoff

instance (cutoff : F) (unseen : ℕ) (rows : List (Row F)) : DecidablePred (Old cutoff unseen rows) := fun i =>
  inferInstanceAs (Decidable (i + unseen < rows.length ∧ ∃ row ∈ rows[i]?, DbOrder.lt row.ts cutoff))

variable {cutoff : F} {unseen : ℕ}

theorem old_cons (row : Row F) (rows : List (Row F)) (i : ℕ) :
    Old cutoff unseen (row :: rows) (i + 1) ↔ Old cutoff unseen rows i := by
  simp only [Old, List.length_cons, List.getElem?_cons_succ]
  exact and_congr_left' (by omega)

theorem old_zero (row : Row F) (rows : List (Row F)) :
    Old cutoff unseen (row :: rows) 0 ↔ unseen ≤ rows.length ∧ DbOrder.lt row.ts cutoff := by
  simp [Old]

theorem delete_before_nil {rows : List (Row F)} (h : ∀ i < rows.length, Old cutoff unseen rows i) :
    delete_before cutoff unseen rows = [] := by
  induction rows with
  | nil => rfl
  | cons row rows ih =>
    rw [delete_before, if_pos ((old_zero row rows).mp (h 0 (by simp)))]
    exact ih fun i hi => (old_cons row rows i).mp (h (i + 1) (by simpa using hi))

/-- Where every row behind an old one is old, the prune leaves a beginning. -/
theorem delete_before_isPrefix {rows : List (Row F)}
    (h : ∀ k < rows.length, ∀ j < k, Old cutoff unseen rows j → Old cutoff unseen rows k) :
    delete_before cutoff unseen rows <+: rows := by
  induction rows with
  | nil => exact List.prefix_rfl
  | cons row rows ih =>
    by_cases h0 : Old cutoff unseen (row :: rows) 0
    · have hall : ∀ i < (row :: rows).length, Old cutoff unseen (row :: rows) i := by
        intro i hi
        rcases Nat.eq_zero_or_pos i with rfl | hpos
        · exact h0
        · exact h i hi 0 hpos h0
      rw [delete_before_nil hall]
      exact List.nil_prefix
    · rw [delete_before, if_neg fun hc => h0 ((old_zero row rows).mpr hc)]
      refine List.prefix_cons_inj row |>.mpr (ih fun k hk j hj hold => ?_)
      exact (old_cons row rows k).mp (h (k + 1) (by simpa using hk) (j + 1) (by omega) ((old_cons row rows j).mpr hold))

theorem delete_before_isInfix {rows : List (Row F)} (h : ∀ k < rows.length, ∀ j < k, ∀ i < j,
    Old cutoff unseen rows j → Old cutoff unseen rows i ∨ Old cutoff unseen rows k) :
    delete_before cutoff unseen rows <:+: rows := by
  induction rows with
  | nil => exact List.infix_rfl
  | cons row rows ih =>
    by_cases h0 : Old cutoff unseen (row :: rows) 0
    · rw [delete_before, if_pos ((old_zero row rows).mp h0)]
      refine (ih fun k hk j hj i hi hold => ?_).trans (List.suffix_cons row rows).isInfix
      simpa only [old_cons] using
        h (k + 1) (by simpa using hk) (j + 1) (by omega) (i + 1) (by omega) ((old_cons row rows j).mpr hold)
    · rw [delete_before, if_neg fun hc => h0 ((old_zero row rows).mpr hc)]
      refine ((List.prefix_cons_inj row).mpr (delete_before_isPrefix fun k hk j hj hold => ?_)).isInfix
      rcases h (k + 1) (by simpa using hk) (j + 1) (by omega) 0 (by omega) ((old_cons row rows j).mpr hold) with h | h
      · exact absurd h h0
      · exact (old_cons row rows k).mp h

end

variable [PyFloat F] [PyOrder F]

def optionalDoc (c : Option Column) : Doc F := (c.map fun c => .str c.text).getD .null

/-- The canonical document of an entry, its details as a document. -/
def Entry.docs (e : Entry F) (details : Doc F) : List (Str × Doc F) :=
  [(lit "action", .str e.action.text), (lit "actor", .str e.actor.text), (lit "details", details), (lit "id", .int e.id),
    (lit "object_id", optionalDoc e.object_id), (lit "object_type", optionalDoc e.object_type),
    (lit "outcome", .str e.outcome.text), (lit "role", optionalDoc e.role), (lit "source_ip", optionalDoc e.source_ip),
    (lit "ts", .float e.ts)]

theorem optional_doc (c : Option Column) : (optional (F := F) c).doc = some (optionalDoc c) := by
  cases c <;> rfl

/-- The text that a row's hash commits to. -/
theorem canonical_eq (e : Entry F) : canonical e =
    if digitCount e.id ≤ MAX_STR_DIGITS then e.details.doc.map fun d => text (.obj (e.docs d)) else none := by
  by_cases hid : digitCount e.id ≤ MAX_STR_DIGITS
  · cases hd : e.details.doc with
    | none => simp [canonical, dumps, Value.doc, Entry.payload, entryDocs, optional_doc, hid, hd]
    | some d =>
      have hentries : entryDocs e.payload = some
          [(.str (lit "id"), .int e.id), (.str (lit "ts"), .float e.ts), (.str (lit "actor"), .str e.actor.text),
            (.str (lit "role"), optionalDoc e.role), (.str (lit "source_ip"), optionalDoc e.source_ip),
            (.str (lit "action"), .str e.action.text), (.str (lit "object_type"), optionalDoc e.object_type),
            (.str (lit "object_id"), optionalDoc e.object_id), (.str (lit "outcome"), .str e.outcome.text),
            (.str (lit "details"), d)] := by
        simp only [Entry.payload, entryDocs, Value.doc, optional_doc, hid, hd, if_true]
      rw [canonical, dumps, Value.doc, hentries, if_pos hid]
      rfl
  · simp [canonical, dumps, Value.doc, Entry.payload, entryDocs, hid]

/-- What `write_event` appended: to which newest row, with which details, and as which row. -/
structure Append (F : Type) where
  onto : Option (Row F)
  details : Value F
  row : Row F

section
variable (sha256 entry_mac : Str → Str)

structure Append.Made (a : Append F) : Prop where
  id : a.row.id = (a.onto.map Row.id).getD 0 + 1
  prev : a.row.prev_hash = (a.onto.map Row.entry_hash).getD GENESIS_HASH
  digits : digitCount a.row.id ≤ MAX_STR_DIGITS
  hash : ∃ d, a.details.doc = some d ∧ a.row.details = text d ∧
    a.row.entry_hash = sha256 (a.row.prev_hash ++ text (.obj ((a.row.entry a.details).docs d)))
  mac : a.row.mac = some (entry_mac a.row.entry_hash)

variable {sha256 entry_mac}

theorem write_event_made {rows : List (Row F)} {event : Event F} {row : Row F}
    (h : write_event sha256 entry_mac rows event = some row) : ∃ details, redact_details event.details = some details ∧
      (⟨rows.getLast?, .dict details, row⟩ : Append F).Made sha256 entry_mac := by
  simp only [write_event, Option.bind_eq_bind, Option.bind_eq_some_iff, canonical_eq] at h
  obtain ⟨details, hd, c, hc, stored, hs, hrow⟩ := h
  obtain rfl := Option.some.inj hrow
  split_ifs at hc with hid
  obtain ⟨d, hdoc, rfl⟩ := Option.map_eq_some_iff.mp hc
  obtain ⟨d', hdoc', rfl⟩ := Option.map_eq_some_iff.mp (show (Value.dict details).doc.map text = some stored from hs)
  obtain rfl : d = d' := Option.some.inj (hdoc.symm.trans hdoc')
  exact ⟨details, hd, rfl, rfl, hid, ⟨d, hdoc, rfl, rfl⟩, rfl⟩

end

/-- The steps of the transactions on the log, one transaction after the other, as the advisory lock lets them. -/
inductive AuditOp (F : Type) where
  | write (event : Event F)
  | prune (cutoff limit : F) (unseen : ℕ)
  | commit
  | rollback

/-- The rows that are committed, the rows as the open transaction sees them, and every row ever appended. -/
structure Log (F : Type) where
  rows : List (Row F) := []
  pending : List (Row F) := []
  appended : List (Append F) := []

section
variable [DbOrder F] (sha256 entry_mac : Str → Str)

/-- `prune_audit_log`, where `limit` is a day before the server's clock. -/
def prune_audit_log (rows : List (Row F)) (cutoff limit : F) (unseen : ℕ) : Option (List (Row F)) :=
  if DbOrder.lt limit cutoff then none else some (delete_before cutoff unseen rows)

/-- What raises rolls the transaction back. -/
def Log.step (s : Log F) : AuditOp F → Log F
  | .write event =>
    match write_event sha256 entry_mac s.pending event with
    | none => { s with pending := s.rows }
    | some row => { s with
      pending := s.pending ++ [row]
      appended := s.appended ++ [⟨s.pending.getLast?, .dict ((redact_details event.details).getD []), row⟩] }
  | .prune cutoff limit unseen => { s with pending := (prune_audit_log s.pending cutoff limit unseen).getD s.rows }
  | .commit => { s with rows := s.pending }
  | .rollback => { s with pending := s.rows }

/-- Details whose keys, read back, stand in every object in the order they are written in; and no row older than a
cutoff that stands between two that are not. -/
def Log.Orderly (s : Log F) : AuditOp F → Prop
  | .write event => ∀ d ∈ (redact_details event.details).bind fun l => (Value.dict l).doc, Steady d
  | .prune cutoff _ unseen => ∀ k < s.pending.length, ∀ j < k, ∀ i < j,
    Old cutoff unseen s.pending j → Old cutoff unseen s.pending i ∨ Old cutoff unseen s.pending k
  | _ => True

instance (s : Log F) : DecidablePred s.Orderly
  | .write event =>
    inferInstanceAs (Decidable (∀ d ∈ (redact_details event.details).bind fun l => (Value.dict l).doc, Steady d))
  | .prune cutoff _ unseen => inferInstanceAs (Decidable (∀ k < s.pending.length, ∀ j < k, ∀ i < j,
    Old cutoff unseen s.pending j → Old cutoff unseen s.pending i ∨ Old cutoff unseen s.pending k))
  | .commit | .rollback => .isTrue trivial

end

section
variable (sha256 entry_mac : Str → Str)

/-- A row that the chain may hold. -/
structure Row.Good (row : Row F) : Prop where
  checks : row.Checks sha256
  mac : row.mac = some (entry_mac row.entry_hash)
  positive : 1 ≤ row.id
  first : row.id = 1 → row.prev_hash = GENESIS_HASH

/-- Good rows, each on the one before. -/
structure Chained (rows : List (Row F)) : Prop where
  good : ∀ row ∈ rows, row.Good sha256 entry_mac
  linked : rows.IsChain fun a b => b.prev_hash = a.entry_hash

variable {sha256 entry_mac}

theorem Chained.accepts (sealed_from : Option ℤ) {w : Walk} {rows : List (Row F)}
    (h : Chained sha256 entry_mac rows) (hw : ∀ row ∈ rows.head?, w.checked ≠ 0 → row.prev_hash = w.prev_hash) :
    w.Accepts sha256 entry_mac sealed_from rows := by
  induction rows generalizing w with
  | nil => trivial
  | cons row rows ih =>
    obtain ⟨hrow, hgood⟩ := List.forall_mem_cons.mp h.good
    refine ⟨fun _ => hrow.first, hw row rfl, hrow.checks, fun _ => hrow.mac, ?_⟩
    refine ih ⟨hgood, h.linked.tail⟩ fun next hnext _ => ?_
    cases rows with
    | nil => cases hnext
    | cons b rows =>
      obtain rfl : b = next := Option.some.inj hnext
      exact (List.isChain_cons_cons.mp h.linked).1

variable [LawfulPyFloat F]

/-- A row whose details are steady reads as it was hashed. -/
theorem Append.Made.checks {a : Append F} (h : a.Made sha256 entry_mac) (hs : ∀ d, a.details.doc = some d → Steady d) :
    a.row.Checks sha256 := by
  obtain ⟨d, hd, hstored, hhash⟩ := h.hash
  have hfits := fits_doc a.details d hd
  obtain ⟨hback, htext⟩ := steady_back d hfits (hs d hd)
  have hloads : loads (F := F) a.row.details = some (back d) := hstored ▸ loads_text hfits
  have hsame : text (.obj ((a.row.entry (back d).value).docs (back d))) =
      text (.obj ((a.row.entry a.details).docs d)) := by
    simp only [Entry.docs, Row.entry, text, entriesText, htext]
  refine ⟨a.row.entry (back d).value, text (.obj ((a.row.entry (back d).value).docs (back d))), ?_, ?_, ?_⟩
  · rw [row_entry, hloads]
    rfl
  · rw [canonical_eq, if_pos (show digitCount (a.row.entry (back d).value).id ≤ MAX_STR_DIGITS from h.digits)]
    exact congrArg (Option.map _) hback
  · rw [hsame, hhash]

theorem Chained.write {rows : List (Row F)} (h : Chained sha256 entry_mac rows) {event : Event F} {row : Row F}
    (hw : write_event sha256 entry_mac rows event = some row)
    (hs : ∀ d ∈ (redact_details event.details).bind fun l => (Value.dict l).doc, Steady d) :
    Chained sha256 entry_mac (rows ++ [row]) := by
  obtain ⟨details, hd, hmade⟩ := write_event_made hw
  have hchecks : row.Checks sha256 := hmade.checks fun d hdoc => hs d (by rw [hd]; exact hdoc)
  have hlast : ∀ last ∈ rows.getLast?, 1 ≤ last.id := fun last hl => (h.good last (List.mem_of_getLast? hl)).positive
  have hid := hmade.id
  have hprev := hmade.prev
  refine ⟨fun r hr => ?_, List.isChain_append.mpr ⟨h.linked, .singleton row, fun a ha b hb => ?_⟩⟩
  · rcases List.mem_append.mp hr with hr | hr
    · exact h.good r hr
    · obtain rfl := List.mem_singleton.mp hr
      cases hl : rows.getLast? with
      | none =>
        simp only [hl, Option.map_none, Option.getD_none] at hid hprev
        exact ⟨hchecks, hmade.mac, by omega, fun _ => hprev⟩
      | some last =>
        have := hlast last hl
        simp only [hl, Option.map_some, Option.getD_some] at hid
        exact ⟨hchecks, hmade.mac, by omega, fun h1 => by omega⟩
  · obtain rfl : row = b := by simpa using hb
    simp only [Option.mem_def.mp ha, Option.map_some, Option.getD_some] at hprev
    exact hprev

omit [LawfulPyFloat F] in
theorem Chained.infix {rows l : List (Row F)} (h : Chained sha256 entry_mac rows) (hl : l <:+: rows) :
    Chained sha256 entry_mac l :=
  ⟨fun row hr => h.good row (hl.subset hr), h.linked.infix hl⟩

variable [DbOrder F]

/-- The committed rows and the open transaction's are chains. -/
theorem step_chained (s : Log F) (op : AuditOp F) (h : Chained sha256 entry_mac s.rows ∧ Chained sha256 entry_mac s.pending)
    (hg : s.Orderly op) : Chained sha256 entry_mac (s.step sha256 entry_mac op).rows ∧
      Chained sha256 entry_mac (s.step sha256 entry_mac op).pending := by
  obtain ⟨hrows, hpending⟩ := h
  cases op with
  | write event =>
    rw [Log.step]
    split
    · exact ⟨hrows, hrows⟩
    · next row hw => exact ⟨hrows, hpending.write hw hg⟩
  | prune cutoff limit unseen =>
    refine ⟨hrows, ?_⟩
    show Chained sha256 entry_mac ((prune_audit_log s.pending cutoff limit unseen).getD s.rows)
    unfold prune_audit_log
    split
    · exact hrows
    · exact hpending.infix (delete_before_isInfix hg)
  | commit => exact ⟨hpending, hpending⟩
  | rollback => exact ⟨hrows, hrows⟩

/-- Where details are steady and prunes leave no gap, the log verifies after any transactions. -/
theorem run_verifies (ops : List (AuditOp F)) (sealed_from : Option ℤ)
    (h : Runs.Meets (Log.step sha256 entry_mac) Log.Orderly {} ops) :
    ∃ r ∈ verify_rows sha256 entry_mac (Runs.run (Log.step sha256 entry_mac) {} ops).rows sealed_from, r.ok := by
  have hstart : Chained sha256 entry_mac ({} : Log F).rows ∧ Chained sha256 entry_mac ({} : Log F).pending :=
    ⟨⟨nofun, .nil⟩, ⟨nofun, .nil⟩⟩
  have hrun := Runs.run_invariant step_chained {} ops hstart h
  exact (Walk.verify_ok_iff _ _ sealed_from {} _).mpr (hrun.1.accepts sealed_from fun _ _ h0 => absurd rfl h0)

end

instance : DbOrder Whole where
  lt
    | .nan, _ => false
    | _, .nan => true
    | x, y => x.lt y

/-- A login at a time, with details. -/
def login (ts : ℤ) (details : List (Key Whole × Value Whole)) : Event Whole where
  ts := .whole ts
  actor := ⟨lit "cli", by decide +kernel⟩
  role := none
  source_ip := none
  action := ⟨lit "login.ok", by decide +kernel⟩
  outcome := .ok
  object_type := none
  object_id := none
  details := some details

/-- A seal of a hash under a key that is left out. -/
def keyed (entry_hash : Str) : Str := lit "mac:" ++ entry_hash

/-- Two processes write, one rolls back, and a prune takes the older row. -/
theorem run_verifies_pruned : ∃ r ∈ verify_rows Sha256.sha256 keyed (Runs.run (Log.step Sha256.sha256 keyed) {}
    [.write (login 50 []), .write (login 100 [(.str (lit "n"), .dict [(.int 2, .null), (.int 3, .null)])]), .commit,
      .write (login 60 []), .rollback, .prune (.whole 75) (.whole 90) 0, .write (login 110 []), .commit]).rows
      (some 1), r.ok :=
  run_verifies _ _ (by decide +kernel)

/-- The clock steps back, and the prune takes a row from the middle; and number keys are in order as numbers when
they are hashed, and as texts when they are read back. -/
theorem run_broken :
    ¬ (∃ r ∈ verify_rows Sha256.sha256 keyed (Runs.run (Log.step Sha256.sha256 keyed) {}
      [.write (login 100 []), .write (login 50 []), .write (login 100 []), .commit,
        .prune (.whole 75) (.whole 90) 0, .commit]).rows none, r.ok) ∧
    ¬ ∃ r ∈ verify_rows Sha256.sha256 keyed (Runs.run (Log.step Sha256.sha256 keyed) {}
      [.write (login 100 [(.str (lit "n"), .dict [(.int 2, .null), (.int 10, .null)])]), .commit]).rows none, r.ok := by
  decide +kernel

end NetCoreNoc.Audit
