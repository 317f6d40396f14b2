import Mathlib
import NetCoreNoc.Firsts
import NetCoreNoc.Json.Dumps
import NetCoreNoc.Noc.CircuitSheets

/-! What the import of a sheet keeps of its circuits, and on which texts it loses nothing. -/
namespace NetCoreNoc.Noc.Circuits
open Json Text Checks Firsts

/-! Cutting names -/

theorem put_nodup {α : Type} {d : List (Str × α)} (h : (d.map Prod.fst).Nodup) (k : Str) (v : α) :
    ((put d k v).map Prod.fst).Nodup := by
  unfold put
  split
  · have hkeys : (d.map fun e => if e.1 = k then (k, v) else e).map Prod.fst = d.map Prod.fst := by
      rw [List.map_map]
      refine List.map_congr_left fun e _ => ?_
      rw [Function.comp_apply]
      split_ifs with hk
      · exact hk.symm
      · rfl
    rwa [hkeys]
  · next hany =>
    rw [List.map_append]
    refine h.append (List.nodup_singleton k) (List.disjoint_singleton.mpr fun hk => hany ?_)
    obtain ⟨e, he, hek⟩ := List.mem_map.mp hk
    exact List.any_eq_true.mpr ⟨e, he, decide_eq_true hek⟩

theorem dict_nodup {α : Type} (l : List (Str × α)) : ((dict l).map Prod.fst).Nodup := by
  induction l using List.reverseRecOn with
  | nil => exact .nil
  | append_singleton l e ih =>
    rw [dict, List.foldl_append]
    exact put_nodup ih e.1 e.2

/-- Nothing is overwritten where the keys differ, and only there. -/
theorem dict_iff {α : Type} {l : List (Str × α)} : dict l = l ↔ (l.map Prod.fst).Nodup :=
  ⟨fun h => h ▸ dict_nodup l, dict_eq⟩

/-- Names and values without white space around them, and none of them empty. -/
def Trim (l : List (Str × Str)) : Prop := ∀ e ∈ l, (strip e.1 = e.1 ∧ e.1 ≠ []) ∧ strip e.2 = e.2 ∧ e.2 ≠ []

/-- Nothing but the front of names and values. -/
def fronts (name value : ℕ) (l : List (Str × Str)) : List (Str × Str) := l.map fun e => (e.1.take name, e.2.take value)

theorem short_ne {s : Str} (h : strip s = s) (hne : s ≠ []) {cap : ℕ} (hcap : cap ≠ 0) : short s cap ≠ [] := by
  rw [short, h]
  exact fun hnil => (List.take_eq_nil_iff.mp hnil).elim hcap hne

variable {l : List (Str × Str)}

theorem cut_trim (h : Trim l) (name value : ℕ) : l.map (cut name value) = fronts name value l := by
  refine List.map_congr_left fun e he => ?_
  obtain ⟨⟨hname, -⟩, hvalue, -⟩ := h e he
  rw [cut, short, short, hname, hvalue]

theorem trim_take (h : Trim l) (n : ℕ) : Trim (l.take n) := fun e he => h e (List.mem_of_mem_take he)

theorem fronts_keys (name value : ℕ) (l : List (Str × Str)) :
    (fronts name value l).map Prod.fst = l.map fun e => e.1.take name := by
  rw [fronts, List.map_map]
  rfl

/-- A cut dictionary has all that it is cut to where the cut names differ. -/
theorem cut_iff (h : Trim l) (keep : Str × Str → Bool) (hkeep : ∀ e ∈ l, keep e) (name value : ℕ) :
    dict ((l.filter keep).map (cut name value)) = fronts name value l ↔ (l.map fun e => e.1.take name).Nodup := by
  rw [List.filter_eq_self.mpr hkeep, cut_trim h, dict_iff, fronts_keys]

/-! What is kept of a circuit -/

/-- The first of all there is, cut, and everything under its own name. -/
structure Kept (c : Parsed) (k : Circuit) : Prop where
  fields : k.fields = FIELDS.map fun e => (e.1, ((c.fields.lookup e.1).getD []).take e.2.2)
  attributes : k.attributes = fronts 80 500 (c.attributes.take 60)
  path : k.path = c.path.map fun hop => ⟨hop.site.take 120, hop.segment.take 120, fronts 60 300 (hop.fields.take 30)⟩

/-- A circuit as a sheet gives it. -/
structure Clean (c : Parsed) : Prop where
  fields : ∀ e ∈ c.fields, strip e.2 = e.2
  attributes : Trim c.attributes
  site : ∀ hop ∈ c.path, strip hop.site = hop.site
  segment : ∀ hop ∈ c.path, strip hop.segment = hop.segment ∧ hop.segment ≠ []
  path : ∀ hop ∈ c.path, Trim hop.fields

/-- No two names that are kept agree where they are cut. -/
structure Distinct (c : Parsed) : Prop where
  attributes : ((c.attributes.take 60).map fun e => e.1.take 80).Nodup
  path : ∀ hop ∈ c.path, ((hop.fields.take 30).map fun e => e.1.take 60).Nodup

theorem strip_field {c : Parsed} (h : Clean c) (field : Field) :
    strip ((c.fields.lookup field).getD []) = (c.fields.lookup field).getD [] := by
  cases hlookup : c.fields.lookup field with
  | none => rfl
  | some v =>
    obtain ⟨before, after, heq, -⟩ := List.lookup_eq_some_iff.mp hlookup
    exact h.fields (field, v) (heq ▸ List.mem_append_right _ List.mem_cons_self)

theorem cleanHop_iff {hop : Hop} (hsite : strip hop.site = hop.site) (hsegment : strip hop.segment = hop.segment)
    (h : Trim hop.fields) :
    cleanHop hop = ⟨hop.site.take 120, hop.segment.take 120, fronts 60 300 (hop.fields.take 30)⟩ ↔
      ((hop.fields.take 30).map fun e => e.1.take 60).Nodup := by
  have htrim := trim_take h 30
  have hvalues : ∀ e ∈ hop.fields.take 30, decide (short e.2 300 ≠ []) = true := fun e he =>
    decide_eq_true (short_ne (htrim e he).2.1 (htrim e he).2.2 (by decide))
  rw [← cut_iff htrim _ hvalues 60 300, cleanHop, short, short, hsite, hsegment]
  simp

theorem kept_iff {c : Parsed} (h : Clean c) : Kept c (kept c) ↔ Distinct c := by
  have htrim := trim_take h.attributes 60
  have hnames : ∀ e ∈ c.attributes.take 60, decide (short e.1 80 ≠ []) = true := fun e he =>
    decide_eq_true (short_ne (htrim e he).1.1 (htrim e he).1.2 (by decide))
  have hattributes := cut_iff htrim _ hnames 80 500
  have hpath : (kept c).path = c.path.map cleanHop := by
    refine List.filter_eq_self.mpr fun hop hhop => ?_
    obtain ⟨hop, hmem, rfl⟩ := List.mem_map.mp hhop
    obtain ⟨hsegment, hne⟩ := h.segment hop hmem
    exact decide_eq_true (.inr (.inr (short_ne hsegment hne (by decide))))
  have hhop : ∀ hop ∈ c.path, _ := fun hop hhop => cleanHop_iff (h.site hop hhop) (h.segment hop hhop).1 (h.path hop hhop)
  constructor
  · rintro ⟨-, hkept, hhops⟩
    refine ⟨hattributes.mp hkept, fun hop hmem => (hhop hop hmem).mp ?_⟩
    rw [hpath] at hhops
    exact List.map_inj_left.mp hhops hop hmem
  · rintro ⟨hdistinct, hhops⟩
    refine ⟨?_, hattributes.mpr hdistinct, ?_⟩
    · refine List.map_congr_left fun e _ => ?_
      rw [short, strip_field h]
    · rw [hpath]
      exact List.map_congr_left fun hop hmem => (hhop hop hmem).mpr (hhops hop hmem)

theorem lookup_entries {α β : Type} (f : Field → α → β) (l : List (Field × α)) (field : Field) :
    (l.map fun e => (e.1, f e.1 e.2)).lookup field = (l.lookup field).map (f field) := by
  induction l with
  | nil => rfl
  | cons e l ih =>
    rw [List.map_cons, List.lookup_cons, List.lookup_cons]
    cases hkey : field == e.1 with
    | true =>
      rw [eq_of_beq hkey]
      rfl
    | false => exact ih

theorem kept_designation {c : Parsed} (h : Clean c) (hne : (c.fields.lookup .designation).getD [] ≠ []) :
    ((kept c).fields.lookup .designation).getD [] ≠ [] := by
  have hlookup : (kept c).fields.lookup .designation = some (short ((c.fields.lookup .designation).getD []) 200) := rfl
  rw [hlookup]
  exact short_ne (strip_field h _) hne (by decide)

/-- A circuit is refused over its hops, or over its size as it is kept. -/
def TooLarge (c : Parsed) : Prop := MAX_HOPS < c.path.length ∨ 96000 < (spaced [space] (kept c).document).length

theorem clean_ok {c : Parsed} {k : Circuit} (h : Clean c) (hne : (c.fields.lookup .designation).getD [] ≠ []) :
    clean c = .ok k ↔ ¬ TooLarge c ∧ k = kept c := by
  rw [clean, if_neg (kept_designation h hne), TooLarge, not_or]
  split_ifs with hhops hsize
  · simp [hhops]
  · simp [hsize]
  · simp [hhops, hsize, eq_comm]

theorem only_clean (c : Parsed) : Only (fun e => ∃ m, e = .CircuitError m) (clean c) := by
  unfold clean
  split_ifs
  · exact only_error ⟨_, rfl⟩
  · exact only_error ⟨_, rfl⟩
  · exact only_error ⟨_, rfl⟩
  · exact only_ok

/-! The rows of a sheet -/

variable [Python]

namespace Sheet
variable (sheet : Sheet)

/-- The first row of each designation, in the order of the sheet. -/
def imported (below : List (List Str)) : List (List Str) :=
  firsts sheet.designation (below.filter fun row => sheet.designation row ≠ [])

/-- The rows that are still to come, of circuits that are not there yet. -/
def fresh (seen : List Str) (rows : List (List Str)) : List (List Str) :=
  firsts sheet.designation (rows.filter fun row => sheet.designation row ≠ [] ∧ sheet.designation row ∉ seen)

theorem fresh_skip {seen : List Str} {row : List Str} (h : sheet.designation row = [] ∨ sheet.designation row ∈ seen)
    (rows : List (List Str)) : sheet.fresh seen (row :: rows) = sheet.fresh seen rows := by
  rw [fresh, List.filter_cons_of_neg (by simpa [imp_iff_not_or] using h)]
  rfl

theorem fresh_cons {seen : List Str} {row : List Str} (h : ¬ (sheet.designation row = [] ∨ sheet.designation row ∈ seen))
    (rows : List (List Str)) : sheet.fresh seen (row :: rows) = row :: sheet.fresh (sheet.designation row :: seen) rows := by
  rw [not_or] at h
  rw [fresh, List.filter_cons_of_pos (by simpa using h), firsts_cons, fresh,
    ← firsts_filter_key (fun d => decide (d ≠ sheet.designation row)), List.filter_filter]
  congr 3
  funext other
  simp only [List.mem_cons, not_or, Bool.decide_and]
  cases decide (sheet.designation other ≠ sheet.designation row) <;> simp

theorem collect_eq (rows : List (List Str)) : ∀ (seen : List Str) (circuits : List Parsed), circuits.length ≤ MAX_CIRCUITS →
    sheet.collect seen circuits rows =
      if MAX_CIRCUITS < circuits.length + (sheet.fresh seen rows).length then
        .error (.CircuitError (lit "more than 5000 circuits in one sheet"))
      else .ok (circuits ++ (sheet.fresh seen rows).map sheet.circuit) := by
  induction rows with
  | nil =>
    intro seen circuits hroom
    have hnone : sheet.fresh seen [] = [] := rfl
    rw [collect, hnone, List.length_nil, Nat.add_zero, if_neg (not_lt.mpr hroom), List.map_nil, List.append_nil]
  | cons row rows ih =>
    intro seen circuits hroom
    rw [collect]
    by_cases hskip : sheet.designation row = [] ∨ sheet.designation row ∈ seen
    · rw [if_pos hskip, fresh_skip sheet hskip]
      exact ih seen circuits hroom
    · rw [if_neg hskip, fresh_cons sheet hskip]
      have hlength : (circuits ++ [sheet.circuit row]).length = circuits.length + 1 := List.length_append
      by_cases hfull : MAX_CIRCUITS < (circuits ++ [sheet.circuit row]).length
      · rw [if_pos hfull, if_pos]
        rw [List.length_cons]
        omega
      · rw [if_neg hfull, ih _ _ (not_lt.mp hfull), hlength, List.length_cons, Nat.add_right_comm, ← Nat.add_assoc]
        simp

theorem collect_imported (below : List (List Str)) : sheet.collect [] [] below =
    if MAX_CIRCUITS < (sheet.imported below).length then .error (.CircuitError (lit "more than 5000 circuits in one sheet"))
    else .ok ((sheet.imported below).map sheet.circuit) := by
  have hfresh : sheet.fresh [] below = sheet.imported below := by simp [fresh, imported]
  rw [collect_eq sheet below [] [] (Nat.zero_le _), hfresh, List.length_nil, Nat.zero_add]
  rfl

theorem imported_designation {below : List (List Str)} {row : List Str} (h : row ∈ sheet.imported below) :
    sheet.designation row ≠ [] := by
  have hmem := (firsts_sublist _ _).subset h
  exact of_decide_eq_true (List.mem_filter.mp hmem).2

/-! A row of a sheet as a circuit -/

variable {sheet} (row : List Str)

omit [Python] in
theorem trim_numbered (h : Trim l) : Trim (numbered l) := by
  intro e he
  obtain ⟨d, hd, hvalue, hname⟩ := of_mem_right (numbered_each l) he
  obtain ⟨⟨hstrip, hne⟩, hfilled⟩ := h d hd
  rw [hvalue]
  refine ⟨?_, hfilled⟩
  rcases hname with hname | ⟨n, -, hname⟩
  · exact hname ▸ ⟨hstrip, hne⟩
  · exact hname ▸ ⟨strip_again hstrip hne n, List.append_ne_nil_of_right_ne_nil _ (List.cons_ne_nil _ _)⟩

theorem strip_cell (col : ℕ) : strip (cell row col) = cell row col := by
  unfold cell
  cases row[col]? with
  | none => rfl
  | some s => exact strip_value s

theorem trim_filled (h : sheet.Tidy) {cols : List ℕ} (hplain : ∀ col ∈ cols, sheet.plain col) :
    Trim (sheet.filled row cols) := by
  intro e he
  obtain ⟨hmem, hvalue⟩ := List.mem_filter.mp he
  obtain ⟨col, hcol, rfl⟩ := List.mem_map.mp hmem
  exact ⟨⟨h.name col, (plain_iff.mp (hplain col hcol)).2.1⟩, strip_cell row col, of_decide_eq_true hvalue⟩

/-- What a hop of a row is of. -/
theorem hops_group {hop : Hop} (hhop : hop ∈ sheet.hops row) : ∃ g ∈ sheet.layout.1, sheet.filled row g.cols ≠ [] ∧
    hop = ⟨g.site, g.segment, sheet.filled row g.cols⟩ := by
  obtain ⟨hmem, hfields⟩ := List.mem_filter.mp hhop
  obtain ⟨g, hg, rfl⟩ := List.mem_map.mp hmem
  have hjoined := sheet.laid_layout.joined g hg
  rw [numbered_filled row hjoined] at hfields ⊢
  exact ⟨g, hg, of_decide_eq_true hfields, rfl⟩

theorem clean_circuit (h : sheet.Tidy) : Clean (sheet.circuit row) := by
  have hgroup {g : Group} (hg : g ∈ sheet.layout.1) {col : ℕ} (hcol : col ∈ g.cols) :
      sheet.plain col ∧ sheet.segment col ≠ [] :=
    (mem_groups.mp (List.mem_flatMap.mpr ⟨g, hg, hcol⟩)).2
  have hband {g : Group} (hg : g ∈ sheet.layout.1) (hfilled : sheet.filled row g.cols ≠ []) :
      strip g.site = g.site ∧ strip g.segment = g.segment ∧ g.segment ≠ [] := by
    obtain ⟨e, he⟩ := List.exists_mem_of_ne_nil _ hfilled
    obtain ⟨col, hcol, -⟩ := List.mem_map.mp (List.mem_of_mem_filter he)
    obtain ⟨hsite, hsegment⟩ := (sheet.laid_layout.joined g hg).under col hcol
    exact ⟨hsite ▸ h.site col, hsegment ▸ h.segment col, hsegment ▸ (hgroup hg hcol).2⟩
  refine ⟨?_, ?_, ?_, ?_, ?_⟩
  · intro e he
    obtain ⟨f, -, rfl⟩ := List.mem_map.mp he
    exact strip_written f.1 (strip_cell row f.2)
  · exact trim_numbered (trim_filled row h fun col hcol => (mem_attributes.mp hcol).2.1)
  · intro hop hhop
    obtain ⟨g, hg, hfilled, rfl⟩ := hops_group row hhop
    exact (hband hg hfilled).1
  · intro hop hhop
    obtain ⟨g, hg, hfilled, rfl⟩ := hops_group row hhop
    exact (hband hg hfilled).2
  · intro hop hhop
    obtain ⟨g, hg, -, rfl⟩ := hops_group row hhop
    exact trim_filled row h fun col hcol => (hgroup hg hcol).1

variable (sheet) in
/-- Of the columns a row has something in, no two names that are kept agree where they are cut. -/
structure Apart : Prop where
  attributes : (((numbered (sheet.filled row sheet.layout.2)).take 60).map fun e => e.1.take 80).Nodup
  path : ∀ g ∈ sheet.layout.1, (((sheet.filled row g.cols).take 30).map fun e => e.1.take 60).Nodup

theorem apart_iff : sheet.Apart row ↔ Distinct (sheet.circuit row) := by
  constructor
  · rintro ⟨hattributes, hpath⟩
    refine ⟨hattributes, fun hop hhop => ?_⟩
    obtain ⟨g, hg, -, rfl⟩ := hops_group row hhop
    exact hpath g hg
  · rintro ⟨hattributes, hpath⟩
    refine ⟨hattributes, fun g hg => ?_⟩
    by_cases hfilled : sheet.filled row g.cols = []
    · rw [hfilled]
      exact .nil
    · have heq := numbered_filled row (sheet.laid_layout.joined g hg)
      refine hpath ⟨g.site, g.segment, sheet.filled row g.cols⟩ (List.mem_filter.mpr ⟨?_, decide_eq_true hfilled⟩)
      exact List.mem_map.mpr ⟨g, hg, by rw [heq]⟩

theorem circuit_designation (h : sheet.designation row ≠ []) :
    ((sheet.circuit row).fields.lookup .designation).getD [] ≠ [] := by
  rw [circuit, lookup_entries fun field col => written field (cell row col)]
  rw [designation] at h
  cases hlookup : sheet.fields.lookup .designation with
  | none => exact absurd (by rw [hlookup]; rfl) h
  | some col =>
    rw [hlookup] at h
    exact h

end Sheet

/-! A sheet -/

omit [Python] in
theorem circuit_error {m : Str} : ∃ m', Raised.CircuitError m = .CircuitError m' := ⟨m, rfl⟩

theorem only_sheet (rows : List (List Str)) : Only (fun e => ∃ m, e = .CircuitError m) (sheet_of rows) := by
  refine Only.bind ?_ fun header_at _ => ?_
  · unfold header_row
    split
    · exact only_ok
    · exact only_error circuit_error
  · dsimp only
    split
    · exact only_ok
    · exact only_error circuit_error

theorem only_table (rows : List (List Str)) : Only (fun e => ∃ m, e = .CircuitError m) (parse_table rows) := by
  refine (only_sheet rows).bind fun sheet _ => Only.bind ?_ fun circuits _ => ?_
  · rw [Sheet.collect_imported]
    split_ifs
    · exact only_error circuit_error
    · exact only_ok
  · split_ifs
    · exact only_error circuit_error
    · exact Only.each fun c _ => only_clean c

/-- What a sheet is refused for besides its header. -/
def Sheet.Refused (sheet : Sheet) (rows : List (List Str)) : Prop :=
  rows = [] ∨ MAX_CIRCUITS < rows.length ∨ ∃ row ∈ rows, TooLarge (sheet.circuit row)

theorem each_clean {sheet : Sheet} (h : sheet.Tidy) {rows : List (List Str)}
    (hrows : ∀ row ∈ rows, sheet.designation row ≠ []) :
    ∀ circuits : List Circuit, Checks.each clean (rows.map sheet.circuit) = .ok circuits ↔
      (∀ row ∈ rows, ¬ TooLarge (sheet.circuit row)) ∧ circuits = rows.map fun row => kept (sheet.circuit row) := by
  induction rows with
  | nil =>
    intro circuits
    simp [Checks.each, eq_comm]
  | cons row rows ih =>
    intro circuits
    obtain ⟨hrow, hrows⟩ := List.forall_mem_cons.mp hrows
    have hclean (c : Circuit) := clean_ok (k := c) (Sheet.clean_circuit row h) (Sheet.circuit_designation row hrow)
    simp only [List.map_cons, Checks.each, bind_ok, hclean, ih hrows, List.forall_mem_cons]
    constructor
    · rintro ⟨c, ⟨hsmall, rfl⟩, r, ⟨hall, rfl⟩, hr⟩
      exact ⟨⟨hsmall, hall⟩, (Except.ok.inj hr).symm⟩
    · rintro ⟨⟨hsmall, hall⟩, rfl⟩
      exact ⟨_, ⟨hsmall, rfl⟩, _, ⟨hall, rfl⟩, rfl⟩

theorem table_ok {rows : List (List Str)} {circuits : List Circuit} : parse_table rows = .ok circuits ↔
    ∃ sheet below, sheet_of rows = .ok (sheet, below) ∧ ¬ sheet.Refused (sheet.imported below) ∧
      circuits = (sheet.imported below).map fun row => kept (sheet.circuit row) := by
  simp only [parse_table, bind_ok, Prod.exists, Sheet.collect_imported]
  refine exists_congr fun sheet => exists_congr fun below => and_congr_right fun hsheet => ?_
  have hrows : ∀ row ∈ sheet.imported below, sheet.designation row ≠ [] := fun row hrow => sheet.imported_designation hrow
  have hclean := each_clean (tidy_sheet hsheet) hrows circuits
  rw [Sheet.Refused, not_or, not_or]
  by_cases hmany : MAX_CIRCUITS < (sheet.imported below).length
  · simp [hmany]
  · by_cases hnone : sheet.imported below = []
    · simp [hnone]
    · rw [if_neg hmany]
      constructor
      · rintro ⟨parsed, hparsed, hall⟩
        obtain rfl := Except.ok.inj hparsed
        rw [if_neg (mt List.map_eq_nil_iff.mp hnone), hclean] at hall
        refine ⟨⟨hnone, hmany, ?_⟩, hall.2⟩
        rintro ⟨row, hrow, hlarge⟩
        exact hall.1 row hrow hlarge
      · rintro ⟨⟨-, -, hsmall⟩, hcircuits⟩
        refine ⟨_, rfl, ?_⟩
        rw [if_neg (mt List.map_eq_nil_iff.mp hnone), hclean]
        exact ⟨fun row hrow hlarge => hsmall ⟨row, hrow, hlarge⟩, hcircuits⟩

/-- Every circuit is of the first row of its designation, with all that stands in the row. -/
def Faithful (rows : List (List Str)) (circuits : List Circuit) : Prop :=
  ∃ sheet below, sheet_of rows = .ok (sheet, below) ∧
    List.Forall₂ (fun row c => sheet.Placed row (sheet.circuit row) ∧ Kept (sheet.circuit row) c)
      (sheet.imported below) circuits

/-- A sheet is refused, or in none of its rows two names that are kept agree where they are cut. -/
def Safe (rows : List (List Str)) : Prop := ∀ sheet below, sheet_of rows = .ok (sheet, below) →
  sheet.Refused (sheet.imported below) ∨ ∀ row ∈ sheet.imported below, sheet.Apart row

theorem faithful_iff {rows below : List (List Str)} {sheet : Sheet} (h : sheet_of rows = .ok (sheet, below)) :
    Faithful rows ((sheet.imported below).map fun row => kept (sheet.circuit row)) ↔
      ∀ row ∈ sheet.imported below, sheet.Apart row := by
  have htidy := tidy_sheet h
  have hrow (row : List Str) : Kept (sheet.circuit row) (kept (sheet.circuit row)) ↔ sheet.Apart row :=
    (kept_iff (Sheet.clean_circuit row htidy)).trans (Sheet.apart_iff row).symm
  constructor
  · rintro ⟨sheet', below', h', hall⟩
    obtain ⟨rfl, rfl⟩ := Prod.mk.inj (Except.ok.inj (h.symm.trans h'))
    rw [List.forall₂_map_right_iff, List.forall₂_same] at hall
    exact fun row hmem => (hrow row).mp (hall row hmem).2
  · intro hall
    refine ⟨sheet, below, h, ?_⟩
    rw [List.forall₂_map_right_iff, List.forall₂_same]
    exact fun row hmem => ⟨Sheet.placed_circuit row htidy, (hrow row).mpr (hall row hmem)⟩

/-- A sheet is refused, or nothing of it is lost. -/
theorem table_iff (rows : List (List Str)) : ((∃ m, parse_table rows = .error (.CircuitError m)) ∨
    ∃ circuits, parse_table rows = .ok circuits ∧ Faithful rows circuits) ↔ Safe rows := by
  constructor
  · intro h sheet below hsheet
    refine or_iff_not_imp_left.mpr fun hrefused => ?_
    have hok := table_ok.mpr ⟨sheet, below, hsheet, hrefused, rfl⟩
    rcases h with ⟨m, hm⟩ | ⟨circuits, hcircuits, hfaithful⟩
    · exact nomatch hm.symm.trans hok
    · obtain rfl := Except.ok.inj (hcircuits.symm.trans hok)
      exact (faithful_iff hsheet).mp hfaithful
  · intro hsafe
    cases htable : parse_table rows with
    | error e =>
      obtain ⟨m, rfl⟩ := only_table rows e htable
      exact .inl ⟨m, rfl⟩
    | ok circuits =>
      obtain ⟨sheet, below, hsheet, hkept, rfl⟩ := table_ok.mp htable
      exact .inr ⟨_, rfl, (faithful_iff hsheet).mpr ((hsafe sheet below hsheet).resolve_left hkept)⟩

/-! A text -/

/-- `read_text_table` followed by `parse_table`. -/
def import_table (text : Str) : Except Raised (List Circuit) := read_text_table text >>= parse_table

/-- An import raises `CircuitError`, or loses nothing. -/
def Imports (text : Str) : Prop := (∃ m, import_table text = .error (.CircuitError m)) ∨
  ∃ rows circuits, read_text_table text = .ok rows ∧ import_table text = .ok circuits ∧ Faithful rows circuits

/-- A text is too long, or its lines are read and its sheet is safe. -/
def Readable (text : Str) : Prop := MAX_TABLE < text.length ∨ Csv.clear (delimiter text) .start_record 0 text ∧
  ∀ rows, Csv.reader (delimiter text) text = .ok rows → Safe rows

omit [Python] in
theorem delimiter_break (text : Str) : ¬ Csv.isBreak (delimiter text) := by
  unfold delimiter
  split_ifs
  · decide
  · decide

theorem import_faithful (text : Str) : Imports text ↔ Readable text := by
  by_cases hlong : MAX_TABLE < text.length
  · have hread : read_text_table text = .error (.CircuitError (lit "the table is larger than 4 MiB")) := if_pos hlong
    refine iff_of_true (.inl ⟨lit "the table is larger than 4 MiB", ?_⟩) (.inl hlong)
    rw [import_table, hread]
    rfl
  · have hclear := Csv.reader_iff (delimiter_break text) text
    have hread : read_text_table text = (Csv.reader (delimiter text) text).mapError .csv_Error := if_neg hlong
    rw [Readable, or_iff_right hlong, ← hclear]
    cases hrows : Csv.reader (delimiter text) text with
    | error e =>
      rw [hrows] at hread
      refine iff_of_false ?_ fun h => nomatch h.1
      rintro (⟨m, hm⟩ | ⟨rows, circuits, hok, -⟩)
      · rw [import_table, hread] at hm
        exact nomatch hm
      · exact nomatch hread.symm.trans hok
    | ok rows =>
      rw [hrows] at hread
      have himport : import_table text = parse_table rows := by
        rw [import_table, hread]
        rfl
      rw [Imports, himport, hread]
      constructor
      · rintro h
        refine ⟨⟨rows, rfl⟩, fun rows' hrows' => ?_⟩
        obtain rfl := Except.ok.inj hrows'
        refine (table_iff rows).mp (h.imp_right ?_)
        rintro ⟨rows', circuits, hrows', hok, hfaithful⟩
        obtain rfl : rows = rows' := Except.ok.inj hrows'
        exact ⟨circuits, hok, hfaithful⟩
      · rintro ⟨-, hsafe⟩
        refine ((table_iff rows).mpr (hsafe rows rfl)).imp_right ?_
        rintro ⟨circuits, hok, hfaithful⟩
        exact ⟨rows, circuits, rfl, hok, hfaithful⟩

omit [Python]

/-- Lower case of the Latin letters. -/
@[reducible] def latin : Python where
  lower s := s.map fun c => if chr 'A' ≤ c ∧ c ≤ chr 'Z' then c + 32 else c

/-- A carriage return in the middle of a line. -/
def returned : Str := lit "Circuit\nC1\rC2"

/-- A name of 80 characters and one more. -/
def long (c : CodePoint) : Str := List.replicate 80 (chr 'x') ++ [c]

/-- Two columns that differ behind their first 80 characters. -/
def alike : Str := lit "Circuit," ++ long (chr '1') ++ lit "," ++ long (chr '2') ++ lit "\nC1,here,there"

theorem not_imported : ¬ @Imports latin returned ∧ ¬ @Imports latin alike := by
  let _ : Python := latin
  constructor
  · have hread : read_text_table returned = .error (.csv_Error .new_line_in_unquoted_field) := by decide +kernel
    rintro (⟨m, hm⟩ | ⟨rows, circuits, hrows, -⟩)
    · rw [import_table, hread] at hm
      exact nomatch hm
    · exact nomatch hread.symm.trans hrows
  · let row : List Str := [lit "C1", lit "here", lit "there"]
    let header : List Str := [lit "Circuit", long (chr '1'), long (chr '2')]
    let sheet : Sheet := ⟨header, [[], [], []], [[], [], []], [(.designation, 0)]⟩
    have hread : read_text_table alike = .ok [header, row] := by decide +kernel
    have hsheet : sheet_of [header, row] = .ok (sheet, [row]) := by decide +kernel
    have hfirst : sheet.imported [row] = [row] := by decide +kernel
    have htable : import_table alike = .ok [kept (sheet.circuit row)] := by decide +kernel
    have hlost : (kept (sheet.circuit row)).attributes ≠ fronts 80 500 ((sheet.circuit row).attributes.take 60) := by
      decide +kernel
    rintro (⟨m, hm⟩ | ⟨rows, circuits, hrows, hcircuits, sheet', below, hsheet', hall⟩)
    · exact nomatch htable.symm.trans hm
    · obtain rfl := Except.ok.inj (hread.symm.trans hrows)
      obtain rfl := Except.ok.inj (htable.symm.trans hcircuits)
      obtain ⟨rfl, rfl⟩ := Prod.mk.inj (Except.ok.inj (hsheet.symm.trans hsheet'))
      rw [hfirst] at hall
      exact hlost ((List.forall₂_cons.mp hall).1.2.attributes)

end NetCoreNoc.Noc.Circuits
