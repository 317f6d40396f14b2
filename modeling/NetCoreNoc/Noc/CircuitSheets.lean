import Mathlib
import NetCoreNoc.Firsts
import NetCoreNoc.Noc.Circuits

/-! Where the cells of a sheet of circuits go: each that holds something to one place in the circuit of its row. -/
namespace NetCoreNoc.Noc.Circuits
open Json Text Checks Firsts

/-! Texts without white space around them -/

theorem strip_ends {s : Str} (hhead : ∀ c ∈ s.head?, ¬ isWhite c) (hlast : ∀ c ∈ s.getLast?, ¬ isWhite c) : strip s = s := by
  have hdrop : s.dropWhile isWhite = s := by
    cases s with
    | nil => rfl
    | cons c s => exact List.dropWhile_cons_of_neg (hhead c rfl)
  rw [strip, hdrop]
  exact List.rdropWhile_eq_self_iff.mpr fun hne => hlast _ (List.getLast?_eq_some_getLast hne)

theorem strip_solid {s : Str} (h : ∀ c ∈ s, ¬ isWhite c) : strip s = s :=
  strip_ends (fun c hc => h c (List.mem_of_mem_head? hc)) fun c hc => h c (List.mem_of_mem_getLast? hc)

/-- A word: something, and no white space. -/
def Solid (w : Str) : Prop := w ≠ [] ∧ ∀ c ∈ w, ¬ isWhite c

theorem solid_splitFrom (s : Str) : ∀ o : Option Str, (∀ w ∈ o, Solid w) → ∀ w ∈ splitFrom o s, Solid w := by
  induction s with
  | nil =>
    intro o ho w hw
    cases o with
    | none => exact absurd hw List.not_mem_nil
    | some v => exact List.mem_singleton.mp hw ▸ ho v rfl
  | cons c s ih =>
    intro o ho w hw
    cases o with
    | none =>
      rw [splitFrom] at hw
      split at hw
      · exact ih none nofun w hw
      · next hc =>
        refine ih (some [c]) (fun v hv => ?_) w hw
        obtain rfl := Option.some.inj hv
        exact ⟨List.cons_ne_nil _ _, fun d hd => List.mem_singleton.mp hd ▸ hc⟩
    | some v =>
      rw [splitFrom] at hw
      have hv := ho v rfl
      split at hw
      · rcases List.mem_cons.mp hw with rfl | hw
        · exact hv
        · exact ih none nofun w hw
      · next hc =>
        refine ih (some (v ++ [c])) (fun u hu => ?_) w hw
        obtain rfl := Option.some.inj hu
        refine ⟨fun h => hv.1 (List.append_eq_nil_iff.mp h).1, fun d hd => ?_⟩
        rcases List.mem_append.mp hd with hd | hd
        · exact hv.2 d hd
        · exact List.mem_singleton.mp hd ▸ hc

theorem intercalate_ends {l : List Str} (h : ∀ w ∈ l, Solid w) : (l ≠ [] → [space].intercalate l ≠ []) ∧
    (∀ c ∈ ([space].intercalate l).head?, ¬ isWhite c) ∧ ∀ c ∈ ([space].intercalate l).getLast?, ¬ isWhite c := by
  induction l with
  | nil => exact ⟨fun hne => absurd rfl hne, nofun, nofun⟩
  | cons w l ih =>
    obtain ⟨hw, hl⟩ := List.forall_mem_cons.mp h
    have hwhead (c : CodePoint) (hc : c ∈ w.head?) : ¬ isWhite c := hw.2 c (List.mem_of_mem_head? hc)
    cases l with
    | nil =>
      have hone : [space].intercalate [w] = w := List.intercalate_singleton
      rw [hone]
      exact ⟨fun _ => hw.1, hwhead, fun c hc => hw.2 c (List.mem_of_mem_getLast? hc)⟩
    | cons v l =>
      obtain ⟨hne, -, hlast⟩ := ih hl
      rw [List.intercalate_cons_cons]
      refine ⟨fun _ hnil => hw.1 (List.append_eq_nil_iff.mp (List.append_eq_nil_iff.mp hnil).1).1, ?_, ?_⟩
      · rw [List.append_assoc, List.head?_append_of_ne_nil _ hw.1]
        exact hwhead
      · rw [List.getLast?_append_of_ne_nil _ (hne (List.cons_ne_nil v l))]
        exact hlast

theorem strip_joined (s : Str) : strip (joined s) = joined s := by
  obtain ⟨-, hhead, hlast⟩ := intercalate_ends (solid_splitFrom s none nofun)
  exact strip_ends hhead hlast

theorem solid_digits (n : ℕ) : Solid (natText n) := by
  have hdigit {c : CodePoint} (h : isDigit c) : ¬ isWhite c := by
    simp only [isDigit, decide_eq_true_eq] at h
    simp only [isWhite, SPACES, List.any_cons, List.any_nil, Bool.or_false, Bool.or_eq_true, decide_eq_true_eq]
    omega
  rcases natText_cases n with ⟨-, h⟩ | ⟨c, r, h, hc, -, hall⟩
  · rw [h]
    exact ⟨List.cons_ne_nil _ _, fun c hc => List.mem_singleton.mp hc ▸ hdigit (by decide)⟩
  · rw [h]
    exact ⟨List.cons_ne_nil _ _, fun d hd => hdigit ((List.mem_cons.mp hd).elim (fun h => h ▸ hc) (hall d))⟩

theorem head_stripped {s : Str} (h : strip s = s) : ∀ c ∈ s.head?, ¬ isWhite c := by
  cases s with
  | nil => exact nofun
  | cons c s =>
    intro d hd hwhite
    obtain rfl : c = d := Option.some.inj hd
    have hshort : (strip (c :: s)).length ≤ s.length := by
      rw [strip, List.dropWhile_cons_of_pos hwhite]
      exact (List.rdropWhile_prefix isWhite _).length_le.trans (List.dropWhile_suffix isWhite).length_le
    rw [h] at hshort
    exact absurd hshort (Nat.not_succ_le_self _)

theorem strip_again {name : Str} (h : strip name = name) (hne : name ≠ []) (n : ℕ) :
    strip (again name n) = again name n := by
  have hdigits := solid_digits n
  refine strip_ends (fun c hc => ?_) fun c hc => ?_
  · rw [again, List.head?_append_of_ne_nil _ hne] at hc
    exact head_stripped h c hc
  · have hsplit : again name n = (name ++ [space]) ++ natText n := by simp [again]
    rw [hsplit, List.getLast?_append_of_ne_nil _ hdigits.1] at hc
    exact hdigits.2 c (List.mem_of_mem_getLast? hc)

theorem strip_isoformat (days : ℕ) : strip (isoformat days) = isoformat days := by
  refine strip_solid fun c hc => ?_
  have hpadded {width n : ℕ} (h : c ∈ padded width n) : ¬ isWhite c := by
    rcases List.mem_append.mp h with h | h
    · rw [List.eq_of_mem_replicate h]
      decide
    · exact (solid_digits n).2 c h
  have hminus : ¬ isWhite (chr '-') := by decide
  simp only [isoformat, List.mem_append, List.mem_cons] at hc
  rcases hc with (hc | rfl | hc) | rfl | hc
  · exact hpadded hc
  · exact hminus
  · exact hpadded hc
  · exact hminus
  · exact hpadded hc

theorem strip_written (field : Field) {v : Str} (h : strip v = v) : strip (written field v) = written field v := by
  unfold written date
  split
  · split
    · exact h
    · split
      · exact strip_isoformat _
      · exact h
  · exact h

theorem written_ne (field : Field) {v : Str} (h : v ≠ []) : written field v ≠ [] := by
  unfold written date
  split
  · split
    · exact h
    · split
      · exact List.append_ne_nil_of_right_ne_nil _ (List.cons_ne_nil _ _)
      · exact h
  · exact h

/-! Numbered names -/

/-- A name as it is, or with a number behind it. -/
def Numbered (name key : Str) : Prop := key = name ∨ ∃ n, 2 ≤ n ∧ key = again name n

theorem again_inj {name : Str} {m n : ℕ} (h : again name m = again name n) : m = n := by
  have hdigits : natText m = natText n := (List.cons.inj (List.append_cancel_left h)).2
  rw [← toNat_natText m, hdigits, toNat_natText]

theorem again_ne (name : Str) (n : ℕ) : again name n ≠ name := fun h => by
  have hlength := congrArg List.length h
  rw [again, List.length_append, List.length_cons] at hlength
  omega

/-- More names to choose from than are taken. -/
theorem choices_nodup (name : Str) (k : ℕ) : (name :: (List.range k).map fun n => again name (n + 2)).Nodup := by
  refine List.nodup_cons.mpr ⟨fun h => ?_, ?_⟩
  · obtain ⟨n, -, hn⟩ := List.mem_map.mp h
    exact again_ne name _ hn
  · refine List.Nodup.map (fun m n h => ?_) List.nodup_range
    exact Nat.add_right_cancel (again_inj h)

theorem unused_spec (taken : List Str) (name : Str) : unused taken name ∉ taken ∧ Numbered name (unused taken name) := by
  obtain ⟨key, hkey⟩ : ∃ key, ((name :: (List.range taken.length).map fun n => again name (n + 2)).find? fun key =>
      key ∉ taken) = some key := by
    refine Option.ne_none_iff_exists'.mp fun h => ?_
    have hall : (name :: (List.range taken.length).map fun n => again name (n + 2)) ⊆ taken := fun key hkey => by
      simpa using List.find?_eq_none.mp h key hkey
    have hlength := ((choices_nodup name taken.length).subperm hall).length_le
    rw [List.length_cons, List.length_map, List.length_range] at hlength
    exact absurd hlength (Nat.not_succ_le_self _)
  have hunused : unused taken name = key := by rw [unused, hkey]; rfl
  rw [hunused]
  refine ⟨by simpa using List.find?_some hkey, ?_⟩
  rcases List.mem_cons.mp (List.mem_of_find?_eq_some hkey) with h | h
  · exact .inl h
  · obtain ⟨n, -, hn⟩ := List.mem_map.mp h
    exact .inr ⟨n + 2, Nat.le_add_left 2 n, hn.symm⟩

theorem unused_eq {taken : List Str} {name : Str} (h : name ∉ taken) : unused taken name = name := by
  rw [unused, List.find?_cons_of_pos (p := fun key => decide (key ∉ taken)) (decide_eq_true h)]
  rfl

theorem numbered_concat (l : List (Str × Str)) (e : Str × Str) :
    numbered (l ++ [e]) = numbered l ++ [(unused ((numbered l).map Prod.fst) e.1, e.2)] := by
  rw [numbered, List.foldl_append]
  rfl

theorem numbered_nodup (l : List (Str × Str)) : ((numbered l).map Prod.fst).Nodup := by
  induction l using List.reverseRecOn with
  | nil => exact .nil
  | append_singleton l e ih =>
    rw [numbered_concat, List.map_append]
    refine ih.append (List.nodup_singleton _) ?_
    exact List.disjoint_singleton.mpr (unused_spec _ e.1).1

/-- Every value stands once, under its name. -/
theorem numbered_each (l : List (Str × Str)) : List.Forall₂ (fun e d => d.2 = e.2 ∧ Numbered e.1 d.1) l (numbered l) := by
  induction l using List.reverseRecOn with
  | nil => exact .nil
  | append_singleton l e ih =>
    rw [numbered_concat]
    exact List.rel_append ih (.cons ⟨rfl, (unused_spec _ e.1).2⟩ .nil)

theorem numbered_eq {l : List (Str × Str)} (h : (l.map Prod.fst).Nodup) : numbered l = l := by
  induction l using List.reverseRecOn with
  | nil => rfl
  | append_singleton l e ih =>
    rw [List.map_append] at h
    have hl : numbered l = l := ih h.of_append_left
    have hnew : e.1 ∉ l.map Prod.fst := fun hmem => List.disjoint_of_nodup_append h hmem List.mem_cons_self
    rw [numbered_concat, hl, unused_eq hnew]

variable [Python]

theorem strip_value (s : Str) : strip (value s) = value s := by
  dsimp only [value]
  split
  · rfl
  · exact strip_strip _

/-! Where the columns go -/

namespace Sheet
variable (sheet : Sheet)

/-- One site and segment over all columns of a group, and no name twice. -/
structure Joined (g : Group) : Prop where
  under : ∀ col ∈ g.cols, sheet.site col = g.site ∧ sheet.segment col = g.segment
  names : (g.cols.map sheet.name).Nodup

omit [Python] in
theorem grouped_spec {groups : List Group} (h : ∀ g ∈ groups, sheet.Joined g) (col : ℕ) :
    (∀ g ∈ sheet.grouped groups col, sheet.Joined g) ∧
      (sheet.grouped groups col).flatMap Group.cols = groups.flatMap Group.cols ++ [col] := by
  have hone : sheet.Joined ⟨sheet.site col, sheet.segment col, [col]⟩ :=
    ⟨fun c hc => List.mem_singleton.mp hc ▸ ⟨rfl, rfl⟩, List.nodup_singleton _⟩
  rcases List.eq_nil_or_concat groups with rfl | ⟨init, last, rfl⟩
  · exact ⟨fun g hg => List.mem_singleton.mp hg ▸ hone, rfl⟩
  · rw [List.concat_eq_append] at h ⊢
    rw [grouped, List.getLast?_concat]
    dsimp only
    split
    · next hjoins =>
      simp only [joins, Bool.decide_and, Bool.and_eq_true, decide_eq_true_eq] at hjoins
      obtain ⟨hsite, hsegment, hname⟩ := hjoins
      rw [List.dropLast_concat]
      have hlast := h last (by simp)
      refine ⟨fun g hg => ?_, by simp⟩
      rcases List.mem_append.mp hg with hg | hg
      · exact h g (by simp [hg])
      · obtain rfl := List.mem_singleton.mp hg
        refine ⟨fun c hc => ?_, ?_⟩
        · rcases List.mem_append.mp hc with hc | hc
          · exact hlast.under c hc
          · obtain rfl := List.mem_singleton.mp hc
            exact ⟨hsite.symm, hsegment.symm⟩
        · rw [List.map_append]
          exact hlast.names.append (List.nodup_singleton _) (List.disjoint_singleton.mpr hname)
    · refine ⟨fun g hg => ?_, by simp⟩
      rcases List.mem_append.mp hg with hg | hg
      · exact h g hg
      · exact List.mem_singleton.mp hg ▸ hone

/-- Groups and attributes hold the columns each once and in order. -/
structure Laid (cols : List ℕ) (s : List Group × List ℕ) : Prop where
  attributes : s.2 = cols.filter fun col => sheet.plain col ∧ sheet.segment col = []
  groups : s.1.flatMap Group.cols = cols.filter fun col => sheet.plain col ∧ sheet.segment col ≠ []
  joined : ∀ g ∈ s.1, sheet.Joined g

theorem laid_place {cols : List ℕ} {s : List Group × List ℕ} (h : sheet.Laid cols s) (col : ℕ) :
    sheet.Laid (cols ++ [col]) (sheet.place s col) := by
  have hgrouped := sheet.grouped_spec h.joined col
  unfold place
  by_cases hplain : sheet.plain col
  · by_cases hsegment : sheet.segment col = []
    · rw [if_pos hplain, if_pos hsegment]
      exact ⟨by simp [h.attributes, hplain, hsegment], by simp [h.groups, hsegment], h.joined⟩
    · rw [if_pos hplain, if_neg hsegment]
      refine ⟨by simp [h.attributes, hsegment], ?_, hgrouped.1⟩
      simp [hgrouped.2, h.groups, hplain, hsegment]
  · rw [if_neg hplain]
    exact ⟨by simp [h.attributes, hplain], by simp [h.groups, hplain], h.joined⟩

theorem laid_layout : sheet.Laid (List.range sheet.header.length) sheet.layout := by
  suffices hlaid : ∀ cols, sheet.Laid cols (cols.foldl sheet.place ([], [])) from hlaid _
  intro cols
  induction cols using List.reverseRecOn with
  | nil => exact ⟨rfl, rfl, nofun⟩
  | append_singleton cols col ih =>
    rw [List.foldl_append]
    exact sheet.laid_place ih col

end Sheet

/-! The columns of the fields -/

omit [Python] in
theorem column_spec {names : List Str} {taken : List (Field × ℕ)} {name : Str} {col : ℕ}
    (h : column names taken name = some col) : names.getD col [] = name ∧ col ∉ taken.map Prod.snd := by
  simpa using List.find?_some (p := fun col => decide (names.getD col [] = name ∧ col ∉ taken.map Prod.snd)) h

theorem recognised_cases (header : List Str) (taken : List (Field × ℕ)) (e : Field × List Str) :
    recognised header taken e = taken ∨
      ∃ col, col ∉ taken.map Prod.snd ∧ recognised header taken e = taken ++ [(e.1, col)] := by
  unfold recognised
  split
  · next col h =>
    obtain ⟨name, -, hname⟩ := List.exists_of_findSome?_eq_some h
    exact .inr ⟨col, (column_spec hname).2, rfl⟩
  · exact .inl rfl

theorem recognised_nodup (header : List Str) (l : List (Field × List Str)) : ∀ taken : List (Field × ℕ),
    (taken.map Prod.fst ++ l.map Prod.fst).Nodup → (taken.map Prod.snd).Nodup →
      ((l.foldl (recognised header) taken).map Prod.fst).Nodup ∧
        ((l.foldl (recognised header) taken).map Prod.snd).Nodup := by
  induction l with
  | nil => exact fun taken hfields hcols => ⟨hfields.of_append_left, hcols⟩
  | cons e l ih =>
    intro taken hfields hcols
    rw [List.foldl_cons]
    rw [List.map_cons] at hfields
    rcases recognised_cases header taken e with h | ⟨col, hcol, h⟩
    · rw [h]
      exact ih taken (hfields.sublist (List.sublist_cons_self _ _ |>.append_left _)) hcols
    · rw [h]
      refine ih _ ?_ ?_
      · simpa using hfields
      · rw [List.map_append]
        exact hcols.append (List.nodup_singleton _) (List.disjoint_singleton.mpr hcol)

theorem columns_nodup (header : List Str) : ((columns header).map Prod.fst).Nodup ∧ ((columns header).map Prod.snd).Nodup :=
  recognised_nodup header ALIASES [] (by decide) .nil

/-! What a sheet is read as -/

omit [Python] in
theorem strip_getD {l : List Str} (h : ∀ s ∈ l, strip s = s) (col : ℕ) : strip (l.getD col []) = l.getD col [] := by
  rw [List.getD_eq_getElem?_getD]
  cases hget : l[col]? with
  | none => rfl
  | some s => exact h s (List.mem_of_getElem? hget)

omit [Python] in
theorem strip_carried {row : List Str} : ∀ {current : Str}, strip current = current → (∀ s ∈ row, strip s = s) →
    ∀ s ∈ carried current row, strip s = s := by
  induction row with
  | nil => exact fun _ _ s hs => absurd hs List.not_mem_nil
  | cons cell row ih =>
    intro current hcurrent hrow s hs
    obtain ⟨hcell, hrow⟩ := List.forall_mem_cons.mp hrow
    have hnext : strip (if cell = [] then current else cell) = if cell = [] then current else cell := by
      split
      · exact hcurrent
      · exact hcell
    rcases List.mem_cons.mp hs with rfl | hs
    · exact hnext
    · exact ih hnext hrow s hs

omit [Python] in
theorem strip_bands {rows : List (List Str)} {header width : ℕ} :
    ∀ band ∈ bands rows header width, ∀ s ∈ band, strip s = s := by
  intro band hband
  obtain ⟨row, hrow, rfl⟩ := List.mem_map.mp hband
  have hcells : ∀ s ∈ row, strip s = s := by
    have hmem := List.mem_of_mem_filter (List.mem_of_mem_take (List.mem_reverse.mp hrow))
    obtain ⟨cells, -, rfl⟩ := List.mem_map.mp hmem
    intro s hs
    obtain ⟨cell, -, rfl⟩ := List.mem_map.mp hs
    exact strip_joined cell
  refine strip_carried rfl fun s hs => ?_
  obtain ⟨col, -, rfl⟩ := List.mem_map.mp hs
  exact strip_getD hcells col

omit [Python] in
theorem headD_mem (l : List (List Str)) (a : List Str) : l.headD a ∈ a :: l := by
  cases l with
  | nil => exact List.mem_cons_self
  | cons b l => exact List.mem_cons_of_mem a List.mem_cons_self

omit [Python] in
theorem strip_band {bands : List (List Str)} {other band : List Str} (h : ∀ band ∈ bands, ∀ s ∈ band, strip s = s)
    (hother : ∀ s ∈ other, strip s = s) (hband : band ∈ other :: bands) : ∀ s ∈ band, strip s = s :=
  (List.mem_cons.mp hband).elim (fun heq => heq ▸ hother) (h band)

/-- The names stand without white space around them, and each column is of one field at most. -/
structure Sheet.Tidy (sheet : Sheet) : Prop where
  name : ∀ col, strip (sheet.name col) = sheet.name col
  site : ∀ col, strip (sheet.site col) = sheet.site col
  segment : ∀ col, strip (sheet.segment col) = sheet.segment col
  fields : (sheet.fields.map Prod.fst).Nodup
  cols : (sheet.fields.map Prod.snd).Nodup
  designation : Field.designation ∈ sheet.fields.map Prod.fst

theorem tidy_sheet {rows below : List (List Str)} {sheet : Sheet} (h : sheet_of rows = .ok (sheet, below)) : sheet.Tidy := by
  simp only [sheet_of, bind_ok] at h
  obtain ⟨header_at, -, h⟩ := h
  split at h
  · next hdesignation =>
    obtain ⟨rfl, rfl⟩ := Prod.mk.inj (Except.ok.inj h)
    have hnone (width : ℕ) : ∀ s ∈ List.replicate width ([] : Str), strip s = s := fun s hs =>
      List.eq_of_mem_replicate hs ▸ rfl
    refine ⟨strip_getD fun s hs => ?_, strip_getD ?_, strip_getD ?_, (columns_nodup _).1, (columns_nodup _).2, hdesignation⟩
    · rcases List.mem_append.mp hs with hs | hs
      · obtain ⟨cell, -, rfl⟩ := List.mem_map.mp hs
        exact strip_joined cell
      · exact hnone _ s hs
    · split
      · exact strip_band strip_bands (fun s hs => absurd hs List.not_mem_nil) (headD_mem _ _)
      · exact hnone _
    · exact strip_band strip_bands (hnone _) List.getLastD_mem_cons
  · cases h

/-! Where each cell of a row goes -/

/-- What a circuit holds, one value at a time. -/
inductive Entry where
  | field (field : Field) (value : Str)
  | attribute (name value : Str)
  | hop (site segment name value : Str)

def Parsed.entries (c : Parsed) : List Entry :=
  ((c.fields.filter (·.2 ≠ [])).map fun e => .field e.1 e.2) ++ (c.attributes.map fun e => .attribute e.1 e.2) ++
    c.path.flatMap fun hop => hop.fields.map fun e => .hop hop.site hop.segment e.1 e.2

namespace Sheet
variable (sheet : Sheet)

/-- A column with a name that does not only number the rows. -/
def Named (col : ℕ) : Prop := sheet.name col ≠ [] ∧ norm (sheet.name col) ∉ SERIAL

/-- The entry of a column: as its field, as an attribute, or in a hop of its site and segment. -/
def Holds (row : List Str) (col : ℕ) : Entry → Prop
  | .field field v => (field, col) ∈ sheet.fields ∧ v = written field (cell row col)
  | .attribute name v => sheet.plain col ∧ sheet.segment col = [] ∧ Numbered (sheet.name col) name ∧ v = cell row col
  | .hop site segment name v => sheet.plain col ∧ sheet.segment col ≠ [] ∧ site = sheet.site col ∧
      segment = sheet.segment col ∧ name = sheet.name col ∧ v = cell row col

/-- Every cell that holds something is one entry of the circuit, and no name stands twice where it is one key. -/
structure Placed (row : List Str) (c : Parsed) : Prop where
  cells : ∃ cols : List ℕ, cols.Nodup ∧ (∀ col, sheet.Named col → cell row col ≠ [] → col ∈ cols) ∧
    List.Forall₂ (sheet.Holds row) cols c.entries
  fields : (c.fields.map Prod.fst).Nodup
  attributes : (c.attributes.map Prod.fst).Nodup
  path : ∀ hop ∈ c.path, (hop.fields.map Prod.fst).Nodup

variable {sheet} (row : List Str)

theorem filled_names {g : Group} (h : sheet.Joined g) : ((sheet.filled row g.cols).map Prod.fst).Nodup := by
  have hsub : ((sheet.filled row g.cols).map Prod.fst).Sublist (g.cols.map sheet.name) := by
    have h := (List.filter_sublist (p := fun e : Str × Str => decide (e.2 ≠ []))
      (l := g.cols.map fun col => (sheet.name col, cell row col))).map Prod.fst
    rwa [List.map_map] at h
  exact h.names.sublist hsub

theorem filled_eq (cols : List ℕ) : sheet.filled row cols =
    (cols.filter fun col => cell row col ≠ []).map fun col => (sheet.name col, cell row col) := List.filter_map

theorem numbered_filled {g : Group} (h : sheet.Joined g) : numbered (sheet.filled row g.cols) = sheet.filled row g.cols :=
  numbered_eq (filled_names row h)

variable (sheet) in
theorem circuit_entries : (sheet.circuit row).entries =
    ((sheet.fields.filter fun e => written e.1 (cell row e.2) ≠ []).map fun e => .field e.1 (written e.1 (cell row e.2))) ++
      ((numbered (sheet.filled row sheet.layout.2)).map fun e => .attribute e.1 e.2) ++
        sheet.layout.1.flatMap fun g => (sheet.filled row g.cols).map fun e => .hop g.site g.segment e.1 e.2 := by
  have hpath (groups : List Group) (hjoined : ∀ g ∈ groups, sheet.Joined g) :
      (((groups.map fun g => (⟨g.site, g.segment, numbered (sheet.filled row g.cols)⟩ : Hop)).filter fun hop =>
        hop.fields ≠ []).flatMap fun hop => hop.fields.map fun e => Entry.hop hop.site hop.segment e.1 e.2) =
          groups.flatMap fun g => (sheet.filled row g.cols).map fun e => .hop g.site g.segment e.1 e.2 := by
    induction groups with
    | nil => rfl
    | cons g groups ih =>
      obtain ⟨hg, hgroups⟩ := List.forall_mem_cons.mp hjoined
      rw [List.map_cons, List.flatMap_cons, numbered_filled row hg, ← ih hgroups]
      by_cases hfilled : sheet.filled row g.cols = []
      · rw [List.filter_cons_of_neg (by simpa using hfilled), hfilled]
        rfl
      · rw [List.filter_cons_of_pos (by simpa using hfilled), List.flatMap_cons]
  rw [Parsed.entries, circuit, hops, hpath _ sheet.laid_layout.joined, List.filter_map, List.map_map]
  rfl

theorem holds_fields : List.Forall₂ (sheet.Holds row)
    ((sheet.fields.filter fun e => written e.1 (cell row e.2) ≠ []).map Prod.snd)
    ((sheet.fields.filter fun e => written e.1 (cell row e.2) ≠ []).map fun e =>
      .field e.1 (written e.1 (cell row e.2))) := by
  rw [List.forall₂_map_left_iff, List.forall₂_map_right_iff, List.forall₂_same]
  exact fun e he => ⟨List.mem_of_mem_filter he, rfl⟩

theorem holds_attributes {cols : List ℕ} (h : ∀ col ∈ cols, sheet.plain col ∧ sheet.segment col = []) :
    List.Forall₂ (sheet.Holds row) (cols.filter fun col => cell row col ≠ [])
      ((numbered (sheet.filled row cols)).map fun e => .attribute e.1 e.2) := by
  have heach := numbered_each (sheet.filled row cols)
  rw [filled_eq, List.forall₂_map_left_iff, ← filled_eq] at heach
  rw [List.forall₂_map_right_iff]
  have hplain : ∀ col ∈ cols.filter fun col => cell row col ≠ [], sheet.plain col ∧ sheet.segment col = [] :=
    fun col hcol => h col (List.mem_of_mem_filter hcol)
  refine ((List.forall₂_and_left _ _).mpr ⟨hplain, heach⟩).imp ?_
  rintro col e ⟨⟨hplain, hsegment⟩, hvalue, hname⟩
  exact ⟨hplain, hsegment, hname, hvalue⟩

theorem holds_hops {groups : List Group}
    (h : ∀ g ∈ groups, sheet.Joined g ∧ ∀ col ∈ g.cols, sheet.plain col ∧ sheet.segment col ≠ []) :
    List.Forall₂ (sheet.Holds row) ((groups.flatMap Group.cols).filter fun col => cell row col ≠ [])
      (groups.flatMap fun g => (sheet.filled row g.cols).map fun e => .hop g.site g.segment e.1 e.2) := by
  induction groups with
  | nil => exact .nil
  | cons g groups ih =>
    obtain ⟨⟨hjoined, hplain⟩, hgroups⟩ := List.forall_mem_cons.mp h
    rw [List.flatMap_cons, List.filter_append, List.flatMap_cons]
    refine List.rel_append ?_ (ih hgroups)
    rw [filled_eq, List.map_map, List.forall₂_map_right_iff, List.forall₂_same]
    intro col hcol
    have hmem := List.mem_of_mem_filter hcol
    obtain ⟨hsite, hsegment⟩ := hjoined.under col hmem
    exact ⟨(hplain col hmem).1, (hplain col hmem).2, hsite.symm, hsegment.symm, rfl, rfl⟩

theorem mem_attributes {col : ℕ} :
    col ∈ sheet.layout.2 ↔ col < sheet.header.length ∧ sheet.plain col ∧ sheet.segment col = [] := by
  rw [sheet.laid_layout.attributes]
  simp

theorem mem_groups {col : ℕ} :
    col ∈ sheet.layout.1.flatMap Group.cols ↔ col < sheet.header.length ∧ sheet.plain col ∧ sheet.segment col ≠ [] := by
  rw [sheet.laid_layout.groups]
  simp

theorem plain_iff {col : ℕ} : sheet.plain col ↔ col ∉ sheet.fields.map Prod.snd ∧ sheet.Named col := by
  simp [plain, Named]

theorem named_lt {col : ℕ} (h : sheet.Named col) : col < sheet.header.length := by
  refine not_le.mp fun hle => h.1 ?_
  rw [name, List.getD_eq_default _ _ hle]

variable (sheet) in
/-- The columns that hold something, in the order of the entries. -/
def holders : List ℕ :=
  ((sheet.fields.filter fun e => written e.1 (cell row e.2) ≠ []).map Prod.snd ++
    sheet.layout.2.filter fun col => cell row col ≠ []) ++
      (sheet.layout.1.flatMap Group.cols).filter fun col => cell row col ≠ []

theorem holders_nodup (h : sheet.Tidy) : (sheet.holders row).Nodup := by
  have hfields : ((sheet.fields.filter fun e => written e.1 (cell row e.2) ≠ []).map Prod.snd).Nodup :=
    h.cols.sublist (List.filter_sublist.map _)
  have hattributes : (sheet.layout.2.filter fun col => cell row col ≠ []).Nodup := by
    rw [sheet.laid_layout.attributes]
    exact (List.nodup_range.filter _).filter _
  have hgroups : ((sheet.layout.1.flatMap Group.cols).filter fun col => cell row col ≠ []).Nodup := by
    rw [sheet.laid_layout.groups]
    exact (List.nodup_range.filter _).filter _
  have hcore {col : ℕ} (hcol : col ∈ (sheet.fields.filter fun e => written e.1 (cell row e.2) ≠ []).map Prod.snd) :
      ¬ sheet.plain col := fun hplain => (plain_iff.mp hplain).1 ((List.filter_sublist.map _).subset hcol)
  refine (hfields.append hattributes fun col hcol hmem => ?_).append hgroups fun col hcol hmem => ?_
  · exact hcore hcol (mem_attributes.mp (List.mem_of_mem_filter hmem)).2.1
  · obtain ⟨-, hplain, hsegment⟩ := mem_groups.mp (List.mem_of_mem_filter hmem)
    rcases List.mem_append.mp hcol with hcol | hcol
    · exact hcore hcol hplain
    · exact hsegment (mem_attributes.mp (List.mem_of_mem_filter hcol)).2.2

theorem mem_holders {col : ℕ} (hnamed : sheet.Named col) (hcell : cell row col ≠ []) : col ∈ sheet.holders row := by
  by_cases hcore : col ∈ sheet.fields.map Prod.snd
  · obtain ⟨e, he, rfl⟩ := List.mem_map.mp hcore
    have hfilter : e ∈ sheet.fields.filter fun e => written e.1 (cell row e.2) ≠ [] :=
      List.mem_filter.mpr ⟨he, decide_eq_true (written_ne e.1 hcell)⟩
    exact List.mem_append_left _ (List.mem_append_left _ (List.mem_map_of_mem hfilter))
  · have hplain := plain_iff.mpr ⟨hcore, hnamed⟩
    have hlt := named_lt hnamed
    by_cases hsegment : sheet.segment col = []
    · refine List.mem_append_left _ (List.mem_append_right _ (List.mem_filter.mpr ⟨?_, decide_eq_true hcell⟩))
      exact mem_attributes.mpr ⟨hlt, hplain, hsegment⟩
    · refine List.mem_append_right _ (List.mem_filter.mpr ⟨?_, decide_eq_true hcell⟩)
      exact mem_groups.mpr ⟨hlt, hplain, hsegment⟩

theorem holders_hold : List.Forall₂ (sheet.Holds row) (sheet.holders row) (sheet.circuit row).entries := by
  rw [circuit_entries]
  refine List.rel_append (List.rel_append (holds_fields row) (holds_attributes row fun col hcol => ?_)) ?_
  · exact (mem_attributes.mp hcol).2
  · refine holds_hops row fun g hg => ⟨sheet.laid_layout.joined g hg, fun col hcol => ?_⟩
    exact (mem_groups.mp (List.mem_flatMap.mpr ⟨g, hg, hcol⟩)).2

/-- However the sheet is laid out, a row loses nothing before it is cut. -/
theorem placed_circuit (h : sheet.Tidy) : sheet.Placed row (sheet.circuit row) where
  cells := ⟨sheet.holders row, holders_nodup row h, fun _ => mem_holders row, holders_hold row⟩
  fields := by
    rw [circuit, List.map_map]
    exact h.fields
  attributes := numbered_nodup _
  path := by
    intro hop hhop
    obtain ⟨g, -, rfl⟩ := List.mem_map.mp (List.mem_of_mem_filter hhop)
    exact numbered_nodup _

end Sheet

end NetCoreNoc.Noc.Circuits
