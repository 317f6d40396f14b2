import Mathlib
import NetCoreNoc.Json.Document

/-! What the text of a document reads as, and where it ends. -/
namespace NetCoreNoc.Json
variable {F : Type} [PyFloat F]

/-- How the text of a document may start. -/
def Opens (c : CodePoint) : Prop := ¬ isSpace c ∧ c ≠ unbracket ∧ c ≠ unbrace ∧ c ≠ BOM

instance (c : CodePoint) : Decidable (Opens c) := inferInstanceAs (Decidable (_ ∧ _))

theorem skip_opens {c : CodePoint} (h : Opens c) (r : Str) : skip (c :: r) = c :: r :=
  List.dropWhile_cons_of_neg h.1

theorem opens_digit {c : CodePoint} (h : isDigit c ∨ c = chr '-') : Opens c := by
  rcases h with h | rfl
  · simp only [isDigit, decide_eq_true_eq] at h
    refine ⟨?_, ?_, ?_, ?_⟩
    · simp only [isSpace, decide_eq_true_eq, not_or]
      refine ⟨?_, ?_, ?_, ?_⟩ <;> rintro rfl <;> exact absurd h (by decide)
    all_goals rintro rfl; exact absurd h (by decide)
  · decide

variable {s : Str} {e : (Str × Str) × Str}

/-- A number starts with a digit, or with a sign and a digit. -/
theorem scanNumber_head (h : scanNumber s = some e) :
    ∃ c r, s = c :: r ∧ (isDigit c ∨ c = chr '-' ∧ ∃ d q, r = d :: q ∧ isDigit d) := by
  have hwhole {q : Str} (hq : (scanWhole q).isSome) : ∃ c r, q = c :: r ∧ isDigit c := by
    cases q with
    | nil => simp [scanWhole] at hq
    | cons c r =>
      refine ⟨c, r, rfl, ?_⟩
      simp only [scanWhole] at hq
      split_ifs at hq with hz hd
      · exact hz ▸ by decide
      · exact hd
      · simp at hq
  obtain ⟨w, hw, -⟩ := Option.map_eq_some_iff.mp h
  cases s with
  | nil => simp [scanSign, scanWhole] at hw
  | cons c r =>
    refine ⟨c, r, rfl, ?_⟩
    simp only [scanSign] at hw
    split_ifs at hw with hc
    · obtain ⟨d, q, rfl, hd⟩ := hwhole (by rw [hw]; rfl)
      exact .inr ⟨hc, d, q, rfl, hd⟩
    · obtain ⟨d, q, heq, hd⟩ := hwhole (by rw [hw]; rfl)
      rw [List.cons.injEq] at heq
      exact .inl (heq.1 ▸ hd)

theorem expect_ne {c d : CodePoint} (h : d ≠ c) (w r : Str) : expect (d :: w) (c :: r) = none := by
  simp [expect, h]

/-- No constant starts as a number does. -/
theorem constant_number (h : scanNumber s = some e) (r : Str) :
    constant (F := F) (s ++ r) = none := by
  obtain ⟨c, q, rfl, hc⟩ := scanNumber_head h
  have hne {d : CodePoint} (hd : ¬ isDigit d) (hm : d ≠ chr '-') : d ≠ c := by
    rintro rfl
    rcases hc with hc | ⟨hc, -⟩
    · exact hd hc
    · exact hm hc
  have hminus : expect (lit "-Infinity") (c :: q ++ r) = none := by
    rcases hc with hc | ⟨rfl, d, q, rfl, hd⟩
    · exact expect_ne (by rintro rfl; exact absurd hc (by decide)) _ _
    · have hI : chr 'I' ≠ d := by
        rintro rfl
        exact absurd hd (by decide)
      simp [expect, lit, hI]
  have hword {w : Str} {d : CodePoint} (hd : ¬ isDigit d) (hm : d ≠ chr '-') :
      expect (d :: w) (c :: q ++ r) = none := expect_ne (hne hd hm) _ _
  have hnull : expect (lit "null") (c :: q ++ r) = none := hword (by decide) (by decide)
  have htrue : expect (lit "true") (c :: q ++ r) = none := hword (by decide) (by decide)
  have hfalse : expect (lit "false") (c :: q ++ r) = none := hword (by decide) (by decide)
  have hnan : expect (lit "NaN") (c :: q ++ r) = none := hword (by decide) (by decide)
  have hinf : expect (lit "Infinity") (c :: q ++ r) = none := hword (by decide) (by decide)
  simp only [constant, constants, List.findSome?_cons, List.findSome?_nil, hnull, htrue, hfalse, hnan, hinf, hminus,
    Option.map_none]

theorem filter_natText (n : ℕ) : (natText n).filter isDigit = natText n := by
  rw [List.filter_eq_self]
  rcases natText_cases n with ⟨-, h⟩ | ⟨c, r, h, hc, -, hall⟩
  · rw [h]
    intro d hd
    exact List.mem_singleton.mp hd ▸ by decide
  · rw [h]
    intro d hd
    rcases List.mem_cons.mp hd with rfl | hd
    · exact hc
    · exact hall d hd

theorem filter_intText (n : ℤ) : ((intText n).filter isDigit).length = digitCount n := by
  cases n with
  | ofNat n => exact congrArg List.length (filter_natText n)
  | negSucc n =>
    rw [intText, List.filter_cons_of_neg (by decide), filter_natText]
    rfl

theorem number_intText {limit : ℕ} {n : ℤ} (h : limit = 0 ∨ digitCount n ≤ limit) {r : Str} (hr : Ends r) :
    number (F := F) limit (intText n ++ r) = some (.int n, r) := by
  have hs := scanNumber_append (scanNumber_intText n) hr
  rw [number, hs]
  simp only [filter_intText, h, if_true, toInt_intText, List.nil_append]

theorem number_float [LawfulPyFloat F] (limit : ℕ) {x : F} (h : PyFloat.isfinite x = true) {r : Str} (hr : Ends r) :
    number limit (PyFloat.text x ++ r) = some (.float x, r) := by
  obtain ⟨w, f, hs, hf, ht⟩ := LawfulPyFloat.literal x h
  rw [number, scanNumber_append hs hr]
  cases f with
  | nil => exact absurd rfl hf
  | cons c f => simp only [ht, LawfulPyFloat.float_text x h, List.nil_append]

/-- A scalar that is no string is read as itself. -/
theorem value_scalar {limit : ℕ} {c : CodePoint} {s : Str} {n : ℕ} {e : Doc F × Str} (hc : c ≠ quote ∧ c ≠ bracket ∧ c ≠ brace)
    (h : (constant (c :: s)).or (number limit (c :: s)) = some e) : value limit (n + 1) (c :: s) = some e := by
  rw [value, if_neg hc.1, if_neg hc.2.1, if_neg hc.2.2, ← h]
  cases constant (F := F) (c :: s) <;> rfl

theorem not_opening {c : CodePoint} (h : isDigit c ∨ c = chr '-') : c ≠ quote ∧ c ≠ bracket ∧ c ≠ brace := by
  rcases h with h | rfl
  · refine ⟨?_, ?_, ?_⟩ <;> rintro rfl <;> exact absurd h (by decide)
  · decide

/-- A number starts as a document may, and as neither a list nor an object does. -/
theorem number_opens (h : scanNumber s = some e) :
    ∃ c q, s = c :: q ∧ Opens c ∧ c ≠ bracket ∧ c ≠ brace := by
  obtain ⟨c, q, rfl, hc⟩ := scanNumber_head h
  have hc' := hc.imp_right And.left
  exact ⟨c, q, rfl, opens_digit hc', (not_opening hc').2⟩

theorem float_opens [LawfulPyFloat F] (x : F) : ∃ c q, PyFloat.text x = c :: q ∧ Opens c ∧ c ≠ bracket ∧ c ≠ brace := by
  cases hx : PyFloat.isfinite x with
  | true =>
    obtain ⟨w, f, hs, -⟩ := LawfulPyFloat.literal x hx
    exact number_opens hs
  | false =>
    rcases LawfulPyFloat.special x hx with ⟨rfl, ht⟩ | ⟨rfl, ht⟩ | ⟨rfl, ht⟩ <;> exact ⟨_, _, ht, by decide⟩

theorem value_number {limit : ℕ} {s r : Str} {p : Str × Str} (hs : scanNumber s = some (p, [])) {j : Doc F}
    (h : number limit (s ++ r) = some (j, r)) (n : ℕ) : value limit (n + 1) (s ++ r) = some (j, r) := by
  have hcon : constant (F := F) (s ++ r) = none := constant_number hs r
  obtain ⟨c, q, rfl, hc⟩ := scanNumber_head hs
  refine value_scalar (not_opening (hc.imp_right And.left)) ?_
  rw [show constant (F := F) (c :: q.append r) = none from hcon]
  exact h

theorem value_int {limit : ℕ} {n : ℤ} (h : limit = 0 ∨ digitCount n ≤ limit) {r : Str} (hr : Ends r) (m : ℕ) :
    value (F := F) limit (m + 1) (intText n ++ r) = some (.int n, r) :=
  value_number (scanNumber_intText n) (number_intText h hr) m

theorem value_float [LawfulPyFloat F] (limit : ℕ) (x : F) {r : Str} (hr : Ends r) (m : ℕ) :
    value limit (m + 1) (PyFloat.text x ++ r) = some (.float x, r) := by
  cases hx : PyFloat.isfinite x with
  | true =>
    obtain ⟨w, f, hs, -⟩ := LawfulPyFloat.literal x hx
    exact value_number hs (number_float limit hx hr) m
  | false =>
    rcases LawfulPyFloat.special x hx with ⟨rfl, ht⟩ | ⟨rfl, ht⟩ | ⟨rfl, ht⟩ <;> rw [ht] <;>
      exact value_scalar (by decide) rfl

/-- What follows an item of a list or an object. -/
def Follows (q : Str) : Prop := ∃ c s, q = c :: s ∧ ¬ isSpace c ∧ ¬ isNumeric c

theorem Follows.ends {q : Str} (h : Follows q) (r : Str) : Ends (q ++ r) := by
  obtain ⟨c, s, rfl, -, hc⟩ := h
  rintro d hd
  obtain rfl : c = d := by simpa using hd
  exact hc

theorem Follows.skip {q : Str} (h : Follows q) (r : Str) : skip (q ++ r) = q ++ r := by
  obtain ⟨c, s, rfl, hc, -⟩ := h
  exact List.dropWhile_cons_of_neg hc

theorem follows_items (l : List (Doc F)) : Follows (itemsText l) := by
  cases l with
  | nil => exact ⟨unbracket, _, rfl, by decide, by decide⟩
  | cons j l => exact ⟨comma, _, by rw [itemsText]; rfl, by decide, by decide⟩

theorem follows_entries (l : List (Str × Doc F)) : Follows (entriesText l) := by
  cases l with
  | nil => exact ⟨unbrace, _, rfl, by decide, by decide⟩
  | cons e l => exact ⟨comma, _, by rw [entriesText]; rfl, by decide, by decide⟩

variable [LawfulPyFloat F] {limit : ℕ}

theorem text_opens (j : Doc F) : ∃ c q, text j = c :: q ∧ Opens c := by
  cases j with
  | null => exact ⟨_, _, rfl, by decide⟩
  | bool b => cases b <;> exact ⟨_, _, rfl, by decide⟩
  | int n =>
    obtain ⟨c, q, h, hc, -⟩ := number_opens (scanNumber_intText n)
    exact ⟨c, q, h, hc⟩
  | float x =>
    obtain ⟨c, q, h, hc, -⟩ := float_opens x
    exact ⟨c, q, h, hc⟩
  | str s => exact ⟨quote, _, rfl, by decide⟩
  | list l =>
    cases l with
    | nil => exact ⟨bracket, _, rfl, by decide⟩
    | cons j l => exact ⟨bracket, _, by rw [text]; rfl, by decide⟩
  | obj l =>
    cases l with
    | nil => exact ⟨brace, _, rfl, by decide⟩
    | cons e l => exact ⟨brace, _, by rw [text]; rfl, by decide⟩

theorem skip_text (j : Doc F) (r : Str) : skip (text j ++ r) = text j ++ r := by
  obtain ⟨c, q, h, hc⟩ := text_opens j
  rw [h]
  exact skip_opens hc _

omit [PyFloat F] [LawfulPyFloat F] in
/-- A key reads as itself, whatever follows its colon and white space. -/
theorem key_dump (k : Str) {t q : Str} (ht : skip t = q) :
    key (dumpStr k ++ colon :: t) = some (joined k, q) := by
  have hkey : dumpStr k ++ colon :: t = quote :: (k.flatMap escape ++ quote :: (colon :: t)) := by simp [dumpStr]
  have hcolon : skip (colon :: t) = colon :: t := List.dropWhile_cons_of_neg (by decide)
  rw [hkey, key, if_pos rfl, scanstring_dump]
  simp only [hcolon, if_true, ht]

theorem skip_key (k : Str) (r : Str) : skip (dumpStr k ++ r) = dumpStr k ++ r :=
  List.dropWhile_cons_of_neg (by decide)

mutual

/-- The text of a document reads as the document, up to where it ends. -/
theorem value_text : (j : Doc F) → Fits limit j → ∀ (n : ℕ) (r : Str), Ends r → (text j).length < n →
    value limit n (text j ++ r) = some (back j, r)
  | .null, _, n + 1, r, _, _ => value_scalar (by decide) rfl
  | .bool true, _, n + 1, r, _, _ => value_scalar (by decide) rfl
  | .bool false, _, n + 1, r, _, _ => value_scalar (by decide) rfl
  | .int m, hf, n + 1, r, hr, _ => value_int (by rwa [Fits] at hf) hr n
  | .float x, _, n + 1, r, hr, _ => value_float limit x hr n
  | .str s, _, n + 1, r, _, _ => by
    have hs : text (F := F) (.str s) ++ r = quote :: (s.flatMap escape ++ quote :: r) := by simp [text, dumpStr]
    rw [hs, value, if_pos rfl, scanstring_dump]
    rfl
  | .list [], _, n + 1, r, _, _ => rfl
  | .list (j :: l), hf, n + 1, r, _, hn => by
    rw [Fits, FitsAll] at hf
    rw [text, List.length_append, List.length_cons] at hn
    obtain ⟨c, q, hc, hopen⟩ := text_opens j
    have hhead : ¬ (text j ++ (itemsText l ++ r)).head? = some unbracket := by
      rw [hc]
      exact fun he => hopen.2.1 (Option.some.inj he)
    have hv := value_text j hf.1 n (itemsText l ++ r) ((follows_items l).ends r) (by omega)
    have hl := items_text l hf.2 n r (by rw [hc, List.length_cons] at hn; omega)
    have hcons : text (.list (j :: l)) ++ r = bracket :: (text j ++ (itemsText l ++ r)) := by simp [text]
    rw [hcons, value, if_neg (by decide), if_pos rfl, skip_text, if_neg hhead, hv]
    simp only [(follows_items l).skip r, hl, Option.map_some, back, backItems]
  | .obj [], _, n + 1, r, _, _ => rfl
  | .obj ((k, j) :: l), hf, n + 1, r, _, hn => by
    rw [Fits, FitsEntries] at hf
    rw [text] at hn
    simp only [List.length_append, List.length_cons] at hn
    have hv := value_text j hf.1 n (entriesText l ++ r) ((follows_entries l).ends r) (by omega)
    have hl := entries_text l hf.2 n r (by omega)
    have hcons : text (.obj ((k, j) :: l)) ++ r =
        brace :: (dumpStr k ++ colon :: (text j ++ (entriesText l ++ r))) := by simp [text]
    have hhead : ¬ (dumpStr k ++ colon :: (text j ++ (entriesText l ++ r))).head? = some unbrace := by
      intro he
      exact absurd (Option.some.inj he) (by decide)
    rw [hcons, value, if_neg (by decide), if_neg (by decide), if_pos rfl, skip_key, if_neg hhead, key_dump k (skip_text j _)]
    simp only [hv, (follows_entries l).skip r, hl, Option.map_some, back, backEntries]

theorem items_text : (l : List (Doc F)) → FitsAll limit l → ∀ (n : ℕ) (r : Str), (itemsText l).length < n →
    items limit n (itemsText l ++ r) = some (backItems l, r)
  | [], _, n + 1, r, _ => rfl
  | j :: l, hf, n + 1, r, hn => by
    rw [FitsAll] at hf
    rw [itemsText] at hn
    simp only [List.length_append, List.length_cons] at hn
    obtain ⟨c, q, hc, -⟩ := text_opens j
    have hv := value_text j hf.1 n (itemsText l ++ r) ((follows_items l).ends r) (by omega)
    have hl := items_text l hf.2 n r (by omega)
    have hcons : itemsText (j :: l) ++ r = comma :: (text j ++ (itemsText l ++ r)) := by simp [itemsText]
    rw [hcons, items, if_neg (by decide), if_pos rfl, skip_text, hv]
    simp only [(follows_items l).skip r, hl, Option.map_some, backItems]

theorem entries_text : (l : List (Str × Doc F)) → FitsEntries limit l → ∀ (n : ℕ) (r : Str), (entriesText l).length < n →
    entries limit n (entriesText l ++ r) = some (backEntries l, r)
  | [], _, n + 1, r, _ => rfl
  | (k, j) :: l, hf, n + 1, r, hn => by
    rw [FitsEntries] at hf
    rw [entriesText] at hn
    simp only [List.length_append, List.length_cons] at hn
    have hv := value_text j hf.1 n (entriesText l ++ r) ((follows_entries l).ends r) (by omega)
    have hl := entries_text l hf.2 n r (by omega)
    have hcons : entriesText ((k, j) :: l) ++ r =
        comma :: (dumpStr k ++ colon :: (text j ++ (entriesText l ++ r))) := by simp [entriesText]
    rw [hcons, entries, if_neg (by decide), if_pos rfl, skip_key, key_dump k (skip_text j _)]
    simp only [hv, (follows_entries l).skip r, hl, Option.map_some, backEntries]

end

theorem ends_nil : Ends [] := nofun

theorem loads_text {j : Doc F} (h : Fits MAX_STR_DIGITS j) : loads (text j) = some (back j) := by
  obtain ⟨c, q, hc, hopen⟩ := text_opens j
  have hv := value_text j h ((text j).length + 1) [] ends_nil (by omega)
  rw [List.append_nil] at hv
  have hskip : skip (text j) = text j := by simpa using skip_text j []
  have hbom : ¬ (text j).head? = some BOM := by
    rw [hc]
    exact fun he => hopen.2.2.2 (Option.some.inj he)
  rw [loads, if_neg hbom, hskip, hv]
  rfl

/-- Texts that agree end where each other ends. -/
theorem text_prefix (i j : Doc F) {q r : Str} (hq : Ends q) (hr : Ends r)
    (h : text i ++ q = text j ++ r) : text i = text j ∧ q = r := by
  have hvi := value_text i (fits_zero i) ((text i).length + (text j).length + 1) q hq (by omega)
  have hvj := value_text j (fits_zero j) ((text i).length + (text j).length + 1) r hr (by omega)
  rw [h, hvj] at hvi
  obtain rfl : r = q := congrArg Prod.snd (Option.some.inj hvi)
  exact ⟨List.append_cancel_right h, rfl⟩

/-- Texts that are one read as one document. -/
theorem text_inj {i j : Doc F} (h : text i = text j) : back i = back j := by
  have hi := value_text i (fits_zero i) ((text j).length + 1) [] ends_nil (by rw [h]; omega)
  have hj := value_text j (fits_zero j) ((text j).length + 1) [] ends_nil (by omega)
  rw [h, hj] at hi
  exact (congrArg Prod.fst (Option.some.inj hi)).symm

theorem entriesText_inj {l r : List (Str × Doc F)} (hk : l.map Prod.fst = r.map Prod.fst)
    (h : entriesText l = entriesText r) : l.map (fun e => text e.2) = r.map fun e => text e.2 := by
  induction l generalizing r with
  | nil =>
    obtain rfl : r = [] := List.map_eq_nil_iff.mp hk.symm
    rfl
  | cons e l ih =>
    cases r with
    | nil => exact nomatch hk
    | cons f r =>
      obtain ⟨hkey, hkeys⟩ := List.cons.inj hk
      simp only [entriesText, hkey, List.cons_append, List.append_assoc, List.cons.injEq, true_and] at h
      have hrest := (List.cons.inj (List.append_cancel_left h)).2
      obtain ⟨htext, hq⟩ := text_prefix e.2 f.2 (by simpa using (follows_entries l).ends [])
        (by simpa using (follows_entries r).ends []) hrest
      rw [List.map_cons, List.map_cons, htext, ih hkeys hq]

/-- Objects with the same keys and one text have the same texts under them. -/
theorem text_obj_inj {l r : List (Str × Doc F)} (hk : l.map Prod.fst = r.map Prod.fst)
    (h : text (.obj l) = text (.obj r)) : l.map (fun e => text e.2) = r.map fun e => text e.2 := by
  cases l with
  | nil =>
    obtain rfl : r = [] := List.map_eq_nil_iff.mp hk.symm
    rfl
  | cons e l =>
    cases r with
    | nil => exact nomatch hk
    | cons f r =>
      refine entriesText_inj hk ?_
      simp only [text, List.cons_append, List.cons.injEq, true_and] at h
      simp only [entriesText, List.cons_append, h]

end NetCoreNoc.Json
