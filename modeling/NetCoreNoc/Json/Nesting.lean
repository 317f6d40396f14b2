import Mathlib
import NetCoreNoc.Json.RoundTrip

/-! Brackets and quotes of a document's text: no object's text stands at the end of another's. -/
namespace NetCoreNoc.Json

/-- Where a character stands: outside of strings, right behind one, in one, or behind its backslash. -/
inductive Mode where
  | out
  | closed
  | str
  | esc
  deriving DecidableEq

/-- One character further, with the depth of brackets. -/
def advance (s : Mode × ℕ) (c : CodePoint) : Option (Mode × ℕ) :=
  match s.1 with
  | .str => some (if c = quote then .closed else if c = backslash then .esc else .str, s.2)
  | .esc => if c = bracket ∨ c = brace then none else some (.str, s.2)
  | .out =>
    if c = quote then some (.str, s.2)
    else if c = bracket ∨ c = brace then some (.out, s.2 + 1)
    else if c = unbracket ∨ c = unbrace then if s.2 = 0 then none else some (.out, s.2 - 1)
    else some (.out, s.2)
  | .closed =>
    if c = comma ∨ c = colon then some (.out, s.2)
    else if c = unbracket ∨ c = unbrace then if s.2 = 0 then none else some (.out, s.2 - 1)
    else none

def scan : Mode × ℕ → Str → Option (Mode × ℕ)
  | s, [] => some s
  | s, c :: r => (advance s c).bind fun t => scan t r

theorem scan_append (s : Mode × ℕ) (q r : Str) : scan s (q ++ r) = (scan s q).bind fun t => scan t r := by
  induction q generalizing s with
  | nil => rfl
  | cons c q ih =>
    rw [List.cons_append, scan, scan]
    cases advance s c with
    | none => rfl
    | some t => exact ih t

theorem scan_trans {s t : Mode × ℕ} {q : Str} (h : scan s q = some t) (r : Str) : scan s (q ++ r) = scan t r := by
  rw [scan_append, h]
  rfl

theorem scan_cons {s t : Mode × ℕ} {c : CodePoint} (h : advance s c = some t) (r : Str) : scan s (c :: r) = scan t r := by
  rw [scan, h]
  rfl

/-- A character that opens and closes nothing. -/
def Plain (c : CodePoint) : Prop :=
  c ≠ quote ∧ c ≠ bracket ∧ c ≠ brace ∧ c ≠ unbracket ∧ c ≠ unbrace

instance (c : CodePoint) : Decidable (Plain c) := inferInstanceAs (Decidable (_ ∧ _))

theorem scan_plain {s : Str} (h : ∀ c ∈ s, Plain c) (d : ℕ) : scan (.out, d) s = some (.out, d) := by
  induction s with
  | nil => rfl
  | cons c s ih =>
    obtain ⟨hc, hs⟩ := List.forall_mem_cons.mp h
    have hstep : advance (.out, d) c = some (.out, d) := by
      simp [advance, hc.1, hc.2.1, hc.2.2.1, hc.2.2.2.1, hc.2.2.2.2]
    rw [scan_cons hstep]
    exact ih hs

theorem plain_numeric {c : CodePoint} (h : isNumeric c) : Plain c := by
  simp only [isNumeric, isDigit, decide_eq_true_eq] at h
  refine ⟨?_, ?_, ?_, ?_, ?_⟩ <;> rintro rfl <;> exact absurd h (by decide)

theorem numeric_digits (s : Str) : ∀ c ∈ (digits s).1, isNumeric c := fun c hc => by
  have hd : isDigit c := List.mem_takeWhile_imp hc
  simp [isNumeric, hd]

theorem numeric_expSign (s : Str) : ∀ c ∈ (scanExpSign s).1, isNumeric c := by
  cases s with
  | nil => simp [scanExpSign]
  | cons c s =>
    simp only [scanExpSign]
    split_ifs with hc
    · simpa [isNumeric] using by tauto
    · simp

theorem numeric_exp (s : Str) : ∀ c ∈ (scanExp s).1, isNumeric c := by
  cases s with
  | nil => simp [scanExp]
  | cons c s =>
    simp only [scanExp]
    split_ifs with hc
    · intro d hd
      rcases List.mem_append.mp hd with hd | hd
      · rcases List.mem_cons.mp hd with rfl | hd
        · simpa [isNumeric] using by tauto
        · exact numeric_expSign _ d hd
      · exact numeric_digits _ d hd
    · simp

theorem numeric_frac (s : Str) : ∀ c ∈ (scanFrac s).1, isNumeric c := by
  cases s with
  | nil => simp [scanFrac]
  | cons c s =>
    simp only [scanFrac]
    split_ifs with hc
    · intro d hd
      rcases List.mem_cons.mp hd with rfl | hd
      · simp [isNumeric, hc.1]
      · exact numeric_digits _ d hd
    · simp

theorem numeric_whole {s w q : Str} (h : scanWhole s = some (w, q)) : ∀ c ∈ w, isNumeric c := by
  cases s with
  | nil => simp [scanWhole] at h
  | cons c s =>
    simp only [scanWhole] at h
    split_ifs at h with hz hd
    · obtain ⟨rfl, -⟩ := Prod.mk.inj (Option.some.inj h)
      exact fun d hd => List.mem_singleton.mp hd ▸ hz ▸ by decide
    · obtain ⟨rfl, -⟩ := Prod.mk.inj (Option.some.inj h)
      intro d hd'
      rcases List.mem_cons.mp hd' with rfl | hd'
      · simp [isNumeric, hd]
      · exact numeric_digits _ d hd'

theorem numeric_scanNumber {s w f q : Str} (h : scanNumber s = some ((w, f), q)) : ∀ c ∈ w ++ f, isNumeric c := by
  obtain ⟨⟨whole, q'⟩, hw, heq⟩ := Option.map_eq_some_iff.mp h
  simp only [Prod.mk.injEq] at heq
  obtain ⟨⟨rfl, rfl⟩, -⟩ := heq
  have hsign : ∀ c ∈ (scanSign s).1, isNumeric c := by
    cases s with
    | nil => simp [scanSign]
    | cons c s =>
      simp only [scanSign]
      split_ifs with hc
      · exact fun d hd => List.mem_singleton.mp hd ▸ hc ▸ by decide
      · simp
  intro c hc
  rcases List.mem_append.mp hc with hc | hc
  · rcases List.mem_append.mp hc with hc | hc
    · exact hsign c hc
    · exact numeric_whole hw c hc
  · rcases List.mem_append.mp hc with hc | hc
    · exact numeric_frac _ c hc
    · exact numeric_exp _ c hc

theorem scan_hexDigit {n : ℕ} (h : n < 16) (d : ℕ) : advance (.str, d) (hexDigit n) = some (.str, d) := by
  interval_cases n <;> rfl

theorem scan_unit (n d : ℕ) : scan (.str, d) (unit n) = some (.str, d) := by
  have h (m : ℕ) : advance (.str, d) (hexDigit (m % 16)) = some (.str, d) :=
    scan_hexDigit (Nat.mod_lt m (by decide)) d
  rw [unit, scan_cons rfl, scan_cons rfl, scan_cons (h _), scan_cons (h _), scan_cons (h _), scan_cons (h _)]
  rfl

theorem scan_escape (c : CodePoint) (d : ℕ) : scan (.str, d) (escape c) = some (.str, d) := by
  unfold escape
  split
  · next e he =>
    have hb := (escapes_cases he).1
    have hne : e ≠ bracket ∧ e ≠ brace := by
      constructor <;> rintro rfl <;> exact nomatch hb
    have hslash : advance (.str, d) backslash = some (.esc, d) := rfl
    have hletter : advance (.esc, d) e = some (.str, d) := by simp [advance, hne.1, hne.2]
    rw [scan_cons hslash, scan_cons hletter]
    rfl
  · next he =>
    split_ifs with hp hc
    · have hq : c ≠ quote := by rintro rfl; exact absurd he (by decide)
      have hb : c ≠ backslash := by rintro rfl; exact absurd he (by decide)
      have hstep : advance (.str, d) c = some (.str, d) := by simp [advance, hq, hb]
      rw [scan_cons hstep]
      rfl
    · exact scan_unit _ d
    · rw [scan_trans (scan_unit _ d)]
      exact scan_unit _ d

theorem scan_dumpStr (s : Str) (d : ℕ) : scan (.out, d) (dumpStr s) = some (.closed, d) := by
  have hbody : scan (.str, d) (s.flatMap escape) = some (.str, d) := by
    induction s with
    | nil => rfl
    | cons c s ih =>
      rw [List.flatMap_cons, scan_trans (scan_escape c d)]
      exact ih
  rw [dumpStr, List.cons_append, scan_cons rfl, scan_trans hbody]
  rfl

theorem plain_word {w : Str} (h : (w.all fun c => Plain c) = true) : ∀ c ∈ w, Plain c := by
  simpa using h

/-- Outside of strings, or right behind one. -/
def Mode.Between (m : Mode) : Prop := m = .out ∨ m = .closed

theorem advance_comma {m : Mode} (h : m.Between) (d : ℕ) : advance (m, d) comma = some (.out, d) := by
  rcases h with rfl | rfl <;> rfl

theorem advance_unbrace {m : Mode} (h : m.Between) (d : ℕ) : advance (m, d + 1) unbrace = some (.out, d) := by
  rcases h with rfl | rfl <;> rfl

theorem advance_unbracket {m : Mode} (h : m.Between) (d : ℕ) : advance (m, d + 1) unbracket = some (.out, d) := by
  rcases h with rfl | rfl <;> rfl

variable {F : Type}

/-- Behind the text of a document. -/
def after : Doc F → Mode
  | .str _ => .closed
  | _ => .out

theorem between_after (j : Doc F) : (after j).Between := by
  cases j <;> first | exact .inl rfl | exact .inr rfl

variable [PyFloat F]

/-- An object's entries from the second on, but for the closing brace. -/
def entriesBody (l : List (Str × Doc F)) : Str := (entriesText l).dropLast

theorem entriesText_eq (l : List (Str × Doc F)) : entriesText l = entriesBody l ++ [unbrace] := by
  have h : ∃ q, entriesText l = q ++ [unbrace] := by
    induction l with
    | nil => exact ⟨[], rfl⟩
    | cons e l ih =>
      obtain ⟨q, hq⟩ := ih
      exact ⟨comma :: dumpStr e.1 ++ colon :: text e.2 ++ q, by rw [entriesText, hq]; simp⟩
  obtain ⟨q, hq⟩ := h
  rw [entriesBody, hq, List.dropLast_concat]

omit [PyFloat F] in
theorem plain_int (n : ℤ) : ∀ c ∈ intText n, Plain c := fun c hc =>
  plain_numeric (numeric_scanNumber (scanNumber_intText n) c (by simpa using hc))

theorem plain_float [LawfulPyFloat F] (x : F) : ∀ c ∈ PyFloat.text x, Plain c := by
  cases hx : PyFloat.isfinite x with
  | true =>
    obtain ⟨w, f, hs, -, ht⟩ := LawfulPyFloat.literal x hx
    exact fun c hc => plain_numeric (numeric_scanNumber hs c (ht ▸ hc))
  | false =>
    rcases LawfulPyFloat.special x hx with ⟨-, ht⟩ | ⟨-, ht⟩ | ⟨-, ht⟩ <;> rw [ht] <;> exact plain_word rfl

/-- An entry of an object, behind its brace or a comma. -/
theorem scan_entry (k : Str) {j : Doc F} {d : ℕ} (h : scan (.out, d) (text j) = some (after j, d)) (r : Str) :
    scan (.out, d) (dumpStr k ++ colon :: text j ++ r) = scan (after j, d) r := by
  have hcolon : advance (.closed, d) colon = some (.out, d) := rfl
  rw [List.append_assoc, scan_trans (scan_dumpStr k d), List.cons_append, scan_cons hcolon, scan_trans h]

mutual

/-- The text of a document closes what it opens. -/
theorem scan_text [LawfulPyFloat F] : (j : Doc F) → ∀ d : ℕ, scan (.out, d) (text j) = some (after j, d)
  | .null, d => scan_plain (plain_word rfl) d
  | .bool true, d => scan_plain (plain_word rfl) d
  | .bool false, d => scan_plain (plain_word rfl) d
  | .int n, d => scan_plain (plain_int n) d
  | .float x, d => scan_plain (plain_float x) d
  | .str s, d => scan_dumpStr s d
  | .list [], d => rfl
  | .list (j :: l), d => by
    have hopen : advance (.out, d) bracket = some (.out, d + 1) := rfl
    rw [text, List.cons_append, scan_cons hopen, scan_trans (scan_text j (d + 1))]
    exact scan_items l d (between_after j)
  | .obj [], d => rfl
  | .obj ((k, j) :: l), d => by
    have hopen : advance (.out, d) brace = some (.out, d + 1) := rfl
    obtain ⟨m, hm, hl⟩ := scan_entries l (d + 1) (between_after j)
    rw [text, List.append_assoc, List.cons_append, scan_cons hopen, ← List.append_assoc,
      scan_entry k (scan_text j (d + 1)), entriesText_eq, scan_trans hl, scan_cons (advance_unbrace hm d)]
    rfl

theorem scan_items [LawfulPyFloat F] : (l : List (Doc F)) → ∀ (d : ℕ) {m : Mode}, m.Between →
    scan (m, d + 1) (itemsText l) = some (.out, d)
  | [], d, m, hm => by
    rw [itemsText, scan_cons (advance_unbracket hm d)]
    rfl
  | j :: l, d, m, hm => by
    rw [itemsText, List.cons_append, scan_cons (advance_comma hm (d + 1)), scan_trans (scan_text j (d + 1))]
    exact scan_items l d (between_after j)

theorem scan_entries [LawfulPyFloat F] : (l : List (Str × Doc F)) → ∀ (d : ℕ) {m : Mode}, m.Between →
    ∃ m' : Mode, m'.Between ∧ scan (m, d) (entriesBody l) = some (m', d)
  | [], d, m, hm => ⟨m, hm, rfl⟩
  | (k, j) :: l, d, m, hm => by
    obtain ⟨m', hm', hl⟩ := scan_entries l d (between_after j)
    have hbody : entriesBody ((k, j) :: l) = comma :: (dumpStr k ++ colon :: text j ++ entriesBody l) := by
      rw [entriesBody, entriesText, entriesText_eq, ← List.append_assoc, List.dropLast_concat]
      simp
    refine ⟨m', hm', ?_⟩
    rw [hbody, scan_cons (advance_comma hm d), scan_entry k (scan_text j d)]
    exact hl

end

/-- The inside of an object's text. -/
theorem text_obj (k : Str) (j : Doc F) (l : List (Str × Doc F)) :
    text (.obj ((k, j) :: l)) = brace :: (dumpStr k ++ colon :: text j ++ entriesBody l) ++ [unbrace] := by
  rw [text, entriesText_eq]
  simp

variable [LawfulPyFloat F]

theorem scan_inside (k : Str) (j : Doc F) (l : List (Str × Doc F)) (d : ℕ) :
    ∃ m : Mode, scan (.out, d) (dumpStr k ++ colon :: text j ++ entriesBody l) = some (m, d) := by
  obtain ⟨m, -, hl⟩ := scan_entries l d (between_after j)
  exact ⟨m, by rw [scan_entry k (scan_text j d)]; exact hl⟩

omit [PyFloat F] [LawfulPyFloat F] in
theorem escape_lower {c : CodePoint} (hc : 97 ≤ c.val ∧ c.val ≤ 122) : escape c = [c] := by
  have hnone : ESCAPES.lookup c = none := by
    rw [List.lookup_eq_none_iff]
    intro p hp
    simp only [ESCAPES, List.mem_cons, List.not_mem_nil, or_false] at hp
    have hne : p.1.val < 97 := by rcases hp with rfl | rfl | rfl | rfl | rfl | rfl | rfl <;> decide
    simpa using fun he : c = p.1 => absurd (he ▸ hc.1) (by omega)
  rw [escape, hnone]
  exact if_pos ⟨by omega, by omega⟩

/-- No text of an object whose first key starts with a letter is a proper end of another's. -/
theorem suffix_eq {k k' : Str} {c : CodePoint} (hc : 97 ≤ c.val ∧ c.val ≤ 122) {i j : Doc F}
    {l l' : List (Str × Doc F)} {q : Str}
    (h : text (.obj ((k, i) :: l)) = q ++ text (.obj ((c :: k', j) :: l'))) : q = [] := by
  cases q with
  | nil => rfl
  | cons x q =>
    exfalso
    rw [text_obj, text_obj, List.cons_append, List.cons_append, List.cons.injEq, List.cons_append] at h
    obtain ⟨m, hin⟩ := scan_inside k i l 0
    have hbody : dumpStr k ++ colon :: text i ++ entriesBody l =
        q ++ brace :: (dumpStr (c :: k') ++ colon :: text j ++ entriesBody l') :=
      List.append_cancel_right (by simpa using h.2)
    have hhead : dumpStr (c :: k') ++ colon :: text j ++ entriesBody l' =
        quote :: c :: ((k'.flatMap escape ++ [quote]) ++ colon :: text j ++ entriesBody l') := by
      simp [dumpStr, escape_lower hc]
    rw [hbody, scan_append] at hin
    obtain ⟨⟨mode, d⟩, -, hrest⟩ := Option.bind_eq_some_iff.mp hin
    cases mode with
    | out =>
      obtain ⟨m', hin'⟩ := scan_inside (c :: k') j l' (d + 1)
      have hopen : advance (.out, d) brace = some (.out, d + 1) := rfl
      rw [scan_cons hopen, hin'] at hrest
      exact absurd (congrArg Prod.snd (Option.some.inj hrest)) (Nat.succ_ne_zero d)
    | closed => exact nomatch hrest
    | esc => exact nomatch hrest
    | str =>
      have hbrace : advance (.str, d) brace = some (.str, d) := rfl
      have hquote : advance (.str, d) quote = some (.closed, d) := rfl
      have hletter : advance (.closed, d) c = none := by
        have hne : c ≠ comma ∧ c ≠ colon ∧ c ≠ unbracket ∧ c ≠ unbrace := by
          refine ⟨?_, ?_, ?_, ?_⟩ <;> rintro rfl <;> exact absurd hc (by decide)
        simp [advance, hne.1, hne.2.1, hne.2.2.1, hne.2.2.2]
      rw [scan_cons hbrace, hhead, scan_cons hquote, scan, hletter] at hrest
      exact nomatch hrest

end NetCoreNoc.Json
