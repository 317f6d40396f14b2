import Mathlib
import NetCoreNoc.Checks
import NetCoreNoc.Json.Canonical
import NetCoreNoc.Json.RoundTrip

/-! `json.loads` on a stack that ends: each list and each object in another takes a level of it. -/
namespace NetCoreNoc.Json
open Checks

/-- The exceptions of reading a value. -/
inductive PyError where
  | ValueError
  | TypeError
  | KeyError
  | IndexError
  | AttributeError
  | OverflowError
  | RecursionError
  deriving DecidableEq, Repr

variable {F : Type}

/-- What is there, or the exception. -/
def orRaise {α : Type} (e : PyError) : Option α → Except PyError α
  | none => .error e
  | some a => .ok a

/-- A level further in. -/
def deeper : ℕ → Except PyError ℕ
  | 0 => .error .RecursionError
  | room + 1 => .ok room

section
variable [PyFloat F]

mutual

/-- `scan_once`, with room for some levels. -/
def readValue (limit : ℕ) : ℕ → ℕ → Str → Except PyError (Doc F × Str)
  | 0, _, _ => .error .ValueError
  | _ + 1, _, [] => .error .ValueError
  | n + 1, room, c :: r =>
    if c = bracket then do
      let room ← deeper room
      if (skip r).head? = some unbracket then .ok (.list [], (skip r).tail)
      else
        let j ← readValue limit n room (skip r)
        let l ← readItems limit n room (skip j.2)
        .ok (.list (j.1 :: l.1), l.2)
    else if c = brace then do
      let room ← deeper room
      if (skip r).head? = some unbrace then .ok (.obj [], (skip r).tail)
      else
        let k ← orRaise .ValueError (key (skip r))
        let j ← readValue limit n room k.2
        let l ← readEntries limit n room (skip j.2)
        .ok (.obj (dict ((k.1, j.1) :: l.1)), l.2)
    else orRaise .ValueError (value limit 1 (c :: r))

def readItems (limit : ℕ) : ℕ → ℕ → Str → Except PyError (List (Doc F) × Str)
  | 0, _, _ => .error .ValueError
  | _ + 1, _, [] => .error .ValueError
  | n + 1, room, c :: r =>
    if c = unbracket then .ok ([], r)
    else if c = comma then do
      let j ← readValue limit n room (skip r)
      let l ← readItems limit n room (skip j.2)
      .ok (j.1 :: l.1, l.2)
    else .error .ValueError

def readEntries (limit : ℕ) : ℕ → ℕ → Str → Except PyError (List (Str × Doc F) × Str)
  | 0, _, _ => .error .ValueError
  | _ + 1, _, [] => .error .ValueError
  | n + 1, room, c :: r =>
    if c = unbrace then .ok ([], r)
    else if c = comma then do
      let k ← orRaise .ValueError (key (skip r))
      let j ← readValue limit n room k.2
      let l ← readEntries limit n room (skip j.2)
      .ok ((k.1, j.1) :: l.1, l.2)
    else .error .ValueError

end

/-- `json.loads` of a `str`, with room for some levels of nesting. -/
def reads (room : ℕ) (s : Str) : Except PyError (Doc F) :=
  if s.head? = some BOM then .error .ValueError
  else do
    let j ← readValue MAX_STR_DIGITS (s.length + 1) room (skip s)
    if skip j.2 = [] then .ok j.1 else .error .ValueError

end

/-- What `json.loads` raises. -/
def PyError.Reads (e : PyError) : Prop := e = .ValueError ∨ e = .RecursionError

theorem only_orRaise {α : Type} (o : Option α) : Only PyError.Reads (orRaise .ValueError o) := by
  cases o with
  | none => exact only_error (.inl rfl)
  | some a => exact only_ok

theorem only_deeper (room : ℕ) : Only PyError.Reads (deeper room) := by
  cases room with
  | zero => exact only_error (.inr rfl)
  | succ room => exact only_ok

section
variable [PyFloat F] {limit : ℕ}

theorem only_read (n : ℕ) : (∀ (room : ℕ) (s : Str), Only PyError.Reads (readValue (F := F) limit n room s)) ∧
    (∀ (room : ℕ) (s : Str), Only PyError.Reads (readItems (F := F) limit n room s)) ∧
    ∀ (room : ℕ) (s : Str), Only PyError.Reads (readEntries (F := F) limit n room s) := by
  have hvalue {α : Type} : Only PyError.Reads (.error .ValueError : Except PyError α) := only_error (.inl rfl)
  induction n with
  | zero => exact ⟨fun _ _ => hvalue, fun _ _ => hvalue, fun _ _ => hvalue⟩
  | succ n ih =>
    obtain ⟨hv, hi, he⟩ := ih
    have hitem {α : Type} (room : ℕ) (r : Str) (f : Doc F → List (Doc F) × Str → α) : Only PyError.Reads (do
        let j ← readValue limit n room (skip r)
        let l ← readItems limit n room (skip j.2)
        .ok (f j.1 l)) :=
      (hv _ _).bind fun _ _ => (hi _ _).bind fun _ _ => only_ok
    have hentry {α : Type} (room : ℕ) (r : Str) (f : Str → Doc F → List (Str × Doc F) × Str → α) : Only PyError.Reads (do
        let k ← orRaise .ValueError (key (skip r))
        let j ← readValue limit n room k.2
        let l ← readEntries limit n room (skip j.2)
        .ok (f k.1 j.1 l)) :=
      (only_orRaise _).bind fun _ _ => (hv _ _).bind fun _ _ => (he _ _).bind fun _ _ => only_ok
    refine ⟨fun room s => ?_, fun room s => ?_, fun room s => ?_⟩
    · cases s with
      | nil => exact hvalue
      | cons c r =>
        rw [readValue]
        split
        · refine (only_deeper room).bind fun room _ => ?_
          split
          · exact only_ok
          · exact hitem room r fun j l => (Doc.list (j :: l.1), l.2)
        · split
          · refine (only_deeper room).bind fun room _ => ?_
            split
            · exact only_ok
            · exact hentry room r fun k j l => (Doc.obj (dict ((k, j) :: l.1)), l.2)
          · exact only_orRaise _
    · cases s with
      | nil => exact hvalue
      | cons c r =>
        rw [readItems]
        split
        · exact only_ok
        · split
          · exact hitem room r fun j l => (j :: l.1, l.2)
          · exact hvalue
    · cases s with
      | nil => exact hvalue
      | cons c r =>
        rw [readEntries]
        split
        · exact only_ok
        · split
          · exact hentry room r fun k j l => ((k, j) :: l.1, l.2)
          · exact hvalue

theorem only_reads (room : ℕ) (s : Str) : Only PyError.Reads (reads (F := F) room s) := by
  unfold reads
  split
  · exact only_error (.inl rfl)
  · refine ((only_read _).1 _ _).bind fun e _ => ?_
    split
    · exact only_ok
    · exact only_error (.inl rfl)

theorem orRaise_ok {α : Type} {e : PyError} {o : Option α} {a : α} : orRaise e o = .ok a ↔ o = some a := by
  cases o with
  | none => exact iff_of_false nofun nofun
  | some b => exact ⟨fun h => congrArg some (Except.ok.inj h), fun h => congrArg Except.ok (Option.some.inj h)⟩

end

variable [PyFloat F]

section
variable (gap : Str)

mutual

/-- `json.dumps(j)`, a gap standing behind each comma and each colon. -/
def spaced : Doc F → Str
  | .list (j :: l) => bracket :: (spaced j ++ spacedItems l)
  | .obj ((k, j) :: l) => brace :: (dumpStr k ++ colon :: (gap ++ (spaced j ++ spacedEntries l)))
  | .list [] => text (F := F) (.list [])
  | .obj [] => text (F := F) (.obj [])
  | .null => text (F := F) .null
  | .bool b => text (F := F) (.bool b)
  | .int n => text (F := F) (.int n)
  | .float x => text (.float x)
  | .str s => text (F := F) (.str s)

def spacedItems : List (Doc F) → Str
  | [] => [unbracket]
  | j :: l => comma :: (gap ++ (spaced j ++ spacedItems l))

def spacedEntries : List (Str × Doc F) → Str
  | [] => [unbrace]
  | (k, j) :: l => comma :: (gap ++ (dumpStr k ++ colon :: (gap ++ (spaced j ++ spacedEntries l))))

end

end

theorem skip_gap {gap : Str} (hgap : ∀ c ∈ gap, isSpace c) (r : Str) : skip (gap ++ r) = skip r :=
  List.dropWhile_append_of_pos hgap

theorem follows_spacedItems (gap : Str) (l : List (Doc F)) : Follows (spacedItems gap l) := by
  cases l with
  | nil => exact ⟨unbracket, _, rfl, by decide, by decide⟩
  | cons j l => exact ⟨comma, _, by rw [spacedItems], by decide, by decide⟩

theorem follows_spacedEntries (gap : Str) (l : List (Str × Doc F)) : Follows (spacedEntries gap l) := by
  cases l with
  | nil => exact ⟨unbrace, _, rfl, by decide, by decide⟩
  | cons e l => exact ⟨comma, _, by rw [spacedEntries], by decide, by decide⟩

variable [LawfulPyFloat F] {gap : Str} {limit : ℕ}

theorem spaced_opens (gap : Str) (j : Doc F) : ∃ c q, spaced gap j = c :: q ∧ Opens c := by
  cases j with
  | list l =>
    cases l with
    | nil => exact ⟨bracket, _, rfl, by decide⟩
    | cons j l => exact ⟨bracket, _, by rw [spaced], by decide⟩
  | obj l =>
    cases l with
    | nil => exact ⟨brace, _, rfl, by decide⟩
    | cons e l => exact ⟨brace, _, by rw [spaced], by decide⟩
  | null => exact text_opens (F := F) .null
  | bool b => exact text_opens (F := F) (.bool b)
  | int n => exact text_opens (F := F) (.int n)
  | float x => exact text_opens (.float x)
  | str s => exact text_opens (F := F) (.str s)

theorem skip_spaced (j : Doc F) (r : Str) : skip (spaced gap j ++ r) = spaced gap j ++ r := by
  obtain ⟨c, q, h, hc⟩ := spaced_opens gap j
  rw [h]
  exact skip_opens hc _

theorem key_spaced (hgap : ∀ c ∈ gap, isSpace c) (k : Str) (j : Doc F) (r : Str) :
    key (dumpStr k ++ colon :: (gap ++ (spaced gap j ++ r))) = some (joined k, spaced gap j ++ r) :=
  key_dump k ((skip_gap hgap _).trans (skip_spaced j r))

/-- What is neither a list nor an object takes no room. -/
theorem value_atom : {j : Doc F} → nesting j = 0 → Fits limit j → ∀ {r : Str}, Ends r →
    value limit 1 (text j ++ r) = some (back j, r)
  | .null, _, _, _, _ => value_scalar (by decide) rfl
  | .bool true, _, _, _, _ => value_scalar (by decide) rfl
  | .bool false, _, _, _, _ => value_scalar (by decide) rfl
  | .int m, _, hf, _, hr => value_int (by rwa [Fits] at hf) hr 0
  | .float x, _, _, _, hr => value_float limit x hr 0
  | .str s, _, _, r, _ => by
    have hs : text (F := F) (.str s) ++ r = quote :: (s.flatMap escape ++ quote :: r) := by simp [text, dumpStr]
    rw [hs, value, if_pos rfl, scanstring_dump]
    rfl

theorem atom_head : {j : Doc F} → nesting j = 0 → ∃ c q, text j = c :: q ∧ c ≠ bracket ∧ c ≠ brace
  | .null, _ => ⟨_, _, rfl, by decide⟩
  | .bool true, _ => ⟨_, _, rfl, by decide⟩
  | .bool false, _ => ⟨_, _, rfl, by decide⟩
  | .int n, _ => by
    obtain ⟨c, q, h, -, hc⟩ := number_opens (scanNumber_intText n)
    exact ⟨c, q, h, hc⟩
  | .float x, _ => by
    obtain ⟨c, q, h, -, hc⟩ := float_opens x
    exact ⟨c, q, h, hc⟩
  | .str s, _ => ⟨_, _, rfl, by decide⟩

theorem readValue_atom {j : Doc F} (h : nesting j = 0) (hf : Fits limit j) {r : Str} (hr : Ends r) (n room : ℕ) :
    readValue limit (n + 1) room (text j ++ r) = .ok (back j, r) := by
  have hvalue := value_atom h hf hr
  obtain ⟨c, q, ht, hbracket, hbrace⟩ := atom_head h
  rw [ht, List.cons_append] at hvalue ⊢
  rw [readValue, if_neg hbracket, if_neg hbrace, hvalue]
  rfl

/-- What is left of the room, or none. -/
def within {α : Type} (depth room : ℕ) (a : α) : Except PyError α := if depth ≤ room then .ok a else .error .RecursionError

theorem within_zero {α : Type} (room : ℕ) (a : α) : within 0 room a = .ok a := if_pos (Nat.zero_le _)

theorem within_map {α β : Type} (n room : ℕ) (a : α) (f : α → β) :
    (within n room a >>= fun x => .ok (f x)) = within n room (f a) := by
  unfold within
  split <;> rfl

theorem within_bind {α β : Type} {m n room : ℕ} {a : α} {b : β} {f : α → Except PyError β} (h : f a = within n room b) :
    (within m room a >>= f) = within (max m n) room b := by
  unfold within at h ⊢
  by_cases hm : m ≤ room
  · rw [if_pos hm, ok_bind, h]
    exact if_congr ⟨fun hn => max_le hm hn, fun hmax => (le_max_right _ _).trans hmax⟩ rfl rfl
  · rw [if_neg hm, if_neg fun hmax => hm ((le_max_left _ _).trans hmax)]
    rfl

theorem within_succ {α : Type} (n room : ℕ) (a : α) :
    (do let room ← deeper room; within n room a) = within (n + 1) room a := by
  cases room with
  | zero => exact (if_neg (Nat.not_succ_le_zero n)).symm
  | succ room => exact if_congr Nat.succ_le_succ_iff.symm rfl rfl

mutual

/-- The text of a document is read up to where it ends, where there is room for its nesting. -/
theorem readValue_spaced (hgap : ∀ c ∈ gap, isSpace c) : (j : Doc F) → Fits limit j → ∀ (n room : ℕ) (r : Str), Ends r →
    (spaced gap j).length < n → readValue limit n room (spaced gap j ++ r) = within (nesting j) room (back j, r)
  | .null, hf, n + 1, room, r, hr, _ => (readValue_atom rfl hf hr n room).trans (within_zero _ _).symm
  | .bool b, hf, n + 1, room, r, hr, _ => (readValue_atom rfl hf hr n room).trans (within_zero _ _).symm
  | .int m, hf, n + 1, room, r, hr, _ => (readValue_atom rfl hf hr n room).trans (within_zero _ _).symm
  | .float x, hf, n + 1, room, r, hr, _ => (readValue_atom rfl hf hr n room).trans (within_zero _ _).symm
  | .str s, hf, n + 1, room, r, hr, _ => (readValue_atom rfl hf hr n room).trans (within_zero _ _).symm
  | .list [], _, n + 1, room, r, _, _ => by
    rw [nesting, itemsNesting, ← within_succ]
    rfl
  | .obj [], _, n + 1, room, r, _, _ => by
    rw [nesting, entriesNesting, ← within_succ]
    rfl
  | .list (j :: l), hf, n + 1, room, r, _, hn => by
    rw [Fits, FitsAll] at hf
    rw [spaced, List.length_cons, List.length_append] at hn
    obtain ⟨c, q, hc, hopen⟩ := spaced_opens gap j
    have hhead : ¬ (spaced gap j ++ (spacedItems gap l ++ r)).head? = some unbracket := by
      rw [hc]
      exact fun he => hopen.2.1 (Option.some.inj he)
    have hcons : spaced gap (.list (j :: l)) ++ r = bracket :: (spaced gap j ++ (spacedItems gap l ++ r)) := by
      simp [spaced]
    rw [hcons, readValue, if_pos rfl, nesting, itemsNesting, ← within_succ]
    refine congrArg (deeper room >>= ·) (funext fun room => ?_)
    have hv := readValue_spaced hgap j hf.1 n room (spacedItems gap l ++ r) ((follows_spacedItems gap l).ends r) (by omega)
    have hl := readItems_spaced hgap l hf.2 n room r (by rw [hc, List.length_cons] at hn; omega)
    rw [skip_spaced, if_neg hhead, hv]
    refine within_bind ?_
    rw [(follows_spacedItems gap l).skip r, hl, within_map, back, backItems]
  | .obj ((k, j) :: l), hf, n + 1, room, r, _, hn => by
    rw [Fits, FitsEntries] at hf
    rw [spaced] at hn
    simp only [List.length_append, List.length_cons] at hn
    have hhead : ¬ (dumpStr k ++ colon :: (gap ++ (spaced gap j ++ (spacedEntries gap l ++ r)))).head? = some unbrace := by
      intro he
      exact absurd (Option.some.inj he) (by decide)
    have hcons : spaced gap (.obj ((k, j) :: l)) ++ r =
        brace :: (dumpStr k ++ colon :: (gap ++ (spaced gap j ++ (spacedEntries gap l ++ r)))) := by simp [spaced]
    rw [hcons, readValue, if_neg (by decide), if_pos rfl, nesting, entriesNesting, ← within_succ]
    refine congrArg (deeper room >>= ·) (funext fun room => ?_)
    have hv := readValue_spaced hgap j hf.1 n room (spacedEntries gap l ++ r) ((follows_spacedEntries gap l).ends r)
      (by omega)
    have hl := readEntries_spaced hgap l hf.2 n room r (by omega)
    rw [skip_key, if_neg hhead, key_spaced hgap, orRaise, ok_bind, hv]
    refine within_bind ?_
    rw [(follows_spacedEntries gap l).skip r, hl, within_map, back, backEntries]

theorem readItems_spaced (hgap : ∀ c ∈ gap, isSpace c) : (l : List (Doc F)) → FitsAll limit l → ∀ (n room : ℕ) (r : Str),
    (spacedItems gap l).length < n →
    readItems limit n room (spacedItems gap l ++ r) = within (itemsNesting l) room (backItems l, r)
  | [], _, n + 1, room, r, _ => (within_zero _ _).symm
  | j :: l, hf, n + 1, room, r, hn => by
    rw [FitsAll] at hf
    rw [spacedItems] at hn
    simp only [List.length_append, List.length_cons] at hn
    obtain ⟨c, q, hc, -⟩ := spaced_opens gap j
    have hv := readValue_spaced hgap j hf.1 n room (spacedItems gap l ++ r) ((follows_spacedItems gap l).ends r) (by omega)
    have hl := readItems_spaced hgap l hf.2 n room r (by rw [hc, List.length_cons] at hn; omega)
    have hcons : spacedItems gap (j :: l) ++ r = comma :: (gap ++ (spaced gap j ++ (spacedItems gap l ++ r))) := by
      simp [spacedItems]
    rw [hcons, readItems, if_neg (by decide), if_pos rfl, skip_gap hgap, skip_spaced, hv, itemsNesting]
    refine within_bind ?_
    rw [(follows_spacedItems gap l).skip r, hl, within_map, backItems]

theorem readEntries_spaced (hgap : ∀ c ∈ gap, isSpace c) : (l : List (Str × Doc F)) → FitsEntries limit l →
    ∀ (n room : ℕ) (r : Str), (spacedEntries gap l).length < n →
    readEntries limit n room (spacedEntries gap l ++ r) = within (entriesNesting l) room (backEntries l, r)
  | [], _, n + 1, room, r, _ => (within_zero _ _).symm
  | (k, j) :: l, hf, n + 1, room, r, hn => by
    rw [FitsEntries] at hf
    rw [spacedEntries] at hn
    simp only [List.length_append, List.length_cons] at hn
    have hv := readValue_spaced hgap j hf.1 n room (spacedEntries gap l ++ r) ((follows_spacedEntries gap l).ends r)
      (by omega)
    have hl := readEntries_spaced hgap l hf.2 n room r (by omega)
    have hcons : spacedEntries gap ((k, j) :: l) ++ r =
        comma :: (gap ++ (dumpStr k ++ colon :: (gap ++ (spaced gap j ++ (spacedEntries gap l ++ r))))) := by
      simp [spacedEntries]
    rw [hcons, readEntries, if_neg (by decide), if_pos rfl, skip_gap hgap, skip_key, key_spaced hgap, orRaise, ok_bind, hv,
      entriesNesting]
    refine within_bind ?_
    rw [(follows_spacedEntries gap l).skip r, hl, within_map, backEntries]

end

/-- A document is read back from its text where there is room for it. -/
theorem reads_spaced (hgap : ∀ c ∈ gap, isSpace c) {j : Doc F} (h : Fits MAX_STR_DIGITS j) (room : ℕ) :
    reads room (spaced gap j) = within (nesting j) room (back j) := by
  obtain ⟨c, q, hc, hopen⟩ := spaced_opens gap j
  have hv := readValue_spaced hgap j h ((spaced gap j).length + 1) room [] ends_nil (by omega)
  rw [List.append_nil] at hv
  have hskip : skip (spaced gap j ++ []) = spaced gap j ++ [] := skip_spaced j []
  rw [List.append_nil] at hskip
  have hbom : ¬ (spaced gap j).head? = some BOM := by
    rw [hc]
    exact fun he => hopen.2.2.2 (Option.some.inj he)
  rw [reads, if_neg hbom, hskip, hv]
  unfold within
  split <;> rfl

end NetCoreNoc.Json
