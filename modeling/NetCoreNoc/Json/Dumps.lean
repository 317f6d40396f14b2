import Mathlib
import NetCoreNoc.Json.RoundTrip

/-! `json.dumps` of Python values with their keys sorted, and which values' texts survive being read and dumped again. -/
namespace NetCoreNoc.Json

/-- How a Python compares its floats. -/
class PyOrder (F : Type) where
  lt : F → F → Bool
  lt_int : F → ℤ → Bool
  int_lt : ℤ → F → Bool

/-- A key of a dictionary that `json.dumps` takes. -/
inductive Key (F : Type) where
  | null
  | bool (b : Bool)
  | int (n : ℤ)
  | float (x : F)
  | str (s : Str)
  deriving Repr

/-- A value that `json.dumps` takes; a tuple is a list. -/
inductive Value (F : Type) where
  | null
  | bool (b : Bool)
  | int (n : ℤ)
  | float (x : F)
  | str (s : Str)
  | list (items : List (Value F))
  | dict (items : List (Key F × Value F))
  deriving Repr

variable {F : Type}

mutual

/-- What `json.loads` returns, as a value. -/
def Doc.value : Doc F → Value F
  | .null => .null
  | .bool b => .bool b
  | .int n => .int n
  | .float x => .float x
  | .str s => .str s
  | .list l => .list (itemValues l)
  | .obj l => .dict (entryValues l)

def itemValues : List (Doc F) → List (Value F)
  | [] => []
  | j :: l => j.value :: itemValues l

def entryValues : List (Str × Doc F) → List (Key F × Value F)
  | [] => []
  | (k, j) :: l => (.str k, j.value) :: entryValues l

end

theorem mem_put {α : Type} {d : List (Str × α)} {k : Str} (h : k ∉ d.map Prod.fst) (v : α) : put d k v = d ++ [(k, v)] := by
  have hany : ¬ (d.any fun e => e.1 = k) = true := by
    simp only [List.any_eq_true, decide_eq_true_eq, not_exists, not_and]
    exact fun e he hk => h (List.mem_map.mpr ⟨e, he, hk⟩)
  rw [put, if_neg hany]

/-- A dictionary of pairs whose keys differ is these pairs. -/
theorem dict_eq {α : Type} {l : List (Str × α)} (h : (l.map Prod.fst).Nodup) : dict l = l := by
  have hfold (d r : List (Str × α)) (hr : ((d ++ r).map Prod.fst).Nodup) :
      r.foldl (fun d e => put d e.1 e.2) d = d ++ r := by
    induction r generalizing d with
    | nil => simp
    | cons e r ih =>
      have hsplit : d ++ e :: r = d ++ [e] ++ r := by simp
      rw [hsplit] at hr ⊢
      have hfresh : e.1 ∉ d.map Prod.fst := by
        rw [List.map_append, List.map_append, List.nodup_append, List.nodup_append] at hr
        exact fun he => hr.1.2.2 _ he e.1 (by simp) rfl
      rw [List.foldl_cons, mem_put hfresh]
      exact ih _ hr
  exact hfold [] l h

theorem backEntries_keys (l : List (Str × Doc F)) : (backEntries l).map Prod.fst = l.map fun e => joined e.1 := by
  induction l with
  | nil => rfl
  | cons e l ih => rw [backEntries, List.map_cons, List.map_cons, ih]

/-- `<` of two keys, where it is no `TypeError`. -/
def Key.lt [PyOrder F] : Key F → Key F → Option Bool
  | .str s, .str t => some (s < t)
  | .bool a, .bool b => some (a.toNat < b.toNat)
  | .bool a, .int n => some ((a.toNat : ℤ) < n)
  | .bool a, .float x => some (PyOrder.int_lt a.toNat x)
  | .int m, .bool b => some (m < b.toNat)
  | .int m, .int n => some (m < n)
  | .int m, .float x => some (PyOrder.int_lt m x)
  | .float x, .bool b => some (PyOrder.lt_int x b.toNat)
  | .float x, .int n => some (PyOrder.lt_int x n)
  | .float x, .float y => some (PyOrder.lt x y)
  | _, _ => none

section
variable [PyOrder F] {α : Type}

def insertKey (e : Key F × α) : List (Key F × α) → Option (List (Key F × α))
  | [] => some [e]
  | f :: l =>
    match f.1.lt e.1 with
    | none => none
    | some true => (insertKey e l).map (f :: ·)
    | some false => some (e :: f :: l)

/-- `sorted` of a dictionary's items: their keys differ, so only keys are compared. -/
def sortKeys : List (Key F × α) → Option (List (Key F × α))
  | [] => some []
  | e :: l => (sortKeys l).bind (insertKey e)

theorem insertKey_perm {e : Key F × α} {l r : List (Key F × α)} (h : insertKey e l = some r) :
    r.Perm (e :: l) := by
  induction l generalizing r with
  | nil => exact Option.some.inj h ▸ .refl _
  | cons f l ih =>
    rw [insertKey] at h
    split at h
    · cases h
    · obtain ⟨q, hq, rfl⟩ := Option.map_eq_some_iff.mp h
      exact ((ih hq).cons f).trans (.swap e f l)
    · exact Option.some.inj h ▸ .refl _

theorem sortKeys_perm {l r : List (Key F × α)} (h : sortKeys l = some r) : r.Perm l := by
  induction l generalizing r with
  | nil => exact Option.some.inj h ▸ .refl _
  | cons e l ih =>
    obtain ⟨q, hq, hr⟩ := Option.bind_eq_some_iff.mp h
    exact (insertKey_perm hr).trans ((ih hq).cons e)

/-- String keys that stand in their order stay where they are. -/
theorem sortKeys_strings {l : List (Str × α)} (h : (l.map Prod.fst).Pairwise (· < ·)) :
    sortKeys (l.map fun e => (Key.str (F := F) e.1, e.2)) = some (l.map fun e => (Key.str e.1, e.2)) := by
  induction l with
  | nil => rfl
  | cons e l ih =>
    obtain ⟨he, hl⟩ := List.pairwise_cons.mp h
    rw [List.map_cons, sortKeys, ih hl, Option.bind_some]
    cases l with
    | nil => rfl
    | cons f l =>
      have hlt : (Key.str (F := F) f.1).lt (.str e.1) = some false := by
        simpa [Key.lt] using (he f.1 (by simp)).le
      simp only [List.map_cons, insertKey, hlt]

end

variable [PyFloat F]

def Key.text : Key F → Option Str
  | .null => some (lit "null")
  | .bool true => some (lit "true")
  | .bool false => some (lit "false")
  | .int n => if digitCount n ≤ MAX_STR_DIGITS then some (intText n) else none
  | .float x => some (PyFloat.text x)
  | .str s => some s

/-- The entries of an object, their keys as texts. -/
def keyTexts : List (Key F × Doc F) → Option (List (Str × Doc F))
  | [] => some []
  | (k, j) :: l =>
    match k.text, keyTexts l with
    | some t, some r => some ((t, j) :: r)
    | _, _ => none

variable [PyOrder F]

mutual

/-- The document that `json.dumps(v, sort_keys=True)` writes, where it raises nothing. -/
def Value.doc : Value F → Option (Doc F)
  | .null => some .null
  | .bool b => some (.bool b)
  | .int n => if digitCount n ≤ MAX_STR_DIGITS then some (.int n) else none
  | .float x => some (.float x)
  | .str s => some (.str s)
  | .list l => (itemDocs l).map .list
  | .dict l => (((entryDocs l).bind sortKeys).bind keyTexts).map .obj

def itemDocs : List (Value F) → Option (List (Doc F))
  | [] => some []
  | v :: l =>
    match v.doc, itemDocs l with
    | some j, some r => some (j :: r)
    | _, _ => none

def entryDocs : List (Key F × Value F) → Option (List (Key F × Doc F))
  | [] => some []
  | (k, v) :: l =>
    match v.doc, entryDocs l with
    | some j, some r => some ((k, j) :: r)
    | _, _ => none

end

/-- `json.dumps(v, sort_keys=True, separators=(",", ":"))` -/
def dumps (v : Value F) : Option Str := v.doc.map text

mutual

/-- Keys in every object that, as they read, stand in their order. -/
def Steady : Doc F → Prop
  | .list l => SteadyAll l
  | .obj l => (l.map fun e => joined e.1).Pairwise (· < ·) ∧ SteadyEntries l
  | _ => True

def SteadyAll : List (Doc F) → Prop
  | [] => True
  | j :: l => Steady j ∧ SteadyAll l

def SteadyEntries : List (Str × Doc F) → Prop
  | [] => True
  | (_, j) :: l => Steady j ∧ SteadyEntries l

end

mutual

def decideSteady : (j : Doc F) → Decidable (Steady j)
  | .list l => decideSteadyAll l
  | .obj l => @instDecidableAnd _ _ inferInstance (decideSteadyEntries l)
  | .null | .bool _ | .int _ | .float _ | .str _ => .isTrue trivial

def decideSteadyAll : (l : List (Doc F)) → Decidable (SteadyAll l)
  | [] => .isTrue trivial
  | j :: l => @instDecidableAnd _ _ (decideSteady j) (decideSteadyAll l)

def decideSteadyEntries : (l : List (Str × Doc F)) → Decidable (SteadyEntries l)
  | [] => .isTrue trivial
  | (_, j) :: l => @instDecidableAnd _ _ (decideSteady j) (decideSteadyEntries l)

end

instance : DecidablePred (Steady (F := F)) := decideSteady

omit [PyOrder F] in
theorem keyTexts_strings (l : List (Str × Doc F)) : keyTexts (l.map fun e => (.str e.1, e.2)) = some l := by
  induction l with
  | nil => rfl
  | cons e l ih => rw [List.map_cons, keyTexts, Key.text, ih]

omit [PyOrder F] in
theorem keyTexts_fits {l : List (Key F × Doc F)} {r : List (Str × Doc F)} (h : keyTexts l = some r) {limit : ℕ}
    (hl : ∀ e ∈ l, Fits limit e.2) : FitsEntries limit r := by
  induction l generalizing r with
  | nil => exact Option.some.inj h ▸ trivial
  | cons e l ih =>
    obtain ⟨he, hl⟩ := List.forall_mem_cons.mp hl
    rw [keyTexts] at h
    split at h
    · next ht => exact Option.some.inj h ▸ ⟨he, ih ht hl⟩
    · cases h

mutual

/-- A document that is written is within the limit of digits. -/
theorem fits_doc : (v : Value F) → ∀ j : Doc F, v.doc = some j → Fits MAX_STR_DIGITS j
  | .null, j, h => Option.some.inj h ▸ trivial
  | .bool b, j, h => Option.some.inj h ▸ trivial
  | .int n, j, h => by
    rw [Value.doc] at h
    split_ifs at h with hn
    exact Option.some.inj h ▸ .inr hn
  | .float x, j, h => Option.some.inj h ▸ trivial
  | .str s, j, h => Option.some.inj h ▸ trivial
  | .list l, j, h => by
    rw [Value.doc] at h
    obtain ⟨r, hr, rfl⟩ := Option.map_eq_some_iff.mp h
    exact fits_itemDocs l r hr
  | .dict l, j, h => by
    rw [Value.doc] at h
    obtain ⟨r, hr, rfl⟩ := Option.map_eq_some_iff.mp h
    obtain ⟨q, hq, ht⟩ := Option.bind_eq_some_iff.mp hr
    obtain ⟨p, hp, hs⟩ := Option.bind_eq_some_iff.mp hq
    have hall := fits_entryDocs l p hp
    exact keyTexts_fits ht fun e he => hall e ((sortKeys_perm hs).subset he)

theorem fits_itemDocs : (l : List (Value F)) → ∀ r : List (Doc F), itemDocs l = some r → FitsAll MAX_STR_DIGITS r
  | [], r, h => Option.some.inj h ▸ trivial
  | v :: l, r, h => by
    rw [itemDocs] at h
    split at h
    · next hv hl => exact Option.some.inj h ▸ ⟨fits_doc v _ hv, fits_itemDocs l _ hl⟩
    · cases h

theorem fits_entryDocs : (l : List (Key F × Value F)) → ∀ r : List (Key F × Doc F), entryDocs l = some r →
    ∀ e ∈ r, Fits MAX_STR_DIGITS e.2
  | [], r, h => Option.some.inj h ▸ nofun
  | (k, v) :: l, r, h => by
    rw [entryDocs] at h
    split at h
    · next hv hl =>
      exact Option.some.inj h ▸ List.forall_mem_cons.mpr ⟨fits_doc v _ hv, fits_entryDocs l _ hl⟩
    · cases h

end

mutual

/-- A steady document that is read back is written as it was. -/
theorem steady_back : (j : Doc F) → Fits MAX_STR_DIGITS j → Steady j →
    (back j).value.doc = some (back j) ∧ text (back j) = text j
  | .null, _, _ => ⟨rfl, rfl⟩
  | .bool _, _, _ => ⟨rfl, rfl⟩
  | .int n, hf, _ => ⟨if_pos (hf.resolve_left (by decide)), rfl⟩
  | .float _, _, _ => ⟨rfl, rfl⟩
  | .str s, _, _ => ⟨rfl, dumpStr_joined s⟩
  | .list l, hf, hs => by
    obtain ⟨hd, ht⟩ := steady_backItems l hf hs
    refine ⟨by rw [back, Doc.value, Value.doc, hd]; rfl, ?_⟩
    cases l with
    | nil => rfl
    | cons j l =>
      rw [back, backItems, text, text]
      rw [backItems, itemsText, itemsText] at ht
      exact congrArg (bracket :: ·) (List.cons.inj ht).2
  | .obj l, hf, hs => by
    obtain ⟨hd, ht⟩ := steady_backEntries l hf hs.2
    have hkeys : ((backEntries l).map Prod.fst).Pairwise (· < ·) := backEntries_keys l ▸ hs.1
    have hdict : dict (backEntries l) = backEntries l := dict_eq (hkeys.imp ne_of_lt)
    rw [back, hdict]
    refine ⟨?_, ?_⟩
    · rw [Doc.value, Value.doc, hd, Option.bind_some, sortKeys_strings hkeys, Option.bind_some, keyTexts_strings]
      rfl
    · cases l with
      | nil => rfl
      | cons e l =>
        obtain ⟨k, j⟩ := e
        rw [backEntries, text, text]
        rw [backEntries, entriesText, entriesText] at ht
        exact congrArg (brace :: ·) (List.cons.inj ht).2

theorem steady_backItems : (l : List (Doc F)) → FitsAll MAX_STR_DIGITS l → SteadyAll l →
    itemDocs (itemValues (backItems l)) = some (backItems l) ∧ itemsText (backItems l) = itemsText l
  | [], _, _ => ⟨rfl, rfl⟩
  | j :: l, hf, hs => by
    obtain ⟨hj, htj⟩ := steady_back j hf.1 hs.1
    obtain ⟨hl, htl⟩ := steady_backItems l hf.2 hs.2
    exact ⟨by rw [backItems, itemValues, itemDocs, hj, hl], by rw [backItems, itemsText, itemsText, htj, htl]⟩

theorem steady_backEntries : (l : List (Str × Doc F)) → FitsEntries MAX_STR_DIGITS l → SteadyEntries l →
    entryDocs (entryValues (backEntries l)) = some ((backEntries l).map fun e => (.str e.1, e.2)) ∧
      entriesText (backEntries l) = entriesText l
  | [], _, _ => ⟨rfl, rfl⟩
  | (k, j) :: l, hf, hs => by
    obtain ⟨hj, htj⟩ := steady_back j hf.1 hs.1
    obtain ⟨hl, htl⟩ := steady_backEntries l hf.2 hs.2
    refine ⟨by rw [backEntries, entryValues, entryDocs, hj, hl]; rfl, ?_⟩
    rw [backEntries, entriesText, entriesText, htj, htl, dumpStr_joined]

end

end NetCoreNoc.Json
