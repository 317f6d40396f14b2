import Mathlib
import NetCoreNoc.Json.Reading

/-! Python's conversions of what `json.loads` returns, and which exceptions they raise. -/
namespace NetCoreNoc.Policies
open Json Checks

/-- What a float stands for. -/
inductive Rank where
  | neg_infinity
  | finite (q : ℚ)
  | infinity
  | nan
  deriving DecidableEq

/-- `<=`: nothing compares with a NaN. -/
def Rank.le : Rank → Rank → Bool
  | .nan, _ => false
  | _, .nan => false
  | .neg_infinity, _ => true
  | _, .infinity => true
  | .finite p, .finite q => p ≤ q
  | _, _ => false

/-- `<` -/
def Rank.lt : Rank → Rank → Bool
  | .nan, _ => false
  | _, .nan => false
  | .neg_infinity, .neg_infinity => false
  | .neg_infinity, _ => true
  | .finite p, .finite q => p < q
  | .finite _, .infinity => true
  | _, _ => false

/-- The conversions of a Python, and the levels that its stack has left for `json`. -/
class Python (F : Type) where
  rank : F → Rank
  /-- `float` of an integer: none is an `OverflowError` -/
  float_int : ℤ → Option F
  /-- `float` of a text: none is a `ValueError` -/
  float_str : Str → Option F
  /-- `int` of a text: none is a `ValueError` -/
  int_str : Str → Option ℤ
  /-- `str` of what is no string -/
  str : Doc F → Str
  repr : Str → Str
  /-- the words of the exception that a text is refused with -/
  refusal : Str → Str
  room : ℕ

class LawfulPython (F : Type) [PyFloat F] [Python F] : Prop where
  finite : ∀ x : F, PyFloat.isfinite x = true ↔ ∃ q : ℚ, Python.rank x = .finite q

variable {F : Type}

/-- `data[key]` -/
def item (data : Doc F) (key : Str) : Except PyError (Doc F) :=
  match data with
  | .obj l => orRaise .KeyError (l.lookup key)
  | _ => .error .TypeError

/-- An entry of an object. -/
def entry (data : Doc F) (key : Str) : Option (Doc F) :=
  match data with
  | .obj l => l.lookup key
  | _ => none

/-- `except`, of some exceptions. -/
def except {α : Type} (names : List PyError) : Except PyError α → Except PyError (Option α)
  | .ok a => .ok (some a)
  | .error e => if e ∈ names then .ok none else .error e

section
variable {α β : Type}

theorem bind_error {x : Except PyError α} {f : α → Except PyError β} {e : PyError} :
    x >>= f = .error e ↔ x = .error e ∨ ∃ a, x = .ok a ∧ f a = .error e := by
  cases x with
  | ok a => exact ⟨fun h => .inr ⟨a, rfl, h⟩, fun h => h.elim nofun fun ⟨_, ha, h⟩ => Except.ok.inj ha ▸ h⟩
  | error d =>
    exact ⟨fun h => .inl (congrArg Except.error (Except.error.inj h)), fun h => h.elim
      (fun h => congrArg Except.error (Except.error.inj h)) fun ⟨_, ha, _⟩ => nomatch ha⟩

theorem orRaise_error {o : Option α} {d e : PyError} : orRaise d o = .error e ↔ o = none ∧ d = e := by
  cases o with
  | none => exact ⟨fun h => ⟨rfl, Except.error.inj h⟩, fun h => congrArg Except.error h.2⟩
  | some a => exact iff_of_false nofun fun h => nomatch h.1

theorem except_ok {names : List PyError} {x : Except PyError α} {o : Option α} : except names x = .ok o ↔
    (∃ a, x = .ok a ∧ o = some a) ∨ ∃ e ∈ names, x = .error e ∧ o = none := by
  cases x with
  | ok a =>
    refine ⟨fun h => .inl ⟨a, rfl, (Except.ok.inj h).symm⟩, fun h => ?_⟩
    rcases h with ⟨b, hb, rfl⟩ | ⟨e, -, he, -⟩
    · exact congrArg (fun a => Except.ok (some a)) (Except.ok.inj hb)
    · exact nomatch he
  | error d =>
    rw [except]
    by_cases hd : d ∈ names
    · rw [if_pos hd]
      refine ⟨fun h => .inr ⟨d, hd, rfl, (Except.ok.inj h).symm⟩, fun h => ?_⟩
      rcases h with ⟨b, hb, -⟩ | ⟨e, -, -, rfl⟩
      · exact nomatch hb
      · rfl
    · rw [if_neg hd]
      refine iff_of_false (fun h => nomatch h) fun h => ?_
      rcases h with ⟨b, hb, -⟩ | ⟨e, hmem, he, -⟩
      · exact nomatch hb
      · exact hd (Except.error.inj he ▸ hmem)

end

theorem item_ok {data d : Doc F} {key : Str} : item data key = .ok d ↔ entry data key = some d := by
  cases data with
  | obj l => exact orRaise_ok
  | _ => exact iff_of_false nofun nofun

theorem item_overflow {data : Doc F} {key : Str} : item data key ≠ .error .OverflowError := by
  cases data with
  | obj l => exact fun h => nomatch (orRaise_error.mp h).2
  | _ => exact nofun

/-- What a conversion raises. -/
def Converts (e : PyError) : Prop := e ∈ [PyError.TypeError, .ValueError, .KeyError, .OverflowError]

instance : DecidablePred Converts := fun e => inferInstanceAs (Decidable (e ∈ _))

theorem only_of_orRaise {P : PyError → Prop} {α : Type} {e : PyError} (h : P e) (o : Option α) : Only P (orRaise e o) :=
  fun _ he => (orRaise_error.mp he).2 ▸ h

theorem only_item (data : Doc F) (key : Str) : Only Converts (item data key) := by
  cases data with
  | obj l => exact only_of_orRaise (by decide) _
  | _ => exact only_error (by decide)

/-- `int` of a fraction: towards zero. -/
def trunc (q : ℚ) : ℤ := if 0 ≤ q then ⌊q⌋ else ⌈q⌉

def Rank.int : Rank → Except PyError ℤ
  | .finite q => .ok (trunc q)
  | .nan => .error .ValueError
  | .infinity => .error .OverflowError
  | .neg_infinity => .error .OverflowError

section
variable [Python F]

/-- `int` -/
def intOf : Doc F → Except PyError ℤ
  | .float x => (Python.rank x).int
  | .int n => .ok n
  | .bool true => .ok 1
  | .bool false => .ok 0
  | .str s => orRaise .ValueError (Python.int_str F s)
  | .null => .error .TypeError
  | .list _ => .error .TypeError
  | .obj _ => .error .TypeError

/-- `str` -/
def strOf : Doc F → Str
  | .str s => s
  | .list l => Python.str (.list l)
  | .obj l => Python.str (.obj l)
  | .null => Python.str (F := F) .null
  | .bool b => Python.str (F := F) (.bool b)
  | .int n => Python.str (F := F) (.int n)
  | .float x => Python.str (.float x)

/-- `bool` -/
def truth : Doc F → Bool
  | .null => false
  | .bool b => b
  | .int n => n ≠ 0
  | .float x => Python.rank x ≠ .finite 0
  | .str s => s ≠ []
  | .list l => !l.isEmpty
  | .obj l => !l.isEmpty

def int_at (data : Doc F) (key : Str) : Except PyError ℤ := do intOf (← item data key)

/-- An integer beyond the floats. -/
def TooLarge (d : Doc F) : Prop := ∃ n : ℤ, d = .int n ∧ Python.float_int (F := F) n = none

/-- An infinite float. -/
def Endless (d : Doc F) : Prop := ∃ x : F, d = .float x ∧ (Python.rank x = .infinity ∨ Python.rank x = .neg_infinity)

theorem intOf_overflow {d : Doc F} : intOf d = .error .OverflowError ↔ Endless d := by
  cases d with
  | float x =>
    have hinj : Endless (.float x) ↔ Python.rank x = .infinity ∨ Python.rank x = .neg_infinity :=
      ⟨fun ⟨y, hy, h⟩ => Doc.float.inj hy ▸ h, fun h => ⟨x, rfl, h⟩⟩
    rw [hinj, intOf]
    cases Python.rank x with
    | infinity => exact iff_of_true rfl (.inl rfl)
    | neg_infinity => exact iff_of_true rfl (.inr rfl)
    | nan => exact iff_of_false nofun (fun h => h.elim nofun nofun)
    | finite q => exact iff_of_false nofun (fun h => h.elim nofun nofun)
  | str s => exact iff_of_false (fun h => nomatch (orRaise_error.mp h).2) fun h => nomatch h.choose_spec.1
  | bool b => cases b <;> exact iff_of_false nofun fun h => nomatch h.choose_spec.1
  | _ => exact iff_of_false nofun fun h => nomatch h.choose_spec.1

theorem int_at_overflow {data : Doc F} {key : Str} :
    int_at data key = .error .OverflowError ↔ ∃ d, entry data key = some d ∧ Endless d := by
  refine bind_error.trans ((or_iff_right item_overflow).trans (exists_congr fun d => ?_))
  rw [item_ok, intOf_overflow]

end

variable [PyFloat F] [Python F]

/-- `float` -/
def floatOf : Doc F → Except PyError F
  | .float x => .ok x
  | .int n => orRaise .OverflowError (Python.float_int n)
  | .bool true => .ok (PyFloat.float (lit "1.0"))
  | .bool false => .ok (PyFloat.float (lit "0.0"))
  | .str s => orRaise .ValueError (Python.float_str s)
  | .null => .error .TypeError
  | .list _ => .error .TypeError
  | .obj _ => .error .TypeError

def float_at (data : Doc F) (key : Str) : Except PyError F := do floatOf (← item data key)

theorem floatOf_overflow {d : Doc F} : floatOf d = .error .OverflowError ↔ TooLarge d := by
  cases d with
  | int n =>
    refine orRaise_error.trans ⟨fun h => ⟨n, rfl, h.1⟩, fun h => ?_⟩
    obtain ⟨m, hm, hnone⟩ := h
    exact ⟨Doc.int.inj hm ▸ hnone, rfl⟩
  | str s => exact iff_of_false (fun h => nomatch (orRaise_error.mp h).2) fun h => nomatch h.choose_spec.1
  | bool b => cases b <;> exact iff_of_false nofun fun h => nomatch h.choose_spec.1
  | _ => exact iff_of_false nofun fun h => nomatch h.choose_spec.1

theorem float_at_overflow {data : Doc F} {key : Str} :
    float_at data key = .error .OverflowError ↔ ∃ d, entry data key = some d ∧ TooLarge d := by
  refine bind_error.trans ((or_iff_right item_overflow).trans (exists_congr fun d => ?_))
  rw [item_ok, floatOf_overflow]

theorem only_float_at (data : Doc F) (key : Str) : Only Converts (float_at data key) := by
  refine (only_item data key).bind fun d _ => ?_
  cases d with
  | float x => exact only_ok
  | int n => exact only_of_orRaise (by decide) _
  | str s => exact only_of_orRaise (by decide) _
  | bool b => cases b <;> exact only_ok
  | _ => exact only_error (by decide)

omit [PyFloat F] in
theorem only_int_at (data : Doc F) (key : Str) : Only Converts (int_at data key) := by
  refine (only_item data key).bind fun d _ => ?_
  cases d with
  | float x =>
    rw [intOf]
    cases Python.rank x with
    | finite q => exact only_ok
    | _ => exact only_error (by decide)
  | int n => exact only_ok
  | str s => exact only_of_orRaise (by decide) _
  | bool b => cases b <;> exact only_ok
  | _ => exact only_error (by decide)

theorem except_some {α : Type} {names : List PyError} {x : Except PyError α} {a : α} :
    except names x = .ok (some a) ↔ x = .ok a := by
  rw [except_ok]
  constructor
  · rintro (⟨b, hb, h⟩ | ⟨e, -, -, h⟩)
    · exact Option.some.inj h ▸ hb
    · exact nomatch h
  · exact fun h => .inl ⟨a, h, rfl⟩

/-- What the reader of a stored text catches: not that the stack ends, nor that a number is too large. -/
def Catches (names : List PyError) : Prop := .ValueError ∈ names ∧ .RecursionError ∉ names ∧ .OverflowError ∉ names

instance : DecidablePred Catches := fun _ => inferInstanceAs (Decidable (_ ∧ _))

theorem only_caught {α : Type} {names : List PyError} {x : Except PyError α} (h : Only Converts x)
    (hnames : ∀ e ∈ [PyError.TypeError, .ValueError, .KeyError], e ∈ names) :
    Only (fun e => e ∈ names ∨ e = .OverflowError) x := by
  intro e he
  have hconverts := h e he
  cases e with
  | OverflowError => exact .inr rfl
  | TypeError => exact .inl (hnames _ (by decide))
  | ValueError => exact .inl (hnames _ (by decide))
  | KeyError => exact .inl (hnames _ (by decide))
  | _ => exact absurd hconverts (by decide)

omit [Python F] in
/-- A text is read without an exception where neither of the two is raised. -/
theorem except_reads {α : Type} {names : List PyError} (hnames : Catches names) {read : Doc F → Except PyError α}
    (hread : ∀ data, Only (fun e => e ∈ names ∨ e = .OverflowError) (read data)) (room : ℕ) (raw : Str) :
    (∃ o, except names (reads room raw >>= read) = .ok o) ↔
      reads (F := F) room raw ≠ .error .RecursionError ∧
        ∀ data, reads room raw = .ok data → read data ≠ .error .OverflowError := by
  obtain ⟨hvalue, hrecursion, hoverflow⟩ := hnames
  constructor
  · rintro ⟨o, ho⟩
    have hcaught {e : PyError} (hx : reads room raw >>= read = .error e) : e ∈ names := by
      rcases except_ok.mp ho with ⟨a, ha, -⟩ | ⟨d, hd, hx', -⟩
      · exact nomatch hx.symm.trans ha
      · exact Except.error.inj (hx.symm.trans hx') ▸ hd
    refine ⟨fun h => hrecursion (hcaught (bind_error.mpr (.inl h))), fun data hdata h => hoverflow ?_⟩
    exact hcaught (bind_error.mpr (.inr ⟨data, hdata, h⟩))
  · rintro ⟨hshallow, hconverts⟩
    cases hx : reads room raw >>= read with
    | ok a => exact ⟨some a, rfl⟩
    | error e =>
      refine ⟨none, except_ok.mpr (.inr ⟨e, ?_, rfl, rfl⟩)⟩
      rcases bind_error.mp hx with h | ⟨data, hdata, h⟩
      · rcases only_reads room raw e h with rfl | rfl
        · exact hvalue
        · exact absurd h hshallow
      · rcases hread data e h with he | rfl
        · exact he
        · exact absurd h (hconverts data hdata)

end NetCoreNoc.Policies
