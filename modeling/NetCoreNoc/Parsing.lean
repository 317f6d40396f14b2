import Mathlib

/-! Incremental parsing of a stream of records. What stands at the front of the input is decided
once and for all: more input behind it changes nothing but what is left over. -/
namespace NetCoreNoc.Parsing
variable {β ρ : Type*}

/-- What stands at the front of some input. -/
inductive Front (ρ β : Type*) where
  | short
  | corrupt
  | intact (r : ρ) (rest : List β)
  deriving DecidableEq

/-- A reader of single records whose verdict survives further input. -/
structure Framing (ρ β : Type*) where
  front : List β → Front ρ β
  shrinks : ∀ {b r rest}, front b = .intact r rest → rest.length < b.length
  corrupt_append : ∀ {b} (c), front b = .corrupt → front (b ++ c) = .corrupt
  intact_append : ∀ {b r rest} (c), front b = .intact r rest → front (b ++ c) = .intact r (rest ++ c)

namespace Framing
variable (F : Framing ρ β)

/-- Take records off the front while they are intact: the records, what is left, and whether what
is left is corrupt rather than short. -/
def parseFuel : Nat → List β → List ρ × List β × Bool
  | 0, b => ([], b, false)
  | n + 1, b =>
    match F.front b with
    | .short => ([], b, false)
    | .corrupt => ([], b, true)
    | .intact r rest => (r :: (parseFuel n rest).1, (parseFuel n rest).2)

/-- Every record takes some input, so the input's length is fuel enough. -/
def parse (b : List β) : List ρ × List β × Bool := F.parseFuel (b.length + 1) b

variable {F}

private theorem parseFuel_enough {n m : Nat} {b : List β} (hn : b.length < n) (hm : b.length < m) :
    F.parseFuel n b = F.parseFuel m b := by
  induction n generalizing m b with
  | zero => omega
  | succ n ih =>
    obtain ⟨m, rfl⟩ : ∃ k, m = k + 1 := ⟨m - 1, by omega⟩
    simp only [parseFuel]
    cases hf : F.front b with
    | short | corrupt => rfl
    | intact r rest =>
      have hlt := F.shrinks hf
      simp only [ih (show rest.length < n by omega) (show rest.length < m by omega)]

theorem parse_short {b : List β} (h : F.front b = .short) : F.parse b = ([], b, false) := by
  simp only [parse, parseFuel, h]

theorem parse_corrupt {b : List β} (h : F.front b = .corrupt) : F.parse b = ([], b, true) := by
  simp only [parse, parseFuel, h]

theorem parse_intact {b rest : List β} {r : ρ} (h : F.front b = .intact r rest) :
    F.parse b = (r :: (F.parse rest).1, (F.parse rest).2) := by
  have hlt := F.shrinks h
  have he : F.parseFuel b.length rest = F.parse rest := parseFuel_enough hlt (by omega)
  rw [parse, parseFuel, h]
  simp only [he]

/-- Rule of induction over the records at the front of some input. -/
theorem parse_induction {P : List β → Prop} (hs : ∀ b, F.front b = .short → P b)
    (hc : ∀ b, F.front b = .corrupt → P b)
    (hi : ∀ b r rest, F.front b = .intact r rest → P rest → P b) (b : List β) : P b := by
  induction hn : b.length using Nat.strong_induction_on generalizing b with
  | _ n ih =>
    cases hf : F.front b with
    | short => exact hs b hf
    | corrupt => exact hc b hf
    | intact r rest => exact hi b r rest hf (ih _ (hn ▸ F.shrinks hf) rest rfl)

/-- Parsing in two chunks: the second starts with what the first left over. -/
theorem parse_append (b c : List β) :
    F.parse (b ++ c) =
      if (F.parse b).2.2 then ((F.parse b).1, (F.parse b).2.1 ++ c, true)
      else ((F.parse b).1 ++ (F.parse ((F.parse b).2.1 ++ c)).1, (F.parse ((F.parse b).2.1 ++ c)).2) := by
  induction b using F.parse_induction with
  | hs b h => simp [parse_short h]
  | hc b h => simp [parse_corrupt h, parse_corrupt (F.corrupt_append c h)]
  | hi b r rest h ih =>
    rw [parse_intact (F.intact_append c h), parse_intact h, ih]
    split <;> simp_all

/-- What is left over holds no further record. -/
theorem parse_rest (b : List β) :
    F.front (F.parse b).2.1 = if (F.parse b).2.2 then .corrupt else .short := by
  induction b using F.parse_induction with
  | hs b h => simp [parse_short h, h]
  | hc b h => simp [parse_corrupt h, h]
  | hi b r rest h ih => simpa [parse_intact h] using ih

/-- Parsing takes from its input, as soon as it takes a record. -/
theorem parse_length (b : List β) : (F.parse b).2.1.length ≤ b.length ∧
    ((F.parse b).1 ≠ [] → (F.parse b).2.1.length < b.length) := by
  induction b using F.parse_induction with
  | hs b h => simp [parse_short h]
  | hc b h => simp [parse_corrupt h]
  | hi b r rest h ih =>
    rw [parse_intact h]
    have hlt := F.shrinks h
    exact ⟨by simp only; omega, fun _ => by simp only; omega⟩

/-- Input that is short stays short when its end is cut off. -/
theorem short_mono {a b : List β} (h : F.front b = .short) (hab : a <+: b) :
    F.front a = .short := by
  obtain ⟨c, rfl⟩ := hab
  cases hf : F.front a with
  | short => rfl
  | corrupt => rw [F.corrupt_append c hf] at h; exact absurd h (by simp)
  | intact r rest => rw [F.intact_append c hf] at h; exact absurd h (by simp)

end Framing

/-- A framing together with the writer of its records. -/
structure Coding (ρ β : Type*) extends Framing ρ β where
  encode : ρ → List β
  /-- The records that can be written. -/
  fits : ρ → Prop
  front_encode : ∀ {r} (c), fits r → front (encode r ++ c) = .intact r c
  front_nil : front [] = .short

namespace Coding
variable {C : Coding ρ β}

/-- Records written one after another. -/
def encodes (C : Coding ρ β) (rs : List ρ) : List β := rs.flatMap C.encode

@[simp] theorem encodes_nil : C.encodes [] = [] := rfl
@[simp] theorem encodes_cons (r : ρ) (rs : List ρ) :
    C.encodes (r :: rs) = C.encode r ++ C.encodes rs := List.flatMap_cons
@[simp] theorem encodes_append (rs qs : List ρ) :
    C.encodes (rs ++ qs) = C.encodes rs ++ C.encodes qs := List.flatMap_append

/-- Written records are read back, and parsing goes on behind them. -/
theorem parse_encodes {rs : List ρ} (h : ∀ r ∈ rs, C.fits r) (b : List β) :
    C.parse (C.encodes rs ++ b) = (rs ++ (C.parse b).1, (C.parse b).2) := by
  induction rs with
  | nil => rfl
  | cons r rs ih =>
    have hf := C.front_encode (C.encodes rs ++ b) (h r (by simp))
    rw [encodes_cons, List.append_assoc, Framing.parse_intact hf, ih fun q hq => h q (by simp [hq])]
    rfl

theorem parse_encodes_short {rs : List ρ} (h : ∀ r ∈ rs, C.fits r) {t : List β}
    (ht : C.front t = .short) : C.parse (C.encodes rs ++ t) = (rs, t, false) := by
  rw [parse_encodes h, Framing.parse_short ht, List.append_nil]

/-- A record cut short is short input. -/
theorem front_cut {r : ρ} (h : C.fits r) {t u : List β} (he : C.encode r = t ++ u) (hu : u ≠ []) :
    C.front t = .short := by
  have hr : C.front (t ++ u) = .intact r [] := by
    rw [← he]
    simpa using C.front_encode [] h
  cases hf : C.front t with
  | short => rfl
  | corrupt => rw [C.corrupt_append u hf] at hr; exact absurd hr (by simp)
  | intact q rest =>
    rw [C.intact_append u hf] at hr
    simp only [Front.intact.injEq, List.append_eq_nil_iff] at hr
    exact absurd hr.2.2 hu

/-- What has arrived of a stream of records: some whole ones and the beginning of the next. -/
theorem prefix_encodes {rs : List ρ} (h : ∀ r ∈ rs, C.fits r) {b : List β}
    (hb : b <+: C.encodes rs) :
    ∃ n t, b = C.encodes (rs.take n) ++ t ∧ C.front t = .short ∧ t <+: C.encodes (rs.drop n) := by
  induction rs generalizing b with
  | nil =>
    obtain rfl : b = [] := by simpa using hb
    exact ⟨0, [], rfl, C.front_nil, List.nil_prefix⟩
  | cons r rs ih =>
    obtain ⟨c, hc⟩ := hb
    rw [encodes_cons] at hc
    rcases List.append_eq_append_iff.mp hc with ⟨u, hu, hc'⟩ | ⟨b', rfl, hb'⟩
    · by_cases hn : u = []
      · subst hn
        refine ⟨1, [], by simpa using hu.symm, C.front_nil, List.nil_prefix⟩
      · exact ⟨0, b, rfl, front_cut (h r (by simp)) hu hn, ⟨c, by simpa using hc⟩⟩
    · obtain ⟨n, t, rfl, ht, hp⟩ := ih (fun q hq => h q (by simp [hq])) ⟨c, hb'.symm⟩
      exact ⟨n + 1, t, by simp, ht, by simpa using hp⟩

end Coding
end NetCoreNoc.Parsing
