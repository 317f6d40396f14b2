import Mathlib
import NetCoreNoc.Json.Strings

/-! Base64 and its alphabet for URLs, and its decoding in strict mode and not. -/
namespace NetCoreNoc.Base64
open Json

/-- A digit of the alphabet. -/
def digit (n : ℕ) : CodePoint :=
  Fin.ofNat _ (if n < 26 then 65 + n else if n < 52 then 71 + n else if n < 62 then n - 4 else if n = 62 then 43 else 47)

def valueOf (c : CodePoint) : Option ℕ :=
  if 65 ≤ c.val ∧ c.val ≤ 90 then some (c.val - 65)
  else if 97 ≤ c.val ∧ c.val ≤ 122 then some (c.val - 71)
  else if 48 ≤ c.val ∧ c.val ≤ 57 then some (c.val + 4)
  else if c.val = 43 then some 62
  else if c.val = 47 then some 63
  else none

def pad : CodePoint := 61

/-- `base64.b64encode` -/
def b64encode : List UInt8 → Str
  | [] => []
  | [a] => [digit (a.toNat / 4), digit (a.toNat % 4 * 16), pad, pad]
  | [a, b] => [digit (a.toNat / 4), digit (a.toNat % 4 * 16 + b.toNat / 16), digit (b.toNat % 16 * 4), pad]
  | a :: b :: c :: r => digit (a.toNat / 4) :: digit (a.toNat % 4 * 16 + b.toNat / 16) ::
    digit (b.toNat % 16 * 4 + c.toNat / 64) :: digit (c.toNat % 64) :: b64encode r

/-- `base64.b64decode` with `validate`: nothing stands behind the padding, or in it. -/
def b64decode : Str → Option (List UInt8)
  | [] => some []
  | a :: b :: c :: d :: r =>
    if d = pad then
      if r ≠ [] then none
      else if c = pad then do
        let x ← valueOf a
        let y ← valueOf b
        some [UInt8.ofNat (x * 4 + y / 16)]
      else do
        let x ← valueOf a
        let y ← valueOf b
        let z ← valueOf c
        some [UInt8.ofNat (x * 4 + y / 16), UInt8.ofNat (y % 16 * 16 + z / 4)]
    else do
      let x ← valueOf a
      let y ← valueOf b
      let z ← valueOf c
      let w ← valueOf d
      let l ← b64decode r
      some (UInt8.ofNat (x * 4 + y / 16) :: UInt8.ofNat (y % 16 * 16 + z / 4) :: UInt8.ofNat (z % 4 * 64 + w) :: l)
  | _ => none

theorem valueOf_digit {n : ℕ} (h : n < 64) : valueOf (digit n) = some n := by
  interval_cases n <;> rfl

theorem digit_ne_pad {n : ℕ} (h : n < 64) : digit n ≠ pad := by
  interval_cases n <;> decide

theorem digit_ascii {n : ℕ} (h : n < 64) : (digit n).val < 0x80 := by
  interval_cases n <;> decide

theorem byte_eq {n : ℕ} {b : UInt8} (h : n = b.toNat) : UInt8.ofNat n = b := by
  rw [h, UInt8.ofNat_toNat]

theorem b64decode_b64encode (l : List UInt8) : b64decode (b64encode l) = some l := by
  induction l using b64encode.induct with
  | case1 => rfl
  | case2 a =>
    have ha := a.toNat_lt
    have hx := valueOf_digit (show a.toNat / 4 < 64 by omega)
    have hy := valueOf_digit (show a.toNat % 4 * 16 < 64 by omega)
    simp only [b64encode, b64decode, if_true, ne_eq, not_true_eq_false, if_false, hx, hy, Option.bind_eq_bind,
      Option.bind_some, byte_eq (show a.toNat / 4 * 4 + a.toNat % 4 * 16 / 16 = a.toNat by omega)]
  | case3 a b =>
    have ha := a.toNat_lt
    have hb := b.toNat_lt
    have hx := valueOf_digit (show a.toNat / 4 < 64 by omega)
    have hy := valueOf_digit (show a.toNat % 4 * 16 + b.toNat / 16 < 64 by omega)
    have hz := valueOf_digit (show b.toNat % 16 * 4 < 64 by omega)
    have hpad := digit_ne_pad (show b.toNat % 16 * 4 < 64 by omega)
    simp only [b64encode, b64decode, if_true, ne_eq, not_true_eq_false, if_false, hx, hy, hz, hpad,
      Option.bind_eq_bind, Option.bind_some,
      byte_eq (show a.toNat / 4 * 4 + (a.toNat % 4 * 16 + b.toNat / 16) / 16 = a.toNat by omega),
      byte_eq (show (a.toNat % 4 * 16 + b.toNat / 16) % 16 * 16 + b.toNat % 16 * 4 / 4 = b.toNat by omega)]
  | case4 a b c r ih =>
    have ha := a.toNat_lt
    have hb := b.toNat_lt
    have hc := c.toNat_lt
    have hx := valueOf_digit (show a.toNat / 4 < 64 by omega)
    have hy := valueOf_digit (show a.toNat % 4 * 16 + b.toNat / 16 < 64 by omega)
    have hz := valueOf_digit (show b.toNat % 16 * 4 + c.toNat / 64 < 64 by omega)
    have hw := valueOf_digit (show c.toNat % 64 < 64 by omega)
    have hpad := digit_ne_pad (show c.toNat % 64 < 64 by omega)
    simp only [b64encode, b64decode, if_false, hx, hy, hz, hw, hpad, ih, Option.bind_eq_bind, Option.bind_some,
      byte_eq (show a.toNat / 4 * 4 + (a.toNat % 4 * 16 + b.toNat / 16) / 16 = a.toNat by omega),
      byte_eq (show (a.toNat % 4 * 16 + b.toNat / 16) % 16 * 16 + (b.toNat % 16 * 4 + c.toNat / 64) / 4 = b.toNat by
        omega),
      byte_eq (show (b.toNat % 16 * 4 + c.toNat / 64) % 4 * 64 + c.toNat % 64 = c.toNat by omega)]

theorem b64encode_ascii (l : List UInt8) : ∀ c ∈ b64encode l, c.val < 0x80 := by
  induction l using b64encode.induct with
  | case1 => exact nofun
  | case2 a =>
    have ha := a.toNat_lt
    simp only [b64encode, List.forall_mem_cons]
    exact ⟨digit_ascii (by omega), digit_ascii (by omega), by decide, by decide, nofun⟩
  | case3 a b =>
    have ha := a.toNat_lt
    have hb := b.toNat_lt
    simp only [b64encode, List.forall_mem_cons]
    exact ⟨digit_ascii (by omega), digit_ascii (by omega), digit_ascii (by omega), by decide, nofun⟩
  | case4 a b c r ih =>
    have ha := a.toNat_lt
    have hb := b.toNat_lt
    have hc := c.toNat_lt
    simp only [b64encode, List.forall_mem_cons]
    exact ⟨digit_ascii (by omega), digit_ascii (by omega), digit_ascii (by omega), digit_ascii (by omega), ih⟩

/-- `binascii.a2b_base64`: what is no digit is skipped, and nothing is read past the padding. -/
def a2b_base64 : Str → ℕ → ℕ → ℕ → Option (List UInt8)
  | [], quad_pos, _, _ => if quad_pos = 0 then some [] else none
  | c :: r, quad_pos, leftchar, pads =>
    if c = pad then
      if 2 ≤ quad_pos then
        if 4 ≤ quad_pos + (pads + 1) then some [] else a2b_base64 r quad_pos leftchar (pads + 1)
      else a2b_base64 r quad_pos leftchar pads
    else match valueOf c with
      | none => a2b_base64 r quad_pos leftchar pads
      | some n => match quad_pos with
        | 0 => a2b_base64 r 1 n 0
        | 1 => (a2b_base64 r 2 (n % 16) 0).map (UInt8.ofNat (leftchar * 4 + n / 16) :: ·)
        | 2 => (a2b_base64 r 3 (n % 4) 0).map (UInt8.ofNat (leftchar * 16 + n / 4) :: ·)
        | _ => (a2b_base64 r 0 0 0).map (UInt8.ofNat (leftchar * 64 + n) :: ·)

section Quad
variable {n : ℕ} (h : n < 64) (r : Str) (leftchar pads : ℕ)
include h

theorem a2b_first : a2b_base64 (digit n :: r) 0 leftchar pads = a2b_base64 r 1 n 0 := by
  rw [a2b_base64, if_neg (digit_ne_pad h), valueOf_digit h]
  rfl

theorem a2b_second : a2b_base64 (digit n :: r) 1 leftchar pads =
    (a2b_base64 r 2 (n % 16) 0).map (UInt8.ofNat (leftchar * 4 + n / 16) :: ·) := by
  rw [a2b_base64, if_neg (digit_ne_pad h), valueOf_digit h]
  rfl

theorem a2b_third : a2b_base64 (digit n :: r) 2 leftchar pads =
    (a2b_base64 r 3 (n % 4) 0).map (UInt8.ofNat (leftchar * 16 + n / 4) :: ·) := by
  rw [a2b_base64, if_neg (digit_ne_pad h), valueOf_digit h]
  rfl

theorem a2b_fourth : a2b_base64 (digit n :: r) 3 leftchar pads =
    (a2b_base64 r 0 0 0).map (UInt8.ofNat (leftchar * 64 + n) :: ·) := by
  rw [a2b_base64, if_neg (digit_ne_pad h), valueOf_digit h]
  rfl

end Quad

theorem a2b_b64encode (l : List UInt8) : a2b_base64 (b64encode l) 0 0 0 = some l := by
  induction l using b64encode.induct with
  | case1 => rfl
  | case2 a =>
    have ha := a.toNat_lt
    rw [b64encode, a2b_first (by omega), a2b_second (by omega),
      byte_eq (show a.toNat / 4 * 4 + a.toNat % 4 * 16 / 16 = a.toNat by omega)]
    rfl
  | case3 a b =>
    have ha := a.toNat_lt
    have hb := b.toNat_lt
    rw [b64encode, a2b_first (by omega), a2b_second (by omega), a2b_third (by omega),
      byte_eq (show a.toNat / 4 * 4 + (a.toNat % 4 * 16 + b.toNat / 16) / 16 = a.toNat by omega),
      byte_eq (show (a.toNat % 4 * 16 + b.toNat / 16) % 16 * 16 + b.toNat % 16 * 4 / 4 = b.toNat by omega)]
    rfl
  | case4 a b c r ih =>
    have ha := a.toNat_lt
    have hb := b.toNat_lt
    have hc := c.toNat_lt
    rw [b64encode, a2b_first (by omega), a2b_second (by omega), a2b_third (by omega), a2b_fourth (by omega), ih,
      byte_eq (show a.toNat / 4 * 4 + (a.toNat % 4 * 16 + b.toNat / 16) / 16 = a.toNat by omega),
      byte_eq (show (a.toNat % 4 * 16 + b.toNat / 16) % 16 * 16 + (b.toNat % 16 * 4 + c.toNat / 64) / 4 = b.toNat by
        omega),
      byte_eq (show (b.toNat % 16 * 4 + c.toNat / 64) % 4 * 64 + c.toNat % 64 = c.toNat by omega)]
    rfl

/-- The padding that a text of digits needs. -/
def padding (s : Str) : Str := List.replicate ((4 - s.length % 4) % 4) pad

/-- Digits, and then the padding that they need. -/
theorem b64encode_split (l : List UInt8) :
    ∃ body, (∀ c ∈ body, ∃ n < 64, c = digit n) ∧ b64encode l = body ++ padding body := by
  induction l using b64encode.induct with
  | case1 => exact ⟨[], fun c hc => absurd hc List.not_mem_nil, rfl⟩
  | case2 a =>
    have ha := a.toNat_lt
    refine ⟨[digit (a.toNat / 4), digit (a.toNat % 4 * 16)], fun c hc => ?_, rfl⟩
    simp only [List.mem_cons, List.not_mem_nil, or_false] at hc
    rcases hc with rfl | rfl <;> exact ⟨_, by omega, rfl⟩
  | case3 a b =>
    have ha := a.toNat_lt
    have hb := b.toNat_lt
    refine ⟨[digit (a.toNat / 4), digit (a.toNat % 4 * 16 + b.toNat / 16), digit (b.toNat % 16 * 4)], fun c hc => ?_,
      rfl⟩
    simp only [List.mem_cons, List.not_mem_nil, or_false] at hc
    rcases hc with rfl | rfl | rfl <;> exact ⟨_, by omega, rfl⟩
  | case4 a b c r ih =>
    have ha := a.toNat_lt
    have hb := b.toNat_lt
    have hc := c.toNat_lt
    obtain ⟨body, hbody, he⟩ := ih
    refine ⟨digit (a.toNat / 4) :: digit (a.toNat % 4 * 16 + b.toNat / 16) ::
      digit (b.toNat % 16 * 4 + c.toNat / 64) :: digit (c.toNat % 64) :: body, fun x hx => ?_, ?_⟩
    · simp only [List.mem_cons] at hx
      rcases hx with rfl | rfl | rfl | rfl | hx
      · exact ⟨_, by omega, rfl⟩
      · exact ⟨_, by omega, rfl⟩
      · exact ⟨_, by omega, rfl⟩
      · exact ⟨_, by omega, rfl⟩
      · exact hbody x hx
    · have hlength : (body.length + 4) % 4 = body.length % 4 := Nat.add_mod_right _ _
      simp only [b64encode, he, padding, List.length_cons, hlength, List.cons_append]

def to_url (c : CodePoint) : CodePoint := if c = 43 then 45 else if c = 47 then 95 else c
def of_url (c : CodePoint) : CodePoint := if c = 45 then 43 else if c = 95 then 47 else c

/-- `base64.urlsafe_b64encode` -/
def urlsafe_b64encode (l : List UInt8) : Str := (b64encode l).map to_url

/-- `base64.urlsafe_b64decode` of a text -/
def urlsafe_b64decode (s : Str) : Option (List UInt8) :=
  if s.all (·.val < 0x80) then a2b_base64 (s.map of_url) 0 0 0 else none

theorem url_digit {n : ℕ} (h : n < 64) : of_url (to_url (digit n)) = digit n ∧ (to_url (digit n)).val < 0x80 ∧
    to_url (digit n) ≠ pad ∧ to_url (digit n) ≠ 46 := by
  interval_cases n <;> decide

theorem url_digit_pos {n : ℕ} (h : n < 64) : 0 < (to_url (digit n)).val := by
  interval_cases n <;> decide

theorem of_url_encode (l : List UInt8) : (urlsafe_b64encode l).map of_url = b64encode l := by
  obtain ⟨body, hbody, he⟩ := b64encode_split l
  rw [urlsafe_b64encode, List.map_map]
  conv_rhs => rw [← List.map_id (b64encode l)]
  apply List.map_congr_left
  intro c hc
  rw [he] at hc
  rcases List.mem_append.mp hc with hc | hc
  · obtain ⟨n, hn, rfl⟩ := hbody c hc
    exact (url_digit hn).1
  · rw [List.eq_of_mem_replicate hc]
    rfl

theorem urlsafe_ascii (l : List UInt8) : ∀ c ∈ urlsafe_b64encode l, 0 < c.val ∧ c.val < 0x80 := by
  obtain ⟨body, hbody, he⟩ := b64encode_split l
  intro c hc
  rw [urlsafe_b64encode, he, List.map_append] at hc
  rcases List.mem_append.mp hc with hc | hc <;> obtain ⟨d, hd, rfl⟩ := List.mem_map.mp hc
  · obtain ⟨n, hn, rfl⟩ := hbody d hd
    exact ⟨url_digit_pos hn, (url_digit hn).2.1⟩
  · rw [List.eq_of_mem_replicate hd]
    decide

theorem urlsafe_b64decode_encode (l : List UInt8) : urlsafe_b64decode (urlsafe_b64encode l) = some l := by
  rw [urlsafe_b64decode, of_url_encode, a2b_b64encode, if_pos]
  exact List.all_eq_true.mpr fun c hc => decide_eq_true (urlsafe_ascii l c hc).2

/-- Without its padding, an encoding is of digits, and reads as what it encodes once it is padded again. -/
theorem urlsafe_strip (l : List UInt8) : ∃ body, (∀ c ∈ body, c.val < 0x80 ∧ c ≠ pad ∧ c ≠ 46) ∧
    (urlsafe_b64encode l).rdropWhile (· = pad) = body ∧ urlsafe_b64decode (body ++ padding body) = some l := by
  obtain ⟨body, hbody, he⟩ := b64encode_split l
  have hurl (c : CodePoint) (hc : c ∈ body.map to_url) : c.val < 0x80 ∧ c ≠ pad ∧ c ≠ 46 := by
    obtain ⟨d, hd, rfl⟩ := List.mem_map.mp hc
    obtain ⟨n, hn, rfl⟩ := hbody d hd
    exact (url_digit hn).2
  have hpadding : padding (body.map to_url) = padding body := by
    rw [padding, List.length_map, padding]
  refine ⟨body.map to_url, hurl, ?_, ?_⟩
  · have hpads : (padding body).map to_url = padding body := List.map_replicate
    have hstop : (body.map to_url).reverse.dropWhile (· = pad) = (body.map to_url).reverse := by
      rcases hrev : (body.map to_url).reverse with _ | ⟨c, r⟩
      · rfl
      · refine List.dropWhile_cons_of_neg ?_
        have hc : c ∈ body.map to_url := List.mem_reverse.mp (hrev ▸ List.mem_cons_self)
        simpa using (hurl c hc).2.1
    rw [urlsafe_b64encode, he, List.map_append, hpads, List.rdropWhile, List.reverse_append, padding,
      List.reverse_replicate, List.dropWhile_append_of_pos, hstop, List.reverse_reverse]
    intro c hc
    exact decide_eq_true (List.eq_of_mem_replicate hc)
  · have hback : (body.map to_url ++ padding body).map of_url = b64encode l := by
      rw [← of_url_encode, urlsafe_b64encode, he, List.map_append, List.map_append, List.map_append]
      congr 1
      rw [padding, List.map_replicate, List.map_replicate, List.map_replicate]
      rfl
    rw [urlsafe_b64decode, hpadding, hback, a2b_b64encode, if_pos]
    rw [List.all_append, Bool.and_eq_true]
    refine ⟨List.all_eq_true.mpr fun c hc => decide_eq_true (hurl c hc).1, List.all_eq_true.mpr fun c hc => ?_⟩
    rw [List.eq_of_mem_replicate hc]
    rfl

end NetCoreNoc.Base64
