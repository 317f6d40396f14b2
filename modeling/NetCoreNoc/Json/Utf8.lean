import Mathlib
import NetCoreNoc.Json.Canonical
import NetCoreNoc.Json.Encoding

/-! UTF-8, and that a text without surrogates reads back from its bytes. -/
namespace NetCoreNoc.Json

/-- `bytes.decode("utf-8")` -/
def decodeUtf8 (b : List UInt8) : Option Str := (readUtf8 b).filter fun s => !s.any isSurrogate

private theorem toNat_byte {n : ℕ} (h : n < 256) : (UInt8.ofNat n).toNat = n := by
  rw [UInt8.toNat_ofNat']
  exact Nat.mod_eq_of_lt h

private theorem byte_lt {n : ℕ} (h : n < 256) (m : UInt8) : UInt8.ofNat n < m ↔ n < m.toNat := by
  rw [UInt8.lt_iff_toNat_lt, toNat_byte h]

private theorem le_byte {n : ℕ} (h : n < 256) (m : UInt8) : m ≤ UInt8.ofNat n ↔ m.toNat ≤ n := by
  rw [UInt8.le_iff_toNat_le, toNat_byte h]

private theorem lead_above {k n : ℕ} (h : k + n < 256) {m : UInt8} (hm : m.toNat ≤ k) : ¬ UInt8.ofNat (k + n) < m := by
  rw [byte_lt h]
  exact Nat.not_lt.mpr (Nat.le_add_right_of_le hm)

private theorem sixBits_rest (n : ℕ) : sixBits (UInt8.ofNat (128 + n % 64)) = some (n % 64) := by
  have hn : n % 64 < 64 := Nat.mod_lt _ (by decide)
  have hbyte : 128 + n % 64 < 256 := by omega
  rw [sixBits, if_pos, toNat_byte hbyte, Nat.add_sub_cancel_left]
  rw [le_byte hbyte, byte_lt hbyte]
  exact ⟨Nat.le_add_right _ _, Nat.add_lt_add_left hn 128⟩

private theorem point_val {least n : ℕ} {c : CodePoint} (h : least ≤ c.val) (hn : n = c.val) : point least n = some c := by
  subst hn
  rw [point, dif_pos ⟨h, c.isLt⟩]

section Leads
variable {a b c d : UInt8} (r : List UInt8) {n x y z : ℕ}

private theorem readUtf8_one (ha : a < 0x80) : readUtf8 (a :: r) = (readUtf8 r).map (Fin.ofNat _ a.toNat :: ·) := by
  rw [readUtf8.eq_def]
  exact if_pos ha

private theorem readUtf8_two (ha : ¬ a < 0x80) (h : 0xc0 ≤ a ∧ a < 0xe0) (hb : sixBits b = some x) {p : CodePoint}
    (hp : point 0x80 ((a.toNat - 0xc0) * 64 + x) = some p) : readUtf8 (a :: b :: r) = (readUtf8 r).map (p :: ·) := by
  rw [readUtf8.eq_def]
  refine (if_neg ha).trans ((if_pos h).trans ?_)
  rw [hb, Option.bind_eq_bind, Option.bind_some, hp, Option.bind_eq_bind, Option.bind_some]

private theorem readUtf8_three (ha : ¬ a < 0x80) (h2 : ¬ (0xc0 ≤ a ∧ a < 0xe0)) (h : 0xe0 ≤ a ∧ a < 0xf0)
    (hb : sixBits b = some x) (hc : sixBits c = some y) {p : CodePoint}
    (hp : point 0x800 ((a.toNat - 0xe0) * 4096 + x * 64 + y) = some p) :
    readUtf8 (a :: b :: c :: r) = (readUtf8 r).map (p :: ·) := by
  rw [readUtf8.eq_def]
  refine (if_neg ha).trans ((if_neg h2).trans ((if_pos h).trans ?_))
  rw [hb, Option.bind_eq_bind, Option.bind_some, hc, Option.bind_eq_bind, Option.bind_some, hp, Option.bind_some]

private theorem readUtf8_four (ha : ¬ a < 0x80) (h2 : ¬ (0xc0 ≤ a ∧ a < 0xe0)) (h3 : ¬ (0xe0 ≤ a ∧ a < 0xf0))
    (h : 0xf0 ≤ a ∧ a < 0xf8) (hb : sixBits b = some x) (hc : sixBits c = some y) (hd : sixBits d = some z) {p : CodePoint}
    (hp : point 0x10000 ((a.toNat - 0xf0) * 0x40000 + x * 4096 + y * 64 + z) = some p) :
    readUtf8 (a :: b :: c :: d :: r) = (readUtf8 r).map (p :: ·) := by
  rw [readUtf8.eq_def]
  refine (if_neg ha).trans ((if_neg h2).trans ((if_neg h3).trans ((if_pos h).trans ?_)))
  rw [hb, Option.bind_eq_bind, Option.bind_some, hc, Option.bind_eq_bind, Option.bind_some, hd, Option.bind_some,
    hp, Option.bind_some]

end Leads

/-- What stands first in the bytes of a text reads as its first code point. -/
theorem readUtf8_cons (c : CodePoint) (r : List UInt8) :
    readUtf8 ((utf8 c).map UInt8.ofNat ++ r) = (readUtf8 r).map (c :: ·) := by
  have hc := c.isLt
  unfold utf8
  split_ifs with h1 h2 h3
  · have hbyte : c.val < 256 := by omega
    refine (readUtf8_one r ((byte_lt hbyte _).mpr h1)).trans ?_
    rw [toNat_byte hbyte, Fin.ofNat_val_eq_self]
  · have hbyte : 192 + c.val / 64 < 256 := by omega
    have hrange : 192 + c.val / 64 < 224 := by omega
    refine readUtf8_two r (lead_above hbyte (by decide)) ?_ (sixBits_rest _) (point_val (by omega) ?_)
    · exact ⟨(le_byte hbyte _).mpr (Nat.le_add_right 192 _), (byte_lt hbyte _).mpr hrange⟩
    · rw [toNat_byte hbyte]
      omega
  · have hbyte : 224 + c.val / 4096 < 256 := by omega
    have hrange : 224 + c.val / 4096 < 240 := by omega
    have h2 (h : 0xc0 ≤ UInt8.ofNat (224 + c.val / 4096) ∧ UInt8.ofNat (224 + c.val / 4096) < 0xe0) : False :=
      lead_above hbyte (by decide) h.2
    refine readUtf8_three r (lead_above hbyte (by decide)) h2 ?_ (sixBits_rest _) (sixBits_rest _)
      (point_val (by omega) ?_)
    · exact ⟨(le_byte hbyte _).mpr (Nat.le_add_right 224 _), (byte_lt hbyte _).mpr hrange⟩
    · rw [toNat_byte hbyte]
      omega
  · have hbyte : 240 + c.val / 0x40000 < 256 := by omega
    have hrange : 240 + c.val / 0x40000 < 248 := by omega
    have h2 (h : 0xc0 ≤ UInt8.ofNat (240 + c.val / 0x40000) ∧ UInt8.ofNat (240 + c.val / 0x40000) < 0xe0) : False :=
      lead_above hbyte (by decide) h.2
    have h3 (h : 0xe0 ≤ UInt8.ofNat (240 + c.val / 0x40000) ∧ UInt8.ofNat (240 + c.val / 0x40000) < 0xf0) : False :=
      lead_above hbyte (by decide) h.2
    refine readUtf8_four r (lead_above hbyte (by decide)) h2 h3 ?_ (sixBits_rest _) (sixBits_rest _) (sixBits_rest _)
      (point_val (by omega) ?_)
    · exact ⟨(le_byte hbyte _).mpr (Nat.le_add_right 240 _), (byte_lt hbyte _).mpr hrange⟩
    · rw [toNat_byte hbyte]
      omega

theorem readUtf8_encode (s : Str) : readUtf8 (encodeStr s) = some s := by
  induction s with
  | nil => rfl
  | cons c s ih =>
    rw [encodeStr, List.flatMap_cons, List.map_append, readUtf8_cons]
    exact congrArg _ ih

theorem decodeUtf8_encode {s : Str} {b : List UInt8} (h : encodeUtf8 s = some b) : decodeUtf8 b = some s := by
  unfold encodeUtf8 at h
  split at h
  · cases h
  · rename_i hs
    obtain rfl := Option.some.inj h
    rw [decodeUtf8, readUtf8_encode, Option.filter_some, if_pos]
    simpa using hs

end NetCoreNoc.Json
