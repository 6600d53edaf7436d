import Mathlib

/-!
# Kinetics.Proofs.Decimal.Binary

The exact numbers that floats stand for. A float is given by three fields of bits (`ofFields`);
taking the magnitude clears the field of the sign and leaves the others (`unpack_abs`). Floats are
compared by their exponents before their mantissas. This compares the numbers, for a mantissa has
all its digits unless the exponent is the smallest (`Canonical`, `isLE_compare_iff`).
-/

namespace Kinetics

namespace Binary

open Float.Model
open Float.Model.UnpackedFloat (Sign packComponents unpackSign unpackExponent unpackMantissa)

section Fields

/-- What a sign, an exponent and a mantissa encode. -/
def ofFields (s : Sign) (e : BitVec 11) (m : BitVec 52) : UnpackedFloat :=
  if e = -1#11 then if m = 0#52 then .infinity s else .notANumber
  else if e = 0#11 then
    if h : m = 0#52 then .zero s
    else .finite s m.toNat (-1074) (by simpa [BitVec.toNat_pos, BitVec.pos_iff_ne_zero])
  else .finite s (2 ^ 52 + m.toNat) (e.toNat - 1075) (by omega)

theorem toNat_implicit (m : BitVec 52) : (1#1 ++ m).toNat = 2 ^ 52 + m.toNat := by
  rw [BitVec.toNat_append, ← Nat.shiftLeft_add_eq_or_of_lt m.isLt]
  simp [Nat.shiftLeft_eq]

theorem unpack_eq (b : BitVec 64) : UnpackedFloat.unpack .binary64 b =
    ofFields (Sign.ofBitVec (@unpackSign .binary64 b)) (@unpackExponent .binary64 b)
      (@unpackMantissa .binary64 b) := by
  unfold UnpackedFloat.unpack ofFields
  by_cases he : @unpackExponent .binary64 b = -1#11
  · simp only [he, if_true]
  · by_cases hzero : @unpackExponent .binary64 b = 0#11
    · simp only [hzero]
      rfl
    · simp only [he, hzero, if_false, toNat_implicit]
      rfl

theorem unpack_packComponents (e : BitVec 11) (m : BitVec 52) :
    UnpackedFloat.unpack .binary64 (packComponents .binary64 .positive e m) =
      ofFields .positive e m := by
  rw [unpack_eq, UnpackedFloat.unpackSign_packComponents, UnpackedFloat.unpackExponent_packComponents,
    UnpackedFloat.unpackMantissa_packComponents]
  rfl

theorem log2_fraction {m : BitVec 52} (h : m ≠ 0#52) : m.toNat.log2 < 52 :=
  (Nat.log2_lt fun hzero => h (BitVec.eq_of_toNat_eq hzero)).2 m.isLt

theorem log2_implicit (m : BitVec 52) : (2 ^ 52 + m.toNat).log2 = 52 := by
  have hm := m.isLt
  rw [Nat.log2_eq_iff (by omega)]
  omega

theorem pack_subnormal {m : BitVec 52} (h : m ≠ 0#52) (hm : 0 < m.toNat) :
    UnpackedFloat.pack .binary64 (.finite .positive m.toNat (-1074) hm) =
      packComponents .binary64 .positive 0#11 m := by
  have hlog : ¬m.toNat.log2 + 1 = 53 := by
    have := log2_fraction h
    omega
  unfold UnpackedFloat.pack
  refine (if_neg (by decide)).trans ((if_neg hlog).trans ?_)
  rw [BitVec.ofNat_toNat, BitVec.setWidth_eq]

theorem pack_normal {e : BitVec 11} (he : e ≠ -1#11) (m : BitVec 52) (hm : 0 < 2 ^ 52 + m.toNat) :
    UnpackedFloat.pack .binary64 (.finite .positive (2 ^ 52 + m.toNat) (e.toNat - 1075) hm) =
      packComponents .binary64 .positive e m := by
  have hexponent : ((e.toNat : Int) - 1075 + (Format.binary64.exponentBias : Nat) +
      (52 : Nat)).toNat = e.toNat := by
    rw [show Format.binary64.exponentBias = 1023 from rfl]
    omega
  have hlt : ¬2 ^ 11 ≤ e.toNat + 1 := by
    have hne : e.toNat ≠ 2047 := fun h => he (BitVec.eq_of_toNat_eq h)
    have := e.isLt
    omega
  have hmantissa : BitVec.ofNat 52 (2 ^ 52 + m.toNat) = m := by
    refine BitVec.eq_of_toNat_eq ?_
    rw [BitVec.toNat_ofNat, Nat.add_mod_left, Nat.mod_eq_of_lt m.isLt]
  unfold UnpackedFloat.pack
  rw [hexponent, hmantissa]
  refine (if_neg hlt).trans ((if_pos (by rw [log2_implicit]; rfl)).trans ?_)
  rw [BitVec.ofNat_toNat, BitVec.setWidth_eq]

/-- A magnitude is read as it was written. -/
theorem unpack_pack_abs (s : Sign) (e : BitVec 11) (m : BitVec 52) :
    UnpackedFloat.unpack .binary64 (UnpackedFloat.pack .binary64 (ofFields s e m).abs) =
      (ofFields s e m).abs := by
  unfold ofFields
  split
  · split
    · exact unpack_packComponents _ _
    · exact unpack_packComponents _ _
  · rename_i he
    split
    · split
      · exact unpack_packComponents _ _
      · rename_i hm
        rw [UnpackedFloat.abs, pack_subnormal hm, unpack_packComponents, ofFields,
          if_neg (by decide), if_pos rfl, dif_neg hm]
    · rename_i hzero
      rw [UnpackedFloat.abs, pack_normal he, unpack_packComponents, ofFields, if_neg he,
        if_neg hzero]

theorem unpack_toModel (x : Float) :
    x.toModel.unpack = UnpackedFloat.unpack .binary64 x.toModel.toBits.toBitVec := rfl

theorem unpack_abs (x : Float) : x.abs.toModel.unpack = x.toModel.unpack.abs := by
  rw [unpack_toModel, unpack_toModel, unpack_eq x.toModel.toBits.toBitVec, ← unpack_pack_abs,
    ← unpack_eq]
  rfl

end Fields

section Exact

/-- The number that a float stands for, unless it is infinite or none. -/
def exactly : UnpackedFloat → Option ℚ
  | .zero _ => some 0
  | .finite s m e _ => some (s.apply m * 2 ^ e)
  | _ => none

/-- A mantissa has all its digits, or the exponent is the smallest. -/
def Canonical : UnpackedFloat → Prop
  | .finite _ m e _ => m < 2 ^ 53 ∧ (e = -1074 ∨ 2 ^ 52 ≤ m)
  | _ => True

theorem canonical_ofFields (s : Sign) (e : BitVec 11) (m : BitVec 52) :
    Canonical (ofFields s e m) := by
  have hm := m.isLt
  unfold ofFields
  split_ifs
  · trivial
  · trivial
  · trivial
  · exact ⟨by omega, .inl rfl⟩
  · exact ⟨by omega, .inr (by omega)⟩

theorem canonical_unpack (x : Float) : Canonical x.toModel.unpack := by
  rw [unpack_toModel, unpack_eq]
  exact canonical_ofFields _ _ _

/-- A power of two is compared with by the exponent first, and then by the mantissa. -/
theorem isLE_compare_iff {m : Nat} {e k : Int} (hm : m < 2 ^ 53) (he : e = -1074 ∨ 2 ^ 52 ≤ m)
    (hk : -1074 ≤ k) : ((compare e k).then (compare m (2 ^ 52))).isLE = true ↔
      (m : ℚ) * 2 ^ e ≤ 2 ^ 52 * 2 ^ k := by
  have hpos (j : Int) : (0 : ℚ) < 2 ^ j := zpow_pos (by norm_num) j
  rcases lt_trichotomy e k with hlt | rfl | hgt
  · rw [compare_lt_iff_lt.2 hlt]
    refine iff_of_true rfl ?_
    have hm : (m : ℚ) ≤ 2 ^ 52 * 2 := by exact_mod_cast hm.le
    have hpow : (2 : ℚ) * 2 ^ e ≤ 2 ^ k := by
      rw [← zpow_one_add₀ (by norm_num)]
      exact zpow_le_zpow_right₀ (by norm_num) (by omega)
    calc (m : ℚ) * 2 ^ e ≤ 2 ^ 52 * 2 * 2 ^ e := mul_le_mul_of_nonneg_right hm (hpos e).le
      _ = 2 ^ 52 * (2 * 2 ^ e) := mul_assoc _ _ _
      _ ≤ 2 ^ 52 * 2 ^ k := mul_le_mul_of_nonneg_left hpow (by norm_num)
  · rw [compare_eq_iff_eq.2 rfl, mul_le_mul_iff_left₀ (hpos e)]
    exact Nat.isLE_compare.trans (by exact_mod_cast Iff.rfl)
  · rw [compare_gt_iff_gt.2 hgt]
    refine iff_of_false (by simp) (not_le.2 ?_)
    have hm : (2 : ℚ) ^ 52 ≤ m := by exact_mod_cast he.resolve_left (by omega)
    have hpow : (2 : ℚ) ^ k < 2 ^ e := zpow_lt_zpow_right₀ (by norm_num) hgt
    calc (2 : ℚ) ^ 52 * 2 ^ k < 2 ^ 52 * 2 ^ e := mul_lt_mul_of_pos_left hpow (by norm_num)
      _ ≤ (m : ℚ) * 2 ^ e := mul_le_mul_of_nonneg_right hm (hpos e).le

/-- The magnitude of a float is compared with a power of two as the number is that it stands for. -/
theorem abs_le_iff {x : UnpackedFloat} (h : Canonical x) {k : Int} (hk : -1074 ≤ k) :
    x.abs.le (.finite .positive (2 ^ 52) k (by decide)) = true ↔
      ∃ q, exactly x = some q ∧ |q| ≤ 2 ^ 52 * 2 ^ k := by
  cases x with
  | finite s m e hm =>
    have hpos : (0 : ℚ) < 2 ^ e := zpow_pos (by norm_num) e
    have habs : |(s.apply m : ℚ) * 2 ^ e| = m * 2 ^ e := by
      rw [abs_mul, abs_of_pos hpos]
      cases s <;> simp [Sign.apply]
    simp only [exactly, Option.some.injEq, exists_eq_left', habs]
    exact isLE_compare_iff h.1 h.2 hk
  | zero s =>
    have hnonneg : (0 : ℚ) ≤ 2 ^ 52 * 2 ^ k :=
      mul_nonneg (by norm_num) (zpow_pos (by norm_num) k).le
    simpa [exactly, UnpackedFloat.abs, UnpackedFloat.le, UnpackedFloat.compare] using hnonneg
  | infinity s => simp [exactly, UnpackedFloat.abs, UnpackedFloat.le, UnpackedFloat.compare]
  | notANumber => simp [exactly, UnpackedFloat.abs, UnpackedFloat.le, UnpackedFloat.compare]

end Exact

end Binary

end Kinetics
