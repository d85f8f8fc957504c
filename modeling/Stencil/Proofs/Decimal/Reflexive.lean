import Mathlib.Algebra.Group.Nat.Defs
import Stencil.Decimal.Numeral

/-! # Numerals compare equal to themselves

Of all doubles only NaN differs from itself, and no ratio rounds to NaN. -/
set_option autoImplicit false
namespace Stencil

namespace Binary64

open Float.Model (UnpackedFloat Format)
open Float.Model.UnpackedFloat (unpackExponent unpackMantissa)

theorem compare_self_of_ne : ∀ {x : UnpackedFloat}, x ≠ .notANumber → x.compare x = some .eq := by
  intro x hx
  cases x with
  | notANumber => exact absurd rfl hx
  | infinity s => cases s <;> rfl
  | zero s => cases s <;> rfl
  | finite s m e h =>
      have he : compare e e = .eq := Std.ReflCmp.compare_self
      have hm : compare m m = .eq := Std.ReflCmp.compare_self
      cases s with
      | positive =>
          show some ((compare e e).then (compare m m)) = some .eq
          rw [he, hm]
          rfl
      | negative =>
          show some ((compare e e).then (compare m m)).swap = some .eq
          rw [he, hm]
          rfl

/-- Only the greatest exponent with a mantissa beside zero stands for NaN. -/
theorem unpack_ne_notANumber {b : BitVec 64}
    (h : @unpackExponent Format.binary64 b ≠ -1#11 ∨
      @unpackMantissa Format.binary64 b = 0#52) :
    UnpackedFloat.unpack Format.binary64 b ≠ .notANumber := by
  unfold UnpackedFloat.unpack
  by_cases he : @unpackExponent Format.binary64 b = -1#11
  · rw [if_pos he, if_pos (h.resolve_left fun hne => hne he)]
    intro heq
    cases heq
  · rw [if_neg he]
    by_cases hz : @unpackExponent Format.binary64 b = 0#11
    · rw [if_pos hz]
      by_cases hm : @unpackMantissa Format.binary64 b = 0#52
      · rw [dif_pos hm]
        intro heq
        cases heq
      · rw [dif_neg hm]
        intro heq
        cases heq
    · rw [if_neg hz]
      intro heq
      cases heq

theorem unpack_pack_ne {u : UnpackedFloat} (hu : u ≠ .notANumber) :
    UnpackedFloat.unpack Format.binary64 (UnpackedFloat.pack Format.binary64 u) ≠ .notANumber := by
  apply unpack_ne_notANumber
  fun_cases UnpackedFloat.pack Format.binary64 u with
  | case1 => exact absurd rfl hu
  | case2 s => exact .inr (by simp [UnpackedFloat.packedInfinity])
  | case3 s => exact .inr (by simp [UnpackedFloat.packedZero])
  | case4 s m e hm b h => exact .inr (by simp [UnpackedFloat.packedInfinity])
  | case5 s m e hm k b h h' =>
      left
      rw [Float.Model.UnpackedFloat.unpackExponent_packComponents]
      intro heq
      have hb := congrArg BitVec.toNat heq
      simp at hb h
      omega
  | case6 s m e hm k b h h' =>
      left
      rw [Float.Model.UnpackedFloat.unpackExponent_packComponents]
      decide

theorem beq_self_ofBits {n : UInt64}
    (h : UnpackedFloat.unpack Format.binary64 n.toBitVec ≠ .notANumber) :
    (Float.ofBits n == Float.ofBits n) = true := by
  have hself : (Float.Model.ofBits n).unpack.compare (Float.Model.ofBits n).unpack = some .eq :=
    compare_self_of_ne (unpack_pack_ne h)
  show ((Float.Model.ofBits n).unpack.compare (Float.Model.ofBits n).unpack == some .eq) = true
  rw [hself]
  rfl

theorem toNat_unpackExponent (b : BitVec 64) :
    (@unpackExponent Format.binary64 b).toNat = b.toNat / 2 ^ 52 % 2 ^ 11 := by
  rw [unpackExponent, BitVec.toNat_cast, BitVec.extractLsb_toNat, Nat.shiftRight_eq_div_pow]
  rfl

/-- Bits below those of infinity do not have the greatest exponent. -/
theorem unpackExponent_ne {n : Nat} (negative : Bool) (hn : n < infinityBits) :
    @unpackExponent Format.binary64
      (UInt64.ofNat (n + if negative then 2 ^ 63 else 0)).toBitVec ≠ -1#11 := by
  intro hexp
  have hbits := congrArg BitVec.toNat hexp
  have hmod (k : Nat) : (UInt64.ofNat k).toBitVec.toNat = k % 2 ^ 64 := rfl
  have hmax : (-1#11).toNat = 2047 := by decide
  rw [toNat_unpackExponent, hmod, hmax] at hbits
  simp only [infinityBits, Nat.pow_eq] at hn
  cases negative with
  | false =>
      rw [if_neg (by decide)] at hbits
      omega
  | true =>
      rw [if_pos rfl] at hbits
      omega

theorem unpackMantissa_infinityBits (negative : Bool) :
    @unpackMantissa Format.binary64
      (UInt64.ofNat (infinityBits + if negative then 2 ^ 63 else 0)).toBitVec = 0#52 := by
  cases negative <;> decide +kernel

theorem exists_ofRatio_eq (negative : Bool) (num den : Nat) : ∃ m ≤ infinityBits,
    ofRatio negative num den =
      Float.ofBits (UInt64.ofNat (m + if negative then 2 ^ 63 else 0)) := by
  by_cases h : num = 0
  · exact ⟨0, Nat.zero_le _, by simp [ofRatio, h]⟩
  · exact ⟨_, Nat.min_le_left .., by simp only [ofRatio, if_neg h]; rfl⟩

theorem ofRatio_beq_self (negative : Bool) (num den : Nat) :
    (ofRatio negative num den == ofRatio negative num den) = true := by
  obtain ⟨m, hm, heq⟩ := exists_ofRatio_eq negative num den
  rw [heq]
  apply beq_self_ofBits
  apply unpack_ne_notANumber
  by_cases hinf : m = infinityBits
  · right
    subst hinf
    exact unpackMantissa_infinityBits negative
  · left
    exact unpackExponent_ne negative (Nat.lt_of_le_of_ne hm hinf)

end Binary64

theorem Decimal.ofNumeral_beq_self (negative : Bool) (whole fraction : Text) :
    (ofNumeral negative whole fraction == ofNumeral negative whole fraction) = true := by
  simp only [ofNumeral, nearest]
  split
  · exact Binary64.ofRatio_beq_self ..
  · split
    · exact Binary64.ofRatio_beq_self ..
    · exact Binary64.ofRatio_beq_self ..

end Stencil
