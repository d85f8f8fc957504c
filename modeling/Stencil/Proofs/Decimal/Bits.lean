import Stencil.Proofs.Decimal.Reflexive

/-! # The bits of doubles

A double is the one with its bits (`ofBits_toBits`), and the bits of a finite one are those of its mantissa
added to its exponent (`eq_ofBits_of_unpack`). -/
set_option autoImplicit false
namespace Stencil.Binary64
open Float.Model (UnpackedFloat Format)
open Float.Model.UnpackedFloat

theorem toNat_packComponents (s : Sign) (e : BitVec 11) (m : BitVec 52) :
    (packComponents Format.binary64 s e m).toNat =
      s.toBitVec.toNat * 2 ^ 63 + e.toNat * 2 ^ 52 + m.toNat := by
  have he := e.isLt
  have hm := m.isLt
  rw [packComponents, BitVec.toNat_append, BitVec.toNat_append,
    ← Nat.shiftLeft_add_eq_or_of_lt he, ← Nat.shiftLeft_add_eq_or_of_lt hm, Nat.shiftLeft_eq,
    Nat.shiftLeft_eq]
  show (s.toBitVec.toNat * 2 ^ 11 + e.toNat) * 2 ^ 52 + m.toNat = _
  omega

theorem toNat_unpackMantissa (b : BitVec 64) :
    (@unpackMantissa Format.binary64 b).toNat = b.toNat % 2 ^ 52 := by
  rw [unpackMantissa, BitVec.toNat_cast, BitVec.extractLsb_toNat, Nat.shiftRight_eq_div_pow]
  simp

theorem toNat_unpackSign (b : BitVec 64) :
    (@unpackSign Format.binary64 b).toNat = b.toNat / 2 ^ 63 := by
  have hb := b.isLt
  unfold unpackSign
  rw [BitVec.toNat_cast, BitVec.extractLsb_toNat, Nat.shiftRight_eq_div_pow]
  show b.toNat / 2 ^ 63 % 2 ^ 1 = _
  omega

theorem packComponents_unpack (b : BitVec 64) :
    packComponents Format.binary64 (Sign.ofBitVec (@unpackSign Format.binary64 b))
      (@unpackExponent Format.binary64 b) (@unpackMantissa Format.binary64 b) = b := by
  have hsign : (Sign.ofBitVec (@unpackSign Format.binary64 b)).toBitVec =
      @unpackSign Format.binary64 b := by
    generalize @unpackSign Format.binary64 b = s
    revert s
    decide
  refine BitVec.eq_of_toNat_eq ?_
  rw [toNat_packComponents, hsign, toNat_unpackSign, toNat_unpackExponent, toNat_unpackMantissa]
  have hb := b.isLt
  omega

/-- The exponent and the mantissa of a finite number that is packed. -/
theorem pack_finite (s : Sign) {m k : Nat} (hm : 0 < m) (hk : k < 2047) :
    UnpackedFloat.pack Format.binary64 (.finite s m ((k : Int) - 1075) hm) =
      if m.log2 = 52 then packComponents Format.binary64 s (BitVec.ofNat 11 k) (BitVec.ofNat 52 m)
      else packComponents Format.binary64 s 0#11 (BitVec.ofNat 52 m) := by
  have hbiased : ((k : Int) - 1075 + (Format.binary64.exponentBias : Int) +
      (Format.binary64.mantissaBitsWithoutImplicit : Int)).toNat = k := by
    have hbias : (Format.binary64.exponentBias : Int) = 1023 := rfl
    rw [hbias]
    show ((k : Int) - 1075 + 1023 + 52).toNat = k
    omega
  have hbits : Format.binary64.mantissaBits = 53 := rfl
  have hexp : 2 ^ Format.binary64.exponentBits = 2048 := rfl
  unfold UnpackedFloat.pack
  simp only [hbiased, hbits, hexp]
  rw [if_neg (by omega)]
  by_cases h : m.log2 = 52
  · rw [if_pos h, if_pos (by omega)]
  · rw [if_neg h, if_neg (by omega)]

theorem pack_unpack {b : BitVec 64} (hb : Format.binary64.Valid b) :
    UnpackedFloat.pack Format.binary64 (UnpackedFloat.unpack Format.binary64 b) = b := by
  have hparts := packComponents_unpack b
  have hmlt : (@unpackMantissa Format.binary64 b).toNat < 2 ^ 52 :=
    (@unpackMantissa Format.binary64 b).isLt
  unfold UnpackedFloat.unpack
  by_cases he : @unpackExponent Format.binary64 b = -1#11
  · by_cases hm : @unpackMantissa Format.binary64 b = 0#52
    · rw [if_pos he, if_pos hm]
      rw [he, hm] at hparts
      exact hparts
    · rw [if_pos he, if_neg hm]
      exact (hb.eq_packedNaN he hm).symm
  · by_cases hz : @unpackExponent Format.binary64 b = 0#11
    · by_cases hm : @unpackMantissa Format.binary64 b = 0#52
      · rw [if_neg he, if_pos hz, dif_pos hm]
        rw [hz, hm] at hparts
        exact hparts
      · rw [if_neg he, if_pos hz, dif_neg hm]
        have hpos : 0 < (@unpackMantissa Format.binary64 b).toNat :=
          Nat.pos_of_ne_zero fun h => hm (BitVec.eq_of_toNat_eq h)
        have hlog : (@unpackMantissa Format.binary64 b).toNat.log2 < 52 :=
          (Nat.log2_lt (by omega)).2 hmlt
        have hpack :=
          pack_finite (Sign.ofBitVec (@unpackSign Format.binary64 b)) (k := 1) hpos (by decide)
        rw [if_neg (by omega), BitVec.ofNat_toNat, BitVec.setWidth_eq, ← hz, hparts] at hpack
        rw [hz]
        exact hpack
    · rw [if_neg he, if_neg hz]
      have hsum : (1#1 ++ @unpackMantissa Format.binary64 b).toNat =
          2 ^ 52 + (@unpackMantissa Format.binary64 b).toNat := by
        rw [BitVec.toNat_append, ← Nat.shiftLeft_add_eq_or_of_lt hmlt]
        rfl
      have hlog : (1#1 ++ @unpackMantissa Format.binary64 b).toNat.log2 = 52 := by
        rw [Nat.log2_eq_iff (by omega)]
        omega
      have hlow : BitVec.ofNat 52 (1#1 ++ @unpackMantissa Format.binary64 b).toNat =
          @unpackMantissa Format.binary64 b := by
        refine BitVec.eq_of_toNat_eq ?_
        rw [BitVec.toNat_ofNat, hsum]
        omega
      have helt : (@unpackExponent Format.binary64 b).toNat < 2 ^ 11 :=
        (@unpackExponent Format.binary64 b).isLt
      have hmax : (@unpackExponent Format.binary64 b).toNat ≠ 2047 :=
        fun h => he (BitVec.eq_of_toNat_eq h)
      have hpack := pack_finite (Sign.ofBitVec (@unpackSign Format.binary64 b))
        (k := (@unpackExponent Format.binary64 b).toNat)
        (m := (1#1 ++ @unpackMantissa Format.binary64 b).toNat) (by omega) (by omega)
      rw [if_pos hlog, BitVec.ofNat_toNat, BitVec.setWidth_eq, hlow, hparts] at hpack
      exact hpack

theorem ofBits_toBits (x : Float) : Float.ofBits x.toBits = x := by
  obtain ⟨bits, valid⟩ := x
  show Float.ofModel _ = Float.ofModel _
  refine congrArg _ ?_
  show Float.Model.pack (UnpackedFloat.unpack Format.binary64 bits.toBitVec) = _
  unfold Float.Model.pack
  congr 1
  exact congrArg UInt64.ofBitVec (pack_unpack valid)

/-- What a finite number consists of: a mantissa with its leading digit, but for the least exponent. -/
theorem eq_ofBits_of_unpack {x : Float} {negative : Bool} {m : Nat} {e : Int}
    (h : unpack x = .finite negative m e) :
    x = Float.ofBits (UInt64.ofNat ((e + 1074).toNat * 2 ^ 52 + m + if negative then 2 ^ 63 else 0)) ∧
      m < 2 ^ 53 ∧ -1074 ≤ e ∧ e ≤ 971 ∧ (2 ^ 52 ≤ m ∨ e = -1074) := by
  have hbits : x.toBits.toNat < 2 ^ 64 := x.toBits.toNat_lt
  have heq : ∀ {n : Nat}, n = x.toBits.toNat → x = Float.ofBits (UInt64.ofNat n) := by
    rintro n rfl
    rw [UInt64.ofNat_toNat, ofBits_toBits]
  have hsign : (if decide (2 ^ 63 ≤ x.toBits.toNat) then 2 ^ 63 else 0) =
      x.toBits.toNat / 2 ^ 63 * 2 ^ 63 := by
    by_cases hle : 2 ^ 63 ≤ x.toBits.toNat
    · rw [if_pos (by simpa using hle)]
      omega
    · rw [if_neg (by simpa using hle)]
      omega
  simp only [unpack, Nat.pow_eq] at h
  split at h
  · split at h <;> cases h
  · split at h
    · obtain ⟨rfl, rfl, rfl⟩ := Parts.finite.inj h
      refine ⟨heq ?_, by omega, by omega, by omega, .inr rfl⟩
      rw [hsign]
      omega
    · obtain ⟨rfl, rfl, rfl⟩ := Parts.finite.inj h
      refine ⟨heq ?_, by omega, by omega, by omega, .inl (by omega)⟩
      rw [hsign]
      omega

end Stencil.Binary64
