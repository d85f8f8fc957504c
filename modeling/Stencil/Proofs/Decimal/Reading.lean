import Mathlib.Data.Nat.Cast.Field
import Stencil.Proofs.Decimal.Bits
import Stencil.Proofs.Decimal.Shortest
import Stencil.Proofs.Decimal.Written

/-! # Written numbers are read

A finite number is written as a numeral that is read as the same number, but for negative zero, which loses
its sign (`readsAs_formatNumber`). -/
set_option autoImplicit false
namespace Stencil

open Binary64

/-! ## Digits with a value -/

theorem Text.digitsValue_append_zeros (t : Text) (n : Nat) :
    digitsValue (t ++ List.replicate n '0') = digitsValue t * 10 ^ n := by
  show Nat.ofDigitChars 10 (t ++ List.replicate n '0') 0 = Nat.ofDigitChars 10 t 0 * 10 ^ n
  rw [Nat.ofDigitChars_append, Nat.ofDigitChars_replicate_zero, Nat.mul_comm]

theorem Text.digitsValue_zeros_append (t : Text) (n : Nat) :
    digitsValue (List.replicate n '0' ++ t) = digitsValue t := by
  show Nat.ofDigitChars 10 (List.replicate n '0' ++ t) 0 = Nat.ofDigitChars 10 t 0
  rw [Nat.ofDigitChars_append, Nat.ofDigitChars_replicate_zero, Nat.mul_zero]

/-- The text is digits with the value, with a point or without one. -/
def Shows (t : Text) (q : ℚ) : Prop :=
  ∃ whole fraction : Text, whole ≠ [] ∧ (∀ c ∈ whole, c.isDigit = true) ∧
    (∀ c ∈ fraction, c.isDigit = true) ∧
    t = whole ++ (if fraction = [] then [] else '.' :: fraction) ∧
    (Text.digitsValue (whole ++ fraction) : ℚ) * 10 ^ (-(fraction.length : Int)) = q

theorem shows_of_digits {t : Text} (hne : t ≠ []) (h : ∀ c ∈ t, c.isDigit = true) :
    Shows t (Text.digitsValue t) :=
  ⟨t, [], hne, h, by simp, by simp, by simp⟩

namespace Decimal

/-- The zeros at the end of digits. -/
theorem exists_dropWhile_zeros (t : Text) :
    ∃ zeros, t = (t.reverse.dropWhile (· = '0')).reverse ++ List.replicate zeros '0' := by
  refine ⟨(t.reverse.takeWhile (· = '0')).length, ?_⟩
  have hsplit := congrArg List.reverse (List.takeWhile_append_dropWhile (p := (· = '0')) (l := t.reverse))
  rw [List.reverse_append, List.reverse_reverse] at hsplit
  have hzeros : (t.reverse.takeWhile (· = '0')).reverse =
      List.replicate (t.reverse.takeWhile (· = '0')).length '0' := by
    rw [List.eq_replicate_iff]
    refine ⟨by simp, fun c hc => ?_⟩
    simpa using List.all_eq_true.1 List.all_takeWhile c (List.mem_reverse.1 hc)
  rw [← hzeros, hsplit]

theorem shows_positional (digits : Nat) (grid : Int) :
    Shows (positional digits grid) (digits * 10 ^ grid) := by
  unfold positional
  by_cases hgrid : 0 ≤ grid
  · obtain ⟨k, rfl⟩ := Int.eq_ofNat_of_zero_le hgrid
    simp only [if_pos hgrid, Int.toNat_natCast]
    have hshows := shows_of_digits (t := Text.ofNat digits ++ List.replicate k '0')
      (by simp [Text.ofNat_ne_nil]) fun c hc => by
        rcases List.mem_append.1 hc with hc | hc
        · exact Text.isDigit_of_mem_ofNat hc
        · exact isDigit_of_mem_zeros hc
    rw [Text.digitsValue_append_zeros, Text.digitsValue_ofNat] at hshows
    rw [zpow_natCast]
    exact_mod_cast hshows
  · obtain ⟨places, hplaces⟩ := Int.eq_ofNat_of_zero_le (show 0 ≤ -grid by omega)
    obtain rfl : grid = -(places : Int) := by omega
    simp only [if_neg hgrid, neg_neg, Int.toNat_natCast]
    generalize hpadded : List.replicate (places + 1 - (Text.ofNat digits).length) '0' ++
      Text.ofNat digits = padded
    have hvalue : Text.digitsValue padded = digits := by
      rw [← hpadded, Text.digitsValue_zeros_append, Text.digitsValue_ofNat]
    have hdigits : ∀ c ∈ padded, c.isDigit = true := by
      intro c hc
      rw [← hpadded] at hc
      rcases List.mem_append.1 hc with hc | hc
      · exact isDigit_of_mem_zeros hc
      · exact Text.isDigit_of_mem_ofNat hc
    have hlength : places + 1 ≤ padded.length := by
      rw [← hpadded, List.length_append, List.length_replicate]
      omega
    obtain ⟨zeros, hzeros⟩ := exists_dropWhile_zeros (padded.drop (padded.length - places))
    generalize hfraction :
      ((padded.drop (padded.length - places)).reverse.dropWhile (· = '0')) = reversed at *
    have hsplit : padded.take (padded.length - places) ++ reversed.reverse ++ List.replicate zeros '0' =
        padded := by
      rw [List.append_assoc, ← hzeros, List.take_append_drop]
    have hcount : reversed.length + zeros = places := by
      have hl := congrArg List.length hzeros
      simp only [List.length_drop, List.length_append, List.length_reverse, List.length_replicate] at hl
      omega
    have hmem : ∀ c ∈ padded.take (padded.length - places) ++ reversed.reverse, c.isDigit = true := by
      intro c hc
      refine hdigits c ?_
      rw [← hsplit]
      exact List.mem_append_left _ hc
    refine ⟨padded.take (padded.length - places), reversed.reverse, ?_,
      fun c hc => hmem c (List.mem_append_left _ hc),
      fun c hc => hmem c (List.mem_append_right _ hc), ?_, ?_⟩
    · intro hnil
      have hl := congrArg List.length hnil
      simp only [List.length_take, List.length_nil] at hl
      omega
    · cases reversed with
      | nil => simp
      | cons c reversed => simp
    · have hscaled := congrArg Text.digitsValue hsplit
      rw [Text.digitsValue_append_zeros, hvalue] at hscaled
      rw [← hscaled, ← hcount, List.length_reverse]
      push_cast
      rw [neg_add, zpow_add₀ (by norm_num), zpow_neg _ (zeros : Int), zpow_natCast]
      field_simp

end Decimal

/-! ## Reading -/

def settle (x : Float) : Float :=
  match unpack x with
  | .finite _ 0 _ => Float.ofBits 0
  | _ => x

theorem settle_of_pos {x : Float} {negative : Bool} {m : Nat} {e : Int}
    (h : unpack x = .finite negative m e) (hm : 0 < m) : settle x = x := by
  obtain ⟨k, rfl⟩ := Nat.exists_eq_succ_of_ne_zero hm.ne'
  rw [settle, h]
  rfl

/-- Both zeros are one number. -/
theorem settle_beq {x : Float} (hx : Decimal.isFinite x = true) : (settle x == x) = true := by
  cases hparts : unpack x with
  | notANumber => rw [Decimal.isFinite, hparts] at hx; cases hx
  | infinite negative => rw [Decimal.isFinite, hparts] at hx; cases hx
  | finite negative m e =>
      obtain ⟨hbits, hmantissa, hleast, hgreatest, hleading⟩ := eq_ofBits_of_unpack hparts
      rcases Nat.eq_zero_or_pos m with rfl | hm
      · obtain rfl : e = -1074 := hleading.resolve_left (by decide)
        rw [settle, hparts, hbits]
        cases negative <;> decide +kernel
      · rw [settle_of_pos hparts hm, hbits]
        refine beq_self_ofBits (unpack_ne_notANumber (.inl (unpackExponent_ne negative ?_)))
        simp only [infinityBits, Nat.pow_eq]
        omega

def ReadsAs (t : Text) (x : Float) : Prop :=
  ∃ (negative : Bool) (whole fraction : Text), whole ≠ [] ∧ (∀ c ∈ whole, c.isDigit = true) ∧
    (∀ c ∈ fraction, c.isDigit = true) ∧
    t = (if negative then ['-'] else []) ++ (whole ++ if fraction = [] then [] else '.' :: fraction) ∧
    Decimal.ofNumeral negative whole fraction = x

theorem Shows.readsAs {t : Text} {q : ℚ} {m : Nat} {e : Int} (h : Shows t q) (hproper : Proper m e)
    (hm : 0 < m) (hrounds : RoundsTo m e q) (negative : Bool) :
    ReadsAs ((if negative then ['-'] else []) ++ t) (Float.ofBits
      (UInt64.ofNat ((e + 1074).toNat * 2 ^ 52 + m + if negative then 2 ^ 63 else 0))) := by
  obtain ⟨whole, fraction, hne, hwhole, hfraction, rfl, rfl⟩ := h
  exact ⟨negative, whole, fraction, hne, hwhole, hfraction, rfl,
    Decimal.nearest_eq hproper hm hrounds negative⟩

theorem roundsTo_self (m : Nat) (e : Int) : RoundsTo m e (m * 2 ^ e) := by
  have hunit : (0 : ℚ) < 2 ^ e := by positivity
  have hreach : (0 : ℚ) < reachBelow m e := by
    unfold reachBelow
    split <;> norm_num
  have hlow : (m - reachBelow m e) * 2 ^ e < m * 2 ^ e := by
    gcongr
    linarith
  have hhigh : (m : ℚ) * 2 ^ e < (m + 1 / 2) * 2 ^ e := by
    gcongr
    linarith
  exact ⟨hlow.le, hhigh.le, .inr ⟨hlow, hhigh⟩⟩

namespace Decimal

variable {x : Float} {negative : Bool} {m : Nat} {e : Int}

/-- An integral number is its mantissa times its power of two. -/
theorem exists_of_integer? {n : Int} (h : unpack x = .finite negative m e) (hn : integer? x = some n) :
    ∃ k : Nat, (k : ℚ) = m * 2 ^ e ∧ n = if negative then -(k : Int) else k := by
  simp only [integer?, Nat.pow_eq] at hn
  rw [h] at hn
  obtain ⟨i, hi, rfl⟩ := Option.map_eq_some_iff.1 hn
  obtain ⟨k, hk, hki⟩ := Option.bind_eq_some_iff.1 hi
  obtain rfl := Option.some.inj hki
  refine ⟨k, ?_, rfl⟩
  by_cases he : 0 ≤ e
  · rw [if_pos he] at hk
    obtain rfl := Option.some.inj hk
    obtain ⟨j, rfl⟩ := Int.eq_ofNat_of_zero_le he
    rw [Int.toNat_natCast, zpow_natCast]
    push_cast
    rfl
  · rw [if_neg he] at hk
    obtain ⟨j, hj⟩ := Int.eq_ofNat_of_zero_le (show 0 ≤ -e by omega)
    obtain rfl : e = -(j : Int) := by omega
    rw [neg_neg, Int.toNat_natCast] at hk
    by_cases hmod : m % 2 ^ j = 0
    · rw [if_pos hmod] at hk
      obtain rfl := Option.some.inj hk
      rw [Nat.cast_div (Nat.dvd_of_mod_eq_zero hmod) (by positivity), zpow_neg, zpow_natCast]
      push_cast
      rfl
    · rw [if_neg hmod] at hk
      cases hk

theorem integer?_of_zero (h : unpack x = .finite negative 0 e) : integer? x = some 0 := by
  unfold integer?
  rw [h]
  cases negative <;> simp

theorem text_of_pos (h : unpack x = .finite negative m e) (hm : 0 < m) :
    text x = (if negative then ['-'] else []) ++ positional (shortest m e).1 (shortest m e).2 := by
  unfold text
  rw [h]
  simp only [if_neg (show m ≠ 0 by omega)]
  cases negative <;> rfl

end Decimal

/-- A finite number is written as a numeral that is read as this number, negative zero as zero. -/
theorem readsAs_formatNumber {x : Float} (hx : Decimal.isFinite x = true) :
    ReadsAs (formatNumber x) (settle x) := by
  cases hparts : unpack x with
  | notANumber => rw [Decimal.isFinite, hparts] at hx; cases hx
  | infinite negative => rw [Decimal.isFinite, hparts] at hx; cases hx
  | finite negative m e =>
      obtain ⟨hbits, hmantissa, hleast, hgreatest, hleading⟩ := eq_ofBits_of_unpack hparts
      have hproper : Proper m e := ⟨hmantissa, hleast, hgreatest, hleading⟩
      rcases Nat.eq_zero_or_pos m with rfl | hm
      · have hzero : formatNumber x = ['0'] := by
          rw [formatNumber, Decimal.integer?_of_zero hparts]
          rfl
        have hsettle : settle x = Float.ofBits 0 := by
          rw [settle, hparts]
          rfl
        rw [hzero, hsettle]
        exact ⟨false, ['0'], [], by simp, List.all_eq_true.1 (by decide), by simp, rfl, rfl⟩
      · rw [settle_of_pos hparts hm]
        have hlong : ReadsAs (Decimal.text x) x := by
          have hshows := Decimal.shows_positional (Decimal.shortest m e).1 (Decimal.shortest m e).2
          have hreads := hshows.readsAs hproper hm (Decimal.roundsTo_shortest hm hproper) negative
          rwa [← Decimal.text_of_pos hparts hm, ← hbits] at hreads
        unfold formatNumber
        cases hinteger : Decimal.integer? x with
        | none => exact hlong
        | some n =>
            simp only
            by_cases hbound : n.natAbs < exactBound
            · obtain ⟨k, hk, rfl⟩ := Decimal.exists_of_integer? hparts hinteger
              have hshows := shows_of_digits (Text.ofNat_ne_nil k) fun c hc => Text.isDigit_of_mem_ofNat hc
              rw [Text.digitsValue_ofNat] at hshows
              have hreads := hshows.readsAs hproper hm (hk ▸ roundsTo_self m e) negative
              rw [← hbits] at hreads
              rw [if_pos hbound]
              have hkpos : 0 < k := by
                have hq : (0 : ℚ) < k := by
                  rw [hk]
                  positivity
                exact_mod_cast hq
              cases negative with
              | true =>
                  have hneg : (if true = true then -(k : Int) else k) < 0 := by
                    rw [if_pos rfl]
                    omega
                  rw [if_pos hneg]
                  simpa using hreads
              | false =>
                  rw [if_neg (by simp)]
                  simpa using hreads
            · rw [if_neg hbound]
              exact hlong

end Stencil
