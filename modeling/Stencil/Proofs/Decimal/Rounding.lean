import Mathlib.Algebra.Order.Field.Power
import Mathlib.Algebra.Order.Field.Rat
import Mathlib.Data.Rat.Cast.Order
import Mathlib.Tactic.FieldSimp
import Mathlib.Tactic.Linarith
import Mathlib.Tactic.Positivity
import Mathlib.Tactic.Ring
import Stencil.Decimal.Numeral

/-! # Rounding to doubles

The ratios that lie nearest to a double round to it (`RoundsTo`, `ofRatio_eq`). -/
set_option autoImplicit false
namespace Stencil.Binary64

theorem overPowerOfTwo_eq (num : Nat) {den : Nat} (hden : 0 < den) (e : Int) :
    0 < (overPowerOfTwo num den e).2 ∧
      ((overPowerOfTwo num den e).1 : ℚ) / (overPowerOfTwo num den e).2 = num / den / 2 ^ e := by
  simp only [overPowerOfTwo, Nat.pow_eq]
  by_cases he : 0 ≤ e
  · obtain ⟨k, rfl⟩ := Int.eq_ofNat_of_zero_le he
    rw [if_pos he]
    refine ⟨by positivity, ?_⟩
    push_cast
    rw [Int.toNat_natCast, zpow_natCast, div_div]
  · obtain ⟨k, hk⟩ := Int.eq_ofNat_of_zero_le (show 0 ≤ -e by omega)
    rw [if_neg he, hk]
    refine ⟨hden, ?_⟩
    have he' : e = -(k : ℤ) := by omega
    push_cast
    rw [Int.toNat_natCast, he', zpow_neg, zpow_natCast, div_inv_eq_mul, mul_div_right_comm]

/-- A number lies between the powers of two of its length. -/
theorem zpow_log2_le {n : Nat} (hn : 0 < n) :
    (2 : ℚ) ^ (n.log2 : ℤ) ≤ n ∧ (n : ℚ) < 2 ^ ((n.log2 : ℤ) + 1) := by
  have hle : 2 ^ n.log2 ≤ n := Nat.log2_self_le (by omega)
  have hlt : n < 2 ^ (n.log2 + 1) := Nat.lt_log2_self
  constructor
  · rw [zpow_natCast]
    exact_mod_cast hle
  · rw [← Nat.cast_succ, zpow_natCast]
    exact_mod_cast hlt

/-- The ratio lies below `2^53` units of the exponent, and not below `2^52` of them unless the exponent is
the least one. -/
theorem exponentFor_spec {num den : Nat} (hnum : 0 < num) (hden : 0 < den) :
    -1074 ≤ exponentFor num den ∧ (num : ℚ) / den < 2 ^ (exponentFor num den + 53) ∧
      (exponentFor num den = -1074 ∨ (2 : ℚ) ^ (exponentFor num den + 52) ≤ num / den) := by
  obtain ⟨hnle, hnlt⟩ := zpow_log2_le hnum
  obtain ⟨hdle, hdlt⟩ := zpow_log2_le hden
  have hden' : (0 : ℚ) < den := by exact_mod_cast hden
  generalize he : (num.log2 : ℤ) - den.log2 - 53 = e
  have hlow : (2 : ℚ) ^ (e + 52) < num / den := by
    rw [lt_div_iff₀ hden']
    calc (2 : ℚ) ^ (e + 52) * den < 2 ^ (e + 52) * 2 ^ ((den.log2 : ℤ) + 1) := by gcongr
      _ = 2 ^ (num.log2 : ℤ) := by rw [← zpow_add₀ two_ne_zero]; congr 1; omega
      _ ≤ num := hnle
  have hhigh : (num : ℚ) / den < 2 ^ (e + 54) := by
    rw [div_lt_iff₀ hden']
    calc (num : ℚ) < 2 ^ ((num.log2 : ℤ) + 1) := hnlt
      _ = 2 ^ (e + 54) * 2 ^ (den.log2 : ℤ) := by rw [← zpow_add₀ two_ne_zero]; congr 1; omega
      _ ≤ 2 ^ (e + 54) * den := by gcongr
  obtain ⟨hd, hratio⟩ := overPowerOfTwo_eq num hden e
  have hexponent : exponentFor num den = max (-1074) (if 2 ^ 53 ≤ (overPowerOfTwo num den e).1 /
      (overPowerOfTwo num den e).2 then e + 1 else e) := by
    rw [← he]
    rfl
  rw [hexponent]
  generalize (overPowerOfTwo num den e).1 = n at hratio ⊢
  generalize (overPowerOfTwo num den e).2 = d at hd hratio ⊢
  have hfloor : 2 ^ 53 ≤ n / d ↔ (2 : ℚ) ^ (e + 53) ≤ num / den := by
    have hd' : (0 : ℚ) < d := by exact_mod_cast hd
    have hunit : (2 : ℚ) ^ (e + 53) = 2 ^ 53 * 2 ^ e := by
      rw [zpow_add₀ two_ne_zero, mul_comm]
      rfl
    rw [Nat.le_div_iff_mul_le hd, hunit, ← le_div_iff₀ (by positivity), ← hratio, le_div_iff₀ hd']
    exact_mod_cast Iff.rfl
  by_cases h : 2 ^ 53 ≤ n / d
  · rw [if_pos h]
    refine ⟨le_max_left .., ?_, ?_⟩
    · refine hhigh.trans_le (zpow_le_zpow_right₀ one_le_two ?_)
      omega
    · rcases le_total (e + 1) (-1074) with hle | hle
      · exact .inl (max_eq_left hle)
      · right
        rw [max_eq_right hle, show e + 1 + 52 = e + 53 by ring]
        exact hfloor.1 h
  · rw [if_neg h]
    refine ⟨le_max_left .., ?_, ?_⟩
    · rw [hfloor, not_le] at h
      refine h.trans_le (zpow_le_zpow_right₀ one_le_two ?_)
      omega
    · rcases le_total e (-1074) with hle | hle
      · exact .inl (max_eq_left hle)
      · right
        rw [max_eq_right hle]
        exact hlow.le

/-- The integer within half a unit; halfway between two it has to be even. -/
theorem roundEven_eq {num den r : Nat} (hden : 0 < den) (hlow : (r : ℚ) - 1 / 2 ≤ num / den)
    (hhigh : (num : ℚ) / den ≤ r + 1 / 2)
    (hhalf : r % 2 = 0 ∨ (r : ℚ) - 1 / 2 < num / den ∧ (num : ℚ) / den < r + 1 / 2) :
    roundEven num den = r := by
  have hden' : (0 : ℚ) < den := by exact_mod_cast hden
  rw [le_div_iff₀ hden'] at hlow
  rw [div_le_iff₀ hden'] at hhigh
  rw [lt_div_iff₀ hden', div_lt_iff₀ hden'] at hhalf
  replace hlow : 2 * r * den ≤ 2 * num + den := by
    have h : (2 : ℚ) * r * den ≤ 2 * num + den := by linarith
    exact_mod_cast h
  replace hhigh : 2 * num ≤ (2 * r + 1) * den := by
    have h : (2 : ℚ) * num ≤ (2 * r + 1) * den := by linarith
    exact_mod_cast h
  replace hhalf : r % 2 = 0 ∨ 2 * r * den < 2 * num + den ∧ 2 * num < (2 * r + 1) * den := by
    refine hhalf.imp_right fun ⟨hl, hh⟩ => ⟨?_, ?_⟩
    · have h : (2 : ℚ) * r * den < 2 * num + den := by linarith
      exact_mod_cast h
    · have h : (2 : ℚ) * num < (2 * r + 1) * den := by linarith
      exact_mod_cast h
  have hsplit := Nat.div_add_mod num den
  have hmod := Nat.mod_lt num hden
  unfold roundEven
  generalize num / den = q at hsplit
  generalize num % den = rest at hsplit hmod
  subst hsplit
  have hle : r ≤ q + 1 := by
    by_contra hlt
    have hmul : den * (q + 2) ≤ den * r := Nat.mul_le_mul_left den (by omega)
    nlinarith
  have hge : q ≤ r := by
    by_contra hlt
    have hmul : den * (r + 1) ≤ den * q := Nat.mul_le_mul_left den (by omega)
    nlinarith
  rcases Nat.lt_or_ge q r with hlt | hge'
  · obtain rfl : r = q + 1 := by omega
    have hup : den ≤ 2 * rest := by nlinarith
    by_cases htwice : den < 2 * rest
    · rw [if_pos htwice]
    · have htie : 2 * rest = den := by omega
      rw [if_neg htwice, if_pos htie]
      rcases hhalf with heven | hstrict
      · omega
      · nlinarith [hstrict.1]
  · obtain rfl : r = q := by omega
    have hdown : 2 * rest ≤ den := by nlinarith
    rw [if_neg (by omega)]
    by_cases htie : 2 * rest = den
    · rw [if_pos htie]
      rcases hhalf with heven | hstrict
      · omega
      · nlinarith [hstrict.2]
    · rw [if_neg htie]

/-! ## Rounding -/

/-- How far the numbers that round to `m · 2^e` reach below it, in units of `2^e`. -/
def reachBelow (m : Nat) (e : Int) : ℚ := if m = 2 ^ 52 ∧ -1074 < e then 1 / 4 else 1 / 2

structure RoundsTo (m : Nat) (e : Int) (q : ℚ) : Prop where
  low : (m - reachBelow m e) * 2 ^ e ≤ q
  high : q ≤ (m + 1 / 2) * 2 ^ e
  half : m % 2 = 0 ∨ (m - reachBelow m e) * 2 ^ e < q ∧ q < (m + 1 / 2) * 2 ^ e

structure Proper (m : Nat) (e : Int) : Prop where
  mantissa : m < 2 ^ 53
  least : -1074 ≤ e
  greatest : e ≤ 971
  leading : 2 ^ 52 ≤ m ∨ e = -1074

theorem reachBelow_le (m : Nat) (e : Int) : reachBelow m e ≤ 1 / 2 := by
  unfold reachBelow
  split <;> norm_num

/-- At the exponent of the double its mantissa is the nearest integer. -/
theorem roundEven_of_roundsTo {m n d : Nat} {e : Int} {q : ℚ} (h : RoundsTo m e q) (hd : 0 < d)
    (hratio : (n : ℚ) / d = q / 2 ^ e) : roundEven n d = m := by
  have hunit : (0 : ℚ) < 2 ^ e := by positivity
  have hreach : ((m : ℚ) - 1 / 2) * 2 ^ e ≤ (m - reachBelow m e) * 2 ^ e := by
    have := reachBelow_le m e
    gcongr
  refine roundEven_eq hd ?_ ?_ ?_
  · rw [hratio, le_div_iff₀ hunit]
    exact hreach.trans h.low
  · rw [hratio, div_le_iff₀ hunit]
    exact h.high
  · rw [hratio, lt_div_iff₀ hunit, div_lt_iff₀ hunit]
    exact h.half.imp_right fun hstrict => ⟨hreach.trans_lt hstrict.1, hstrict.2⟩

/-- Right below a power of two the ratio has the next smaller exponent, where it rounds up to the power and
carries into the exponent. -/
theorem magnitude_below {m n d : Nat} {e E : Int} {q : ℚ} (hleast : -1074 ≤ E) (hlt : E < e)
    (hleading : 2 ^ 52 ≤ m ∨ e = -1074) (h : RoundsTo m e q) (hhigh : q < 2 ^ (E + 53)) (hd : 0 < d)
    (hratio : (n : ℚ) / d = q / 2 ^ E) :
    (E + 1074).toNat * 2 ^ 52 + roundEven n d = (e + 1074).toNat * 2 ^ 52 + m := by
  have hunit : (0 : ℚ) < 2 ^ e := by positivity
  have hm : 2 ^ 52 ≤ m := hleading.resolve_right (by omega)
  have hpower : ∀ k : Int, (2 : ℚ) ^ (E + 53) ≤ 2 ^ (k + e) ∨ k + e < E + 53 := by
    intro k
    rcases le_or_gt (E + 53) (k + e) with hle | hgt
    · exact .inl (zpow_le_zpow_right₀ one_le_two hle)
    · exact .inr hgt
  have htop : q < 2 ^ 52 * 2 ^ e := by
    refine hhigh.trans_le (((hpower 52).resolve_right (by omega)).trans_eq ?_)
    rw [zpow_add₀ two_ne_zero]
    rfl
  have hm' : m = 2 ^ 52 := by
    have hreach : ((m : ℚ) - 1 / 2) * 2 ^ e ≤ (m - reachBelow m e) * 2 ^ e := by
      have := reachBelow_le m e
      gcongr
    have hlt' : (m : ℚ) - 1 / 2 < 2 ^ 52 :=
      lt_of_mul_lt_mul_right ((hreach.trans h.low).trans_lt htop) hunit.le
    have hle : (m : ℚ) < 2 ^ 52 + 1 := by linarith
    have hnat : m < 2 ^ 52 + 1 := by exact_mod_cast hle
    omega
  have hlow : ((2 : ℚ) ^ 52 - 1 / 4) * 2 ^ e ≤ q := by
    have hlow := h.low
    rw [hm', reachBelow, if_pos ⟨rfl, by omega⟩] at hlow
    exact_mod_cast hlow
  have hE : e = E + 1 := by
    rcases hpower 51 with hle | hgt
    · exfalso
      have hsplit : (2 : ℚ) ^ ((51 : Int) + e) = 2 ^ 51 * 2 ^ e := zpow_add₀ two_ne_zero ..
      have hle' : q < (2 : ℚ) ^ 51 * 2 ^ e := hsplit ▸ hhigh.trans_le hle
      nlinarith
    · omega
  have hround : roundEven n d = 2 ^ 53 := by
    have hunitE : (0 : ℚ) < 2 ^ E := by positivity
    rw [hE, zpow_add_one₀ two_ne_zero] at hlow
    rw [zpow_add₀ two_ne_zero] at hhigh
    have hhigh' : q < 2 ^ E * 2 ^ 53 := hhigh
    refine roundEven_eq hd ?_ ?_ (.inl (by decide))
    · rw [hratio, le_div_iff₀ hunitE]
      push_cast
      linarith
    · rw [hratio, div_le_iff₀ hunitE]
      push_cast
      nlinarith
  rw [hround, hm']
  omega

theorem ofRatio_eq {m : Nat} {e : Int} {num den : Nat} (hproper : Proper m e) (hnum : 0 < num)
    (hden : 0 < den) (hrounds : RoundsTo m e (num / den)) (negative : Bool) :
    ofRatio negative num den =
      Float.ofBits (UInt64.ofNat ((e + 1074).toNat * 2 ^ 52 + m + if negative then 2 ^ 63 else 0)) := by
  obtain ⟨hmantissa, hleast, hgreatest, hleading⟩ := hproper
  obtain ⟨hleastE, hhighE, hlowE⟩ := exponentFor_spec hnum hden
  have hm53 : (m : ℚ) + 1 / 2 < 2 ^ 53 := by
    have h : (m : ℚ) + 1 ≤ 2 ^ 53 := by exact_mod_cast hmantissa
    linarith
  have hunit : ∀ k : Int, (0 : ℚ) < 2 ^ k := fun k => by positivity
  have hmagnitude : (exponentFor num den + 1074).toNat * 2 ^ 52 +
      roundEven (overPowerOfTwo num den (exponentFor num den)).1
        (overPowerOfTwo num den (exponentFor num den)).2 = (e + 1074).toNat * 2 ^ 52 + m := by
    obtain ⟨hd, hratio⟩ := overPowerOfTwo_eq num hden (exponentFor num den)
    generalize exponentFor num den = E at *
    generalize (overPowerOfTwo num den E).1 = n at hratio ⊢
    generalize (overPowerOfTwo num den E).2 = d at hd hratio ⊢
    generalize (num : ℚ) / den = q at *
    rcases lt_trichotomy E e with hlt | rfl | hgt
    · exact magnitude_below hleastE hlt hleading hrounds hhighE hd hratio
    · rw [roundEven_of_roundsTo hrounds hd hratio]
    · exfalso
      have hlow := hlowE.resolve_left (by omega)
      have hpower : (2 : ℚ) ^ 53 * 2 ^ e ≤ 2 ^ (E + 52) := by
        rw [← zpow_natCast, ← zpow_add₀ two_ne_zero]
        exact zpow_le_zpow_right₀ one_le_two (by push_cast; omega)
      have hhigh : ((m : ℚ) + 1 / 2) * 2 ^ e < 2 ^ 53 * 2 ^ e := by
        have := hunit e
        gcongr
      linarith [hrounds.high]
  have hbound : (e + 1074).toNat * 2 ^ 52 + m ≤ infinityBits := by
    simp only [infinityBits, Nat.pow_eq]
    omega
  have hvalue : ofRatio negative num den = Float.ofBits (UInt64.ofNat (min infinityBits
      ((exponentFor num den + 1074).toNat * 2 ^ 52 +
        roundEven (overPowerOfTwo num den (exponentFor num den)).1
          (overPowerOfTwo num den (exponentFor num den)).2) + if negative then 2 ^ 63 else 0)) := by
    simp only [ofRatio, if_neg (show num ≠ 0 by omega), Nat.pow_eq]
  rw [hvalue, hmagnitude, min_eq_right hbound]

end Stencil.Binary64
