import Stencil.Proofs.Decimal.Rounding
import Stencil.Decimal.Shortest

/-! # Shortest digits round back

A decimal is read as the double that it rounds to (`nearest_eq`), and the digits that are found for a double
round to it (`roundsTo_shortest`): on a grid that is a little finer than the doubles are apart, one of the
two points around a number lies in the interval that rounds to it. -/
set_option autoImplicit false
namespace Stencil.Decimal

open Binary64

/-- A number lies between the powers of ten of its length. -/
theorem zpow_length_toDigits_le {n : Nat} (hn : 0 < n) :
    (10 : ℚ) ^ (((Nat.toDigits 10 n).length : Int) - 1) ≤ n ∧
      (n : ℚ) < 10 ^ ((Nat.toDigits 10 n).length : Int) := by
  have hpos : 0 < (Nat.toDigits 10 n).length := Nat.length_toDigits_pos
  constructor
  · obtain ⟨k, hk⟩ : ∃ k, (Nat.toDigits 10 n).length = k + 1 := ⟨_, (Nat.succ_pred_eq_of_pos hpos).symm⟩
    have hle : 10 ^ k ≤ n := by
      by_contra hlt
      rcases Nat.eq_zero_or_pos k with rfl | hkpos
      · omega
      · have := (Nat.length_toDigits_le_iff (by decide) hkpos).2 (Nat.lt_of_not_le hlt)
        omega
    rw [hk, Nat.cast_succ, add_sub_cancel_right, zpow_natCast]
    exact_mod_cast hle
  · have hlt := (Nat.length_toDigits_le_iff (b := 10) (n := n) (by decide) hpos).1 (Nat.le_refl _)
    rw [zpow_natCast]
    exact_mod_cast hlt

/-- A power of ten as a ratio. -/
theorem natCast_mul_zpow (digits : Nat) (grid : Int) :
    ((digits * 10 ^ grid.toNat : Nat) : ℚ) / (10 ^ (-grid).toNat : Nat) = digits * 10 ^ grid := by
  rcases le_total 0 grid with h | h
  · obtain ⟨k, rfl⟩ := Int.eq_ofNat_of_zero_le h
    rw [show (-(k : Int)).toNat = 0 by omega, Int.toNat_natCast, zpow_natCast]
    push_cast
    ring
  · obtain ⟨k, hk⟩ := Int.eq_ofNat_of_zero_le (show 0 ≤ -grid by omega)
    obtain rfl : grid = -(k : Int) := by omega
    rw [show (-(k : Int)).toNat = 0 by omega, neg_neg, Int.toNat_natCast, zpow_neg, zpow_natCast]
    push_cast
    ring

/-- Places beyond the doubles on either side. -/
theorem ten_zpow_le : (10 : ℚ) ^ (-331 : Int) ≤ 2 ^ (-1075 : Int) := by
  have hpow : 2 ^ 1075 ≤ 10 ^ 331 := by decide +kernel
  have hcast : ((2 ^ 1075 : Nat) : ℚ) ≤ (10 ^ 331 : Nat) := Nat.cast_le.2 hpow
  rw [Nat.cast_pow, Nat.cast_pow] at hcast
  rw [zpow_neg, zpow_neg]
  exact inv_anti₀ (by positivity) hcast

theorem le_ten_zpow : (2 : ℚ) ^ (1024 : Int) ≤ 10 ^ (310 : Int) := by
  have hpow : 2 ^ 1024 ≤ 10 ^ 310 := by decide +kernel
  have hcast : ((2 ^ 1024 : Nat) : ℚ) ≤ (10 ^ 310 : Nat) := Nat.cast_le.2 hpow
  rwa [Nat.cast_pow, Nat.cast_pow] at hcast

/-- A decimal is read as the double that it rounds to. -/
theorem nearest_eq {m : Nat} {e : Int} (hproper : Proper m e) (hm : 0 < m) {digits : Nat} {grid : Int}
    (hrounds : RoundsTo m e (digits * 10 ^ grid)) (negative : Bool) :
    nearest negative digits grid = Float.ofBits
      (UInt64.ofNat ((e + 1074).toNat * 2 ^ 52 + m + if negative then 2 ^ 63 else 0)) := by
  have hgrid : (0 : ℚ) < 10 ^ grid := by positivity
  have hlow : (2 : ℚ) ^ (-1075 : Int) ≤ digits * 10 ^ grid := by
    refine le_trans ?_ hrounds.low
    have hm' : (1 : ℚ) ≤ m := by exact_mod_cast hm
    have hreach : (1 : ℚ) / 2 ≤ m - reachBelow m e := by linarith [reachBelow_le m e]
    calc (2 : ℚ) ^ (-1075 : Int) ≤ 2 ^ (-1 + e) :=
          zpow_le_zpow_right₀ one_le_two (by have := hproper.least; omega)
      _ = 1 / 2 * 2 ^ e := by rw [zpow_add₀ two_ne_zero, zpow_neg_one, one_div]
      _ ≤ (m - reachBelow m e) * 2 ^ e := by gcongr
  have hdigits : 0 < digits := by
    refine Nat.pos_of_ne_zero fun hzero => ?_
    rw [hzero, Nat.cast_zero, zero_mul] at hlow
    exact absurd hlow (not_le.2 (by positivity))
  obtain ⟨hlead, htail⟩ := zpow_length_toDigits_le hdigits
  have hhigh : (digits : ℚ) * 10 ^ grid < 2 ^ (1024 : Int) := by
    refine hrounds.high.trans_lt ?_
    have hm' : (m : ℚ) + 1 / 2 < 2 ^ (53 : Int) := by
      have hle : (m : ℚ) + 1 ≤ 2 ^ 53 := by exact_mod_cast hproper.mantissa
      rw [show (2 : ℚ) ^ (53 : Int) = 2 ^ 53 from rfl]
      linarith
    have hunit : (0 : ℚ) < 2 ^ e := by positivity
    calc ((m : ℚ) + 1 / 2) * 2 ^ e < 2 ^ (53 : Int) * 2 ^ e := mul_lt_mul_of_pos_right hm' hunit
      _ = 2 ^ (53 + e) := (zpow_add₀ two_ne_zero ..).symm
      _ ≤ 2 ^ (1024 : Int) := zpow_le_zpow_right₀ one_le_two (by have := hproper.greatest; omega)
  have hplaces : (10 : ℚ) ^ (((Nat.toDigits 10 digits).length : Int) + grid - 1) ≤ digits * 10 ^ grid ∧
      (digits : ℚ) * 10 ^ grid < 10 ^ (((Nat.toDigits 10 digits).length : Int) + grid) := by
    constructor
    · rw [add_sub_right_comm, zpow_add₀ (by norm_num)]
      gcongr
    · rw [zpow_add₀ (by norm_num)]
      gcongr
  have hsmall : ¬ ((Nat.toDigits 10 digits).length : Int) + grid < -330 := by
    intro h
    have hstep := zpow_le_zpow_right₀ (show (1 : ℚ) ≤ 10 by norm_num)
      (show ((Nat.toDigits 10 digits).length : Int) + grid ≤ -331 by omega)
    exact absurd (hlow.trans_lt (hplaces.2.trans_le hstep)) (not_lt.2 ten_zpow_le)
  have hlarge : ¬ 310 < ((Nat.toDigits 10 digits).length : Int) + grid := by
    intro h
    have hstep := zpow_le_zpow_right₀ (show (1 : ℚ) ≤ 10 by norm_num)
      (show 310 ≤ ((Nat.toDigits 10 digits).length : Int) + grid - 1 by omega)
    exact absurd ((hstep.trans hplaces.1).trans_lt hhigh) (not_lt.2 le_ten_zpow)
  have hvalue : nearest negative digits grid =
      ofRatio negative (digits * 10 ^ grid.toNat) (10 ^ (-grid).toNat) := by
    simp only [nearest]
    rw [if_neg (by omega), if_neg hlarge, Nat.pow_eq, Nat.pow_eq]
  rw [hvalue]
  refine ofRatio_eq hproper (by positivity) (by positivity) ?_ negative
  rw [natCast_mul_zpow]
  exact hrounds

/-! ## Points of a grid -/

/-- The bounds of the interval as numbers. -/
theorem Interval.ofMagnitude_eq {m : Nat} (hm : 0 < m) (e : Int) :
    let i := Interval.ofMagnitude m e
    (0 : ℚ) < i.den ∧ (i.num : ℚ) / i.den = m * 2 ^ e ∧
      (i.low : ℚ) / i.den = (m - reachBelow m e) * 2 ^ e ∧ (i.high : ℚ) / i.den = (m + 1 / 2) * 2 ^ e := by
  have hscale : ((2 ^ (e - 2).toNat : Nat) : ℚ) / (2 ^ (2 - e).toNat : Nat) = 2 ^ e / 4 := by
    have hfour : (2 : ℚ) ^ (e - 2) = 2 ^ e / 4 := by
      rw [zpow_sub₀ two_ne_zero]
      norm_num
    rcases le_total 2 e with h | h
    · obtain ⟨k, hk⟩ := Int.eq_ofNat_of_zero_le (show 0 ≤ e - 2 by omega)
      rw [show (2 - e).toNat = 0 by omega, ← hfour, hk, Int.toNat_natCast, zpow_natCast]
      push_cast
      ring
    · obtain ⟨k, hk⟩ := Int.eq_ofNat_of_zero_le (show 0 ≤ 2 - e by omega)
      rw [show (e - 2).toNat = 0 by omega, ← hfour, show e - 2 = -(2 - e) by ring, hk, Int.toNat_natCast,
        zpow_neg, zpow_natCast]
      push_cast
      ring
  have hsplit : ∀ n : Nat,
      ((n * 2 ^ (e - 2).toNat : Nat) : ℚ) / (2 ^ (2 - e).toNat : Nat) = n * (2 ^ e / 4) := by
    intro n
    rw [← hscale, Nat.cast_mul, mul_div_assoc]
  have hbelow : ((4 * m - (if m = 2 ^ 52 ∧ -1074 < e then 1 else 2) : Nat) : ℚ) =
      4 * (m - reachBelow m e) := by
    unfold reachBelow
    split
    · rw [Nat.cast_sub (by omega)]
      push_cast
      ring
    · rw [Nat.cast_sub (by omega)]
      push_cast
      ring
  refine ⟨?_, ?_, ?_, ?_⟩
  · show (0 : ℚ) < (2 ^ (2 - e).toNat : Nat)
    positivity
  · refine (hsplit _).trans ?_
    push_cast
    ring
  · refine (hsplit _).trans ?_
    simp only [Nat.pow_eq]
    rw [hbelow]
    ring
  · refine (hsplit _).trans ?_
    push_cast
    ring

variable {m : Nat} {e : Int}

theorem roundsTo_of_holds (hm : 0 < m) {n d : Nat} (hd : 0 < d)
    (h : (Interval.ofMagnitude m e).holds n d = true) : RoundsTo m e (n / d) := by
  obtain ⟨hden, -, hlow, hhigh⟩ := Interval.ofMagnitude_eq hm e
  have hd' : (0 : ℚ) < d := by exact_mod_cast hd
  have hclosed : (Interval.ofMagnitude m e).closed = decide (m % 2 = 0) := rfl
  generalize Interval.ofMagnitude m e = i at *
  unfold Interval.holds at h
  by_cases heven : m % 2 = 0
  · rw [if_pos (by rw [hclosed]; simpa using heven), Bool.and_eq_true, decide_eq_true_eq,
      decide_eq_true_eq] at h
    refine ⟨?_, ?_, .inl heven⟩
    · rw [← hlow, div_le_div_iff₀ hden hd']
      exact_mod_cast h.1
    · rw [← hhigh, div_le_div_iff₀ hd' hden]
      exact_mod_cast h.2
  · rw [if_neg (by rw [hclosed]; simpa using heven), Bool.and_eq_true, decide_eq_true_eq,
      decide_eq_true_eq] at h
    have hl : (i.low : ℚ) / i.den < n / d := by
      rw [div_lt_div_iff₀ hden hd']
      exact_mod_cast h.1
    have hh : (n : ℚ) / d < i.high / i.den := by
      rw [div_lt_div_iff₀ hd' hden]
      exact_mod_cast h.2
    rw [hlow] at hl
    rw [hhigh] at hh
    exact ⟨hl.le, hh.le, .inr ⟨hl, hh⟩⟩

theorem holds_of_lt (hm : 0 < m) {n d : Nat} (hd : 0 < d)
    (hlow : (m - reachBelow m e) * 2 ^ e < (n : ℚ) / d) (hhigh : (n : ℚ) / d < (m + 1 / 2) * 2 ^ e) :
    (Interval.ofMagnitude m e).holds n d = true := by
  obtain ⟨hden, -, hilow, hihigh⟩ := Interval.ofMagnitude_eq hm e
  have hd' : (0 : ℚ) < d := by exact_mod_cast hd
  generalize Interval.ofMagnitude m e = i at *
  rw [← hilow, div_lt_div_iff₀ hden hd'] at hlow
  rw [← hihigh, div_lt_div_iff₀ hd' hden] at hhigh
  have hl : i.low * d < n * i.den := by exact_mod_cast hlow
  have hh : n * i.den < i.high * d := by exact_mod_cast hhigh
  unfold Interval.holds
  split
  · simp [hl.le, hh.le]
  · simp [hl, hh]

/-- What is found on a grid rounds to the number. -/
theorem roundsTo_of_onGrid? (hm : 0 < m) {grid : Int} {digits : Nat}
    (h : onGrid? (Interval.ofMagnitude m e) grid = some digits) : RoundsTo m e (digits * 10 ^ grid) := by
  have hhits : (Interval.ofMagnitude m e).holds (digits * 10 ^ grid.toNat) (10 ^ (-grid).toNat) = true := by
    simp only [onGrid?, Nat.pow_eq] at h
    split at h
    next hbelow habove =>
      obtain rfl := Option.some.inj h
      split
      · exact habove
      · exact hbelow
    next hbelow _ =>
      obtain rfl := Option.some.inj h
      exact hbelow
    next _ habove =>
      obtain rfl := Option.some.inj h
      exact habove
    next => cases h
  rw [← natCast_mul_zpow]
  exact roundsTo_of_holds hm (by positivity) hhits

/-- A grid that is fine enough has a point that rounds to the number. -/
theorem exists_onGrid? (hm : 0 < m) {grid : Int}
    (hfine : (10 : ℚ) ^ grid < (reachBelow m e + 1 / 2) * 2 ^ e) :
    ∃ digits, onGrid? (Interval.ofMagnitude m e) grid = some digits := by
  obtain ⟨hden, hnum, -, -⟩ := Interval.ofMagnitude_eq hm e
  have hhits := fun digits : Nat =>
    holds_of_lt (e := e) hm (n := digits * 10 ^ grid.toNat) (d := 10 ^ (-grid).toNat) (by positivity)
  simp only [natCast_mul_zpow] at hhits
  have hunit : (0 : ℚ) < 10 ^ grid := by positivity
  have hup : ((10 ^ grid.toNat : Nat) : ℚ) / (10 ^ (-grid).toNat : Nat) = 10 ^ grid := by
    have h := natCast_mul_zpow 1 grid
    rwa [one_mul, Nat.cast_one, one_mul] at h
  simp only [onGrid?, Nat.pow_eq]
  generalize Interval.ofMagnitude m e = i at *
  have hdenNat : 0 < i.den := by exact_mod_cast hden
  have hstep : 0 < i.den * 10 ^ grid.toNat := by positivity
  have hquotient : ((i.num * 10 ^ (-grid).toNat : Nat) : ℚ) / (i.den * 10 ^ grid.toNat : Nat) =
      m * 2 ^ e / 10 ^ grid := by
    rw [← hnum, ← hup]
    push_cast
    field_simp
  generalize hbelow : i.num * 10 ^ (-grid).toNat / (i.den * 10 ^ grid.toNat) = below
  have hle : (below : ℚ) * 10 ^ grid ≤ m * 2 ^ e := by
    rw [← le_div_iff₀ hunit, ← hquotient, le_div_iff₀ (by exact_mod_cast hstep), ← hbelow]
    exact_mod_cast Nat.div_mul_le_self ..
  have hlt : (m : ℚ) * 2 ^ e < (below + 1) * 10 ^ grid := by
    rw [← div_lt_iff₀ hunit, ← hquotient, div_lt_iff₀ (by exact_mod_cast hstep), ← hbelow]
    have hsucc := Nat.lt_mul_div_succ (i.num * 10 ^ (-grid).toNat) hstep
    rw [mul_comm (i.den * 10 ^ grid.toNat)] at hsucc
    exact_mod_cast hsucc
  have hpos : (0 : ℚ) < 2 ^ e := by positivity
  have hreach : (0 : ℚ) < reachBelow m e := by
    unfold reachBelow
    split <;> norm_num
  by_cases h : (m - reachBelow m e) * 2 ^ e < (below : ℚ) * 10 ^ grid
  · have hhit := hhits below h (hle.trans_lt (by linarith))
    rw [hhit]
    cases i.holds ((below + 1) * 10 ^ grid.toNat) (10 ^ (-grid).toNat) <;> exact ⟨_, rfl⟩
  · have hhit := hhits (below + 1) (by push_cast; nlinarith) (by push_cast; nlinarith)
    rw [hhit]
    cases i.holds (below * 10 ^ grid.toNat) (10 ^ (-grid).toNat) <;> exact ⟨_, rfl⟩

/-- The search goes on until a grid is fine enough. -/
theorem roundsTo_search (hm : 0 < m) : ∀ {fuel : Nat} {grid : Int} (j : Nat), j < fuel →
    (10 : ℚ) ^ (grid - j) < (reachBelow m e + 1 / 2) * 2 ^ e →
    RoundsTo m e ((search (Interval.ofMagnitude m e) fuel grid).1 *
      10 ^ (search (Interval.ofMagnitude m e) fuel grid).2) := by
  intro fuel
  induction fuel with
  | zero => intro grid j hj; omega
  | succ fuel ih =>
      intro grid j hj hfine
      rw [search]
      cases hgrid : onGrid? (Interval.ofMagnitude m e) grid with
      | some digits => exact roundsTo_of_onGrid? hm hgrid
      | none =>
          cases j with
          | zero =>
              rw [Nat.cast_zero, sub_zero] at hfine
              obtain ⟨digits, hdigits⟩ := exists_onGrid? hm hfine
              rw [hgrid] at hdigits
              cases hdigits
          | succ j =>
              refine ih j (by omega) ?_
              rwa [Nat.cast_succ, ← sub_sub, sub_right_comm] at hfine

theorem leadingPlace_le {num den : Nat} (hnum : 0 < num) (hden : 0 < den) :
    (10 : ℚ) ^ leadingPlace num den ≤ num / den := by
  have hden' : (0 : ℚ) < den := by exact_mod_cast hden
  simp only [leadingPlace, Nat.pow_eq]
  generalize hk : ((Nat.toDigits 10 num).length : Int) - (Nat.toDigits 10 den).length = k
  by_cases h : den * 10 ^ k.toNat ≤ num * 10 ^ (-k).toNat
  · rw [if_pos h]
    have hpow := natCast_mul_zpow 1 k
    rw [Nat.cast_one, one_mul, one_mul] at hpow
    rw [← hpow, div_le_div_iff₀ (by positivity) hden', mul_comm]
    exact_mod_cast h
  · rw [if_neg h, le_div_iff₀ hden']
    calc (10 : ℚ) ^ (k - 1) * den ≤ 10 ^ (k - 1) * 10 ^ ((Nat.toDigits 10 den).length : Int) := by
          have := (zpow_length_toDigits_le hden).2
          gcongr
      _ = 10 ^ (((Nat.toDigits 10 num).length : Int) - 1) := by
          rw [← zpow_add₀ (by norm_num), ← hk]
          congr 1
          ring
      _ ≤ num := (zpow_length_toDigits_le hnum).1

/-- Seventeen digits suffice: what the shortest digits stand for rounds to the number. -/
theorem roundsTo_shortest (hm : 0 < m) (hproper : Proper m e) :
    RoundsTo m e ((shortest m e).1 * 10 ^ (shortest m e).2) := by
  obtain ⟨hden, hnum, -, -⟩ := Interval.ofMagnitude_eq hm e
  have hunit : (0 : ℚ) < 2 ^ e := by positivity
  have hm' : (m : ℚ) < 2 ^ 53 := by exact_mod_cast hproper.mantissa
  refine roundsTo_search hm 16 (by decide) ?_
  have hplace := @leadingPlace_le (Interval.ofMagnitude m e).num (Interval.ofMagnitude m e).den ?_
    (by exact_mod_cast hden)
  · rw [hnum] at hplace
    rw [zpow_sub₀ (by norm_num), div_lt_iff₀ (by positivity)]
    refine hplace.trans_lt ?_
    have hwidth : (m : ℚ) < (reachBelow m e + 1 / 2) * 10 ^ (16 : Int) := by
      rw [show (10 : ℚ) ^ (16 : Int) = 10 ^ 16 from rfl]
      unfold reachBelow
      split
      next hpower =>
        rw [hpower.1]
        norm_num
      next => linarith
    calc (m : ℚ) * 2 ^ e < (reachBelow m e + 1 / 2) * 10 ^ (16 : Int) * 2 ^ e :=
          mul_lt_mul_of_pos_right hwidth hunit
      _ = (reachBelow m e + 1 / 2) * 2 ^ e * 10 ^ (16 : Int) := by ring
  · show 0 < 4 * m * 2 ^ (e - 2).toNat
    positivity

end Stencil.Decimal
