import Stencil.Proofs.Text.Digits
import Stencil.Value

/-! # How numbers are written

A finite number is written as a numeral: digits, after a minus sign if it is negative, with digits
behind a point if it is not integral (`isNumeral_formatNumber`). No number is written with anything but
letters, digits, a sign and a point (`not_mem_formatNumber`). -/
set_option autoImplicit false
namespace Stencil

def IsUnsigned (t : Text) : Prop :=
  ∃ whole fraction : Text, whole ≠ [] ∧ (∀ c ∈ whole, c.isDigit = true) ∧
    (∀ c ∈ fraction, c.isDigit = true) ∧
    t = whole ++ if fraction = [] then [] else '.' :: fraction

/-- Digits as a template writes a number. -/
def IsNumeral (t : Text) : Prop := IsUnsigned t ∨ ∃ u, t = '-' :: u ∧ IsUnsigned u

theorem IsUnsigned.exists_cons {t : Text} (h : IsUnsigned t) :
    ∃ c u, t = c :: u ∧ c.isDigit = true := by
  obtain ⟨whole, fraction, hne, hwhole, -, rfl⟩ := h
  obtain ⟨c, whole, rfl⟩ := List.exists_cons_of_ne_nil hne
  exact ⟨c, _, rfl, hwhole c (List.mem_cons_self ..)⟩

theorem IsNumeral.exists_cons {t : Text} (h : IsNumeral t) :
    ∃ c u, t = c :: u ∧ (c = '-' ∨ c.isDigit = true) := by
  rcases h with h | ⟨u, rfl, -⟩
  · obtain ⟨c, u, rfl, hc⟩ := h.exists_cons
    exact ⟨c, u, rfl, .inr hc⟩
  · exact ⟨'-', u, rfl, .inl rfl⟩

theorem isUnsigned_of_digits {t : Text} (hne : t ≠ []) (h : ∀ c ∈ t, c.isDigit = true) :
    IsUnsigned t :=
  ⟨t, [], hne, h, by simp, by simp⟩

theorem isUnsigned_ofNat (n : Nat) : IsUnsigned (Text.ofNat n) :=
  isUnsigned_of_digits (Text.ofNat_ne_nil n) fun _ hc => Text.isDigit_of_mem_ofNat hc

theorem isDigit_of_mem_zeros {n : Nat} {c : Char} (h : c ∈ List.replicate n '0') :
    c.isDigit = true := by
  rw [List.eq_of_mem_replicate h]
  decide

namespace Decimal

theorem isUnsigned_positional (digits : Nat) (grid : Int) : IsUnsigned (positional digits grid) := by
  unfold positional
  by_cases hgrid : 0 ≤ grid
  · simp only [if_pos hgrid]
    refine isUnsigned_of_digits (by simp [Text.ofNat_ne_nil]) fun c hc => ?_
    rcases List.mem_append.1 hc with hc | hc
    · exact Text.isDigit_of_mem_ofNat hc
    · exact isDigit_of_mem_zeros hc
  · simp only [if_neg hgrid]
    generalize hpadded : List.replicate ((-grid).toNat + 1 - (Text.ofNat digits).length) '0' ++
      Text.ofNat digits = padded
    have hdigits : ∀ c ∈ padded, c.isDigit = true := by
      intro c hc
      rw [← hpadded] at hc
      rcases List.mem_append.1 hc with hc | hc
      · exact isDigit_of_mem_zeros hc
      · exact Text.isDigit_of_mem_ofNat hc
    have hlength : (-grid).toNat + 1 ≤ padded.length := by
      rw [← hpadded, List.length_append, List.length_replicate]
      omega
    have hwhole : padded.take (padded.length - (-grid).toNat) ≠ [] := by
      intro h
      have := congrArg List.length h
      simp only [List.length_take, List.length_nil] at this
      omega
    generalize hfraction :
      (padded.drop (padded.length - (-grid).toNat)).reverse.dropWhile (· = '0') = fraction
    refine ⟨padded.take (padded.length - (-grid).toNat), fraction.reverse, hwhole,
      fun c hc => hdigits c (List.mem_of_mem_take hc), fun c hc => ?_, ?_⟩
    · rw [List.mem_reverse, ← hfraction] at hc
      have hc' := (List.dropWhile_sublist _).subset hc
      exact hdigits c (List.mem_of_mem_drop (List.mem_reverse.1 hc'))
    · cases fraction with
      | nil => simp
      | cons c fraction => simp

theorem isNumeral_text {x : Float} (h : isFinite x = true) : IsNumeral (text x) := by
  unfold isFinite at h
  unfold text
  cases hx : Binary64.unpack x with
  | notANumber => rw [hx] at h; cases h
  | infinite negative => rw [hx] at h; cases h
  | finite negative m e =>
      have hshown : IsUnsigned (if m = 0 then ['0'] else
          positional (shortest m e).1 (shortest m e).2) := by
        by_cases hm : m = 0
        · rw [if_pos hm]
          exact isUnsigned_of_digits (by simp) (by simp)
        · rw [if_neg hm]
          exact isUnsigned_positional ..
      cases negative with
      | true => exact .inr ⟨_, rfl, hshown⟩
      | false => exact .inl hshown

end Decimal

/-- A finite number is written as a numeral. -/
theorem isNumeral_formatNumber {x : Float} (h : Decimal.isFinite x = true) :
    IsNumeral (formatNumber x) := by
  unfold formatNumber
  split
  next n _ =>
    by_cases hn : n.natAbs < exactBound
    · rw [if_pos hn]
      by_cases hneg : n < 0
      · rw [if_pos hneg]
        exact .inr ⟨_, rfl, isUnsigned_ofNat _⟩
      · rw [if_neg hneg]
        exact .inl (isUnsigned_ofNat _)
    · rw [if_neg hn]
      exact Decimal.isNumeral_text h
  next => exact Decimal.isNumeral_text h

/-! ## Characters of numbers -/

def OutsideNumbers (c : Char) : Prop := c.isAlphanum = false ∧ c ≠ '-' ∧ c ≠ '.'

theorem IsUnsigned.not_mem {t : Text} {c : Char} (h : IsUnsigned t) (hc : OutsideNumbers c) : c ∉ t := by
  obtain ⟨whole, fraction, -, hwhole, hfraction, rfl⟩ := h
  have hdigit : c.isDigit = false := by
    have halphanum := hc.1
    rw [Char.isAlphanum, Bool.or_eq_false_iff] at halphanum
    exact halphanum.2
  have hdigits : ∀ {u : Text}, (∀ d ∈ u, d.isDigit = true) → c ∉ u :=
    fun hu hmem => absurd (hu c hmem) (by rw [hdigit]; exact Bool.false_ne_true)
  rw [List.mem_append, not_or]
  refine ⟨hdigits hwhole, ?_⟩
  split
  · simp
  · rw [List.mem_cons, not_or]
    exact ⟨hc.2.2, hdigits hfraction⟩

theorem IsNumeral.not_mem {t : Text} {c : Char} (h : IsNumeral t) (hc : OutsideNumbers c) : c ∉ t := by
  rcases h with h | ⟨u, rfl, h⟩
  · exact h.not_mem hc
  · rw [List.mem_cons, not_or]
    exact ⟨hc.2.1, h.not_mem hc⟩

theorem not_mem_formatNumber (x : Float) {c : Char} (hc : OutsideNumbers c) : c ∉ formatNumber x := by
  by_cases hx : Decimal.isFinite x = true
  · exact (isNumeral_formatNumber hx).not_mem hc
  · have hinteger : Decimal.integer? x = none := by
      unfold Decimal.isFinite at hx
      unfold Decimal.integer?
      split
      next h => rw [h] at hx; exact absurd rfl hx
      next => rfl
    have hletters : ∀ {u : Text}, (u.all fun d => d.isAlphanum || d = '-') = true → c ∉ u := by
      intro u hu hmem
      have hone := List.all_eq_true.1 hu c hmem
      rw [hc.1, Bool.false_or, decide_eq_true_eq] at hone
      exact hc.2.1 hone
    unfold formatNumber
    rw [hinteger]
    show c ∉ Decimal.text x
    unfold Decimal.isFinite at hx
    unfold Decimal.text
    split
    · exact hletters (by decide)
    next negative _ => cases negative <;> exact hletters (by decide)
    next h => rw [h] at hx; exact absurd rfl hx

end Stencil
