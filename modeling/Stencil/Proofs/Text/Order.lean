import Mathlib.Data.Char
import Stencil.NameMap

/-! # The order of texts

Texts are in a linear order (`before_total`, `before_antisymm`, `before_trans`), so that names come to the
same places in a map whichever of them comes first (`NameMap.insert_comm`). -/
set_option autoImplicit false
namespace Stencil

namespace Text

@[simp] theorem before_cons (c d : Char) (s t : Text) :
    before (c :: s) (d :: t) = if c = d then before s t else decide (c < d) := rfl

theorem before_total : ∀ {s t : Text}, before s t = false → before t s = true := by
  intro s
  induction s with
  | nil => intro t h; cases h
  | cons c s ih =>
      intro t h
      cases t with
      | nil => rfl
      | cons d t =>
          rw [before_cons] at h ⊢
          by_cases hcd : c = d
          · rw [if_pos hcd] at h
            rw [if_pos hcd.symm]
            exact ih h
          · rw [if_neg hcd] at h
            rw [if_neg (Ne.symm hcd)]
            have hle : d ≤ c := not_lt.1 (of_decide_eq_false h)
            exact decide_eq_true (lt_of_le_of_ne hle (Ne.symm hcd))

theorem before_antisymm : ∀ {s t : Text}, before s t = true → before t s = true → s = t := by
  intro s
  induction s with
  | nil =>
      intro t _ h
      cases t with
      | nil => rfl
      | cons d t => cases h
  | cons c s ih =>
      intro t hst hts
      cases t with
      | nil => cases hst
      | cons d t =>
          rw [before_cons] at hst hts
          by_cases hcd : c = d
          · rw [if_pos hcd] at hst
            rw [if_pos hcd.symm] at hts
            rw [hcd, ih hst hts]
          · rw [if_neg hcd] at hst
            rw [if_neg (Ne.symm hcd)] at hts
            exact absurd (of_decide_eq_true hts) (lt_asymm (of_decide_eq_true hst))

theorem before_trans : ∀ {s t u : Text}, before s t = true → before t u = true →
    before s u = true := by
  intro s
  induction s with
  | nil => intro t u _ _; rfl
  | cons c s ih =>
      intro t u hst htu
      cases t with
      | nil => cases hst
      | cons d t =>
          cases u with
          | nil => cases htu
          | cons e u =>
              rw [before_cons] at hst htu ⊢
              by_cases hcd : c = d
              · subst hcd
                rw [if_pos rfl] at hst
                by_cases hce : c = e
                · rw [if_pos hce] at htu ⊢
                  exact ih hst htu
                · rw [if_neg hce] at htu ⊢
                  exact htu
              · rw [if_neg hcd] at hst
                have hlt := of_decide_eq_true hst
                by_cases hde : d = e
                · subst hde
                  rw [if_neg hcd]
                  exact hst
                · rw [if_neg hde] at htu
                  have hce : c < e := lt_trans hlt (of_decide_eq_true htu)
                  rw [if_neg (ne_of_lt hce)]
                  exact decide_eq_true hce

/-- Of two texts, exactly one comes before the other. -/
theorem before_swap {s t : Text} (hne : s ≠ t) : before t s = !before s t := by
  cases hst : before s t with
  | false => exact before_total hst
  | true =>
      cases hts : before t s with
      | false => rfl
      | true => exact absurd (before_antisymm hst hts) hne

end Text

namespace NameMap

variable {α : Type}

theorem insertEntry_comm {m n : Text} (hne : m ≠ n) (a b : α) (es : List (Text × α)) :
    insertEntry n b (insertEntry m a es) = insertEntry m a (insertEntry n b es) := by
  have hswap : Text.before n m = !Text.before m n := Text.before_swap hne
  induction es with
  | nil =>
      simp only [insertEntry, hswap]
      cases Text.before m n <;> rfl
  | cons e es ih =>
      obtain ⟨k, c⟩ := e
      simp only [insertEntry]
      cases hm : Text.before m k with
      | true =>
          cases hn : Text.before n k with
          | true => cases hmn : Text.before m n <;> simp [insertEntry, hswap, hm, hn, hmn]
          | false =>
              have hnm : Text.before n m ≠ true := fun h => by
                rw [Text.before_trans h hm] at hn
                cases hn
              simp [insertEntry, hm, hn, hnm]
      | false =>
          cases hn : Text.before n k with
          | true =>
              have hmn : Text.before m n ≠ true := fun h => by
                rw [Text.before_trans h hn] at hm
                cases hm
              simp [insertEntry, hm, hn, hmn]
          | false => simp [insertEntry, hm, hn, ih]

/-- Two new names can be added in either order. -/
theorem insert_comm {t : NameMap α} {m n : Text} (hne : m ≠ n) (hm : t.get? m = none)
    (hn : t.get? n = none) (a b : α) : (t.insert m a).insert n b = (t.insert n b).insert m a := by
  have hm' : (t.insert n b).get? m = none := by rw [get?_insert, if_neg hne, hm]
  have hn' : (t.insert m a).get? n = none := by rw [get?_insert, if_neg hne.symm, hn]
  have hfree : ∀ {s : NameMap α} {k : Text} {c : α}, s.get? k = none →
      s.insert k c = { entries := insertEntry k c s.entries } := by
    intro s k c hk
    rw [insert, contains, hk]
    rfl
  rw [hfree hn', hfree hm', hfree hm, hfree hn]
  exact congrArg mk (insertEntry_comm hne a b t.entries)

end NameMap
end Stencil
