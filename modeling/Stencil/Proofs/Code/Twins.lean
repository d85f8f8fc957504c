import Mathlib.Data.List.Forall2
import Stencil.Proofs.Code.Bounds

/-! # Vaults that differ in one text

Two vaults that are filled alike may hold different texts at the same places, the one `a` where the other
holds `b` (`Twin`). Then a text stands for the same in both, but for occurrences of `a` where there are
occurrences of `b` (`Restores.exists_exchanged`). -/
set_option autoImplicit false
namespace Stencil.Vault

variable {a b : Text} {v w : Vault}

/-! ## Texts that differ in occurrences of one text -/

inductive Exchanged (a b : Text) : Text → Text → Prop
  | nil : Exchanged a b [] []
  | char {x y : Text} (c : Char) : Exchanged a b x y → Exchanged a b (c :: x) (c :: y)
  | swap {x y : Text} : Exchanged a b x y → Exchanged a b (a ++ x) (b ++ y)

namespace Exchanged

variable {x y p q : Text}

theorem append (h : Exchanged a b x y) (h' : Exchanged a b p q) :
    Exchanged a b (x ++ p) (y ++ q) := by
  induction h with
  | nil => exact h'
  | char c _ ih => exact .char c ih
  | swap _ ih =>
      rw [List.append_assoc, List.append_assoc]
      exact .swap ih

end Exchanged

theorem intercalate_char_cons (sep : Text) (c : Char) (s : Text) (ss : List Text) :
    sep.intercalate ((c :: s) :: ss) = c :: sep.intercalate (s :: ss) := by
  cases ss <;> simp [List.intercalate]

theorem intercalate_nil_cons (sep : Text) {ss : List Text} (h : ss ≠ []) :
    sep.intercalate ([] :: ss) = sep ++ sep.intercalate ss := by
  obtain ⟨s, ss, rfl⟩ := List.exists_cons_of_ne_nil h
  simp [List.intercalate]

/-- The parts that stay, between the occurrences. -/
theorem Exchanged.exists_intercalate {x y : Text} (h : Exchanged a b x y) :
    ∃ ss ≠ [], x = a.intercalate ss ∧ y = b.intercalate ss := by
  induction h with
  | nil => exact ⟨[[]], by simp, by simp, by simp⟩
  | char c _ ih =>
      obtain ⟨ss, hne, rfl, rfl⟩ := ih
      obtain ⟨s, ss, rfl⟩ := List.exists_cons_of_ne_nil hne
      exact ⟨(c :: s) :: ss, by simp, (intercalate_char_cons ..).symm, (intercalate_char_cons ..).symm⟩
  | swap _ ih =>
      obtain ⟨ss, hne, rfl, rfl⟩ := ih
      exact ⟨[] :: ss, by simp, (intercalate_nil_cons a hne).symm, (intercalate_nil_cons b hne).symm⟩

/-! ## Twin vaults -/

/-- The segments are the same, except that the second vault may hold `b` where the first one holds `a`. -/
def Twin (a b : Text) (v w : Vault) : Prop :=
  List.Forall₂ (fun s t => s = t ∨ (s = a ∧ t = b)) v.segments w.segments

namespace Twin

theorem refl (a b : Text) (v : Vault) : Twin a b v v :=
  List.forall₂_same.2 fun _ _ => .inl rfl

theorem placeholder_eq (h : Twin a b v w) :
    placeholder w.segments.length = placeholder v.segments.length := by
  rw [List.Forall₂.length_eq h]

theorem store {s t : Text} (h : Twin a b v w) (hst : s = t ∨ (s = a ∧ t = b)) :
    (w.protect t).1 = (v.protect s).1 ∧ Twin a b (v.protect s).2 (w.protect t).2 :=
  ⟨h.placeholder_eq, List.rel_append h (.cons hst .nil)⟩

theorem maskPieces : ∀ {ps : List Code.Piece} {v w : Vault}, Twin a b v w →
    (w.maskPieces ps).1 = (v.maskPieces ps).1 ∧ Twin a b (v.maskPieces ps).2 (w.maskPieces ps).2 := by
  intro ps
  induction ps with
  | nil => intro v w h; exact ⟨rfl, h⟩
  | cons piece ps ih =>
      intro v w h
      cases piece with
      | prose s =>
          obtain ⟨htext, hvault⟩ := ih h
          exact ⟨congrArg (s ++ ·) htext, hvault⟩
      | code g =>
          obtain ⟨hmark, hstored⟩ := h.store (.inl rfl : g = g ∨ _)
          obtain ⟨htext, hvault⟩ := ih hstored
          exact ⟨congrArg₂ (· ++ ·) hmark htext, hvault⟩

theorem mask (h : Twin a b v w) (t : Text) :
    (w.mask t).1 = (v.mask t).1 ∧ Twin a b (v.mask t).2 (w.mask t).2 := h.maskPieces

theorem getElem? (h : Twin a b v w) {i : Nat} {s : Text} (hs : v.segments[i]? = some s) :
    ∃ t, w.segments[i]? = some t ∧ (s = t ∨ (s = a ∧ t = b)) := by
  obtain ⟨hi, rfl⟩ := List.getElem?_eq_some_iff.1 hs
  have hi' : i < w.segments.length := List.Forall₂.length_eq h ▸ hi
  exact ⟨w.segments[i], List.getElem?_eq_getElem hi', List.Forall₂.get h hi hi'⟩

end Twin

theorem Restores.eq_of_not_mem {n : Nat} {t r : Text} (h : Restores v n t r) :
    placeholderOpen ∉ t → r = t := by
  induction h with
  | nil => intro _; rfl
  | char _ _ ih =>
      intro ht
      rw [List.mem_cons, not_or] at ht
      rw [ih ht.2]
  | mark => intro ht; exact absurd (List.mem_append_left _ (List.mem_cons_self ..)) ht

/-- What a text stands for in a twin. By induction on what it stands for, as the segments that differ hold
no placeholders. -/
theorem Restores.exists_exchanged {n : Nat} {t r : Text} (h : Restores v n t r)
    (hw : Twin a b v w) (ha : placeholderOpen ∉ a) (hb : placeholderOpen ∉ b) :
    ∃ r', Restores w n t r' ∧ Exchanged a b r r' := by
  induction h with
  | nil => exact ⟨[], .nil, .nil⟩
  | @char n c t r hc _ ih =>
      obtain ⟨r', hr', hx⟩ := ih
      exact ⟨c :: r', .char hc hr', .char c hx⟩
  | @mark n i s q t r hi hseg hq _ ihq ih =>
      obtain ⟨q', hq', hxq⟩ := ihq
      obtain ⟨r', hr', hxr⟩ := ih
      obtain ⟨s', hseg', rfl | ⟨rfl, rfl⟩⟩ := hw.getElem? hseg
      · exact ⟨q' ++ r', .mark hi hseg' hq' hr', hxq.append hxr⟩
      · obtain rfl := hq.eq_of_not_mem ha
        exact ⟨s' ++ r', .mark hi hseg' (.of_not_mem hb) hr', .swap hxr⟩

/-- Restoring a text in two vaults that differ in one text. -/
theorem Stands.exchanged {strict : Prop} {t : Text} (h : v.Stands strict t) (hw : Twin a b v w)
    (ha : placeholderOpen ∉ a) (hb : placeholderOpen ∉ b) :
    Exchanged a b (v.restore t) (w.restore t) := by
  obtain ⟨r, hr, -⟩ := h
  obtain ⟨r', hr', hx⟩ := hr.exists_exchanged hw ha hb
  have hlength : v.segments.length ≤ w.segments.length := Nat.le_of_eq (List.Forall₂.length_eq hw)
  rwa [restore_of_restores hr (Nat.le_refl _), restore_of_restores hr' hlength]

/-! ## Growing -/

theorem grow_protect (v : Vault) (t : Text) : v.segments <+: (v.protect t).2.segments :=
  List.prefix_append ..

theorem grow_maskPieces : ∀ (ps : List Code.Piece) (v : Vault),
    v.segments <+: (v.maskPieces ps).2.segments := by
  intro ps
  induction ps with
  | nil => intro v; exact List.prefix_refl _
  | cons piece ps ih =>
      intro v
      cases piece with
      | prose s => exact ih v
      | code g => exact (v.grow_protect g).trans (ih (v.protect g).2)

theorem grow_mask (v : Vault) (t : Text) : v.segments <+: (v.mask t).2.segments := v.grow_maskPieces _

end Stencil.Vault
