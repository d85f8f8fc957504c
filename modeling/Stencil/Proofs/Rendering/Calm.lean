import Stencil.Proofs.Code.Bounds
import Stencil.Proofs.Rendering.Plain
import Stencil.Proofs.Tag.Context

/-! # Texts without braces

A calm text has no opening brace but in slots that stay. It is read without definitions and without other
slots (`Calm.exists_reads`). Code holds a slot as a whole or not at all, so that a calm text is calm when
its code is masked (`calm_mask`). -/
set_option autoImplicit false
namespace Stencil

open Code (Begins Finishes Bounded)

/-- Apart from plain slots with the property the text has no opening brace. -/
inductive Calm (P : Slot → Prop) : Text → Prop
  | nil : Calm P []
  | char {c : Char} {t : Text} : c ≠ '{' → Calm P t → Calm P (c :: t)
  | slot {z t : Text} {s : Slot} : SlotText z s → s.Plain → P s → Calm P t → Calm P (z ++ t)

namespace Calm

variable {P : Slot → Prop} {s t : Text}

theorem append (hs : Calm P s) (ht : Calm P t) : Calm P (s ++ t) := by
  induction hs with
  | nil => exact ht
  | char hc _ ih => exact .char hc ih
  | slot hz hplain hP _ ih =>
      rw [List.append_assoc]
      exact .slot hz hplain hP ih

theorem of_not_mem : ∀ {t : Text}, '{' ∉ t → Calm P t := by
  intro t
  induction t with
  | nil => intro _; exact .nil
  | cons c t ih =>
      intro h
      rw [List.mem_cons, not_or] at h
      exact .char (Ne.symm h.1) (ih h.2)

theorem exists_reads (h : Calm P t) : ∃ ns, Reads [] t ns ∧
    (∀ s z, .slot s z ∈ ns → s.Plain ∧ P s) ∧ ∀ d source, .define d source ∉ ns := by
  induction h with
  | nil => exact ⟨[], .nil, by simp, by simp⟩
  | @char c t hc _ ih =>
      obtain ⟨ns, hns, hslots, hdefines⟩ := ih
      refine ⟨Node.consText c ns, .text (lead_of_ne hc _) hns, fun s z hs => ?_, fun d source hd => ?_⟩
      · exact hslots s z (Node.slot_mem_consText.1 hs)
      · exact hdefines d source (Node.define_mem_consText.1 hd)
  | @slot z t s hz hplain hP _ ih =>
      obtain ⟨ns, hns, hslots, hdefines⟩ := ih
      refine ⟨.slot s z :: ns, .slot hz hns, fun s' z' hs => ?_, fun d source hd => ?_⟩
      · rcases List.mem_cons.1 hs with heq | hs
        · obtain ⟨rfl, -⟩ := Node.slot.inj heq
          exact ⟨hplain, hP⟩
        · exact hslots s' z' hs
      · exact hdefines d source (by simpa using hd)

end Calm

/-! ## Cutting -/

def Between (s t : Text) : Prop := ∀ f x y g : Text, s = f ++ x → t = y ++ g → x ≠ [] → y ≠ [] →
  ∀ slot : Slot, SlotText (x ++ y) slot → ¬ slot.Plain

theorem Between.of_append {a s t : Text} (h : Between (a ++ s) t) : Between s t := by
  intro f x y g hs ht
  exact h (a ++ f) x y g (by rw [hs, List.append_assoc]) ht

theorem Calm.cut {P : Slot → Prop} {t : Text} : ∀ {s : Text}, Calm P (s ++ t) → Between s t →
    Calm P s ∧ Calm P t := by
  intro s h
  generalize hu : s ++ t = u at h
  induction h generalizing s with
  | nil =>
      intro _
      obtain ⟨rfl, rfl⟩ := List.append_eq_nil_iff.1 hu
      exact ⟨.nil, .nil⟩
  | @char c u hc hcalm ih =>
      intro hcut
      cases s with
      | nil =>
          obtain rfl : t = c :: u := hu
          exact ⟨.nil, .char hc hcalm⟩
      | cons d s =>
          obtain ⟨rfl, hrest⟩ := List.cons.inj hu
          have hcut' : Between ([d] ++ s) t := hcut
          obtain ⟨hs, ht⟩ := ih hrest hcut'.of_append
          exact ⟨.char hc hs, ht⟩
  | @slot z u slot hz hplain hP hcalm ih =>
      intro hcut
      rcases List.append_eq_append_iff.1 hu with ⟨b, hb, hrest⟩ | ⟨a, rfl, rfl⟩
      · by_cases hs : s = []
        · subst hs
          obtain rfl : t = z ++ u := hu
          exact ⟨.nil, .slot hz hplain hP hcalm⟩
        · by_cases hnil : b = []
          · subst hnil
            rw [List.append_nil] at hb
            obtain rfl : t = u := hrest
            subst hb
            have hown := Calm.slot hz hplain hP (Calm.nil (P := P))
            rw [List.append_nil] at hown
            exact ⟨hown, hcalm⟩
          · rw [hb] at hz
            -- the place is inside the slot
            exact absurd hplain (hcut [] s b u rfl hrest hs hnil slot hz)
      · obtain ⟨hs, ht⟩ := ih rfl hcut.of_append
        exact ⟨.slot hz hplain hP hs, ht⟩

/-- A text without the character in front of it lies before it. -/
theorem mem_of_append_eq {m c : Char} {r g : Text} : ∀ {y b : Text}, b ++ m :: r = y ++ g → m ∉ y →
    c ∈ y → c ∈ b := by
  intro y
  induction y with
  | nil => intro b _ _ hc; exact absurd hc (by simp)
  | cons d y ih =>
      intro b h hm hc
      rw [List.mem_cons, not_or] at hm
      cases b with
      | nil => exact absurd (List.cons.inj h).1 hm.1
      | cons e b =>
          obtain ⟨rfl, hrest⟩ := List.cons.inj h
          rcases List.mem_cons.1 hc with rfl | hc
          · exact List.mem_cons_self ..
          · exact List.mem_cons_of_mem _ (ih hrest hm.2 hc)

theorem tick_not_mem_slot {z : Text} {s : Slot} (hz : SlotText z s) (hs : s.Plain) : '`' ∉ z := by
  intro h
  exact absurd (hz.isSlotChar hs.1 hs.2 _ h) (by decide)

theorem between_of_begins {g : Text} (h : Begins g) (s t : Text) : Between s (g ++ t) := by
  intro f x y r _ hy _ hne slot hslot hplain
  obtain ⟨b, u, rfl, hb⟩ := h
  obtain ⟨z, hz⟩ := hslot.exists_append
  have hlast : (x ++ y).getLast? = some '}' := by rw [hz]; simp [Reader.slotEnd]
  have hmem : '}' ∈ y := by
    rw [List.getLast?_append] at hlast
    cases hy : y.getLast? with
    | none => exact absurd (List.getLast?_eq_none_iff.1 hy) hne
    | some e =>
        rw [hy] at hlast
        obtain rfl : e = '}' := by simpa using hlast
        exact List.mem_of_getLast? hy
  have htick : '`' ∉ y := fun hc => tick_not_mem_slot hslot hplain (List.mem_append_right _ hc)
  rw [List.append_assoc, List.cons_append] at hy
  exact absurd (hb _ (mem_of_append_eq hy htick hmem)) (by decide)

theorem between_of_finishes {g : Text} (h : Finishes g) (t : Text) : Between g t := by
  intro f x y r hx _ hne _ slot hslot hplain
  obtain ⟨u, b, rfl, hb⟩ := h
  obtain ⟨z, hz⟩ := hslot.exists_cons
  have hmem : '{' ∈ x := by
    obtain ⟨c, x, rfl⟩ := List.exists_cons_of_ne_nil hne
    obtain rfl := (List.cons.inj hz).1
    exact List.mem_cons_self ..
  have htick : '`' ∉ x := fun hc => tick_not_mem_slot hslot hplain (List.mem_append_left _ hc)
  have hreverse : b.reverse ++ '`' :: u.reverse = x.reverse ++ f.reverse := by
    have hrev := congrArg List.reverse hx
    simpa using hrev
  have hblank := mem_of_append_eq hreverse (by simpa using htick) (List.mem_reverse.2 hmem)
  exact absurd (hb _ (List.mem_reverse.1 hblank)) (by decide)

/-! ## Masking -/

theorem calm_maskPieces {P : Slot → Prop} : ∀ {ps : List Code.Piece} {v : Vault} {a : Text},
    Bounded ps → Calm P (a ++ Code.source ps) → Calm P (a ++ (v.maskPieces ps).1) := by
  intro ps
  induction ps with
  | nil => intro v a _ h; exact h
  | cons piece ps ih =>
      intro v a hbounded h
      cases piece with
      | prose s =>
          rw [Code.source_cons_prose, ← List.append_assoc] at h
          have hrest := ih (v := v) hbounded h
          rwa [List.append_assoc] at hrest
      | code g =>
          obtain ⟨hbegins, hfinishes, hps⟩ := hbounded
          rw [Code.source_cons_code] at h
          obtain ⟨ha, hg⟩ := h.cut (between_of_begins hbegins _ _)
          have hbehind : Between g (Code.source ps) := by
            rcases hfinishes with hnil | hfinishes
            · rw [hnil]
              intro f x y r _ hy _ hne
              exact absurd (List.append_eq_nil_iff.1 hy.symm).1 hne
            · exact between_of_finishes hfinishes _
          have hmark : Calm P (v.protect g).1 := .of_not_mem (Vault.brace_not_mem_placeholder _)
          have hrest := ih (v := (v.protect g).2) hps ((ha.append hmark).append (hg.cut hbehind).2)
          rwa [List.append_assoc] at hrest

theorem calm_mask {P : Slot → Prop} {t : Text} (h : Calm P t) (v : Vault) : Calm P (v.mask t).1 := by
  refine calm_maskPieces (a := []) (Code.bounded_pieces t) ?_
  rw [Code.source_pieces]
  exact h

end Stencil
