import Mathlib.Data.List.Forall2
import Stencil.Proofs.Tag.Parts
import Stencil.Proofs.Tag.Rejected

/-! # Slots that are written and read again

A slot of a template that is written out is read as one slot, and as the same slot, when the numbers among
its arguments are finite; otherwise it is not read at all (`slotMatches_source`). If it holds an expression,
its name is the text of the expression without white space at its ends, and this is written
(`SlotText.of_expr`). -/
set_option autoImplicit false
namespace Stencil

open Reader (StartsExpression Writable slotEnd)

/-! ## Slots with expressions -/

namespace Text

theorem trim_of_head? {t : Text} (h : ∀ c ∈ t.head?, isWhiteSpace c = false) : trim t = trimEnd t := by
  cases t with
  | nil => rfl
  | cons c t =>
      have hc : ¬ isWhiteSpace c = true := by simp [h c rfl]
      rw [trim, trimStart, List.dropWhile_cons_of_neg hc]

theorem trimEnd_trimEnd (t : Text) : trimEnd (trimEnd t) = trimEnd t := by
  have hhead := Reader.head?_dropWhile_eq_false isWhiteSpace t.reverse
  rw [trimEnd, trimEnd, List.reverse_reverse]
  cases hdrop : t.reverse.dropWhile isWhiteSpace with
  | nil => rfl
  | cons c u =>
      rw [hdrop] at hhead
      rw [List.dropWhile_cons_of_neg (by simp [hhead c rfl])]

end Text

/-- A slot with an expression is read from its name in double braces. -/
theorem SlotText.of_expr {z : Text} {s : Slot} {e : Arithmetic.Expr} (h : SlotText z s)
    (he : s.expr = some e) :
    SlotText ('{' :: '{' :: ((if s.raw then ['@'] else []) ++ (s.name ++ slotEnd))) s := by
  cases h.isSlot with
  | reference => cases he
  | @expression w w' z e raw _ _ hstarts hparse =>
      have htrim : ∀ {t : Text}, StartsExpression t → Text.trim t = Text.trimEnd t := by
        intro t ht
        obtain ⟨c, u, rfl, hwhite, -⟩ := ht.exists_cons
        exact Text.trim_of_head? (Reader.forall_mem_head? hwhite)
      obtain ⟨w'', hw, hspaces⟩ := Arithmetic.trimEnd_append_of_parse hparse
      have hname : StartsExpression (Text.trimEnd z) := .of_spaces (hw.symm ▸ hstarts) hspaces
      have hslot := IsSlot.expression raw Reader.spaces_nil Reader.spaces_nil hname
        (Arithmetic.parse_trimEnd hparse)
      rw [htrim hname, Text.trimEnd_trimEnd, ← htrim hstarts] at hslot
      exact hslot.slotText

/-! ## The slots of a text -/

theorem exists_slot_of_slotMatchesFrom {m : SlotMatch} : ∀ {ns : List Node} {offset : Nat},
    m ∈ slotMatchesFrom offset ns → ∃ z, .slot m.slot z ∈ ns := by
  intro ns
  induction ns with
  | nil => intro offset hm; exact absurd hm (by simp [slotMatchesFrom])
  | cons n ns ih =>
      intro offset hm
      cases n with
      | slot s z =>
          rcases List.mem_cons.1 hm with rfl | hm
          · exact ⟨z, List.mem_cons_self ..⟩
          · obtain ⟨y, hy⟩ := ih hm
            exact ⟨y, List.mem_cons_of_mem _ hy⟩
      | text _ =>
          obtain ⟨y, hy⟩ := ih hm
          exact ⟨y, List.mem_cons_of_mem _ hy⟩
      | define _ _ =>
          obtain ⟨y, hy⟩ := ih hm
          exact ⟨y, List.mem_cons_of_mem _ hy⟩

theorem exists_slotText_of_slotMatches {t : Text} {ms : List SlotMatch} {m : SlotMatch}
    (h : slotMatches t = .ok ms) (hm : m ∈ ms) : ∃ z, SlotText z m.slot := by
  unfold slotMatches at h
  cases hparse : parse t with
  | error e => rw [hparse] at h; cases h
  | ok ns =>
      rw [hparse] at h
      obtain rfl := Except.ok.inj h
      obtain ⟨z, hz⟩ := exists_slot_of_slotMatchesFrom hm
      exact ⟨z, (located_of_parse hparse).slotText hz⟩

theorem SlotText.slotMatches {z : Text} {s : Slot} (h : SlotText z s) :
    slotMatches z = .ok [⟨s, 0, Text.size z⟩] := by
  have hparse := parse_of_reads (Reads.slot (r := []) h .nil)
  rw [List.append_nil] at hparse
  rw [Stencil.slotMatches, hparse]
  rfl

theorem error_of_fails_slot {z : Text} (hlead : lead z = .slot) (h : Reader.Fails Reader.slot z) :
    ∃ e, slotMatches z = .error e := by
  obtain ⟨e, he⟩ := h 0
  obtain ⟨c, rest, rfl⟩ := ne_nil_of_lead (t := z) (by rw [hlead]; decide)
  have hfrom : Node.from? (Cursor.start (c :: rest)) = .error (.syntactic e) := by
    rw [Node.from?.eq_def]
    split
    next hnil => cases hnil
    next =>
      simp only [Cursor.start, hlead]
      split
      next e' he' =>
        obtain rfl := Except.error.inj (he.symm.trans he')
        rfl
      next s next hs => rw [he] at hs; cases hs
  exact ⟨_, by rw [Stencil.slotMatches, parse, hfrom]; rfl⟩

/-! ## Equal slots -/

/-- The slots have the same name, mark and expression, and arguments with the same names and equal
values. -/
structure Slot.Same (s t : Slot) : Prop where
  name : s.name = t.name
  raw : s.raw = t.raw
  expr : s.expr = t.expr
  args : List.Forall₂ (fun a b => a.name = b.name ∧ (a.value == b.value) = true) s.args t.args

theorem Value.settle_beq {v : Value} (hv : Writable v) : (v.settle == v) = true := by
  cases v with
  | text t =>
      show (t == t) = true
      exact beq_self_eq_true t
  | number x => exact Stencil.settle_beq hv

theorem Slot.settle_same {s : Slot} (h : ∀ a ∈ s.args, Writable a.value) : s.settle.Same s := by
  refine ⟨rfl, rfl, rfl, ?_⟩
  rw [Slot.settle, List.forall₂_map_left_iff, List.forall₂_same]
  exact fun a ha => ⟨rfl, Value.settle_beq (h a ha)⟩

/-! ## The round trip -/

/-- A slot that was read has a name, or else a text that is read as its expression. -/
theorem SlotText.of_source {z : Text} {s : Slot} (h : SlotText z s)
    (hargs : ∀ a ∈ s.args, Writable a.value) : SlotText s.source s.settle := by
  have hbare : s.args = [] → s.source =
      '{' :: '{' :: ((if s.raw then ['@'] else []) ++ (s.name ++ slotEnd)) := by
    intro hnil
    simp [Slot.source, hnil, slotEnd]
  have hsame : s.args = [] → s.settle = s := by
    intro hnil
    rw [Slot.settle, hnil, List.map_nil, ← hnil]
  cases hexpr : s.expr with
  | some e =>
      have hnil := h.args_eq (by simp [hexpr])
      rw [hbare hnil, hsame hnil]
      exact h.of_expr hexpr
  | none =>
      have hname := h.isName hexpr
      by_cases hnil : s.args = []
      · have hslot : s = { name := s.name, args := [], raw := s.raw, expr := none } := by
          rw [← hnil, ← hexpr]
        rw [hbare hnil, hsame hnil]
        have htext := slotText_name hname s.raw
        rwa [← hslot] at htext
      · exact slotText_source ⟨hexpr, hname, hnil, fun a ha => ⟨h.isName_argument ha, hargs a ha⟩⟩

theorem lead_source {z : Text} {s : Slot} (h : SlotText z s) (hexpr : s.expr = none) :
    lead s.source = .slot := by
  obtain ⟨c, u, hcu, hc, -⟩ := h.isName hexpr
  have hsource : ∀ args : Text,
      ['{', '{'] ++ (if s.raw then ['@'] else []) ++ s.name ++ args ++ ['}', '}'] =
      '{' :: '{' :: ((if s.raw then ['@'] else []) ++ (c :: u ++ (args ++ ['}', '}']))) ++ [] := by
    intro args
    simp [hcu]
  rw [Slot.source, hsource]
  refine lead_slot (by simp) ?_ []
  cases s.raw with
  | true => simp
  | false =>
      intro hhead
      obtain rfl : c = '{' := by simpa using hhead
      exact absurd hc (by decide)

/-- A slot that is written out and read again is one slot, from the first byte to the last, with the
same name, mark, expression and arguments, exactly when the numbers among its arguments are finite. -/
theorem slotMatches_source {t : Text} {ms : List SlotMatch} {m : SlotMatch}
    (h : slotMatches t = .ok ms) (hm : m ∈ ms) :
    ((∀ a ∈ m.slot.args, Writable a.value) →
      ∃ s, slotMatches m.slot.source = .ok [⟨s, 0, Text.size m.slot.source⟩] ∧ s.Same m.slot) ∧
    (¬ (∀ a ∈ m.slot.args, Writable a.value) → ∃ e, slotMatches m.slot.source = .error e) := by
  obtain ⟨z, hz⟩ := exists_slotText_of_slotMatches h hm
  refine ⟨fun hargs => ⟨m.slot.settle, (hz.of_source hargs).slotMatches, Slot.settle_same hargs⟩,
    fun hargs => ?_⟩
  have hbad : ∃ a ∈ m.slot.args, ¬ Writable a.value := by simpa using hargs
  have hexpr : m.slot.expr = none := by
    by_contra hsome
    obtain ⟨a, ha, -⟩ := hbad
    rw [hz.args_eq hsome] at ha
    cases ha
  exact error_of_fails_slot (lead_source hz hexpr) (Reader.fails_slot_source
    ⟨hexpr, hz.isName hexpr, fun a ha => hz.isName_argument ha, hbad⟩)

/-- Texts with escapes, a name, and a negative zero, in a template with text around the slot. -/
theorem slotMatches_source_call : ∃ m,
    slotMatches (bracketed "x [[ @f(1.50, \"a\\\"\\q\", n=-0) ]]") = .ok [m] ∧
      (∀ a ∈ m.slot.args, Writable a.value) ∧
      m.slot.source = bracketed "[[@f(1.5, \"a\\\"\\\\q\", n=0)]]" ∧
      ∃ s, slotMatches m.slot.source = .ok [⟨s, 0, Text.size m.slot.source⟩] ∧ s.Same m.slot := by
  have h : slotMatches (bracketed "x [[ @f(1.50, \"a\\\"\\q\", n=-0) ]]") =
      .ok [⟨⟨"f".toList, [⟨none, .number (Float.ofBits 0x3ff8000000000000)⟩, ⟨none, .text "a\"\\q".toList⟩,
        ⟨some "n".toList, .number (Float.ofBits 0x8000000000000000)⟩], true, none⟩, 2, 29⟩] := by
    decide +kernel
  have hargs : ∀ a ∈ [(⟨none, .number (Float.ofBits 0x3ff8000000000000)⟩ : Argument),
      ⟨none, .text "a\"\\q".toList⟩, ⟨some "n".toList, .number (Float.ofBits 0x8000000000000000)⟩],
      Writable a.value := by
    decide +kernel
  exact ⟨_, h, hargs, by decide +kernel, (slotMatches_source h (List.mem_cons_self ..)).1 hargs⟩

/-- A one with 309 zeros is infinite, and infinity is written as a name. -/
theorem slotMatches_source_infinite : ∃ m,
    slotMatches (bracketed "[[f(1" ++ List.replicate 309 '0' ++ bracketed ")]]") = .ok [m] ∧
      m.slot.source = "{{f(inf)}}".toList ∧ ∃ e, slotMatches m.slot.source = .error e := by
  have h : slotMatches (bracketed "[[f(1" ++ List.replicate 309 '0' ++ bracketed ")]]") =
      .ok [⟨⟨"f".toList, [⟨none, .number (Float.ofBits 0x7ff0000000000000)⟩], false, none⟩, 0, 317⟩] := by
    decide +kernel
  have hsource : (⟨"f".toList, [⟨none, .number (Float.ofBits 0x7ff0000000000000)⟩], false, none⟩ :
      Slot).source = "{{f(inf)}}".toList := by decide +kernel
  have herror : (slotMatches "{{f(inf)}}".toList).isOk = false := by decide +kernel
  refine ⟨_, h, hsource, ?_⟩
  rw [hsource]
  cases hrun : slotMatches "{{f(inf)}}".toList with
  | error e => exact ⟨e, rfl⟩
  | ok ms => rw [hrun] at herror; cases herror

end Stencil
