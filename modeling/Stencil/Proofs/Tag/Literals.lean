import Stencil.Proofs.Tag.Pieces

/-! # Literals in tags

A tag begins with a brace and ends with its closing braces. What stands between them has its quotation marks
and further closing braces in literals only (`pieces_of_slot`, `pieces_of_opening`). This is closed under the
ways of composing readers, the last of which takes the braces at the end. -/
set_option autoImplicit false
namespace Stencil

open Piece (textOf bares)

namespace Reader

variable {α β : Type} {back : Text} {c : Cursor}

/-- At the cursor the reader takes an inner text and then `back`. -/
structure SpansAt (back : Text) (p : Reader α) (c : Cursor) : Prop where
  spans : ∀ {a : α} {c' : Cursor}, p.run c = .ok (a, c') →
    ∃ ps, c.rest = textOf ps ++ (back ++ c'.rest) ∧ Inner ps

def Spans (back : Text) (p : Reader α) : Prop := ∀ c, SpansAt back p c

theorem spansAt_of_append {p : Reader α} (h : ∀ {a : α} {c' : Cursor}, p.run c = .ok (a, c') →
    ∃ z, c.rest = z ++ c'.rest ∧ ∀ d ∈ z, d ≠ '"' ∧ d ≠ '}') : SpansAt [] p c := by
  refine ⟨fun hp => ?_⟩
  obtain ⟨z, hz, hinner⟩ := h hp
  exact ⟨bares z, by rw [Piece.textOf_bares]; exact hz, inner_bares hinner⟩

theorem spans_pure (a : α) : Spans [] (pure a) := by
  refine fun c => spansAt_of_append fun h => ?_
  obtain ⟨-, rfl⟩ := Prod.mk.inj (Except.ok.inj h)
  exact ⟨[], rfl, by simp⟩

theorem spans_fail (expected : List Text) : Spans back (fail expected : Reader α) :=
  fun _ => ⟨fun h => nomatch h⟩

theorem SpansAt.bind {p : Reader α} {f : α → Reader β} (hp : SpansAt [] p c)
    (hf : ∀ a, Spans back (f a)) : SpansAt back (p >>= f) c := by
  refine ⟨fun h => ?_⟩
  obtain ⟨a, c₁, h₁, h₂⟩ := exists_of_run_bind h
  obtain ⟨ps, hps, hinner⟩ := hp.spans h₁
  obtain ⟨qs, hqs, hinner'⟩ := (hf a c₁).spans h₂
  rw [List.nil_append, hqs] at hps
  exact ⟨ps ++ qs, by rw [hps, Piece.textOf_append, List.append_assoc], hinner.append hinner'⟩

theorem Spans.bind {p : Reader α} {f : α → Reader β} (hp : Spans [] p) (hf : ∀ a, Spans back (f a)) :
    Spans back (p >>= f) := fun c => (hp c).bind hf

/-- The result may still be worked on. -/
theorem Spans.map {p : Reader α} (hp : Spans back p) (g : α → β) :
    Spans back (p >>= fun a => pure (g a)) := by
  refine fun c => ⟨fun h => ?_⟩
  obtain ⟨a, c₁, h₁, h₂⟩ := exists_of_run_bind h
  obtain ⟨-, rfl⟩ := Prod.mk.inj (Except.ok.inj h₂)
  exact (hp c).spans h₁

theorem spansAt_ite {C : Prop} [Decidable C] {p q : Reader α} (hp : C → SpansAt back p c)
    (hq : ¬ C → SpansAt back q c) : SpansAt back (if C then p else q) c := by
  split
  next h => exact hp h
  next h => exact hq h

theorem Spans.ite {C : Prop} [Decidable C] {p q : Reader α} (hp : Spans back p) (hq : Spans back q) :
    Spans back (if C then p else q) := fun c => spansAt_ite (fun _ => hp c) fun _ => hq c

theorem spans_peek_bind {f : Option Char → Reader α} (h : ∀ c, SpansAt back (f c.rest.head?) c) :
    Spans back (peek >>= f) := fun c => ⟨fun hrun => (h c).spans hrun⟩

theorem spans_takeWhile {p : Char → Bool} (hquote : p '"' = false) (hbrace : p '}' = false) :
    Spans [] (takeWhile p) := by
  refine fun c => spansAt_of_append fun h => ?_
  obtain ⟨-, rfl⟩ := Prod.mk.inj (Except.ok.inj h)
  refine ⟨c.rest.takeWhile p, ?_, fun d hd => ?_⟩
  · rw [rest_advance_takeWhile, List.takeWhile_append_dropWhile]
  · have hp := eq_true_of_mem_takeWhile d hd
    exact ⟨by rintro rfl; simp [hquote] at hp, by rintro rfl; simp [hbrace] at hp⟩

theorem spansAt_skip {ch : Char} (hhead : c.rest.head? = some ch) (hch : ch ≠ '"' ∧ ch ≠ '}') :
    SpansAt [] (skip 1) c := by
  refine spansAt_of_append fun h => ?_
  obtain ⟨-, rfl⟩ := Prod.mk.inj (Except.ok.inj h)
  obtain ⟨t, ht⟩ := List.head?_eq_some_iff.1 hhead
  refine ⟨[ch], by simp [Cursor.advance, ht], fun d hd => ?_⟩
  obtain rfl := List.mem_singleton.1 hd
  exact hch

theorem spans_eat {ch : Char} (hch : ch ≠ '"' ∧ ch ≠ '}') : Spans [] (eat ch) := by
  refine fun c => ⟨fun {a c'} h => ?_⟩
  simp only [eat, StateT.run] at h
  split at h
  next hhead =>
    obtain ⟨-, rfl⟩ := Prod.mk.inj (Except.ok.inj h)
    exact (spansAt_skip hhead hch).spans (a := ()) rfl
  next =>
    obtain ⟨-, rfl⟩ := Prod.mk.inj (Except.ok.inj h)
    exact ⟨[], rfl, inner_nil⟩

theorem spans_demand {ch : Char} (hch : ch ≠ '"' ∧ ch ≠ '}') (expected : List Text) :
    Spans [] (demand ch expected) :=
  (spans_eat hch).bind fun _ => .ite (spans_pure _) (spans_fail _)

theorem spans_skipSpace : Spans [] skipSpace :=
  (spans_takeWhile (by decide) (by decide)).bind fun _ => spans_pure _

theorem spans_skipBlanks : Spans [] skipBlanks :=
  (spans_takeWhile (by decide) (by decide)).bind fun _ => spans_pure _

theorem spans_name (expected : List Text) : Spans [] (name expected) := by
  refine spans_peek_bind fun c => ?_
  cases c.rest.head? with
  | none => exact spans_fail _ c
  | some ch => exact Spans.ite (spans_takeWhile (by decide) (by decide)) (spans_fail _) c

/-! ## Literals -/

theorem spansAt_string (hhead : c.rest.head? = some '"') : SpansAt [] string c := by
  refine ⟨fun {a c'} h => ?_⟩
  obtain ⟨o, rest⟩ := c
  obtain ⟨t, rfl⟩ : ∃ t, rest = '"' :: t := List.head?_eq_some_iff.1 hhead
  simp only [string, StateT.run, List.tail_cons] at h
  split at h
  next s after hs =>
    obtain ⟨rfl, rfl⟩ := Prod.mk.inj (Except.ok.inj h)
    have ht : '"' :: t = (Literal.ofUnquote hs).text ++ after := by
      conv_lhs => rw [← Literal.inside_append_ofUnquote hs]
      simp [Literal.text]
    refine ⟨[.literal (.ofUnquote hs)], ?_, inner_literal _⟩
    rw [ht, Cursor.skipTo_append]
    simp [Piece.text]
  next => cases h

theorem append_of_splitNumeral {t whole fraction after : Text}
    (h : Decimal.splitNumeral t = (whole, fraction, after)) :
    ∃ z, t = z ++ after ∧ ∀ c ∈ z, c.isDigit = true ∨ c = '.' := by
  obtain ⟨ht, hwhole, hfraction⟩ := parts_of_splitNumeral h
  refine ⟨_, ht, fun c hc => ?_⟩
  rcases List.mem_append.1 hc with hc | hc
  · exact .inl (hwhole c hc)
  · by_cases hnone : fraction = []
    · simp [hnone] at hc
    · rw [if_neg hnone] at hc
      rcases List.mem_cons.1 hc with hc | hc
      · exact .inr hc
      · exact .inl (hfraction c hc)

theorem spans_numeral (negative : Bool) : Spans [] (numeral negative) := by
  refine fun c => spansAt_of_append fun h => ?_
  obtain ⟨o, rest⟩ := c
  simp only [numeral, StateT.run] at h
  split at h
  · cases h
  next whole fraction after _ hsplit =>
    obtain ⟨-, rfl⟩ := Prod.mk.inj (Except.ok.inj h)
    obtain ⟨z, rfl, hz⟩ := append_of_splitNumeral hsplit
    rw [Cursor.skipTo_append]
    refine ⟨z, rfl, fun d hd => ⟨?_, ?_⟩⟩
    · rintro rfl
      exact absurd (hz _ hd) (by decide)
    · rintro rfl
      exact absurd (hz _ hd) (by decide)

theorem spans_number : Spans [] number := (spans_eat (by decide)).bind spans_numeral

theorem spans_value (also : List Text) : Spans [] (value also) := by
  refine spans_peek_bind fun c => ?_
  cases hhead : c.rest.head? with
  | none => exact spans_fail _ c
  | some ch =>
      refine spansAt_ite (fun hquote => ?_) fun _ => ?_
      · exact (spansAt_string (by rw [hhead, hquote])).bind fun _ => spans_pure _
      · exact Spans.ite (spans_number.bind fun _ => spans_pure _) (spans_fail _) c

/-! ## Slots -/

theorem spans_argument : Spans [] argument := by
  refine spans_peek_bind fun c => ?_
  have hunnamed : Spans [] (do return ⟨none, ← value ["identifier".toList]⟩ : Reader Argument) :=
    (spans_value _).bind fun _ => spans_pure _
  cases c.rest.head? with
  | none => exact hunnamed c
  | some ch =>
      exact Spans.ite
        ((spans_takeWhile (by decide) (by decide)).bind fun _ => spans_skipSpace.bind fun _ =>
          (spans_demand (by decide) _).bind fun _ => spans_skipSpace.bind fun _ =>
            (spans_value _).bind fun _ => spans_pure _)
        hunnamed c

theorem spans_spacedArgument : Spans [] spacedArgument :=
  spans_skipSpace.bind fun _ => spans_argument.bind fun _ => spans_skipSpace.bind fun _ => spans_pure _

/-- A list in parentheses: an element, and a comma or the parenthesis behind it. -/
theorem spans_element {next last : Cursor} {ch : Char} {tail : Text} {ps : List Piece}
    (hps : c.rest = textOf ps ++ next.rest) (hr : next.rest = ch :: tail)
    (hch : ch ≠ '"' ∧ ch ≠ '}') (hinner : Inner ps)
    (hlater : ∃ qs, (next.advance 1).rest = textOf qs ++ last.rest ∧ Inner qs) :
    ∃ rs, c.rest = textOf rs ++ last.rest ∧ Inner rs := by
  obtain ⟨qs, hqs, hinner'⟩ := hlater
  obtain rfl : tail = textOf qs ++ last.rest := by simpa [Cursor.advance, hr] using hqs
  refine ⟨ps ++ .bare ch :: qs, ?_, hinner.append (hinner'.cons hch)⟩
  rw [hps, hr, Piece.textOf_append, List.append_assoc]
  rfl

theorem spans_argumentsFrom : Spans [] (argumentsFrom : Reader (List Argument)) := by
  refine fun c => ⟨fun {as c'} h => ?_⟩
  simp only [StateT.run] at h
  simp only [List.nil_append]
  fun_induction argumentsFrom c generalizing as with
  | case1 => cases h
  | case2 => cases h
  | case3 => cases h
  | case4 c a next ha tail bs last hn hr ih =>
      obtain ⟨-, rfl⟩ := Prod.mk.inj (Except.ok.inj h)
      obtain ⟨ps, hps, hinner⟩ := (spans_spacedArgument c).spans ha
      exact spans_element hps hr (by decide) hinner (ih hn)
  | case5 c a next ha tail hr hc =>
      obtain ⟨-, rfl⟩ := Prod.mk.inj (Except.ok.inj h)
      obtain ⟨ps, hps, hinner⟩ := (spans_spacedArgument c).spans ha
      exact spans_element hps hr (by decide) hinner ⟨[], rfl, inner_nil⟩
  | case6 => cases h

theorem spansAt_arguments (hhead : c.rest.head? = some '(') : SpansAt [] arguments c :=
  (spansAt_skip hhead (by decide)).bind fun _ => spans_skipSpace.bind fun _ =>
    (spans_eat (by decide)).bind fun _ => .ite (spans_pure _) spans_argumentsFrom

theorem spans_closeSlot (expected : List Text) : Spans slotEnd (closeSlot expected) := by
  refine fun c => ⟨fun h => ?_⟩
  simp only [closeSlot, StateT.run] at h
  split at h
  next hstart =>
    obtain ⟨-, rfl⟩ := Prod.mk.inj (Except.ok.inj h)
    obtain ⟨t, ht⟩ := List.isPrefixOf_iff_prefix.1 hstart
    exact ⟨[], by simp [Cursor.advance, ← ht, slotEnd], inner_nil⟩
  next => cases h

theorem spans_reference (raw : Bool) : Spans slotEnd (reference raw) := by
  refine (spans_name _).bind fun n => spans_skipSpace.bind fun _ => spans_peek_bind fun c => ?_
  have hfinish (args : List Argument) : Spans slotEnd (do
      closeSlot <|
        if args = [] then Arithmetic.operators ++ [SyntaxError.literal "(", SyntaxError.literal "\x7d\x7d"]
        else [SyntaxError.literal "\x7d\x7d"]
      return { name := n, args, raw, expr := none } : Reader Slot) :=
    (spans_closeSlot _).map fun _ => _
  refine spansAt_ite (fun hparen => ?_) fun _ => ?_
  · exact (spansAt_arguments hparen).bind fun args => spans_skipSpace.bind fun _ =>
      (spans_pure args).bind hfinish
  · exact ((spans_pure []).bind hfinish) c

theorem spans_expression (raw : Bool) : Spans slotEnd (expression raw) := by
  refine fun c => ⟨fun h => ?_⟩
  simp only [expression, StateT.run] at h
  split at h
  · cases h
  next inside hinside =>
    obtain ⟨after, hrest, -⟩ := exists_of_before? (by simp [slotEnd]) hinside
    split at h
    · cases h
    next e he =>
      obtain ⟨-, rfl⟩ := Prod.mk.inj (Except.ok.inj h)
      have hquote : '"' ∉ inside :=
        Arithmetic.not_mem_of_parse he ⟨by decide, by decide, by decide⟩ (by decide) (by decide)
      have hbrace : '}' ∉ inside :=
        Arithmetic.not_mem_of_parse he ⟨by decide, by decide, by decide⟩ (by decide) (by decide)
      refine ⟨bares inside, ?_, inner_bares fun d hd => ⟨?_, ?_⟩⟩
      · simp [Cursor.advance, hrest, slotEnd]
      · rintro rfl; exact hquote hd
      · rintro rfl; exact hbrace hd

theorem spans_slotTail : Spans slotEnd slotTail := by
  refine spans_skipSpace.bind fun _ => (spans_eat (by decide)).bind fun raw =>
    spans_skipSpace.bind fun _ c => ⟨fun h => ?_⟩
  have hinside : (slotInside raw).run c = _ := h
  rw [run_slotInside] at hinside
  split at hinside
  · exact (spans_expression raw c).spans hinside
  · exact (spans_reference raw c).spans hinside

/-! ## Definition tags -/

theorem spans_parameter (defaulted : Bool) : Spans [] (parameter defaulted) :=
  spans_skipSpace.bind fun _ => (spans_name _).bind fun _ => spans_skipSpace.bind fun _ =>
    (spans_eat (by decide)).bind fun _ => .ite
      (spans_skipSpace.bind fun _ => (spans_value _).bind fun _ => spans_skipSpace.bind fun _ =>
        spans_pure _)
      (.ite (spans_fail _) (spans_pure _))

theorem spans_parametersFrom (defaulted : Bool) :
    Spans [] (parametersFrom defaulted : Reader Params) := by
  refine fun c => ⟨fun {ps c'} h => ?_⟩
  simp only [StateT.run] at h
  simp only [List.nil_append]
  fun_induction parametersFrom defaulted c generalizing ps with
  | case1 => cases h
  | case2 => cases h
  | case3 => cases h
  | case4 defaulted c p next hp tail qs last hn hr ih =>
      obtain ⟨-, rfl⟩ := Prod.mk.inj (Except.ok.inj h)
      obtain ⟨ps, hps, hinner⟩ := (spans_parameter defaulted c).spans hp
      exact spans_element hps hr (by decide) hinner (ih hn)
  | case5 defaulted c p next hp tail hr hc =>
      obtain ⟨-, rfl⟩ := Prod.mk.inj (Except.ok.inj h)
      obtain ⟨ps, hps, hinner⟩ := (spans_parameter defaulted c).spans hp
      exact spans_element hps hr (by decide) hinner ⟨[], rfl, inner_nil⟩
  | case6 => cases h

theorem spansAt_parameters (hhead : c.rest.head? = some '(') : SpansAt [] parameters c :=
  (spansAt_skip hhead (by decide)).bind fun _ => spans_skipSpace.bind fun _ =>
    (spans_eat (by decide)).bind fun _ => .ite (spans_pure _) (spans_parametersFrom _)

theorem spansAt_brace (hhead : c.rest.head? = some '}') : SpansAt ['}'] (skip 1) c := by
  refine ⟨fun h => ?_⟩
  obtain ⟨-, rfl⟩ := Prod.mk.inj (Except.ok.inj h)
  obtain ⟨t, ht⟩ := List.head?_eq_some_iff.1 hhead
  exact ⟨[], by simp [Cursor.advance, ht], inner_nil⟩

theorem spans_closeBrace : Spans ['}'] closeBrace := by
  refine fun c => ⟨fun {a c'} h => ?_⟩
  obtain ⟨found, c₁, h₁, h₂⟩ := exists_of_run_bind h
  simp only [eat, StateT.run] at h₁
  split at h₁
  next hhead =>
    obtain ⟨rfl, rfl⟩ := Prod.mk.inj (Except.ok.inj h₁)
    obtain ⟨-, rfl⟩ := Prod.mk.inj (Except.ok.inj h₂)
    exact (spansAt_brace hhead).spans (a := ()) rfl
  next =>
    obtain ⟨rfl, rfl⟩ := Prod.mk.inj (Except.ok.inj h₁)
    cases h₂

theorem spans_form : Spans ['}'] form := by
  refine spans_peek_bind fun c => ?_
  split
  next hhead =>
    exact (spansAt_skip hhead (by decide)).bind fun _ => spans_skipSpace.bind fun _ =>
      (spans_value _).bind fun v => spans_skipSpace.bind fun _ =>
        spans_closeBrace.map fun _ => Form.single v
  next hhead =>
    exact (spansAt_parameters hhead).bind fun ps => spans_skipSpace.bind fun _ =>
      spans_closeBrace.map fun _ => Form.block ps
  next hhead =>
    refine ⟨fun {f c'} h => ?_⟩
    obtain ⟨_, c₁, h₁, h₂⟩ := exists_of_run_bind h
    obtain ⟨-, rfl⟩ := Prod.mk.inj (Except.ok.inj h₂)
    exact (spansAt_brace hhead).spans h₁
  next => exact spans_fail _ c

theorem spans_openingTail : Spans ['}'] openingTail :=
  spans_skipBlanks.bind fun _ => (spans_eat (by decide)).bind fun _ => spans_skipBlanks.bind fun _ =>
    (spans_name _).bind fun _ => spans_skipSpace.bind fun _ => spans_form.map _

end Reader

/-! ## Tags -/

theorem pieces_of_slot {c next : Cursor} {s : Slot} (hlead : lead c.rest = .slot)
    (h : Reader.slot.run c = .ok (s, next)) : ∃ ps, Inner ps ∧
      tagPieces (c.upto next) = .bare '{' :: .bare '{' :: (ps ++ bares Reader.slotEnd) := by
  obtain ⟨u, hu, -⟩ := exists_of_lead_slot hlead
  have htail : Reader.slotTail.run (c.advance 2) = .ok (s, next) := h
  obtain ⟨ps, hps, hinner⟩ := (Reader.spans_slotTail _).spans htail
  obtain rfl : u = textOf ps ++ (Reader.slotEnd ++ next.rest) := by simpa [Cursor.advance, hu] using hps
  have hrest : c.rest = textOf (.bare '{' :: .bare '{' :: ps) ++ Reader.slotEnd ++ next.rest := by
    rw [hu, List.append_assoc]
    rfl
  rw [Cursor.upto_of_append hrest, tagPieces_append ((hinner.cons (by decide)).cons (by decide)),
    tagPieces_bares (by decide)]
  exact ⟨ps, hinner, rfl⟩

theorem pieces_of_opening {c next : Cursor} {o : Opening} (hlead : lead c.rest = .opening)
    (h : Reader.opening.run c = .ok (o, next)) : ∃ ps, Inner ps ∧
      c.rest.tail = textOf ps ++ '}' :: next.rest ∧
      tagPieces (c.upto next) = .bare '{' :: (ps ++ bares ['}']) := by
  obtain ⟨u, hu⟩ := exists_cons_of_lead (t := c.rest) (by rw [hlead]; decide)
  have htail : Reader.openingTail.run (c.advance 1) = .ok (o, next) := h
  obtain ⟨ps, hps, hinner⟩ := (Reader.spans_openingTail _).spans htail
  obtain rfl : u = textOf ps ++ (['}'] ++ next.rest) := by simpa [Cursor.advance, hu] using hps
  have hrest : c.rest = textOf (.bare '{' :: ps) ++ ['}'] ++ next.rest := by
    rw [hu, List.append_assoc]
    rfl
  rw [Cursor.upto_of_append hrest, tagPieces_append (hinner.cons (by decide)), tagPieces_bares (by decide)]
  exact ⟨ps, hinner, by rw [hu]; rfl, rfl⟩

end Stencil
