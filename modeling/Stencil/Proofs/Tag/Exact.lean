import Stencil.Proofs.Arithmetic.Reading
import Stencil.Proofs.Tag.Located

/-! # Which texts are slots

`IsSlot z s` says that the text is a slot: a reference or an expression in double braces, with spaces and an at
sign before it. What the readers take is what the grammar says (`Reader.rest_of_reference`), so that the slots
of the grammar are those that are read (`IsSlot.slotText`, `SlotText.isSlot`), and a text is read as one slot
exactly when it is one (`parse_eq_slot_iff`). -/
set_option autoImplicit false
namespace Stencil

theorem isTagSpace_of_isWhiteSpace {c : Char} (h : isWhiteSpace c = false) : isTagSpace c = false := by
  rw [Bool.eq_false_iff] at h ⊢
  exact fun hspace => h (isWhiteSpace_of_isAsciiSpace (isAsciiSpace_of_isTagSpace hspace))

namespace Reader

variable {c c' : Cursor}

/-! ## What the basic readers take -/

theorem rest_of_takeWhile {p : Char → Bool} {z : Text} (h : (takeWhile p).run c = .ok (z, c')) :
    c.rest = z ++ c'.rest ∧ ∀ d ∈ z, p d = true := by
  obtain ⟨rfl, rfl⟩ := Prod.mk.inj (Except.ok.inj h)
  rw [rest_advance_takeWhile, List.takeWhile_append_dropWhile]
  exact ⟨rfl, eq_true_of_mem_takeWhile⟩

theorem rest_of_skipSpace {u : Unit} (h : skipSpace.run c = .ok (u, c')) :
    ∃ w, c.rest = w ++ c'.rest ∧ Spaces w := by
  obtain ⟨w, c₁, h₁, h₂⟩ := exists_of_run_bind h
  obtain ⟨-, rfl⟩ := Prod.mk.inj (Except.ok.inj h₂)
  exact ⟨w, rest_of_takeWhile h₁⟩

theorem rest_of_eat {ch : Char} {b : Bool} (h : (eat ch).run c = .ok (b, c')) :
    c.rest = (if b then [ch] else []) ++ c'.rest := by
  simp only [eat, StateT.run] at h
  split at h
  next hhead =>
    obtain ⟨rfl, rfl⟩ := Prod.mk.inj (Except.ok.inj h)
    obtain ⟨t, ht⟩ := List.head?_eq_some_iff.1 hhead
    simp [Cursor.advance, ht]
  next =>
    obtain ⟨rfl, rfl⟩ := Prod.mk.inj (Except.ok.inj h)
    rfl

theorem rest_of_demand {ch : Char} {expected : List Text} {u : Unit}
    (h : (demand ch expected).run c = .ok (u, c')) : c.rest = ch :: c'.rest := by
  obtain ⟨b, c₁, h₁, h₂⟩ := exists_of_run_bind h
  cases b with
  | true =>
      obtain ⟨-, rfl⟩ := Prod.mk.inj (Except.ok.inj h₂)
      exact rest_of_eat h₁
  | false => cases h₂

theorem isName_of_takeWhile {t : Text} {c : Char} (hhead : t.head? = some c)
    (hc : isNameStart c = true) : IsName (t.takeWhile isNameChar) := by
  obtain ⟨t, rfl⟩ := List.head?_eq_some_iff.1 hhead
  rw [List.takeWhile_cons_of_pos (isNameChar_of_isNameStart hc)]
  exact ⟨c, _, rfl, hc, eq_true_of_mem_takeWhile⟩

theorem takeWhile_of_name {expected : List Text} {c c' : Cursor} {n : Text}
    (h : (name expected).run c = .ok (n, c')) : ∃ ch, c.rest.head? = some ch ∧
      isNameStart ch = true ∧ (takeWhile isNameChar).run c = .ok (n, c') := by
  obtain ⟨o, c₁, h₁, h₂⟩ := exists_of_run_bind h
  obtain ⟨rfl, rfl⟩ := Prod.mk.inj (Except.ok.inj h₁)
  cases hhead : c.rest.head? with
  | none => rw [hhead] at h₂; cases h₂
  | some ch =>
      rw [hhead] at h₂
      by_cases hstart : isNameStart ch = true
      · simp only [if_pos hstart] at h₂
        exact ⟨ch, rfl, hstart, h₂⟩
      · simp only [if_neg hstart] at h₂
        cases h₂

theorem isName_of_name {expected : List Text} {c c' : Cursor} {n : Text}
    (h : (name expected).run c = .ok (n, c')) : IsName n := by
  obtain ⟨ch, hhead, hstart, htaken⟩ := takeWhile_of_name h
  obtain ⟨rfl, -⟩ := Prod.mk.inj (Except.ok.inj htaken)
  exact isName_of_takeWhile hhead hstart

theorem rest_of_name {expected : List Text} {n : Text} (h : (name expected).run c = .ok (n, c')) :
    c.rest = n ++ c'.rest ∧ IsName n := by
  obtain ⟨-, -, -, htaken⟩ := takeWhile_of_name h
  exact ⟨(rest_of_takeWhile htaken).1, isName_of_name h⟩

/-! ## What the readers of values take -/

theorem quoted_of_unquote? : ∀ {t s after : Text}, unquote? t = some (s, after) →
    ∃ z, t = z ++ '"' :: after ∧ Quoted z s := by
  intro t
  fun_induction unquote? t with
  | case1 => intro s after h; cases h
  | case2 => intro s after h; cases h
  | case3 ch rest ih =>
      intro s after h
      obtain ⟨⟨s', after'⟩, hs', heq⟩ := Option.map_eq_some_iff.1 h
      obtain ⟨rfl, rfl⟩ := Prod.mk.inj heq
      obtain ⟨z, rfl, hz⟩ := ih hs'
      refine ⟨'\\' :: ch :: z, rfl, ?_⟩
      rcases unescape_eq ch with ⟨d, hmem, hescape⟩ | ⟨hnone, hescape⟩
      · rw [hescape]
        exact .escape hmem hz
      · rw [hescape]
        exact .pair hnone hz
  | case4 rest =>
      intro s after h
      obtain ⟨rfl, rfl⟩ := Prod.mk.inj (Option.some.inj h)
      exact ⟨[], rfl, .nil⟩
  | case5 ch rest h₁ h₂ hquote ih =>
      intro s after h
      obtain ⟨⟨s', after'⟩, hs', heq⟩ := Option.map_eq_some_iff.1 h
      obtain ⟨rfl, rfl⟩ := Prod.mk.inj heq
      obtain ⟨z, rfl, hz⟩ := ih hs'
      exact ⟨ch :: z, rfl, .char hquote (ne_backslash h₁ h₂) hz⟩

theorem rest_of_string {t : Text} (hhead : c.rest.head? = some '"') (h : string.run c = .ok (t, c')) :
    ∃ z, c.rest = '"' :: (z ++ '"' :: c'.rest) ∧ Quoted z t := by
  obtain ⟨o, rest⟩ := c
  obtain ⟨u, rfl⟩ : ∃ u, rest = '"' :: u := List.head?_eq_some_iff.1 hhead
  simp only [string, StateT.run, List.tail_cons] at h
  split at h
  next s after hs =>
    obtain ⟨rfl, rfl⟩ := Prod.mk.inj (Except.ok.inj h)
    obtain ⟨z, rfl, hz⟩ := quoted_of_unquote? hs
    have hsplit : '"' :: (z ++ '"' :: after) = '"' :: (z ++ ['"']) ++ after := by simp
    refine ⟨z, ?_, hz⟩
    rw [hsplit, Cursor.skipTo_append, ← hsplit]
  next => cases h

theorem rest_of_number {x : Float} (h : number.run c = .ok (x, c')) :
    ∃ z, c.rest = z ++ c'.rest ∧ ReadsAs z x := by
  obtain ⟨negative, c₁, h₁, h₂⟩ := exists_of_run_bind h
  have hsign := rest_of_eat h₁
  obtain ⟨o, rest⟩ := c₁
  simp only [numeral, StateT.run] at h₂
  split at h₂
  · cases h₂
  next whole fraction after hne hsplit =>
    obtain ⟨rfl, rfl⟩ := Prod.mk.inj (Except.ok.inj h₂)
    obtain ⟨rfl, hwhole, hfraction⟩ := parts_of_splitNumeral hsplit
    rw [Cursor.skipTo_append]
    refine ⟨_, ?_, negative, whole, fraction, hne, hwhole, hfraction, rfl, rfl⟩
    rw [hsign]
    exact (List.append_assoc ..).symm

theorem rest_of_value {also : List Text} {v : Value} (h : (value also).run c = .ok (v, c')) :
    ∃ z, c.rest = z ++ c'.rest ∧ IsValue z v := by
  obtain ⟨o, c₁, h₁, h₂⟩ := exists_of_run_bind h
  obtain ⟨rfl, rfl⟩ := Prod.mk.inj (Except.ok.inj h₁)
  cases hhead : c.rest.head? with
  | none => rw [hhead] at h₂; cases h₂
  | some ch =>
      rw [hhead] at h₂
      by_cases hquote : ch = '"'
      · simp only [if_pos hquote] at h₂
        obtain ⟨t, c₂, h₃, h₄⟩ := exists_of_run_bind h₂
        obtain ⟨rfl, rfl⟩ := Prod.mk.inj (Except.ok.inj h₄)
        obtain ⟨z, hz, hquoted⟩ := rest_of_string (by rw [hhead, hquote]) h₃
        exact ⟨'"' :: (z ++ ['"']), by simp [hz], .text hquoted⟩
      · simp only [if_neg hquote] at h₂
        by_cases hnumber : ch = '-' ∨ ch.isDigit = true
        · simp only [if_pos hnumber] at h₂
          obtain ⟨x, c₂, h₃, h₄⟩ := exists_of_run_bind h₂
          obtain ⟨rfl, rfl⟩ := Prod.mk.inj (Except.ok.inj h₄)
          obtain ⟨z, hz, hreads⟩ := rest_of_number h₃
          exact ⟨z, hz, .number hreads⟩
        · simp only [if_neg hnumber] at h₂
          cases h₂

/-! ## What the readers of arguments take -/

theorem rest_of_argument {a : Argument} (h : argument.run c = .ok (a, c')) :
    ∃ z, c.rest = z ++ c'.rest ∧ IsArgument z a := by
  have hunnamed : ∀ {a : Argument},
      (do return ⟨none, ← value ["identifier".toList]⟩ : Reader Argument).run c = .ok (a, c') →
        ∃ z, c.rest = z ++ c'.rest ∧ IsArgument z a := by
    intro a hrun
    obtain ⟨v, c₂, h₂, h₃⟩ := exists_of_run_bind hrun
    obtain ⟨rfl, rfl⟩ := Prod.mk.inj (Except.ok.inj h₃)
    obtain ⟨z, hz, hv⟩ := rest_of_value h₂
    exact ⟨z, hz, .unnamed hv⟩
  obtain ⟨o, c₁, h₁, hrest⟩ := exists_of_run_bind h
  obtain ⟨rfl, rfl⟩ := Prod.mk.inj (Except.ok.inj h₁)
  cases hhead : c.rest.head? with
  | none => rw [hhead] at hrest; exact hunnamed hrest
  | some ch =>
      rw [hhead] at hrest
      by_cases hstart : isNameStart ch = true
      · simp only [if_pos hstart] at hrest
        obtain ⟨n, c₂, h₂, hrest⟩ := exists_of_run_bind hrest
        obtain ⟨_, c₃, h₃, hrest⟩ := exists_of_run_bind hrest
        obtain ⟨_, c₄, h₄, hrest⟩ := exists_of_run_bind hrest
        obtain ⟨_, c₅, h₅, hrest⟩ := exists_of_run_bind hrest
        obtain ⟨v, c₆, h₆, hrest⟩ := exists_of_run_bind hrest
        obtain ⟨rfl, rfl⟩ := Prod.mk.inj (Except.ok.inj hrest)
        have hname : IsName n := by
          obtain ⟨rfl, -⟩ := Prod.mk.inj (Except.ok.inj h₂)
          exact isName_of_takeWhile hhead hstart
        obtain ⟨w, hw, hspaces⟩ := rest_of_skipSpace h₃
        obtain ⟨w', hw', hspaces'⟩ := rest_of_skipSpace h₅
        obtain ⟨z, hz, hv⟩ := rest_of_value h₆
        refine ⟨n ++ (w ++ '=' :: (w' ++ z)), ?_, .named hname hspaces hspaces' hv⟩
        rw [(rest_of_takeWhile h₂).1, hw, rest_of_demand h₄, hw', hz]
        simp
      · simp only [if_neg hstart] at hrest
        exact hunnamed hrest

theorem rest_of_spacedArgument {a : Argument} (h : spacedArgument.run c = .ok (a, c')) :
    ∃ w z w', c.rest = w ++ (z ++ (w' ++ c'.rest)) ∧ Spaces w ∧ IsArgument z a ∧ Spaces w' := by
  obtain ⟨_, c₁, h₁, h⟩ := exists_of_run_bind h
  obtain ⟨b, c₂, h₂, h⟩ := exists_of_run_bind h
  obtain ⟨_, c₃, h₃, h⟩ := exists_of_run_bind h
  obtain ⟨rfl, rfl⟩ := Prod.mk.inj (Except.ok.inj h)
  obtain ⟨w, hw, hspaces⟩ := rest_of_skipSpace h₁
  obtain ⟨z, hz, ha⟩ := rest_of_argument h₂
  obtain ⟨w', hw', hspaces'⟩ := rest_of_skipSpace h₃
  exact ⟨w, z, w', by rw [hw, hz, hw'], hspaces, ha, hspaces'⟩

theorem rest_of_argumentsFrom {c : Cursor} : ∀ {c' : Cursor} {as : List Argument},
    argumentsFrom c = .ok (as, c') → ∃ w z w', c.rest = w ++ (z ++ (w' ++ ')' :: c'.rest)) ∧
      Spaces w ∧ AreArguments z as ∧ Spaces w' := by
  fun_induction argumentsFrom c with
  | case1 => intro c' as h; cases h
  | case2 => intro c' as h; cases h
  | case3 => intro c' as h; cases h
  | case4 c a next ha tail bs last hn hr ih =>
      intro c' as h
      obtain ⟨rfl, rfl⟩ := Prod.mk.inj (Except.ok.inj h)
      obtain ⟨w, y, u, hy, hspaces, harg, hbehind⟩ := rest_of_spacedArgument ha
      obtain ⟨u', z, w', hz, hbefore, hargs, hspaces'⟩ := ih hn
      obtain rfl : tail = u' ++ (z ++ (w' ++ ')' :: last.rest)) := by simpa [Cursor.advance, hr] using hz
      refine ⟨w, y ++ (u ++ ',' :: (u' ++ z)), w', ?_, hspaces, .cons harg hbehind hbefore hargs, hspaces'⟩
      simp [hy, hr]
  | case5 c a next ha tail hr =>
      intro c' as h
      obtain ⟨rfl, rfl⟩ := Prod.mk.inj (Except.ok.inj h)
      obtain ⟨w, z, w', hz, hspaces, harg, hspaces'⟩ := rest_of_spacedArgument ha
      exact ⟨w, z, w', by simp [hz, hr, Cursor.advance], hspaces, .last harg, hspaces'⟩
  | case6 => intro c' as h; cases h

/-- At the opening parenthesis. -/
theorem rest_of_arguments {as : List Argument} (hhead : c.rest.head? = some '(')
    (h : arguments.run c = .ok (as, c')) :
    (as = [] ∧ ∃ w, c.rest = '(' :: (w ++ ')' :: c'.rest) ∧ Spaces w) ∨
      ∃ w z w', c.rest = '(' :: (w ++ (z ++ (w' ++ ')' :: c'.rest))) ∧ Spaces w ∧ AreArguments z as ∧
        Spaces w' := by
  obtain ⟨_, c₁, h₁, h⟩ := exists_of_run_bind h
  obtain ⟨_, c₂, h₂, h⟩ := exists_of_run_bind h
  obtain ⟨b, c₃, h₃, h⟩ := exists_of_run_bind h
  obtain ⟨t, ht⟩ := List.head?_eq_some_iff.1 hhead
  have hskip : c.rest = '(' :: c₁.rest := by
    obtain ⟨-, rfl⟩ := Prod.mk.inj (Except.ok.inj h₁)
    simp [Cursor.advance, ht]
  obtain ⟨w, hw, hspaces⟩ := rest_of_skipSpace h₂
  have heat := rest_of_eat h₃
  rw [hskip, hw, heat]
  cases b with
  | true =>
      obtain ⟨rfl, rfl⟩ := Prod.mk.inj (Except.ok.inj h)
      exact .inl ⟨rfl, w, rfl, hspaces⟩
  | false =>
      obtain ⟨u, z, w', hz, hbefore, hargs, hspaces'⟩ := rest_of_argumentsFrom h
      refine .inr ⟨w ++ u, z, w', ?_, hspaces.append hbefore, hargs, hspaces'⟩
      simp [hz]

/-! ## References and expressions -/

theorem rest_of_closeSlot {expected : List Text} {u : Unit}
    (h : (closeSlot expected).run c = .ok (u, c')) : c.rest = slotEnd ++ c'.rest := by
  simp only [closeSlot, StateT.run] at h
  split at h
  next hstart =>
    obtain ⟨-, rfl⟩ := Prod.mk.inj (Except.ok.inj h)
    obtain ⟨t, ht⟩ := List.isPrefixOf_iff_prefix.1 hstart
    simp [Cursor.advance, ← ht, slotEnd]
  next => cases h

theorem rest_of_reference {raw : Bool} {s : Slot} (h : (reference raw).run c = .ok (s, c')) :
    ∃ z n as, c.rest = z ++ (slotEnd ++ c'.rest) ∧ IsReference z n as ∧
      s = { name := n, args := as, raw, expr := none } := by
  obtain ⟨n, c₁, h₁, h⟩ := exists_of_run_bind h
  obtain ⟨_, c₂, h₂, h⟩ := exists_of_run_bind h
  obtain ⟨o, c₃, h₃, h⟩ := exists_of_run_bind h
  obtain ⟨rfl, rfl⟩ := Prod.mk.inj (Except.ok.inj h₃)
  obtain ⟨hn, hname⟩ := rest_of_name h₁
  obtain ⟨u, hu, hspaces⟩ := rest_of_skipSpace h₂
  have hend : ∀ {c₄ : Cursor} {as : List Argument},
      (closeSlot (if as = [] then
          Arithmetic.operators ++ [SyntaxError.literal "(", SyntaxError.literal "\x7d\x7d"]
        else [SyntaxError.literal "\x7d\x7d"]) >>= fun _ =>
          pure { name := n, args := as, raw, expr := none : Slot }).run c₄ = .ok (s, c') →
      c₄.rest = slotEnd ++ c'.rest ∧ s = { name := n, args := as, raw, expr := none } := by
    intro c₄ as hrun
    obtain ⟨_, c₅, h₅, h₆⟩ := exists_of_run_bind hrun
    obtain ⟨rfl, rfl⟩ := Prod.mk.inj (Except.ok.inj h₆)
    exact ⟨rest_of_closeSlot h₅, rfl⟩
  by_cases hparen : c₂.rest.head? = some '('
  · simp only [if_pos hparen] at h
    obtain ⟨as, c₄, h₄, h⟩ := exists_of_run_bind h
    obtain ⟨_, c₅, h₅, h⟩ := exists_of_run_bind h
    obtain ⟨w'', hw'', hspaces''⟩ := rest_of_skipSpace h₅
    obtain ⟨hclose, rfl⟩ := hend h
    rw [hn, hu]
    rcases rest_of_arguments hparen h₄ with ⟨rfl, w, hw, hinside⟩ | ⟨w, z, w', hz, hfront, hargs, hback⟩
    · refine ⟨n ++ (u ++ '(' :: (w ++ ')' :: w'')), n, [], ?_, .empty hname hspaces hinside hspaces'', rfl⟩
      simp [hw, hw'', hclose]
    · refine ⟨n ++ (u ++ '(' :: (w ++ (z ++ (w' ++ ')' :: w'')))), n, as, ?_,
        .call hname hspaces hfront hback hspaces'' hargs, rfl⟩
      simp [hz, hw'', hclose]
  · simp only [if_neg hparen] at h
    obtain ⟨hclose, rfl⟩ := hend h
    exact ⟨n ++ u, n, [], by simp [hn, hu, hclose], .name hname hspaces, rfl⟩

/-! ## Expressions -/

def operatorSigns : List Char := ['+', '-', '*', '/', '^']

/-- The front of an expression: a digit, a parenthesis, a minus sign, or a name before an operator. -/
inductive StartsExpression : Text → Prop
  | sign {c : Char} {t : Text} : c.isDigit = true ∨ c = '(' ∨ c = '-' → StartsExpression (c :: t)
  | name {n w t : Text} {c : Char} : IsName n → Spaces w → c ∈ operatorSigns →
      StartsExpression (n ++ (w ++ c :: t))

theorem endsName_of_mem_operatorSigns {c : Char} (h : c ∈ operatorSigns) :
    isNameChar c = false ∧ isTagSpace c = false ∧ c ≠ '}' := by
  simp only [operatorSigns, List.mem_cons, List.not_mem_nil, or_false] at h
  rcases h with rfl | rfl | rfl | rfl | rfl <;> decide

theorem isOperator_iff {c : Char} : isOperator c = true ↔ c ∈ operatorSigns := by
  simp [isOperator, operatorSigns, or_assoc]

theorem beginsExpression_iff {t : Text} : beginsExpression t = true ↔ StartsExpression t := by
  constructor
  · intro h
    cases t with
    | nil => cases h
    | cons c t =>
        unfold beginsExpression at h
        by_cases hstart : isNameStart c = true
        · simp only [if_pos hstart] at h
          split at h
          · cases h
          next d u hd =>
            have hsplit : c :: t = (c :: t).takeWhile isNameChar ++
                (((c :: t).dropWhile isNameChar).takeWhile isTagSpace ++ d :: u) := by
              rw [← hd, List.takeWhile_append_dropWhile, List.takeWhile_append_dropWhile]
            rw [hsplit]
            exact .name (isName_of_takeWhile rfl hstart) eq_true_of_mem_takeWhile (isOperator_iff.1 h)
        · simp only [if_neg hstart, Bool.or_eq_true, decide_eq_true_eq] at h
          exact .sign (or_assoc.1 h)
  · intro h
    cases h with
    | @sign c t hc =>
        have hstart : ¬ isNameStart c = true := by
          rcases hc with hc | rfl | rfl
          · simp [isNameStart_of_isDigit hc]
          · decide
          · decide
        unfold beginsExpression
        simp only [if_neg hstart, Bool.or_eq_true, decide_eq_true_eq]
        exact or_assoc.2 hc
    | @name n w t c hn hw hc =>
        obtain ⟨hname, hspace, -⟩ := endsName_of_mem_operatorSigns hc
        rw [beginsExpression_name hn hw hname hspace]
        exact isOperator_iff.2 hc

theorem StartsExpression.exists_cons {t : Text} (h : StartsExpression t) :
    ∃ c u, t = c :: u ∧ isWhiteSpace c = false ∧ c ≠ '{' ∧ c ≠ '@' := by
  obtain ⟨c, u, rfl, hc⟩ : ∃ c u, t = c :: u ∧
      (isNameStart c = true ∨ c.isDigit = true ∨ c = '(' ∨ c = '-') := by
    cases h with
    | @sign c t hc => exact ⟨c, t, rfl, .inr hc⟩
    | name hn _ _ =>
        obtain ⟨c, u, rfl, hc, -⟩ := hn
        exact ⟨c, _, rfl, .inl hc⟩
  refine ⟨c, u, rfl, ?_, ?_, ?_⟩
  · rw [Bool.eq_false_iff]
    intro hspace
    obtain ⟨hdigit, hname, -⟩ := Arithmetic.endsToken_of_isWhiteSpace hspace
    rcases hc with hc | hc | rfl | rfl
    · rw [isNameChar_of_isNameStart hc] at hname
      cases hname
    · rw [hdigit] at hc
      cases hc
    · exact absurd hspace (by decide)
    · exact absurd hspace (by decide)
  all_goals
    rintro rfl
    exact absurd hc (by decide)

/-- What begins an expression is decided by a front that has no closing brace and does not end in a space. -/
theorem StartsExpression.exists_front {t : Text} (h : StartsExpression t) :
    ∃ front c a, t = front ++ c :: a ∧ '}' ∉ front ∧ c ≠ '}' ∧ isTagSpace c = false ∧
      ∀ b, StartsExpression (front ++ c :: b) := by
  cases h with
  | @sign c t hc =>
      refine ⟨[], c, t, rfl, by simp, ?_, ?_, fun b => .sign hc⟩
      · rintro rfl
        exact absurd hc (by decide)
      · rcases hc with hc | rfl | rfl
        · exact isTagSpace_eq_false (isNameChar_of_isDigit hc)
        · decide
        · decide
  | @name n w t c hn hw hc =>
      obtain ⟨-, hspace, hbrace⟩ := endsName_of_mem_operatorSigns hc
      refine ⟨n ++ w, c, t, by simp, ?_, hbrace, hspace, fun b => ?_⟩
      · rw [List.mem_append, not_or]
        exact ⟨fun hmem => absurd (hn.isNameChar _ hmem) (by decide),
          fun hmem => absurd (hw _ hmem) (by decide)⟩
      · rw [List.append_assoc]
        exact .name hn hw hc

theorem StartsExpression.append {z : Text} (h : StartsExpression z) (r : Text) :
    StartsExpression (z ++ r) := by
  obtain ⟨front, c, a, rfl, -, -, -, hfront⟩ := h.exists_front
  rw [List.append_assoc]
  exact hfront (a ++ r)

theorem exists_append_of_suffix {front t z r : Text} {c : Char} (h : front ++ c :: t = z ++ r)
    (hr : ∀ a u, r = a ++ c :: u → ¬ a <:+ front) : ∃ b, z = front ++ c :: b := by
  rcases List.append_eq_append_iff.1 h with ⟨a, rfl, ha⟩ | ⟨a, rfl, ha⟩
  · cases a with
    | nil => exact absurd List.nil_suffix (hr [] t ha.symm)
    | cons d a =>
        obtain ⟨rfl, -⟩ := List.cons.inj ha
        exact ⟨a, rfl⟩
  · exact absurd (List.suffix_append z a) (hr a t ha)

/-- What begins an expression stands before the braces. -/
theorem StartsExpression.of_append {z r : Text} (h : StartsExpression (z ++ (slotEnd ++ r))) :
    StartsExpression z := by
  obtain ⟨front, c, a, ha, hbrace, hc, -, hfront⟩ := h.exists_front
  obtain ⟨b, rfl⟩ := exists_append_of_suffix ha.symm fun y u hy hsuffix => by
    cases y with
    | nil => exact hc (List.cons.inj hy).1.symm
    | cons d y =>
        obtain ⟨rfl, -⟩ := List.cons.inj hy
        exact hbrace (hsuffix.subset (List.mem_cons_self ..))
  exact hfront b

/-- What begins an expression stands before the spaces at its end. -/
theorem StartsExpression.of_spaces {z w : Text} (h : StartsExpression (z ++ w)) (hw : Spaces w) :
    StartsExpression z := by
  obtain ⟨front, c, a, ha, -, -, hc, hfront⟩ := h.exists_front
  obtain ⟨b, rfl⟩ := exists_append_of_suffix ha.symm fun y u hy _ => by
    have hspace := hw c (by rw [hy]; simp)
    rw [hc] at hspace
    cases hspace
  exact hfront b

/-! ## The text of an expression -/

theorem before?_of_not_mem {inside : Text} (h : '}' ∉ inside) (r : Text) :
    Text.before? slotEnd (inside ++ (slotEnd ++ r)) = some inside := by
  induction inside with
  | nil => exact before?_mark (by simp [slotEnd]) r
  | cons c inside ih =>
      rw [List.mem_cons, not_or] at h
      have hstart : ¬ Text.startsWith (c :: (inside ++ (slotEnd ++ r))) slotEnd = true := by
        simp [Text.startsWith, slotEnd, h.1]
      rw [List.cons_append, Text.before?, if_neg hstart, ih h.2]
      rfl

theorem takes_expression {inside : Text} {e : Arithmetic.Expr} (h : Arithmetic.parse inside = .ok e)
    (raw : Bool) (r : Text) : Takes (expression raw) (inside ++ slotEnd)
      { name := Text.trim inside, args := [], raw, expr := some e } r := by
  intro o
  have hbrace : '}' ∉ inside :=
    Arithmetic.not_mem_of_parse h ⟨by decide, by decide, by decide⟩ (by decide) (by decide)
  have hlength : inside.length + 2 = (inside ++ slotEnd).length := by simp [slotEnd]
  simp only [expression, StateT.run, List.append_assoc, before?_of_not_mem hbrace, h]
  rw [hlength, ← List.append_assoc, Cursor.advance_append]

theorem rest_of_expression {raw : Bool} {s : Slot} (h : (expression raw).run c = .ok (s, c')) :
    ∃ z e, c.rest = z ++ (slotEnd ++ c'.rest) ∧ Arithmetic.parse z = .ok e ∧
      s = { name := Text.trim z, args := [], raw, expr := some e } := by
  simp only [expression, StateT.run] at h
  split at h
  · cases h
  next inside hinside =>
    obtain ⟨after, hafter, -⟩ := exists_of_before? (by simp [slotEnd]) hinside
    split at h
    · cases h
    next e he =>
      obtain ⟨rfl, rfl⟩ := Prod.mk.inj (Except.ok.inj h)
      refine ⟨inside, e, ?_, he, rfl⟩
      simp [Cursor.advance, hafter, slotEnd]

end Reader

open Reader (Spaces IsReference StartsExpression slotEnd)

/-! ## Slots -/

/-- The text is the slot: spaces and an at sign may stand before what the slot holds. -/
inductive IsSlot : Text → Slot → Prop
  | reference {w w' z n : Text} {as : List Argument} (raw : Bool) : Spaces w → Spaces w' →
      IsReference z n as →
      IsSlot ('{' :: '{' :: (w ++ ((if raw then ['@'] else []) ++ (w' ++ (z ++ slotEnd)))))
        { name := n, args := as, raw, expr := none }
  | expression {w w' z : Text} {e : Arithmetic.Expr} (raw : Bool) : Spaces w → Spaces w' →
      StartsExpression z → Arithmetic.parse z = .ok e →
      IsSlot ('{' :: '{' :: (w ++ ((if raw then ['@'] else []) ++ (w' ++ (z ++ slotEnd)))))
        { name := Text.trim z, args := [], raw, expr := some e }

theorem IsSlot.slotText {z : Text} {s : Slot} (h : IsSlot z s) : SlotText z s := by
  cases h with
  | reference raw hw hw' hz => exact hz.slotText hw hw' raw
  | @expression w w' z e raw hw hw' hstarts hparse =>
      have hbegins : Reader.beginsExpression (z ++ slotEnd) = true :=
        Reader.beginsExpression_iff.2 (hstarts.append slotEnd)
      obtain ⟨c, u, hcu, hwhite, hbrace, hat⟩ := (hstarts.append slotEnd).exists_cons
      refine slotText_of_inside (s := { name := Text.trim z, args := [], raw, expr := some e }) hw hw' hcu
        hbrace hat (isTagSpace_of_isWhiteSpace hwhite) fun o => ?_
      rw [Reader.run_slotInside, List.append_nil, if_pos hbegins]
      simpa using Reader.takes_expression hparse raw [] o

theorem SlotText.isSlot {z : Text} {s : Slot} (h : SlotText z s) : IsSlot z s := by
  obtain ⟨t, rfl⟩ := h.exists_cons
  have hrun := h.2 [] 0
  rw [List.append_nil] at hrun
  obtain ⟨_, c₁, h₁, hrun⟩ := Reader.exists_of_run_bind hrun
  obtain ⟨-, rfl⟩ := Prod.mk.inj (Except.ok.inj h₁)
  obtain ⟨_, c₂, h₂, hrun⟩ := Reader.exists_of_run_bind hrun
  obtain ⟨raw, c₃, h₃, hrun⟩ := Reader.exists_of_run_bind hrun
  obtain ⟨_, c₄, h₄, hrun⟩ := Reader.exists_of_run_bind hrun
  have hinside : (Reader.slotInside raw).run c₄ = _ := hrun
  obtain ⟨w, hw, hspaces⟩ := Reader.rest_of_skipSpace h₂
  obtain ⟨w', hw', hspaces'⟩ := Reader.rest_of_skipSpace h₄
  obtain rfl : t = w ++ ((if raw then ['@'] else []) ++ (w' ++ c₄.rest)) := by
    rw [← hw', ← Reader.rest_of_eat h₃, ← hw]
    rfl
  rw [Reader.run_slotInside] at hinside
  by_cases hbegins : Reader.beginsExpression c₄.rest = true
  · rw [if_pos hbegins] at hinside
    obtain ⟨z, e, hz, hparse, rfl⟩ := Reader.rest_of_expression hinside
    rw [hz] at hbegins ⊢
    exact .expression raw hspaces hspaces' (Reader.beginsExpression_iff.1 hbegins).of_append hparse
  · rw [if_neg hbegins] at hinside
    obtain ⟨z, n, as, hz, hreference, rfl⟩ := Reader.rest_of_reference hinside
    rw [hz]
    exact .reference raw hspaces hspaces' hreference

theorem Located.slotText {c : Cursor} {ns : List Node} (h : Located c ns) {s : Slot} {z : Text}
    (hs : .slot s z ∈ ns) : SlotText z s := by
  obtain ⟨c₁, next, hlead, hslot, rfl⟩ := h.exists_slot hs
  exact (slotText_of_run hlead hslot).1

theorem Node.flatMap_source_consText (ch : Char) (ns : List Node) :
    (consText ch ns).flatMap source = ch :: ns.flatMap source := by
  cases ns with
  | nil => rfl
  | cons n ns => cases n <;> rfl

/-- The sources of the nodes are the text. -/
theorem Located.flatMap_source {c : Cursor} {ns : List Node} (h : Located c ns) :
    ns.flatMap Node.source = c.rest := by
  induction h with
  | nil hc => rw [hc]; rfl
  | @text c ch rest ns hc hlead _ ih =>
      rw [Node.flatMap_source_consText, ih, hc]
      simp [Cursor.advance, hc]
  | @slot c next s ns hlead hslot _ ih =>
      rw [List.flatMap_cons, ih]
      exact (Reader.advances_slot.reaches hslot).upto_append
  | @define c next d source ns hlead hdef _ ih =>
      rw [List.flatMap_cons, ih]
      exact (source_of_definition hdef).1.symm

/-- A text is read as one slot exactly when it is one, and this slot is what it stands for. -/
theorem parse_eq_slot_iff (t z : Text) (s : Slot) :
    parse t = .ok [.slot s z] ↔ z = t ∧ IsSlot t s := by
  constructor
  · intro h
    have hlocated := located_of_parse h
    obtain rfl : z = t := by simpa [Node.source, Cursor.start] using hlocated.flatMap_source
    exact ⟨rfl, (hlocated.slotText (List.mem_singleton_self _)).isSlot⟩
  · rintro ⟨rfl, h⟩
    have hparse := parse_of_reads (Reads.slot (r := []) h.slotText .nil)
    rwa [List.append_nil] at hparse

end Stencil
