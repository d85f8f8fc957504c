import Stencil.Proofs.Arithmetic.Alternatives
import Stencil.Proofs.Tag.Errors

/-! # Readers that do not contradict themselves

A reader that fails lists what it would have taken. Most readers have tried all of that where they stand, so
that what they show is none of it (`Fair`). This is closed under composition: what a reader has found out of
the text in front of it is known to those behind it (`Fair.bind`). -/
set_option autoImplicit false
namespace Stencil

open SyntaxError (Covers literal)

namespace Cursor

theorem contradicts_unexpected {c : Cursor} {expected : List Text} : (c.unexpected expected).Contradicts ↔
    ∃ ch, c.rest.head? = some ch ∧ ∃ alternative ∈ expected, Covers alternative [ch] := by
  rw [unexpected, SyntaxError.contradicts_new]
  cases c.rest with
  | nil => simp
  | cons ch rest => simp

theorem not_contradicts_unclosed (c : Cursor) (expected : List Text) :
    ¬(c.unclosed expected).Contradicts := by
  rw [unclosed, SyntaxError.contradicts_new]
  simp

end Cursor

namespace Reader

variable {α β : Type} {c : Cursor} {e : SyntaxError}

/-! ## Fair readers -/

/-- The reader does not fail here with an error that expects what it shows. -/
def Fair (p : Reader α) (c : Cursor) : Prop := ∀ e, p.run c = .error e → ¬e.Contradicts

theorem fair_pure (a : α) (c : Cursor) : Fair (pure a) c := nofun

theorem fair_skip (n : Nat) (c : Cursor) : Fair (skip n) c := nofun

theorem fair_takeWhile (p : Char → Bool) (c : Cursor) : Fair (takeWhile p) c := nofun

theorem fair_skipSpace (c : Cursor) : Fair skipSpace c := nofun

theorem fair_skipBlanks (c : Cursor) : Fair skipBlanks c := nofun

theorem fair_peek (c : Cursor) : Fair peek c := nofun

theorem fair_get (c : Cursor) : Fair get c := nofun

theorem fair_eat (ch : Char) (c : Cursor) : Fair (eat ch) c :=
  fun e h => absurd h (eat_ne_error ch c e)

theorem fair_fail {expected : List Text}
    (h : ∀ ch, c.rest.head? = some ch → ∀ a ∈ expected, ¬Covers a [ch]) :
    Fair (fail expected : Reader α) c := by
  intro e he
  obtain rfl := Except.error.inj he
  rw [Cursor.contradicts_unexpected]
  rintro ⟨ch, hch, a, ha, hcovers⟩
  exact h ch hch a ha hcovers

theorem fair_fail_of_head? {expected : List Text} {ch : Char} (hhead : c.rest.head? = some ch)
    (h : ∀ a ∈ expected, ¬Covers a [ch]) : Fair (fail expected : Reader α) c := by
  refine fair_fail fun d hd => ?_
  obtain rfl : ch = d := Option.some.inj (hhead.symm.trans hd)
  exact h

/-- An error that expects what it shows comes from behind a fair reader. -/
theorem exists_of_bind_error {p : Reader α} {f : α → Reader β} (hp : Fair p c)
    (h : (p >>= f).run c = .error e) (he : e.Contradicts) :
    ∃ a next, p.run c = .ok (a, next) ∧ (f a).run next = .error e := by
  rcases cases_of_bind_error h with hfail | hlater
  · exact absurd he (hp e hfail)
  · exact hlater

theorem Fair.bind {p : Reader α} {f : α → Reader β} (hp : Fair p c)
    (hf : ∀ a next, p.run c = .ok (a, next) → Fair (f a) next) : Fair (p >>= f) c := by
  intro e h he
  obtain ⟨a, next, ha, hfail⟩ := exists_of_bind_error hp h he
  exact hf a next ha e hfail he

theorem Fair.map {p : Reader α} (hp : Fair p c) (g : α → β) : Fair (p >>= fun a => pure (g a)) c :=
  hp.bind fun _ _ _ => fair_pure _ _

theorem Fair.afterSpace {f : Unit → Reader α} (hf : ∀ next, Fair (f ()) next) : Fair (skipSpace >>= f) c :=
  (fair_skipSpace c).bind fun _ next _ => hf next

theorem Fair.afterPeek {f : Option Char → Reader α} (hf : Fair (f c.rest.head?) c) : Fair (peek >>= f) c := by
  refine (fair_peek c).bind fun o next h => ?_
  obtain ⟨rfl, rfl⟩ := Prod.mk.inj (Except.ok.inj h)
  exact hf

theorem Fair.afterEat {ch : Char} {f : Bool → Reader α} (htrue : ∀ next, Fair (f true) next)
    (hfalse : c.rest.head? ≠ some ch → Fair (f false) c) : Fair (eat ch >>= f) c := by
  refine (fair_eat ch c).bind fun b next h => ?_
  cases b with
  | true => exact htrue next
  | false =>
      obtain ⟨rfl, hne⟩ := head?_ne_of_eat h
      exact hfalse hne

theorem not_covers_sign_of_head? {ch d : Char} (hne : c.rest.head? ≠ some ch) (hd : c.rest.head? = some d) :
    ¬Covers ['"', ch, '"'] [d] := by
  rw [SyntaxError.covers_sign]
  rintro rfl
  exact hne hd

theorem fair_demand (ch : Char) (c : Cursor) : Fair (demand ch [['"', ch, '"']]) c := by
  refine .afterEat (fun next => fair_pure _ next) fun hne => fair_fail fun d hd => ?_
  exact List.forall_mem_singleton.2 (not_covers_sign_of_head? hne hd)

theorem fair_closeBrace (c : Cursor) : Fair closeBrace c := fair_demand '}' c

theorem fair_name {expected : List Text}
    (h : ∀ ch, c.rest.head? = some ch → isNameStart ch = false → ∀ a ∈ expected, ¬Covers a [ch]) :
    Fair (name expected) c := by
  refine .afterPeek ?_
  cases hhead : c.rest.head? with
  | none => exact fair_fail (by simp [hhead])
  | some ch =>
      by_cases hstart : isNameStart ch = true
      · simp only [if_pos hstart]
        exact fair_takeWhile _ c
      · simp only [if_neg hstart]
        exact fair_fail_of_head? hhead (h ch hhead (Bool.eq_false_iff.2 hstart))

theorem not_covers_identifier {ch : Char} (h : isNameStart ch = false) : ¬Covers identifier [ch] := by
  unfold identifier
  simp [Covers, h]

theorem fair_identifier (c : Cursor) : Fair (name [identifier]) c :=
  fair_name fun _ _ hstart => List.forall_mem_singleton.2 (not_covers_identifier hstart)

/-! ### Values and arguments -/

theorem fair_string (c : Cursor) : Fair string c := by
  intro e h
  simp only [string, StateT.run] at h
  split at h
  · cases h
  · obtain rfl := Except.error.inj h
    exact c.not_contradicts_unclosed _

/-- What begins no number has no digit in front. -/
theorem isDigit_of_splitNumeral {t fraction after : Text} {ch : Char}
    (h : Decimal.splitNumeral t = ([], fraction, after)) (hch : t.head? = some ch) : ch.isDigit = false := by
  obtain ⟨t, rfl⟩ := List.head?_eq_some_iff.1 hch
  rw [Bool.eq_false_iff]
  intro hdigit
  rw [Arithmetic.splitNumeral_cons hdigit] at h
  cases h

theorem fair_numeral (negative : Bool) (c : Cursor) : Fair (numeral negative) c := by
  intro e h
  simp only [numeral, StateT.run] at h
  split at h
  next hsplit =>
    obtain rfl := Except.error.inj h
    rw [Cursor.contradicts_unexpected]
    rintro ⟨ch, hch, a, ha, hcovers⟩
    obtain rfl := List.mem_singleton.1 ha
    simp [Covers, isDigit_of_splitNumeral hsplit hch] at hcovers
  next => cases h

theorem fair_number (c : Cursor) : Fair number c :=
  (fair_eat '-' c).bind fun negative next _ => fair_numeral negative next

theorem fair_value {also : List Text} (h : ∀ ch, c.rest.head? = some ch → ∀ a ∈ also, ¬Covers a [ch]) :
    Fair (value also) c := by
  refine .afterPeek ?_
  cases hhead : c.rest.head? with
  | none => exact fair_fail (by simp [hhead])
  | some ch =>
      by_cases hquote : ch = '"'
      · simp only [if_pos hquote]
        exact (fair_string c).map Value.text
      · simp only [if_neg hquote]
        by_cases hnumber : ch = '-' ∨ ch.isDigit = true
        · simp only [if_pos hnumber]
          exact (fair_number c).map Value.number
        · simp only [if_neg hnumber]
          rw [not_or] at hnumber
          refine fair_fail_of_head? hhead ?_
          rw [List.forall_mem_cons, List.forall_mem_cons]
          refine ⟨?_, ?_, h ch hhead⟩
          · simp [Covers, hnumber]
          · simp [Covers, hquote]

theorem fair_plainValue (c : Cursor) : Fair (value []) c := fair_value (by simp)

theorem fair_argument (c : Cursor) : Fair argument c := by
  refine .afterPeek ?_
  have hunnamed : (∀ ch, c.rest.head? = some ch → isNameStart ch = false) →
      Fair (do return ⟨none, ← value ["identifier".toList]⟩ : Reader Argument) c := by
    intro hstart
    refine (fair_value fun ch hch => ?_).map fun v => Argument.mk none v
    simp [Covers, hstart ch hch]
  cases hhead : c.rest.head? with
  | none => exact hunnamed (by simp [hhead])
  | some ch =>
      by_cases hstart : isNameStart ch = true
      · simp only [if_pos hstart]
        refine (fair_takeWhile _ c).bind fun _ next _ => .afterSpace fun next => ?_
        refine (fair_demand '=' next).bind fun _ next _ => .afterSpace fun next => ?_
        exact (fair_plainValue next).map fun v => Argument.mk _ v
      · simp only [if_neg hstart]
        refine hunnamed fun d hd => ?_
        obtain rfl : ch = d := Option.some.inj (hhead.symm.trans hd)
        exact Bool.eq_false_iff.2 hstart

theorem fair_spacedArgument (c : Cursor) : Fair spacedArgument c :=
  .afterSpace fun next => (fair_argument next).bind fun _ _ _ => .afterSpace fun next => fair_pure _ next

theorem fair_argumentsFrom (c : Cursor) : Fair (argumentsFrom : Reader (List Argument)) c := by
  intro e h
  simp only [StateT.run] at h
  fun_induction argumentsFrom c with
  | case1 c f hf =>
      obtain rfl := Except.error.inj h
      exact fair_spacedArgument c f hf
  | case2 c a next ha hr =>
      obtain rfl := Except.error.inj h
      simp [Cursor.contradicts_unexpected, hr]
  | case3 c a next ha tail g hg hr ih =>
      obtain rfl := Except.error.inj h
      exact ih hg
  | case4 => cases h
  | case5 => cases h
  | case6 c a next ha ch tail hr hcomma hparen =>
      obtain rfl := Except.error.inj h
      simp [Cursor.contradicts_unexpected, hr, Covers, literal, Ne.symm hcomma, Ne.symm hparen]

theorem fair_arguments (c : Cursor) : Fair arguments c :=
  (fair_skip 1 c).bind fun _ _ _ => .afterSpace fun next =>
    (fair_eat ')' next).bind fun b last _ => by
      cases b with
      | true => exact fair_pure _ last
      | false => exact fair_argumentsFrom last

/-! ### Expressions and closing tags -/

theorem fair_expression (raw : Bool) (c : Cursor) : Fair (expression raw) c := by
  intro e h
  simp only [expression, StateT.run] at h
  split at h
  next =>
    obtain rfl := Except.error.inj h
    exact c.not_contradicts_unclosed _
  next inside hinside =>
    split at h
    next f hf =>
      obtain rfl := Except.error.inj h
      rw [SyntaxError.contradicts_rebase]
      exact Arithmetic.not_contradicts_of_parse hf
    next => cases h

theorem fair_closing (c : Cursor) : Fair closing c :=
  (fair_skip 1 c).bind fun _ c₁ _ => (fair_skipBlanks c₁).bind fun _ c₂ _ => (fair_get c₂).bind fun _ c₃ _ =>
    (fair_eat '/' c₃).bind fun _ c₄ _ => (fair_skipBlanks c₄).bind fun _ c₅ _ =>
      (fair_identifier c₅).bind fun _ c₆ _ => (fair_skipBlanks c₆).bind fun _ c₇ _ =>
        (fair_closeBrace c₇).map fun _ => _

end Reader
end Stencil
