import Stencil.Tag.Opening

/-! # Where readers fail

Every reader that fails points to a place in the text that it was given, and shows the end of input exactly
behind the last character (`Pointing`). This is closed under the ways of composing readers. Only the reader of
an expression in a slot is none of these: the text that it was given ends at the double brace. -/
set_option autoImplicit false
namespace Stencil

namespace Cursor

/-- The error stands in the text behind the cursor, and shows the end of input exactly behind all of it. -/
def Points (c : Cursor) (e : SyntaxError) : Prop :=
  ∃ before after, c.rest = before ++ after ∧ e.offset = c.offset + Text.size before ∧
    (e.found = none ↔ after = [])

theorem points_unexpected (c : Cursor) (expected : List Text) : c.Points (c.unexpected expected) :=
  ⟨[], c.rest, rfl, rfl, by simp [unexpected, SyntaxError.new]⟩

theorem points_unclosed (c : Cursor) (expected : List Text) : c.Points (c.unclosed expected) :=
  ⟨c.rest, [], (List.append_nil _).symm, rfl, iff_of_true rfl rfl⟩

theorem Reaches.points {c later : Cursor} {e : SyntaxError} (h : c.Reaches later) (he : later.Points e) :
    c.Points e := by
  obtain ⟨passed, hpassed, hoffset⟩ := h
  obtain ⟨before, after, hrest, hplace, hfound⟩ := he
  refine ⟨passed ++ before, after, ?_, ?_, hfound⟩
  · rw [hpassed, hrest, List.append_assoc]
  · rw [hplace, hoffset, Text.size_append, Nat.add_assoc]

end Cursor

namespace Reader

open SyntaxError (literal)

variable {α β : Type}

structure Pointing (p : Reader α) : Prop where
  points : ∀ {c : Cursor} {e : SyntaxError}, p.run c = .error e → c.Points e

theorem pointing_pure (a : α) : Pointing (pure a : Reader α) := ⟨nofun⟩

theorem pointing_peek : Pointing peek := ⟨nofun⟩

theorem pointing_skip (n : Nat) : Pointing (skip n) := ⟨nofun⟩

theorem pointing_takeWhile (p : Char → Bool) : Pointing (takeWhile p) := ⟨nofun⟩

theorem pointing_get : Pointing (get : Reader Cursor) := ⟨nofun⟩

theorem pointing_fail (expected : List Text) : Pointing (fail expected : Reader α) := by
  refine ⟨fun {c e} h => ?_⟩
  obtain rfl := Except.error.inj h
  exact c.points_unexpected expected

theorem eat_ne_error (ch : Char) (c : Cursor) (e : SyntaxError) : (eat ch).run c ≠ .error e := by
  intro h
  simp only [eat, StateT.run] at h
  split at h <;> cases h

theorem pointing_eat (ch : Char) : Pointing (eat ch) :=
  ⟨fun {c e} h => absurd h (eat_ne_error ch c e)⟩

theorem cases_of_bind_error {p : Reader α} {f : α → Reader β} {c : Cursor} {e : SyntaxError}
    (h : (p >>= f).run c = .error e) :
    p.run c = .error e ∨ ∃ a next, p.run c = .ok (a, next) ∧ (f a).run next = .error e := by
  rw [StateT.run_bind] at h
  cases hp : p.run c with
  | error g =>
      rw [hp] at h
      obtain rfl : g = e := Except.error.inj h
      exact .inl rfl
  | ok r =>
      rw [hp] at h
      exact .inr ⟨r.1, r.2, rfl, h⟩

theorem Pointing.bind {p : Reader α} {f : α → Reader β} (hp : Pointing p) (hadvances : Advances p)
    (hf : ∀ a, Pointing (f a)) : Pointing (p >>= f) := by
  refine ⟨fun {c e} h => ?_⟩
  rcases cases_of_bind_error h with he | ⟨a, next, ha, he⟩
  · exact hp.points he
  · exact (hadvances.reaches ha).points ((hf a).points he)

theorem Pointing.map {p : Reader α} (hp : Pointing p) (hadvances : Advances p) (g : α → β) :
    Pointing (p >>= fun a => pure (g a)) := hp.bind hadvances fun _ => pointing_pure _

theorem Pointing.ite {C : Prop} [Decidable C] {p q : Reader α} (hp : Pointing p) (hq : Pointing q) :
    Pointing (if C then p else q) := by
  split <;> assumption

theorem pointing_skipSpace : Pointing skipSpace := (pointing_takeWhile _).map (advances_takeWhile _) _

theorem pointing_skipBlanks : Pointing skipBlanks := (pointing_takeWhile _).map (advances_takeWhile _) _

/-- What follows spaces points to a place if what follows them does. -/
theorem Pointing.afterSpace {f : Unit → Reader α} (hf : ∀ u, Pointing (f u)) : Pointing (skipSpace >>= f) :=
  pointing_skipSpace.bind advances_skipSpace hf

theorem Pointing.afterBlanks {f : Unit → Reader α} (hf : ∀ u, Pointing (f u)) :
    Pointing (skipBlanks >>= f) := pointing_skipBlanks.bind advances_skipBlanks hf

theorem Pointing.afterEat {ch : Char} {f : Bool → Reader α} (hf : ∀ b, Pointing (f b)) :
    Pointing (eat ch >>= f) := (pointing_eat ch).bind (advances_eat ch) hf

theorem Pointing.afterSkip {n : Nat} {f : Unit → Reader α} (hf : ∀ u, Pointing (f u)) :
    Pointing (skip n >>= f) := (pointing_skip n).bind (advances_skip n) hf

theorem Pointing.afterPeek {f : Option Char → Reader α} (hf : ∀ o, Pointing (f o)) :
    Pointing (peek >>= f) := pointing_peek.bind advances_peek hf

theorem pointing_demand (ch : Char) (expected : List Text) : Pointing (demand ch expected) :=
  .afterEat fun _ => .ite (pointing_pure _) (pointing_fail _)

theorem pointing_name (expected : List Text) : Pointing (name expected) :=
  .afterPeek fun o => by
    cases o with
    | none => exact pointing_fail _
    | some c => exact .ite (pointing_takeWhile _) (pointing_fail _)

theorem pointing_string : Pointing string := by
  refine ⟨fun {c e} h => ?_⟩
  simp only [string, StateT.run] at h
  split at h
  · cases h
  · obtain rfl := Except.error.inj h
    exact c.points_unclosed _

theorem pointing_numeral (negative : Bool) : Pointing (numeral negative) := by
  refine ⟨fun {c e} h => ?_⟩
  simp only [numeral, StateT.run] at h
  split at h
  · obtain rfl := Except.error.inj h
    exact c.points_unexpected _
  · cases h

theorem pointing_value (also : List Text) : Pointing (value also) :=
  .afterPeek fun o => by
    cases o with
    | none => exact pointing_fail _
    | some c =>
        exact .ite (pointing_string.map advances_string _)
          (.ite ((Pointing.afterEat pointing_numeral).map advances_number _) (pointing_fail _))

/-! ### Slots that refer to a name -/

theorem pointing_argument : Pointing argument :=
  .afterPeek fun o => by
    have unnamed : Pointing (do return ⟨none, ← value ["identifier".toList]⟩ : Reader Argument) :=
      (pointing_value _).map (advances_value _) _
    cases o with
    | none => exact unnamed
    | some c =>
        exact .ite ((pointing_takeWhile _).bind (advances_takeWhile _) fun _ => .afterSpace fun _ =>
          (pointing_demand _ _).bind (advances_demand _ _) fun _ => .afterSpace fun _ =>
            (pointing_value _).map (advances_value _) _) unnamed

theorem pointing_spacedArgument : Pointing spacedArgument :=
  .afterSpace fun _ => pointing_argument.bind advances_argument fun _ =>
    .afterSpace fun _ => pointing_pure _

theorem pointing_argumentsFrom : Pointing (argumentsFrom : Reader (List Argument)) := by
  refine ⟨fun {c e} h => ?_⟩
  simp only [StateT.run] at h
  fun_induction argumentsFrom c with
  | case1 c f hf =>
      obtain rfl := Except.error.inj h
      exact pointing_spacedArgument.points hf
  | case2 c a next ha =>
      obtain rfl := Except.error.inj h
      exact (advances_spacedArgument.reaches ha).points (next.points_unexpected _)
  | case3 c a next ha tail g hg hr ih =>
      obtain rfl := Except.error.inj h
      exact (advances_spacedArgument.reaches ha).points ((next.reaches_advance 1).points (ih hg))
  | case4 => cases h
  | case5 => cases h
  | case6 c a next ha =>
      obtain rfl := Except.error.inj h
      exact (advances_spacedArgument.reaches ha).points (next.points_unexpected _)

theorem pointing_arguments : Pointing arguments :=
  .afterSkip fun _ => .afterSpace fun _ => .afterEat fun _ =>
    .ite (pointing_pure _) pointing_argumentsFrom

theorem pointing_closeSlot (expected : List Text) : Pointing (closeSlot expected) := by
  refine ⟨fun {c e} h => ?_⟩
  simp only [closeSlot, StateT.run] at h
  split at h
  · cases h
  · obtain rfl := Except.error.inj h
    exact c.points_unexpected expected

theorem pointing_reference (raw : Bool) : Pointing (reference raw) := by
  refine (pointing_name _).bind (advances_name _) fun n => .afterSpace fun _ => .afterPeek fun o => ?_
  have finish (args : List Argument) : Pointing (do
      closeSlot <|
        if args = [] then Arithmetic.operators ++ [literal "(", literal "\x7d\x7d"] else [literal "\x7d\x7d"]
      return { name := n, args, raw, expr := none } : Reader Slot) :=
    (pointing_closeSlot _).map (advances_closeSlot _) _
  exact .ite
    (pointing_arguments.bind advances_arguments fun args => .afterSpace fun _ =>
      (pointing_pure args).bind (advances_pure args) finish)
    ((pointing_pure []).bind (advances_pure []) finish)

/-! ### Definition tags -/

theorem pointing_closeBrace : Pointing closeBrace := pointing_demand _ _

theorem pointing_parameter (defaulted : Bool) : Pointing (parameter defaulted) :=
  .afterSpace fun _ => (pointing_name _).bind (advances_name _) fun _ => .afterSpace fun _ =>
    .afterEat fun _ => .ite
      (.afterSpace fun _ => (pointing_value _).bind (advances_value _) fun _ =>
        .afterSpace fun _ => pointing_pure _)
      (.ite (pointing_fail _) (pointing_pure _))

theorem pointing_parametersFrom (defaulted : Bool) :
    Pointing (parametersFrom defaulted : Reader Params) := by
  refine ⟨fun {c e} h => ?_⟩
  simp only [StateT.run] at h
  fun_induction parametersFrom defaulted c with
  | case1 defaulted c f hf =>
      obtain rfl := Except.error.inj h
      exact (pointing_parameter defaulted).points hf
  | case2 defaulted c a next ha =>
      obtain rfl := Except.error.inj h
      exact ((advances_parameter defaulted).reaches ha).points (next.points_unexpected _)
  | case3 defaulted c a next ha tail g hg hr ih =>
      obtain rfl := Except.error.inj h
      exact ((advances_parameter defaulted).reaches ha).points ((next.reaches_advance 1).points (ih hg))
  | case4 => cases h
  | case5 => cases h
  | case6 defaulted c a next ha =>
      obtain rfl := Except.error.inj h
      exact ((advances_parameter defaulted).reaches ha).points (next.points_unexpected _)

theorem pointing_parameters : Pointing parameters :=
  .afterSkip fun _ => .afterSpace fun _ => .afterEat fun _ =>
    .ite (pointing_pure _) (pointing_parametersFrom false)

theorem pointing_form : Pointing form := by
  refine .afterPeek fun o => ?_
  have close (f : Form) : Pointing (do closeBrace; return f : Reader Form) :=
    pointing_closeBrace.map advances_closeBrace _
  split
  · exact .afterSkip fun _ => .afterSpace fun _ => (pointing_value _).bind (advances_value _) fun _ =>
      .afterSpace fun _ => close _
  · exact pointing_parameters.bind advances_parameters fun _ => .afterSpace fun _ => close _
  · exact .afterSkip fun _ => pointing_pure _
  · exact pointing_fail _

theorem pointing_opening : Pointing opening :=
  .afterSkip fun _ => .afterBlanks fun _ => .afterEat fun _ => .afterBlanks fun _ =>
    (pointing_name _).bind (advances_name _) fun _ => .afterSpace fun _ =>
      pointing_form.map advances_form _

theorem pointing_closing : Pointing closing :=
  .afterSkip fun _ => .afterBlanks fun _ => pointing_get.bind advances_get fun _ =>
    .afterEat fun _ => .afterBlanks fun _ => (pointing_name _).bind (advances_name _) fun _ =>
      .afterBlanks fun _ => pointing_closeBrace.map advances_closeBrace _

end Reader

end Stencil
