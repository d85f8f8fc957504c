import Stencil.Tag.Literal
import Stencil.Arithmetic.Parser
import Stencil.Definition

/-! # Slots

A slot stands in double braces. It refers to a name, with arguments in parentheses if there are any,
or it holds an expression. It holds one when it begins with a digit, a parenthesis or a minus sign, or
with a name that an operator follows. An at sign in front asks for the raw value. -/
set_option autoImplicit false
namespace Stencil

structure Slot where
  /-- The name that the slot refers to, or the text of its expression. -/
  name : Text
  args : List Argument
  /-- The value is wanted as it is, not as template text. -/
  raw : Bool
  expr : Option Arithmetic.Expr
deriving BEq, DecidableEq

def Argument.source (a : Argument) : Text :=
  match a.name with
  | some n => n ++ '=' :: a.value.literal
  | none => a.value.literal

def Slot.source (s : Slot) : Text :=
  let args :=
    if s.expr.isNone ∧ s.args ≠ [] then
      '(' :: Text.join ", ".toList (s.args.map Argument.source) ++ [')']
    else []
  ['{', '{'] ++ (if s.raw then ['@'] else []) ++ s.name ++ args ++ ['}', '}']

namespace Reader

open SyntaxError (literal)

def slotEnd : Text := ['}', '}']

def isOperator (c : Char) : Bool := c = '+' || c = '-' || c = '*' || c = '/' || c = '^'

def beginsExpression (t : Text) : Bool :=
  match t with
  | [] => false
  | c :: _ =>
    if isNameStart c then
      match (t.dropWhile isNameChar).dropWhile isTagSpace with
      | [] => false
      | d :: _ => isOperator d
    else c.isDigit || c = '(' || c = '-'

def argument : Reader Argument := do
  let unnamed : Reader Argument := do return ⟨none, ← value ["identifier".toList]⟩
  match ← peek with
  | some c =>
    if isNameStart c then do
      let n ← takeWhile isNameChar
      skipSpace
      demand '=' [literal "="]
      skipSpace
      return ⟨some n, ← value []⟩
    else unnamed
  | none => unnamed

def spacedArgument : Reader Argument := do
  skipSpace
  let a ← argument
  skipSpace
  return a

theorem advances_argument : Advances argument :=
  advances_peek.bind fun o => by
    have unnamed : Advances (do return ⟨none, ← value ["identifier".toList]⟩ : Reader Argument) :=
      (advances_value _).bind fun _ => advances_pure _
    cases o with
    | none => exact unnamed
    | some c =>
      exact .ite ((advances_takeWhile _).bind fun _ => advances_skipSpace.bind fun _ =>
        (advances_demand _ _).bind fun _ => advances_skipSpace.bind fun _ =>
          (advances_value _).bind fun _ => advances_pure _) unnamed

theorem advances_spacedArgument : Advances spacedArgument :=
  advances_skipSpace.bind fun _ => advances_argument.bind fun _ =>
    advances_skipSpace.bind fun _ => advances_pure _

def argumentsFrom (c : Cursor) : Except SyntaxError (List Argument × Cursor) :=
  match _h : spacedArgument.run c with
  | .error e => .error e
  | .ok (a, next) =>
    match _hr : next.rest with
    | [] => .error (next.unexpected [literal ")", literal ","])
    | ch :: _ =>
      if ch = ',' then
        match argumentsFrom (next.advance 1) with
        | .error e => .error e
        | .ok (as, last) => .ok (a :: as, last)
      else if ch = ')' then .ok ([a], next.advance 1)
      else .error (next.unexpected [literal ")", literal ","])
termination_by c.rest.length
decreasing_by
  have := (advances_spacedArgument.reaches _h).length_le
  simp only [Cursor.advance, List.length_drop]
  rw [_hr, List.length_cons] at this ⊢
  omega

def arguments : Reader (List Argument) := do
  skip 1
  skipSpace
  if ← eat ')' then return [] else argumentsFrom

/-- The end of a slot, or failure with the alternatives. -/
def closeSlot (expected : List Text) : Reader Unit := fun c =>
  if Text.startsWith c.rest slotEnd then .ok ((), c.advance 2) else .error (c.unexpected expected)

def slotStarts (raw : Bool) : List Text :=
  if raw then Arithmetic.operands else literal "@" :: Arithmetic.operands

def reference (raw : Bool) : Reader Slot := do
  let n ← name (slotStarts raw)
  skipSpace
  let args ← if (← peek) = some '(' then do
      let args ← arguments
      skipSpace
      pure args
    else pure []
  closeSlot <|
    if args = [] then Arithmetic.operators ++ [literal "(", literal "\x7d\x7d"] else [literal "\x7d\x7d"]
  return { name := n, args, raw, expr := none }

/-- The inside and the end of a slot that holds an expression: all up to the first double brace. -/
def expression (raw : Bool) : Reader Slot := fun c =>
  match Text.before? slotEnd c.rest with
  | none => .error (c.unclosed [literal "\x7d\x7d"])
  | some inside =>
    match Arithmetic.parse inside with
    | .error e => .error (e.rebase c.offset)
    | .ok e =>
      .ok ({ name := Text.trim inside, args := [], raw, expr := some e },
        c.advance (inside.length + 2))

def slotTail : Reader Slot := do
  skipSpace
  let raw ← eat '@'
  skipSpace
  let c ← get
  if beginsExpression c.rest then expression raw else reference raw

def slot : Reader Slot := do
  skip 2
  slotTail

/-! ## Slots move forward -/

theorem advances_argumentsFrom : Advances (argumentsFrom : Reader (List Argument)) := by
  refine ⟨fun {c as c'} h => ?_⟩
  simp only [StateT.run] at h
  fun_induction argumentsFrom c generalizing as with
  | case1 => cases h
  | case2 => cases h
  | case3 => cases h
  | case4 c a next ha tail bs last hn hr ih =>
    obtain ⟨-, rfl⟩ := Prod.mk.inj (Except.ok.inj h)
    exact (advances_spacedArgument.reaches ha).trans ((next.reaches_advance 1).trans (ih hn))
  | case5 c a next ha =>
    obtain ⟨-, rfl⟩ := Prod.mk.inj (Except.ok.inj h)
    exact (advances_spacedArgument.reaches ha).trans (next.reaches_advance 1)
  | case6 => cases h

theorem advances_arguments : Advances arguments :=
  (advances_skip 1).bind fun _ => advances_skipSpace.bind fun _ => (advances_eat ')').bind fun _ =>
    .ite (advances_pure _) advances_argumentsFrom

theorem advances_closeSlot (expected : List Text) : Advances (closeSlot expected) := by
  refine ⟨fun {c a c'} h => ?_⟩
  simp only [closeSlot, StateT.run] at h
  split at h
  · obtain ⟨-, rfl⟩ := Prod.mk.inj (Except.ok.inj h)
    exact c.reaches_advance 2
  · cases h

theorem advances_expression (raw : Bool) : Advances (expression raw) := by
  refine ⟨fun {c a c'} h => ?_⟩
  simp only [expression, StateT.run] at h
  split at h
  · cases h
  · split at h
    · cases h
    · obtain ⟨-, rfl⟩ := Prod.mk.inj (Except.ok.inj h)
      exact c.reaches_advance _

theorem advances_reference (raw : Bool) : Advances (reference raw) := by
  refine (advances_name _).bind fun n => advances_skipSpace.bind fun _ =>
    advances_peek.bind fun o => ?_
  have finish (args : List Argument) : Advances (do
      closeSlot <|
        if args = [] then Arithmetic.operators ++ [literal "(", literal "\x7d\x7d"] else [literal "\x7d\x7d"]
      return { name := n, args, raw, expr := none } : Reader Slot) :=
    (advances_closeSlot _).bind fun _ => advances_pure _
  exact .ite (advances_arguments.bind fun _ => advances_skipSpace.bind fun _ =>
    (advances_pure _).bind finish) ((advances_pure _).bind finish)

theorem advances_slotTail : Advances slotTail :=
  advances_skipSpace.bind fun _ => (advances_eat '@').bind fun _ => advances_skipSpace.bind fun _ =>
    advances_get.bind fun _ => .ite (advances_expression _) (advances_reference _)

theorem advances_slot : Advances slot := (advances_skip 2).bind fun _ => advances_slotTail

theorem length_slot {c c' : Cursor} {s : Slot} (h : slot.run c = .ok (s, c')) :
    c'.rest.length ≤ c.rest.length - 2 := by
  have h' : slotTail.run (c.advance 2) = .ok (s, c') := h
  have := (advances_slotTail.reaches h').length_le
  simpa [Cursor.advance] using this

end Reader
end Stencil
