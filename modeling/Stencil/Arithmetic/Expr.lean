import Stencil.Error
import Stencil.Value

/-! # Expressions and their values

An expression is evaluated in a scope, which maps names to values. A name that the scope does not
know counts as the empty text, which is no number. -/
set_option autoImplicit false
namespace Stencil.Arithmetic

inductive Operator where
  | add
  | sub
  | mul
  | div
  | pow
deriving Repr, DecidableEq

inductive Expr where
  | number (x : Float)
  | name (t : Text)
  | neg (e : Expr)
  | binary (op : Operator) (left right : Expr)
deriving BEq, DecidableEq

def Expr.addNames (seen : List Text) : Expr → List Text
  | .number _ => seen
  | .name t => if t ∈ seen then seen else seen ++ [t]
  | .neg e => e.addNames seen
  | .binary _ left right => right.addNames (left.addNames seen)

/-- The names of the expression, each once, in the order of first use. -/
def Expr.names (e : Expr) : List Text := e.addNames []

abbrev Scope := Text → Option Value

/-- The result of an operation. Only a division by zero has none. -/
def Operator.apply (op : Operator) (left right : Float) : Except EvalError Float :=
  match op with
  | .add => .ok (left + right)
  | .sub => .ok (left - right)
  | .mul => .ok (left * right)
  | .div => if right == 0.0 then .error .divisionByZero else .ok (left / right)
  | .pow => .ok (Float.pow left right)

/-- The value of an expression. Operands are evaluated from left to right. -/
def Expr.eval (scope : Scope) : Expr → Except EvalError Float
  | .number x => .ok x
  | .name t =>
    let value := (scope t).getD default
    match value.asNumber? with
    | some x => .ok x
    | none => .error (.notANumber t value.display)
  | .neg e => do return -(← e.eval scope)
  | .binary op left right => do
    let l ← left.eval scope
    let r ← right.eval scope
    op.apply l r

end Stencil.Arithmetic
