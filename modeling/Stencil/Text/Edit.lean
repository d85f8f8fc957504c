import Stencil.Text.Basic

/-! # Edits

An edit puts a text in the place of some of the bytes of another one. Edits are made from the last place to
the first, so that the places of those that are still to be made stay where they are. -/
set_option autoImplicit false
namespace Stencil

structure Span where
  start : Nat
  stop : Nat
deriving Repr, DecidableEq

structure Edit where
  span : Span
  replacement : Text
deriving Repr, DecidableEq

namespace Edit

def apply (t : Text) (e : Edit) : Text :=
  Text.takeBytes e.span.start t ++ (e.replacement ++ Text.dropBytes e.span.stop t)

/-- Adds an edit to edits whose places come one before the other, in front of those with the same start. -/
def insert (e : Edit) : List Edit → List Edit
  | [] => [e]
  | f :: rest => if f.span.start ≤ e.span.start then e :: f :: rest else f :: insert e rest

/-- The edits, the last place first; those with the same start stay in their order. -/
def sort (es : List Edit) : List Edit := es.foldr insert []

def applyAll (t : Text) (es : List Edit) : Text := (sort es).foldl apply t

end Edit
end Stencil
