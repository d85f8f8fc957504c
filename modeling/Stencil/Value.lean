import Stencil.Text.Blank
import Stencil.Decimal.Shortest
import Stencil.Decimal.Numeral

/-! # Values

Arguments and defaults are texts or numbers. All values become text in the output; a text counts as
a number when it reads completely, without the white space around it, as a finite decimal. -/
set_option autoImplicit false
namespace Stencil

/-- Magnitudes below this bound show integral numbers by their exact digits. -/
def exactBound : Nat := Nat.pow 10 15

/-- The text of a number in the output. An integral number of small magnitude is an integer, so that
negative zero loses its sign; every other number has its shortest decimal text. -/
def formatNumber (x : Float) : Text :=
  match Decimal.integer? x with
  | some n =>
    if n.natAbs < exactBound then
      if n < 0 then '-' :: Text.ofNat n.natAbs else Text.ofNat n.natAbs
    else Decimal.text x
  | none => Decimal.text x

inductive Value where
  | text (t : Text)
  | number (x : Float)
deriving BEq, DecidableEq

namespace Value

instance : Inhabited Value := ⟨.text []⟩

def display : Value → Text
  | .text t => t
  | .number x => formatNumber x

def asNumber? : Value → Option Float
  | .number x => some x
  | .text t => (Decimal.read? (Text.trim t)).filter Decimal.isFinite

def asText? : Value → Option Text
  | .text t => some t
  | .number _ => none

def literalChar (c : Char) : Text :=
  if c = '"' then ['\\', '"']
  else if c = '\\' then ['\\', '\\']
  else if c = '\n' then ['\\', 'n']
  else if c = '\t' then ['\\', 't']
  else [c]

def literal : Value → Text
  | .number x => formatNumber x
  | .text t => '"' :: t.flatMap literalChar ++ ['"']

end Value
end Stencil
