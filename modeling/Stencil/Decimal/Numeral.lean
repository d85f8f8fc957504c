import Stencil.Text.Basic
import Stencil.Decimal.Binary64

/-! # Reading decimal numbers

A decimal reads as the double nearest to it. `ofNumeral` serves the numerals of a template, which
are digits with an optional fraction; `read?` serves the text of a variable, which may also have a
sign, an exponent, and digits on one side of the point only. -/
set_option autoImplicit false
namespace Stencil.Decimal

open Binary64

/-- The double nearest to `± digits · 10^grid`. A magnitude of more than 310 places is beyond the
largest double and one that begins after 330 places rounds to zero, so no larger power is built. -/
def nearest (negative : Bool) (digits : Nat) (grid : Int) : Float :=
  let places : Int := (Nat.toDigits 10 digits).length + grid
  if digits = 0 ∨ places < -330 then ofRatio negative 0 1
  else if 310 < places then ofRatio negative (Nat.pow 10 310) 1
  else ofRatio negative (digits * Nat.pow 10 grid.toNat) (Nat.pow 10 (-grid).toNat)

def ofNumeral (negative : Bool) (whole fraction : Text) : Float :=
  nearest negative (Text.digitsValue (whole ++ fraction)) (-(fraction.length : Int))

/-- The longest numeral at the front of the text, as its digits before and behind the point, and the
text after it. A point belongs to the numeral only if a digit follows. -/
def splitNumeral (t : Text) : Text × Text × Text :=
  let whole := t.takeWhile Char.isDigit
  let after := t.dropWhile Char.isDigit
  match after with
  | '.' :: rest =>
    let fraction := rest.takeWhile Char.isDigit
    if fraction = [] then (whole, [], after) else (whole, fraction, rest.dropWhile Char.isDigit)
  | _ => (whole, [], after)

theorem length_splitNumeral (t : Text) : (splitNumeral t).2.2.length ≤ t.length := by
  have hle := (List.dropWhile_sublist Char.isDigit (l := t)).length_le
  simp only [splitNumeral]
  split
  next rest h =>
    split
    · simpa [h] using hle
    · have := (List.dropWhile_sublist Char.isDigit (l := rest)).length_le
      rw [h, List.length_cons] at hle
      simp only
      omega
  · exact hle

def readSign : Text → Bool × Text
  | '-' :: rest => (true, rest)
  | '+' :: rest => (false, rest)
  | t => (false, t)

def readExponent? : Text → Option Int
  | [] => some 0
  | c :: rest =>
    if c = 'e' ∨ c = 'E' then
      let (negative, digits) := readSign rest
      if digits ≠ [] ∧ digits.all Char.isDigit then
        let n : Int := Text.digitsValue digits
        some (if negative then -n else n)
      else none
    else none

/-- Reads a whole text as a decimal: an optional sign, digits with an optional point (at least one
digit), an optional exponent. -/
def read? (t : Text) : Option Float :=
  let (negative, unsigned) := readSign t
  let whole := unsigned.takeWhile Char.isDigit
  let afterWhole := unsigned.dropWhile Char.isDigit
  let (fraction, afterFraction) :=
    match afterWhole with
    | '.' :: rest => (rest.takeWhile Char.isDigit, rest.dropWhile Char.isDigit)
    | rest => ([], rest)
  if whole.isEmpty && fraction.isEmpty then none
  else
    (readExponent? afterFraction).map fun exponent =>
      nearest negative (Text.digitsValue (whole ++ fraction)) (exponent - fraction.length)

def isFinite (x : Float) : Bool :=
  match unpack x with
  | .finite .. => true
  | _ => false

end Stencil.Decimal
