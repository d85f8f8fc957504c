import Stencil.Text.Basic
import Stencil.Decimal.Binary64

/-! # Shortest decimal digits

The text of a number has the fewest significant digits that still read back as that number, and of
all such digits the ones nearest to it; halfway between two it takes the greater. It is positional at
every size, without an exponent, and shows no point when the value is integral.

A decimal `digits · 10^grid` reads back as the number exactly when it lies in the interval of reals
that round to it. For each count of digits only the two points of the decimal grid around the number
can lie nearest, so only these are tried. -/
set_option autoImplicit false
namespace Stencil.Decimal

open Binary64

/-- The positive ratio `num / den` with the bounds `low / den` and `high / den` of the reals that
round to it; the bounds themselves belong to the interval when `closed`. -/
structure Interval where
  num : Nat
  den : Nat
  low : Nat
  high : Nat
  closed : Bool
deriving Repr

/-- The reals that round to `m · 2^e`. Below a power of two the doubles stand twice as close. -/
def Interval.ofMagnitude (m : Nat) (e : Int) : Interval :=
  let scale := Nat.pow 2 (e - 2).toNat
  let den := Nat.pow 2 (2 - e).toNat
  let below := if m = Nat.pow 2 52 ∧ -1074 < e then 1 else 2
  { num := 4 * m * scale, den
    low := (4 * m - below) * scale
    high := (4 * m + 2) * scale
    closed := m % 2 = 0 }

def Interval.holds (i : Interval) (n d : Nat) : Bool :=
  if i.closed then i.low * d ≤ n * i.den && n * i.den ≤ i.high * d
  else i.low * d < n * i.den && n * i.den < i.high * d

def leadingPlace (num den : Nat) : Int :=
  let k : Int := (Nat.toDigits 10 num).length - (Nat.toDigits 10 den).length
  if den * Nat.pow 10 k.toNat ≤ num * Nat.pow 10 (-k).toNat then k else k - 1

/-- The point of the grid of tenth powers `10^grid` that is nearest to the number among those that
read back as it. -/
def onGrid? (i : Interval) (grid : Int) : Option Nat :=
  let up := Nat.pow 10 grid.toNat
  let down := Nat.pow 10 (-grid).toNat
  let below := i.num * down / (i.den * up)
  let above := below + 1
  let hits (d : Nat) : Bool := i.holds (d * up) down
  -- twice the distance from `below`, in units of the grid, against one unit
  let upper := i.den * up ≤ 2 * (i.num * down - below * (i.den * up))
  match hits below, hits above with
  | true, true => some (if upper then above else below)
  | true, false => some below
  | false, true => some above
  | false, false => none

def search (i : Interval) : Nat → Int → Nat × Int
  | 0, grid => (i.num * Nat.pow 10 (-grid).toNat / (i.den * Nat.pow 10 grid.toNat), grid)
  | fuel + 1, grid =>
    match onGrid? i grid with
    | some digits => (digits, grid)
    | none => search i fuel (grid - 1)

/-- The digits and the place of the last digit for the positive number `m · 2^e`. Seventeen digits
always suffice. -/
def shortest (m : Nat) (e : Int) : Nat × Int :=
  let i := Interval.ofMagnitude m e
  search i 17 (leadingPlace i.num i.den)

def positional (digits : Nat) (grid : Int) : Text :=
  let shown := Text.ofNat digits
  if 0 ≤ grid then shown ++ List.replicate grid.toNat '0'
  else
    let places := (-grid).toNat
    let padded := List.replicate (places + 1 - shown.length) '0' ++ shown
    let whole := padded.take (padded.length - places)
    let fraction := (padded.drop (padded.length - places)).reverse.dropWhile (· = '0')
    if fraction.isEmpty then whole else whole ++ '.' :: fraction.reverse

def text (x : Float) : Text :=
  match unpack x with
  | .notANumber => "NaN".toList
  | .infinite negative => if negative then "-inf".toList else "inf".toList
  | .finite negative m e =>
    let shown :=
      if m = 0 then ['0']
      else
        let (digits, grid) := shortest m e
        positional digits grid
    if negative then '-' :: shown else shown

def integer? (x : Float) : Option Int :=
  match unpack x with
  | .finite negative m e =>
    let whole? :=
      if 0 ≤ e then some (m * Nat.pow 2 e.toNat)
      else if m % Nat.pow 2 (-e).toNat = 0 then some (m / Nat.pow 2 (-e).toNat)
      else none
    whole?.map fun n => if negative then -(n : Int) else n
  | _ => none

end Stencil.Decimal
