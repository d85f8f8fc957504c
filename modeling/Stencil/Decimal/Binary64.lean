/-! # Double-precision numbers

A finite double is a sign and a magnitude `m · 2^e` with `m < 2^53` and `-1074 ≤ e`. `unpack` takes
a number apart, and `ofRatio` finds the double nearest to a ratio of natural numbers; a ratio halfway
between two doubles goes to the one with the even mantissa, and one beyond the largest double to
infinity. Powers are written `Nat.pow`: the operator may stand for the power of a monoid. -/
set_option autoImplicit false
namespace Stencil.Binary64

inductive Parts where
  /-- The number `± mantissa · 2^exponent`. -/
  | finite (negative : Bool) (mantissa : Nat) (exponent : Int)
  | infinite (negative : Bool)
  | notANumber
deriving Repr, DecidableEq

def unpack (x : Float) : Parts :=
  let bits := x.toBits.toNat
  let negative := decide (Nat.pow 2 63 ≤ bits)
  let biased : Nat := bits / Nat.pow 2 52 % Nat.pow 2 11
  let fraction := bits % Nat.pow 2 52
  if biased = 0x7ff then
    if fraction = 0 then .infinite negative else .notANumber
  else if biased = 0 then .finite negative fraction (-1074)
  else .finite negative (fraction + Nat.pow 2 52) ((biased : Int) - 1075)

/-- The integer nearest to `num / den`; halfway between two it is the even one. -/
def roundEven (num den : Nat) : Nat :=
  let q := num / den
  let twice := 2 * (num % den)
  if den < twice then q + 1
  else if twice = den then q + q % 2
  else q

def overPowerOfTwo (num den : Nat) (e : Int) : Nat × Nat :=
  if 0 ≤ e then (num, den * Nat.pow 2 e.toNat) else (num * Nat.pow 2 (-e).toNat, den)

/-- The exponent of the doubles around a positive ratio: the ratio over `2^e` lies below `2^53`, and
not below `2^52` unless `e` is the least exponent. -/
def exponentFor (num den : Nat) : Int :=
  let e : Int := (num.log2 : Int) - den.log2 - 53
  let (n, d) := overPowerOfTwo num den e
  max (-1074) (if Nat.pow 2 53 ≤ n / d then e + 1 else e)

/-- The bits of infinity; every finite magnitude has smaller bits. -/
def infinityBits : Nat := 0x7ff * Nat.pow 2 52

/-- The double nearest to `num / den`, with the given sign. Adding the rounded mantissa to the
shifted exponent also carries into the exponent where the mantissa rounds up to `2^53`. -/
def ofRatio (negative : Bool) (num den : Nat) : Float :=
  let magnitude :=
    if num = 0 then 0
    else
      let e := exponentFor num den
      let (n, d) := overPowerOfTwo num den e
      min infinityBits ((e + 1074).toNat * Nat.pow 2 52 + roundEven n d)
  Float.ofBits (UInt64.ofNat (magnitude + if negative then Nat.pow 2 63 else 0))

end Stencil.Binary64
