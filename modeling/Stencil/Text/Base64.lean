import Stencil.Text.Utf8

/-! # Base 64

Three bytes are four digits of six bits each. At the end one or two bytes are two or three digits,
and equals signs fill up to four. -/
set_option autoImplicit false
namespace Stencil.Base64

def digit (n : Nat) : Char :=
  if n < 26 then Char.ofNat ('A'.toNat + n)
  else if n < 52 then Char.ofNat ('a'.toNat + (n - 26))
  else if n < 62 then Char.ofNat ('0'.toNat + (n - 52))
  else if n = 62 then '+'
  else '/'

/-- The digit of a number at the place `i`, counted from the right. -/
def digitAt (n i : Nat) : Char := digit (n / Nat.pow 64 i % 64)

def encode : Bytes → Text
  | [] => []
  | [a] =>
    let n := a.toNat * 0x10000
    [digitAt n 3, digitAt n 2, '=', '=']
  | [a, b] =>
    let n := a.toNat * 0x10000 + b.toNat * 0x100
    [digitAt n 3, digitAt n 2, digitAt n 1, '=']
  | a :: b :: c :: rest =>
    let n := a.toNat * 0x10000 + b.toNat * 0x100 + c.toNat
    digitAt n 3 :: digitAt n 2 :: digitAt n 1 :: digitAt n 0 :: encode rest

/-- Every three bytes begun take four characters. -/
theorem length_encode (bytes : Bytes) : (encode bytes).length = (bytes.length + 2) / 3 * 4 := by
  fun_induction encode bytes with
  | case1 => rfl
  | case2 => simp
  | case3 => simp
  | case4 a b c rest n ih =>
    simp only [List.length_cons, ih]
    omega

end Stencil.Base64
