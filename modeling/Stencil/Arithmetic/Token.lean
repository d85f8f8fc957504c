import Stencil.Decimal.Numeral
import Stencil.Value

/-! # Tokens of an expression

Numerals and names extend as far as they can; spaces, tabs and line breaks separate tokens; a
character that begins no token is a token of its own, which no expression accepts. -/
set_option autoImplicit false
namespace Stencil

def isNameStart (c : Char) : Bool := c.isAlpha || c = '_'

def isNameChar (c : Char) : Bool := c.isAlphanum || c = '_'

namespace Arithmetic

inductive Token where
  | number (x : Float)
  | name (t : Text)
  | plus
  | minus
  | star
  | slash
  | caret
  | opening
  | closing
  | other (c : Char)
deriving DecidableEq

def Token.display : Token → Text
  | .number x => formatNumber x
  | .name t => t
  | .plus => ['+']
  | .minus => ['-']
  | .star => ['*']
  | .slash => ['/']
  | .caret => ['^']
  | .opening => ['(']
  | .closing => [')']
  | .other c => [c]

structure Lexeme where
  token : Token
  offset : Nat
deriving DecidableEq

/-- The token of a character that is neither part of a numeral nor of a name. -/
def signToken (c : Char) : Token :=
  match c with
  | '+' => .plus
  | '-' => .minus
  | '*' => .star
  | '/' => .slash
  | '^' => .caret
  | '(' => .opening
  | ')' => .closing
  | c => .other c

def lexFrom (offset : Nat) (t : Text) : List Lexeme :=
  match t with
  | [] => []
  | c :: rest =>
    if isTagSpace c then lexFrom (offset + c.utf8Size) rest
    else if c.isDigit then
      match _h : Decimal.splitNumeral rest with
      | (whole, fraction, after) =>
        ⟨.number (Decimal.ofNumeral false (c :: whole) fraction), offset⟩ ::
          lexFrom (offset + (1 + rest.length - after.length)) after
    else if isNameStart c then
      let more := rest.takeWhile isNameChar
      ⟨.name (c :: more), offset⟩ ::
        lexFrom (offset + (1 + more.length)) (rest.dropWhile isNameChar)
    else ⟨signToken c, offset⟩ :: lexFrom (offset + c.utf8Size) rest
termination_by t.length
decreasing_by
  · simp
  · have := Decimal.length_splitNumeral rest
    rw [_h] at this
    simp only [List.length_cons] at this ⊢
    omega
  · have := (List.dropWhile_sublist isNameChar (l := rest)).length_le
    simp only [List.length_cons]
    omega
  · simp

def lex (t : Text) : List Lexeme := lexFrom 0 t

end Arithmetic
end Stencil
