import Stencil.Text.Basic

/-! # Blanks

Three sets of blank characters are in use: the two blanks of a line (space and tab), the ASCII
whitespace characters, and the characters with the Unicode property White_Space, which are the ones
that `trim` removes from both ends of a text. -/
set_option autoImplicit false
namespace Stencil

def isLineBlank (c : Char) : Bool := c = ' ' || c = '\t'

/-- Whitespace inside a tag: a blank or a line break character. -/
def isTagSpace (c : Char) : Bool := c = ' ' || c = '\t' || c = '\r' || c = '\n'

def isAsciiSpace (c : Char) : Bool :=
  c = ' ' || c = '\t' || c = '\n' || c = '\x0c' || c = '\r'

/-- The characters with the Unicode property White_Space. -/
def isWhiteSpace (c : Char) : Bool :=
  let n := c.toNat
  (0x09 ≤ n && n ≤ 0x0d) || n = 0x20 || n = 0x85 || n = 0xa0 || n = 0x1680 ||
  (0x2000 ≤ n && n ≤ 0x200a) || n = 0x2028 || n = 0x2029 || n = 0x202f || n = 0x205f || n = 0x3000

namespace Text

def trimStart (t : Text) : Text := t.dropWhile isWhiteSpace

def trimEnd (t : Text) : Text := (t.reverse.dropWhile isWhiteSpace).reverse

def trim (t : Text) : Text := trimEnd (trimStart t)

end Text

theorem isWhiteSpace_of_isAsciiSpace {c : Char} (h : isAsciiSpace c = true) :
    isWhiteSpace c = true := by
  simp only [isAsciiSpace, Bool.or_eq_true, decide_eq_true_eq] at h
  rcases h with (((rfl | rfl) | rfl) | rfl) | rfl <;> decide

/-- Whatever counts as space inside a tag is ASCII whitespace. -/
theorem isAsciiSpace_of_isTagSpace {c : Char} (h : isTagSpace c = true) :
    isAsciiSpace c = true := by
  simp only [isTagSpace, Bool.or_eq_true, decide_eq_true_eq] at h
  rcases h with ((rfl | rfl) | rfl) | rfl <;> decide

end Stencil
