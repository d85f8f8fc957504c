import Stencil.Text.Printable

/-! # Quoted text

The form in which messages show a piece of input: in double quotes, with short escapes for the
quote, the backslash and four control characters, and the code point in braces for every other
character that is not printable. -/
set_option autoImplicit false
namespace Stencil.Text

def quoteChar (c : Char) : Text :=
  if c = '"' then ['\\', '"']
  else if c = '\\' then ['\\', '\\']
  else if c = '\n' then ['\\', 'n']
  else if c = '\r' then ['\\', 'r']
  else if c = '\t' then ['\\', 't']
  else if c = '\x00' then ['\\', '0']
  else if isPrintable c then [c]
  else '\\' :: 'u' :: '{' :: Nat.toDigits 16 c.toNat ++ ['}']

def quoted (t : Text) : Text := '"' :: t.flatMap quoteChar ++ ['"']

end Stencil.Text
