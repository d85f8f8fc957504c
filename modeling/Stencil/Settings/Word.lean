import Stencil.Text.Blank

/-! # Words

The values of a setting are words with blanks between them. A part of a word that stands in double
quotes may hold blanks; there a backslash takes the next character as it is. A word may be empty if it
has quotes. Quotes that nothing closes reach to the end. -/
set_option autoImplicit false
namespace Stencil.Words

inductive Mode where
  | bare
  | quoted
  /-- Behind a backslash in quotes. -/
  | escaped
deriving Repr, DecidableEq

/-- Splits the rest of a text into words. `word` is what has been read of the current word, if one has
begun. -/
def splitFrom (word : Option Text) : Mode → Text → List Text
  | _, [] => word.toList
  | .bare, c :: rest =>
    if c = '"' then splitFrom (some (word.getD [])) .quoted rest
    else if isAsciiSpace c then word.toList ++ splitFrom none .bare rest
    else splitFrom (some (word.getD [] ++ [c])) .bare rest
  | .quoted, c :: rest =>
    if c = '"' then splitFrom word .bare rest
    else if c = '\\' then splitFrom word .escaped rest
    else splitFrom (some (word.getD [] ++ [c])) .quoted rest
  | .escaped, c :: rest => splitFrom (some (word.getD [] ++ [c])) .quoted rest

def split (t : Text) : List Text := splitFrom none .bare t

def quoteChar (c : Char) : Text := if c = '"' ∨ c = '\\' then ['\\', c] else [c]

def quote (word : Text) : Text := '"' :: word.flatMap quoteChar ++ ['"']

def write (words : List Text) : Text := Text.join [' '] (words.map quote)

end Stencil.Words
