import Stencil.Text.Basic

/-! # Paths

A path is a text with slashes between its components. Slashes at its end, doubled ones, and single
dots behind a slash name nothing of their own. -/
set_option autoImplicit false
namespace Stencil

abbrev Path := Text

namespace Path

def isAbsolute (p : Path) : Bool := p.head? = some '/'

def join (base p : Path) : Path :=
  if isAbsolute p then p
  else if base = [] ∨ base.getLast? = some '/' then base ++ p
  else base ++ '/' :: p

/-- A reversed path without the slashes and the `/.` at its end; the root stays. -/
def trimEnd : Text → Text
  | ['/'] => ['/']
  | '/' :: c :: rest => trimEnd (c :: rest)
  | '.' :: '/' :: rest => trimEnd ('/' :: rest)
  | p => p

def fileName? (p : Path) : Option Text :=
  let name := ((trimEnd p.reverse).takeWhile (· ≠ '/')).reverse
  if name = [] ∨ name = ['.'] ∨ name = ['.', '.'] then none else some name

/-- The path of the directory that holds the last component; a path without a component has none. -/
def parent? (p : Path) : Option Path :=
  let trimmed := trimEnd p.reverse
  if trimmed = [] ∨ trimmed = ['/'] then none
  else some (trimEnd (trimmed.dropWhile (· ≠ '/'))).reverse

/-- What follows the last dot of the file name, if something stands before that dot. -/
def extension? (p : Path) : Option Text :=
  (fileName? p).bind fun name =>
    let r := name.reverse
    match r.dropWhile (· ≠ '.') with
    | [] => none
    | ['.'] => none
    | _ => some (r.takeWhile (· ≠ '.')).reverse

def dropDot : Path → Path
  | '.' :: '/' :: p => p
  | p => p

/-- Whether the path is a name with nothing behind it but slashes and single dots. -/
def isOnly (name : Text) (p : Path) : Bool :=
  match Text.splitAt '/' p with
  | [] => false
  | first :: rest => first = name && rest.all fun n => n = [] || n = ['.']

/-- What the path `p` reads as from a directory: the rest of it behind the letters of the directory's
path and one slash. A path without a slash stays as it is, and so does one that begins with other
letters or is seen from a directory of single dots. -/
def seenFrom (directory p : Path) : Path :=
  let directory := dropDot directory
  let p := dropDot p
  if isOnly ['.'] directory || !p.contains '/' || !Text.startsWith p directory then p
  else
    match p.drop directory.length with
    | '/' :: rest => rest
    | rest => rest

end Path
end Stencil
