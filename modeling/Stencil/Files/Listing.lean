import Stencil.Files.Path

/-! # Listings

A listing holds the texts of files by path. It is shown as fenced blocks, one for each file: the fence
is longer than every run of backticks in the file, so that it ends where the file ends. -/
set_option autoImplicit false
namespace Stencil

/-- Paths with texts, in ascending order of the paths. -/
abbrev Listing := List (Path × Text)

namespace Listing

def insert (path : Path) (text : Text) : Listing → Listing
  | [] => [(path, text)]
  | (p, t) :: rest =>
    if p = path then (p, text) :: rest
    else if Text.before path p then (path, text) :: (p, t) :: rest
    else (p, t) :: insert path text rest

/-- The listing of files in any order; of two files under one path the later one counts. -/
def ofList (files : List (Path × Text)) : Listing :=
  files.foldl (fun listing (path, text) => listing.insert path text) []

def longestRun (c : Char) : Nat → Text → Nat
  | n, [] => n
  | n, d :: rest => if d = c then longestRun c (n + 1) rest else max n (longestRun c 0 rest)

def fence (text : Text) : Text := List.replicate (max (longestRun '`' 0 text) 2 + 1) '`'

/-- The text with a line feed at its end, unless it is empty. -/
def endLine (text : Text) : Text :=
  if text = [] ∨ Text.endsWith text ['\n'] then text else text ++ ['\n']

def block (path : Path) (text : Text) : Text :=
  fence text ++ path ++ '\n' :: endLine text ++ fence text ++ ['\n']

def format (files : Listing) : Text :=
  Text.join ['\n'] (files.map fun (path, text) => block path text)

/-- The first count is a lower bound of the longest run. -/
theorem le_longestRun (c : Char) (n : Nat) (t : Text) : n ≤ longestRun c n t := by
  induction t generalizing n with
  | nil => exact Nat.le_refl n
  | cons d t ih =>
    simp only [longestRun]
    split
    · exact Nat.le_trans (Nat.le_succ n) (ih (n + 1))
    · exact Nat.le_max_left ..

theorem three_le_length_fence (text : Text) : 3 ≤ (fence text).length := by
  simp only [fence, List.length_replicate]
  omega

end Listing
end Stencil
