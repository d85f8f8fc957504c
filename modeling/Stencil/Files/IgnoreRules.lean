import Stencil.Files.Glob
import Stencil.Files.Path
import Stencil.Text.Blank

/-! # Ignore rules

An ignore file has one rule a line: a glob for paths that are seen from the directory of the file. An
exclamation mark in front makes the rule keep what it matches. A slash at the end restricts the rule
to directories. A rule without any other slash holds in all directories below too. Of the rules that
match a path the last one decides. -/
set_option autoImplicit false
namespace Stencil

inductive Verdict where
  | ignored
  | kept
deriving Repr, DecidableEq

structure IgnoreRule where
  verdict : Verdict
  directoriesOnly : Bool
  glob : List Glob.Token

abbrev IgnoreRules := List IgnoreRule

namespace IgnoreRule

/-- A line without the white space at its end, which a backslash before its last space protects. -/
def trimLine (line : Text) : Text :=
  if Text.endsWith line ['\\', ' '] then line else Text.trimEnd line

/-- The glob for a path from the directory of the file, written out: a rule that may hold in any
directory is led by two stars, and a rule for what is inside a directory leaves the directory alone. -/
def wholePattern (anchored : Bool) (pattern : Text) : Text :=
  let anywhere : Text := ['*', '*', '/']
  let led :=
    if anchored ∨ pattern.contains '/' ∨ pattern = ['*', '*'] then pattern else anywhere ++ pattern
  if Text.endsWith led ['/', '*', '*'] then led ++ ['/', '*'] else led

def dropSlash (pattern : Text) : Text × Bool :=
  if Text.endsWith pattern ['\\', '/'] then (pattern.dropLast.dropLast, true)
  else if Text.endsWith pattern ['/'] then (pattern.dropLast, true)
  else (pattern, false)

def make? (verdict : Verdict) (anchored : Bool) (pattern : Text) : Option IgnoreRule :=
  let (pattern, directoriesOnly) := dropSlash pattern
  match Glob.parse true (wholePattern anchored pattern) with
  | .ok glob => some { verdict, directoriesOnly, glob }
  | .error _ => none

/-- A rule that a slash in front may anchor at the directory of the file. -/
def makeAnchored? (verdict : Verdict) : Text → Option IgnoreRule
  | '/' :: pattern => make? verdict true pattern
  | pattern => make? verdict false pattern

def parse? (line : Text) : Option IgnoreRule :=
  if line.head? = some '#' then none
  else
    match trimLine line with
    | [] => none
    | '\\' :: '!' :: rest => make? .ignored false ('!' :: rest)
    | '\\' :: '#' :: rest => make? .ignored false ('#' :: rest)
    | '!' :: rest => makeAnchored? .kept rest
    | rest => makeAnchored? .ignored rest

def concerns (r : IgnoreRule) (path : Path) (isDirectory : Bool) : Bool :=
  (isDirectory || !r.directoriesOnly) && Glob.isMatch true r.glob (Utf8.encode path)

end IgnoreRule

namespace IgnoreRules

/-- The rules of a file. A byte order mark in front of it does not count. -/
def parse (bytes : Bytes) : IgnoreRules :=
  match Utf8.lines bytes with
  | [] => []
  | first :: rest => (first.dropWhile (· = '\uFEFF') :: rest).filterMap IgnoreRule.parse?

def verdict? (rules : IgnoreRules) (path : Path) (isDirectory : Bool) : Option Verdict :=
  (rules.reverse.find? fun r => r.concerns path isDirectory).map IgnoreRule.verdict

/-- A rule that is added at the end and matches has the last word. -/
theorem verdict?_append {rules : IgnoreRules} {r : IgnoreRule} {path : Path} {isDirectory : Bool}
    (h : r.concerns path isDirectory = true) :
    verdict? (rules ++ [r]) path isDirectory = some r.verdict := by
  simp [verdict?, h]

end IgnoreRules
end Stencil
