import Stencil.Files.Repository

/-! # Walks

A walk lists the files below a directory, its top, in the order of their names, directories in their
turn. It leaves out hidden entries and what ignore files tell to ignore, from every directory on the
way down. `.ignore` files count everywhere. Inside a repository, its `.gitignore` files and its exclude
rules count as well, up to its top; they give way to `.ignore` files, and exclude rules to `.gitignore`
files. Of the files of one kind the nearest one that decides is right. The rules of the user come last.
An entry that is kept by a rule is not hidden.

The rules of a directory above the top look for an entry by the names that lead to it. Those of a
directory within the walk look for the path as it is written, which begins with the path of the top. -/
set_option autoImplicit false
namespace Stencil

structure DirectoryRules where
  plain : IgnoreRules
  git : IgnoreRules
  exclude : IgnoreRules
  /-- The directory is the top of a repository. -/
  isRepository : Bool

def DirectoryRules.ofEntry (tree : FileTree) (e : Entry) : DirectoryRules where
  plain := .below [".ignore".toList] e
  git := .below [".gitignore".toList] e
  exclude := Repository.excludeRules tree e
  isRepository := Repository.isTop e

inductive Standing where
  /-- Above the top of the walk, to which the names lead. -/
  | above (names : List Text)
  /-- At the top, or where the names lead from there. -/
  | within (names : List Text)

/-- A directory on the way down with its rules. -/
structure Level where
  standing : Standing
  rules : DirectoryRules

/-- The levels up to the nearest top of a repository; none if there is no repository. -/
def Level.repository : List Level → List Level
  | [] => []
  | l :: above =>
    if l.rules.isRepository then [l]
    else
      match repository above with
      | [] => []
      | levels => l :: levels

structure Walk where
  tree : FileTree
  /-- The path of the top, as it is written. -/
  top : Path
  userRules : IgnoreRules := []
  /-- The paths from the top that are left out in any case. -/
  excluded : Path → Bool := fun _ => false

structure Found where
  names : List Text
  bytes : Bytes

namespace Walk

def written (w : Walk) (names : List Text) : Path := names.foldl Path.join w.top

/-- The path by which the rules of a level look for an entry. -/
def pathFrom (w : Walk) (l : Level) (names : List Text) : Path :=
  match l.standing with
  | .above lead => Text.join ['/'] (lead ++ names)
  | .within directory => Path.seenFrom (w.written directory) (w.written names).dropDot

def nearest? (w : Walk) (rules : DirectoryRules → IgnoreRules) (levels : List Level)
    (names : List Text) (isDirectory : Bool) : Option Verdict :=
  levels.findSome? fun l => (rules l.rules).verdict? (w.pathFrom l names) isDirectory

/-- What the rules say about an entry; the levels begin with its directory. -/
def verdict? (w : Walk) (levels : List Level) (names : List Text) (isDirectory : Bool) :
    Option Verdict :=
  let inside := Level.repository levels
  let byUser :=
    if inside.isEmpty then none
    else w.userRules.verdict? (w.written names).dropDot.dropDot isDirectory
  (w.nearest? DirectoryRules.plain levels names isDirectory)
    |>.or (w.nearest? DirectoryRules.git inside names isDirectory)
    |>.or (w.nearest? DirectoryRules.exclude inside names isDirectory)
    |>.or byUser

def isHidden (name : Text) : Bool := name.head? = some '.'

def skips (w : Walk) (levels : List Level) (names : List Text) (isDirectory : Bool) : Bool :=
  match w.verdict? levels names isDirectory with
  | some .ignored => true
  | some .kept => w.excluded (Text.join ['/'] names)
  | none => names.getLast?.any isHidden || w.excluded (Text.join ['/'] names)

mutual

def filesIn (w : Walk) (levels : List Level) (names : List Text) : Entry → List Found
  | .file bytes => [⟨names, bytes⟩]
  | .directory entries =>
    filesAmong w (⟨.within names, .ofEntry w.tree (.directory entries)⟩ :: levels) names entries

def filesAmong (w : Walk) (levels : List Level) (names : List Text) :
    List (Text × Entry) → List Found
  | [] => []
  | (name, entry) :: rest =>
    let here :=
      if w.skips levels (names ++ [name]) !entry.isFile then []
      else filesIn w levels (names ++ [name]) entry
    here ++ filesAmong w levels names rest

end

/-- The files at a place and below; a place that is a file is itself the one file. A top that is
written as a dash means the standard input, where there is no file. -/
def files (w : Walk) (place : Place) : List Found :=
  if Path.isOnly ['-'] w.top then []
  else
    w.filesIn (place.above.map fun (e, names) => ⟨.above names, .ofEntry w.tree e⟩) [] place.entry

end Walk
end Stencil
