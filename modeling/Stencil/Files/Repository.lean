import Stencil.Files.IgnoreRules
import Stencil.Files.Tree

/-! # Repositories

The top of a repository is a directory with an entry `.git` or `.jj`. A repository has exclude rules
beside its ignore files, in `info/exclude` of its administrative directory. That directory is `.git`
itself, or else `.git` is a pointer: a file whose first line names the directory of one working copy,
whose file `commondir` in turn names the directory that all working copies share. Both paths are seen
from the working directory, except that a shared directory whose path begins with a dot is seen from
the directory of the working copy. -/
set_option autoImplicit false
namespace Stencil

def IgnoreRules.below (names : List Text) (e : Entry) : IgnoreRules :=
  match names.foldlM Entry.child? e with
  | some (.file bytes) => parse bytes
  | _ => []

namespace Repository

def isTop (e : Entry) : Bool :=
  (e.child? ".git".toList).isSome || (e.child? ".jj".toList).isSome

/-- The directory of a working copy that a pointer names. -/
def pointedAt? (pointer : Bytes) : Option Path :=
  let mark := "gitdir: ".toList
  (Utf8.lines pointer).head?.bind fun line =>
    if Text.startsWith line mark then some (line.drop mark.length) else none

/-- The directory that the working copy with the directory `own` shares with others. -/
def shared? (tree : FileTree) (own : Path) : Option Path := do
  let line ← (Utf8.lines (← (tree.read (own.join "commondir".toList)).toOption)).head?
  return if line.head? = some '.' then own.join line else line

def excludeRules (tree : FileTree) (e : Entry) : IgnoreRules :=
  match e.child? ".git".toList with
  | none => []
  | some (.directory entries) =>
    IgnoreRules.below ["info".toList, "exclude".toList] (.directory entries)
  | some (.file pointer) =>
    let rules? := do
      let common ← shared? tree (← pointedAt? pointer)
      let bytes ← (tree.read (common.join "info/exclude".toList)).toOption
      return IgnoreRules.parse bytes
    rules?.getD []

end Repository
end Stencil
