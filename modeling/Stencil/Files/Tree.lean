import Stencil.Error
import Stencil.Files.Path
import Stencil.Text.Utf8

/-! # File trees

A file tree is what the program can read: the tree of the working directory, and the tree of absolute
paths. The entries of a directory stand in the order of their names. Nothing is known of what
surrounds the working directory; it counts as empty directories. -/
set_option autoImplicit false
namespace Stencil

inductive Entry where
  | file (bytes : Bytes)
  | directory (entries : List (Text × Entry))

namespace Entry

def child? (e : Entry) (name : Text) : Option Entry :=
  match e with
  | .file _ => none
  | .directory entries => entries.lookup name

def isFile : Entry → Bool
  | .file _ => true
  | .directory _ => false

def update (name : Text) (change : Option Entry → Entry) :
    List (Text × Entry) → List (Text × Entry)
  | [] => [(name, change none)]
  | (n, e) :: rest =>
    if n = name then (n, change (some e)) :: rest
    else if Text.before name n then (name, change none) :: (n, e) :: rest
    else (n, e) :: update name change rest

def insert (what : Entry) : List Text → Option Entry → Entry
  | [], old =>
    match what, old with
    | .directory _, some (.directory entries) => .directory entries
    | what, _ => what
  | name :: names, old =>
    let entries :=
      match old with
      | some (.directory entries) => entries
      | _ => []
    .directory (update name (insert what names) entries)

end Entry

structure FileTree where
  working : Entry := .directory []
  root : Entry := .directory []

/-- An entry of a tree with the directories above it, the nearest first, each with the names that lead
from it to the entry. -/
structure Place where
  entry : Entry
  above : List (Entry × List Text) := []

namespace FileTree

def maxNameBytes : Nat := 255
def maxPathBytes : Nat := 4095

/-- The tree with a file or an empty directory added under a path of the working directory; a path
with a slash at its end is a directory. -/
def add (tree : FileTree) (path : Path) (bytes : Bytes) : FileTree :=
  let names := (Text.splitAt '/' path).filter fun n => n ≠ [] ∧ n ≠ ['.']
  let what := if path.getLast? = some '/' then .directory [] else .file bytes
  if Path.isAbsolute path then { tree with root := .insert what names (some tree.root) }
  else { tree with working := .insert what names (some tree.working) }

/-- One component further: the entries on the way from the start, the last one first, each with its
name. The empty list is a directory of which nothing is known. -/
def step (absolute : Bool) (way : List (Text × Entry)) (name : Text) :
    Except FileFault (List (Text × Entry)) :=
  match way with
  | [] =>
    if name = [] ∨ name = ['.'] ∨ name = ['.', '.'] then .ok []
    else .error (if maxNameBytes < Text.size name then .nameTooLong else .notFound)
  | (_, .file _) :: _ => .error .notDirectory
  | (n, .directory entries) :: below =>
    if name = [] ∨ name = ['.'] then .ok way
    else if name = ['.', '.'] then .ok (if absolute ∧ below = [] then way else below)
    else if maxNameBytes < Text.size name then .error .nameTooLong
    else
      match entries.lookup name with
      | some e => .ok ((name, e) :: (n, .directory entries) :: below)
      | none => .error .notFound

/-- The directories of a way, the nearest first, each with the names that lead from it to an entry
that `names` lead to from the last one. -/
def aboveFrom (names : List Text) : List (Text × Entry) → List (Entry × List Text)
  | [] => []
  | (n, e) :: below => (e, names) :: aboveFrom (n :: names) below

def find (tree : FileTree) (path : Path) : Except FileFault Place :=
  if path = [] then .error .notFound
  else if path.contains '\x00' then .error .nulInPath
  else if maxPathBytes < Text.size path then .error .nameTooLong
  else
    let absolute := Path.isAbsolute path
    let start := ([], if absolute then tree.root else tree.working)
    ((Text.splitAt '/' (if absolute then path.drop 1 else path)).foldlM (step absolute) [start]).map
      fun
      | [] => { entry := .directory [] }
      | (n, e) :: below => { entry := e, above := aboveFrom [n] below }

def read (tree : FileTree) (path : Path) : Except FileFault Bytes := do
  match (← tree.find path).entry with
  | .file bytes => return bytes
  | .directory _ => throw .isDirectory

def readText (tree : FileTree) (path : Path) : Except FileFault Text := do
  match Utf8.decode (← tree.read path) with
  | .ok t => return t
  | .error _ => throw .notText

def isFile (tree : FileTree) (path : Path) : Bool :=
  match tree.find path with
  | .ok place => place.entry.isFile
  | .error _ => false

end FileTree
end Stencil
