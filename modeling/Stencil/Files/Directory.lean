import Stencil.Files.Listing
import Stencil.Files.Walk
import Stencil.Options

/-! # Loading a directory

The listing of a directory holds what a walk finds in it, by the paths from the directory: the files
with a wanted extension whose bytes are text. Globs leave out further files and directories. -/
set_option autoImplicit false
namespace Stencil

def excludingGlobs (patterns : List Text) : Except Error (List (List Glob.Token)) :=
  patterns.mapM fun pattern =>
    match Glob.parse false pattern with
    | .ok glob => .ok glob
    | .error fault =>
      .error <| .function "loadDir".toList <|
        "invalid ignore pattern '".toList ++ pattern ++ "' - error parsing glob '".toList ++
          pattern ++ "': ".toList ++ fault.message

namespace Found

def path (f : Found) : Path := Text.join ['/'] f.names

/-- The extension of a file that was found from `root`, which is the file itself if no names lead on. -/
def extension? (root : Path) (f : Found) : Option Text :=
  Path.extension? (f.names.getLast?.getD root)

end Found

def collect (loaded : Listing × List Warning) (f : Found) : Listing × List Warning :=
  match Utf8.decode f.bytes with
  | .ok t => (loaded.1.insert f.path t, loaded.2)
  | .error _ => (loaded.1, loaded.2 ++ [.notTextFile f.path])

/-- The listing of the directory `root` without what the options or `extraIgnore` leave out, and
warnings about files that are not text. A file in place of the directory is listed under the empty
path. -/
def FileTree.listing (tree : FileTree) (userRules : IgnoreRules) (root : Path) (options : Options)
    (extraIgnore : List Text) : Except Error (Listing × List Warning) := do
  let place ← (tree.find root).mapError (.file root)
  let globs ← excludingGlobs (options.ignore ++ extraIgnore)
  let excluded (path : Path) := globs.any fun glob => Glob.isMatch false glob (Utf8.encode path)
  let walk : Walk := { tree, top := root, userRules, excluded }
  let found := (walk.files place).filter fun f => options.acceptsExtension (f.extension? root)
  return found.foldl collect ([], [])

end Stencil
