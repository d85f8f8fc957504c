import Stencil.Files.Directory
import Stencil.Files.Mime
import Stencil.Function
import Stencil.Text.Base64
import Stencil.Text.Blank

/-! # The standard functions

`load` gives the text of a file, `loadDir` the listing of a directory as fenced blocks, and `img`
attaches an image. Relative paths are seen from the base directory of the options. Listings heed the
ignore rules of the user. -/
set_option autoImplicit false
namespace Stencil

def pathArgument (args : List Value) : Except Error Path :=
  match args.head?.bind Value.asText? with
  | some t => if Text.trim t = [] then .error .invalidPath else .ok (Text.trim t)
  | none => .error .invalidPath

/-- The patterns in the second argument: between commas, without white space around them. -/
def patternsArgument (args : List Value) : List Text :=
  match args[1]?.bind Value.asText? with
  | some t => ((Text.splitAt ',' t).map Text.trim).filter fun p => p ≠ []
  | none => []

def loadFile (tree : FileTree) (args : List Value) (options : Options) : Except Error Text := do
  let path := options.resolve (← pathArgument args)
  (tree.readText path).mapError (.file path)

def loadDirectory (tree : FileTree) (userRules : IgnoreRules) (args : List Value)
    (options : Options) : Except Error (Text × List Warning) := do
  let root := options.resolve (← pathArgument args)
  let (files, warnings) ← tree.listing userRules root options (patternsArgument args)
  return (files.format, warnings)

def isWebAddress (source : Text) : Bool :=
  let address := Text.lower source
  Text.startsWith address "http://".toList || Text.startsWith address "https://".toList

/-- The attachment for the image that the arguments name; a file is read, an address is not. -/
def imageAttachment (tree : FileTree) (args : List Value) (options : Options) :
    Except Error Attachment :=
  match args.head?.bind Value.asText? with
  | none => .error .imageArgument
  | some source =>
    if source = [] then .error .imageArgument
    else if isWebAddress source then .ok (.url source)
    else
      let path := options.resolve source
      match tree.read path with
      | .error fault => .error (.file path fault)
      | .ok bytes => .ok (.inline source path.mediaType (Base64.encode bytes))

namespace Function

def load (tree : FileTree) : Function where
  name := "load".toList
  params := ["path".toList]
  run := fun args context => (loadFile tree args context.options, context)

def loadDir (tree : FileTree) (userRules : IgnoreRules) : Function where
  name := "loadDir".toList
  params := ["path".toList, "ignore".toList]
  run := fun args context =>
    match loadDirectory tree userRules args context.options with
    | .error e => (.error e, context)
    | .ok (t, warnings) => (.ok t, context.warn warnings)

def img (tree : FileTree) : Function where
  name := "img".toList
  params := ["source".toList]
  run := fun args context =>
    match imageAttachment tree args context.options with
    | .error e => (.error e, context)
    | .ok a =>
      (.ok ("[image: ".toList ++ a.origin ++ [']']),
        { context with attachments := context.attachments ++ [a] })

end Function

def Registry.standard (tree : FileTree) (userRules : IgnoreRules) : Registry :=
  [Function.load tree, Function.loadDir tree userRules, Function.img tree].foldl
    (fun r f => r.insert f.name f) {}

end Stencil
