import Stencil.Files.Path

/-! # Options of a rendering -/
set_option autoImplicit false
namespace Stencil

structure Options where
  /-- Give the slots of the template instead of its rendering. -/
  matchesOnly : Bool := false
  /-- The directory from which relative paths are seen; the working directory if empty. -/
  baseDir : Path := []
  /-- The file extensions that a loaded directory keeps; all if empty. -/
  extensions : List Text := []
  /-- The glob patterns that a loaded directory leaves out. -/
  ignore : List Text := []
deriving Repr, DecidableEq

namespace Options

def resolve (o : Options) (p : Path) : Path := Path.join o.baseDir p

/-- Whether files with this extension are kept. Case does not count, nor do dots in front of a wanted
extension. -/
def acceptsExtension (o : Options) (extension : Option Text) : Bool :=
  if o.extensions = [] then true
  else
    match extension with
    | none => false
    | some e =>
      o.extensions.any fun wanted => Text.lower (wanted.dropWhile (· = '.')) = Text.lower e

end Options
end Stencil
