import Stencil.Files.Path

/-! # Media types of files -/
set_option autoImplicit false
namespace Stencil.Path

def mediaTypes : List (Text × Text) :=
  [("png", "image/png"), ("jpg", "image/jpeg"), ("jpeg", "image/jpeg"), ("gif", "image/gif"),
    ("webp", "image/webp"), ("svg", "image/svg+xml"), ("bmp", "image/bmp"),
    ("ico", "image/x-icon"), ("tif", "image/tiff"), ("tiff", "image/tiff")].map
    fun (extension, type) => (extension.toList, type.toList)

/-- The media type by the extension of the path, in which case does not count; without a known
extension the bytes are just bytes. -/
def mediaType (p : Path) : Text :=
  ((extension? p).bind fun e => mediaTypes.lookup (Text.lower e)).getD
    "application/octet-stream".toList

end Stencil.Path
