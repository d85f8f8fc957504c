import Stencil.Options
import Stencil.SymbolTable

/-! # The context of a rendering

A context is made for one rendering: what is asked of it, and the definitions, attachments and warnings that
add up over its passes. -/
set_option autoImplicit false
namespace Stencil

inductive AttachmentSource where
  /-- The content itself, in base 64. -/
  | inline (mime data : Text)
  /-- A resource that the receiver has to fetch. -/
  | url (address : Text)
deriving Repr, DecidableEq

/-- Something that a rendering produces beside its text. -/
structure Attachment where
  source : AttachmentSource
  /-- The path or the address as the template gives it. -/
  origin : Text
deriving Repr, DecidableEq

namespace Attachment

def url (address : Text) : Attachment := { source := .url address, origin := address }

def inline (origin mime data : Text) : Attachment := { source := .inline mime data, origin }

def display (a : Attachment) : Text :=
  match a.source with
  | .url address => "url ".toList ++ address
  | .inline mime data =>
    mime ++ ' ' :: a.origin ++ " (".toList ++ Text.ofNat (Text.size data) ++
      " base64 bytes)".toList

end Attachment

structure Context where
  options : Options := {}
  definitions : SymbolTable := {}
  attachments : List Attachment := []
  /-- What was passed over so far. -/
  warnings : List Warning := []

def Context.warn (c : Context) (ws : List Warning) : Context :=
  { c with warnings := c.warnings ++ ws }

end Stencil
