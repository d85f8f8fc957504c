import Stencil.Text.Quoted

/-! # Syntax errors

A syntax error lists what would have been accepted, in ascending order and each alternative once, and
shows what stands there instead. It is raised with an offset alone; `locate` adds the line and the
column once the whole text is at hand. -/
set_option autoImplicit false
namespace Stencil

structure SyntaxError where
  /-- The accepted alternatives; literal ones are in quotes. -/
  expected : List Text
  /-- What stands at the offset; nothing at the end of the text. -/
  found : Option Text
  /-- Bytes before the error. -/
  offset : Nat
  /-- Line and column, in characters, both counted from one. -/
  line : Nat
  column : Nat
deriving Repr, DecidableEq

namespace SyntaxError

def literal (t : String) : Text := '"' :: t.toList ++ ['"']

def new (expected : List Text) (found : Option Text) (offset : Nat) : SyntaxError :=
  { expected := Text.dropRepeats (Text.sort expected), found, offset, line := 1, column := 1 }

/-- The error as seen from a text that has `base` more bytes in front. -/
def rebase (e : SyntaxError) (base : Nat) : SyntaxError := { e with offset := e.offset + base }

def locate (e : SyntaxError) (source : Text) : SyntaxError :=
  let upto := Text.takeBytes e.offset source
  { e with
    line := upto.count '\n' + 1
    column := (upto.reverse.takeWhile (· ≠ '\n')).length + 1 }

def listed : List Text → Text
  | [] => "end of input".toList
  | [one] => one
  | many =>
    Text.join ", ".toList many.dropLast ++ " or ".toList ++ many.getLast?.getD []

def message (e : SyntaxError) : Text :=
  let found :=
    match e.found with
    | some t => Text.quoted t
    | none => "end of input".toList
  "Expected ".toList ++ listed e.expected ++ " but ".toList ++ found ++ " found (line ".toList ++
    Text.ofNat e.line ++ ", column ".toList ++ Text.ofNat e.column ++ ")".toList

end SyntaxError
end Stencil
