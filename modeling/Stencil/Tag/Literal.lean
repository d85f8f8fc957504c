import Stencil.Tag.Reader

/-! # Literals

A text literal stands in double quotes; a backslash escapes the quote, the backslash and both braces,
and writes a line feed or a tab with a letter; before any other character it stands for itself. A
number literal is an optional minus sign, digits, and an optional fraction. -/
set_option autoImplicit false
namespace Stencil.Reader

open SyntaxError (literal)

def unescape (c : Char) : Text :=
  if c = 'n' then ['\n']
  else if c = 't' then ['\t']
  else if c = '"' ∨ c = '\\' ∨ c = '{' ∨ c = '}' then [c]
  else ['\\', c]

/-- Reads a text literal of which the opening quote has been read: the text it stands for and what
follows the closing quote. -/
def unquote? : Text → Option (Text × Text)
  | [] => none
  | ['\\'] => none
  | '\\' :: c :: rest => (unquote? rest).map fun (t, after) => (unescape c ++ t, after)
  | c :: rest =>
    if c = '"' then some ([], rest)
    else (unquote? rest).map fun (t, after) => (c :: t, after)

def string : Reader Text := fun c =>
  match unquote? c.rest.tail with
  | some (t, after) => .ok (t, c.skipTo after.length)
  | none => .error (c.unclosed [literal "\\\""])

def numeral (negative : Bool) : Reader Float := fun c =>
  match Decimal.splitNumeral c.rest with
  | ([], _, _) => .error (c.unexpected ["[0-9]".toList])
  | (whole, fraction, after) =>
    .ok (Decimal.ofNumeral negative whole fraction, c.skipTo after.length)

def number : Reader Float := do numeral (← eat '-')

/-- A literal; `also` lists what else would have been accepted here. -/
def value (also : List Text) : Reader Value := do
  let other : Reader Value := fail ("number".toList :: "string".toList :: also)
  match ← peek with
  | some c =>
    if c = '"' then return .text (← string)
    else if c = '-' ∨ c.isDigit then return .number (← number)
    else other
  | none => other

theorem advances_string : Advances string := by
  refine ⟨fun {c a c'} h => ?_⟩
  simp only [string, StateT.run] at h
  split at h
  · obtain ⟨-, rfl⟩ := Prod.mk.inj (Except.ok.inj h)
    exact c.reaches_advance _
  · cases h

theorem advances_numeral (negative : Bool) : Advances (numeral negative) := by
  refine ⟨fun {c a c'} h => ?_⟩
  simp only [numeral, StateT.run] at h
  split at h
  · cases h
  · obtain ⟨-, rfl⟩ := Prod.mk.inj (Except.ok.inj h)
    exact c.reaches_advance _

theorem advances_number : Advances number := (advances_eat _).bind advances_numeral

theorem advances_value (also : List Text) : Advances (value also) :=
  advances_peek.bind fun o => by
    cases o with
    | none => exact advances_fail _
    | some c =>
      exact .ite (advances_string.bind fun _ => advances_pure _)
        (.ite (advances_number.bind fun _ => advances_pure _) (advances_fail _))

end Stencil.Reader
