import Stencil.Error
import Stencil.Value

/-! # Definitions and their arguments

A definition names a text with parameters. Required parameters take the positional arguments in
order and fall back to an argument with their name; optional ones take an argument with their name,
then a positional one that is left, then their default. Arguments without a parameter are passed over
with a warning. -/
set_option autoImplicit false
namespace Stencil

structure Argument where
  name : Option Text
  value : Value
deriving BEq, DecidableEq

structure Definition where
  name : Text
  /-- Parameters that need an argument. -/
  required : List Text := []
  /-- Parameters with a default. -/
  optional : List (Text × Value) := []
  content : Text := []
  /-- The content is inserted as it is and not read as template text. -/
  raw : Bool := false
deriving BEq, DecidableEq

/-- The values of parameters; the first entry for a name counts. -/
abbrev Bindings := List (Text × Value)

namespace Argument

def positional (args : List Argument) : List Value :=
  args.filterMap fun a => if a.name.isNone then some a.value else none

def named? (args : List Argument) (name : Text) : Option Value :=
  (args.reverse.find? fun a => a.name = some name).map Argument.value

def names (args : List Argument) : List Text := args.filterMap Argument.name

end Argument

namespace Definition

def hasParam (d : Definition) (name : Text) : Bool :=
  d.required.contains name || d.optional.any fun p => p.1 = name

/-- Values for the required parameters and the positional values that are left. Of two parameters with
one name the later one counts, so later entries stand in front. -/
def bindRequired (d : Definition) (args : List Argument) :
    List Text → List Value → Bindings → Except Error (Bindings × List Value)
  | [], values, bound => .ok (bound, values)
  | param :: params, value :: values, bound =>
    bindRequired d args params values ((param, value) :: bound)
  | param :: params, [], bound =>
    match Argument.named? args param with
    | some value => bindRequired d args params [] ((param, value) :: bound)
    | none => .error (.missingParam d.name param)

def bindOptional (args : List Argument) :
    List (Text × Value) → List Value → Bindings → Bindings × List Value
  | [], values, bound => (bound, values)
  | (param, default) :: params, values, bound =>
    match Argument.named? args param, values with
    | some value, values => bindOptional args params values ((param, value) :: bound)
    | none, value :: values => bindOptional args params values ((param, value) :: bound)
    | none, [] => bindOptional args params [] ((param, default) :: bound)

def argumentWarnings (d : Definition) (args : List Argument) (surplus : Nat) : List Warning :=
  ((Argument.names args).filter fun name => !d.hasParam name).map
      (.unknownArgument (.definition d.name)) ++
    if surplus = 0 then [] else [.surplusArguments d.name surplus]

def bind (d : Definition) (args : List Argument) : Except Error (Bindings × List Warning) :=
  match bindRequired d args d.required (Argument.positional args) [] with
  | .error e => .error e
  | .ok (bound, values) =>
    let (bound, values) := bindOptional args d.optional values bound
    .ok (bound, argumentWarnings d args values.length)

/-- The value in expressions: that of the content, if the definition is not raw and needs no
argument. -/
def numericValue? (d : Definition) : Option Float :=
  if d.raw ∨ d.required ≠ [] then none else (Value.text d.content).asNumber?

end Definition
end Stencil
