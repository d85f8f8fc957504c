import Stencil.Context

/-! # Functions

A function has declared parameters, so that named arguments find their positions, and an action that
gives a text and may change the context. A registry holds functions by name. -/
set_option autoImplicit false
namespace Stencil

structure Function where
  name : Text
  params : List Text
  run : List Value → Context → Except Error Text × Context

namespace Function

def place : List (Option Value) → Nat → Value → List (Option Value)
  | [], 0, v => [some v]
  | [], n + 1, v => none :: place [] n v
  | _ :: cells, 0, v => some v :: cells
  | cell :: cells, n + 1, v => cell :: place cells n v

/-- Cells with values put into the first empty ones, and behind the last one when all are taken. -/
def fill : List (Option Value) → List Value → List (Option Value)
  | [], values => values.map some
  | some v :: cells, values => some v :: fill cells values
  | none :: cells, v :: values => some v :: fill cells values
  | none :: cells, [] => none :: fill cells []

/-- The cells that named arguments take; a later argument replaces an earlier one. -/
def placeNamed (params : List Text) (args : List Argument) : List (Option Value) :=
  args.foldl (fun cells a =>
    match a.name.bind fun n => params.findIdx? (· = n) with
    | some i => place cells i a.value
    | none => cells) []

/-- The arguments in declared order: named ones at the position of their parameter, positional ones in
the first positions that are free. Positions that nothing fills are empty texts. -/
def arrange (f : Function) (args : List Argument) : List Value :=
  (fill (placeNamed f.params args) (Argument.positional args)).map fun cell => cell.getD default

def argumentWarnings (f : Function) (args : List Argument) : List Warning :=
  ((Argument.names args).filter fun n => !f.params.contains n).map
    (.unknownArgument (.function f.name))

end Function

abbrev Registry := NameMap Function

def Registry.register (r : Registry) (f : Function) : Except Error Registry :=
  if r.contains f.name then .error (.functionExists f.name) else .ok (r.insert f.name f)

end Stencil
