import Stencil.NameMap
import Stencil.Definition
import Stencil.Arithmetic.Expr

/-! # The symbol table

The definitions that a rendering has met, by name. A name is defined once and for all, and never while
a function has it. -/
set_option autoImplicit false
namespace Stencil

abbrev SymbolTable := NameMap Definition

namespace SymbolTable

def define (table : SymbolTable) (d : Definition) (isFunction : Text → Bool) :
    Except Error SymbolTable :=
  if table.contains d.name then .error (.nameConflict d.name)
  else if isFunction d.name then .error (.functionConflict d.name)
  else .ok (table.insert d.name d)

/-- The table as the scope of expressions: the names of definitions with a numeric value. -/
def scope (table : SymbolTable) : Arithmetic.Scope := fun name =>
  ((table.get? name).bind Definition.numericValue?).map Value.number

end SymbolTable
end Stencil
