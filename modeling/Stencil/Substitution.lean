import Stencil.Code.Vault
import Stencil.Tag.Node

/-! # Substitution

Expanding a definition puts the values of its parameters into its content. A slot with the name of a
parameter becomes the value, and a raw one its placeholder; an expression over parameters alone
becomes its result; text arguments of other slots and the contents of definitions inside are treated
in the same way, except that a definition inside hides the parameters it declares itself. All this is
collected as edits of the content and made at once; all else stays as it is. -/
set_option autoImplicit false
namespace Stencil

namespace Substitution

/-- A way to substitute into a part of the content. -/
abbrev Inner := Text → Bindings → Vault → Except Error (Text × Vault)

def arguments (inner : Inner) (bound : Bindings) :
    List Argument → Vault → Except Error (List Argument × Vault)
  | [], v => .ok ([], v)
  | a :: rest, v => do
    let (value, v) ←
      match a.value with
      | .text t =>
        if (Text.before? ['{', '{'] t).isSome then do
          let (t, v) ← inner t bound v
          pure (Value.text t, v)
        else pure (.text t, v)
      | .number x => pure (.number x, v)
    let (others, v) ← arguments inner bound rest v
    return ({ a with value } :: others, v)

def slot? (inner : Inner) (bound : Bindings) (s : Slot) (v : Vault) :
    Except Error (Option Text × Vault) :=
  match s.expr with
  | some e =>
    if e.names.all fun n => (bound.lookup n).isSome then
      match e.eval fun n => bound.lookup n with
      | .ok x => .ok (some (formatNumber x), v)
      | .error f => .error (.eval f)
    else .ok (none, v)
  | none =>
    if s.args = [] then
      match bound.lookup s.name with
      | some value =>
        if s.raw then
          let (mark, v) := v.protect value.display
          .ok (some mark, v)
        else .ok (some value.display, v)
      | none => .ok (none, v)
    else do
      let (args, v) ← arguments inner bound s.args v
      return (if args = s.args then none else some { s with args }.source, v)

/-- The edit of a node at its place, or nothing if it stays. -/
def edit? (inner : Inner) (bound : Bindings) (n : Node) (span : Span) (v : Vault) :
    Except Error (Option Edit × Vault) :=
  match n with
  | .text _ => .ok (none, v)
  | .slot s _ => do
    let (t, v) ← slot? inner bound s v
    return (t.map (⟨span, ·⟩), v)
  | .define d source =>
    match source.body with
    | none => .ok (none, v)
    | some body =>
      if d.raw then .ok (none, v)
      else do
        let (t, v) ← inner body (bound.filter fun p => !d.hasParam p.1) v
        return (if t = body then none else some ⟨source.bodySpan span.start body, t⟩, v)

def edits (inner : Inner) (bound : Bindings) :
    List (Node × Span) → Vault → Except Error (List Edit × Vault)
  | [], v => .ok ([], v)
  | (n, span) :: rest, v => do
    let (e, v) ← edit? inner bound n span v
    let (es, v) ← edits inner bound rest v
    return (e.toList ++ es, v)

/-- Substitution down to a depth of parts within parts. -/
def toDepth : Nat → Inner
  | 0, content, _, v => .ok (content, v)
  | depth + 1, content, bound, v =>
    if bound = [] then .ok (content, v)
    else do
      let (es, v) ← edits (toDepth depth) bound (Node.placedFrom 0 (← parse content)) v
      return (Edit.applyAll content es, v)

end Substitution

/-- Puts the values into the content. A part is shorter than what it is a part of, so the length of
the content is depth enough. -/
def substitute (content : Text) (bound : Bindings) (v : Vault) : Except Error (Text × Vault) :=
  Substitution.toDepth (content.length + 1) content bound v

def Definition.expand (d : Definition) (bound : Bindings) (v : Vault) : Except Error (Text × Vault) :=
  if d.raw then .ok (d.content, v) else substitute d.content bound v

end Stencil
