import Stencil.Comment
import Stencil.Function
import Stencil.Substitution

/-! # Rendering

Code goes into the vault and comments are stripped. Then up to five passes follow; each reads the text
as a template, enters its definitions from left to right, and treats its slots from right to left. Then
the definitions are taken out and the slots replaced, all at once. A pass that finds nothing to do is the
last one. At the end the vault gives everything back, and slots that are left stay as they are.

In a pass after the first, a definition that equals the one in the table came out of a second
expansion of the same content, and is no conflict. -/
set_option autoImplicit false
namespace Stencil

structure Engine where
  functions : Registry := {}

structure Work where
  context : Context
  vault : Vault

/-- A step of a rendering. What it did to the state stands even when it fails. -/
abbrev Rendering := ExceptT Error (StateM Work)

structure Outcome where
  text : Text
  changed : Bool := false
  /-- What the function of a slot attached. -/
  attachments : List Attachment := []

inductive Output where
  | text (t : Text)
  | slots (ms : List SlotMatch)
deriving DecidableEq

def maxPasses : Nat := 5

namespace Rendering

def protect (t : Text) : Rendering Text :=
  modifyGet fun w =>
    let (mark, vault) := w.vault.protect t
    (mark, { w with vault })

def mask (t : Text) : Rendering Text :=
  modifyGet fun w =>
    let (masked, vault) := w.vault.mask t
    (masked, { w with vault })

def warn (ws : List Warning) : Rendering Unit :=
  modify fun w => { w with context := w.context.warn ws }

def arithmetic (e : Arithmetic.Expr) : Rendering (Option Text) := do
  let scope := (← get).context.definitions.scope
  if e.names.all fun n => (scope n).isSome then
    match e.eval scope with
    | .ok x => return some (formatNumber x)
    | .error f => throw (.eval f)
  else return none

def expansion (d : Definition) (s : Slot) : Rendering Text := do
  match d.bind s.args with
  | .error e => throw e
  | .ok (bound, warnings) => do
    warn warnings
    match d.expand bound (← get).vault with
    | .error e => throw e
    | .ok (t, vault) => do
      modify fun w => { w with vault }
      if d.raw || s.raw then protect t else return t

/-- Calls a function: it finds the code in its arguments restored and no attachments of others, and
what it attaches is handed on. -/
def call (f : Function) (args : List Value) : Rendering (Text × List Attachment) := do
  let w ← get
  let saved := w.context.attachments
  let args := args.map fun
    | .text t => .text (w.vault.restore t)
    | .number x => .number x
  let (result, after) := f.run args { w.context with attachments := [] }
  set { w with context := { after with attachments := saved } }
  match result with
  | .ok t => return (t, after.attachments)
  | .error e => throw e

/-- The replacement of a slot and what was attached on the way; nothing if it stays. -/
def slot? (engine : Engine) (s : Slot) : Rendering (Option (Text × List Attachment)) := do
  match s.expr with
  | some e => return (← arithmetic e).map (·, [])
  | none =>
    match (← get).context.definitions.get? s.name with
    | some d => return some (← expansion d s, [])
    | none =>
      match engine.functions.get? s.name with
      | some f => do
        warn (f.argumentWarnings s.args)
        let (t, attached) ← call f (f.arrange s.args)
        let t ← if s.raw then protect t else pure t
        return some (t, attached)
      | none => return none

def defineAll (engine : Engine) (first : Bool) : List Node → Rendering Unit
  | [] => return ()
  | .define d _ :: rest => do
    let table := (← get).context.definitions
    if !first && table.get? d.name == some d then defineAll engine first rest
    else
      match table.define d engine.functions.contains with
      | .error e => throw e
      | .ok table => do
        modify fun w => { w with context := { w.context with definitions := table } }
        defineAll engine first rest
  | _ :: rest => defineAll engine first rest

def outcome (engine : Engine) : Node → Rendering Outcome
  | .text source => return { text := source }
  | .define .. => return { text := [], changed := true }
  | .slot s source => do
    match ← slot? engine s with
    | none => return { text := source }
    | some (t, attachments) => return { text := t, changed := true, attachments }

/-- What the nodes become; the last one is treated first. -/
def outcomes (engine : Engine) : List Node → Rendering (List Outcome)
  | [] => return []
  | n :: rest => do
    let later ← outcomes engine rest
    return (← outcome engine n) :: later

/-- The edits of a pass: the definitions are taken out, and then the slots are replaced that do not stay, the
last one first. -/
def edits (nodes : List Node) (done : List Outcome) : List Edit :=
  let changed := ((Node.placedFrom 0 nodes).zip done).filter fun p => p.2.changed
  let (slots, definitions) := changed.partition fun p => p.1.1.slot?.isSome
  (definitions ++ slots.reverse).map fun p => ⟨p.1.2, p.2.text⟩

def pass (engine : Engine) (first : Bool) (t : Text) : Rendering (Text × Bool) := do
  match parse t with
  | .error e => throw e
  | .ok nodes => do
    defineAll engine first nodes
    let done ← outcomes engine nodes
    let attached := done.flatMap Outcome.attachments
    modify fun w =>
      { w with context := { w.context with attachments := w.context.attachments ++ attached } }
    let es := edits nodes done
    return if es.isEmpty then (t, false) else (Edit.applyAll t es, true)

/-- So many passes, or fewer. Every pass but the first one stores new code spans beforehand. -/
def passes (engine : Engine) : Nat → Bool → Text → Rendering Text
  | 0, _, t => return t
  | n + 1, first, t => do
    let t ← if first then pure t else mask t
    let (t, changed) ← pass engine first t
    if changed then passes engine n false t else return t

def whole (engine : Engine) (t : Text) : Rendering Output := do
  let t := Comment.strip (← mask t)
  if (← get).context.options.matchesOnly then
    match slotMatches t with
    | .ok ms => return .slots ms
    | .error e => throw e
  else do
    let t ← passes engine maxPasses true t
    return .text ((← get).vault.restore t)

end Rendering

namespace Engine

def render (engine : Engine) (t : Text) (context : Context) : Except Error Output × Context :=
  let (result, w) := (Rendering.whole engine t).run.run { context, vault := .empty }
  (result, w.context)

def renderText (engine : Engine) (t : Text) : Except Error Text × List Warning :=
  let (result, context) := engine.render t {}
  (result.map fun
    | .text t => t
    | .slots _ => [],
    context.warnings)

end Engine
end Stencil
