import Stencil.Tag.Opening
import Stencil.Text.Edit

/-! # Nodes

A template is a row of nodes: text, definitions and slots, each with its own source, so that the
sources of the nodes, one after the other, are the template. A brace begins a tag only where one can
follow; three braces in a row are one brace of text before a slot.

The content of a definition is scanned for its closing tag by the rules of templates. Where these are
broken the definition may still be closed by the first closing tag with its name that the text shows,
and then it is raw. A raw definition is also one with a text value that is no template. -/
set_option autoImplicit false
namespace Stencil

open SyntaxError (literal)

inductive Lead where
  | text
  | slot
  | opening
  | closing
deriving Repr, DecidableEq

def lead (t : Text) : Lead :=
  match t with
  | '{' :: '{' :: '{' :: _ => .text
  | '{' :: '{' :: _ => .slot
  | '{' :: rest =>
    match rest.dropWhile isLineBlank with
    | [] => .text
    | c :: _ =>
      if c = '/' then .closing
      else if isNameChar c || c = '@' || c = '}' || c = '=' then .opening
      else .text
  | _ => .text

/-- Where the content of a definition ends, by the number of characters that are left. -/
structure Closing where
  /-- Characters left at the closing tag. -/
  left : Nat
  /-- Characters left behind the closing tag. -/
  after : Nat
deriving Repr, DecidableEq

def closingTag? (name t : Text) : Option Nat :=
  match t with
  | '{' :: t =>
    match t.dropWhile isLineBlank with
    | '/' :: t =>
      let t := t.dropWhile isLineBlank
      if Text.startsWith t name then
        match (t.drop name.length).dropWhile isLineBlank with
        | '}' :: t => some t.length
        | _ => none
      else none
    | _ => none
  | _ => none

/-- The first closing tag for `name` in the text, whatever stands before it. -/
def findClosing? (name : Text) : Text → Option Closing
  | [] => none
  | c :: rest =>
    match closingTag? name (c :: rest) with
    | some after => some ⟨rest.length + 1, after⟩
    | none => findClosing? name rest

def skipLineBreak (c : Cursor) : Cursor :=
  match c.rest with
  | '\n' :: _ => c.advance 1
  | '\r' :: '\n' :: _ => c.advance 2
  | _ => c

/-- The closing of a block whose scan ended with `scanned`, and whether the content had to be taken
without being understood. -/
def settleClosing (name content : Text) (scanned : Except Error Closing) :
    Except Error (Closing × Bool) :=
  match scanned with
  | .ok k => .ok (k, false)
  | .error (.syntactic e) =>
    match findClosing? name content with
    | some k => .ok (k, true)
    | none => .error (.syntactic e)
  | .error e => .error e

theorem reaches_skipLineBreak (c : Cursor) : c.Reaches (skipLineBreak c) := by
  unfold skipLineBreak
  split
  · exact c.reaches_advance 1
  · exact c.reaches_advance 2
  · exact Cursor.Reaches.refl c

def strayClosing (slash : Nat) : SyntaxError :=
  SyntaxError.new [literal "@", Reader.identifier] (some ['/']) slash

def closingFor (name : Text) : Text := '"' :: '{' :: '/' :: name ++ ['}', '"']

/-- Reads template text up to the closing tag for the open definition, or, without an open definition,
to the end. -/
def scan (openName : Option Text) (c : Cursor) : Except Error Closing :=
  match _hc : c.rest with
  | [] =>
    match openName with
    | none => .ok ⟨0, 0⟩
    | some name => .error (.syntactic (c.unclosed [closingFor name]))
  | _ :: _ =>
    match lead c.rest with
    | .text => scan openName (c.advance 1)
    | .slot =>
      match _h : Reader.slot.run c with
      | .error e => .error (.syntactic e)
      | .ok (_, next) => scan openName next
    | .closing =>
      match Reader.closing.run c with
      | .error e => .error (.syntactic e)
      | .ok ((name, slash), next) =>
        match openName with
        | none => .error (.syntactic (strayClosing slash))
        | some opened =>
          if opened = name then .ok ⟨c.rest.length, next.rest.length⟩
          else .error (.mismatchedTags opened name c.offset)
    | .opening =>
      match _h : Reader.opening.run c with
      | .error e => .error (.syntactic e)
      | .ok (o, next) =>
        match o.form with
        | .single _ => scan openName (skipLineBreak next)
        | .block _ =>
          match settleClosing o.name next.rest (scan (some o.name) next) with
          | .error e => .error e
          | .ok (k, _) => scan openName (skipLineBreak (next.skipTo k.after))
termination_by c.rest.length
decreasing_by
  · simp [Cursor.advance, _hc]
  · have := Reader.length_slot _h
    rw [_hc, List.length_cons] at this
    simp only [_hc, List.length_cons]
    omega
  · have := Reader.length_opening _h
    have := (reaches_skipLineBreak next).length_le
    rw [_hc, List.length_cons] at *
    omega
  · have := Reader.length_opening _h
    rw [_hc, List.length_cons] at *
    omega
  · have := Reader.length_opening _h
    have := (reaches_skipLineBreak (next.skipTo k.after)).length_le
    have := (next.reaches_advance (next.rest.length - k.after)).length_le
    simp only [Cursor.skipTo] at *
    rw [_hc, List.length_cons] at *
    omega

def isTemplate (t : Text) : Bool :=
  match scan none (Cursor.start t) with
  | .ok _ => true
  | .error _ => false

/-- The content without one line break at its start and one at its end. -/
def trimLineBreaks (t : Text) : Text :=
  let t :=
    match t with
    | '\r' :: '\n' :: rest => rest
    | '\n' :: rest => rest
    | t => t
  match t.reverse with
  | '\n' :: '\r' :: rest => rest.reverse
  | '\n' :: rest => rest.reverse
  | _ => t

/-- The source of a definition: its opening tag, its content, and its closing tag with the line break
behind it. A single tag has no content; the line break follows it at once. -/
structure DefinitionSource where
  opening : Text
  body : Option Text
  closing : Text
deriving Repr, DecidableEq

namespace DefinitionSource

def text (s : DefinitionSource) : Text := s.opening ++ s.body.getD [] ++ s.closing

def bodySpan (offset : Nat) (source : DefinitionSource) (body : Text) : Span :=
  ⟨offset + Text.size source.opening, offset + Text.size source.opening + Text.size body⟩

end DefinitionSource

inductive Node where
  | text (source : Text)
  | define (d : Definition) (source : DefinitionSource)
  | slot (s : Slot) (source : Text)
deriving DecidableEq

namespace Node

def source : Node → Text
  | .text source => source
  | .define _ source => source.text
  | .slot _ source => source

def placedFrom (offset : Nat) : List Node → List (Node × Span)
  | [] => []
  | n :: ns => (n, ⟨offset, offset + Text.size n.source⟩) ::
      placedFrom (offset + Text.size n.source) ns

def consText (c : Char) : List Node → List Node
  | .text source :: rest => .text (c :: source) :: rest
  | nodes => .text [c] :: nodes

/-- The definition of a single tag. A text value that is no template makes it raw. -/
def singleDefinition (o : Opening) (v : Value) : Definition :=
  let readable :=
    match v with
    | .text t => isTemplate t
    | .number _ => true
  { name := o.name, content := v.display, raw := o.raw || !readable }

def definition (c : Cursor) : Except Error (Definition × DefinitionSource × Cursor) :=
  match Reader.opening.run c with
  | .error e => .error (.syntactic e)
  | .ok (o, next) =>
    match o.form with
    | .single v =>
      let last := skipLineBreak next
      .ok (singleDefinition o v, ⟨c.upto next, none, next.upto last⟩, last)
    | .block ps =>
      match settleClosing o.name next.rest (scan (some o.name) next) with
      | .error e => .error e
      | .ok (k, taken) =>
        let tag := next.skipTo k.left
        let last := skipLineBreak (next.skipTo k.after)
        let body := next.upto tag
        .ok ({ name := o.name, required := ps.required, optional := ps.optional,
               content := trimLineBreaks body, raw := o.raw || taken },
          ⟨c.upto next, some body, tag.upto last⟩, last)

theorem length_definition {c last : Cursor} {d : Definition} {s : DefinitionSource}
    (h : definition c = .ok (d, s, last)) : last.rest.length ≤ c.rest.length - 1 := by
  simp only [definition] at h
  split at h
  · cases h
  next o next ho =>
    have hn := Reader.length_opening ho
    split at h
    · simp only [Except.ok.injEq, Prod.mk.injEq] at h
      obtain ⟨-, -, rfl⟩ := h
      exact Nat.le_trans (reaches_skipLineBreak next).length_le hn
    · split at h
      · cases h
      next k taken hk =>
        simp only [Except.ok.injEq, Prod.mk.injEq] at h
        obtain ⟨-, -, rfl⟩ := h
        refine Nat.le_trans (reaches_skipLineBreak _).length_le (Nat.le_trans ?_ hn)
        exact (next.reaches_advance _).length_le

def from? (c : Cursor) : Except Error (List Node) :=
  match _hc : c.rest with
  | [] => .ok []
  | ch :: _ =>
    match lead c.rest with
    | .text =>
      match from? (c.advance 1) with
      | .error e => .error e
      | .ok nodes => .ok (consText ch nodes)
    | .slot =>
      match _h : Reader.slot.run c with
      | .error e => .error (.syntactic e)
      | .ok (s, next) =>
        match from? next with
        | .error e => .error e
        | .ok nodes => .ok (.slot s (c.upto next) :: nodes)
    | .closing =>
      match Reader.closing.run c with
      | .error e => .error (.syntactic e)
      | .ok ((_, slash), _) => .error (.syntactic (strayClosing slash))
    | .opening =>
      match _h : definition c with
      | .error e => .error e
      | .ok (d, source, next) =>
        match from? next with
        | .error e => .error e
        | .ok nodes => .ok (.define d source :: nodes)
termination_by c.rest.length
decreasing_by
  · simp [Cursor.advance, _hc]
  · have := Reader.length_slot _h
    rw [_hc, List.length_cons] at this
    simp only [_hc, List.length_cons]
    omega
  · have := length_definition _h
    rw [_hc, List.length_cons] at this
    simp only [_hc, List.length_cons]
    omega

def slot? : Node → Option Slot
  | .slot s _ => some s
  | _ => none

end Node

def parse (t : Text) : Except Error (List Node) := (Node.from? (Cursor.start t)).mapError (·.locate t)

structure SlotMatch where
  slot : Slot
  offset : Nat
  length : Nat
deriving DecidableEq

def slotMatchesFrom (offset : Nat) : List Node → List SlotMatch
  | [] => []
  | node :: rest =>
    let length := Text.size node.source
    let later := slotMatchesFrom (offset + length) rest
    match node with
    | .slot s _ => ⟨s, offset, length⟩ :: later
    | _ => later

/-- The slots of a template, in order, those inside definitions apart. -/
def slotMatches (t : Text) : Except Error (List SlotMatch) := (parse t).map (slotMatchesFrom 0)

end Stencil
