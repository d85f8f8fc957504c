import Stencil.Tag.Slot

/-! # Definition tags

A definition begins with a name in single braces. A value behind an equals sign makes it a single tag;
otherwise parameters may follow in parentheses, and the content stands between this tag and a closing
tag with the same name. An at sign before the name marks the definition as raw. -/
set_option autoImplicit false
namespace Stencil

structure Params where
  required : List Text := []
  optional : List (Text × Value) := []
deriving BEq, DecidableEq

inductive Form where
  /-- The content is this value. -/
  | single (v : Value)
  /-- The content follows, up to a closing tag. -/
  | block (params : Params)
deriving BEq, DecidableEq

structure Opening where
  name : Text
  raw : Bool
  form : Form
deriving BEq, DecidableEq

namespace Reader

open SyntaxError (literal)

def identifier : Text := "identifier".toList

def closeBrace : Reader Unit := demand '}' [literal "\x7d"]

/-- One parameter, with its default if it has one; after a parameter with a default every parameter
needs one. -/
def parameter (defaulted : Bool) : Reader (Text × Option Value) := do
  skipSpace
  let n ← name [identifier]
  skipSpace
  if ← eat '=' then do
    skipSpace
    let v ← value []
    skipSpace
    return (n, some v)
  else if defaulted then fail [literal "="]
  else return (n, none)

def Params.add (p : Text × Option Value) (ps : Params) : Params :=
  match p with
  | (n, some v) => { ps with optional := (n, v) :: ps.optional }
  | (n, none) => { ps with required := n :: ps.required }

theorem advances_parameter (defaulted : Bool) : Advances (parameter defaulted) :=
  advances_skipSpace.bind fun _ => (advances_name _).bind fun _ => advances_skipSpace.bind fun _ =>
    (advances_eat _).bind fun _ => .ite
      (advances_skipSpace.bind fun _ => (advances_value _).bind fun _ =>
        advances_skipSpace.bind fun _ => advances_pure _)
      (.ite (advances_fail _) (advances_pure _))

def parametersFrom (defaulted : Bool) (c : Cursor) : Except SyntaxError (Params × Cursor) :=
  match _h : (parameter defaulted).run c with
  | .error e => .error e
  | .ok (p, next) =>
    match _hr : next.rest with
    | [] => .error (next.unexpected [literal ")", literal ",", literal "="])
    | ch :: _ =>
      if ch = ',' then
        match parametersFrom (defaulted || p.2.isSome) (next.advance 1) with
        | .error e => .error e
        | .ok (ps, last) => .ok (Params.add p ps, last)
      else if ch = ')' then .ok (Params.add p {}, next.advance 1)
      else .error (next.unexpected [literal ")", literal ",", literal "="])
termination_by c.rest.length
decreasing_by
  have := ((advances_parameter defaulted).reaches _h).length_le
  simp only [Cursor.advance, List.length_drop]
  rw [_hr, List.length_cons] at this ⊢
  omega

def parameters : Reader Params := do
  skip 1
  skipSpace
  if ← eat ')' then return {} else parametersFrom false

def form : Reader Form := do
  match ← peek with
  | some '=' => do
    skip 1
    skipSpace
    let v ← value []
    skipSpace
    closeBrace
    return .single v
  | some '(' => do
    let ps ← parameters
    skipSpace
    closeBrace
    return .block ps
  | some '}' => do
    skip 1
    return .block {}
  | _ => fail [literal "(", literal "=", literal "\x7d"]

def openingTail : Reader Opening := do
  skipBlanks
  let raw ← eat '@'
  skipBlanks
  let n ← name (if raw then [identifier] else [literal "@", identifier])
  skipSpace
  return { name := n, raw, form := ← form }

def opening : Reader Opening := do
  skip 1
  openingTail

def closing : Reader (Text × Nat) := do
  skip 1
  skipBlanks
  let c ← get
  let _ ← eat '/'
  skipBlanks
  let n ← name [identifier]
  skipBlanks
  closeBrace
  return (n, c.offset)

/-! ## Tags move forward -/

theorem advances_closeBrace : Advances closeBrace := advances_demand _ _

theorem advances_parametersFrom (defaulted : Bool) :
    Advances (parametersFrom defaulted : Reader Params) := by
  refine ⟨fun {c ps c'} h => ?_⟩
  simp only [StateT.run] at h
  fun_induction parametersFrom defaulted c generalizing ps with
  | case1 => cases h
  | case2 => cases h
  | case3 => cases h
  | case4 defaulted c p next hp tail qs last hn hr ih =>
    obtain ⟨-, rfl⟩ := Prod.mk.inj (Except.ok.inj h)
    exact ((advances_parameter _).reaches hp).trans ((next.reaches_advance 1).trans (ih hn))
  | case5 defaulted c p next hp =>
    obtain ⟨-, rfl⟩ := Prod.mk.inj (Except.ok.inj h)
    exact ((advances_parameter _).reaches hp).trans (next.reaches_advance 1)
  | case6 => cases h

theorem advances_parameters : Advances parameters :=
  (advances_skip 1).bind fun _ => advances_skipSpace.bind fun _ => (advances_eat ')').bind fun _ =>
    .ite (advances_pure _) (advances_parametersFrom _)

theorem advances_form : Advances form := by
  refine advances_peek.bind fun o => ?_
  split
  · exact (advances_skip 1).bind fun _ => advances_skipSpace.bind fun _ =>
      (advances_value _).bind fun _ => advances_skipSpace.bind fun _ =>
        advances_closeBrace.bind fun _ => advances_pure _
  · exact advances_parameters.bind fun _ => advances_skipSpace.bind fun _ =>
      advances_closeBrace.bind fun _ => advances_pure _
  · exact (advances_skip 1).bind fun _ => advances_pure _
  · exact advances_fail _

theorem advances_openingTail : Advances openingTail :=
  advances_skipBlanks.bind fun _ => (advances_eat _).bind fun _ => advances_skipBlanks.bind fun _ =>
    (advances_name _).bind fun _ => advances_skipSpace.bind fun _ =>
      advances_form.bind fun _ => advances_pure _

theorem length_opening {c c' : Cursor} {o : Opening} (h : opening.run c = .ok (o, c')) :
    c'.rest.length ≤ c.rest.length - 1 := by
  have h' : openingTail.run (c.advance 1) = .ok (o, c') := h
  have := (advances_openingTail.reaches h').length_le
  simpa [Cursor.advance] using this

theorem advances_opening : Advances opening :=
  (advances_skip 1).bind fun _ => advances_openingTail

theorem advances_closing : Advances closing :=
  (advances_skip 1).bind fun _ => advances_skipBlanks.bind fun _ => advances_get.bind fun _ =>
    (advances_eat _).bind fun _ => advances_skipBlanks.bind fun _ => (advances_name _).bind fun _ =>
      advances_skipBlanks.bind fun _ => advances_closeBrace.bind fun _ => advances_pure _

end Reader
end Stencil
