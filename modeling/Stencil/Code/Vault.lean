import Stencil.Code.Span

/-! # The vault

While a template is worked on, code and finished insertions wait in a vault, and a placeholder stands
in their place: two private-use characters around the index of the stored segment. A segment may
itself hold placeholders of earlier segments, so restoring repeats, once more than there are
segments. A placeholder whose index names no segment is ordinary text. -/
set_option autoImplicit false
namespace Stencil

/-- The characters around the index in a placeholder. -/
def placeholderOpen : Char := '\uE000'
def placeholderClose : Char := '\uE001'

/-- The texts that are stored, in the order in which they came. -/
structure Vault where
  segments : List Text := []
deriving Repr, DecidableEq

namespace Vault

def empty : Vault := {}

def placeholder (index : Nat) : Text := placeholderOpen :: Text.ofNat index ++ [placeholderClose]

def protect (v : Vault) (t : Text) : Text × Vault :=
  (placeholder v.segments.length, { segments := v.segments ++ [t] })

def maskPieces (v : Vault) : List Code.Piece → Text × Vault
  | [] => ([], v)
  | .prose s :: rest =>
    let (masked, w) := maskPieces v rest
    (s ++ masked, w)
  | .code s :: rest =>
    let (mark, stored) := v.protect s
    let (masked, w) := maskPieces stored rest
    (mark ++ masked, w)

def mask (v : Vault) (t : Text) : Text × Vault := maskPieces v (Code.pieces t)

/-- Reads the digits and the end of a placeholder, of which the first character has been read. -/
def placeholderTail? (t : Text) : Option (Text × Text) :=
  let digits := t.takeWhile Char.isDigit
  match t.dropWhile Char.isDigit with
  | [] => none
  | c :: rest => if digits ≠ [] ∧ c = placeholderClose then some (digits, rest) else none

theorem length_placeholderTail? {t digits rest : Text}
    (h : placeholderTail? t = some (digits, rest)) : rest.length < t.length := by
  simp only [placeholderTail?] at h
  split at h
  · simp at h
  next c tail hdrop =>
    split at h
    · obtain ⟨-, rfl⟩ := Prod.mk.inj (Option.some.inj h)
      have := (List.dropWhile_sublist Char.isDigit (l := t)).length_le
      rw [hdrop, List.length_cons] at this
      omega
    · simp at h

def segment (v : Vault) (digits : Text) : Text :=
  (v.segments[Text.digitsValue digits]?).getD
    (placeholderOpen :: digits ++ [placeholderClose])

/-- Puts every segment in the place of its placeholder, once. -/
def restoreOnce (v : Vault) (t : Text) : Text :=
  match t with
  | [] => []
  | c :: rest =>
    if c = placeholderOpen then
      match _h : placeholderTail? rest with
      | some (digits, after) => v.segment digits ++ restoreOnce v after
      | none => c :: restoreOnce v rest
    else c :: restoreOnce v rest
termination_by t.length
decreasing_by
  · have := length_placeholderTail? _h
    simp only [List.length_cons]
    omega
  · simp
  · simp

/-- Puts every segment back, those inside segments included. -/
def restore (v : Vault) (t : Text) : Text :=
  Nat.repeat v.restoreOnce (v.segments.length + 1) t

end Vault
end Stencil
