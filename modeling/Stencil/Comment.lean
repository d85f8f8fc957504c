import Stencil.Text.Blank

/-! # Comments

A comment runs from two slashes to the end of its line, which stays, or from a slash and a star to the
first star and slash, or to the end of the text. Two slashes right after a colon are no comment, and
nothing is one inside a double-quoted string within a tag. A brace counts as the start of a tag when
a letter, a digit, a brace, an at sign, a slash or an underscore follows it, blanks apart. -/
set_option autoImplicit false
namespace Stencil.Comment

/-- Whether a brace with this text behind it starts a tag. -/
def opensTag (after : Text) : Bool :=
  match after.dropWhile isLineBlank with
  | [] => false
  | c :: _ => c.isAlphanum || c = '{' || c = '@' || c = '/' || c = '_'

/-- A string up to its end, of which the opening quote has been read, and what follows it. A closing
quote or a line feed ends the string and belongs to it. -/
def stringTail : Text → Text × Text
  | [] => ([], [])
  | ['\\'] => (['\\'], [])
  | '\\' :: c :: rest =>
    let (inside, after) := stringTail rest
    ('\\' :: c :: inside, after)
  | c :: rest =>
    if c = '"' ∨ c = '\n' then ([c], rest)
    else
      let (inside, after) := stringTail rest
      (c :: inside, after)

def afterBlock : Text → Text
  | [] => []
  | '*' :: '/' :: rest => rest
  | _ :: rest => afterBlock rest

theorem length_stringTail (t : Text) : (stringTail t).2.length ≤ t.length := by
  fun_induction stringTail t <;> simp_all <;> omega

theorem length_afterBlock (t : Text) : (afterBlock t).length ≤ t.length := by
  fun_induction afterBlock t <;> simp_all <;> omega

/-- Strips the comments from a text that has `depth` open tags in front of it; `afterColon` tells
whether a colon stands right before it. -/
def stripFrom (depth : Nat) (afterColon : Bool) (t : Text) : Text :=
  match t with
  | [] => []
  | c :: rest =>
    if c = '{' ∧ opensTag rest then c :: stripFrom (depth + 1) false rest
    else if c = '}' then c :: stripFrom (depth - 1) false rest
    else if c = '"' ∧ 0 < depth then
      c :: (stringTail rest).1 ++ stripFrom depth false (stringTail rest).2
    else if c = '/' ∧ rest.head? = some '/' ∧ ¬ afterColon then
      stripFrom depth false (rest.dropWhile (· ≠ '\n'))
    else if c = '/' ∧ rest.head? = some '*' then stripFrom depth false (afterBlock rest.tail)
    else c :: stripFrom depth (c = ':') rest
termination_by t.length
decreasing_by
  · simp
  · simp
  · have := length_stringTail rest
    simp only [List.length_cons]
    omega
  · have := (List.dropWhile_sublist (· ≠ '\n') (l := rest)).length_le
    simp only [List.length_cons]
    omega
  · have := length_afterBlock rest.tail
    simp only [List.length_tail, List.length_cons] at this ⊢
    omega
  · simp

def strip (t : Text) : Text := stripFrom 0 false t

end Stencil.Comment
