/-! # Text

A text is a list of characters. Offsets and lengths that leave the library count the bytes of the
text's UTF-8 form; `Text.size` is that count, and it adds up over concatenation. Texts are ordered
by their characters, which is also the order of their UTF-8 bytes. -/
set_option autoImplicit false
namespace Stencil

abbrev Text := List Char

namespace Text

def size : Text → Nat
  | [] => 0
  | c :: rest => c.utf8Size + size rest

@[simp] theorem size_nil : size [] = 0 := rfl

@[simp] theorem size_cons (c : Char) (rest : Text) : size (c :: rest) = c.utf8Size + size rest := rfl

@[simp] theorem size_append (s t : Text) : size (s ++ t) = size s + size t := by
  induction s with
  | nil => simp
  | cons c s ih => simp [ih, Nat.add_assoc]

/-- A text has at least as many bytes as characters. -/
theorem length_le_size (t : Text) : t.length ≤ size t := by
  induction t with
  | nil => simp
  | cons c t ih =>
    have := Char.utf8Size_pos c
    simp only [List.length_cons, size_cons]
    omega

/-- The longest initial part that has at most `n` bytes. -/
def takeBytes : Nat → Text → Text
  | _, [] => []
  | n, c :: rest => if c.utf8Size ≤ n then c :: takeBytes (n - c.utf8Size) rest else []

def dropBytes (n : Nat) (t : Text) : Text := t.drop (takeBytes n t).length

def startsWith (t s : Text) : Bool := s.isPrefixOf t

def endsWith (t s : Text) : Bool := s.isSuffixOf t

/-- The first text that comes before the second one, character by character. -/
def before : Text → Text → Bool
  | [], _ => true
  | _ :: _, [] => false
  | c :: s, d :: t => if c = d then before s t else c < d

def sort (ts : List Text) : List Text := ts.mergeSort before

def dropRepeats : List Text → List Text
  | [] => []
  | [t] => [t]
  | s :: t :: rest => if s = t then dropRepeats (t :: rest) else s :: dropRepeats (t :: rest)

def join (mark : Text) (ts : List Text) : Text := mark.intercalate ts

def splitAt (mark : Char) : Text → List Text
  | [] => [[]]
  | c :: rest =>
    if c = mark then [] :: splitAt mark rest
    else
      match splitAt mark rest with
      | [] => [[c]]
      | part :: parts => (c :: part) :: parts

/-- Splitting leaves nothing out: joining the parts gives the text back. -/
theorem join_splitAt (mark : Char) (t : Text) : join [mark] (splitAt mark t) = t := by
  induction t with
  | nil => rfl
  | cons c t ih =>
    have hne : splitAt mark t ≠ [] := by
      cases t with
      | nil => simp [splitAt]
      | cons d t =>
        simp only [splitAt]
        split
        · simp
        · split <;> simp
    simp only [splitAt]
    split
    next h =>
      obtain ⟨p, ps, hp⟩ := List.exists_cons_of_ne_nil hne
      rw [hp] at ih ⊢
      simpa [join, List.intercalate, List.intersperse, h] using ih
    next h =>
      obtain ⟨p, ps, hp⟩ := List.exists_cons_of_ne_nil hne
      rw [hp] at ih ⊢
      cases ps with
      | nil => simpa [join, List.intercalate] using ih
      | cons q qs => simpa [join, List.intercalate, List.intersperse] using ih

/-- The lines of the text, in the manner of a line reader: each line feed ends a line, one carriage
return before it belongs to the line end, and no empty line follows a final line feed. -/
def lines (t : Text) : List Text :=
  let parts := splitAt '\n' t
  let ended := parts.dropLast.map fun line => if endsWith line ['\r'] then line.dropLast else line
  match parts.getLast? with
  | none => ended
  | some [] => ended
  | some last => ended ++ [last]

/-- Where `s` first occurs in the text: what stands before it. -/
def before? (s : Text) : Text → Option Text
  | [] => if s.isEmpty then some [] else none
  | c :: rest =>
    if startsWith (c :: rest) s then some []
    else (before? s rest).map (c :: ·)

def ofNat (n : Nat) : Text := Nat.toDigits 10 n

def digitsValue (digits : Text) : Nat :=
  digits.foldl (fun n c => 10 * n + (c.toNat - '0'.toNat)) 0

def lower (t : Text) : Text := t.map Char.toLower

end Text
end Stencil
