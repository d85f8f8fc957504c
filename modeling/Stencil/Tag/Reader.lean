import Stencil.Arithmetic.Token
import Stencil.SyntaxError

/-! # Reading tags

A cursor stands between the characters of a text: it knows how many bytes lie behind it and what
lies before it. A reader takes a cursor and gives a result with a later cursor, or a syntax error.
`Advances` says that a reader only moves forward; it is closed under the ways of composing readers,
so that it holds of every reader that is built from the ones below. -/
set_option autoImplicit false
namespace Stencil

structure Cursor where
  /-- The number of bytes before the position. -/
  offset : Nat
  /-- The text behind it. -/
  rest : Text
deriving Repr, DecidableEq

namespace Cursor

def start (t : Text) : Cursor := ⟨0, t⟩

def advance (c : Cursor) (n : Nat) : Cursor :=
  ⟨c.offset + Text.size (c.rest.take n), c.rest.drop n⟩

def skipTo (c : Cursor) (left : Nat) : Cursor := c.advance (c.rest.length - left)

def upto (c later : Cursor) : Text := c.rest.take (c.rest.length - later.rest.length)

/-- The error of finding none of the alternatives here. -/
def unexpected (c : Cursor) (expected : List Text) : SyntaxError :=
  SyntaxError.new expected (c.rest.head?.map fun ch => [ch]) c.offset

/-- The error of finding none of the alternatives up to the end of the text. -/
def unclosed (c : Cursor) (expected : List Text) : SyntaxError :=
  SyntaxError.new expected none (c.offset + Text.size c.rest)

/-- The second cursor is the first one or comes after it in the same text. -/
def Reaches (c later : Cursor) : Prop :=
  ∃ passed, c.rest = passed ++ later.rest ∧ later.offset = c.offset + Text.size passed

theorem Reaches.refl (c : Cursor) : c.Reaches c := ⟨[], by simp⟩

theorem Reaches.trans {a b c : Cursor} (h : a.Reaches b) (h' : b.Reaches c) : a.Reaches c := by
  obtain ⟨p, hp, hp'⟩ := h
  obtain ⟨q, hq, hq'⟩ := h'
  exact ⟨p ++ q, by simp [hp, hq], by simp [hp', hq', Nat.add_assoc]⟩

theorem reaches_advance (c : Cursor) (n : Nat) : c.Reaches (c.advance n) :=
  ⟨c.rest.take n, by simp [advance], rfl⟩

theorem Reaches.length_le {c later : Cursor} (h : c.Reaches later) :
    later.rest.length ≤ c.rest.length := by
  obtain ⟨p, hp, -⟩ := h
  simp [hp]

/-- The text between two cursors, and what follows it. -/
theorem Reaches.upto_append {c later : Cursor} (h : c.Reaches later) :
    c.upto later ++ later.rest = c.rest := by
  obtain ⟨p, hp, -⟩ := h
  simp [upto, hp]

end Cursor

abbrev Reader := StateT Cursor (Except SyntaxError)

namespace Reader

variable {α β : Type}

structure Advances (p : Reader α) : Prop where
  reaches : ∀ {c : Cursor} {a : α} {c' : Cursor}, p.run c = .ok (a, c') → c.Reaches c'

theorem advances_pure (a : α) : Advances (pure a : Reader α) := by
  refine ⟨fun {c b c'} h => ?_⟩
  obtain ⟨-, rfl⟩ := Prod.mk.inj (Except.ok.inj h)
  exact Cursor.Reaches.refl c

theorem Advances.bind {p : Reader α} {f : α → Reader β} (hp : Advances p)
    (hf : ∀ a, Advances (f a)) : Advances (p >>= f) := by
  refine ⟨fun {c b c'} h => ?_⟩
  rw [StateT.run_bind] at h
  cases hpc : p.run c with
  | error e => rw [hpc] at h; cases h
  | ok r =>
    rw [hpc] at h
    exact (hp.reaches hpc).trans ((hf r.1).reaches h)

theorem Advances.ite {P : Prop} [Decidable P] {p q : Reader α} (hp : Advances p)
    (hq : Advances q) : Advances (if P then p else q) := by
  split <;> assumption

theorem advances_get : Advances (get : Reader Cursor) := by
  refine ⟨fun {c a c'} h => ?_⟩
  obtain ⟨-, rfl⟩ := Prod.mk.inj (Except.ok.inj h)
  exact Cursor.Reaches.refl c

/-! ## The basic readers -/

def fail (expected : List Text) : Reader α := fun c => .error (c.unexpected expected)

def peek : Reader (Option Char) := fun c => .ok (c.rest.head?, c)

def skip (n : Nat) : Reader Unit := fun c => .ok ((), c.advance n)

def takeWhile (p : Char → Bool) : Reader Text := fun c =>
  let taken := c.rest.takeWhile p
  .ok (taken, c.advance taken.length)

/-- Takes one character if it is the next one, and tells whether it was. -/
def eat (ch : Char) : Reader Bool := fun c =>
  if c.rest.head? = some ch then .ok (true, c.advance 1) else .ok (false, c)

/-- Skips the spaces inside a tag, line breaks included. -/
def skipSpace : Reader Unit := do
  let _ ← takeWhile isTagSpace

def skipBlanks : Reader Unit := do
  let _ ← takeWhile isLineBlank

def demand (ch : Char) (expected : List Text) : Reader Unit := do
  if ← eat ch then return () else fail expected

def name (expected : List Text) : Reader Text := do
  match ← peek with
  | some c => if isNameStart c then takeWhile isNameChar else fail expected
  | none => fail expected

theorem advances_fail (expected : List Text) : Advances (fail expected : Reader α) := by
  refine ⟨fun {c a c'} h => ?_⟩
  cases h

theorem advances_peek : Advances peek := by
  refine ⟨fun {c a c'} h => ?_⟩
  obtain ⟨-, rfl⟩ := Prod.mk.inj (Except.ok.inj h)
  exact Cursor.Reaches.refl c

theorem advances_skip (n : Nat) : Advances (skip n) := by
  refine ⟨fun {c a c'} h => ?_⟩
  obtain ⟨-, rfl⟩ := Prod.mk.inj (Except.ok.inj h)
  exact c.reaches_advance n

theorem advances_takeWhile (p : Char → Bool) : Advances (takeWhile p) := by
  refine ⟨fun {c a c'} h => ?_⟩
  obtain ⟨-, rfl⟩ := Prod.mk.inj (Except.ok.inj h)
  exact c.reaches_advance _

theorem advances_eat (ch : Char) : Advances (eat ch) := by
  refine ⟨fun {c a c'} h => ?_⟩
  simp only [eat, StateT.run] at h
  split at h <;> obtain ⟨-, rfl⟩ := Prod.mk.inj (Except.ok.inj h)
  · exact c.reaches_advance 1
  · exact Cursor.Reaches.refl c

theorem advances_skipSpace : Advances skipSpace :=
  (advances_takeWhile _).bind fun _ => advances_pure _

theorem advances_skipBlanks : Advances skipBlanks :=
  (advances_takeWhile _).bind fun _ => advances_pure _

theorem advances_demand (ch : Char) (expected : List Text) : Advances (demand ch expected) :=
  (advances_eat ch).bind fun _ => .ite (advances_pure _) (advances_fail _)

theorem advances_name (expected : List Text) : Advances (name expected) :=
  advances_peek.bind fun o => by
    cases o with
    | none => exact advances_fail _
    | some c => exact .ite (advances_takeWhile _) (advances_fail _)

end Reader
end Stencil
