import Stencil.Arithmetic.Token
import Stencil.Arithmetic.Expr

/-! # Reading expressions

Sums bind loosest, then products, then the minus sign, then powers. Sums and products group to the
left, powers to the right, and an exponent may have a sign of its own, so that `-2^2` is `-(2^2)` and
`2^-1` is a half. Every reader returns fewer lexemes than it was given, which is why the recursion
ends: each call either has fewer lexemes or stands one level tighter. -/
set_option autoImplicit false
namespace Stencil.Arithmetic

open SyntaxError (literal)

def operators : List Text :=
  [literal "*", literal "+", literal "-", literal "/", literal "^"]

def operands : List Text := [literal "(", literal "-", "identifier".toList, "number".toList]

/-- The error at the front of the lexemes; `stop` is the length of the whole text. -/
def unexpected (expected : List Text) (stop : Nat) (ts : List Lexeme) : SyntaxError :=
  match ts with
  | [] => SyntaxError.new expected none stop
  | t :: _ => SyntaxError.new expected (some t.token.display) t.offset

def additive? : Token → Option Operator
  | .plus => some .add
  | .minus => some .sub
  | _ => none

def multiplicative? : Token → Option Operator
  | .star => some .mul
  | .slash => some .div
  | _ => none

/-- An expression and fewer lexemes than `ts` behind it. -/
abbrev Parsed (ts : List Lexeme) := { p : Expr × List Lexeme // p.2.length < ts.length }

/-- An expression and no more lexemes than `ts` behind it. -/
abbrev Extended (ts : List Lexeme) := { p : Expr × List Lexeme // p.2.length ≤ ts.length }

mutual

def sum (stop : Nat) (ts : List Lexeme) : Except SyntaxError (Parsed ts) :=
  match product stop ts with
  | .error e => .error e
  | .ok ⟨(left, rest), h⟩ =>
    match sumTail stop left rest with
    | .error e => .error e
    | .ok ⟨p, h'⟩ => .ok ⟨p, Nat.lt_of_le_of_lt h' h⟩
termination_by 6 * ts.length + 5
decreasing_by
  all_goals (try simp only at *) <;> omega

def sumTail (stop : Nat) (left : Expr) (ts : List Lexeme) : Except SyntaxError (Extended ts) :=
  match ts with
  | [] => .ok ⟨(left, []), Nat.le_refl _⟩
  | t :: rest =>
    match additive? t.token with
    | none => .ok ⟨(left, t :: rest), Nat.le_refl _⟩
    | some op =>
      match product stop rest with
      | .error e => .error e
      | .ok ⟨(right, after), h⟩ =>
        match sumTail stop (.binary op left right) after with
        | .error e => .error e
        | .ok ⟨p, h'⟩ =>
          .ok ⟨p, Nat.le_of_lt (Nat.lt_succ_of_lt (Nat.lt_of_le_of_lt h' h))⟩
termination_by 6 * ts.length
decreasing_by
  all_goals (try simp only [List.length_cons] at *) <;> omega

def product (stop : Nat) (ts : List Lexeme) : Except SyntaxError (Parsed ts) :=
  match unary stop ts with
  | .error e => .error e
  | .ok ⟨(left, rest), h⟩ =>
    match productTail stop left rest with
    | .error e => .error e
    | .ok ⟨p, h'⟩ => .ok ⟨p, Nat.lt_of_le_of_lt h' h⟩
termination_by 6 * ts.length + 4
decreasing_by
  all_goals (try simp only at *) <;> omega

def productTail (stop : Nat) (left : Expr) (ts : List Lexeme) :
    Except SyntaxError (Extended ts) :=
  match ts with
  | [] => .ok ⟨(left, []), Nat.le_refl _⟩
  | t :: rest =>
    match multiplicative? t.token with
    | none => .ok ⟨(left, t :: rest), Nat.le_refl _⟩
    | some op =>
      match unary stop rest with
      | .error e => .error e
      | .ok ⟨(right, after), h⟩ =>
        match productTail stop (.binary op left right) after with
        | .error e => .error e
        | .ok ⟨p, h'⟩ =>
          .ok ⟨p, Nat.le_of_lt (Nat.lt_succ_of_lt (Nat.lt_of_le_of_lt h' h))⟩
termination_by 6 * ts.length
decreasing_by
  all_goals (try simp only [List.length_cons] at *) <;> omega

def unary (stop : Nat) (ts : List Lexeme) : Except SyntaxError (Parsed ts) :=
  match ts with
  | [] => power stop []
  | t :: rest =>
    if t.token = .minus then
      match unary stop rest with
      | .error e => .error e
      | .ok ⟨(e, after), h⟩ => .ok ⟨(.neg e, after), Nat.lt_succ_of_lt h⟩
    else power stop (t :: rest)
termination_by 6 * ts.length + 3
decreasing_by
  all_goals (try simp only [List.length_cons] at *) <;> omega

def power (stop : Nat) (ts : List Lexeme) : Except SyntaxError (Parsed ts) :=
  match primary stop ts with
  | .error e => .error e
  | .ok ⟨(base, []), h⟩ => .ok ⟨(base, []), h⟩
  | .ok ⟨(base, t :: rest), h⟩ =>
    if t.token = .caret then
      match unary stop rest with
      | .error e => .error e
      | .ok ⟨(exponent, after), h'⟩ =>
        .ok ⟨(.binary .pow base exponent, after), Nat.lt_trans h' (Nat.lt_of_succ_lt h)⟩
    else .ok ⟨(base, t :: rest), h⟩
termination_by 6 * ts.length + 2
decreasing_by
  all_goals (try simp only [List.length_cons] at *) <;> omega

def primary (stop : Nat) (ts : List Lexeme) : Except SyntaxError (Parsed ts) :=
  match ts with
  | [] => .error (unexpected operands stop [])
  | t :: rest =>
    match t.token with
    | .number x => .ok ⟨(.number x, rest), Nat.lt_succ_self _⟩
    | .name n => .ok ⟨(.name n, rest), Nat.lt_succ_self _⟩
    | .opening =>
      match sum stop rest with
      | .error e => .error e
      | .ok ⟨(_, []), _⟩ => .error (unexpected (literal ")" :: operators) stop [])
      | .ok ⟨(e, t' :: after), h⟩ =>
        if t'.token = .closing then .ok ⟨(e, after), Nat.lt_succ_of_lt (Nat.lt_of_succ_lt h)⟩
        else .error (unexpected (literal ")" :: operators) stop (t' :: after))
    | _ => .error (unexpected operands stop (t :: rest))
termination_by 6 * ts.length + 1
decreasing_by
  all_goals (try simp only [List.length_cons] at *) <;> omega

end

/-- Reads a whole text as an expression. Offsets of errors count from its start. -/
def parse (t : Text) : Except SyntaxError Expr :=
  let stop := Text.size t
  match sum stop (lex t) with
  | .error e => .error e
  | .ok ⟨(e, []), _⟩ => .ok e
  | .ok ⟨(_, t :: rest), _⟩ => .error (unexpected operators stop (t :: rest))

end Stencil.Arithmetic
