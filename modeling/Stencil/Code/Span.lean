import Stencil.Text.Blank

/-! # Code spans

Code stands in backticks and no other rule of the language looks inside it. A fence opens with a line
of at least three backticks (blanks may come before, and anything but a backtick after) and closes
with the first later line that has at least as many backticks and only blanks or a carriage return
beside them; without such a line it reaches to the end. On every other line a run of backticks opens
an inline span that the next run of the same length closes; a run without a partner is prose.

`pieces` cuts a text into prose and code without losing a character (`source_pieces`), so the spans
follow by counting. -/
set_option autoImplicit false
namespace Stencil.Code

inductive Piece where
  | prose (source : Text)
  | code (source : Text)
deriving Repr, DecidableEq

def Piece.source : Piece → Text
  | .prose source => source
  | .code source => source

def source (pieces : List Piece) : Text := pieces.flatMap Piece.source

/-! ## Inline spans -/

/-- A maximal run of backticks, or a stretch without backticks. -/
inductive Run where
  | ticks (length : Nat)
  | other (source : Text)
deriving Repr, DecidableEq

def Run.source : Run → Text
  | .ticks length => List.replicate length '`'
  | .other source => source

def Run.cons (c : Char) (runs : List Run) : List Run :=
  if c = '`' then
    match runs with
    | .ticks n :: rest => .ticks (n + 1) :: rest
    | rest => .ticks 1 :: rest
  else
    match runs with
    | .other s :: rest => .other (c :: s) :: rest
    | rest => .other [c] :: rest

def runs (line : Text) : List Run := line.foldr Run.cons []

/-- The runs up to the next one of `length` backticks, and those behind it. -/
def closeInline? (length : Nat) : List Run → Option (List Run × List Run)
  | [] => none
  | run :: rest =>
    if run = .ticks length then some ([run], rest)
    else (closeInline? length rest).map fun (inside, after) => (run :: inside, after)

theorem closeInline?_eq {length : Nat} {runs inside after : List Run}
    (h : closeInline? length runs = some (inside, after)) : runs = inside ++ after := by
  induction runs generalizing inside with
  | nil => simp [closeInline?] at h
  | cons run rest ih =>
    simp only [closeInline?] at h
    split at h
    next hrun =>
      obtain ⟨rfl, rfl⟩ := Prod.mk.inj (Option.some.inj h)
      simp [hrun]
    next =>
      obtain ⟨⟨i, a⟩, hi, heq⟩ := Option.map_eq_some_iff.1 h
      obtain ⟨rfl, rfl⟩ := Prod.mk.inj heq
      simp [ih hi]

def inlinePieces (runs : List Run) : List Piece :=
  match runs with
  | [] => []
  | .other s :: rest => .prose s :: inlinePieces rest
  | .ticks n :: rest =>
    match _h : closeInline? n rest with
    | some (inside, after) =>
      .code ((Run.ticks n).source ++ inside.flatMap Run.source) :: inlinePieces after
    | none => .prose (Run.ticks n).source :: inlinePieces rest
termination_by runs.length
decreasing_by
  · simp
  · have := congrArg List.length (closeInline?_eq _h)
    simp only [List.length_append, List.length_cons] at this ⊢
    omega
  · simp

/-! ## Fences -/

def leadingTicks (line : Text) : Nat × Text :=
  let t := line.dropWhile isLineBlank
  ((t.takeWhile (· = '`')).length, t.dropWhile (· = '`'))

def fenceOpening? (line : Text) : Option Nat :=
  let (n, after) := leadingTicks line
  if 3 ≤ n && after.all (· ≠ '`') then some n else none

def closesFence (n : Nat) (line : Text) : Bool :=
  let (m, after) := leadingTicks line
  3 ≤ m && n ≤ m && after.all fun c => isLineBlank c || c = '\r'

/-- The pieces of lines that follow each other; line feeds between pieces are prose. -/
def linePieces (lines : List Text) : List Piece :=
  match lines with
  | [] => []
  | line :: rest =>
    match fenceOpening? line with
    | some n =>
      match rest.findIdx? (closesFence n) with
      | some i =>
        .code (Text.join ['\n'] (line :: rest.take (i + 1))) ::
          if rest.length ≤ i + 1 then [] else .prose ['\n'] :: linePieces (rest.drop (i + 1))
      | none => [.code (Text.join ['\n'] (line :: rest))]
    | none =>
      inlinePieces (runs line) ++
        if rest.isEmpty then [] else .prose ['\n'] :: linePieces rest
termination_by lines.length
decreasing_by
  all_goals simp only [List.length_drop, List.length_cons]; omega

def pieces (t : Text) : List Piece := linePieces (Text.splitAt '\n' t)

/-! ## Nothing is lost -/

theorem source_cons (c : Char) (runs : List Run) :
    (Run.cons c runs).flatMap Run.source = c :: runs.flatMap Run.source := by
  unfold Run.cons
  by_cases hc : c = '`'
  · subst hc
    rw [if_pos rfl]
    split <;> simp [Run.source, List.replicate_succ]
  · rw [if_neg hc]
    split <;> simp [Run.source]

theorem source_runs (line : Text) : (runs line).flatMap Run.source = line := by
  induction line with
  | nil => rfl
  | cons c line ih =>
    show (Run.cons c (runs line)).flatMap Run.source = c :: line
    rw [source_cons, ih]

theorem source_inlinePieces (runs : List Run) :
    source (inlinePieces runs) = runs.flatMap Run.source := by
  fun_induction inlinePieces runs with
  | case1 => rfl
  | case2 s rest ih => simpa [source, Piece.source, Run.source] using ih
  | case3 n rest inside after h ih =>
    rw [closeInline?_eq h]
    simp_all [source, Piece.source]
  | case4 n rest h ih => simpa [source, Piece.source] using ih

theorem join_cons_ne_nil (line : Text) {rest : List Text} (h : rest ≠ []) :
    Text.join ['\n'] (line :: rest) = line ++ '\n' :: Text.join ['\n'] rest := by
  obtain ⟨l, ls, rfl⟩ := List.exists_cons_of_ne_nil h
  simp [Text.join, List.intercalate, List.intersperse]

theorem join_append (as : List Text) {bs : List Text} (ha : as ≠ []) (hb : bs ≠ []) :
    Text.join ['\n'] (as ++ bs) = Text.join ['\n'] as ++ '\n' :: Text.join ['\n'] bs := by
  induction as with
  | nil => exact absurd rfl ha
  | cons a as ih =>
    by_cases h : as = []
    · subst h
      simpa [Text.join, List.intercalate] using join_cons_ne_nil a hb
    · rw [List.cons_append, join_cons_ne_nil a (by simp [h]), ih h, join_cons_ne_nil a h]
      simp

theorem source_linePieces (lines : List Text) :
    source (linePieces lines) = Text.join ['\n'] lines := by
  fun_induction linePieces lines with
  | case1 => rfl
  | case2 line rest n hn i hi ih =>
    by_cases h : rest.length ≤ i + 1
    · simp [h, source, Piece.source, List.take_of_length_le h]
    · have hne : rest.drop (i + 1) ≠ [] := by
        intro h0
        have := congrArg List.length h0
        simp at this
        omega
      have := join_append (line :: rest.take (i + 1)) (by simp) hne
      rw [List.cons_append, List.take_append_drop] at this
      simp only [h, if_false]
      rw [this, ← ih h]
      simp [source, Piece.source]
  | case3 line rest n hn hi => simp [source, Piece.source]
  | case4 line rest hn ih =>
    have hline : source (inlinePieces (runs line)) = line := by
      rw [source_inlinePieces, source_runs]
    by_cases h : rest = []
    · subst h
      simpa [Text.join, List.intercalate] using hline
    · rw [join_cons_ne_nil line h, ← ih]
      simp only [source] at hline ⊢
      simp [h, hline, Piece.source]

theorem source_pieces (t : Text) : source (pieces t) = t := by
  rw [pieces, source_linePieces, Text.join_splitAt]

/-! ## Spans -/

/-- The byte ranges of the code among pieces that begin at `offset`. -/
def spansFrom (offset : Nat) : List Piece → List (Nat × Nat)
  | [] => []
  | .prose s :: rest => spansFrom (offset + Text.size s) rest
  | .code s :: rest =>
    (offset, offset + Text.size s) :: spansFrom (offset + Text.size s) rest

def spans (t : Text) : List (Nat × Nat) := spansFrom 0 (pieces t)

end Stencil.Code
