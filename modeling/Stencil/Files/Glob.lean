import Stencil.Text.Utf8

/-! # Glob patterns

A pattern is matched against the bytes of a whole path. A question mark is one byte and a star any
number; two stars that fill a component are any number of components; brackets hold the bytes of
characters and ranges, and an exclamation mark or a caret first makes them the bytes that are left;
braces hold alternatives, within each other too; a backslash takes the next character as it is.
Whether the question mark and the star pass over slashes is up to the reader of the pattern. -/
set_option autoImplicit false
namespace Stencil.Glob

inductive Token where
  | literal (c : Char)
  | any
  | many
  /-- Two stars at the start, with the slash behind them. -/
  | leadingDirs
  /-- Two stars at the end, with the slash before them. -/
  | trailingDirs
  /-- Two stars between slashes, with the slashes. -/
  | innerDirs
  | chars (negated : Bool) (ranges : List (Char × Char))
  | oneOf (branches : List (List Token))

inductive Fault where
  | unclosedClass
  | invalidRange (first last : Char)
  | unopenedGroup
  | unclosedGroup
  | danglingEscape
deriving Repr, DecidableEq

def Fault.message : Fault → Text
  | .unclosedClass => "unclosed character class; missing ']'".toList
  | .invalidRange first last =>
    "invalid range; '".toList ++ first :: "' > '".toList ++ last :: "'".toList
  | .unopenedGroup =>
    "unopened alternate group; missing '\x7b' (maybe escape '\x7d' with '[\x7d]'?)".toList
  | .unclosedGroup =>
    "unclosed alternate group; missing '\x7d' (maybe escape '\x7b' with '[\x7b]'?)".toList
  | .danglingEscape => "dangling '\\'".toList

/-! ## Reading a pattern -/

/-- A group of alternatives that is still open: the finished alternatives and the tokens before the
group, the last ones first. -/
structure Group where
  finished : List (List Token)
  outer : List Token

structure Progress where
  /-- The tokens of the current alternative, the last one first. -/
  current : List Token := []
  /-- The open groups, the innermost first. -/
  groups : List Group := []
  /-- The last character that was read. -/
  last : Option Char := none
  /-- An opening bracket stands for itself from here on, since no closing one follows. -/
  plainBracket : Bool := false

def Progress.push (p : Progress) (t : Token) (last : Char) : Progress :=
  { p with current := t :: p.current, last := some last }

inductive ClassEnd where
  | closed (ranges : List (Char × Char)) (rest : Text)
  | unclosed
  | invalid (first last : Char)

/-- The ranges of a bracket. `ranges` are those before, the last one first; `open?` tells whether a
dash waits for the end of the last range. -/
def readRanges (isFirst «open?» : Bool) (ranges : List (Char × Char)) : Text → ClassEnd
  | [] => .unclosed
  | c :: rest =>
    let extend (c : Char) : ClassEnd :=
      match ranges with
      | (low, _) :: before =>
        if c < low then .invalid low c else readRanges false false ((low, c) :: before) rest
      | [] => readRanges false false [(c, c)] rest
    if c = ']' ∧ !isFirst then
      .closed (if «open?» then (('-', '-') :: ranges).reverse else ranges.reverse) rest
    else if c = '-' ∧ !isFirst ∧ !«open?» then readRanges false true ranges rest
    else if «open?» then extend c
    else readRanges false false ((c, c) :: ranges) rest

def readStars (p : Progress) (before : Option Char) (rest : Text) : Progress × Text :=
  let plain := ({ p with current := .many :: .many :: p.current, last := some '*' }, rest)
  if p.current.isEmpty then
    match rest with
    | [] => (p.push .leadingDirs '*', [])
    | c :: after => if c = '/' then (p.push .leadingDirs '/', after) else plain
  else if before ≠ some '/' ∧ (p.groups.isEmpty ∨ (before ≠ some ',' ∧ before ≠ some '{')) then plain
  else
    let merged (t : Token) : List Token :=
      match p.current with
      | .leadingDirs :: tokens => .leadingDirs :: tokens
      | .trailingDirs :: tokens => .trailingDirs :: tokens
      | _ :: tokens => t :: tokens
      | [] => [t]
    match rest with
    | [] => ({ p with current := merged .trailingDirs, last := some '*' }, [])
    | c :: after =>
      if (c = ',' ∨ c = '}') ∧ !p.groups.isEmpty then
        ({ p with current := merged .trailingDirs, last := some '*' }, rest)
      else if c = '/' then ({ p with current := merged .innerDirs, last := some '/' }, after)
      else plain

theorem length_readStars (p : Progress) (before : Option Char) (rest : Text) :
    (readStars p before rest).2.length ≤ rest.length := by
  simp only [readStars]
  split
  · split
    · simp
    · split <;> simp
  · split
    · simp
    · split
      · simp
      · split
        · simp
        · split <;> simp

theorem length_readRanges (isFirst «open?» : Bool) (ranges : List (Char × Char)) (t : Text)
    {found : List (Char × Char)} {rest : Text}
    (h : readRanges isFirst «open?» ranges t = .closed found rest) : rest.length ≤ t.length := by
  induction t generalizing isFirst «open?» ranges with
  | nil => cases h
  | cons c t ih =>
    simp only [readRanges] at h
    split at h
    · obtain ⟨-, rfl⟩ := ClassEnd.closed.inj h
      simp
    · split at h
      · exact Nat.le_succ_of_le (ih _ _ _ h)
      · split at h
        · split at h
          · split at h
            · cases h
            · exact Nat.le_succ_of_le (ih _ _ _ h)
          · exact Nat.le_succ_of_le (ih _ _ _ h)
        · exact Nat.le_succ_of_le (ih _ _ _ h)

def readNegation : Text → Bool × Text
  | [] => (false, [])
  | c :: rest => if c = '!' ∨ c = '^' then (true, rest) else (false, c :: rest)

theorem length_readNegation (t : Text) : (readNegation t).2.length ≤ t.length := by
  unfold readNegation
  split
  · simp
  · split <;> simp

/-- Reads the rest of a pattern. With `lenient` a bracket that nothing closes stands for itself. -/
def readFrom (lenient : Bool) (p : Progress) (t : Text) : Except Fault Progress :=
  match t with
  | [] => .ok p
  | c :: rest =>
    if c = '?' then readFrom lenient (p.push .any c) rest
    else if c = '*' then
      match _h : rest with
      | [] => readFrom lenient (p.push .many c) []
      | d :: after =>
        if d = '*' then
          readFrom lenient (readStars p p.last after).1 (readStars p p.last after).2
        else readFrom lenient (p.push .many c) (d :: after)
    else if c = '[' ∧ !p.plainBracket then
      match _h : readRanges true false [] (readNegation rest).2 with
      | .closed ranges after =>
        readFrom lenient (p.push (.chars (readNegation rest).1 ranges) ']') after
      | .unclosed =>
        if lenient then readFrom lenient { p.push (.literal c) c with plainBracket := true } rest
        else .error .unclosedClass
      | .invalid first last => .error (.invalidRange first last)
    else if c = '{' then
      readFrom lenient
        { p with current := [], groups := ⟨[], p.current⟩ :: p.groups, last := some c } rest
    else if c = '}' then
      match p.groups with
      | [] => .error .unopenedGroup
      | g :: groups =>
        let branches := (p.current.reverse :: g.finished).reverse
        readFrom lenient
          { p with current := .oneOf branches :: g.outer, groups, last := some c } rest
    else if c = ',' then
      match p.groups with
      | [] => readFrom lenient (p.push (.literal c) c) rest
      | g :: groups =>
        let g := { g with finished := p.current.reverse :: g.finished }
        readFrom lenient { p with current := [], groups := g :: groups, last := some c } rest
    else if c = '\\' then
      match rest with
      | [] => .error .danglingEscape
      | d :: after => readFrom lenient (p.push (.literal d) d) after
    else readFrom lenient (p.push (.literal c) c) rest
termination_by t.length
decreasing_by
  all_goals try simp only [List.length_cons, List.length_nil]
  all_goals try omega
  · have := length_readStars p p.last after
    omega
  · have := length_readRanges _ _ _ _ _h
    have := length_readNegation rest
    omega

def parse (lenient : Bool) (t : Text) : Except Fault (List Token) := do
  let p ← readFrom lenient {} t
  if p.groups.isEmpty then return p.current.reverse else throw .unclosedGroup

/-! ## Matching -/

def slash : UInt8 := 0x2f

/-- What is left of the bytes behind any number of them, none of which is a slash if `within`. -/
def afterMany (within : Bool) : Bytes → List Bytes
  | [] => [[]]
  | b :: rest => (b :: rest) :: if within && b = slash then [] else afterMany within rest

def afterSlashes : Bytes → List Bytes
  | [] => []
  | b :: rest => if b = slash then rest :: afterSlashes rest else afterSlashes rest

/-- Byte ranges of a range of characters: the bytes of both ends, with a range where they meet. -/
def byteRanges (low high : Char) : List (UInt8 × UInt8) :=
  let single (b : UInt8) := (b, b)
  let lows := Utf8.encodeChar low
  let highs := Utf8.encodeChar high
  if low = high then lows.map single
  else
    match lows.getLast?, highs with
    | some l, h :: rest => lows.dropLast.map single ++ (l, h) :: rest.map single
    | _, _ => []

/-- Whether tokens stand for nothing but the empty text on account of having nothing in them. -/
def isVoid : List Token → Bool
  | [] => true
  | .oneOf branches :: rest => allVoid branches && isVoid rest
  | _ :: _ => false
where
  /-- Whether all alternatives are void. -/
  allVoid : List (List Token) → Bool
    | [] => true
    | branch :: branches => isVoid branch && allVoid branches

mutual

def after (within : Bool) (s : Bytes) : Token → List Bytes
  | .literal c =>
    let bytes := Utf8.encodeChar c
    if bytes.isPrefixOf s then [s.drop bytes.length] else []
  | .any =>
    match s with
    | [] => []
    | b :: rest => if within && b = slash then [] else [rest]
  | .many => afterMany within s
  | .leadingDirs => s :: afterSlashes s
  | .trailingDirs =>
    match s with
    | [] => []
    | b :: rest => if b = slash then afterMany false rest else []
  | .innerDirs =>
    match s with
    | [] => []
    | b :: rest => if b = slash then rest :: afterSlashes rest else []
  | .chars negated ranges =>
    match s with
    | [] => []
    | b :: rest =>
      let inside := ranges.any fun (low, high) =>
        (byteRanges low high).any fun (l, h) => l ≤ b && b ≤ h
      if inside != negated then [rest] else []
  | .oneOf branches =>
    if isVoid.allVoid branches then [s] else (afterOneOf within s branches).eraseDups

def afterOneOf (within : Bool) (s : Bytes) : List (List Token) → List Bytes
  | [] => []
  | branch :: branches =>
    (if isVoid branch then [] else afterAll within [s] branch) ++ afterOneOf within s branches

def afterAll (within : Bool) (ss : List Bytes) : List Token → List Bytes
  | [] => ss
  | t :: ts => afterAll within (ss.flatMap fun s => after within s t).eraseDups ts

end

/-- Whether the pattern matches the whole path; with `within` the question mark and the star stay
within a component. -/
def isMatch (within : Bool) (tokens : List Token) (path : Bytes) : Bool :=
  match tokens with
  | [.leadingDirs] => true
  | tokens => (afterAll within [path] tokens).contains []

end Stencil.Glob
