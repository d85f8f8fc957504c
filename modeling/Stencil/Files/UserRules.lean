import Stencil.Files.IgnoreRules
import Stencil.Files.Tree

/-! # The rules of the user

A user may keep ignore rules for all repositories in one file. Its path is the value of `excludesfile`
in `.gitconfig` of the home directory, or else in `git/config` of the directory of settings; where
neither gives a value it is `git/ignore` in the directory of settings. The directory of settings is
`.config` in the home directory unless the environment names another.

A value stands in a line of its own behind the key and an equals sign. It is a run without white space,
in double quotes or not; letters of either case make up the key. White space between the parts may hold
line ends. -/
set_option autoImplicit false
namespace Stencil
namespace UserRules

def lineFeed : UInt8 := 0x0a
def doubleQuote : UInt8 := 0x22

def isSpace (b : UInt8) : Bool := (0x09 ≤ b && b ≤ 0x0d) || b = 0x20

def lower (b : UInt8) : UInt8 := if 0x41 ≤ b && b ≤ 0x5a then b + 0x20 else b

def afterWord? (word s : Bytes) : Option Bytes :=
  let s := s.dropWhile isSpace
  if (s.take word.length).map lower = word then some (s.drop word.length) else none

def endsLine (s : Bytes) : Bool := (s.takeWhile isSpace).contains lineFeed || s.all isSpace

/-- Whether the line ends here, but for a double quote in the white space. -/
def endsValue (s : Bytes) : Bool :=
  endsLine s ||
    match s.dropWhile isSpace with
    | [] => false
    | b :: rest => b = doubleQuote && endsLine rest

/-- The shortest run without white space behind which the value ends. -/
def shortestRun? : Bytes → Option Bytes
  | [] => none
  | b :: rest =>
    if isSpace b then none
    else if endsValue rest then some [b]
    else (shortestRun? rest).map (b :: ·)

/-- The value in front. A double quote at its start belongs to it only if there is none without. -/
def value? (s : Bytes) : Option Bytes :=
  match s.dropWhile isSpace with
  | [] => none
  | b :: rest =>
    let inner? := if b = doubleQuote then shortestRun? (rest.dropWhile isSpace) else none
    inner?.or (shortestRun? (b :: rest))

def setting? (s : Bytes) : Option Bytes :=
  ((afterWord? (Utf8.encode "excludesfile".toList) s).bind
    (afterWord? (Utf8.encode ['=']))).bind value?

/-- The value of the key at the first line start where it has one; the flag tells whether a line
starts here. -/
def firstSetting? (lineStart : Bool) : Bytes → Option Bytes
  | [] => none
  | b :: rest =>
    let here? := if lineStart then setting? (b :: rest) else none
    here?.or (firstSetting? (b = lineFeed) rest)

/-- The path that a settings file gives, with the home directory for every tilde. -/
def named? (tree : FileTree) (home : Option Path) (settings : Path) : Option Path := do
  let value ← firstSetting? true (← (tree.read settings).toOption)
  let path ← (Utf8.decode value).toOption
  return path.flatMap fun c => if c = '~' then home.getD ['~'] else [c]

def settingsHome (home configHome : Option Path) : Option Path :=
  (configHome.filter fun path => path ≠ []).or
    (home.map fun home => Path.join home ".config".toList)

def settingsFiles (home configHome : Option Path) : List Path :=
  (home.map fun home => Path.join home ".gitconfig".toList).toList ++
    ((settingsHome home configHome).map fun dir => Path.join dir "git/config".toList).toList

def path? (tree : FileTree) (home configHome : Option Path) : Option Path :=
  ((settingsFiles home configHome).findSome? (named? tree home)).or
    ((settingsHome home configHome).map fun dir => Path.join dir "git/ignore".toList)

end UserRules

def IgnoreRules.ofUser (tree : FileTree) (home configHome : Option Path) : IgnoreRules :=
  match (UserRules.path? tree home configHome).bind fun path => (tree.read path).toOption with
  | some bytes => parse bytes
  | none => []

end Stencil
