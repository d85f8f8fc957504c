import Stencil.Files.Tree
import Stencil.Options
import Stencil.Settings.Word

/-! # Settings

A settings file has one setting a line: a key, blanks or an equals sign, and the words of the value.
Lists of values add up; of other settings the last one counts. Empty lines and lines that begin with a
semicolon say nothing. A bad line is reported with its number and has no effect. -/
set_option autoImplicit false
namespace Stencil

inductive Setting where
  | extensions (wanted : List Text)
  | ignore (patterns : List Text)
  | baseDir (path : Path)
  | matchesOnly (on : Bool)
deriving Repr, DecidableEq

inductive SettingFault where
  | notOneDirectory
  | notOneSwitch
  | notBoolean (word : Text)
  | unknownKey (key : Text)
deriving Repr, DecidableEq

def SettingFault.message : SettingFault → Text
  | .notOneDirectory => "base_dir: expected one directory".toList
  | .notOneSwitch => "matches: expected on or off".toList
  | .notBoolean word => "matches: not a boolean: ".toList ++ word
  | .unknownKey key => "unknown setting: ".toList ++ key

namespace Setting

def boolean? (word : Text) : Option Bool :=
  if ["on".toList, "1".toList, "true".toList, "yes".toList].contains (Text.lower word) then
    some true
  else if ["off".toList, "0".toList, "false".toList, "no".toList].contains (Text.lower word) then
    some false
  else none

def make (key : Text) (words : List Text) : Except SettingFault Setting :=
  if key = "extensions".toList then
    .ok (.extensions (words.map fun word => word.dropWhile (· = '.')))
  else if key = "ignore".toList then .ok (.ignore words)
  else if key = "base_dir".toList then
    match words with
    | [path] => .ok (.baseDir path)
    | _ => .error .notOneDirectory
  else if key = "matches".toList then
    match words with
    | [word] =>
      match boolean? word with
      | some on => .ok (.matchesOnly on)
      | none => .error (.notBoolean word)
    | _ => .error .notOneSwitch
  else .error (.unknownKey key)

def apply (o : Options) : Setting → Options
  | .extensions wanted => { o with extensions := o.extensions ++ wanted }
  | .ignore patterns => { o with ignore := o.ignore ++ patterns }
  | .baseDir path => { o with baseDir := path }
  | .matchesOnly on => { o with matchesOnly := on }

def endsKey (c : Char) : Bool := isAsciiSpace c || c = '='

/-- The text without the white space and one equals sign at its start, and without the white space
around what is left. -/
def valueText (t : Text) : Text :=
  match Text.trimStart t with
  | '=' :: rest => Text.trim rest
  | rest => Text.trim rest

/-- What a line sets; nothing if it is empty or a comment. -/
def ofLine? (line : Text) : Option (Except SettingFault Setting) :=
  match Text.trim line with
  | [] => none
  | ';' :: _ => none
  | content =>
    let key := content.takeWhile fun c => !endsKey c
    let value := (content.dropWhile fun c => !endsKey c).drop 1
    some (make key (Words.split (valueText value)))

end Setting

namespace Settings

structure BadLine where
  line : Nat
  fault : SettingFault
deriving Repr, DecidableEq

def BadLine.display (b : BadLine) : Text :=
  "line ".toList ++ Text.ofNat b.line ++ ": ".toList ++ b.fault.message

def BadLine.message (b : BadLine) : Text := "config: ".toList ++ b.display

def readLines (o : Options) (number : Nat) : List Text → Options × List BadLine
  | [] => (o, [])
  | line :: rest =>
    match Setting.ofLine? line with
    | none => readLines o (number + 1) rest
    | some (.ok s) => readLines (s.apply o) (number + 1) rest
    | some (.error fault) =>
      let (o, bad) := readLines o (number + 1) rest
      (o, ⟨number, fault⟩ :: bad)

def read (t : Text) : Options × List BadLine := readLines {} 1 (Text.lines t)

/-- The options of a settings file: a relative base directory is seen from the directory of the file. -/
def ofFile (tree : FileTree) (path : Path) : Except FileFault (Options × List BadLine) := do
  let (o, bad) := read (← tree.readText path)
  let baseDir :=
    if o.baseDir = [] then []
    else
      match path.parent? with
      | some directory => Path.join directory o.baseDir
      | none => o.baseDir
  return ({ o with baseDir }, bad)

end Settings
end Stencil
