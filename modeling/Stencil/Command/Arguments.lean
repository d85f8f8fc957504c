import Stencil.Files.Path

/-! # The arguments of the command

An argument with a dash in front is a cluster of option letters; a single dash is the standard input,
and two dashes end the options. In a cluster `d` and `m` stand for themselves. `f` takes the rest of
the cluster as a settings file and without a rest turns the settings off; `b` takes the rest, or the
next argument, as the base directory. At most one other argument is the file to render. -/
set_option autoImplicit false
namespace Stencil

inductive SettingsChoice where
  /-- The first file that exists of the usual ones. -/
  | search
  | skip
  | file (path : Path)
deriving Repr, DecidableEq

inductive Input where
  | standard
  | file (path : Path)
deriving Repr, DecidableEq

structure Arguments where
  settings : SettingsChoice := .search
  baseDir : Option Path := none
  matchesOnly : Bool := false
  debug : Bool := false
  input : Input := .standard
deriving Repr, DecidableEq

inductive UsageError where
  | missingDirectory
  | unknownOption (letter : Char)
  | tooManyFiles (count : Nat)
deriving Repr, DecidableEq

def UsageError.message : UsageError → Text
  | .missingDirectory => "-b requires a directory argument".toList
  | .unknownOption letter => "unknown option: -".toList ++ [letter]
  | .tooManyFiles count => "too many arguments (".toList ++ Text.ofNat count ++ [')']

namespace Arguments

/-- Reads a cluster of option letters. The truth value tells whether the base directory is still to
come, as the next argument. -/
def readLetters (a : Arguments) : Text → Except UsageError (Arguments × Bool)
  | [] => .ok (a, false)
  | c :: rest =>
    if c = 'd' then readLetters { a with debug := true } rest
    else if c = 'm' then readLetters { a with matchesOnly := true } rest
    else if c = 'f' then
      .ok ({ a with settings := if rest = [] then .skip else .file rest }, false)
    else if c = 'b' then
      if rest = [] then .ok (a, true) else .ok ({ a with baseDir := some rest }, false)
    else .error (.unknownOption c)

def cluster? : Text → Option Text
  | '-' :: c :: rest => some (c :: rest)
  | _ => none

def readOptions (a : Arguments) : List Text → Except UsageError (Arguments × List Text)
  | [] => .ok (a, [])
  | arg :: rest =>
    if arg = ['-', '-'] then .ok (a, rest)
    else
      match cluster? arg with
      | none => (readOptions a rest).map fun (a, files) => (a, arg :: files)
      | some letters =>
        match readLetters a letters with
        | .error e => .error e
        | .ok (a, false) => readOptions a rest
        | .ok (a, true) =>
          match rest with
          | [] => .error .missingDirectory
          | directory :: rest => readOptions { a with baseDir := some directory } rest

def parse (args : List Text) : Except UsageError Arguments := do
  match ← readOptions {} args with
  | (a, []) => return a
  | (a, [file]) => return if file = ['-'] then a else { a with input := .file file }
  | (_, files) => throw (.tooManyFiles files.length)

end Arguments
end Stencil
