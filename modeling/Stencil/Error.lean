import Stencil.SyntaxError

/-! # Errors and warnings

An error ends a rendering; `Error.message` is the text of each cause. A warning reports input that
was passed over and does not stop anything. -/
set_option autoImplicit false
namespace Stencil

inductive FileFault where
  | notFound
  | notDirectory
  | isDirectory
  /-- The file is there, but its bytes are not text. -/
  | notText
  | nameTooLong
  /-- The path holds a character that no path can hold. -/
  | nulInPath
deriving Repr, DecidableEq

def FileFault.message : FileFault → Text
  | .notFound => "No such file or directory (os error 2)".toList
  | .notDirectory => "Not a directory (os error 20)".toList
  | .isDirectory => "Is a directory (os error 21)".toList
  | .notText => "stream did not contain valid UTF-8".toList
  | .nameTooLong => "File name too long (os error 36)".toList
  | .nulInPath => "file name contained an unexpected NUL byte".toList

inductive EvalError where
  | divisionByZero
  | notANumber (name value : Text)
deriving Repr, DecidableEq

def EvalError.message : EvalError → Text
  | .divisionByZero => "Division by zero".toList
  | .notANumber name value =>
    "Param `".toList ++ name ++ "` is not a number: ".toList ++ Text.quoted value

inductive Error where
  | syntactic (e : SyntaxError)
  /-- The closing tag at `offset` names another variable than the open definition. -/
  | mismatchedTags (opening closing : Text) (offset : Nat)
  /-- The name is defined already. -/
  | nameConflict (name : Text)
  /-- The name belongs to a function. -/
  | functionConflict (name : Text)
  | missingParam (name param : Text)
  | eval (e : EvalError)
  /-- The function is registered already. -/
  | functionExists (name : Text)
  | invalidPath
  | imageArgument
  /-- A function rejected its arguments. -/
  | function (name detail : Text)
  | file (path : Text) (fault : FileFault)
deriving Repr, DecidableEq

namespace Error

def message : Error → Text
  | .syntactic e => e.message
  | .mismatchedTags opening closing _ =>
    "Mismatched variable tags: ".toList ++ '{' :: opening ++ "\x7d ... ".toList ++
      '{' :: '/' :: closing ++ ['}']
  | .nameConflict name => "Variable name conflict: `".toList ++ name ++ ['`']
  | .functionConflict name => "Variable name conflicts with function: `".toList ++ name ++ ['`']
  | .missingParam name param =>
    "Required param for `".toList ++ name ++ "` not found: `".toList ++ param ++ ['`']
  | .eval e => e.message
  | .functionExists name => "Function `".toList ++ name ++ "` is already registered".toList
  | .invalidPath => "Invalid file path".toList
  | .imageArgument => "img() expects a string parameter.".toList
  | .function name detail => name ++ "(): ".toList ++ detail
  | .file path fault => path ++ ": ".toList ++ fault.message

/-- A syntax error located in `source`; other errors stay as they are. -/
def locate (source : Text) : Error → Error
  | .syntactic e => .syntactic (e.locate source)
  | e => e

end Error

inductive Receiver where
  | definition (name : Text)
  | function (name : Text)
deriving Repr, DecidableEq

inductive Warning where
  | unknownArgument (receiver : Receiver) (param : Text)
  | surplusArguments (name : Text) (count : Nat)
  | notTextFile (path : Text)
deriving Repr, DecidableEq

namespace Warning

def message : Warning → Text
  | .unknownArgument .. => "ignoring unknown named argument".toList
  | .surplusArguments .. => "ignoring extra positional arguments".toList
  | .notTextFile _ => "skipping non-UTF-8 file".toList

def details : Warning → List (Text × Text)
  | .unknownArgument (.definition name) param =>
    [("variable".toList, name), ("param".toList, param)]
  | .unknownArgument (.function name) param => [("function".toList, name), ("param".toList, param)]
  | .surplusArguments name count =>
    [("variable".toList, name), ("surplus".toList, Text.ofNat count)]
  | .notTextFile path => [("path".toList, path)]

end Warning

/-- Results can be compared, so that closed runs can be tested. -/
instance decidableEqExcept {ε α : Type} [DecidableEq ε] [DecidableEq α] : DecidableEq (Except ε α)
  | .error e, .error f => decidable_of_iff (e = f) (by simp)
  | .ok a, .ok b => decidable_of_iff (a = b) (by simp)
  | .error _, .ok _ => .isFalse (by simp)
  | .ok _, .error _ => .isFalse (by simp)

end Stencil
