import Stencil.Command.Run

/-! # The program

Takes a snapshot of the working directory and of the absolute paths that the arguments and the
environment name, runs the command on it, and writes what the command says. -/
set_option autoImplicit false
namespace Stencil

def maxDepth : Nat := 64

/-- What stands on the disk under a name, down to a depth. -/
def entryAt? : Nat → IO.FS.DirEntry → IO (Option Entry)
  | 0, _ => return none
  | depth + 1, item => do
    try
      let mut entries : List (Text × Entry) := []
      for inner in ← item.path.readDir do
        if let some e ← entryAt? depth inner then
          entries := Entry.update inner.fileName.toList (fun _ => e) entries
      return some (.directory entries)
    catch _ =>
      try
        return some (.file (← IO.FS.readBinFile item.path).data.toList)
      catch _ => return none

def withAbsolute (tree : FileTree) (path : Path) : IO FileTree := do
  let names := (Text.splitAt '/' path).filter fun n => n ≠ [] ∧ n ≠ ['.']
  if path.isAbsolute && names ≠ [] then
    if let some e ← entryAt? maxDepth ⟨"/", String.ofList (Text.join ['/'] names)⟩ then
      return { tree with root := .insert e names (some tree.root) }
  return tree

def namedPaths (a : Arguments) : List Path :=
  let settings :=
    match a.settings with
    | .file path => [path]
    | _ => []
  let input :=
    match a.input with
    | .file path => [path]
    | .standard => []
  settings ++ a.baseDir.toList ++ input

def readStandardInput : IO Bytes := do
  return (← (← IO.getStdin).readBinToEnd).data.toList

def invocation (args : List String) : IO Invocation := do
  let environment (name : String) : IO (Option Path) := do
    return (← IO.getEnv name).map String.toList
  let settingsFile ← environment "WEFTRC"
  let home ← environment "HOME"
  let configHome ← environment "XDG_CONFIG_HOME"
  let bare : Invocation := { arguments := args.map String.toList, settingsFile, home, configHome }
  match Arguments.parse bare.arguments with
  | .error _ => return bare
  | .ok a =>
    let working := (← entryAt? maxDepth ⟨".", "."⟩).getD (.directory [])
    let settings := bare.settingsCandidates ++ UserRules.settingsFiles home configHome
    let tree ← (settings ++ namedPaths a).foldlM withAbsolute { working }
    let ruleFile := (UserRules.path? tree home configHome).toList
    let baseDir := ({ bare with tree }.settings a.settings).1.baseDir
    let tree ← (baseDir :: ruleFile).foldlM withAbsolute tree
    let standardInput ← if a.input = .standard then readStandardInput else pure []
    return { bare with tree, standardInput }

end Stencil

def main (args : List String) : IO UInt32 := do
  let report := (← Stencil.invocation args).run
  (← IO.getStdout).putStr (String.ofList report.output)
  (← IO.getStderr).putStr (String.ofList report.errors)
  return report.status.toUInt32
