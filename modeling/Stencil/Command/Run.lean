import Stencil.Command.Arguments
import Stencil.Files.UserRules
import Stencil.Function.Standard
import Stencil.Render
import Stencil.Settings.Basic

/-! # The command

The command renders one text with the standard functions. The rendering, or a line for each slot, goes
to the standard output; messages and a line for each attachment go to the error output. Faults in the
settings are warnings; every other fault ends the command with the status 1. -/
set_option autoImplicit false
namespace Stencil

structure Invocation where
  arguments : List Text
  /-- The settings file that the environment names. -/
  settingsFile : Option Path := none
  home : Option Path := none
  /-- The directory of settings, if it is not in the home directory. -/
  configHome : Option Path := none
  standardInput : Bytes := []
  tree : FileTree := {}

structure Report where
  status : Nat := 0
  output : Text := []
  errors : Text := []
deriving Repr, DecidableEq

namespace Report

def line (message : Text) : Text := "weft: ".toList ++ message ++ ['\n']

def usage : Text := "Usage: weft [-f[<file>]] [-b<dir>] [-md] [<file>|-]\n".toList

def warning (path : Path) (message : Text) : Text :=
  line ("warning: ".toList ++ path ++ ": ".toList ++ message)

def slotLine (m : SlotMatch) : Text :=
  Text.ofNat m.offset ++ '\t' :: Text.ofNat m.length ++ '\t' :: m.slot.source ++ ['\n']

end Report

namespace Invocation

/-- The files that may hold the settings, in the order in which they are tried. -/
def settingsCandidates (i : Invocation) : List Path :=
  let configHome :=
    match i.configHome.filter Path.isAbsolute with
    | some path => some path
    | none => i.home.map fun home => Path.join home ".config".toList
  i.settingsFile.toList ++
    (configHome.map fun path => Path.join path "weft/weftrc".toList).toList ++
    (i.home.map fun home => Path.join home ".weftrc".toList).toList ++ ["./.weftrc".toList]

def settingsPath? (i : Invocation) : SettingsChoice → Option Path
  | .skip => none
  | .file path => some path
  | .search => i.settingsCandidates.find? i.tree.isFile

/-- The options of the settings file, and the warnings about it. -/
def settings (i : Invocation) (choice : SettingsChoice) : Options × Text :=
  match i.settingsPath? choice with
  | none => ({}, [])
  | some path =>
    match Settings.ofFile i.tree path with
    | .ok (o, bad) => (o, bad.flatMap fun b => Report.warning path b.display)
    | .error fault => ({}, Report.warning path fault.message)

def override (a : Arguments) (o : Options) : Options :=
  { o with
    baseDir := a.baseDir.getD o.baseDir
    matchesOnly := a.matchesOnly || o.matchesOnly }

def inputText (i : Invocation) : Input → Except Text Text
  | .standard => (Utf8.decode i.standardInput).mapError fun f => "stdin: ".toList ++ f.message
  | .file path => (i.tree.readText path).mapError fun f => path ++ ": ".toList ++ f.message

def render (i : Invocation) (o : Options) (warnings : Text) (t : Text) : Report :=
  let userRules := IgnoreRules.ofUser i.tree i.home i.configHome
  let engine : Engine := { functions := .standard i.tree userRules }
  match engine.render t { options := o } with
  | (.error e, _) => { status := 1, errors := warnings ++ Report.line e.message }
  | (.ok rendering, context) =>
    let output :=
      match rendering with
      | .text t => t
      | .slots ms => ms.flatMap Report.slotLine
    let attached := context.attachments.flatMap fun a =>
      Report.line ("attachment: ".toList ++ a.display)
    { output, errors := warnings ++ attached }

def run (i : Invocation) : Report :=
  match Arguments.parse i.arguments with
  | .error e => { status := 1, errors := Report.line e.message ++ Report.usage }
  | .ok a =>
    let (o, warnings) := i.settings a.settings
    match i.inputText a.input with
    | .error message => { status := 1, errors := warnings ++ Report.line message }
    | .ok t => i.render (override a o) warnings t

end Invocation
end Stencil
