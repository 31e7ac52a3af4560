import StructuralEditor.CommandLine.Command
import StructuralEditor.CommandLine.Settings
import StructuralEditor.Digest.Fx

/-!
# The program

* `SettingsError`, `loadSettings` : the settings in force, from the file that was named or the one at hand;
* `Outcome`, `runProgram` : what the program answers to its arguments.
-/

namespace StructuralEditor.CommandLine

/-- The settings file that is looked for where the program runs. -/
def settingsFile : String := "blocks.toml"

inductive SettingsError where
  | cannotRead (file : String)
  | cannotParse (file : String)
deriving DecidableEq, Repr

def SettingsError.message : SettingsError → String
  | cannotRead file => "Failed to read config file: " ++ file
  | cannotParse file => "Failed to parse config file: " ++ file

inductive Outcome where
  | refused (cause : ArgumentError)
  | unsettled (cause : SettingsError)
  | failed (depth : Nat) (logFile : Option String) (cause : CommandError)
  | printed (depth : Nat) (logFile : Option String) (output : String)
deriving DecidableEq, Repr

section Running

variable {m : Type → Type} [Monad m]

def readSettings (files : FileAccess m) (file : String) : m (Except SettingsError Settings) := do
  match ← files.read file with
  | .error _ => return .error (.cannotRead file)
  | .ok text =>
    match Settings.parse? text with
    | some settings => return .ok settings
    | none => return .error (.cannotParse file)

/-- The settings in the file that was named, or else in the one at hand, or else those by default. -/
def loadSettings (files : FileAccess m) (named : Option String) : m (Except SettingsError Settings) := do
  match named with
  | some file => readSettings files file
  | none => if ← files.isFile settingsFile then readSettings files settingsFile else return .ok {}

/-- Answers the arguments; what they say takes precedence over the settings. -/
def runProgram [Hasher] (files : FileAccess m) (arguments : List String) : m Outcome := do
  match Arguments.parse arguments with
  | .error e => return .refused e
  | .ok invocation =>
    match ← loadSettings files invocation.config with
    | .error e => return .unsettled e
    | .ok settings =>
      let depth := invocation.depth.getD settings.depth
      let logFile := invocation.logFile <|> settings.logFile
      match ← (invocation.command.run files depth).run with
      | .error e => return .failed depth logFile e
      | .ok output => return .printed depth logFile output

end Running

end StructuralEditor.CommandLine
