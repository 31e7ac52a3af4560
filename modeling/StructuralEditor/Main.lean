import StructuralEditor.CommandLine.Program

/-!
# The executable

Reads and writes real files for `StructuralEditor.CommandLine.runProgram`, and prints what it answers.
-/

namespace StructuralEditor.CommandLine

def usage : String :=
  "Inspect and edit Scheme source through its structural tree\n\n" ++
  "Usage: blocks [OPTIONS] <COMMAND>\n\n" ++
  "Commands:\n" ++
  "  outline <FILE>                               Print every node with its path, span and label\n" ++
  "  describe <FILE> <PATH>                       Describe the node at a path such as 0,1\n" ++
  "  at <FILE> <POSITION>                         Show the innermost node touching a line:column cursor\n" ++
  "  edit <FILE> --from <POSITION> --to <POSITION> [--text <TEXT>] [--write]\n" ++
  "                                               Replace a stretch of text, refusing edits that break the parse\n\n" ++
  "Options:\n" ++
  "  --config <FILE>      Settings file, instead of blocks.toml\n" ++
  "  --log-file <FILE>    Log file, overriding the settings\n" ++
  "  --depth <DEPTH>      Description depth, overriding the settings\n" ++
  "  -h, --help           Print help\n" ++
  "  -V, --version        Print version\n"

def ArgumentError.message : ArgumentError → String
  | nothingGiven | helpWanted | versionWanted => ""
  | missingVerb => "a command is required"
  | unknownVerb => "unrecognized command"
  | unknownArgument => "unexpected argument found"
  | missingArgument => "a required argument was not provided"
  | missingValue => "a value is required but none was supplied"
  | rejectedValue => "invalid value"
  | repeated => "an argument cannot be used multiple times"
  | surplusValue => "unexpected value for an argument that takes none"

def report (message : String) (causes : List String) : String :=
  let numbered := match causes with
    | [cause] => ["    " ++ cause]
    | causes => causes.zipIdx.map fun (cause, i) => "    " ++ toString i ++ ": " ++ cause
  let below := if causes.isEmpty then "" else "\n\nCaused by:\n" ++ "\n".intercalate numbered
  "Error: " ++ message ++ below

def fileError : IO.Error → FileError
  | .noFileOrDirectory .. => .missing
  | .noSuchThing .. => .missing
  | .inappropriateType _ code _ => if code = 21 then .isDirectory else .notDirectory
  | e => .other (toString e)

def systemFiles : FileAccess IO where
  isFile name := do
    match ← (IO.FS.readBinFile name).toBaseIO with
    | .ok _ => return true
    | .error _ => return false
  read name := do
    match ← (IO.FS.readBinFile name).toBaseIO with
    | .ok bytes => return decodeText bytes
    | .error e => return .error (fileError e)
  write name text := do
    match ← (IO.FS.writeFile name text).toBaseIO with
    | .ok _ => return .ok ()
    | .error e => return .error (fileError e)

def Outcome.print : Outcome → IO UInt32
  | refused .helpWanted => do
    IO.print usage
    return 0
  | refused .versionWanted => do
    IO.println "blocks"
    return 0
  | refused .nothingGiven => do
    IO.eprint usage
    return 2
  | refused cause => do
    IO.eprint ("error: " ++ cause.message ++ "\n\n" ++ usage)
    return 2
  | unsettled cause => do
    IO.eprintln (report cause.message [])
    return 1
  | failed _ _ cause => do
    IO.eprintln (report cause.message cause.causes)
    return 1
  | printed _ _ output => do
    IO.print output
    return 0

end StructuralEditor.CommandLine

def main (arguments : List String) : IO UInt32 := do
  (← StructuralEditor.CommandLine.runProgram StructuralEditor.CommandLine.systemFiles arguments).print
