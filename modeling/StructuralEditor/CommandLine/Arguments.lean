import StructuralEditor.Path
import StructuralEditor.Position

/-!
# Arguments

* `Verb` : the commands by name, each with what it asks for;
* `Slot`, `Given` : what a value is for, and the values that were given;
* `ArgumentError` : why arguments are refused;
* `Reading` : the state of reading the arguments of one level; `Reading.step`, `Reading.settle`;
* `Arguments.parse` : the invocation that a list of arguments asks for.
-/

namespace StructuralEditor.CommandLine

/-- Why arguments are refused, or answered without a command. -/
inductive ArgumentError where
  | nothingGiven
  | helpWanted
  | versionWanted
  | missingVerb
  | unknownVerb
  | unknownArgument
  | missingArgument
  | missingValue
  | rejectedValue
  | repeated
  | surplusValue
deriving DecidableEq, Repr

inductive Slot where
  | config
  | logFile
  | depth
  | file
  | path
  | position
  | start
  | stop
  | text
deriving DecidableEq, Repr

structure Given where
  config : Option String := none
  logFile : Option String := none
  depth : Option Nat := none
  file : Option String := none
  path : Option Path := none
  position : Option Position := none
  start : Option Position := none
  stop : Option Position := none
  text : Option String := none
  write : Bool := false
deriving DecidableEq, Repr

def readFileName (value : String) : Except ArgumentError String :=
  if value.isEmpty then .error .missingValue else .ok value

/-- A depth: a numeral with an optional sign, of which a negative one can only be zero. -/
def readDepth (value : String) : Except ArgumentError Nat :=
  match value.toList with
  | '-' :: digits => if !digits.isEmpty && digits.all (· == '0') then .ok 0 else .error .rejectedValue
  | digits => (Text.readDecimal Text.limit32 digits).mapError fun _ => .rejectedValue

def readPosition (value : String) : Except ArgumentError Position :=
  (Position.parse value).mapError fun _ => .rejectedValue

def readPath (value : String) : Except ArgumentError Path :=
  (Path.parse value).mapError fun _ => .rejectedValue

/-- The value that `read` makes of a text, unless there is one already. -/
def readOnce {α : Type} (read : String → Except ArgumentError α) (before : Option α) (value : String) :
    Except ArgumentError (Option α) :=
  if before.isSome then .error .repeated else some <$> read value

namespace Given

/-- Stores the value for a slot: a second one is refused, and so is one that is not of its type. -/
def store (g : Given) (slot : Slot) (value : String) : Except ArgumentError Given :=
  match slot with
  | .config => return { g with config := ← readOnce readFileName g.config value }
  | .logFile => return { g with logFile := ← readOnce readFileName g.logFile value }
  | .depth => return { g with depth := ← readOnce readDepth g.depth value }
  | .file => return { g with file := ← readOnce readFileName g.file value }
  | .path => return { g with path := ← readOnce readPath g.path value }
  | .position => return { g with position := ← readOnce readPosition g.position value }
  | .start => return { g with start := ← readOnce readPosition g.start value }
  | .stop => return { g with stop := ← readOnce readPosition g.stop value }
  | .text => return { g with text := ← readOnce .ok g.text value }

end Given

inductive Verb where
  | outline
  | describe
  | showAt
  | edit
deriving DecidableEq, Repr

namespace Verb

def word : Verb → String
  | outline => "outline"
  | describe => "describe"
  | showAt => "at"
  | edit => "edit"

def ofWord? (word : String) : Option Verb :=
  [outline, describe, showAt, edit].find? fun verb => verb.word = word

/-- The values that the command takes by their places. -/
def places : Verb → List Slot
  | outline | edit => [.file]
  | describe => [.file, .path]
  | showAt => [.file, .position]

end Verb

inductive Switch where
  | value (slot : Slot)
  | write
  | help
  | version
deriving DecidableEq, Repr

namespace Switch

def common : List (String × Switch) :=
  [("config", value .config), ("log-file", value .logFile), ("depth", value .depth), ("help", help)]

def long : Option Verb → List (String × Switch)
  | none => common ++ [("version", version)]
  | some .edit => common ++ [("from", value .start), ("to", value .stop), ("text", value .text), ("write", write)]
  | some _ => common

def short : Option Verb → List (Char × Switch)
  | none => [('h', help), ('V', version)]
  | some _ => [('h', help)]

end Switch

inductive Shape where
  | dashes
  | long (name : String) (value : Option String)
  | short (letter : Char)
  | plain
deriving DecidableEq, Repr

/-- The shape of an argument; a single dash is a plain word. -/
def Shape.of (argument : String) : Shape :=
  match argument.toList with
  | ['-', '-'] => dashes
  | '-' :: '-' :: rest =>
    let value := match rest.dropWhile (· ≠ '=') with
      | [] => none
      | _ :: value => some (String.ofList value)
    long (String.ofList (rest.takeWhile (· ≠ '='))) value
  | '-' :: letter :: _ => short letter
  | _ => plain

/-- The state of reading the arguments before a verb, or after one. -/
structure Reading where
  given : Given := {}
  /-- The slot that was named last, with its value once it is there. -/
  pending : Option (Slot × Option String) := none
  /-- The slots that plain words still fill. -/
  places : List Slot := []
  /-- Whether two dashes ended the options. -/
  plainOnly : Bool := false
deriving DecidableEq, Repr

namespace Reading

def awaitsValue (r : Reading) : Bool :=
  match r.pending with
  | some (_, none) => !r.plainOnly
  | _ => false

/-- Stores the value of the slot that was named last; an option without its value is refused. -/
def settle (r : Reading) : Except ArgumentError Reading :=
  match r.pending with
  | none => .ok r
  | some (_, none) => .error .missingValue
  | some (slot, some value) => return { r with given := ← r.given.store slot value, pending := none }

def switchOn (r : Reading) (switch : Switch) (value : Option String) : Except ArgumentError Reading :=
  match switch, value with
  | .value slot, some value => do
    let r ← r.settle
    return { r with given := ← r.given.store slot value }
  | .value slot, none => return { ← r.settle with pending := some (slot, none) }
  | _, some _ => .error .surplusValue
  | .write, none => do
    let r ← r.settle
    if r.given.write then .error .repeated else return { r with given := { r.given with write := true } }
  | .help, none => do
    let _ ← r.settle
    .error .helpWanted
  | .version, none => do
    let _ ← r.settle
    .error .versionWanted

/-- Reads a plain word: the value of an option, or else of the next place. -/
def takeWord (r : Reading) (verb : Option Verb) (word : String) : Except ArgumentError Reading :=
  match r.pending, r.awaitsValue with
  | some (slot, _), true => .ok { r with pending := some (slot, some word) }
  | _, _ =>
    match r.places, verb with
    | place :: rest, _ => return { ← r.settle with pending := some (place, some word), places := rest }
    | [], some _ => .error .unknownArgument
    | [], none =>
      if r.plainOnly ∧ (word = "help" ∨ (Verb.ofWord? word).isSome) then .error .unknownArgument
      else .error .unknownVerb

def step (verb : Option Verb) (r : Reading) (argument : String) : Except ArgumentError Reading :=
  if r.plainOnly then r.takeWord verb argument
  else match Shape.of argument with
    | .dashes => .ok { r with plainOnly := true }
    | .long name value =>
      match (Switch.long verb).lookup name with
      | some switch => r.switchOn switch value
      | none => .error .unknownArgument
    | .short letter =>
      match (Switch.short verb).lookup letter with
      | some switch => r.switchOn switch none
      | none => .error .unknownArgument
    | .plain => r.takeWord verb argument

end Reading

inductive Command where
  | outline (file : String)
  | describe (file : String) (path : Path)
  | showAt (file : String) (position : Position)
  | edit (file : String) (start stop : Position) (text : String) (write : Bool)
deriving DecidableEq, Repr

/-- The command of a verb with the values that were given, if none that it needs is missing. -/
def Command.ofGiven (verb : Verb) (g : Given) : Except ArgumentError Command :=
  match verb, g.file with
  | .outline, some file => .ok (.outline file)
  | .describe, some file =>
    match g.path with
    | some path => .ok (.describe file path)
    | none => .error .missingArgument
  | .showAt, some file =>
    match g.position with
    | some position => .ok (.showAt file position)
    | none => .error .missingArgument
  | .edit, some file =>
    match g.start, g.stop with
    | some start, some stop => .ok (.edit file start stop (g.text.getD "") g.write)
    | _, _ => .error .missingArgument
  | _, none => .error .missingArgument

/-- A command and the options that may stand anywhere. -/
structure Invocation where
  config : Option String
  logFile : Option String
  depth : Option Nat
  command : Command
deriving DecidableEq, Repr

namespace Arguments

/-- Help about the program, about one verb or about help itself; no topic has topics below it. -/
def help : (topics : List String) → ArgumentError
  | [] => .helpWanted
  | [topic] => if topic = "help" ∨ (Verb.ofWord? topic).isSome then .helpWanted else .unknownVerb
  | _ => .unknownVerb

def parseVerb (verb : Verb) (arguments : List String) : Except ArgumentError (Given × Command) := do
  let start : Reading := { places := verb.places }
  let r ← arguments.foldlM (Reading.step (some verb)) start
  let given := (← r.settle).given
  return (given, ← Command.ofGiven verb given)

/-- Reads on before the verb. What stands after the verb is read before the last option before it is
settled, and an option after the verb takes precedence. -/
def parseFrom (r : Reading) : List String → Except ArgumentError Invocation
  | [] => do
    let given := (← r.settle).given
    .error (if given = {} then .nothingGiven else .missingVerb)
  | argument :: rest =>
    if r.plainOnly ∨ r.awaitsValue then do
      parseFrom (← r.step none argument) rest
    else if argument = "help" then .error (help rest)
    else match Verb.ofWord? argument with
      | some verb => do
        let (inner, command) ← parseVerb verb rest
        let outer := (← r.settle).given
        return ⟨inner.config <|> outer.config, inner.logFile <|> outer.logFile,
          inner.depth <|> outer.depth, command⟩
      | none => do parseFrom (← r.step none argument) rest

/-- The invocation that a list of arguments asks for. This stands in for a general parser of arguments, by the rules
that the commands rely on, and nothing is proved about it. -/
def parse (arguments : List String) : Except ArgumentError Invocation :=
  parseFrom {} arguments

end Arguments

end StructuralEditor.CommandLine
