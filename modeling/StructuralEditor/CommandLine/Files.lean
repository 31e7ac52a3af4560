import StructuralEditor.Text.Blank

/-!
# Files

* `FileError` : why a file cannot be read or written;
* `FileAccess` : what the program asks of the place where its files are;
* `Files` : a directory as a list of named contents; `Files.ofList`, `Files.locate`, `Files.access`.
-/

namespace StructuralEditor.CommandLine

inductive FileError where
  | missing
  | notDirectory
  | isDirectory
  | notText
  | other (reason : String)
deriving DecidableEq, Repr

def FileError.message : FileError → String
  | missing => "No such file or directory (os error 2)"
  | notDirectory => "Not a directory (os error 20)"
  | isDirectory => "Is a directory (os error 21)"
  | notText => "stream did not contain valid UTF-8"
  | other reason => reason

/-- What the program asks of the place where its files are. -/
structure FileAccess (m : Type → Type) where
  /-- Whether there is a file, not a directory, with this name. -/
  isFile : String → m Bool
  /-- The text of a file. -/
  read : String → m (Except FileError String)
  /-- Replaces the text of a file. -/
  write : String → String → m (Except FileError Unit)

def decodeText (bytes : ByteArray) : Except FileError String :=
  match String.fromUTF8? bytes with
  | some text => .ok text
  | none => .error .notText

/-- A directory: the contents of the files in it and in its subdirectories, by the names on the way. -/
structure Files where
  entries : List (List String × ByteArray)

namespace Files

/-- The names on the way to a file, which are divided by slashes. -/
def names (name : String) : List String :=
  (Text.pieces '/' name.toList).map String.ofList

/-- One more name on the way from a directory, whose names are given innermost first. -/
def enter (directory : List String) (name : String) : List String :=
  if name = "" ∨ name = "." then directory
  else if name = ".." then directory.tail
  else name :: directory

def fullName (name : String) : List String :=
  ((names name).foldl enter []).reverse

/-- The directory with these files; of two that have the same full name, the later counts. -/
def ofList (files : List (String × ByteArray)) : Files :=
  ⟨(files.map fun (name, bytes) => (fullName name, bytes)).reverse⟩

def get? (files : Files) (name : List String) : Option ByteArray := files.entries.lookup name

def hasDirectory (files : Files) (name : List String) : Bool :=
  files.entries.any fun (other, _) => name.isPrefixOf other && name.length < other.length

/-- What a name that leads out of the directory finds: the directories around it, but no file. -/
def outside (names : List String) : FileError :=
  if names.all fun name => name ∈ ["", ".", ".."] then .isDirectory else .missing

/-- Follows the names on the way to a file from the directory with the given full name, innermost first. -/
def locateFrom (files : Files) (directory : List String) : List String → Except FileError (List String)
  | [] => .error .isDirectory
  | name :: rest =>
    if name = "" ∨ name = "." then locateFrom files directory rest
    else if name = ".." then
      match directory with
      | [] => .error (outside rest)
      | _ :: above => locateFrom files above rest
    else
      let full := (name :: directory).reverse
      if (files.get? full).isSome then
        if rest.isEmpty then .ok full else .error .notDirectory
      else if files.hasDirectory full then locateFrom files (name :: directory) rest
      else .error .missing

/-- The full name of the file that a name leads to; a name that starts with a slash leads outside. -/
def locate (files : Files) (name : String) : Except FileError (List String) :=
  if name.toList.head? = some '/' then .error (outside (names name)) else locateFrom files [] (names name)

def read (files : Files) (name : String) : Except FileError String := do
  let full ← files.locate name
  decodeText ((files.get? full).getD .empty)

def replace (files : Files) (full : List String) (bytes : ByteArray) : Files :=
  ⟨files.entries.map fun (other, old) => if other = full then (other, bytes) else (other, old)⟩

def write (files : Files) (name text : String) : Except FileError Files := do
  return files.replace (← files.locate name) text.toUTF8

def access : FileAccess (StateM Files) where
  isFile name := do return ((← get).locate name).isOk
  read name := do return (← get).read name
  write name text := do
    match (← get).write name text with
    | .ok files =>
      set files
      return .ok ()
    | .error e => return .error e

end Files

end StructuralEditor.CommandLine
