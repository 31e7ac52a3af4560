import StructuralEditor.CommandLine.Arguments
import StructuralEditor.CommandLine.Files
import StructuralEditor.Scheme.Program
import StructuralEditor.Session.Basic
import StructuralEditor.Tree.Description

/-!
# Commands

* `outline`, `describeAt`, `showAt` : views of the tree of a file;
* `editText` : one edit of a text through a session, so that the outcome parses;
* `CommandError` : why a command fails, with the causes behind it;
* `Command.run` : what a command prints.
-/

namespace StructuralEditor.CommandLine

inductive CommandError where
  | cannotRead (file : String) (cause : FileError)
  | cannotParse (file : String) (cause : ParseError)
  | cannotWrite (file : String) (cause : FileError)
  | nothingAtPath (path : Path)
  | nothingAtPosition (position : Position)
  | textDoesNotParse (cause : CommitError)
  | editRejected (start stop : Position) (cause : CommitError)
deriving DecidableEq, Repr

/-- The wordings of a refused commit and of what is behind it. -/
def commitCauses (e : CommitError) : List String :=
  match e with
  | .parse cause => [e.message, cause.message]
  | .edit cause => [e.message, cause.message]

namespace CommandError

def message : CommandError → String
  | cannotRead file _ => "Failed to read " ++ file
  | cannotParse file _ => "Failed to parse " ++ file
  | cannotWrite file _ => "Failed to write " ++ file
  | nothingAtPath path => "No node at path " ++ toString path
  | nothingAtPosition position => "No node at " ++ toString position
  | textDoesNotParse _ => "Failed to parse the original text"
  | editRejected start stop _ => "Edit at " ++ toString start ++ "-" ++ toString stop ++ " rejected"

def causes : CommandError → List String
  | cannotRead _ cause => [cause.message]
  | cannotParse _ cause => [cause.message]
  | cannotWrite _ cause => [cause.message]
  | nothingAtPath _ => []
  | nothingAtPosition _ => []
  | textDoesNotParse cause => commitCauses cause
  | editRejected _ _ cause => commitCauses cause

end CommandError

/-! ## Views -/

def summary (t : Tree) (id : Nat) : String :=
  toString (t.path id) ++ "  " ++ t.label id ++ "  [" ++ toString (t.span id) ++ "]"

def outline (t : Tree) : String :=
  String.join (t.nodes.map fun id =>
    String.join (List.replicate ((t.place id).level - 1) "  ") ++ summary t id ++ "\n")

/-- The description of the node at a path, or else of the nearest one. -/
def describeAt (t : Tree) (path : Path) : Except CommandError String :=
  match t.byPath? path <|> t.closest? path.segments with
  | some id => .ok (summary t id ++ "\n" ++ t.describe (t.place id).level id ++ "\n")
  | none => .error (.nothingAtPath path)

/-- The innermost node that a cursor touches, with its text. -/
def showAt (t : Tree) (position : Position) : Except CommandError String :=
  match t.containing? position with
  | some id => .ok (summary t id ++ "\n" ++ t.source id ++ "\n")
  | none => .error (.nothingAtPosition position)

/-! ## Editing -/

/-- A text after an edit, and the summary of the node that has the focus. -/
structure Edited where
  text : String
  focus : Option String
deriving DecidableEq, Repr

def Edited.focusLine (e : Edited) : String := "focus: " ++ e.focus.getD "none"

/-- Carries out one edit on a text; the text must parse before and after. -/
def editText [Hasher] (depth : Nat) (source : String) (edit : Edit) : Except CommandError Edited :=
  match Session.openOn (Scheme.parse depth) (⟨source⟩ : Buffer) with
  | .error e => .error (.textDoesNotParse e)
  | .ok session =>
    match session.commit [edit] fun _ => .fallback with
    | (_, .error e) => .error (.editRejected edit.start edit.stop e)
    | (session, .ok _) => .ok ⟨session.text, session.focusedNode?.map (summary session.tree)⟩

/-! ## Running -/

section Running

variable {m : Type → Type} [Monad m]

def readFile (files : FileAccess m) (file : String) : ExceptT CommandError m String :=
  ExceptT.mk do return (← files.read file).mapError (.cannotRead file)

def writeFile (files : FileAccess m) (file text : String) : ExceptT CommandError m Unit :=
  ExceptT.mk do return (← files.write file text).mapError (.cannotWrite file)

def parseFile (files : FileAccess m) (depth : Nat) (file : String) : ExceptT CommandError m Tree := do
  let source ← readFile files file
  ExceptT.mk (pure ((Scheme.parse depth 0 source).mapError (.cannotParse file)))

def Command.run [Hasher] (files : FileAccess m) (depth : Nat) : Command → ExceptT CommandError m String
  | .outline file => do return StructuralEditor.CommandLine.outline (← parseFile files depth file)
  | .describe file path => do
    let t ← parseFile files depth file
    ExceptT.mk (pure (describeAt t path))
  | .showAt file position => do
    let t ← parseFile files depth file
    ExceptT.mk (pure (StructuralEditor.CommandLine.showAt t position))
  | .edit file start stop text write => do
    let source ← readFile files file
    let edited ← ExceptT.mk (pure (editText depth source ⟨start, stop, text⟩))
    if write then
      writeFile files file edited.text
      return "wrote " ++ file ++ "\n" ++ edited.focusLine
    else return edited.text

end Running

end StructuralEditor.CommandLine
