import StructuralEditor.Position
import StructuralEditor.Scheme.Form

/-!
# Parse errors

* `ParseFault` : what is wrong with a text;
* `ParseError` : a fault and the position it was found at.
-/

namespace StructuralEditor

open Scheme (Bracket Form)

inductive ParseFault where
  | unterminatedString
  | nestingTooDeep
  | unexpectedClosing (bracket : Bracket)
  | mismatchedClosing (opened : Bracket) (openedAt : Position)
  | missingClosing (opened : Bracket)
  | malformed (form : Form)
  | refused (reason : String)
deriving DecidableEq, Repr

def ParseFault.message : ParseFault → String
  | unterminatedString => "unterminated string"
  | nestingTooDeep => "nesting too deep"
  | unexpectedClosing bracket => "unexpected closing '" ++ bracket.closer.toString ++ "'"
  | mismatchedClosing opened openedAt =>
    "expected '" ++ opened.closer.toString ++ "' to close '" ++ opened.opener.toString ++ "' at " ++
      toString openedAt
  | missingClosing opened =>
    "unbalanced '" ++ opened.opener.toString ++ "': missing '" ++ opened.closer.toString ++ "'"
  | malformed form => "malformed " ++ form.word ++ " expression"
  | refused reason => reason

/-- A fault and, where it is known, its position. -/
structure ParseError where
  fault : ParseFault
  position : Option Position
deriving DecidableEq, Repr

namespace ParseError

def foundAt (position : Position) (fault : ParseFault) : ParseError := ⟨fault, some position⟩

def message (e : ParseError) : String :=
  match e.position with
  | some position => "Parse error at " ++ toString position ++ ": " ++ e.fault.message
  | none => "Parse error: " ++ e.fault.message

end ParseError

end StructuralEditor
