import StructuralEditor.Scheme.Token

/-!
# Data

* `Item` : atoms, strings, lists and the comments between them;
* `Item.read` : the items that a list of tokens spells, with matching brackets nested at most
  `maxNesting` deep;
* `Datum` : an item without the comments in it; `Item.datum?`, `Item.data`.
-/

namespace StructuralEditor.Scheme

/-- Atoms, strings, lists and the comments between them. -/
inductive Item where
  | atom (text : String) (span : Span)
  | string (text : String) (span : Span)
  | list (items : List Item) (span : Span)
  | comment (text : String) (span : Span)
deriving Repr

def Item.span : Item → Span
  | atom _ span | string _ span | list _ span | comment _ span => span

def maxNesting : Nat := 512

/-- A list that is still open: its opening bracket, and the items before it, last one first. -/
structure Frame where
  bracket : Bracket
  span : Span
  items : List Item

namespace Item

/-- Reads on inside the open lists `frames`, innermost first, after the items `done`, last one first. -/
def readFrom (frames : List Frame) (done : List Item) : List Token → Except ParseError (List Item)
  | [] =>
    match frames with
    | [] => .ok done.reverse
    | frame :: _ => .error (ParseError.foundAt frame.span.start (.missingClosing frame.bracket))
  | ⟨.opening bracket, span⟩ :: rest =>
    if frames.length = maxNesting then .error (ParseError.foundAt span.start .nestingTooDeep)
    else readFrom (⟨bracket, span, done⟩ :: frames) [] rest
  | ⟨.closing bracket, span⟩ :: rest =>
    match frames with
    | [] => .error (ParseError.foundAt span.start (.unexpectedClosing bracket))
    | frame :: outer =>
      if frame.bracket = bracket then
        readFrom outer (.list done.reverse (frame.span.union span) :: frame.items) rest
      else .error (ParseError.foundAt span.start (.mismatchedClosing frame.bracket frame.span.start))
  | ⟨.atom text, span⟩ :: rest => readFrom frames (.atom text span :: done) rest
  | ⟨.string text, span⟩ :: rest => readFrom frames (.string text span :: done) rest
  | ⟨.comment text, span⟩ :: rest => readFrom frames (.comment text span :: done) rest

def read (tokens : List Token) : Except ParseError (List Item) :=
  readFrom [] [] tokens

end Item

inductive Datum where
  | atom (text : String) (span : Span)
  | string (text : String) (span : Span)
  | list (data : List Datum) (span : Span)
deriving Repr

def Datum.span : Datum → Span
  | atom _ span | string _ span | list _ span => span

namespace Item

mutual

/-- The item without the comments in it; a comment is nothing. -/
def datum? : Item → Option Datum
  | .atom text span => some (.atom text span)
  | .string text span => some (.string text span)
  | .list items span => some (.list (data items) span)
  | .comment .. => none

def data : List Item → List Datum
  | [] => []
  | item :: rest =>
    match item.datum? with
    | some datum => datum :: data rest
    | none => data rest

end

end Item

end StructuralEditor.Scheme
