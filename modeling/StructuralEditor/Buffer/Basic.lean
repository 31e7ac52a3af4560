import StructuralEditor.Buffer.Edit

/-!
# Text buffers

* `Buffer` : a text addressed by line and column; `Buffer.index?`, `Buffer.offset`, `Buffer.slice`;
* `Buffer.apply` : a batch of edits, which is carried out as a whole or refused;
* `TextBuffer` : what a session asks of the buffer that holds its text.
-/

namespace StructuralEditor

/-- The number of characters before a line and column of a text: the column may be at most the length
of the line. -/
def indexOf? : List Char → (line column : Nat) → Option Nat
  | _, 0, 0 => some 0
  | [], _, _ => none
  | c :: rest, 0, column + 1 => if c = '\n' then none else (indexOf? rest 0 column).map (· + 1)
  | c :: rest, line + 1, column =>
    (indexOf? rest (if c = '\n' then line else line + 1) column).map (· + 1)

structure Buffer where
  text : String
deriving DecidableEq, Inhabited, Repr

namespace Buffer

def chars (b : Buffer) : List Char := b.text.toList

/-- The number of lines, which is one more than that of newlines. Lines and columns are counted without a bound: texts
with fewer than `2 ^ 32` lines are meant, and fewer than `2 ^ 32` columns on each. -/
def lineCount (b : Buffer) : Nat := b.chars.count '\n' + 1

def finish (b : Buffer) : Position := Position.zero.after b.chars

def index? (b : Buffer) (p : Position) : Except EditError Nat :=
  match indexOf? b.chars p.line p.column with
  | some index => .ok index
  | none => .error (.outOfBounds p (b.lineCount - 1))

def offset (b : Buffer) (p : Position) : Except EditError Nat := do
  let index ← b.index? p
  return (String.ofList (b.chars.take index)).utf8ByteSize

def slice (b : Buffer) (p q : Position) : Except EditError String := do
  if p ≤ q then
    let start ← b.index? p
    let stop ← b.index? q
    return String.ofList ((b.chars.take stop).drop start)
  else .error (.invalidRange p q)

/-- An edit with the numbers of characters before its ends. -/
structure Located where
  edit : Edit
  start : Nat
  stop : Nat
deriving DecidableEq, Repr

/-- Locates an edit, whose ends must be in order and in the text. -/
def locate (b : Buffer) (edit : Edit) : Except EditError Located := do
  if edit.start ≤ edit.stop then
    let start ← b.index? edit.start
    let stop ← b.index? edit.stop
    return ⟨edit, start, stop⟩
  else .error (.invalidRange edit.start edit.stop)

/-- The order of located edits: by start, then by end, so that an insertion comes before a range that
starts there. -/
def Located.precedes (a b : Located) : Bool :=
  a.start < b.start || a.start == b.start && a.stop ≤ b.stop

/-- Checks that each edit ends where the next starts or before. -/
def checkDisjoint : List Located → Except EditError Unit
  | a :: b :: rest =>
    if a.edit.stop ≤ b.edit.start then checkDisjoint (b :: rest)
    else .error (.overlapping a.edit.start b.edit.start)
  | _ => .ok ()

/-- The edits of a batch in document order, if they can be carried out together. -/
def plan (b : Buffer) (edits : List Edit) : Except EditError (List Located) := do
  let located ← edits.mapM b.locate
  let sorted := located.mergeSort Located.precedes
  checkDisjoint sorted
  return sorted

def Located.perform (l : Located) (text : List Char) : List Char × Change :=
  (text.take l.start ++ l.edit.text.toList ++ text.drop l.stop,
    { start := l.edit.start
      stop := l.edit.stop
      text := l.edit.text
      removed := String.ofList ((text.take l.stop).drop l.start) })

def performAll : List Located → List Char → List Char × List Change
  | [], text => (text, [])
  | l :: rest, text =>
    let (edited, change) := l.perform text
    let (final, changes) := performAll rest edited
    (final, change :: changes)

/-- Carries out a batch of edits from the last in the text to the first, so that no edit moves one that
is still to come. The changes are in the order in which they were made. -/
def apply (b : Buffer) (edits : List Edit) : Except EditError (Buffer × List Change) := do
  let sorted ← b.plan edits
  let (text, changes) := performAll sorted.reverse b.chars
  return (⟨String.ofList text⟩, changes)

end Buffer

/-- What a session asks of the buffer that holds its text. -/
class TextBuffer (β : Type) where
  /-- The text. -/
  text : β → String
  /-- Carries out a batch of edits. -/
  apply : β → List Edit → β × Except EditError (List Change)

instance : TextBuffer Buffer where
  text := Buffer.text
  apply b edits :=
    match b.apply edits with
    | .ok (edited, changes) => (edited, .ok changes)
    | .error e => (b, .error e)

end StructuralEditor
