import StructuralEditor.Position
import StructuralEditor.Text.Decimal

/-!
# Edits and changes

* `Edit` : a stretch of text and what to put in its place; `EditError` : why edits are refused;
* `Change` : what one applied edit did; `Change.finish` : where its text ends;
* `Change.shift` : where a position is after the change;
* `Coordinate.add`, `Coordinate.sub`, `Coordinate.ofCount` : coordinates as numbers of 32 bits, and `Overflow`, what
  may go wrong with them;
* `Change.finish?`, `Change.shift?` : the end of a change and a shifted position, computed with these.
-/

namespace StructuralEditor

/-- Puts `text` in place of what stands between two positions. -/
structure Edit where
  start : Position
  stop : Position
  text : String
deriving DecidableEq, Repr

inductive EditError where
  | invalidRange (start stop : Position)
  | outOfBounds (position : Position) (lastLine : Nat)
  | overlapping (first second : Position)
deriving DecidableEq, Repr

def EditError.message : EditError → String
  | invalidRange start stop =>
    "Invalid range: start " ++ toString start ++ " > end " ++ toString stop
  | outOfBounds position lastLine =>
    "Position " ++ toString position ++ " is outside the buffer (last line " ++ toString lastLine ++ ")"
  | overlapping first second =>
    "Edit at " ++ toString first ++ " overlaps edit at " ++ toString second

/-- What one applied edit did, in the coordinates of the text it was applied to. -/
structure Change where
  start : Position
  stop : Position
  text : String
  removed : String
deriving DecidableEq, Repr

namespace Change

def isInsertion (c : Change) : Bool := !c.text.isEmpty

def finish (c : Change) : Position := c.start.after c.text.toList

/-- Where a position is after the change: before it nothing moves, inside it everything collapses to the
end of its text, and after it everything moves along. -/
def shift (c : Change) (p : Position) : Position :=
  if p < c.start then p
  else if p ≤ c.stop then c.finish
  else
    { line := p.line + c.finish.line - c.stop.line
      column := if p.line = c.stop.line then p.column + c.finish.column - c.stop.column else p.column }

end Change

/-- What goes wrong with coordinates: a sum beyond their limit, or a difference below zero. -/
inductive Overflow where
  | addition
  | subtraction
deriving DecidableEq, Repr

def Overflow.message : Overflow → String
  | addition => "attempt to add with overflow"
  | subtraction => "attempt to subtract with overflow"

namespace Coordinate

def add (a b : Nat) : Except Overflow Nat :=
  if a + b ≤ Text.limit32 then .ok (a + b) else .error .addition

def sub (a b : Nat) : Except Overflow Nat :=
  if b ≤ a then .ok (a - b) else .error .subtraction

/-- The coordinate `a + b - d`, with the sum taken first. -/
def move (a b d : Nat) : Except Overflow Nat := do
  let sum ← add a b
  sub sum d

/-- The last 32 bits of a count. -/
def ofCount (count : Nat) : Nat := count % (Text.limit32 + 1)

end Coordinate

namespace Change

/-- Where the text of the change ends, in numbers of 32 bits. -/
def finish? (c : Change) : Except Overflow Position :=
  let text := c.text.toList
  if '\n' ∈ text then do
    let line ← Coordinate.add c.start.line (Coordinate.ofCount (text.count '\n'))
    return ⟨line, Coordinate.ofCount (text.reverse.takeWhile (· ≠ '\n')).length⟩
  else do
    let column ← Coordinate.add c.start.column (Coordinate.ofCount text.length)
    return ⟨c.start.line, column⟩

/-- Where a position behind the change is after it, from where its text ends. -/
def shiftBehind? (c : Change) (finish p : Position) : Except Overflow Position := do
  let line ← Coordinate.move p.line finish.line c.stop.line
  let column ←
    (if p.line = c.stop.line then Coordinate.move p.column finish.column c.stop.column else .ok p.column)
  return ⟨line, column⟩

/-- Where a position is after the change, in numbers of 32 bits. -/
def shift? (c : Change) (p : Position) : Except Overflow Position :=
  if p < c.start then .ok p
  else do
    let finish ← c.finish?
    if p ≤ c.stop then return finish
    else c.shiftBehind? finish p

end Change

end StructuralEditor
