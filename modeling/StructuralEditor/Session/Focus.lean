import StructuralEditor.Buffer.Edit
import StructuralEditor.Tree.Navigation

/-!
# Focus after a change

* `Region`, `settledRegions` : where the text of each change is once all of them are made;
* `defaultFocus` : the node to focus after changes, in the tree of the edited text;
* `settledRegions?`, `defaultFocus?` : the same in numbers of 32 bits, unless one of them goes wrong.
-/

namespace StructuralEditor

/-- Where the text of a change is, and whether it has any. -/
structure Region where
  start : Position
  stop : Position
  inserted : Bool
deriving DecidableEq, Repr

namespace Region

def ofChange (c : Change) : Region := ⟨c.start, c.finish, c.isInsertion⟩

def shift (r : Region) (c : Change) : Region :=
  { r with start := c.shift r.start, stop := c.shift r.stop }

/-- Where the text of a change is right after it, in numbers of 32 bits. -/
def ofChange? (c : Change) : Except Overflow Region := do
  let finish ← c.finish?
  return ⟨c.start, finish, c.isInsertion⟩

def shift? (r : Region) (c : Change) : Except Overflow Region := do
  let start ← c.shift? r.start
  let stop ← c.shift? r.stop
  return { r with start := start, stop := stop }

end Region

/-- Where the text of each change is once all of them are made, in the order they were made in. -/
def settledRegions : List Change → List Region
  | [] => []
  | c :: later => later.foldl Region.shift (Region.ofChange c) :: settledRegions later

def settledRegions? : List Change → Except Overflow (List Region)
  | [] => .ok []
  | c :: later => do
    let region ← later.foldlM Region.shift? (← Region.ofChange? c)
    return region :: (← settledRegions? later)

/-- The node to focus for regions, the last of which with text counts: the node with exactly that text, or else the
node before its end; without any text, the node before the first region, or else the first root. -/
def focusOf (regions : List Region) (t : Tree) : Option Nat :=
  match regions.reverse.find? (·.inserted) with
  | some region => t.exactly? region.start region.stop <|> t.before? region.stop
  | none => (regions.map (·.start)).min?.bind t.before? <|> t.firstRoot?

def defaultFocus (changes : List Change) (t : Tree) : Option Nat := focusOf (settledRegions changes) t

/-- The node to focus after changes, by regions in numbers of 32 bits. -/
def defaultFocus? (changes : List Change) (t : Tree) : Except Overflow (Option Nat) := do
  let regions ← settledRegions? changes
  return focusOf regions t

end StructuralEditor
