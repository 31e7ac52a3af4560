import Std.Data.HashMap
import StructuralEditor.Path
import StructuralEditor.Table

/-!
# The layout of a forest

* `Visit` : one step of the walk through a forest, parents first;
* `Table.visits`, `Table.walk` : the visits below a node, and those from a list of roots;
* `Place` : where a node stands among the others;
* `Layout` : the places of all nodes and the indices by number, path and identity, from one walk.
-/

namespace StructuralEditor

structure Visit where
  id : Nat
  parent : Option Nat
  path : Path
  level : Nat
  setSize : Nat
  position : Nat
deriving DecidableEq, Repr

/-- The visit of the child with this index among `count` siblings. -/
def Visit.child (v : Visit) (count index id : Nat) : Visit where
  id := id
  parent := some v.id
  path := v.path.child index
  level := v.level + 1
  setSize := count
  position := index + 1

/-- The visit of the root with this index among `count` roots. -/
def Visit.root (count index id : Nat) : Visit where
  id := id
  parent := none
  path := Path.root index
  level := 1
  setSize := count
  position := index + 1

namespace Table

/-- A visit and those below it, parents first and children in order. -/
def visits (t : Table) (v : Visit) : List Visit :=
  let children := t.children v.id
  v :: children.zipIdx.flatMap fun (child, index) =>
    if child < v.id then t.visits (v.child children.length index child) else []
termination_by v.id

def walk (t : Table) (roots : List Nat) : List Visit :=
  roots.zipIdx.flatMap fun (root, index) => t.visits (Visit.root roots.length index root)

end Table

/-- Where a node stands: a node that no walk reached keeps the default place. -/
structure Place where
  parent : Option Nat := none
  path : Path := Path.empty
  /-- The number of nodes from the root down to this one. -/
  level : Nat := 0
  /-- The number of nodes visited before. -/
  number : Nat := 0
  previous : Option Nat := none
  next : Option Nat := none
  /-- The number of siblings, this node included. -/
  setSize : Nat := 0
  /-- The position among the siblings, from one. -/
  position : Nat := 0
deriving DecidableEq, Inhabited, Repr

/-- The places of all nodes and the indices by number, path and identity. -/
structure Layout where
  places : Array Place
  order : Array Nat
  byPath : Std.HashMap Path Nat
  byIdentity : Std.HashMap Identity Nat

namespace Layout

/-- The layout of a table of which nothing has been visited. -/
def blank (t : Table) : Layout where
  places := Array.replicate t.size {}
  order := #[]
  byPath := ∅
  byIdentity := ∅

/-- Records a visit: it follows the one before, and the last visit of a node decides its place. -/
def record (t : Table) (layout : Layout) (v : Visit) : Layout :=
  let previous := layout.order.back?
  let place : Place :=
    { parent := v.parent, path := v.path, level := v.level, number := layout.order.size,
      previous := previous, next := none, setSize := v.setSize, position := v.position }
  let places := layout.places.modify v.id fun _ => place
  { places := match previous with
      | some p => places.modify p fun place => { place with next := some v.id }
      | none => places
    order := layout.order.push v.id
    byPath := layout.byPath.insert v.path v.id
    byIdentity := match t.get? v.id with
      | some node => layout.byIdentity.insert node.identity v.id
      | none => layout.byIdentity }

def ofRoots (t : Table) (roots : List Nat) : Layout :=
  (t.walk roots).foldl (record t) (blank t)

end Layout

end StructuralEditor
