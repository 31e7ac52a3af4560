import StructuralEditor.Tree.Layout

/-!
# Trees

* `Tree` : a table of nodes, the roots of a forest in it, and the layout of that forest;
* `Tree.ofTable`, `Tree.annotate` : the tree with the layout of its forest;
* `Tree.node?`, `Tree.place?`, `Tree.byNumber?`, `Tree.byPath?`, `Tree.byIdentity?` : looking up;
* `Tree.nodes`, `Tree.children`, `Tree.descendants` : the nodes in document order;
* `Tree.text`, `Tree.source`, `Tree.label` : what is shown of a tree and of a node.
-/

namespace StructuralEditor

/-- The number of levels that a description spells out unless told otherwise. -/
def defaultDepth : Nat := 1

structure Tree where
  table : Table
  roots : List Nat
  layout : Layout
  /-- The number of levels below a described node at which labels take over. -/
  depth : Nat

namespace Tree

def ofTable (table : Table) (roots : List Nat) (depth : Nat) : Tree where
  table := table
  roots := roots
  layout := Layout.ofRoots table roots
  depth := depth

/-- The forest without nodes. -/
def empty : Tree := ofTable Table.empty [] defaultDepth

def annotate (t : Tree) : Tree :=
  { t with layout := Layout.ofRoots t.table t.roots }

def withDepth (t : Tree) (depth : Nat) : Tree :=
  { t with depth := depth }

def node? (t : Tree) (id : Nat) : Option Node := t.table.get? id

def place? (t : Tree) (id : Nat) : Option Place := t.layout.places[id]?

/-- The place of a node; a foreign index has the place of a node that no walk reached. -/
def place (t : Tree) (id : Nat) : Place := (t.place? id).getD {}

def path (t : Tree) (id : Nat) : Path := (t.place id).path

/-- The span of a node; a foreign index has the empty span at the start. -/
def span (t : Tree) (id : Nat) : Span := ((t.node? id).map (·.span)).getD (Span.empty Position.zero)

/-- The number of visits of the forest: without shared nodes, the number of nodes in it. -/
def size (t : Tree) : Nat := t.layout.order.size

def isEmpty (t : Tree) : Bool := t.layout.order.isEmpty

def nodes (t : Tree) : List Nat := t.layout.order.toList

def firstRoot? (t : Tree) : Option Nat := t.roots.head?

def byNumber? (t : Tree) (number : Nat) : Option Nat := t.layout.order[number]?

def byPath? (t : Tree) (path : Path) : Option Nat := t.layout.byPath[path]?

def byIdentity? (t : Tree) (identity : Identity) : Option Nat := t.layout.byIdentity[identity]?

def children (t : Tree) (id : Nat) : List Nat := t.table.children id

def descendants (t : Tree) (id : Nat) : List Nat := t.table.descendants id

def contents (t : Tree) : List Content := t.roots.map t.table.content

def source (t : Tree) (id : Nat) : String := t.table.source id

def text (t : Tree) : String := "\n".intercalate (t.roots.map t.source)

/-- The label of a node, or else the name of its form; a foreign index has none. -/
def label (t : Tree) (id : Nat) : String :=
  match t.node? id with
  | some node => node.label
  | none => ""

end Tree

end StructuralEditor
