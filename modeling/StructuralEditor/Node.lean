import StructuralEditor.Kind
import StructuralEditor.Position

/-!
# Nodes

* `Identity` : the token that follows a node through edits;
* `Options` : the label and the metadata of a node;
* `Comment` : a comment that belongs to a node without being one of its children;
* `Node` : one entry of a table, whose children are given by their indices.
-/

namespace StructuralEditor

/-- The token minted for a node, which can follow it through edits. -/
structure Identity where
  serial : Nat
deriving DecidableEq, Hashable, Inhabited, Repr

/-- The label and the metadata of a node; the metadata are sorted by key. -/
structure Options where
  label : Option String
  metadata : List (String × String)
deriving DecidableEq, Inhabited, Repr

namespace Options

def none : Options := ⟨Option.none, []⟩

def labelled (label : String) : Options := ⟨some label, []⟩

/-- Puts an entry at its place in a list sorted by key, in place of an entry with its key. -/
def insertEntry (key value : String) : List (String × String) → List (String × String)
  | [] => [(key, value)]
  | (k, v) :: rest =>
    if key < k then (key, value) :: (k, v) :: rest
    else if key = k then (key, value) :: rest
    else (k, v) :: insertEntry key value rest

def insert (options : Options) (key value : String) : Options :=
  { options with metadata := insertEntry key value options.metadata }

end Options

/-- A comment that belongs to a node without being one of its children. -/
structure Comment where
  span : Span
  text : String
deriving DecidableEq, Inhabited, Repr

def Comment.merge (first second : Comment) : Comment :=
  ⟨first.span.union second.span, first.text ++ "\n" ++ second.text⟩

/-- One entry of a table; its children are given by their indices. -/
structure Node where
  span : Span
  kind : Kind Nat
  options : Options
  identity : Identity
  comment : Option Comment
deriving Repr

namespace Node

def isLeaf (n : Node) : Bool := n.kind.children.isEmpty

def label (n : Node) : String := n.options.label.getD n.kind.tag.name

/-- Whether a cursor at `p` touches the node or its comment. -/
def touches (n : Node) (p : Position) : Bool :=
  n.span.contains p || n.comment.any (·.span.contains p)

instance : ToString Node where
  toString n := n.kind.tag.text ++ "@" ++ toString n.span

end Node

end StructuralEditor
