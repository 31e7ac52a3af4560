import StructuralEditor.Content.Rendering
import StructuralEditor.Node

/-!
# Tables of nodes

* `Table` : nodes by index, in the order in which they were made;
* `Table.Ordered` : every child is older than its parent, as in every table made from the leaves up;
* `Table.descendants` : a node and everything below it, parents first;
* `Table.content` : what the subtree of a node says.
-/

namespace StructuralEditor

/-- Nodes by index, in the order in which they were made. -/
structure Table where
  nodes : Array Node
deriving Inhabited

namespace Table

/-- The table without nodes. -/
def empty : Table := ⟨#[]⟩

def size (t : Table) : Nat := t.nodes.size

def get? (t : Table) (id : Nat) : Option Node := t.nodes[id]?

def push (t : Table) (node : Node) : Table := ⟨t.nodes.push node⟩

def modify (t : Table) (id : Nat) (f : Node → Node) : Table := ⟨t.nodes.modify id f⟩

def children (t : Table) (id : Nat) : List Nat :=
  match t.get? id with
  | some node => node.kind.children
  | none => []

def Ordered (t : Table) : Prop :=
  ∀ id, ∀ child ∈ t.children id, child < id

/-- A node and everything below it, parents first and children in order; a foreign index has nothing. -/
def descendants (t : Table) (id : Nat) : List Nat :=
  if id < t.size then
    id :: (t.children id).flatMap fun child => if child < id then t.descendants child else []
  else []
termination_by id

def content (t : Table) (id : Nat) : Content :=
  match t.get? id with
  | some node => .mk (node.kind.map fun child => if child < id then t.content child else default)
  | none => default
termination_by id

theorem content_of_get? {t : Table} (ho : t.Ordered) {id : Nat} {node : Node} (h : t.get? id = some node) :
    t.content id = .mk (node.kind.map t.content) := by
  have hc : ∀ child ∈ node.kind.children, child < id := by
    intro child hm
    exact ho id child (by simpa [children, h] using hm)
  rw [content, h]
  simp only
  congr 1
  exact Kind.map_congr fun child hm => if_pos (hc child hm)

def source (t : Table) (id : Nat) : String :=
  if id < t.size then (t.content id).text else ""

end Table

end StructuralEditor
