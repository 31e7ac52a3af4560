import StructuralEditor.Table.Classes
import StructuralEditor.Tree.Basic

/-!
# Reconciliation

A tree that was read anew takes over the identities of the tree before it, where the two correspond.

* `Kind.pairs` : the children that stand at the same place in two nodes;
* `Adoption`, `Table.adoptions` : what the nodes below a pair take over, by a test that tells nodes apart;
* `Tree.reconcile` : the new tree with everything it takes over, and how much that is.
-/

namespace StructuralEditor

/-- The children that stand at the same index of the same field in two nodes. -/
def Kind.pairs {α β : Type} (k : Kind α) (l : Kind β) : List (α × β) :=
  (k.fields.zip l.fields).flatMap fun (f, g) => f.nodes.zip g.nodes

/-- What a node takes over: an identity, and the options too if the content is the same. -/
structure Adoption where
  target : Nat
  identity : Identity
  options : Option Options
deriving DecidableEq, Repr

namespace Table

/-- The adoption of everything that `n` can take over from the node `o` of the old table. -/
def adoptWhole (old : Table) (o n : Nat) : Option Adoption :=
  (old.get? o).map fun node => ⟨n, node.identity, some node.options⟩

/-- What the nodes below `n` take over from those below `o`. What the test takes to be the same corresponds node by
node; of other nodes with the same form, the identity is taken over and the children are paired; leaves and forms
that differ have nothing in common. -/
def adoptions (same : Nat → Nat → Bool) (old new : Table) (o n : Nat) : List Adoption :=
  match old.get? o, new.get? n with
  | some a, some b =>
    if same o n then
      ((old.descendants o).zip (new.descendants n)).filterMap fun (o, n) => old.adoptWhole o n
    else if a.kind.tag ≠ b.kind.tag ∨ b.kind.isLeaf then []
    else ⟨n, a.identity, none⟩ :: (a.kind.pairs b.kind).flatMap fun (o', n') =>
      if n' < n then old.adoptions same new o' n' else []
  | _, _ => []
termination_by n

def adopt (t : Table) (adoption : Adoption) : Table :=
  t.modify adoption.target fun node =>
    { node with identity := adoption.identity, options := adoption.options.getD node.options }

end Table

/-- How many nodes took over an identity, and how many kept their own. -/
structure Reconciled where
  adopted : Nat
  fresh : Nat
deriving DecidableEq, Repr

namespace Tree

variable [Hasher]

/-- What the nodes of `new` take over from those of `old`, where the roots are paired in order and nodes of one
class are taken to be the same. -/
def adoptions (old new : Tree) : List Adoption :=
  let c := old.table.classes
  let d := new.table.classes
  (old.roots.zip new.roots).flatMap fun (o, n) =>
    old.table.adoptions (fun o n => c.number o == d.number n) new.table o n

/-- The tree `new` with everything it takes over from `old`, laid out anew. -/
def reconcile (old new : Tree) : Tree × Reconciled :=
  let taken := old.adoptions new
  (annotate { new with table := taken.foldl Table.adopt new.table },
    ⟨taken.length, new.size - taken.length⟩)

end Tree

end StructuralEditor
