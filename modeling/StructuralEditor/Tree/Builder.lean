import StructuralEditor.Tree.Basic

/-!
# Building trees

* `Builder` : a table that grows from the leaves up;
* `Builder.add`, `Builder.addLiteral`, `Builder.attach` : a node whose children are there, and a comment on one;
* `Builder.finish` : the forest below some of the nodes;
* `MissingNode` : an index outside the table.
-/

namespace StructuralEditor

structure MissingNode where
  size : Nat
  index : Nat
deriving DecidableEq, Repr

def MissingNode.message (e : MissingNode) : String :=
  "index out of bounds: the len is " ++ toString e.size ++ " but the index is " ++ toString e.index

/-- A table that grows from the leaves up; the identities are `firstSerial` and those after it. -/
structure Builder where
  table : Table
  firstSerial : Nat

namespace Builder

/-- A builder without nodes that mints identities from `firstSerial` on. -/
def start (firstSerial : Nat) : Builder := ⟨Table.empty, firstSerial⟩

def nextIdentity (b : Builder) : Identity := ⟨b.firstSerial + b.table.size⟩

def push (b : Builder) (span : Span) (kind : Kind Nat) (options : Options) : Builder :=
  { b with table := b.table.push ⟨span, kind, options, b.nextIdentity, none⟩ }

/-- Adds a node; its first child that is not there is an error. -/
def add (b : Builder) (span : Span) (kind : Kind Nat) (options : Options) : Except MissingNode Builder :=
  match kind.children.find? fun child => b.table.size ≤ child with
  | some child => .error ⟨b.table.size, child⟩
  | none => .ok (b.push span kind options)

def addLiteral (b : Builder) (span : Span) (value type : String) : Builder :=
  b.push span (.literal value type) (Options.labelled value)

def attach (b : Builder) (id : Nat) (comment : Comment) : Builder :=
  { b with table := b.table.modify id fun node => { node with comment := some comment } }

/-- The forest below the given roots; the first root that is not there is an error. -/
def finish (b : Builder) (roots : List Nat) (depth : Nat) : Except MissingNode Tree :=
  match roots.find? fun root => b.table.size ≤ root with
  | some root => .error ⟨b.table.size, root⟩
  | none => .ok (Tree.ofTable b.table roots depth)

end Builder

end StructuralEditor
