import StructuralEditor.Digest
import StructuralEditor.Table

/-!
# Classes of nodes

The digest of what a node says is made when the node is, from the digests of its children, which are older. It is by
their digests that nodes are compared, so that the classes are those of nodes that say the same, unless digests collide.

* `Classes`, `Table.classes` : the digests of the nodes of a table;
* `Classes.number` : the class of a node; `Table.number_classes_eq_iff` : which nodes have the same;
* `Table.sameContent` : whether two nodes are taken to say the same.
-/

namespace StructuralEditor

structure Classes where
  digests : Array UInt64

namespace Classes

def empty : Classes := ⟨#[]⟩

def digest (c : Classes) (id : Nat) : UInt64 := c.digests.getD id 0

/-- The class of a node, by its digest; foreign indices are in a class of their own. -/
def number (c : Classes) (id : Nat) : Nat :=
  match c.digests[id]? with
  | some digest => digest.toNat
  | none => UInt64.size

def add [Hasher] (c : Classes) (kind : Kind Nat) : Classes := ⟨c.digests.push (kind.map c.digest).digest⟩

end Classes

namespace Table

variable [Hasher]

def classes (t : Table) : Classes := t.nodes.foldl (fun c node => c.add node.kind) Classes.empty

/-- Whether two nodes are taken to say the same; two foreign indices are. -/
def sameContent (t : Table) (u v : Nat) : Bool := t.classes.number u == t.classes.number v

variable {t u : Table} {id n : Nat}

theorem digest_of_get? (ho : t.Ordered) {node : Node} (h : t.get? id = some node) :
    (t.content id).digest = (node.kind.map fun child => (t.content child).digest).digest := by
  rw [content_of_get? ho h, Content.digest, Content.fold_mk, Kind.map_map]
  rfl

/-- The first `n` nodes have the digests of what they say. -/
def Digested (t : Table) (n : Nat) (c : Classes) : Prop :=
  c.digests.size = n ∧ ∀ id, id < n → c.digests[id]? = some (t.content id).digest

theorem Digested.add (ho : t.Ordered) {c : Classes} (hc : t.Digested n c) {node : Node} (h : t.get? n = some node) :
    t.Digested (n + 1) (c.add node.kind) := by
  obtain ⟨hsize, hdigests⟩ := hc
  have hnew : (node.kind.map c.digest).digest = (t.content n).digest := by
    rw [digest_of_get? ho h]
    refine congrArg Kind.digest (Kind.map_congr fun child hchild => ?_)
    have hlt : child < n := ho n child (by simpa [children, h] using hchild)
    rw [Classes.digest, Array.getD_eq_getD_getElem?, hdigests child hlt, Option.getD_some]
  refine ⟨by simp [Classes.add, hsize], fun id hid => ?_⟩
  rw [Classes.add, Array.getElem?_push, hsize, hnew]
  split
  · next heq => rw [heq]
  · exact hdigests id (by omega)

theorem digested_classes (ho : t.Ordered) : t.Digested t.size t.classes := by
  unfold classes size
  refine Array.foldl_induction (fun n c => t.Digested n c) ⟨rfl, fun id hid => absurd hid (Nat.not_lt_zero id)⟩ ?_
  exact fun n c hc => hc.add ho (Array.getElem?_eq_getElem n.isLt)

theorem number_of_get? (ho : t.Ordered) {node : Node} (h : t.get? id = some node) :
    t.classes.number id = (t.content id).digest.toNat := by
  rw [Classes.number, (digested_classes ho).2 id (Array.getElem?_eq_some_iff.mp h).1]

theorem number_classes_eq_iff (ho : t.Ordered) (hu : u.Ordered) {a b : Node} (ha : t.get? id = some a)
    (hb : u.get? n = some b) :
    t.classes.number id = u.classes.number n ↔ (t.content id).digest = (u.content n).digest := by
  rw [number_of_get? ho ha, number_of_get? hu hb, UInt64.toNat_inj]

end Table

end StructuralEditor
