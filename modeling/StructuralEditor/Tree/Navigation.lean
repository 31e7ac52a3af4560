import StructuralEditor.Tree.Basic

/-!
# Finding one's way in a tree

* `Tree.parent?`, `Tree.firstChild?`, `Tree.next?`, `Tree.previous?` : the neighbours of a node;
* `Tree.isAncestor`, `Tree.commonAncestor?` : who stands above whom;
* `Tree.containing?`, `Tree.exactly?`, `Tree.before?`, `Tree.atOrAfter?` and their kin : from positions
  in the text to nodes;
* `Tree.closest?` : the node nearest to a path that may lead nowhere;
* `Tree.search` : following a step until a node is found.
-/

namespace StructuralEditor.Tree

/-! ## Neighbours -/

def parent? (t : Tree) (id : Nat) : Option Nat := do
  let place ← t.place? id
  let above ← place.path.parent?
  t.byPath? above

def firstChild? (t : Tree) (id : Nat) : Option Nat := do
  let place ← t.place? id
  t.byPath? (place.path.child 0)

def next? (t : Tree) (id : Nat) : Option Nat := (t.place id).next

def previous? (t : Tree) (id : Nat) : Option Nat := (t.place id).previous

/-! ## Ancestors -/

/-- The nearest node above `id` that is at most at the given level. -/
def ancestorUpTo? (t : Tree) (level id : Nat) : Option Nat :=
  match (t.place id).parent with
  | none => none
  | some above =>
    if (t.place above).level ≤ level then some above
    else if id < above ∧ above < t.table.size then t.ancestorUpTo? level above
    else none
termination_by t.table.size - id

def isAncestor (t : Tree) (u v : Nat) : Bool :=
  u < t.table.size && v < t.table.size && t.ancestorUpTo? (t.place u).level v == some u

/-! ## From positions to nodes -/

def touches (t : Tree) (p : Position) (id : Nat) : Bool := (t.node? id).any (·.touches p)

/-- The deepest node reached from `id` by always taking the first child that the cursor touches. -/
def innermost (t : Tree) (p : Position) (id : Nat) : Nat :=
  match (t.children id).find? (t.touches p) with
  | some child => if child < id then t.innermost p child else id
  | none => id
termination_by id

def containing? (t : Tree) (p : Position) : Option Nat :=
  (t.roots.find? (t.touches p)).map (t.innermost p)

def within (t : Tree) (p q : Position) : List Nat :=
  t.nodes.filter fun id => (t.span id).within p q

/-- The roots that share a position with the stretch from `p` to `q`. -/
def rootsTouching (t : Tree) (p q : Position) : List Nat :=
  t.roots.filter fun id => (t.span id).touches p q

/-- The path of the node that both cursors are in: a single cursor at the edge of a node is in its parent. -/
def commonAncestor? (t : Tree) (p q : Position) : Option Path := do
  let m ← t.containing? p
  let n ← t.containing? q
  if p = q ∧ ((t.span m).start = p ∨ (t.span m).stop = p) then
    return t.path (← t.parent? m)
  else
    let shared := (t.path m).common (t.path n)
    if shared.isEmpty then none else some shared

/-- The first node in document order that spans exactly this stretch. -/
def exactly? (t : Tree) (p q : Position) : Option Nat :=
  t.nodes.find? fun id => t.span id = ⟨p, q⟩

/-- Of two nodes the one that starts later; of two that start together, the second. -/
def later (t : Tree) (best : Option Nat) (id : Nat) : Option Nat :=
  match best with
  | some b => if (t.span id).start < (t.span b).start then some b else some id
  | none => some id

/-- The last node of those that start latest before the cursor. -/
def before? (t : Tree) (p : Position) : Option Nat :=
  (t.nodes.filter fun id => (t.span id).start < p).foldl t.later none

/-- The first node in document order that starts at the cursor or after it. -/
def atOrAfter? (t : Tree) (p : Position) : Option Nat :=
  t.nodes.find? fun id => p ≤ (t.span id).start

def rootBefore? (t : Tree) (p : Position) : Option Nat :=
  t.roots.reverse.find? fun id => (t.span id).start < p

def rootAtOrAfter? (t : Tree) (p : Position) : Option Nat :=
  t.roots.find? fun id => p ≤ (t.span id).start

/-! ## Paths that may lead nowhere -/

/-- The number of nodes that share the parent path, given from its end: of roots for the empty path. -/
def siblings (t : Tree) (above : List Nat) : Nat :=
  match above with
  | [] => t.roots.length
  | _ =>
    match t.byPath? ⟨above.reverse⟩ with
    | some parent => (t.children parent).length
    | none => 0

/-- The nearest node to the path with the given segments, last one first: the node itself, else the
last sibling that stands before it, else the nearest node to its parent. -/
def closestUp? (t : Tree) (segments : List Nat) : Option Nat :=
  match segments with
  | [] => none
  | last :: above =>
    match t.byPath? ⟨(last :: above).reverse⟩ with
    | some id => some id
    | none =>
      if 0 < last ∧ 0 < t.siblings above then
        t.closestUp? (min (last - 1) (t.siblings above - 1) :: above)
      else t.closestUp? above
termination_by (segments.length, segments.head?.getD 0)
decreasing_by
  · simp only [List.length_cons, List.head?_cons, Option.getD_some]
    exact Prod.Lex.right _ (by omega)
  · exact Prod.Lex.left _ _ (by simp)

def closest? (t : Tree) (segments : List Nat) : Option Nat :=
  t.closestUp? segments.reverse

/-! ## Searching -/

/-- The nodes that a search tried, in order, and the one that it found. -/
structure Search where
  tried : List Nat
  found : Option Nat
deriving DecidableEq, Repr

/-- Takes at most `steps` steps, as long as `keepGoing` holds of the node at hand. -/
def follow (step : Nat → Option Nat) (keepGoing : Nat → Bool) : (steps : Nat) → Option Nat → Search
  | _, none => ⟨[], none⟩
  | 0, some _ => ⟨[], none⟩
  | steps + 1, some id =>
    if keepGoing id then
      let rest := follow step keepGoing steps (step id)
      ⟨id :: rest.tried, rest.found⟩
    else ⟨[id], some id⟩

/-- Follows `step` from a node, which counts itself if `inclusive`, to the first for which `keepGoing`
fails. A search that tries more nodes than the table has is going in circles and finds nothing. -/
def search (t : Tree) (step : Nat → Option Nat) (keepGoing : Nat → Bool) (start : Nat)
    (inclusive : Bool) : Search :=
  follow step keepGoing (t.table.size + 1) (if inclusive then some start else step start)

end StructuralEditor.Tree
