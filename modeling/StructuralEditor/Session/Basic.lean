import StructuralEditor.Buffer.Basic
import StructuralEditor.ParseError
import StructuralEditor.Session.Focus
import StructuralEditor.Tree.Reconciliation

/-!
# Sessions

* `Parser` : from a text to its tree, with identities from a given serial on;
* `Session` : a live buffer, its published tree, the focus and the collapsed identities;
* `Session.openOn`, `Session.commit` : a session starts, and a batch of edits is published as a whole or
  not at all (`CommitError`);
* `Session.setFocus`, `Session.collapse`, `Session.expand`, `Session.toggle` : everything else.
-/

namespace StructuralEditor

/-- From the first serial that is free for identities and a text to the tree of the text. -/
abbrev Parser := Nat → String → Except ParseError Tree

inductive CommitError where
  | parse (cause : ParseError)
  | edit (cause : EditError)
deriving DecidableEq, Repr

def CommitError.message : CommitError → String
  | parse cause => "Edited text does not parse: " ++ cause.message
  | edit cause => "Edit operation failed: " ++ cause.message

/-- What a hint says about the focus in the tree to be published. -/
inductive FocusChoice where
  | node (id : Nat)
  | clear
  | fallback
deriving DecidableEq, Repr

structure Committed where
  focus : Option Identity
  changes : List Change
  reconciled : Reconciled
deriving DecidableEq, Repr

/-- A live buffer, its published tree, the focus and the collapsed identities. -/
structure Session (β : Type) where
  parser : Parser
  buffer : β
  tree : Tree
  focus : Option Identity
  collapsed : List Identity
  /-- The first serial that no identity has yet. -/
  serial : Nat

/-- The topmost node above `id` for which `hidden` holds, or else `shown`. -/
def Tree.topmostAbove (t : Tree) (hidden : Nat → Bool) (id shown : Nat) : Nat :=
  match t.parent? id with
  | none => shown
  | some above =>
    let shown := if hidden above then above else shown
    if id < above ∧ above < t.table.size then t.topmostAbove hidden above shown else shown
termination_by t.table.size - id

namespace Session

variable {β : Type} [TextBuffer β]

def text (s : Session β) : String := TextBuffer.text s.buffer

def openOn (parser : Parser) (buffer : β) : Except CommitError (Session β) :=
  match parser 0 (TextBuffer.text buffer) with
  | .ok tree => .ok ⟨parser, buffer, tree, none, [], tree.table.size⟩
  | .error e => .error (.parse e)

def focusedNode? (s : Session β) : Option Nat := s.focus.bind s.tree.byIdentity?

/-- Focuses a node, or none; the focus stays and the answer is false if the node is not in the tree. -/
def setFocus (s : Session β) : Option Nat → Session β × Bool
  | none => ({ s with focus := none }, true)
  | some id =>
    match s.tree.node? id with
    | some node => ({ s with focus := some node.identity }, true)
    | none => (s, false)

def isCollapsed (s : Session β) (identity : Identity) : Bool := s.collapsed.contains identity

def collapse (s : Session β) (identity : Identity) : Session β :=
  if s.isCollapsed identity then s else { s with collapsed := identity :: s.collapsed }

def expand (s : Session β) (identity : Identity) : Session β :=
  { s with collapsed := s.collapsed.filter (· ≠ identity) }

/-- Flips whether an identity is collapsed, and answers whether it is now. -/
def toggle (s : Session β) (identity : Identity) : Session β × Bool :=
  if s.isCollapsed identity then (s.expand identity, false) else (s.collapse identity, true)

def mint (s : Session β) : Session β × Identity :=
  ({ s with serial := s.serial + 1 }, ⟨s.serial⟩)

def hides (s : Session β) (t : Tree) (id : Nat) : Bool := (t.node? id).any fun node => s.isCollapsed node.identity

/-- The node to focus in a tree to be published: what the hint says, or else the default, in place of
which the topmost collapsed node above it is taken. -/
def chooseFocus (s : Session β) (t : Tree) (changes : List Change) (choice : FocusChoice) : Option Nat :=
  let target := match choice with
    | .node id => if (t.node? id).isSome then some id else defaultFocus changes t
    | .clear => none
    | .fallback => defaultFocus changes t
  target.map fun id => t.topmostAbove (s.hides t) id id

/-- The node to focus, with the default in numbers of 32 bits, if it comes to that. -/
def chooseFocus? (s : Session β) (t : Tree) (changes : List Change) (choice : FocusChoice) :
    Except Overflow (Option Nat) := do
  let target ← match choice with
    | .node id => if (t.node? id).isSome then .ok (some id) else defaultFocus? changes t
    | .clear => .ok none
    | .fallback => defaultFocus? changes t
  return target.map fun id => t.topmostAbove (s.hides t) id id

/-- The session with a reconciled tree and a node of it in focus. -/
def settle (s : Session β) (tree : Tree) (reconciled : Reconciled) (minted : Nat) (buffer : β) (changes : List Change)
    (target : Option Nat) : Session β × Committed :=
  let focus := target.bind fun id => (tree.node? id).map (·.identity)
  ({ s with
      buffer := buffer
      tree := tree
      focus := focus
      collapsed := s.collapsed.filter fun identity => (tree.byIdentity? identity).isSome
      serial := s.serial + minted },
    ⟨focus, changes, reconciled⟩)

/-- Publishes a parsed tree for changes that were made to the live buffer. Lines and columns are counted as they are:
this is what `publish?` does for texts of less than `2 ^ 31` characters. -/
def publish [Hasher] (s : Session β) (parsed : Tree) (buffer : β) (changes : List Change)
    (hint : Tree → FocusChoice) : Session β × Committed :=
  let (tree, reconciled) := s.tree.reconcile parsed
  s.settle tree reconciled parsed.table.size buffer changes (s.chooseFocus tree changes (hint tree))

/-- Publishes a parsed tree, with coordinates in numbers of 32 bits. -/
def publish? [Hasher] (s : Session β) (parsed : Tree) (buffer : β) (changes : List Change)
    (hint : Tree → FocusChoice) : Except Overflow (Session β × Committed) := do
  let (tree, reconciled) := s.tree.reconcile parsed
  let target ← s.chooseFocus? tree changes (hint tree)
  return s.settle tree reconciled parsed.table.size buffer changes target

/-- Tries a batch of edits on a copy of the text, and lets the live buffer take it if the edited text parses. -/
def tryEdits (s : Session β) (edits : List Edit) : β × Except CommitError (List Change × Tree) :=
  match Buffer.apply ⟨s.text⟩ edits with
  | .error e => (s.buffer, .error (.edit e))
  | .ok (scratch, _) =>
    match s.parser s.serial scratch.text with
    | .error e => (s.buffer, .error (.parse e))
    | .ok parsed =>
      match TextBuffer.apply s.buffer edits with
      | (buffer, .error e) => (buffer, .error (.edit e))
      | (buffer, .ok changes) => (buffer, .ok (changes, parsed.withDepth s.tree.depth))

/-- Publishes a batch of edits if its trial succeeds. Like `publish`, this is meant for texts of less than `2 ^ 31`
characters, and `commit?` for all others. -/
def commit [Hasher] (s : Session β) (edits : List Edit) (hint : Tree → FocusChoice) :
    Session β × Except CommitError Committed :=
  match s.tryEdits edits with
  | (buffer, .error e) => ({ s with buffer := buffer }, .error e)
  | (buffer, .ok (changes, parsed)) =>
    let (session, committed) := s.publish parsed buffer changes hint
    (session, .ok committed)

/-- Publishes a batch of edits if its trial succeeds, with coordinates in numbers of 32 bits. -/
def commit? [Hasher] (s : Session β) (edits : List Edit) (hint : Tree → FocusChoice) :
    Except Overflow (Session β × Except CommitError Committed) :=
  match s.tryEdits edits with
  | (buffer, .error e) => .ok ({ s with buffer := buffer }, .error e)
  | (buffer, .ok (changes, parsed)) => do
    let (session, committed) ← s.publish? parsed buffer changes hint
    return (session, .ok committed)

end Session

end StructuralEditor
