import StructuralEditor.Scheme.CommentPlan
import StructuralEditor.Scheme.Draft
import StructuralEditor.Tree.Builder

/-!
# Programs

* `Planting` : a table that is being filled with drafts, and the comments that still wait for a node;
* `Draft.plant` : a draft planted from its leaves up;
* `parse` : the tree of a program text.
-/

namespace StructuralEditor.Scheme

/-- A table that is being filled, and the comments that still wait for a node. -/
structure Planting where
  builder : Builder
  waiting : CommentPlan

namespace Planting

/-- Adds a node, which takes the comment that waits at its start. -/
def add (span : Span) (label : String) (kind : Kind Nat) : StateM Planting Nat := fun planting =>
  let id := planting.builder.table.size
  let builder := planting.builder.push span kind (Options.labelled label)
  match planting.waiting.find? span.start with
  | some comment => (id, ⟨builder.attach id comment, planting.waiting.erase span.start⟩)
  | none => (id, ⟨builder, planting.waiting⟩)

def give (id : Nat) (planting : Planting) (entry : Position × Comment) : Planting :=
  let had := (planting.builder.table.get? id).bind (·.comment)
  ⟨planting.builder.attach id (joinComments had entry.2), planting.waiting.erase entry.1⟩

/-- Gives a root the comments that still wait at a datum inside its span. -/
def giveRest (id : Nat) (span : Span) (planting : Planting) : Planting :=
  (planting.waiting.inside span).foldl (give id) planting

end Planting

/-- Plants a draft, children before parents, and gives the index of its outermost node. -/
def Draft.plant : Draft → StateM Planting Nat
  | mk span label kind => do
    let planted ← kind.attach.traverse fun child => child.1.plant
    Planting.add span label planted
termination_by draft => sizeOf draft
decreasing_by
  have := Kind.sizeOf_lt_of_mem child.2
  simp only [Draft.mk.sizeOf_spec]
  omega

theorem Draft.plant_mk (span : Span) (label : String) (kind : Kind Draft) :
    (mk span label kind).plant = kind.traverse plant >>= Planting.add span label := by
  rw [plant, Kind.traverse_attach]

/-- Plants a top-level draft, which also takes the comments that found no node in it. -/
def Draft.plantRoot (draft : Draft) : StateM Planting Nat := do
  let root ← draft.plant
  modify (Planting.giveRest root draft.span)
  return root

/-- Plants the comments after the last datum as a root of their own. -/
def plantTrailing : Option Comment → StateM Planting (List Nat)
  | some comment => fun planting =>
    let builder := planting.builder.push comment.span (.comment comment.text) (Options.labelled comment.text)
    ([planting.builder.table.size], { planting with builder := builder })
  | none => return []

/-- The drafts of the top-level data in order; the first fault counts. -/
def draftProgram (items : List Item) : Except ParseError (List Draft) :=
  Datum.draftAll (Item.data items)

/-- The tree of planted drafts, described to the given depth, with identities from `firstSerial` on. -/
def plantProgram (depth firstSerial : Nat) (items : List Item) (drafts : List Draft) : Tree :=
  let (plan, trailing) := CommentPlan.ofItems items
  let plantAll : StateM Planting (List Nat) := do
    let roots ← drafts.mapM Draft.plantRoot
    let last ← plantTrailing trailing
    return roots ++ last
  let (roots, planting) := plantAll ⟨Builder.start firstSerial, plan⟩
  Tree.ofTable planting.builder.table roots depth

/-- The tree of a program text, described to the given depth, with identities from `firstSerial` on. -/
def parse (depth firstSerial : Nat) (text : String) : Except ParseError Tree := do
  let items ← Item.read (← Token.tokenize text)
  let drafts ← draftProgram items
  return plantProgram depth firstSerial items drafts

end StructuralEditor.Scheme
