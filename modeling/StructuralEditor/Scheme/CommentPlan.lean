import StructuralEditor.Node
import StructuralEditor.Scheme.Datum

/-!
# Where comments go

* `CommentPlan` : comments that wait for a node, by the start of the datum they belong to;
* `CommentPlan.ofItems` : the plan of a text, with the comments after its last datum.
-/

namespace StructuralEditor.Scheme

/-- Comments that wait for a node, by the start of the datum they belong to. -/
structure CommentPlan where
  entries : List (Position × Comment)

/-- One comment from the comments in a row that end with `comment`. -/
def joinComments (before : Option Comment) (comment : Comment) : Comment :=
  match before with
  | some earlier => earlier.merge comment
  | none => comment

namespace CommentPlan

/-- The plan without comments. -/
def empty : CommentPlan := ⟨[]⟩

/-- The comment planned for the datum that starts at `key`. -/
def find? (plan : CommentPlan) (key : Position) : Option Comment :=
  plan.entries.lookup key

def erase (plan : CommentPlan) (key : Position) : CommentPlan :=
  ⟨plan.entries.filter fun entry => entry.1 ≠ key⟩

/-- Plans a comment for the datum that starts at `key`, after those that are planned for it. -/
def add (plan : CommentPlan) (key : Position) (comment : Comment) : CommentPlan :=
  ⟨(key, joinComments (plan.find? key) comment) :: (plan.erase key).entries⟩

theorem find?_erase (plan : CommentPlan) (key other : Position) :
    (plan.erase key).find? other = if other = key then none else plan.find? other := by
  obtain ⟨entries⟩ := plan
  simp only [find?, erase]
  induction entries with
  | nil => simp
  | cons entry rest ih => grind

theorem find?_add (plan : CommentPlan) (key other : Position) (comment : Comment) :
    (plan.add key comment).find? other =
      if other = key then some (joinComments (plan.find? key) comment) else plan.find? other := by
  have h := find?_erase plan key other
  simp only [find?, add] at h ⊢
  grind

/-- Plans the comments in a row before a datum, if there are any. -/
def addPending (plan : CommentPlan) (key : Position) : Option Comment → CommentPlan
  | some comment => plan.add key comment
  | none => plan

/-- The state of planning within one list. -/
structure Progress where
  plan : CommentPlan
  /-- The comments since the last datum. -/
  pending : Option Comment
  /-- The start of the last datum. -/
  last : Option Position

/-- The progress after a datum that starts at `start`, which takes the comments before it. -/
def Progress.pass (progress : Progress) (start : Position) : Progress where
  plan := progress.plan.addPending start progress.pending
  pending := none
  last := some start

def Progress.note (progress : Progress) (comment : Comment) : Progress :=
  { progress with pending := some (joinComments progress.pending comment) }

mutual

/-- Plans a comment, or a datum with the comments in it. Those at the end of a list belong to its last
datum, or to the list if it has none. -/
def followItem (progress : Progress) : Item → Progress
  | .comment text span => progress.note ⟨span, text⟩
  | .list items span =>
    let passed := progress.pass span.start
    let inner := follow ⟨passed.plan, none, none⟩ items
    { passed with plan := inner.plan.addPending (inner.last.getD span.start) inner.pending }
  | .atom _ span => progress.pass span.start
  | .string _ span => progress.pass span.start

/-- Plans the comments among items and in them. A comment belongs to the next datum of its list; those
at the end of these items are left pending. -/
def follow (progress : Progress) : List Item → Progress
  | [] => progress
  | item :: rest => follow (followItem progress item) rest

end

/-- The plan of a text, with the comments after its last datum. -/
def ofItems (items : List Item) : CommentPlan × Option Comment :=
  let progress := follow ⟨empty, none, none⟩ items
  (progress.plan, progress.pending)

/-- The entries that belong to data starting in a stretch, ends included, in document order. -/
def inside (plan : CommentPlan) (span : Span) : List (Position × Comment) :=
  (plan.entries.filter fun entry => span.start ≤ entry.1 ∧ entry.1 ≤ span.stop).mergeSort
    fun a b => a.1 ≤ b.1

end CommentPlan

end StructuralEditor.Scheme
