import StructuralEditor.Text.Blank
import StructuralEditor.Text.Words
import StructuralEditor.Tree.Basic

/-!
# Descriptions

* `Kind.Voice` : what a description may say about the children of a node;
* `Kind.spoken` : a node spelled out, from what is said about its children;
* `Tree.describe` : a node as seen from a level, spelled out down to the depth of the tree.
-/

namespace StructuralEditor

/-- What a description may say about the children of a node. -/
structure Voice (α : Type) where
  describe : α → String
  source : α → String
  label : α → String
  isLeaf : α → Bool
  count : α → Nat

namespace Kind

variable {α : Type}

/-- A node spelled out, from what is said about its children; a leaf that says no more than its label
gives nothing. -/
def spoken (voice : Voice α) : Kind α → Option String
  | unknown elements =>
    some ("an unknown expression with " ++ Text.pluralize "element" elements.length ++ " " ++
      Text.numbered (elements.map voice.describe))
  | application head arguments =>
    some (voice.label head ++ " of " ++ ", ".intercalate (arguments.map voice.describe))
  | identifiers _ names => some (Text.enumerate (names.map voice.describe))
  | structDefinition name fields =>
    some ("define " ++ voice.describe name ++ " to be a structure with " ++ voice.describe fields)
  | variableDefinition name body =>
    some ("define " ++ voice.source name ++ " to be " ++
      (if voice.isLeaf body then "" else "the result of: ") ++ voice.describe body)
  | lambda parameters body =>
    some ("an anonymous function of " ++ Text.pluralize "argument" (voice.count parameters) ++ ": " ++
      voice.describe parameters ++ ", with body: " ++ voice.describe body)
  | functionDefinition name parameters body =>
    some ("define " ++ voice.source name ++ " to be a function of " ++ voice.describe parameters ++
      ", with body: " ++ voice.describe body)
  | clause test consequents =>
    some ("condition: if " ++ voice.describe test ++ ", then, " ++
      ", ".intercalate (consequents.map voice.describe))
  | conditional clauses =>
    some ("a conditional expression with " ++ Text.pluralize "condition" clauses.length ++ ": " ++
      ", ".intercalate (clauses.map voice.describe))
  | ifElse test consequent alternative =>
    some ("an if expression: if " ++ voice.describe test ++ ", then " ++ voice.describe consequent ++
      " else " ++ voice.describe alternative)
  | literal .. | comment .. | blank .. => none
  | sequence _ expressions | block _ expressions =>
    some ("a sequence containing " ++ Text.enumerate (expressions.map voice.describe))
  | letForm form bindings _ =>
    some ("a " ++ form ++ " expression with " ++ Text.pluralize "binding" (voice.count bindings))
  | whenForm form predicate body =>
    some ("a " ++ form ++ " expression: " ++ form ++ " " ++ voice.describe predicate ++ ", " ++
      voice.describe body)
  | binary operator left right =>
    some ("a " ++ operator ++ " expression with " ++ voice.describe left ++ " and " ++ voice.describe right)
  | anyType => some "a blank expression"
  | bind name typing => some ("a bind expression with " ++ name ++ " and " ++ voice.source typing)
  | function name arguments _ _ body =>
    some ("a func expression with " ++ name ++ ", " ++ Text.pluralize "argument" arguments.length ++
      " and " ++ voice.describe body)
  | declaration target value =>
    some ("a var setting " ++ voice.source target ++ " to " ++ voice.source value)
  | assignment target value =>
    some ("an assign setting " ++ voice.source target ++ " to " ++ voice.source value)
  | letBinding target value =>
    some ("a let setting " ++ voice.source target ++ " to " ++ voice.source value)

/-- An application in full, with its arguments counted and numbered. -/
def spokenApplication (voice : Voice α) (head : α) (arguments : List α) : String :=
  let phrase := "applying the function " ++ voice.label head ++ " to " ++
    Text.pluralize "argument" arguments.length ++ " " ++ Text.numbered (arguments.map voice.describe)
  String.ofList (Text.trimEnd phrase.toList)

end Kind

namespace Tree

/-- A node as seen from a level: spelled out while it is less than the depth of the tree below that
level, and its label from there on; an application at that very level is always given in full. -/
def describe (t : Tree) (level id : Nat) : String :=
  match t.node? id with
  | none => ""
  | some node =>
    let voice : Voice Nat :=
      { describe := fun child => if child < id then t.describe level child else ""
        source := t.source
        label := t.label
        isLeaf := fun child => (t.node? child).any (·.kind.isLeaf)
        count := fun child => (t.children child).length }
    let own := (t.place id).level
    match node.kind, decide (own = level) with
    | .application head arguments, true => Kind.spokenApplication voice head arguments
    | kind, _ => if level + t.depth ≤ own then node.label else (kind.spoken voice).getD node.label
termination_by id

end Tree

end StructuralEditor
