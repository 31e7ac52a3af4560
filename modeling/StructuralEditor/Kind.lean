import StructuralEditor.Tag

/-!
# Kinds of nodes

* `Kind α` : one node of a syntactic form, with its scalar texts and its children in `α`;
* `Field` : the contents of one declared child field; `Kind.fields`, `Kind.children`, `Kind.scalars`;
* `Kind.ofParts?` : a kind from its tag, scalars and fields, which determine it (`Kind.ext_parts`);
* `Kind.map`, `Kind.traverse` : working through the children in declared order;
* `Kind.attach` : a kind whose children are known to be its children, for recursion over nested types.
-/

namespace StructuralEditor

/-- The contents of one declared child field: a child that may be absent, or any number of children. -/
inductive Field (α : Type) where
  | one (child : Option α)
  | many (children : List α)
deriving Repr

namespace Field

variable {α β : Type}

def nodes : Field α → List α
  | one child => child.toList
  | many children => children

def map (f : α → β) : Field α → Field β
  | one child => one (child.map f)
  | many children => many (children.map f)

end Field

/-- One node of a syntactic form, with its scalar texts and its children. -/
inductive Kind (α : Type) where
  | unknown (elements : List α)
  | application (head : α) (arguments : List α)
  | identifiers (role : String) (names : List α)
  | structDefinition (name fields : α)
  | variableDefinition (name body : α)
  | lambda (parameters body : α)
  | functionDefinition (name parameters body : α)
  | clause (test : α) (consequents : List α)
  | conditional (clauses : List α)
  | ifElse (test consequent alternative : α)
  | literal (value type : String)
  | comment (text : String)
  | blank (value type : String)
  | sequence (name : String) (expressions : List α)
  | letForm (form : String) (bindings body : α)
  | whenForm (form : String) (predicate body : α)
  | binary (operator : String) (left right : α)
  | anyType
  | bind (name : String) (typing : α)
  | function (name : String) (arguments : List α) (typing : Option α) (doc : String) (body : α)
  | block (name : String) (expressions : List α)
  | declaration (target value : α)
  | assignment (target value : α)
  | letBinding (target value : α)
deriving DecidableEq, Repr

namespace Kind

variable {α β γ : Type}

def tag : Kind α → Tag
  | unknown .. => .unknown
  | application .. => .application
  | identifiers .. => .identifiers
  | structDefinition .. => .structDefinition
  | variableDefinition .. => .variableDefinition
  | lambda .. => .lambda
  | functionDefinition .. => .functionDefinition
  | clause .. => .clause
  | conditional .. => .conditional
  | ifElse .. => .ifElse
  | literal .. => .literal
  | comment .. => .comment
  | blank .. => .blank
  | sequence .. => .sequence
  | letForm .. => .letForm
  | whenForm .. => .whenForm
  | binary .. => .binary
  | anyType => .anyType
  | bind .. => .bind
  | function .. => .function
  | block .. => .block
  | declaration .. => .declaration
  | assignment .. => .assignment
  | letBinding .. => .letBinding

def fields : Kind α → List (Field α)
  | unknown elements => [.many elements]
  | application head arguments => [.one head, .many arguments]
  | identifiers _ names => [.many names]
  | structDefinition name fields => [.one name, .one fields]
  | variableDefinition name body => [.one name, .one body]
  | lambda parameters body => [.one parameters, .one body]
  | functionDefinition name parameters body => [.one name, .one parameters, .one body]
  | clause test consequents => [.one test, .many consequents]
  | conditional clauses => [.many clauses]
  | ifElse test consequent alternative => [.one test, .one consequent, .one alternative]
  | literal .. | comment .. | blank .. | anyType => []
  | sequence _ expressions | block _ expressions => [.many expressions]
  | letForm _ bindings body => [.one bindings, .one body]
  | whenForm _ predicate body => [.one predicate, .one body]
  | binary _ left right => [.one left, .one right]
  | bind _ typing => [.one typing]
  | function _ arguments typing _ body => [.many arguments, .one typing, .one body]
  | declaration target value | assignment target value | letBinding target value =>
    [.one target, .one value]

def scalars : Kind α → List String
  | identifiers role _ => [role]
  | literal value type | blank value type => [value, type]
  | comment text => [text]
  | sequence name _ | block name _ => [name]
  | letForm form _ _ | whenForm form _ _ => [form]
  | binary operator _ _ => [operator]
  | bind name _ => [name]
  | function name _ _ doc _ => [name, doc]
  | _ => []

def children (k : Kind α) : List α :=
  k.fields.flatMap Field.nodes

def isLeaf (k : Kind α) : Bool := k.tag.isLeaf

/-- The kind with this form, these scalar texts and these fields, if they fit together. -/
def ofParts? : Tag → List String → List (Field α) → Option (Kind α)
  | .unknown, [], [.many elements] => some (unknown elements)
  | .application, [], [.one (some head), .many arguments] => some (application head arguments)
  | .identifiers, [role], [.many names] => some (identifiers role names)
  | .structDefinition, [], [.one (some name), .one (some fields)] => some (structDefinition name fields)
  | .variableDefinition, [], [.one (some name), .one (some body)] => some (variableDefinition name body)
  | .lambda, [], [.one (some parameters), .one (some body)] => some (lambda parameters body)
  | .functionDefinition, [], [.one (some name), .one (some parameters), .one (some body)] =>
    some (functionDefinition name parameters body)
  | .clause, [], [.one (some test), .many consequents] => some (clause test consequents)
  | .conditional, [], [.many clauses] => some (conditional clauses)
  | .ifElse, [], [.one (some test), .one (some consequent), .one (some alternative)] =>
    some (ifElse test consequent alternative)
  | .literal, [value, type], [] => some (literal value type)
  | .comment, [text], [] => some (comment text)
  | .blank, [value, type], [] => some (blank value type)
  | .sequence, [name], [.many expressions] => some (sequence name expressions)
  | .letForm, [form], [.one (some bindings), .one (some body)] => some (letForm form bindings body)
  | .whenForm, [form], [.one (some predicate), .one (some body)] => some (whenForm form predicate body)
  | .binary, [operator], [.one (some left), .one (some right)] => some (binary operator left right)
  | .anyType, [], [] => some anyType
  | .bind, [name], [.one (some typing)] => some (bind name typing)
  | .function, [name, doc], [.many arguments, .one typing, .one (some body)] =>
    some (function name arguments typing doc body)
  | .block, [name], [.many expressions] => some (block name expressions)
  | .declaration, [], [.one (some target), .one (some value)] => some (declaration target value)
  | .assignment, [], [.one (some target), .one (some value)] => some (assignment target value)
  | .letBinding, [], [.one (some target), .one (some value)] => some (letBinding target value)
  | _, _, _ => none

@[simp] theorem ofParts?_parts (k : Kind α) : ofParts? k.tag k.scalars k.fields = some k := by
  cases k <;> rfl

theorem ext_parts {k l : Kind α} (ht : k.tag = l.tag) (hs : k.scalars = l.scalars)
    (hf : k.fields = l.fields) : k = l := by
  have h := ofParts?_parts k
  rw [ht, hs, hf, ofParts?_parts] at h
  exact (Option.some.inj h).symm

def map (f : α → β) : Kind α → Kind β
  | unknown elements => unknown (elements.map f)
  | application head arguments => application (f head) (arguments.map f)
  | identifiers role names => identifiers role (names.map f)
  | structDefinition name fields => structDefinition (f name) (f fields)
  | variableDefinition name body => variableDefinition (f name) (f body)
  | lambda parameters body => lambda (f parameters) (f body)
  | functionDefinition name parameters body => functionDefinition (f name) (f parameters) (f body)
  | clause test consequents => clause (f test) (consequents.map f)
  | conditional clauses => conditional (clauses.map f)
  | ifElse test consequent alternative => ifElse (f test) (f consequent) (f alternative)
  | literal value type => literal value type
  | comment text => comment text
  | blank value type => blank value type
  | sequence name expressions => sequence name (expressions.map f)
  | letForm form bindings body => letForm form (f bindings) (f body)
  | whenForm form predicate body => whenForm form (f predicate) (f body)
  | binary operator left right => binary operator (f left) (f right)
  | anyType => anyType
  | bind name typing => bind name (f typing)
  | function name arguments typing doc body =>
    function name (arguments.map f) (typing.map f) doc (f body)
  | block name expressions => block name (expressions.map f)
  | declaration target value => declaration (f target) (f value)
  | assignment target value => assignment (f target) (f value)
  | letBinding target value => letBinding (f target) (f value)

@[simp] theorem tag_map (f : α → β) (k : Kind α) : (k.map f).tag = k.tag := by
  cases k <;> rfl

@[simp] theorem scalars_map (f : α → β) (k : Kind α) : (k.map f).scalars = k.scalars := by
  cases k <;> rfl

theorem fields_map (f : α → β) (k : Kind α) : (k.map f).fields = k.fields.map (Field.map f) := by
  cases k <;> rfl

theorem children_map (f : α → β) (k : Kind α) : (k.map f).children = k.children.map f := by
  have h : ∀ x : Field α, (x.map f).nodes = x.nodes.map f := by
    intro x
    cases x with
    | one child => cases child <;> rfl
    | many children => rfl
  simp only [children, fields_map, List.flatMap_map, h]
  rw [List.map_flatMap]

theorem map_map (g : β → γ) (f : α → β) (k : Kind α) : (k.map f).map g = k.map (g ∘ f) := by
  cases k <;> simp [map]

/-- Works through the children with an effect, in declared order. -/
def traverse {m : Type → Type} [Monad m] (f : α → m β) : Kind α → m (Kind β)
  | unknown elements => do return unknown (← elements.mapM f)
  | application head arguments => do return application (← f head) (← arguments.mapM f)
  | identifiers role names => do return identifiers role (← names.mapM f)
  | structDefinition name fields => do return structDefinition (← f name) (← f fields)
  | variableDefinition name body => do return variableDefinition (← f name) (← f body)
  | lambda parameters body => do return lambda (← f parameters) (← f body)
  | functionDefinition name parameters body => do
    return functionDefinition (← f name) (← f parameters) (← f body)
  | clause test consequents => do return clause (← f test) (← consequents.mapM f)
  | conditional clauses => do return conditional (← clauses.mapM f)
  | ifElse test consequent alternative => do
    return ifElse (← f test) (← f consequent) (← f alternative)
  | literal value type => return literal value type
  | comment text => return comment text
  | blank value type => return blank value type
  | sequence name expressions => do return sequence name (← expressions.mapM f)
  | letForm form bindings body => do return letForm form (← f bindings) (← f body)
  | whenForm form predicate body => do return whenForm form (← f predicate) (← f body)
  | binary operator left right => do return binary operator (← f left) (← f right)
  | anyType => return anyType
  | bind name typing => do return bind name (← f typing)
  | function name arguments typing doc body => do
    return function name (← arguments.mapM f) (← typing.mapM f) doc (← f body)
  | block name expressions => do return block name (← expressions.mapM f)
  | declaration target value => do return declaration (← f target) (← f value)
  | assignment target value => do return assignment (← f target) (← f value)
  | letBinding target value => do return letBinding (← f target) (← f value)

/-! ## Children as members -/

/-- A list of members of a larger list, each with its membership. -/
def attachWithin {l : List α} (part : List α) (h : ∀ a ∈ part, a ∈ l) : List { a // a ∈ l } :=
  part.attachWith (· ∈ l) h

/-- The same kind with every child known to be one of its children. -/
def attach : (k : Kind α) → Kind { a // a ∈ k.children }
  | unknown elements => unknown (attachWithin elements (by simp [children, fields, Field.nodes]))
  | application head arguments =>
    application ⟨head, by simp [children, fields, Field.nodes]⟩
      (attachWithin arguments (by simp +contextual [children, fields, Field.nodes]))
  | identifiers role names => identifiers role (attachWithin names (by simp [children, fields, Field.nodes]))
  | structDefinition name fs =>
    structDefinition ⟨name, by simp [children, fields, Field.nodes]⟩
      ⟨fs, by simp [children, fields, Field.nodes]⟩
  | variableDefinition name body =>
    variableDefinition ⟨name, by simp [children, fields, Field.nodes]⟩
      ⟨body, by simp [children, fields, Field.nodes]⟩
  | lambda parameters body =>
    lambda ⟨parameters, by simp [children, fields, Field.nodes]⟩
      ⟨body, by simp [children, fields, Field.nodes]⟩
  | functionDefinition name parameters body =>
    functionDefinition ⟨name, by simp [children, fields, Field.nodes]⟩
      ⟨parameters, by simp [children, fields, Field.nodes]⟩
      ⟨body, by simp [children, fields, Field.nodes]⟩
  | clause test consequents =>
    clause ⟨test, by simp [children, fields, Field.nodes]⟩
      (attachWithin consequents (by simp +contextual [children, fields, Field.nodes]))
  | conditional clauses => conditional (attachWithin clauses (by simp [children, fields, Field.nodes]))
  | ifElse test consequent alternative =>
    ifElse ⟨test, by simp [children, fields, Field.nodes]⟩
      ⟨consequent, by simp [children, fields, Field.nodes]⟩
      ⟨alternative, by simp [children, fields, Field.nodes]⟩
  | literal value type => literal value type
  | comment text => comment text
  | blank value type => blank value type
  | sequence name expressions =>
    sequence name (attachWithin expressions (by simp [children, fields, Field.nodes]))
  | letForm form bindings body =>
    letForm form ⟨bindings, by simp [children, fields, Field.nodes]⟩
      ⟨body, by simp [children, fields, Field.nodes]⟩
  | whenForm form predicate body =>
    whenForm form ⟨predicate, by simp [children, fields, Field.nodes]⟩
      ⟨body, by simp [children, fields, Field.nodes]⟩
  | binary operator left right =>
    binary operator ⟨left, by simp [children, fields, Field.nodes]⟩
      ⟨right, by simp [children, fields, Field.nodes]⟩
  | anyType => anyType
  | bind name typing => bind name ⟨typing, by simp [children, fields, Field.nodes]⟩
  | function name arguments typing doc body =>
    function name (attachWithin arguments (by simp +contextual [children, fields, Field.nodes]))
      (typing.attachWith _ (by simp +contextual [children, fields, Field.nodes])) doc
      ⟨body, by simp [children, fields, Field.nodes]⟩
  | block name expressions =>
    block name (attachWithin expressions (by simp [children, fields, Field.nodes]))
  | declaration target value =>
    declaration ⟨target, by simp [children, fields, Field.nodes]⟩
      ⟨value, by simp [children, fields, Field.nodes]⟩
  | assignment target value =>
    assignment ⟨target, by simp [children, fields, Field.nodes]⟩
      ⟨value, by simp [children, fields, Field.nodes]⟩
  | letBinding target value =>
    letBinding ⟨target, by simp [children, fields, Field.nodes]⟩
      ⟨value, by simp [children, fields, Field.nodes]⟩

theorem map_attach (f : α → β) (k : Kind α) : k.attach.map (fun a => f a.1) = k.map f := by
  cases k <;> simp [attach, map, attachWithin]

theorem map_congr {f g : α → β} {k : Kind α} (h : ∀ a ∈ k.children, f a = g a) : k.map f = k.map g := by
  rw [← map_attach f, ← map_attach g]
  congr 1
  funext a
  exact h a.1 a.2

theorem traverse_attach {m : Type → Type} [Monad m] [LawfulMonad m] (f : α → m β) (k : Kind α) :
    k.attach.traverse (fun a => f a.1) = k.traverse f := by
  have ho : ∀ {p : α → Prop} (o : Option α) (h : ∀ a ∈ o, p a),
      (o.attachWith p h).mapM (fun a => f a.1) = o.mapM f := by
    intro p o h
    cases o <;> rfl
  cases k <;> simp [attach, traverse, attachWithin, ho]

theorem sizeOf_lt_of_mem [SizeOf α] {k : Kind α} {a : α} (h : a ∈ k.children) : sizeOf a < sizeOf k := by
  have hl : ∀ {l : List α}, a ∈ l → sizeOf a < sizeOf l := List.sizeOf_lt_of_mem
  have ho : ∀ {o : Option α}, a ∈ o.toList → sizeOf a < sizeOf o := by
    rintro (_ | b) hb
    · cases hb
    · cases List.mem_singleton.mp hb
      simp
  cases k <;> simp [children, fields, Field.nodes] at h ⊢ <;> grind

end Kind

end StructuralEditor
