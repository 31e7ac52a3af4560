import StructuralEditor.Content
import StructuralEditor.Scheme.Atom
import StructuralEditor.Scheme.Datum
import StructuralEditor.Text.Words

/-!
# Drafts

* `Draft` : a labelled subtree with its spans, before its nodes have places in a table;
* `Draft.content` : what a draft says;
* `Datum.draft` : the draft of an expression, which checks the shape of every special form in it.
-/

namespace StructuralEditor.Scheme

inductive Draft where
  | mk (span : Span) (label : String) (kind : Kind Draft)

namespace Draft

def span : Draft → Span
  | mk span _ _ => span

def label : Draft → String
  | mk _ label _ => label

def kind : Draft → Kind Draft
  | mk _ _ kind => kind

def content : Draft → Content
  | mk _ _ kind => .mk (kind.attach.map fun child => content child.1)
termination_by draft => sizeOf draft
decreasing_by
  have := Kind.sizeOf_lt_of_mem child.2
  simp only [Draft.mk.sizeOf_spec]
  omega

@[simp] theorem content_mk (span : Span) (label : String) (kind : Kind Draft) :
    (mk span label kind).content = .mk (kind.map content) := by
  rw [content, Kind.map_attach]

/-- The draft of an atom; three points stand for a blank to be filled in. -/
def ofAtom (text : String) (span : Span) : Draft :=
  if text = "..." then mk span "blank" (.blank text "blank")
  else mk span text (.literal text (atomType text))

def ofNames (role : String) (span : Span) (names : List (String × Span)) : Draft :=
  let label :=
    if names.isEmpty then "no " ++ role else role ++ ": " ++ ", ".intercalate (names.map (·.1))
  mk span label (.identifiers role (names.map fun (name, span) => ofAtom name span))

end Draft

/-- The fault of an expression that does not have the shape its form demands. -/
def malformed {α : Type} (form : Form) (span : Span) : Except ParseError α :=
  .error (ParseError.foundAt span.start (.malformed form))

namespace Datum

def form? : Datum → Option Form
  | atom text _ => Form.ofHead? text
  | _ => none

/-- The atoms in a list of names; anything else in it is a fault of the form around it. -/
def names (form : Form) (data : List Datum) : Except ParseError (List (String × Span)) :=
  data.mapM fun
    | atom text span => .ok (text, span)
    | datum => malformed form datum.span

def spanOfAll (first : Datum) (rest : List Datum) : Span :=
  first.span.union ((first :: rest).getLast (by simp)).span

/-- The span of the parameters after the name of a function: empty behind the name if there are none. -/
def parametersSpan (nameSpan : Span) : List Datum → Span
  | [] => Span.empty nameSpan.stop
  | first :: rest => spanOfAll first rest

def applicationLabel : Datum → String
  | atom text _ => text ++ " expression"
  | _ => "expression"

mutual

def draft : Datum → Except ParseError Draft
  | atom text span => .ok (Draft.ofAtom text span)
  | string text span => .ok (.mk span text (.literal text "string"))
  | list [] span => .ok (.mk span "empty list" (.unknown []))
  | list (head :: rest) span =>
    match form? head with
    | none => do
      let function ← draft head
      let arguments ← draftAll rest
      return .mk span (applicationLabel head) (.application function arguments)
    | some .define =>
      match rest with
      | [atom name nameSpan, body] => do
        let body ← draft body
        return .mk span ("define " ++ name) (.variableDefinition (Draft.ofAtom name nameSpan) body)
      | [list (atom name nameSpan :: parameters) _, body] => do
        let parameterNames ← names .define parameters
        let body ← draft body
        return .mk span ("define " ++ name) (.functionDefinition (Draft.ofAtom name nameSpan)
          (Draft.ofNames "parameters" (parametersSpan nameSpan parameters) parameterNames) body)
      | _ => malformed .define span
    | some .defineStruct =>
      match rest with
      | [atom name nameSpan, list fields fieldsSpan] => do
        let fieldNames ← names .defineStruct fields
        return .mk span ("define-struct " ++ name)
          (.structDefinition (Draft.ofAtom name nameSpan) (Draft.ofNames "fields" fieldsSpan fieldNames))
      | _ => malformed .defineStruct span
    | some .lambda =>
      match rest with
      | [list parameters parametersSpan, body] => do
        let parameterNames ← names .lambda parameters
        let body ← draft body
        return .mk span "lambda expression"
          (.lambda (Draft.ofNames "parameters" parametersSpan parameterNames) body)
      | _ => malformed .lambda span
    | some .ifElse =>
      match rest with
      | [test, consequent, alternative] => do
        let test ← draft test
        let consequent ← draft consequent
        let alternative ← draft alternative
        return .mk span "if expression" (.ifElse test consequent alternative)
      | _ => malformed .ifElse span
    | some .cond =>
      match rest with
      | [] => malformed .cond span
      | _ => do
        let clauses ← draftClauses rest
        return .mk span ("cond expression with " ++ Text.pluralize "condition" clauses.length)
          (.conditional clauses)
    | some .begin =>
      match rest with
      | [] => malformed .begin span
      | _ => do
        let expressions ← draftAll rest
        return .mk span "begin expression" (.sequence "begin" expressions)
    | some (.guarded variety) =>
      match rest with
      | predicate :: first :: others => do
        let predicate ← draft predicate
        let expressions ← draftAll (first :: others)
        return .mk span (variety.word ++ " expression") (.whenForm variety.word predicate
          (.mk (spanOfAll first others) (Text.pluralize "expression" expressions.length)
            (.sequence "begin" expressions)))
      | _ => malformed (.guarded variety) span
    | some (.letForm variety) =>
      match rest with
      | [list bindings bindingsSpan, body] => do
        let definitions ← draftBindings variety bindings
        let body ← draft body
        return .mk span (variety.word ++ " expression") (.letForm variety.word
          (.mk bindingsSpan (Text.pluralize "binding" definitions.length)
            (.sequence "bindings" definitions)) body)
      | _ => malformed (.letForm variety) span

def draftAll : List Datum → Except ParseError (List Draft)
  | [] => .ok []
  | datum :: rest => do
    let first ← draft datum
    let others ← draftAll rest
    return first :: others

/-- The drafts of the clauses of a conditional, each a test and at least one consequent. -/
def draftClauses : List Datum → Except ParseError (List Draft)
  | [] => .ok []
  | list (test :: consequent :: others) span :: rest => do
    let test ← draft test
    let consequents ← draftAll (consequent :: others)
    let clauses ← draftClauses rest
    return .mk span "condition" (.clause test consequents) :: clauses
  | datum :: _ => malformed .cond datum.span

/-- The drafts of the bindings of a let form, each a name and a value. -/
def draftBindings (variety : LetVariety) : List Datum → Except ParseError (List Draft)
  | [] => .ok []
  | list [atom name nameSpan, value] span :: rest => do
    let value ← draft value
    let definitions ← draftBindings variety rest
    return .mk span ("bind " ++ name) (.variableDefinition (Draft.ofAtom name nameSpan) value) :: definitions
  | datum :: _ => malformed (.letForm variety) datum.span

end

theorem draft_atom (text : String) (span : Span) : (atom text span).draft = .ok (Draft.ofAtom text span) := by
  unfold draft
  rfl

theorem draft_string (text : String) (span : Span) :
    (string text span).draft = .ok (.mk span text (.literal text "string")) := by
  unfold draft
  rfl

theorem draft_emptyList (span : Span) : (list [] span).draft = .ok (.mk span "empty list" (.unknown [])) := by
  unfold draft
  rfl

end Datum

end StructuralEditor.Scheme
