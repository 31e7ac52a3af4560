import StructuralEditor.Content

/-!
# Canonical text

* `Kind.written` : the surface text of one node, from the renderings of its children;
* `Rendering` : the ways in which the text of a node enters the text of its parent;
* `Content.text` : the canonical text of a content.
-/

namespace StructuralEditor

/-- The ways in which the text of a node enters the text of its parent. -/
structure Rendering where
  /-- The text on its own. -/
  text : String
  /-- The text as a binding of a let form, where a definition is a bracketed pair. -/
  binding : String
  /-- Whether this is the type that allows anything, which is left out after a bound name. -/
  allowsAny : Bool
  /-- The texts of a sequence's expressions; anything else is one text. -/
  expressions : List String
  /-- The texts of a sequence's expressions as bindings; anything else is one binding. -/
  bindings : List String

namespace Kind

/-- Texts in brackets, with single spaces between them. -/
def bracketed (opening closing : String) (parts : List String) : String :=
  opening ++ " ".intercalate parts ++ closing

/-- The surface text of one node, from the renderings of its children. -/
def written : Kind Rendering → String
  | unknown elements => bracketed "(" ")" (elements.map (·.text))
  | application head arguments => bracketed "(" ")" (head.text :: arguments.map (·.text))
  | identifiers _ names => " ".intercalate (names.map (·.text))
  | structDefinition name fields =>
    bracketed "(" ")" ["define-struct", name.text, bracketed "(" ")" [fields.text]]
  | variableDefinition name body => bracketed "(" ")" ["define", name.text, body.text]
  | lambda parameters body => bracketed "(" ")" ["lambda", bracketed "(" ")" [parameters.text], body.text]
  | functionDefinition name parameters body =>
    let header := if parameters.text = "" then [name.text] else [name.text, parameters.text]
    bracketed "(" ")" ["define", bracketed "(" ")" header, body.text]
  | clause test consequents => bracketed "[" "]" (test.text :: consequents.map (·.text))
  | conditional clauses => bracketed "(" ")" ("cond" :: clauses.map (·.text))
  | ifElse test consequent alternative =>
    bracketed "(" ")" ["if", test.text, consequent.text, alternative.text]
  | literal value _ | blank value _ => value
  | comment text => text
  | sequence name expressions => bracketed "(" ")" (name :: expressions.map (·.text))
  | letForm form bindings body => bracketed "(" ")" [form, bracketed "(" ")" bindings.bindings, body.text]
  | whenForm form predicate body => bracketed "(" ")" (form :: predicate.text :: body.expressions)
  | binary operator left right => " ".intercalate [left.text, operator, right.text]
  | anyType => "Any"
  | bind name typing => if typing.allowsAny then name else " ".intercalate [name, "::", typing.text]
  | function name arguments typing _ body =>
    let result := typing.elim "" fun a => " -> " ++ a.text
    "fun " ++ name ++ "(" ++ ", ".intercalate (arguments.map (·.text)) ++ ")" ++ result ++ ": " ++
      body.text ++ " end"
  | block _ expressions => " ".intercalate ("block:" :: expressions.map (·.text) ++ ["end"])
  | declaration target value => " ".intercalate ["var", target.text, "=", value.text]
  | assignment target value => " ".intercalate [target.text, ":=", value.text]
  | letBinding target value => " ".intercalate [target.text, "=", value.text]

def rendering (k : Kind Rendering) : Rendering :=
  let text := k.written
  let binding := match k with
    | variableDefinition name body => bracketed "[" "]" [name.text, body.text]
    | _ => text
  { text := text
    binding := binding
    allowsAny := match k with
      | anyType => true
      | _ => false
    expressions := match k with
      | sequence _ expressions => expressions.map (·.text)
      | _ => [text]
    bindings := match k with
      | sequence _ expressions => expressions.map (·.binding)
      | _ => [binding] }

end Kind

namespace Content

def rendering (content : Content) : Rendering :=
  content.fold Kind.rendering

/-- The canonical text of a content, whatever the layout it was read from. -/
def text (content : Content) : String :=
  content.rendering.text

end Content

end StructuralEditor
