/-!
# Syntactic forms

* `Tag` : the forms a node can have;
* `Tag.text`, `Tag.name` : the written tag and the spoken name;
* `Tag.fieldNames`, `Tag.scalarNames` : the names of the declared parts;
* `Tag.ofText?` : the form with a written tag.
-/

namespace StructuralEditor

inductive Tag where
  | unknown
  | application
  | identifiers
  | structDefinition
  | variableDefinition
  | lambda
  | functionDefinition
  | clause
  | conditional
  | ifElse
  | literal
  | comment
  | blank
  | sequence
  | letForm
  | whenForm
  | binary
  | anyType
  | bind
  | function
  | block
  | declaration
  | assignment
  | letBinding
deriving DecidableEq, Repr

namespace Tag

def text : Tag → String
  | unknown => "unknown"
  | application => "functionApp"
  | identifiers => "identifierList"
  | structDefinition => "structDefinition"
  | variableDefinition => "variableDefinition"
  | lambda => "lambdaExpression"
  | functionDefinition => "functionDefinition"
  | clause => "condClause"
  | conditional => "condExpression"
  | ifElse => "ifExpression"
  | literal => "literal"
  | comment => "comment"
  | blank => "blank"
  | sequence => "sequence"
  | letForm => "letLikeExpr"
  | whenForm => "whenUnlessExpr"
  | binary => "binop"
  | anyType => "a-blank"
  | bind => "bind"
  | function => "func"
  | block => "sekwence"
  | declaration => "var"
  | assignment => "assign"
  | letBinding => "let"

def name : Tag → String
  | unknown => "unknown expression"
  | application => "function application"
  | identifiers => "identifier list"
  | structDefinition => "structure definition"
  | variableDefinition => "variable definition"
  | lambda => "anonymous function"
  | functionDefinition => "function definition"
  | clause => "condition"
  | conditional => "conditional expression"
  | ifElse => "if expression"
  | literal => "literal"
  | comment => "comment"
  | blank => "blank"
  | sequence => "sequence"
  | letForm => "let expression"
  | whenForm => "when expression"
  | binary => "binary operation"
  | anyType => "blank annotation"
  | bind => "binding"
  | function => "function"
  | block => "block"
  | declaration => "variable"
  | assignment => "assignment"
  | letBinding => "let binding"

def fieldNames : Tag → List String
  | unknown => ["elts"]
  | application => ["func", "args"]
  | identifiers => ["ids"]
  | structDefinition => ["name", "fields"]
  | variableDefinition => ["name", "body"]
  | lambda => ["args", "body"]
  | functionDefinition => ["name", "params", "body"]
  | clause => ["testExpr", "thenExprs"]
  | conditional => ["clauses"]
  | ifElse => ["testExpr", "thenExpr", "elseExpr"]
  | literal | comment | blank | anyType => []
  | sequence | block => ["exprs"]
  | letForm => ["bindings", "expr"]
  | whenForm => ["predicate", "exprs"]
  | binary => ["left", "right"]
  | bind => ["ann"]
  | function => ["args", "retAnn", "body"]
  | declaration | assignment | letBinding => ["id", "rhs"]

def scalarNames : Tag → List String
  | identifiers => ["of"]
  | literal | blank => ["value", "dataType"]
  | comment => ["comment"]
  | sequence | block => ["name"]
  | letForm | whenForm => ["form"]
  | binary => ["operator"]
  | bind => ["id"]
  | function => ["name", "doc"]
  | _ => []

def isLeaf : Tag → Bool
  | literal | comment | blank | anyType => true
  | _ => false

def all : List Tag :=
  [unknown, application, identifiers, structDefinition, variableDefinition, lambda, functionDefinition,
    clause, conditional, ifElse, literal, comment, blank, sequence, letForm, whenForm, binary,
    anyType, bind, function, block, declaration, assignment, letBinding]

def ofText? (text : String) : Option Tag :=
  all.find? fun tag => tag.text = text

theorem ofText?_text (tag : Tag) : ofText? tag.text = some tag := by
  cases tag <;> decide

end Tag

end StructuralEditor
