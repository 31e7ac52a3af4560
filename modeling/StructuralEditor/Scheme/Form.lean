/-!
# Brackets and special forms

* `Bracket` : the two shapes of brackets;
* `Form` : the special forms, each with the word that heads it.
-/

namespace StructuralEditor.Scheme

/-- The shapes of brackets, which must match pairwise. -/
inductive Bracket where
  | round
  | square
deriving DecidableEq, Repr

namespace Bracket

def opener : Bracket → Char
  | round => '('
  | square => '['

def closer : Bracket → Char
  | round => ')'
  | square => ']'

end Bracket

/-- The orders in which a let form evaluates and binds. -/
inductive LetVariety where
  | parallel
  | sequential
  | recursive
deriving DecidableEq, Repr

/-- The truth value at which a guarded body runs. -/
inductive GuardVariety where
  | whenTrue
  | unlessTrue
deriving DecidableEq, Repr

inductive Form where
  | define
  | defineStruct
  | lambda
  | ifElse
  | cond
  | letForm (variety : LetVariety)
  | guarded (variety : GuardVariety)
  | begin
deriving DecidableEq, Repr

def LetVariety.word : LetVariety → String
  | parallel => "let"
  | sequential => "let*"
  | recursive => "letrec"

def GuardVariety.word : GuardVariety → String
  | whenTrue => "when"
  | unlessTrue => "unless"

namespace Form

def word : Form → String
  | define => "define"
  | defineStruct => "define-struct"
  | lambda => "lambda"
  | ifElse => "if"
  | cond => "cond"
  | letForm variety => variety.word
  | guarded variety => variety.word
  | begin => "begin"

def all : List Form :=
  [define, defineStruct, lambda, ifElse, cond, letForm .parallel, letForm .sequential, letForm .recursive,
    guarded .whenTrue, guarded .unlessTrue, begin]

/-- The form of a list headed by this atom; an anonymous function may also be headed by the letter λ. -/
def ofHead? (head : String) : Option Form :=
  if head = "λ" then some lambda else all.find? fun form => form.word = head

end Form

end StructuralEditor.Scheme
