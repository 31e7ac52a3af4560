import StructuralEditor.ParseError

/-!
# Tokens

* `Lexeme` : brackets, strings, atoms and comments, with their texts;
* `Lexeme.read?` : the lexeme that starts at a character, with the number of characters it takes after it;
* `Token`, `Token.scan` : lexemes with their spans, and the tokens of a text.
-/

namespace StructuralEditor.Scheme

inductive Lexeme where
  | opening (bracket : Bracket)
  | closing (bracket : Bracket)
  /-- A string as it is written, quotes and escapes included. -/
  | string (text : String)
  | atom (text : String)
  /-- A comment with its semicolons, up to its last character that is not blank. -/
  | comment (text : String)
deriving DecidableEq, Repr

namespace Lexeme

def text : Lexeme → String
  | opening bracket => bracket.opener.toString
  | closing bracket => bracket.closer.toString
  | string text | atom text | comment text => text

/-- The characters that end an atom. -/
def isDelimiter (c : Char) : Bool :=
  Text.isBlank c || c == '(' || c == ')' || c == '[' || c == ']' || c == '"' || c == ';'

/-- The number of characters up to the closing quote of a string, this one included; a backslash takes
the next character along. -/
def closingQuote? : List Char → Option Nat
  | [] => none
  | '"' :: _ => some 1
  | '\\' :: _ :: rest => (closingQuote? rest).map (· + 2)
  | _ :: rest => (closingQuote? rest).map (· + 1)

/-- The lexeme that starts at `c`, which is not blank, with the number of characters it takes of `rest`;
only a string without a closing quote is none. -/
def read? (c : Char) (rest : List Char) : Option (Lexeme × Nat) :=
  if c = '(' then some (opening .round, 0)
  else if c = '[' then some (opening .square, 0)
  else if c = ')' then some (closing .round, 0)
  else if c = ']' then some (closing .square, 0)
  else if c = ';' then
    let line := rest.takeWhile (· ≠ '\n')
    some (comment (String.ofList (Text.trimEnd (c :: line))), line.length)
  else if c = '"' then
    (closingQuote? rest).map fun count => (string (String.ofList (c :: rest.take count)), count)
  else
    let word := rest.takeWhile fun c => !isDelimiter c
    some (atom (String.ofList (c :: word)), word.length)

end Lexeme

structure Token where
  lexeme : Lexeme
  span : Span
deriving DecidableEq, Repr

namespace Token

def scan (p : Position) (text : List Char) : Except ParseError (List Token) :=
  match text with
  | [] => .ok []
  | c :: rest =>
    if Text.isBlank c then scan (p.advance c) rest
    else match Lexeme.read? c rest with
      | none => .error (ParseError.foundAt p .unterminatedString)
      | some (lexeme, count) => do
        let stop := p.after (c :: rest.take count)
        let tokens ← scan stop (rest.drop count)
        return ⟨lexeme, ⟨p, stop⟩⟩ :: tokens
termination_by text.length
decreasing_by
  · simp
  · simp only [List.length_drop, List.length_cons]
    omega

def tokenize (source : String) : Except ParseError (List Token) :=
  scan Position.zero source.toList

end Token

end StructuralEditor.Scheme
