import StructuralEditor.Text.Decimal

/-!
# Atoms

* `isNumber` : the numerals: integers, decimal fractions with an exponent, and ratios;
* `atomType` : the type of value that an atom stands for.
-/

namespace StructuralEditor.Scheme

def isDigits (text : List Char) : Bool :=
  !text.isEmpty && text.all Char.isDigit

/-- An exponent: the letter, an optional sign and digits. -/
def isExponent : List Char → Bool
  | letter :: '+' :: digits | letter :: '-' :: digits | letter :: digits =>
    (letter == 'e' || letter == 'E') && isDigits digits
  | [] => false

/-- Digits with at most one point among them and at least one digit, and perhaps an exponent. -/
def isFraction (text : List Char) : Bool :=
  let whole := text.takeWhile Char.isDigit
  let rest := text.dropWhile Char.isDigit
  let afterPoint := match rest with
    | '.' :: digits => digits
    | _ => []
  let fraction := afterPoint.takeWhile Char.isDigit
  let tail := match rest with
    | '.' :: digits => digits.dropWhile Char.isDigit
    | _ => rest
  !(whole ++ fraction).isEmpty && (tail.isEmpty || isExponent tail)

/-- Two integers of at most 64 bits with a slash between them. -/
def isRatio (text : List Char) : Bool :=
  let numerator := text.takeWhile (· ≠ '/')
  match text.dropWhile (· ≠ '/') with
  | [] => false
  | _ :: denominator =>
    (Text.readDecimal Text.limit64 numerator).isOk && (Text.readDecimal Text.limit64 denominator).isOk

def unsigned : List Char → List Char
  | '+' :: rest | '-' :: rest => rest
  | text => text

/-- Whether a text is a numeral: after an optional sign it starts with a digit or a point. -/
def isNumber (text : List Char) : Bool :=
  match unsigned text with
  | [] => false
  | c :: rest =>
    (c.isDigit || c == '.') &&
      if (c :: rest).contains '/' then isRatio (c :: rest) else isFraction (c :: rest)

def truthValues : List String := ["#t", "#f", "#true", "#false", "true", "false"]

def atomType (text : String) : String :=
  if text ∈ truthValues then "boolean"
  else if isNumber text.toList then "number"
  else "symbol"

end StructuralEditor.Scheme
