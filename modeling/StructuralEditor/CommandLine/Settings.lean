import StructuralEditor.Text.Blank
import StructuralEditor.Text.Decimal
import StructuralEditor.Tree.Basic

/-!
# Settings files

A settings file has a setting on each line, `key = value`, with blank lines and comments after `#`.

* `Settings` : the description depth and the log file;
* `Setting.parseLine` : the setting on a line;
* `Settings.parse?` : the settings of a file, in which every key may stand once.
-/

namespace StructuralEditor.CommandLine

structure Settings where
  depth : Nat := defaultDepth
  logFile : Option String := none
deriving DecidableEq, Repr

inductive Setting where
  | depth (value : Nat)
  | logFile (name : String)
deriving DecidableEq, Repr

namespace Setting

def isSpace (c : Char) : Bool := c == ' ' || c == '\t'

def skipSpaces (text : List Char) : List Char := text.dropWhile isSpace

/-- The characters that comments and strings may hold: all but control characters other than tabs. -/
def isPrintable (c : Char) : Bool := c == '\t' || (0x20 ≤ c.toNat && c.toNat ≠ 0x7f)

/-- Whether nothing is left but blanks and a comment. -/
def isRest (text : List Char) : Bool :=
  match skipSpaces text with
  | [] => true
  | c :: comment => c == '#' && comment.all isPrintable

def isKeyCharacter (c : Char) : Bool := c.isAlphanum || c == '_' || c == '-'

def hexValue? (digits : List Char) : Option Nat :=
  digits.foldlM (fun value c =>
    if c.isDigit then some (value * 16 + (c.toNat - '0'.toNat))
    else if 'a' ≤ c ∧ c ≤ 'f' then some (value * 16 + (c.toNat - 'a'.toNat + 10))
    else if 'A' ≤ c ∧ c ≤ 'F' then some (value * 16 + (c.toNat - 'A'.toNat + 10))
    else none) 0

/-- The character with a code of the given number of hexadecimal digits at the start of a text, with the
number of characters that the digits take. -/
def codePoint? (count : Nat) (text : List Char) : Option Char :=
  match hexValue? (text.take count) with
  | some code => if count ≤ text.length ∧ code.isValidChar then some (Char.ofNat code) else none
  | none => none

/-- The character that an escape stands for, with the number of characters it takes after the backslash. -/
def escape? : List Char → Option (Char × Nat)
  | 'b' :: _ => some ('\x08', 1)
  | 't' :: _ => some ('\t', 1)
  | 'n' :: _ => some ('\n', 1)
  | 'f' :: _ => some ('\x0c', 1)
  | 'r' :: _ => some ('\r', 1)
  | '"' :: _ => some ('"', 1)
  | '\\' :: _ => some ('\\', 1)
  | 'u' :: digits => (codePoint? 4 digits).map (·, 5)
  | 'U' :: digits => (codePoint? 8 digits).map (·, 9)
  | _ => none

/-- The text up to the closing double quote, with what comes after it. -/
def basicString? (text : List Char) : Option (List Char × List Char) :=
  match text with
  | [] => none
  | '"' :: rest => some ([], rest)
  | '\\' :: rest =>
    match escape? rest with
    | some (c, count) => (basicString? (rest.drop count)).map fun (string, after) => (c :: string, after)
    | none => none
  | c :: rest =>
    if isPrintable c then (basicString? rest).map fun (string, after) => (c :: string, after) else none
termination_by text.length
decreasing_by
  · simp only [List.length_drop, List.length_cons]
    omega
  · simp

/-- The text up to the closing single quote, with what comes after it. -/
def literalString? : List Char → Option (List Char × List Char)
  | [] => none
  | '\'' :: rest => some ([], rest)
  | c :: rest =>
    if isPrintable c then (literalString? rest).map fun (string, after) => (c :: string, after) else none

def string? : List Char → Option (List Char × List Char)
  | '"' :: rest => basicString? rest
  | '\'' :: rest => literalString? rest
  | _ => none

def key? (text : List Char) : Option (List Char × List Char) :=
  string? text <|>
    if (text.takeWhile isKeyCharacter).isEmpty then none
    else some (text.takeWhile isKeyCharacter, text.dropWhile isKeyCharacter)

/-- The digits of a numeral whose underscores each stand between two digits. -/
def digits? : List Char → Option (List Char)
  | [] => none
  | [c] => if c.isDigit then some [c] else none
  | c :: '_' :: rest => if c.isDigit then (digits? rest).map (c :: ·) else none
  | c :: rest => if c.isDigit then (digits? rest).map (c :: ·) else none

/-- The value of an integer: an optional sign and digits without a leading zero. -/
def integer? (text : List Char) : Option Nat := do
  let negative := text.head? == some '-'
  let unsigned := match text with
    | '+' :: rest | '-' :: rest => rest
    | text => text
  let digits ← digits? unsigned
  if digits.head? = some '0' ∧ digits.length ≠ 1 then none
  let value ← (Text.readDecimal Text.limit32 digits).toOption
  if negative ∧ value ≠ 0 then none else some value

/-- The setting of a key from its written value, with what comes after the value. -/
def ofKey? (key : List Char) (text : List Char) : Option (Setting × List Char) :=
  if key = "description_depth".toList then
    let word := text.takeWhile fun c => !isSpace c && c ≠ '#'
    (integer? word).map fun value => (depth value, text.dropWhile fun c => !isSpace c && c ≠ '#')
  else if key = "log_file".toList then
    (string? text).map fun (name, rest) => (logFile (String.ofList name), rest)
  else none

/-- The setting on a line, if the line has one; `none` for a line that is not well formed. -/
def parseLine (line : List Char) : Option (Option Setting) :=
  if isRest line then some none
  else do
    let (key, afterKey) ← key? (skipSpaces line)
    match skipSpaces afterKey with
    | '=' :: value =>
      let (setting, rest) ← ofKey? key (skipSpaces value)
      if isRest rest then some (some setting) else none
    | _ => none

end Setting

def Setting.depth? : Setting → Option Nat
  | depth value => some value
  | logFile _ => none

def Setting.logFile? : Setting → Option String
  | depth _ => none
  | logFile name => some name

namespace Settings

def ofList? (settings : List Setting) : Option Settings :=
  let depths := settings.filterMap Setting.depth?
  let logFiles := settings.filterMap Setting.logFile?
  if depths.length ≤ 1 ∧ logFiles.length ≤ 1 then some ⟨depths.head?.getD defaultDepth, logFiles.head?⟩
  else none

def withoutReturn (line : List Char) : List Char :=
  if line.getLast? = some '\r' then line.dropLast else line

/-- The lines of a file; the last one does not end with a newline. -/
def lines (text : List Char) : List (List Char) :=
  let all := Text.pieces '\n' text
  all.dropLast.map withoutReturn ++ all.getLast?.toList

/-- The settings of a file, which may start with a byte order mark. This stands in for a general reader of such
files: it takes what the settings need of their syntax, and nothing is proved about it. -/
def parse? (text : String) : Option Settings := do
  let body := match text.toList with
    | '\ufeff' :: rest => rest
    | text => text
  let settings ← (lines body).mapM Setting.parseLine
  ofList? (settings.filterMap id)

end Settings

end StructuralEditor.CommandLine
