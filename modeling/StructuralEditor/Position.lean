import StructuralEditor.Text.Blank
import StructuralEditor.Text.Decimal
import StructuralEditor.Text.Quoted

/-!
# Positions and spans

* `Position` : a line and a column, both from zero, in document order;
* `Position.advance`, `Position.after` : the position reached by reading a character or a text;
* `Position.parse` : reading `line:column`, with `Position.ReadError` for what else is written;
* `Span` : the stretch of text between two positions; `Span.contains`, `Span.within`,
  `Span.touches`, `Span.union`.
-/

namespace StructuralEditor

/-- A place between two characters of a text: columns count characters, and both counts start at zero. -/
structure Position where
  line : Nat
  column : Nat
deriving DecidableEq, Inhabited, Repr

namespace Position

def zero : Position := ⟨0, 0⟩

/-- Document order: by line, then by column. -/
instance : LT Position where
  lt p q := p.line < q.line ∨ p.line = q.line ∧ p.column < q.column

/-- Document order: by line, then by column. -/
instance : LE Position where
  le p q := p.line < q.line ∨ p.line = q.line ∧ p.column ≤ q.column

theorem lt_def {p q : Position} :
    p < q ↔ p.line < q.line ∨ p.line = q.line ∧ p.column < q.column := Iff.rfl

theorem le_def {p q : Position} :
    p ≤ q ↔ p.line < q.line ∨ p.line = q.line ∧ p.column ≤ q.column := Iff.rfl

instance (p q : Position) : Decidable (p < q) := decidable_of_iff' _ lt_def

instance (p q : Position) : Decidable (p ≤ q) := decidable_of_iff' _ le_def

instance : Min Position := minOfLe

instance : Max Position := maxOfLe

instance : ToString Position where
  toString p := toString p.line ++ ":" ++ toString p.column

theorem not_lt {p q : Position} : ¬ p < q ↔ q ≤ p := by
  simp only [lt_def, le_def]; omega

theorem le_refl (p : Position) : p ≤ p :=
  Or.inr ⟨rfl, Nat.le_refl _⟩

theorem le_trans {p q r : Position} (h : p ≤ q) (h' : q ≤ r) : p ≤ r := by
  simp only [le_def] at *; omega

/-- The position after reading `c` at this one: a newline opens the next line. -/
def advance (p : Position) (c : Char) : Position :=
  if c = '\n' then ⟨p.line + 1, 0⟩ else ⟨p.line, p.column + 1⟩

def after (p : Position) (text : List Char) : Position :=
  text.foldl advance p

@[simp] theorem after_nil (p : Position) : p.after [] = p := rfl

@[simp] theorem after_cons (p : Position) (c : Char) (text : List Char) :
    p.after (c :: text) = (p.advance c).after text := rfl

theorem after_append (p : Position) (text rest : List Char) :
    p.after (text ++ rest) = (p.after text).after rest := List.foldl_append

inductive ReadError where
  | noColon (input : String)
  | badLine (input : String) (cause : Text.DecimalError)
  | badColumn (input : String) (cause : Text.DecimalError)
deriving DecidableEq, Repr

def ReadError.message : ReadError → String
  | .noColon input => "expected line:column, got " ++ Text.quoted input
  | .badLine input cause => "bad line in " ++ Text.quoted input ++ ": " ++ cause.message
  | .badColumn input cause => "bad column in " ++ Text.quoted input ++ ": " ++ cause.message

/-- Reads `line:column`; blanks around either number are ignored, and the line is checked first. -/
def parse (input : String) : Except ReadError Position :=
  match input.toList.dropWhile (· ≠ ':') with
  | [] => .error (.noColon input)
  | _ :: column =>
    match Text.readDecimal Text.limit32 (Text.trim (input.toList.takeWhile (· ≠ ':'))) with
    | .error cause => .error (.badLine input cause)
    | .ok line =>
      match Text.readDecimal Text.limit32 (Text.trim column) with
      | .error cause => .error (.badColumn input cause)
      | .ok column => .ok ⟨line, column⟩

end Position

structure Span where
  start : Position
  stop : Position
deriving DecidableEq, Inhabited, Repr

namespace Span

def between (p q : Position) : Span :=
  if q < p then ⟨q, p⟩ else ⟨p, q⟩

/-- The span of no text at `p`. -/
def empty (p : Position) : Span := ⟨p, p⟩

def isEmpty (s : Span) : Bool := s.start = s.stop

/-- Whether a cursor at `p` touches the span: either end of a span that holds text counts. -/
def contains (s : Span) (p : Position) : Bool :=
  (s.start ≤ p && p < s.stop) || (s.start < p && p ≤ s.stop)

/-- Whether the span lies between `p` and `q`, ends included. -/
def within (s : Span) (p q : Position) : Bool :=
  p ≤ s.start && s.stop ≤ q

/-- Whether the span is touched by the cursor `p` or `q`, or lies strictly between them. -/
def touches (s : Span) (p q : Position) : Bool :=
  s.contains p || s.contains q || (p < s.start && s.stop < q)

def union (s t : Span) : Span :=
  ⟨min s.start t.start, max s.stop t.stop⟩

instance : ToString Span where
  toString s := toString s.start ++ "-" ++ toString s.stop

/-- A cursor touches a span exactly when it stands between its ends and these differ. -/
theorem contains_iff {s : Span} {p : Position} :
    s.contains p = true ↔ s.start ≤ p ∧ p ≤ s.stop ∧ s.start ≠ s.stop := by
  obtain ⟨⟨a, b⟩, ⟨c, d⟩⟩ := s
  simp only [contains, Bool.or_eq_true, Bool.and_eq_true, decide_eq_true_eq, Position.le_def,
    Position.lt_def, ne_eq, Position.mk.injEq]
  omega

end Span

end StructuralEditor
