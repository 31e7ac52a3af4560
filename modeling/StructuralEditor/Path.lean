import StructuralEditor.Text.Blank
import StructuralEditor.Text.Decimal
import StructuralEditor.Text.Quoted

/-!
# Paths

* `Path` : the sibling indices from a root down to a node, written `0,2,1`;
* `Path.child`, `Path.parent?`, `Path.common`, `Path.leads` : moving and comparing;
* `Path.parse` : reading a written path, with `Path.ReadError` for what else is written.
-/

namespace StructuralEditor

/-- The sibling indices from a root down to a node; the empty path names no node. -/
structure Path where
  segments : List Nat
deriving DecidableEq, Hashable, Inhabited, Repr

namespace Path

/-- The path that names no node. -/
def empty : Path := ⟨[]⟩

def root (index : Nat) : Path := ⟨[index]⟩

def length (p : Path) : Nat := p.segments.length

def isEmpty (p : Path) : Bool := p.segments.isEmpty

def child (p : Path) (index : Nat) : Path := ⟨p.segments ++ [index]⟩

/-- The path without its last segment; a root has no parent. -/
def parent? (p : Path) : Option Path :=
  match p.segments.dropLast with
  | [] => none
  | above => some ⟨above⟩

def shared : List Nat → List Nat → List Nat
  | a :: as, b :: bs => if a = b then a :: shared as bs else []
  | _, _ => []

def common (p q : Path) : Path := ⟨shared p.segments q.segments⟩

def leads (p q : Path) : Bool := p.segments.isPrefixOf q.segments

instance : Ord Path where
  compare p q := compare p.segments q.segments

instance : ToString Path where
  toString p := ",".intercalate (p.segments.map toString)

/-- The segment of a written path that is no index, with the whole path. -/
structure ReadError where
  input : String
  segment : String
deriving DecidableEq, Repr

def ReadError.message (e : ReadError) : String :=
  "Invalid path segment " ++ Text.quoted e.segment ++ " in " ++ Text.quoted e.input

def parseSegment (input segment : List Char) : Except ReadError Nat :=
  match Text.readDecimal Text.limit32 (Text.trim segment) with
  | .ok index => .ok index
  | .error _ => .error ⟨String.ofList input, String.ofList segment⟩

/-- Reads indices divided by commas; a blank text is the empty path, and the first bad index is reported. -/
def parse (text : String) : Except ReadError Path :=
  match Text.trim text.toList with
  | [] => .ok empty
  | input => Path.mk <$> (Text.pieces ',' input).mapM (parseSegment input)

end Path

end StructuralEditor
