import StructuralEditor.Content

/-!
# Digests

* `Hasher` : what takes in words and bytes, one after the other, and digests them;
* `Kind.digest` : the digest of a node, from its form, the digests of its children and its scalar texts;
* `Content.digest` : the digest of what a subtree says.
-/

namespace StructuralEditor

/-- What takes in words and bytes one after the other, and gives a digest of 64 bits of all it took in. Different inputs
may well have the same digest. -/
class Hasher where
  State : Type
  start : State
  word : State → UInt64 → State
  byte : State → UInt8 → State
  bytes : State → List UInt8 → State
  digest : State → UInt64

namespace Hasher

variable [Hasher]

/-- Takes in a text: its bytes, and one that occurs in no text to end it. -/
def text (s : State) (text : String) : State := byte (bytes s (text.toList.flatMap String.utf8EncodeChar)) 0xff

/-- Takes in a field: whether its child is there and the digest of it, or the number of its children and their
digests. -/
def field (s : State) : Field UInt64 → State
  | .one none => word s 0
  | .one (some child) => word (word s 1) child
  | .many children => children.foldl word (word s (UInt64.ofNat children.length))

end Hasher

def Kind.digest [Hasher] (k : Kind UInt64) : UInt64 :=
  let form := Hasher.text Hasher.start k.tag.text
  Hasher.digest (k.scalars.foldl Hasher.text (k.fields.foldl Hasher.field form))

def Content.digest [Hasher] : Content → UInt64 := Content.fold Kind.digest

end StructuralEditor
