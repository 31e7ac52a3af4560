import StructuralEditor.Digest

/-!
# The hasher in use

A fast hash without a seed, which is not made to withstand collisions.

* `Fx.mixBytes` : bytes as one word;
* `Hasher.fx` : words are added to the state and multiplied into it.
-/

namespace StructuralEditor

namespace Fx

/-- The word that bytes spell, the last byte first. -/
def word64 (bytes : List UInt8) : UInt64 := bytes.foldr (fun byte word => word <<< 8 ||| byte.toUInt64) 0

/-- The two halves of the product of two words, one laid over the other. -/
def multiplyMix (x y : UInt64) : UInt64 :=
  let product := x.toNat * y.toNat
  UInt64.ofNat (product % UInt64.size) ^^^ UInt64.ofNat (product / UInt64.size)

/-- Works through blocks of sixteen bytes, with two words for a state. -/
def mixBlocks : Nat → List UInt8 → UInt64 × UInt64 → UInt64 × UInt64
  | 0, _, state => state
  | blocks + 1, bytes, (s, t) =>
    let x := s ^^^ word64 (bytes.take 8)
    let y := 0xa4093822299f31d0 ^^^ word64 ((bytes.drop 8).take 8)
    mixBlocks blocks (bytes.drop 16) (t, multiplyMix x y)

/-- The two words that stand for bytes before they are multiplied: short ones overlap, and of long ones the last sixteen
are laid over the state after the blocks before them. -/
def spread (bytes : List UInt8) : UInt64 × UInt64 :=
  let length := bytes.length
  let laid (state : UInt64 × UInt64) (x y : UInt64) := (state.1 ^^^ x, state.2 ^^^ y)
  let seed : UInt64 × UInt64 := (0x243f6a8885a308d3, 0x13198a2e03707344)
  if 16 < length then
    let last := bytes.drop (length - 16)
    laid (mixBlocks ((length - 1) / 16) bytes seed) (word64 (last.take 8)) (word64 (last.drop 8))
  else if 8 ≤ length then laid seed (word64 (bytes.take 8)) (word64 (bytes.drop (length - 8)))
  else if 4 ≤ length then laid seed (word64 (bytes.take 4)) (word64 (bytes.drop (length - 4)))
  else if 0 < length then
    laid seed (bytes.getD 0 0).toUInt64
      ((bytes.getD (length - 1) 0).toUInt64 <<< 8 ||| (bytes.getD (length / 2) 0).toUInt64)
  else seed

def mixBytes (bytes : List UInt8) : UInt64 :=
  multiplyMix (spread bytes).1 (spread bytes).2 ^^^ UInt64.ofNat bytes.length

def add (state word : UInt64) : UInt64 := (state + word) * 0xf1357aea2e62a9c5

end Fx

/-- The hasher in use. -/
instance Hasher.fx : Hasher where
  State := UInt64
  start := 0
  word := Fx.add
  byte s byte := Fx.add s byte.toUInt64
  bytes s bytes := Fx.add s (Fx.mixBytes bytes)
  digest s := s <<< 26 ||| s >>> 38

end StructuralEditor
