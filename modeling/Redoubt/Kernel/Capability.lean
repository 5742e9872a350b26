import Redoubt.Foundation.MachineWord

/-!
# Capability objects

A capability is a kernel object together with a rights mask.  User code only
ever names slots of its own table.
-/

namespace Redoubt.Kernel

open Redoubt.Foundation

def capTableSize : Nat := 32

def rRead : Nat := 1
def rWrite : Nat := 2
/-- May delegate this capability, fully or attenuated, to others. -/
def rGrant : Nat := 4

inductive Cap where
  | endpoint (endpoint rights : Nat)
  | memory (basePaddr pages rights : Nat)
  | block (disk lbaStart lbas rights : Nat)
  deriving DecidableEq, Repr

namespace Cap

def rights : Cap → Nat
  | .endpoint _ rights => rights
  | .memory _ _ rights => rights
  | .block _ _ _ rights => rights

def isBlock : Cap → Bool
  | .block .. => true
  | _ => false

/-- The same kernel object under another rights mask. -/
def withRights : Cap → Nat → Cap
  | .endpoint object _, rights => .endpoint object rights
  | .memory basePaddr pages _, rights => .memory basePaddr pages rights
  | .block disk lbaStart lbas _, rights => .block disk lbaStart lbas rights

end Cap

/-- A task's capability table: a fixed number of slots, some of them empty. -/
abbrev CapTable := List (Option Cap)

namespace CapTable

/-- The capability in a slot; out of range and empty look the same here. -/
def cap? (caps : CapTable) (slot : Nat) : Option Cap :=
  (caps[slot]?).join

/-- First empty slot. -/
def freeCapSlot (caps : CapTable) : Option Nat :=
  caps.findIdx? Option.isNone

/-- The table of a fresh task: the granted capabilities in order from slot 0. -/
def install (granted : List Cap) : CapTable :=
  (granted.take capTableSize).map some ++
    List.replicate (capTableSize - granted.length) none

end CapTable

end Redoubt.Kernel
