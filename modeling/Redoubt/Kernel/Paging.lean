import Redoubt.Kernel.FrameAllocator

/-!
# Physical memory and four-level page tables

Physical memory is one store of 64-bit words, addressed by frame and by word
index inside the frame.  Page tables, user pages and kernel data share it, so a
byte written through a wrong translation can change a page table.  The frame
allocator, the list of live address spaces and the registered kernel stacks
complete the memory side of the kernel.
-/

namespace Redoubt.Kernel

open Redoubt.Foundation

/-! ## Physical memory -/

/-- Words of physical memory by frame address and word index. -/
abbrev PhysMem := Nat → Nat → Nat

namespace PhysMem

def setWord (mem : PhysMem) (frame index word : Nat) : PhysMem :=
  fun other slot =>
    if other = frame then if slot = index then word else mem other slot
    else mem other slot

/-- Fill one frame with zero bytes. -/
def zeroFrame (mem : PhysMem) (frame : Nat) : PhysMem :=
  fun other slot => if other = frame then 0 else mem other slot

/-- Byte `position` of a word, least significant first. -/
def wordByte (word position : Nat) : UInt8 :=
  UInt8.ofNat (word >>> (8 * position))

/-- Replace byte `position` of a word. -/
def setWordByte (word position : Nat) (byte : UInt8) : Nat :=
  word &&& (wordLimit - 1 ^^^ 0xff <<< (8 * position)) ||| byte.toNat <<< (8 * position)

def readByte (mem : PhysMem) (address : Nat) : UInt8 :=
  wordByte (mem (pageFloor address) (address % pageSize / 8)) (address % 8)

def writeByte (mem : PhysMem) (address : Nat) (byte : UInt8) : PhysMem :=
  mem.setWord (pageFloor address) (address % pageSize / 8)
    (setWordByte (mem (pageFloor address) (address % pageSize / 8)) (address % 8) byte)

end PhysMem

/-! ## Page-table entries -/

def flagPresent : Nat := 1
def flagWritable : Nat := 2
def flagUser : Nat := 4
def flagHuge : Nat := 1 <<< 7
def flagNoExecute : Nat := 1 <<< 63

def entryAddrMask : Nat := 0x000ffffffffff000

/-- Physical address stored in an entry. -/
def entryAddr (entry : Nat) : Nat := entry &&& entryAddrMask

/-- An entry for a page-aligned address. -/
def makeEntry (address flags : Nat) : Nat := address ||| flags

/-- Flags of the intermediate tables. -/
def tableFlags : Nat := flagPresent ||| flagWritable ||| flagUser

def kstackFlags : Nat := flagPresent ||| flagWritable ||| flagNoExecute

def p4Index (virt : Nat) : Nat := virt / 2 ^ 39 % 512
def p3Index (virt : Nat) : Nat := virt / 2 ^ 30 % 512
def p2Index (virt : Nat) : Nat := virt / 2 ^ 21 % 512
def p1Index (virt : Nat) : Nat := virt / 2 ^ 12 % 512

/-- The leaf entry for `virt`, when every level above it is in use. -/
def leafPte (mem : PhysMem) (pml4 virt : Nat) : Option Nat :=
  let e4 := mem pml4 (p4Index virt)
  if e4 = 0 then none else
  let e3 := mem (entryAddr e4) (p3Index virt)
  if e3 = 0 then none else
  let e2 := mem (entryAddr e3) (p2Index virt)
  if e2 = 0 then none else
  let e1 := mem (entryAddr e2) (p1Index virt)
  if e1 = 0 then none else some e1

def translate (mem : PhysMem) (pml4 virt : Nat) : Option Nat :=
  (leafPte mem pml4 virt).map fun e1 => entryAddr e1 + virt % pageSize

/-! ## The memory side of the kernel -/

structure Vm where
  mem : PhysMem
  frames : FrameAllocator
  /-- Live address spaces, the kernel's own first. -/
  addressSpaces : List Nat
  /-- Kernel stacks: base virtual address, base frame, page count. -/
  kstacks : List (Nat × Nat × Nat)
  nextKstackSlot : Nat

namespace Vm

def allocFrames (vm : Vm) (count : Nat) : Vm × Option Nat :=
  let (fa, base) := vm.frames.allocFrames count
  ({ vm with frames := fa }, base)

def freeFrames (vm : Vm) (base count : Nat) : Except Panic Vm :=
  (vm.frames.freeFrames base count).map fun fa => { vm with frames := fa }

def setEntry (vm : Vm) (table index entry : Nat) : Vm :=
  { vm with mem := vm.mem.setWord table index entry }

def zeroFrame (vm : Vm) (frame : Nat) : Vm :=
  { vm with mem := vm.mem.zeroFrame frame }

def writeByte (vm : Vm) (address : Nat) (byte : UInt8) : Vm :=
  { vm with mem := vm.mem.writeByte address byte }

/-- The table behind an entry, allocated and cleared when the entry is unused. -/
def nextTableMut (vm : Vm) (table index : Nat) : Vm × Option Nat :=
  if vm.mem table index = 0 then
    match vm.allocFrames 1 with
    | (vm, none) => (vm, none)
    | (vm, some frame) =>
        ((vm.zeroFrame frame).setEntry table index (makeEntry frame tableFlags),
          some (entryAddr (makeEntry frame tableFlags)))
  else (vm, some (entryAddr (vm.mem table index)))

def mapPageIn (vm : Vm) (pml4 virt phys flags : Nat) : Vm × Bool :=
  match vm.nextTableMut pml4 (p4Index virt) with
  | (vm, none) => (vm, false)
  | (vm, some l3) =>
      match vm.nextTableMut l3 (p3Index virt) with
      | (vm, none) => (vm, false)
      | (vm, some l2) =>
          match vm.nextTableMut l2 (p2Index virt) with
          | (vm, none) => (vm, false)
          | (vm, some l1) =>
              (vm.setEntry l1 (p1Index virt) (makeEntry (pageFloor phys) flags), true)

/-- Clear the leaf for `virt`; page-table frames stay. -/
def unmapPageIn (vm : Vm) (pml4 virt : Nat) : Vm :=
  let e4 := vm.mem pml4 (p4Index virt)
  if e4 = 0 then vm else
  let e3 := vm.mem (entryAddr e4) (p3Index virt)
  if e3 = 0 then vm else
  let e2 := vm.mem (entryAddr e3) (p2Index virt)
  if e2 = 0 then vm else
  vm.setEntry (entryAddr e2) (p1Index virt) 0

/-- One round of a mapping loop: the loop counter, the space and the two
addresses. -/
structure MapTarget where
  page : Nat
  pml4 : Nat
  virt : Nat
  phys : Nat
  deriving DecidableEq, Repr

/-- Map the targets in order; the second component is the one that failed. -/
def mapPages (flags : Nat) : List MapTarget → Vm → Vm × Option MapTarget
  | [], vm => (vm, none)
  | target :: rest, vm =>
      match vm.mapPageIn target.pml4 target.virt target.phys flags with
      | (vm, true) => mapPages flags rest vm
      | (vm, false) => (vm, some target)

/-- Unmap the first `pages` pages from `base` on in each listed space. -/
def unmapPages (spaces : List Nat) (base pages : Nat) (vm : Vm) : Vm :=
  (List.range pages).foldl
    (fun vm page => spaces.foldl
      (fun vm pml4 => vm.unmapPageIn pml4 (base + page * pageSize)) vm) vm

def registerAddressSpace (vm : Vm) (pml4 : Nat) : Vm :=
  if pml4 ∈ vm.addressSpaces then vm
  else { vm with addressSpaces := vm.addressSpaces ++ [pml4] }

/-- The rounds that put one kernel stack into the listed spaces. -/
def kstackTargets (spaces : List Nat) (stackBase framesBase pages : Nat) : List MapTarget :=
  (List.range pages).flatMap fun page =>
    spaces.map fun pml4 =>
      ⟨page, pml4, stackBase + page * pageSize, framesBase + page * pageSize⟩

/-- Map a kernel stack into every live space and record it; a failed mapping
undoes the leaves installed so far. -/
def registerKstack (vm : Vm) (stackBase framesBase pages : Nat) : Vm × Bool :=
  match mapPages kstackFlags (kstackTargets vm.addressSpaces stackBase framesBase pages) vm with
  | (vm, some failed) => (unmapPages vm.addressSpaces stackBase (failed.page + 1) vm, false)
  | (vm, none) =>
      ({ vm with kstacks := vm.kstacks ++ [(stackBase, framesBase, pages)] }, true)

def unregisterKstack (vm : Vm) (stackBase pages : Nat) : Vm :=
  let vm := unmapPages vm.addressSpaces stackBase pages vm
  { vm with kstacks := vm.kstacks.filter fun kstack => kstack.1 ≠ stackBase }

/-- Free everything below one private table and clear its entries.  `level`
counts table levels below the PML4; `guard` is the source's own recursion
bound. -/
def walk : Nat → Nat → Nat → Vm → Except Panic Vm
  | 0, _, _, vm => .ok vm
  | guard + 1, level, table, vm =>
      (List.range 512).foldlM
        (fun (vm : Vm) index =>
          let entry := vm.mem table index
          if entry = 0 then .ok vm
          else do
            let vm ←
              if entry &&& flagHuge ≠ flagHuge ∧ 1 < level then
                walk guard (level - 1) (entryAddr entry) vm
              else .ok vm
            let vm ← vm.freeFrames (entryAddr entry) 1
            .ok (vm.setEntry table index 0)) vm

/-- Free the private subtree under slot 0 and the PML4 itself. -/
def freeUserSubtree (vm : Vm) (pml4 : Nat) : Except Panic Vm := do
  let entry := vm.mem pml4 0
  let vm ←
    if entry = 0 then .ok vm
    else do
      let vm ← walk 8 3 (entryAddr entry) vm
      let vm ← vm.freeFrames (entryAddr entry) 1
      .ok (vm.setEntry pml4 0 0)
  vm.freeFrames pml4 1

def destroyAddressSpace (vm : Vm) (pml4 : Nat) : Except Panic Vm := do
  let vm ← vm.freeUserSubtree pml4
  .ok { vm with addressSpaces := vm.addressSpaces.filter (· ≠ pml4) }

/-- Replay every registered kernel stack into one space. -/
def replayKstacks (vm : Vm) (pml4 : Nat) : Vm × Bool :=
  let targets := vm.kstacks.flatMap fun kstack =>
    kstackTargets [pml4] kstack.1 kstack.2.1 kstack.2.2
  match mapPages kstackFlags targets vm with
  | (vm, some _) => (vm, false)
  | (vm, none) => (vm, true)

/-- Clear a fresh PML4 and copy slots 1 to 511 from the active one. -/
def clonePml4 (vm : Vm) (fresh active : Nat) : Vm :=
  let mem := vm.mem.zeroFrame fresh
  { vm with
    mem := fun frame index =>
      if frame = fresh then if 1 ≤ index ∧ index < 512 then mem active index else mem fresh index
      else mem frame index }

/-- A fresh address space with an empty user range. -/
def newAddressSpace (vm : Vm) (active : Nat) : Except Panic (Vm × Option Nat) :=
  match vm.allocFrames 1 with
  | (vm, none) => .ok (vm, none)
  | (vm, some fresh) =>
      match (vm.clonePml4 fresh active).replayKstacks fresh with
      | (vm, false) => do
          let vm ← vm.freeUserSubtree fresh
          .ok (vm, none)
      | (vm, true) => .ok (vm.registerAddressSpace fresh, some fresh)

end Vm

end Redoubt.Kernel
