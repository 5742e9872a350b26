import Redoubt.Kernel.Task

/-!
# Loading a program image

The loader checks the whole load plan before it maps anything, then maps,
copies and finally drops the write permission page by page.  `buildImage` is
the part of `spawn_user` that works on memory; it undoes its own partial work
on every failing step.
-/

namespace Redoubt.Kernel

open Redoubt.Foundation

def kstackPages : Nat := 8
def kstackGuardPages : Nat := 1

def userStackTop : Nat := 0x7f000000
def userStackBytes : Nat := 64 * 1024
def kstackRegionBase : Nat := 0xFFFFC00000000000
def kstackSlotBytes : Nat := (kstackPages + kstackGuardPages) * 4096
def kstackSlotLimit : Nat := 4096

/-- Whether `[start, start + len)` lies wholly in user space. -/
def userRangeValid (start len : Nat) : Bool :=
  match checkedAdd start len with
  | none => false
  | some stop => start < userStackTop && stop ≤ userStackTop

/-! ## Reading the image -/

/-- `elf[off..off + len]`; an index past the end stops the kernel. -/
def slice (elf : List UInt8) (off len : Nat) : Except Panic (List UInt8) :=
  if off + len ≤ elf.length then .ok ((elf.drop off).take len)
  else .error .sliceIndex

def rd (elf : List UInt8) (off : Nat) : Except Panic Nat :=
  (slice elf off 8).map fromLeBytes

def rd16 (elf : List UInt8) (off : Nat) : Except Panic Nat :=
  (slice elf off 2).map fromLeBytes

def rd32 (elf : List UInt8) (off : Nat) : Except Panic Nat :=
  (slice elf off 4).map fromLeBytes

structure LoadSegment where
  flags : Nat
  offset : Nat
  vaddr : Nat
  filesz : Nat
  pageStart : Nat
  pageEnd : Nat
  deriving DecidableEq, Repr

/-- What the header loop has collected so far. -/
structure LoadPlan where
  segments : List LoadSegment
  entryIsExecutable : Bool
  deriving DecidableEq, Repr

def ptLoad : Nat := 1
def userLoadLimit : Nat := userStackTop - userStackBytes

def isPowerOfTwo (value : Nat) : Bool := value ≠ 0 && value &&& (value - 1) == 0

/-- The fields of one program header that the loader reads. -/
structure ProgramHeader where
  flags : Nat
  offset : Nat
  vaddr : Nat
  filesz : Nat
  memsz : Nat
  align : Nat
  deriving DecidableEq, Repr

def readProgramHeader (elf : List UInt8) (ph : Nat) : Except Panic ProgramHeader := do
  let flags ← rd32 elf (ph + 4)
  let offset ← rd elf (ph + 8)
  let vaddr ← rd elf (ph + 16)
  let filesz ← rd elf (ph + 32)
  let memsz ← rd elf (ph + 40)
  let align ← rd elf (ph + 48)
  .ok ⟨flags, offset, vaddr, filesz, memsz, align⟩

/-- The checks on one loadable header, in the source's order; `none` rejects
the image. -/
def admitSegment (elfLen entry : Nat) (plan : LoadPlan) (ph : ProgramHeader) :
    Option LoadPlan := do
  if ph.memsz = 0 then return plan
  let fileEnd ← checkedAdd ph.offset ph.filesz
  guard (fileEnd ≤ elfLen)
  guard (ph.filesz ≤ ph.memsz)
  guard (¬ (1 < ph.align ∧
    (¬ isPowerOfTwo ph.align ∨ ph.vaddr % ph.align ≠ ph.offset % ph.align)))
  let segmentEnd ← checkedAdd ph.vaddr ph.memsz
  let pageStart := pageFloor ph.vaddr
  let rounded ← checkedAdd segmentEnd (pageSize - 1)
  let pageEnd := pageFloor rounded
  guard (pageSize ≤ pageStart ∧ pageEnd ≤ userLoadLimit)
  -- never both writable and executable
  guard (ph.flags &&& 3 ≠ 3)
  let executable := plan.entryIsExecutable ||
    (ph.flags &&& 1 != 0 && ph.vaddr ≤ entry && entry < segmentEnd)
  guard (¬ plan.segments.any fun other =>
    pageStart < other.pageEnd && other.pageStart < pageEnd)
  return {
    segments := plan.segments ++
      [⟨ph.flags, ph.offset, ph.vaddr, ph.filesz, pageStart, pageEnd⟩]
    entryIsExecutable := executable }

/-- The program-header loop. -/
def planHeaders (elf : List UInt8) (entry phoff phentsize : Nat) :
    List Nat → LoadPlan → Except Panic (Option LoadPlan)
  | [], plan => .ok (some plan)
  | index :: rest, plan => do
      let ph := phoff + index * phentsize
      let kind ← rd32 elf ph
      if kind ≠ ptLoad then planHeaders elf entry phoff phentsize rest plan
      else
        let header ← readProgramHeader elf ph
        match admitSegment elf.length entry plan header with
        | none => .ok none
        | some plan => planHeaders elf entry phoff phentsize rest plan

/-- Header checks and the complete load plan: entry point and segments. -/
def planElf (elf : List UInt8) : Except Panic (Option (Nat × LoadPlan)) := do
  if elf.length < 0x40 then return none
  if elf.take 4 ≠ [0x7f, 0x45, 0x4c, 0x46] then return none
  if (elf.drop 4).take 3 ≠ [2, 1, 1] then return none
  if (← rd16 elf 0x12) ≠ 0x3e then return none
  if (← rd16 elf 0x10) ≠ 2 then return none
  let entry ← rd elf 0x18
  let phoff ← rd elf 0x20
  let phentsize ← rd16 elf 0x36
  let phnum ← rd16 elf 0x38
  if 32 < phnum ∨ phentsize < 56 then return none
  match checkedAdd phoff (phnum * phentsize) with
  | none => return none
  | some phend =>
      if elf.length < phend then return none
      let plan ← planHeaders elf entry phoff phentsize (List.range phnum) ⟨[], false⟩
      return plan.map fun plan => (entry, plan)

/-! ## Mapping the image -/

/-- Flags while the loader copies. -/
def loadFlags : Nat := flagPresent ||| flagWritable ||| flagNoExecute ||| flagUser

/-- Flags a segment's pages end up with. -/
def finalFlags (flags : Nat) : Nat :=
  (flagPresent ||| flagUser) |||
    (if flags &&& 2 ≠ 0 then flagWritable else 0) |||
    (if flags &&& 1 = 0 then flagNoExecute else 0)

/-- The pages `start, start + 4096, ..` below `stop`. -/
def pagesBetween (start stop : Nat) : List Nat :=
  (List.range ((stop - start + (pageSize - 1)) / pageSize)).map fun index =>
    start + index * pageSize

/-- Allocate, clear and map a frame for each page. -/
def mapSegmentPages (cr3 : Nat) : List Nat → Vm → Except Panic (Vm × Bool)
  | [], vm => .ok (vm, true)
  | page :: rest, vm =>
      match vm.allocFrames 1 with
      | (vm, none) => .ok (vm, false)
      | (vm, some frame) =>
          match (vm.zeroFrame frame).mapPageIn cr3 page frame loadFlags with
          | (vm, true) => mapSegmentPages cr3 rest vm
          | (vm, false) => do
              let vm ← vm.freeFrames frame 1
              .ok (vm, false)

/-- Write bytes to consecutive user addresses; stops at an unmapped one. -/
def copyBytes (cr3 : Nat) : Nat → List UInt8 → Vm → Vm × Bool
  | _, [], vm => (vm, true)
  | virt, byte :: rest, vm =>
      match translate vm.mem cr3 virt with
      | none => (vm, false)
      | some phys => copyBytes cr3 (virt + 1) rest (vm.writeByte phys byte)

/-- Remap each page to its own frame under the final flags. -/
def protectPages (cr3 flags : Nat) : List Nat → Vm → Vm × Bool
  | [], vm => (vm, true)
  | page :: rest, vm =>
      match translate vm.mem cr3 page with
      | none => (vm, false)
      | some phys =>
          match vm.mapPageIn cr3 page phys flags with
          | (vm, true) => protectPages cr3 flags rest vm
          | (vm, false) => (vm, false)

/-- Load one segment; the count is the number of pages it took. -/
def loadSegment (cr3 : Nat) (elf : List UInt8) (segment : LoadSegment) (vm : Vm) :
    Except Panic (Vm × Option Nat) := do
  let pages := pagesBetween segment.pageStart segment.pageEnd
  let (vm, mapped) ← mapSegmentPages cr3 pages vm
  if ¬ mapped then return (vm, none)
  let bytes ← slice elf segment.offset segment.filesz
  let (vm, copied) := copyBytes cr3 segment.vaddr bytes vm
  if ¬ copied then return (vm, none)
  let (vm, closed) := protectPages cr3 (finalFlags segment.flags) pages vm
  if ¬ closed then return (vm, none)
  return (vm, some pages.length)

def loadSegments (cr3 : Nat) (elf : List UInt8) :
    List LoadSegment → Nat → Vm → Except Panic (Vm × Option Nat)
  | [], loaded, vm => .ok (vm, some loaded)
  | segment :: rest, loaded, vm => do
      let (vm, pages) ← loadSegment cr3 elf segment vm
      match pages with
      | none => .ok (vm, none)
      | some pages => loadSegments cr3 elf rest (loaded + pages) vm

/-- Entry point and number of leaf pages mapped. -/
def loadElf (cr3 : Nat) (elf : List UInt8) (vm : Vm) :
    Except Panic (Vm × Option (Nat × Nat)) := do
  match ← planElf elf with
  | none => .ok (vm, none)
  | some (entry, plan) =>
      let (vm, loaded) ← loadSegments cr3 elf plan.segments 0 vm
      match loaded with
      | none => .ok (vm, none)
      | some pages =>
          if plan.entryIsExecutable then .ok (vm, some (entry, pages)) else .ok (vm, none)

/-! ## Stacks -/

/-- Kernel-stack slot: base virtual address of the stack and its frames. -/
def kstackSlot (vm : Vm) (slot : Nat) : Except Panic (Vm × Option (Nat × Nat)) :=
  if kstackSlotLimit ≤ slot then .ok (vm, none)
  else
    let stackBase := kstackRegionBase + slot * kstackSlotBytes + kstackGuardPages * pageSize
    match vm.allocFrames kstackPages with
    | (vm, none) => .ok (vm, none)
    | (vm, some frames) =>
        match vm.registerKstack stackBase frames kstackPages with
        | (vm, false) => do
            let vm ← vm.freeFrames frames kstackPages
            .ok (vm, none)
        | (vm, true) => .ok (vm, some (stackBase, frames))

/-- The slot counter only ever grows. -/
def allocKstack (vm : Vm) : Except Panic (Vm × Option (Nat × Nat)) :=
  let slot := vm.nextKstackSlot
  kstackSlot { vm with nextKstackSlot := slot + 1 } slot

def stackFlags : Nat := flagPresent ||| flagWritable ||| flagNoExecute ||| flagUser
def userStackPages : Nat := userStackBytes / 4096
def userStackBase : Nat := userStackTop - userStackBytes

/-- Clear a run of frames. -/
def zeroFrames (base count : Nat) (vm : Vm) : Vm :=
  (List.range count).foldl (fun vm index => vm.zeroFrame (base + index * pageSize)) vm

def userStackTargets (cr3 frames : Nat) : List Vm.MapTarget :=
  (List.range userStackPages).map fun page =>
    ⟨page, cr3, userStackBase + page * pageSize, frames + page * pageSize⟩

/-- Allocate, clear and map the user stack, or undo it. -/
def mapUserStack (cr3 : Nat) (vm : Vm) : Except Panic (Vm × Bool) :=
  match vm.allocFrames userStackPages with
  | (vm, none) => .ok (vm, false)
  | (vm, some frames) =>
      match Vm.mapPages stackFlags (userStackTargets cr3 frames)
          (zeroFrames frames userStackPages vm) with
      | (vm, none) => .ok (vm, true)
      | (vm, some failed) => do
          -- earlier leaves own the same range: remove them before freeing it
          let vm := Vm.unmapPages [cr3] userStackBase failed.page vm
          let vm ← vm.freeFrames frames userStackPages
          .ok (vm, false)

/-- What a successful build hands to the task table. -/
structure ProcessImage where
  cr3 : Nat
  entry : Nat
  kstackBaseVa : Nat
  kstackFramesBase : Nat
  pages : Nat
  deriving DecidableEq, Repr

/-- The memory part of `spawn_user`; `active` is the address space it runs in. -/
def buildImage (vm : Vm) (active : Nat) (elf : List UInt8) :
    Except Panic (Vm × Option ProcessImage) := do
  let (vm, space) ← vm.newAddressSpace active
  match space with
  | none => .ok (vm, none)
  | some cr3 =>
      let (vm, loaded) ← loadElf cr3 elf vm
      match loaded with
      | none =>
          let vm ← vm.destroyAddressSpace cr3
          .ok (vm, none)
      | some (entry, elfPages) =>
          let (vm, stacked) ← mapUserStack cr3 vm
          if ¬ stacked then
            let vm ← vm.destroyAddressSpace cr3
            .ok (vm, none)
          else
            let (vm, kstack) ← allocKstack vm
            match kstack with
            | none =>
                let vm ← vm.destroyAddressSpace cr3
                .ok (vm, none)
            | some (stackBase, frames) =>
                .ok (vm, some ⟨cr3, entry, stackBase, frames, elfPages + userStackPages⟩)

/-- Reclaim everything a dead task owns. -/
def reclaim (vm : Vm) (dead : PendingReap) : Except Panic Vm := do
  let vm ← vm.destroyAddressSpace dead.cr3
  (vm.unregisterKstack dead.kstackBaseVa kstackPages).freeFrames
    dead.kstackFramesBase kstackPages

end Redoubt.Kernel
