import Redoubt.Kernel.Input
import Redoubt.Kernel.Ipc

/-!
# The remaining system calls

User-memory copies, capability derivation, spawning from user mode, block I/O
and the small observability calls.
-/

namespace Redoubt.Kernel

open Redoubt.Foundation

/-! ## User memory -/

/-- Read bytes from consecutive user addresses. -/
def readUser (mem : PhysMem) (cr3 : Nat) : Nat → Nat → Option (List UInt8)
  | _, 0 => some []
  | virt, len + 1 => do
      let phys ← translate mem cr3 virt
      let rest ← readUser mem cr3 (virt + 1) len
      return mem.readByte phys :: rest

namespace Machine

def copyFromUser (s : Machine) (src len : Nat) : Option (List UInt8) :=
  if userRangeValid src len then readUser s.vm.mem s.cr3 src len else none

/-- Write kernel bytes to user memory; a failed copy keeps the bytes written
before the unmapped address. -/
def copyToUser (s : Machine) (dst : Nat) (src : List UInt8) : Machine × Bool :=
  if userRangeValid dst src.length then
    let (vm, copied) := copyBytes s.cr3 dst src s.vm
    ({ s with vm := vm }, copied)
  else (s, false)

/-! ## Capabilities -/

/-- A capability for a child's table: same object, intersected rights. -/
def deriveForChild (s : Machine) (tid srcSlot mask : Nat) : Except Nat Cap :=
  match s.findTask tid with
  | none => .error eCapMissing
  | some task =>
      match task.caps.cap? srcSlot with
      | none => .error eCapMissing
      | some src =>
          if src.rights &&& rGrant = 0 then .error eCapDenied
          else if src.rights &&& mask = 0 then .error eCapDenied
          else .ok (src.withRights (src.rights &&& mask))

/-- The capability that a derivation request yields from the held one. -/
def deriveFrom (src : Cap) (a : Args) : Except Nat Cap :=
  if src.rights &&& rGrant = 0 then .error eCapDenied
  else if src.rights &&& a.a1 = 0 then .error eCapDenied
  else if ¬ src.isBlock ∧ (a.a2 ≠ 0 ∨ a.a3 ≠ 0) then .error eBadArg
  else
    match src with
    | .block disk lbaStart lbas rights =>
        match checkedAdd a.a2 a.a3 with
        | none => .error eBadArg
        | some reqHi =>
            let holdHi := saturatingAdd lbaStart lbas
            let lo := max a.a2 lbaStart
            let hi := min reqHi holdHi
            if hi ≤ lo then .error eCapDenied
            else .ok (.block disk lo (hi - lo) (rights &&& a.a1))
    | other => .ok (other.withRights (other.rights &&& a.a1))

/-- Table after a derivation and the slot it filled. -/
def deriveInto (caps : CapTable) (a : Args) : Except Nat (CapTable × Nat) :=
  match caps.cap? a.a0 with
  | none => .error eCapMissing
  | some src =>
      match deriveFrom src a with
      | .error code => .error code
      | .ok derived =>
          match caps.freeCapSlot with
          | none => .error eCapMissing
          | some slot => .ok (caps.set slot (some derived), slot)

def sysCapDerive (s : Machine) (tid : Nat) (a : Args) : Machine :=
  let result : Except Nat (CapTable × Nat) :=
    match s.findTask tid with
    | none => .error eCapMissing
    | some task => deriveInto task.caps a
  match result with
  | .ok (caps, slot) =>
      s.modifyTask tid fun task =>
        ({ task with caps := caps }).setFrame fun frame => { frame with rax := eOk, rdi := slot }
  | .error code =>
      s.modifyTask tid (Task.setFrame fun frame => { frame with rax := code, rdi := 0 })

/-! ## Spawning -/

def maxSpawnElf : Nat := 2 * 1024 * 1024

/-- The `(slot, mask)` pairs of a grant specification. -/
def specPairs : List UInt8 → List (Nat × Nat)
  | b0 :: b1 :: b2 :: b3 :: b4 :: b5 :: b6 :: b7 ::
    c0 :: c1 :: c2 :: c3 :: c4 :: c5 :: c6 :: c7 :: rest =>
      (fromLeBytes [b0, b1, b2, b3, b4, b5, b6, b7],
        fromLeBytes [c0, c1, c2, c3, c4, c5, c6, c7]) :: specPairs rest
  | _ => []

/-- Validate the grants in order; the first refused one ends the spawn. -/
def deriveGrants (s : Machine) (tid : Nat) : List (Nat × Nat) → Except Nat (List Cap)
  | [] => .ok []
  | (srcSlot, mask) :: rest => do
      let cap ← s.deriveForChild tid srcSlot mask
      let caps ← deriveGrants s tid rest
      return cap :: caps

/-- Argument checks and copies of a spawn request: the image and the child's
capabilities, or the code to report. -/
def spawnRequest (s : Machine) (tid : Nat) (a : Args) : Except Nat (List UInt8 × List Cap) :=
  let elfLen := a.a1
  let specWords := a.a3
  if elfLen = 0 ∨ maxSpawnElf < elfLen ∨ specWords % 2 ≠ 0 then .error eBadArg
  else if capTableSize < specWords / 2 then .error eBadArg
  else
    match s.copyFromUser a.a0 elfLen with
    | none => .error eBadArg
    | some elf =>
        if specWords = 0 then .ok (elf, [])
        else
          match s.copyFromUser a.a2 (specWords * 8) with
          | none => .error eBadArg
          | some spec => (s.deriveGrants tid (specPairs spec)).map fun caps => (elf, caps)

def sysTaskSpawn (s : Machine) (tid : Nat) (a : Args) : Except Stop Machine :=
  match s.spawnRequest tid a with
  | .error code => .ok (s.setRax tid code)
  | .ok (elf, caps) => do
      match ← s.spawnUser elf caps (some tid) with
      | (s, some child) =>
          .ok (s.modifyTask tid (Task.setFrame fun frame =>
            { frame with rax := eOk, rdi := child }))
      | (s, none) => .ok (s.setRax tid eBadArg)

/-! ## Block I/O -/

def maxBlockSectors : Nat := 8
def sectorBytes : Nat := 512

/-- Validate that a slot holds a block capability covering the relative range. -/
def checkBlockCap (s : Machine) (tid slot disk lba count need : Nat) : Nat :=
  match s.findTask tid with
  | none => eCapMissing
  | some task =>
      match task.caps[slot]? with
      | none => eCapMissing
      | some none => eCapMissing
      | some (some (.block capDisk _ lbas rights)) =>
          match checkedAdd lba count with
          | none => eBadArg
          | some stop =>
              if ¬ (capDisk = disk ∧ stop ≤ lbas) then eCapDenied
              else if rights &&& need ≠ need then eCapDenied
              else eOk
      | some (some _) => eCapDenied

def drive? (s : Machine) (disk : Nat) : Option Nat :=
  if disk = 0 then s.primaryDrive else if disk = 1 then s.secondaryDrive else none

/-- Whether the driver starts the transfer: drive present and range on it. -/
def ataAdmits (s : Machine) (disk lba count : Nat) : Bool :=
  match s.drive? disk with
  | none => false
  | some sectors =>
      match checkedAdd lba count with
      | none => false
      | some stop => count ≠ 0 && count ≤ 256 && stop ≤ sectors

/-- Disk and base sector of a block capability in a slot. -/
def capLocated (s : Machine) (tid slot : Nat) : Option (Nat × Nat) :=
  match (s.findTask tid).bind fun task => task.caps.cap? slot with
  | some (.block disk lbaStart _ _) => some (disk, lbaStart)
  | _ => none

/-- The code for a slot without a block capability. -/
def noBlockCapCode (s : Machine) (tid slot : Nat) : Nat :=
  match s.findTask tid with
  | none => eCapMissing
  | some task => if task.caps[slot]?.isNone then eCapMissing else eCapDenied

/-- A write of user bytes to the disk; `device` says whether the drive took it. -/
def blockWrite (s : Machine) (tid disk lba count buf : Nat) (device : Bool) : Machine :=
  match s.copyFromUser buf (count * sectorBytes) with
  | none => s.setRax tid eBadArg
  | some _ =>
      let s := s.emit (.ata tid true disk lba count)
      if s.ataAdmits disk lba count && device then s.setRax tid eOk else s.setRax tid eBadArg

/-- A read into user memory; `device` is the data the drive delivers, if any. -/
def blockRead (s : Machine) (tid disk lba count buf : Nat) (device : Option (Nat → UInt8)) :
    Machine :=
  let s := s.emit (.ata tid false disk lba count)
  match s.ataAdmits disk lba count, device with
  | true, some data =>
      let (s, copied) := s.copyToUser buf ((List.range (count * sectorBytes)).map data)
      if copied then s.setRax tid eOk else s.setRax tid eBadArg
  | _, _ => s.setRax tid eBadArg

/-- `device` stands for the drive: the data it delivers, or a failure. -/
def blockIo (s : Machine) (tid : Nat) (a : Args) (write : Bool)
    (device : Option (Nat → UInt8)) : Machine :=
  let slot := a.a0
  let relLba := a.a1
  let count := a.a2 % 65536
  let buf := a.a3
  if count = 0 ∨ maxBlockSectors < count then s.setRax tid eBadArg
  else
    match s.capLocated tid slot with
    | none => s.setRax tid (s.noBlockCapCode tid slot)
    | some (disk, capBase) =>
        let need := if write then rWrite else rRead
        let checked := s.checkBlockCap tid slot disk relLba count need
        if checked ≠ eOk then s.setRax tid checked
        else
          match checkedAdd capBase relLba with
          | none => s.setRax tid eBadArg
          | some lba =>
              if write then s.blockWrite tid disk lba count buf device.isSome
              else s.blockRead tid disk lba count buf device

/-! ## Observability and control -/

def sysDebugWrite (s : Machine) (tid : Nat) (a : Args) : Machine :=
  match s.copyFromUser a.a0 (min a.a1 512) with
  | some _ => s.setRax tid eOk
  | none => s.setRax tid eCapMissing

def maxName : Nat := 16

def sysSetName (s : Machine) (tid : Nat) (a : Args) : Machine :=
  match s.copyFromUser a.a0 (min a.a1 maxName) with
  | some _ => s.setRax tid eOk
  | none => s.setRax tid eBadArg

def sysStatsBytes : Nat := 48

/-- The record of `sysStats` in memory order, padding included. -/
def statsRecord (s : Machine) (tid : Nat) : List UInt8 :=
  toLeBytes 4 0x41454753 ++ toLeBytes 4 100 ++ toLeBytes 8 s.ticks ++
    toLeBytes 8 s.vm.frames.stats.1 ++ toLeBytes 8 s.vm.frames.stats.2 ++
    toLeBytes 8 ((s.findTask tid).elim 0 Task.pages) ++ toLeBytes 4 s.tasks.length ++
    toLeBytes 4 0

def sysStats (s : Machine) (tid : Nat) (a : Args) : Machine :=
  if a.a1 < sysStatsBytes then s.setRax tid eBadArg
  else
    let (s, copied) := s.copyToUser a.a0 (s.statsRecord tid)
    if copied then s.setRax tid eOk else s.setRax tid eBadArg

def sysSleep (s : Machine) (tid delta : Nat) : Except Stop Machine :=
  if delta = 0 ∨ 2 ^ 32 ≤ delta then .ok (s.setRax tid eBadArg)
  else s.block tid (.blockedSleep (saturatingAdd s.ticks delta))

end Machine

end Redoubt.Kernel
