import Redoubt.Kernel.Syscall

/-!
# Traps, boot and runs

The kernel runs with interrupts off, so everything between a trap and the
return to user mode is one step.  A step is labelled with what the outside
world supplies: the register image of the trapped task, the data of a drive,
a scancode, or a store that user code performs on its own memory.
-/

namespace Redoubt.Kernel

open Redoubt.Foundation

/-- Syscall numbers. -/
inductive Syscall where
  | yield
  | exit
  | debugWrite
  | ipcCall
  | ipcRecv
  | ipcReply
  | capDerive
  | taskSpawn
  | wait
  | inputRead
  | ticks
  | setName
  | stats
  | reboot
  | sleep
  | kill
  | blockRead
  | blockWrite
  deriving DecidableEq, Repr

def Syscall.ofNum : Nat → Option Syscall
  | 1 => some .yield
  | 2 => some .exit
  | 3 => some .debugWrite
  | 4 => some .ipcCall
  | 5 => some .ipcRecv
  | 6 => some .ipcReply
  | 7 => some .capDerive
  | 8 => some .taskSpawn
  | 9 => some .wait
  | 10 => some .inputRead
  | 11 => some .ticks
  | 12 => some .setName
  | 13 => some .stats
  | 14 => some .reboot
  | 15 => some .sleep
  | 16 => some .kill
  | 17 => some .blockRead
  | 18 => some .blockWrite
  | _ => none

/-- What the outside world does in one step. -/
inductive Action where
  /-- `int 0x80` with these registers; `device` answers a disk read. -/
  | syscall (frame : TrapFrame) (device : Option (Nat → UInt8))
  | timer (frame : TrapFrame)
  | fault (vector : Nat) (frame : TrapFrame)
  | scancode (sc : UInt8)
  /-- User code writes a byte of its own memory. -/
  | store (virt : Nat) (byte : UInt8)

namespace Machine

/-- The syscall body for the current task `tid`. -/
def perform (s : Machine) (tid : Nat) (frame : TrapFrame) (device : Option (Nat → UInt8)) :
    Syscall → Except Stop Machine
  | .yield => s.yieldTask tid
  | .exit => s.exitTask tid frame.rdi
  | .debugWrite => .ok (s.sysDebugWrite tid (argsOf frame))
  | .ipcCall => s.ipcCall tid frame
  | .ipcRecv => s.ipcRecv tid frame
  | .ipcReply => s.ipcReply tid frame
  | .capDerive => .ok (s.sysCapDerive tid (argsOf frame))
  | .taskSpawn => s.sysTaskSpawn tid (argsOf frame)
  | .wait => s.sysWait tid frame.rdi
  | .inputRead => s.sysInputRead tid (argsOf frame)
  | .ticks => .ok (s.setRax tid s.ticks)
  | .setName => .ok (s.sysSetName tid (argsOf frame))
  | .stats => .ok (s.sysStats tid (argsOf frame))
  | .reboot => .error .reboot
  | .sleep => s.sysSleep tid frame.rdi
  | .kill => s.sysKill tid frame.rdi
  | .blockRead => .ok (s.blockIo tid (argsOf frame) false device)
  | .blockWrite => .ok (s.blockIo tid (argsOf frame) true device)

def dispatch (s : Machine) (frame : TrapFrame) (device : Option (Nat → UInt8)) :
    Except Stop Machine :=
  match s.current with
  | none => .ok s
  | some tid =>
      match Syscall.ofNum frame.rax with
      | none => .ok (s.setRax tid (wordLimit - 1))
      | some call => s.perform tid frame device call

/-- The trap stub stores the registers on the current task's kernel stack. -/
def saveFrame (s : Machine) (frame : TrapFrame) : Machine :=
  match s.current with
  | none => s
  | some tid => s.modifyTask tid (Task.setFrame fun _ => frame)

def handleSyscall (s : Machine) (frame : TrapFrame) (device : Option (Nat → UInt8)) :
    Except Stop Machine := do
  let s ← (s.saveFrame frame).drainReaper
  s.dispatch frame device

def handleTimer (s : Machine) (frame : TrapFrame) : Except Stop Machine := do
  let s ← (s.saveFrame frame).drainReaper
  ({ s with ticks := (s.ticks + 1) % wordLimit } : Machine).wakeExpired.maybePreempt

/-- A CPU exception; one taken in the kernel or without a current task is fatal. -/
def handleUserFault (s : Machine) (vector : Nat) (frame : TrapFrame) : Except Stop Machine :=
  if frame.cs % 4 ≠ 3 then .error .fatalFault
  else
    match s.current with
    | none => .error .fatalFault
    | some tid => (s.saveFrame frame).exitTask tid (0x100 + vector)

/-- Whether the MMU lets user mode write at this address: every level present,
writable and user accessible. -/
def mmuWritable (mem : PhysMem) (cr3 virt : Nat) : Bool :=
  let permits := fun entry : Nat => entry &&& tableFlags == tableFlags
  let e4 := mem cr3 (p4Index virt)
  let e3 := mem (entryAddr e4) (p3Index virt)
  let e2 := mem (entryAddr e3) (p2Index virt)
  let e1 := mem (entryAddr e2) (p1Index virt)
  permits e4 && permits e3 && permits e2 && permits e1

/-- A user-mode store through the private half of the address space. -/
def userStore (s : Machine) (virt : Nat) (byte : UInt8) : Machine :=
  if s.current.isSome && virt < 2 ^ 39 && mmuWritable s.vm.mem s.cr3 virt then
    match translate s.vm.mem s.cr3 virt with
    | none => s
    | some phys => { s with vm := s.vm.writeByte phys byte }
  else s

def step (s : Machine) : Action → Except Stop Machine
  | .syscall frame device => s.handleSyscall frame device
  | .timer frame => s.handleTimer frame
  | .fault vector frame => s.handleUserFault vector frame
  | .scancode sc => .ok (s.onScancode sc)
  | .store virt byte => .ok (s.userStore virt byte)

end Machine

/-! ## Boot -/

/-- What the kernel finds once its heap is up. -/
structure BootEnv where
  mem : PhysMem
  frames : FrameAllocator
  kernelPml4 : Nat
  consoleElf : List UInt8
  initfsElf : List UInt8
  primaryDrive : Option Nat
  secondaryDrive : Option Nat
  userCs : Nat
  userSs : Nat

namespace BootEnv

def consoleEp : Nat := 0
def fsEp : Nat := 1
def cfgEp : Nat := 2
def supEp : Nat := 3
def infoEp : Nat := 4
def stdinEp : Nat := 5

def consoleCaps : List Cap :=
  [.endpoint consoleEp (rRead ||| rWrite ||| rGrant),
   .endpoint stdinEp (rRead ||| rWrite ||| rGrant)]

/-- Delegable handles to the boot endpoints, and the whole volume if there is one. -/
def initfsCaps (env : BootEnv) : List Cap :=
  [.endpoint consoleEp (rWrite ||| rGrant),
   .endpoint fsEp (rRead ||| rWrite ||| rGrant),
   .endpoint cfgEp (rRead ||| rWrite ||| rGrant),
   .endpoint supEp (rRead ||| rWrite ||| rGrant),
   .endpoint infoEp (rRead ||| rWrite ||| rGrant),
   .endpoint stdinEp (rWrite ||| rGrant)] ++
    match env.secondaryDrive with
    | none => []
    | some sectors => [.block 1 0 sectors (rRead ||| rWrite ||| rGrant)]

def bootCaps (env : BootEnv) : List Cap := consoleCaps ++ env.initfsCaps

def vm (env : BootEnv) : Vm where
  mem := env.mem
  frames := env.frames
  addressSpaces := []
  kstacks := []
  nextKstackSlot := 1

/-- Register the kernel space and the idle stack. -/
def idleVm (env : BootEnv) : Except Stop (Vm × Nat) := do
  let (vm, idle) ← orPanic (kstackSlot (env.vm.registerAddressSpace env.kernelPml4) 0)
  match idle with
  | none => .error (.panic .idleStack)
  | some (_, frames) => .ok (vm, frames)

/-- The kernel before its first task. -/
def machine (env : BootEnv) (vm : Vm) : Machine where
  tasks := []
  nextTid := 1
  reapQueue := []
  endpoints := List.replicate 6 ⟨[], none, none⟩
  current := none
  ready := []
  ticks := 0
  sinceSwitch := 0
  cr3 := env.kernelPml4
  vm := vm
  input := ⟨[], false, false, []⟩
  primaryDrive := env.primaryDrive
  secondaryDrive := env.secondaryDrive
  userCs := env.userCs
  userSs := env.userSs
  trace := []

/-- A boot task that does not load stops the kernel. -/
def spawnBoot (s : Machine) (elf : List UInt8) (caps : List Cap) : Except Stop Machine := do
  match ← s.spawnUser elf caps none with
  | (s, some _) => .ok s
  | (_, none) => .error (.panic .embeddedElf)

/-- The state in which user code first runs. -/
def boot (env : BootEnv) : Except Stop Machine := do
  let (vm, _) ← env.idleVm
  let s ← spawnBoot (env.machine vm) env.consoleElf consoleCaps
  let s ← spawnBoot s env.initfsElf env.initfsCaps
  s.switchAway

end BootEnv

end Redoubt.Kernel
