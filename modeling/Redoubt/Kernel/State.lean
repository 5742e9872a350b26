import Redoubt.Kernel.ElfLoader

/-!
# The kernel state

One record for the kernel's statics, with the history of externally visible
events that the results about whole runs speak of.  No kernel function reads
the history.
-/

namespace Redoubt.Kernel

open Redoubt.Foundation

/-- The places where the kernel insists on finding a task or an endpoint. -/
inductive Lookup where
  | endpointIndex
  | currentVanished
  | parentVanished
  | callerVanished
  | resumedVanished
  | taskUnwrap
  deriving DecidableEq, Repr

/-- The ways a run of the kernel ends. -/
inductive Stop where
  | panic (site : Panic)
  | lookup (site : Lookup)
  | fatalFault
  | reboot
  deriving DecidableEq, Repr

/-- A failed assertion of the memory side ends the run. -/
def orPanic {α : Type} : Except Panic α → Except Stop α :=
  Except.mapError Stop.panic

/-- The six-word message buffer; the last word is always zero. -/
structure Message where
  m0 : Nat
  m1 : Nat
  m2 : Nat
  m3 : Nat
  m4 : Nat
  m5 : Nat
  deriving DecidableEq, Repr

/-- One IPC endpoint: a queue of callers and a single reply slot. -/
structure Endpoint where
  /-- Callers waiting for a receiver, oldest first. -/
  pendingCallers : List (Nat × Message)
  /-- The call the server is allowed to answer next. -/
  activeCaller : Option Nat
  /-- The receiver responsible for `activeCaller`. -/
  activeServer : Option Nat
  deriving DecidableEq, Repr

/-- A task parked in `sysInputRead` with its destination buffer. -/
structure Waiter where
  tid : Nat
  buf : Nat
  len : Nat
  cr3 : Nat
  deriving DecidableEq, Repr

structure Input where
  queue : List UInt8
  shift : Bool
  extended : Bool
  waiters : List Waiter
  deriving DecidableEq, Repr

/-- What an observer of the kernel's IPC, lifecycle and disk traffic sees.  The
register images are the ones the kernel read or wrote at that moment. -/
inductive Event where
  | callIssued (endpoint caller : Nat) (frame : TrapFrame)
  | callDelivered (endpoint receiver : Nat) (frame : TrapFrame)
  | callReplied (endpoint server caller : Nat) (frame : TrapFrame)
  | peerDied (endpoint caller : Nat)
  | recvTimedOut (endpoint receiver : Nat)
  | spawned (parent : Option Nat) (child : Nat)
  | terminated (tid code : Nat)
  | waited (parent child code : Nat)
  | ata (tid : Nat) (write : Bool) (disk lba count : Nat)
  deriving DecidableEq, Repr

structure Machine where
  tasks : List Task
  nextTid : Nat
  reapQueue : List PendingReap
  endpoints : List Endpoint
  current : Option Nat
  ready : List Nat
  ticks : Nat
  sinceSwitch : Nat
  /-- The CPU's page-table base. -/
  cr3 : Nat
  vm : Vm
  input : Input
  /-- Sector counts of the boot disk and of the volume, when present. -/
  primaryDrive : Option Nat
  secondaryDrive : Option Nat
  userCs : Nat
  userSs : Nat
  trace : List Event

namespace Machine

def findTask (s : Machine) (tid : Nat) : Option Task :=
  Redoubt.Kernel.findTask s.tasks tid

def modifyTask (s : Machine) (tid : Nat) (update : Task → Task) : Machine :=
  { s with tasks := Redoubt.Kernel.modifyTask tid update s.tasks }

/-- Store a result in the task's register image. -/
def setRax (s : Machine) (tid value : Nat) : Machine :=
  s.modifyTask tid (Task.setFrame fun frame => { frame with rax := value })

def emit (s : Machine) (event : Event) : Machine :=
  { s with trace := s.trace ++ [event] }

def setEndpoint (s : Machine) (index : Nat) (endpoint : Endpoint) : Machine :=
  { s with endpoints := s.endpoints.set index endpoint }

end Machine

/-! ## Result codes -/

def eOk : Nat := 0
def eCapMissing : Nat := 1
def eCapDenied : Nat := 2
def eNoReplyWaiting : Nat := 4
def eBadArg : Nat := 5
def eNoChildren : Nat := 6
def ePeerDied : Nat := 7
def eEndpointBusy : Nat := 8
def eWouldBlock : Nat := 9
def eTimedOut : Nat := 10

/-- Syscall arguments: rdi, rsi, rdx, r10, r8, r9. -/
structure Args where
  a0 : Nat
  a1 : Nat
  a2 : Nat
  a3 : Nat
  a4 : Nat
  a5 : Nat
  deriving DecidableEq, Repr

def argsOf (frame : TrapFrame) : Args :=
  ⟨frame.rdi, frame.rsi, frame.rdx, frame.r10, frame.r8, frame.r9⟩

end Redoubt.Kernel
