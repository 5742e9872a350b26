import Redoubt.Kernel.Scheduler

/-!
# Task creation, termination and reaping

A dying task is still on its own kernel stack, so exit only marks it and the
teardown waits for the next trap.  Termination also unwinds the task's IPC
transactions and reports the exit code to a waiting parent.
-/

namespace Redoubt.Kernel

open Redoubt.Foundation

namespace Machine

/-- Load an image and create a ready task. -/
def spawnUser (s : Machine) (elf : List UInt8) (caps : List Cap) (parent : Option Nat) :
    Except Stop (Machine × Option Nat) := do
  let (vm, image) ← orPanic (buildImage s.vm s.cr3 elf)
  match image with
  | none => .ok ({ s with vm := vm }, none)
  | some image =>
      let task : Task :=
        { id := s.nextTid
          state := .ready
          cr3 := image.cr3
          frame := TrapFrame.newUser image.entry userStackTop s.userCs s.userSs
          caps := CapTable.install caps
          parent := parent
          kstackBaseVa := image.kstackBaseVa
          kstackFramesBase := image.kstackFramesBase
          pages := image.pages }
      let s := { s with vm := vm, nextTid := s.nextTid + 1, tasks := s.tasks ++ [task] }
      .ok ((s.emit (.spawned parent task.id)).makeReady task.id false, some task.id)

/-! ## Reaping -/

/-- Remove a zombie from the table and queue its teardown. -/
def scheduleReap (s : Machine) (tid : Nat) : Machine :=
  match s.findTask tid with
  | none => s
  | some task =>
      { s with
        tasks := s.tasks.filter fun task => task.id ≠ tid
        reapQueue := s.reapQueue ++ [task.resources] }

/-- Tear down every queued corpse. -/
def drainReaper (s : Machine) : Except Stop Machine := do
  let vm ← orPanic (s.reapQueue.foldlM reclaim s.vm)
  .ok { s with vm := vm, reapQueue := [] }

/-- Reap a zombie child at once; the result is its exit code. -/
def reapZombie (s : Machine) (tid : Nat) : Except Stop (Machine × Option Nat) :=
  match s.findTask tid with
  | none => .ok (s, none)
  | some task =>
      match task.state with
      | .zombie code => do
          let vm ← orPanic (reclaim s.vm task.resources)
          .ok ({ s with vm := vm, tasks := s.tasks.eraseP fun task => task.id == tid }, some code)
      | _ => .ok (s, none)

end Machine

/-! ## Unwinding IPC -/

/-- One endpoint without the exiting task. -/
def Endpoint.abort (tid : Nat) (endpoint : Endpoint) : Endpoint :=
  let endpoint := { endpoint with
    pendingCallers := endpoint.pendingCallers.filter fun call => call.1 ≠ tid }
  let endpoint :=
    if endpoint.activeCaller = some tid then
      { endpoint with activeCaller := none, activeServer := none }
    else endpoint
  if endpoint.activeServer = some tid then
    { endpoint with activeCaller := none, activeServer := none }
  else endpoint

/-- The caller that loses its server when `tid` exits. -/
def Endpoint.strandedBy (tid : Nat) (endpoint : Endpoint) : Option Nat :=
  if endpoint.activeCaller = some tid then none
  else if endpoint.activeServer = some tid then endpoint.activeCaller
  else none

namespace Machine

/-- Fail the call of a caller whose server has exited. -/
def failStranded (s : Machine) (caller : Nat) : Machine :=
  match s.findTask caller with
  | none => s
  | some task =>
      match task.state with
      | .blockedCall endpoint =>
          let s := s.modifyTask caller (Task.wakeWith fun frame => { frame with rax := ePeerDied })
          (s.makeReady caller true).emit (.peerDied endpoint caller)
      | _ => s

/-- Remove an exiting task from all IPC bookkeeping. -/
def abortIpcForExitingTask (s : Machine) (tid : Nat) : Machine :=
  let stranded := s.endpoints.filterMap (Endpoint.strandedBy tid)
  let s := { s with endpoints := s.endpoints.map (Endpoint.abort tid) }
  stranded.foldl failStranded s

end Machine

/-! ## Termination -/

inductive Fate where
  /-- Parent parked in wait: deliver the code, then reap. -/
  | deliver (parent : Nat)
  /-- Parent alive but not waiting: stay a readable zombie. -/
  | linger
  /-- Nobody can wait for this task. -/
  | orphan
  deriving DecidableEq, Repr

namespace Machine

def childrenOf (s : Machine) (tid : Nat) : List Nat :=
  (s.tasks.filter fun task => task.parent == some tid).map Task.id

/-- The children that are already dead when their parent exits. -/
def orphanedZombies (s : Machine) (kids : List Nat) : List Nat :=
  kids.filter fun kid => (s.findTask kid).any fun task => task.state.isZombie

def fateOf (s : Machine) (parent : Option Nat) : Fate :=
  match parent.bind s.findTask with
  | none => .orphan
  | some task => if task.state = .blockedWait then .deliver task.id else .linger

/-- Hand the exit code to a parent parked in wait. -/
def deliverExit (s : Machine) (parent tid code : Nat) : Except Stop Machine :=
  match s.findTask parent with
  | none => .error (.lookup .parentVanished)
  | some _ =>
      let s := s.modifyTask parent (Task.wakeWith fun frame =>
        { frame with rax := eOk, rdi := tid, rsi := code })
      .ok ((s.makeReady parent true).emit (.waited parent tid code))

/-- Mark the task, orphan its children and decide what becomes of it. -/
def markZombie (s : Machine) (tid code : Nat) : Machine × Fate × List Nat :=
  match s.findTask tid with
  | none => (s, .orphan, [])
  | some task =>
      let s := (s.modifyTask tid (Task.setState (.zombie code))).emit (.terminated tid code)
      let kids := s.childrenOf tid
      let zombies := s.orphanedZombies kids
      let s := kids.foldl (fun s kid => s.modifyTask kid Task.orphan) s
      (s, s.fateOf task.parent, zombies)

/-- Termination without the CPU hand-off. -/
def terminateLifecycle (s : Machine) (tid code : Nat) : Except Stop Machine :=
  let (s, fate, zombies) := s.markZombie tid code
  let s := zombies.foldl scheduleReap s
  let s := s.abortIpcForExitingTask tid
  match fate with
  | .deliver parent => do
      let s ← s.deliverExit parent tid code
      .ok (s.scheduleReap tid)
  | .linger => .ok s
  | .orphan => .ok (s.scheduleReap tid)

/-- Exit of the task on the CPU. -/
def exitTask (s : Machine) (tid code : Nat) : Except Stop Machine := do
  let s ← s.terminateLifecycle tid code
  s.switchAway

/-! ## Wait and kill -/

def waitNohang : Nat := 1

def sysWait (s : Machine) (tid flags : Nat) : Except Stop Machine :=
  match (s.tasks.filter fun task => task.parent == some tid).find?
      fun task => task.state.isZombie with
  | some child => do
      let (s, code) ← s.reapZombie child.id
      let code := code.getD 0
      .ok ((s.modifyTask tid (Task.setFrame fun frame =>
        { frame with rax := eOk, rdi := child.id, rsi := code })).emit
          (.waited tid child.id code))
  | none =>
      if ¬ s.tasks.any fun task => task.parent == some tid && !task.state.isZombie then
        .ok (s.setRax tid eNoChildren)
      else if flags &&& waitNohang ≠ 0 then .ok (s.setRax tid eWouldBlock)
      else s.block tid .blockedWait

/-- Status of a task stopped by its spawner. -/
def killCode : Nat := 0x200

def sysKill (s : Machine) (tid victim : Nat) : Except Stop Machine :=
  if victim = tid then .ok (s.setRax tid eBadArg)
  else if ¬ s.tasks.any fun task => task.id == victim && task.parent == some tid then
    .ok (s.setRax tid eCapDenied)
  else do
    let s ← s.terminateLifecycle victim killCode
    .ok (s.setRax tid eOk)

end Machine

end Redoubt.Kernel
