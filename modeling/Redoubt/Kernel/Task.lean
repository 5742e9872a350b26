import Redoubt.Foundation.KeyedTable
import Redoubt.Kernel.Capability
import Redoubt.Kernel.Paging

/-!
# Tasks and the task table

A task that is not on the CPU keeps its register image at the top of its own
kernel stack.  Every trap from user mode builds that image at the same place,
so the model keeps it as a field of the task.
-/

namespace Redoubt.Kernel

open Redoubt.Foundation

/-- Full register state captured on every trap from user mode. -/
structure TrapFrame where
  r15 : Nat
  r14 : Nat
  r13 : Nat
  r12 : Nat
  r11 : Nat
  r10 : Nat
  r9 : Nat
  r8 : Nat
  rdi : Nat
  rsi : Nat
  rbp : Nat
  rbx : Nat
  rdx : Nat
  rcx : Nat
  rax : Nat
  rip : Nat
  cs : Nat
  rflags : Nat
  rsp : Nat
  ss : Nat
  deriving DecidableEq, Repr

/-- The initial image of a freshly spawned task. -/
def TrapFrame.newUser (entry userStackTop cs ss : Nat) : TrapFrame where
  r15 := 0
  r14 := 0
  r13 := 0
  r12 := 0
  r11 := 0
  r10 := 0
  r9 := 0
  r8 := 0
  rdi := 0
  rsi := 0
  rbp := 0
  rbx := 0
  rdx := 0
  rcx := 0
  rax := 0
  rip := entry
  cs := cs
  rflags := 0x202
  rsp := userStackTop
  ss := ss

inductive TaskState where
  | ready
  | running
  /-- In `ipcCall`, message queued, no receiver yet. -/
  | blockedSend (endpoint : Nat)
  /-- Call delivered, waiting for the reply. -/
  | blockedCall (endpoint : Nat)
  /-- In `ipcRecv`; deadline 0 waits forever. -/
  | blockedRecv (endpoint deadline : Nat)
  | blockedWait
  | blockedInput
  | blockedSleep (wakeAt : Nat)
  /-- Exited, resources held until reaped. -/
  | zombie (code : Nat)
  deriving DecidableEq, Repr

namespace TaskState

def isZombie : TaskState → Bool
  | .zombie _ => true
  | _ => false

@[simp]
theorem isZombie_zombie (code : Nat) : (zombie code).isZombie = true := rfl

def isBlockedCall : TaskState → Bool
  | .blockedCall _ => true
  | _ => false

/-- Parked in `ipcRecv` on this endpoint. -/
def receivesOn (endpoint : Nat) : TaskState → Bool
  | .blockedRecv parked _ => parked == endpoint
  | _ => false

end TaskState

structure Task where
  id : Nat
  state : TaskState
  cr3 : Nat
  frame : TrapFrame
  caps : CapTable
  /-- Spawner, `none` for a kernel-spawned or orphaned task. -/
  parent : Option Nat
  kstackBaseVa : Nat
  kstackFramesBase : Nat
  /-- User leaf pages charged to the task. -/
  pages : Nat
  deriving DecidableEq, Repr

/-- What has to be torn down for a dead task. -/
structure PendingReap where
  cr3 : Nat
  kstackBaseVa : Nat
  kstackFramesBase : Nat
  deriving DecidableEq, Repr

namespace Task

def resources (task : Task) : PendingReap where
  cr3 := task.cr3
  kstackBaseVa := task.kstackBaseVa
  kstackFramesBase := task.kstackFramesBase

def setState (state : TaskState) (task : Task) : Task := { task with state := state }

def setFrame (update : TrapFrame → TrapFrame) (task : Task) : Task :=
  { task with frame := update task.frame }

/-- Runnable again, with the outcome of the blocking call in its registers. -/
def wakeWith (update : TrapFrame → TrapFrame) (task : Task) : Task :=
  (task.setFrame update).setState .ready

def orphan (task : Task) : Task := { task with parent := none }

end Task

/-- First task with this id. -/
def findTask (tasks : List Task) (tid : Nat) : Option Task :=
  lookup Task.id tid tasks

/-- Change the first task with this id. -/
def modifyTask (tid : Nat) (change : Task → Task) (tasks : List Task) : List Task :=
  update Task.id tid change tasks

end Redoubt.Kernel
