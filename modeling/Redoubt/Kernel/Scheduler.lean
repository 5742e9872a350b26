import Redoubt.Kernel.State

/-!
# The round-robin scheduler

Scheduling decisions are taken in trap context only.  The frame pointer that
the source returns to the trap stub is the register image of the task that
`current` names afterwards.
-/

namespace Redoubt.Kernel

open Redoubt.Foundation

def quantumTicks : Nat := 20

namespace Machine

def setCurrent (s : Machine) (tid : Option Nat) : Machine := { s with current := tid }

def makeReady (s : Machine) (tid : Nat) (front : Bool) : Machine :=
  { s with ready := if front then tid :: s.ready else s.ready ++ [tid] }

end Machine

/-- The queue loop of `pickNext`.  Entries that are skipped go to the back when
a task is found and are dropped when none is. -/
def pickFrom (tasks : List Task) (exclude : Option Nat) :
    List Nat → List Nat → Option Nat × List Nat
  | [], _ => (none, [])
  | tid :: queue, skipped =>
      let ok := tasks.any fun task => task.id == tid && task.state == .ready
      if some tid ≠ exclude ∧ ok then (some tid, queue ++ skipped)
      else pickFrom tasks exclude queue (skipped ++ [tid])

namespace Machine

def pickNext (s : Machine) (exclude : Option Nat) : Option Nat × Machine :=
  let picked := pickFrom s.tasks exclude s.ready []
  (picked.1, { s with ready := picked.2 })

/-- Put a task on the CPU. -/
def resume (s : Machine) (tid : Nat) : Except Stop Machine :=
  match s.findTask tid with
  | none => .error (.lookup .resumedVanished)
  | some task =>
      .ok { (s.modifyTask tid (Task.setState .running)).setCurrent (some tid) with
        cr3 := task.cr3 }

/-- Leave the last task's address space for the kernel's own. -/
def parkIdle (s : Machine) : Machine :=
  match s.vm.addressSpaces.head? with
  | none => s
  | some kernel => { s with cr3 := kernel }

/-- The tail of every blocking call: nobody is current, run whoever is next. -/
def switchAway (s : Machine) : Except Stop Machine :=
  match (s.setCurrent none).pickNext none with
  | (some next, s) => s.resume next
  | (none, s) => .ok s.parkIdle

/-- Park the current task in a blocked state. -/
def block (s : Machine) (tid : Nat) (state : TaskState) : Except Stop Machine :=
  match s.findTask tid with
  | none => .error (.lookup .taskUnwrap)
  | some _ => (s.modifyTask tid (Task.setState state)).switchAway

/-- Hand the CPU to `next` and queue `tid` behind everyone else. -/
def preempt (s : Machine) (tid next : Nat) : Except Stop Machine :=
  match s.findTask tid with
  | none => .error (.lookup .currentVanished)
  | some _ =>
      ((s.modifyTask tid (Task.setState .ready)).makeReady tid false).resume next

def yieldTask (s : Machine) (tid : Nat) : Except Stop Machine :=
  match s.pickNext (some tid) with
  | (none, s) => .ok s
  | (some next, s) => s.preempt tid next

def maybePreempt (s : Machine) : Except Stop Machine :=
  if s.sinceSwitch + 1 < quantumTicks then
    .ok { s with sinceSwitch := s.sinceSwitch + 1 }
  else
    let s := { s with sinceSwitch := 0 }
    match s.current, s.pickNext s.current with
    | none, (some next, s) => s.resume next
    | _, (none, s) => .ok s
    | some cur, (some next, s) => s.preempt cur next

end Machine

/-! ## Deadlines -/

/-- Whether a bounded wait is over at tick `now`. -/
def TaskState.expired (now : Nat) : TaskState → Bool
  | .blockedRecv _ deadline => deadline ≠ 0 && deadline ≤ now
  | .blockedSleep wakeAt => wakeAt ≤ now
  | _ => false

/-- The result a task sees when its wait runs out. -/
def TaskState.expiryCode : TaskState → Nat
  | .blockedRecv .. => eTimedOut
  | _ => eOk

def Task.wakeIfExpired (now : Nat) (task : Task) : Task :=
  if task.state.expired now then
    task.wakeWith fun frame => { frame with rax := task.state.expiryCode }
  else task

/-- The timeouts that `wakeExpired` reports to receivers. -/
def timeoutEvents (now : Nat) (tasks : List Task) : List Event :=
  tasks.filterMap fun task =>
    match task.state with
    | .blockedRecv endpoint _ =>
        if task.state.expired now then some (.recvTimedOut endpoint task.id) else none
    | _ => none

namespace Machine

/-- Wake every bounded wait whose deadline has passed. -/
def wakeExpired (s : Machine) : Machine :=
  let woke := (s.tasks.filter fun task => task.state.expired s.ticks).map Task.id
  let s := { s with
    tasks := s.tasks.map (Task.wakeIfExpired s.ticks)
    trace := s.trace ++ timeoutEvents s.ticks s.tasks }
  woke.foldl (fun s tid => s.makeReady tid true) s

end Machine

end Redoubt.Kernel
