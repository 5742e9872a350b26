import Redoubt.Kernel.Machine
import Mathlib.Logic.Relation
import Mathlib.Tactic.Simps.Basic

/-!
# The abstract process model

The process side of the kernel without memory, registers and table order: who
is in which state, the endpoints, the ready queue, the keyboard waiters and the
history.  `Proc.Step` lists everything the kernel can do to it.  A trap is a
finite chain of such steps.
-/

namespace Redoubt.Kernel

open Redoubt.Foundation

/-- What the process model keeps of a task. -/
structure TaskView where
  state : TaskState
  cr3 : Nat
  caps : CapTable
  parent : Option Nat
  deriving DecidableEq, Repr

@[simps]
def Task.view (task : Task) : TaskView :=
  ⟨task.state, task.cr3, task.caps, task.parent⟩

@[ext]
structure Proc where
  task : Nat → Option TaskView
  nextTid : Nat
  endpoints : List Endpoint
  current : Option Nat
  ready : List Nat
  waiters : List Waiter
  trace : List Event
  /-- The task whose termination is under way, if any. -/
  dying : Option Nat

namespace Proc

def state? (p : Proc) (tid : Nat) : Option TaskState :=
  (p.task tid).map TaskView.state

/-- Change one task. -/
@[simps]
def setTask (p : Proc) (tid : Nat) (change : TaskView → TaskView) : Proc :=
  { p with task := fun other => if other = tid then (p.task other).map change else p.task other }

@[simps]
def setState (p : Proc) (tid : Nat) (state : TaskState) : Proc :=
  { p with task := (p.setTask tid fun view => { view with state := state }).task }

/-- Drop a task from the table. -/
@[simps]
def remove (p : Proc) (tid : Nat) : Proc :=
  { p with task := fun other => if other = tid then none else p.task other }

/-- Make a parked task runnable at the front of the queue. -/
@[simps]
def wake (p : Proc) (tid : Nat) : Proc :=
  { p.setState tid .ready with ready := tid :: p.ready }

/-- Take the current task off the CPU into a blocked state. -/
@[simps]
def park (p : Proc) (tid : Nat) (state : TaskState) : Proc :=
  { p.setState tid state with current := none }

@[simps]
def setEndpoint (p : Proc) (index : Nat) (endpoint : Endpoint) : Proc :=
  { p with endpoints := p.endpoints.set index endpoint }

@[simps]
def emit (p : Proc) (events : List Event) : Proc :=
  { p with trace := p.trace ++ events }

/-- Put a capability into a slot of a task's table. -/
@[simps]
def fillSlot (p : Proc) (tid slot : Nat) (cap : Cap) : Proc :=
  { p with
      task := (p.setTask tid fun view => { view with caps := view.caps.set slot (some cap) }).task }

/-- In the table and not a zombie. -/
def Live (p : Proc) (tid : Nat) : Prop :=
  ∃ view, p.task tid = some view ∧ view.state.isZombie = false

/-- A termination event of this task has happened. -/
def Dead (p : Proc) (tid : Nat) : Prop :=
  ∃ code, Event.terminated tid code ∈ p.trace

/-- The task no longer occurs in any endpoint. -/
def Unwound (p : Proc) (tid : Nat) : Prop :=
  ∀ endpoint ∈ p.endpoints,
    (∀ call ∈ endpoint.pendingCallers, call.1 ≠ tid) ∧
      endpoint.activeCaller ≠ some tid ∧ endpoint.activeServer ≠ some tid

/-- A call through this slot would find a parked receiver on an endpoint whose
reply slot is in use. -/
def CallsBusy (p : Proc) (tid slot : Nat) : Prop :=
  ∃ view index rights, ∃ endpoint : Endpoint, ∃ receiver deadline,
    p.task tid = some view ∧ view.caps.cap? slot = some (.endpoint index rights) ∧
      rights &&& rWrite = rWrite ∧ p.endpoints[index]? = some endpoint ∧
      endpoint.activeCaller.isSome ∧ p.state? receiver = some (.blockedRecv index deadline)

/-- A kill of this task would hit a child of the current task that waits for
the keyboard. -/
def KillsReader (p : Proc) (victim : Nat) : Prop :=
  ∃ view killer, p.task victim = some view ∧ view.state = .blockedInput ∧
    view.parent = some killer ∧ p.current = some killer

/-- The table after `tid` became a zombie: its dead children are gone, its
living ones have no parent any more. -/
def dieTask (p : Proc) (tid code other : Nat) : Option TaskView :=
  match p.task other with
  | none => none
  | some view =>
      let view := if other = tid then { view with state := .zombie code } else view
      if view.parent = some tid then
        if view.state.isZombie then none else some { view with parent := none }
      else some view

/-- The termination of a task begins. -/
@[simps]
def died (p : Proc) (tid code : Nat) : Proc :=
  { p with
      task := p.dieTask tid code
      current := if p.current = some tid then none else p.current
      dying := some tid
      trace := p.trace ++ [.terminated tid code] }

/-- A new task enters the table and the ready queue. -/
@[simps]
def enter (p : Proc) (view : TaskView) : Proc :=
  { p with
      task := fun other => if other = p.nextTid then some view else p.task other
      nextTid := p.nextTid + 1
      ready := p.ready ++ [p.nextTid]
      trace := p.trace ++ [.spawned view.parent p.nextTid] }

attribute [grind =]
  setTask_nextTid setTask_endpoints setTask_current setTask_ready setTask_waiters setTask_trace
  setTask_dying setState_nextTid setState_endpoints setState_current setState_ready
  setState_waiters setState_trace setState_dying remove_nextTid remove_endpoints remove_current
  remove_ready remove_waiters remove_trace remove_dying wake_nextTid wake_endpoints wake_current
  wake_ready wake_waiters wake_trace wake_dying park_nextTid park_endpoints park_current
  park_ready park_waiters park_trace park_dying setEndpoint_nextTid setEndpoint_endpoints
  setEndpoint_current setEndpoint_ready setEndpoint_waiters setEndpoint_trace setEndpoint_dying
  emit_nextTid emit_endpoints emit_current emit_ready emit_waiters emit_trace emit_dying
  died_nextTid died_endpoints died_current died_ready died_waiters died_trace died_dying
  enter_nextTid enter_endpoints enter_current enter_ready enter_waiters enter_trace enter_dying

/-- The kinds of abstract steps. -/
inductive StepKind where
  | schedule
  /-- A call; `busy` when it takes a reply slot that is in use. -/
  | call (busy : Bool)
  | recv
  | reply
  | timeout
  /-- A termination begins; `reading` when the task waits for the keyboard. -/
  | die (reading : Bool)
  | lifecycle
  | input
  | derive
  | spawn
  | disk
  deriving DecidableEq, Repr

/-- Everything the kernel does to the process side. -/
inductive Step : StepKind → Proc → Proc → Prop where
  | resume {p : Proc} (tid : Nat) (ready : List Nat)
      (idle : p.current = none) (runnable : p.state? tid = some .ready)
      (queue : ready.Perm (p.ready.erase tid)) :
      Step .schedule p { p.setState tid .running with current := some tid, ready := ready }
  | forget {p : Proc} (stale : ∀ tid ∈ p.ready, p.state? tid ≠ some .ready) :
      Step .schedule p { p with ready := [] }
  | preempt {p : Proc} (tid : Nat) (onCpu : p.current = some tid) :
      Step .schedule p { p.park tid .ready with ready := p.ready ++ [tid] }
  | parkSleep {p : Proc} (tid wakeAt : Nat) (onCpu : p.current = some tid) :
      Step .schedule p (p.park tid (.blockedSleep wakeAt))
  | parkWait {p : Proc} (tid : Nat) (onCpu : p.current = some tid)
      (noneDead : ∀ child view, p.task child = some view → view.parent = some tid →
        view.state.isZombie = false)
      (someChild : ∃ child view, p.task child = some view ∧ view.parent = some tid) :
      Step .lifecycle p (p.park tid .blockedWait)
  | parkInput {p : Proc} (waiter : Waiter) (view : TaskView)
      (onCpu : p.current = some waiter.tid) (found : p.task waiter.tid = some view)
      (space : view.cr3 = waiter.cr3) :
      Step .input p { p.park waiter.tid .blockedInput with waiters := p.waiters ++ [waiter] }
  | callDirect {p : Proc} (tid index receiver deadline : Nat) (endpoint : Endpoint)
      (frame receiverFrame : TrapFrame) (onCpu : p.current = some tid)
      (found : p.endpoints[index]? = some endpoint)
      (parked : p.state? receiver = some (.blockedRecv index deadline)) :
      Step (.call endpoint.activeCaller.isSome) p
        ((((p.wake receiver).park tid (.blockedCall index)).setEndpoint index
          { endpoint with activeCaller := some tid, activeServer := some receiver }).emit
          [.callIssued index tid frame,
           .callDelivered index receiver
            (deliverFrame tid (messageOf (argsOf frame)) receiverFrame)])
  | callQueue {p : Proc} (tid index : Nat) (endpoint : Endpoint) (frame : TrapFrame)
      (onCpu : p.current = some tid) (found : p.endpoints[index]? = some endpoint)
      (noReceiver : ∀ receiver deadline,
        p.state? receiver ≠ some (.blockedRecv index deadline)) :
      Step (.call false) p
        (((p.park tid (.blockedSend index)).setEndpoint index
          { endpoint with
            pendingCallers := endpoint.pendingCallers ++ [(tid, messageOf (argsOf frame))] }).emit
          [.callIssued index tid frame])
  | recvQueue {p : Proc} (tid index caller : Nat) (endpoint : Endpoint) (msg : Message)
      (rest : List (Nat × Message)) (frame : TrapFrame) (calm : p.dying = none)
      (onCpu : p.current = some tid) (found : p.endpoints[index]? = some endpoint)
      (slotFree : endpoint.activeCaller = none)
      (queued : endpoint.pendingCallers = (caller, msg) :: rest) :
      Step .recv p
        (((p.setState caller (.blockedCall index)).setEndpoint index
          { pendingCallers := rest, activeCaller := some caller, activeServer := some tid }).emit
          [.callDelivered index tid (deliverFrame caller msg frame)])
  | recvPark {p : Proc} (tid index deadline : Nat) (endpoint : Endpoint)
      (onCpu : p.current = some tid) (found : p.endpoints[index]? = some endpoint)
      (slotFree : endpoint.activeCaller = none) (empty : endpoint.pendingCallers = []) :
      Step .recv p (p.park tid (.blockedRecv index deadline))
  | recvPoll {p : Proc} (tid index : Nat) (onCpu : p.current = some tid) :
      Step .timeout p (p.emit [.recvTimedOut index tid])
  | expireRecv {p : Proc} (tid index deadline : Nat)
      (parked : p.state? tid = some (.blockedRecv index deadline)) :
      Step .timeout p ((p.wake tid).emit [.recvTimedOut index tid])
  | expireSleep {p : Proc} (tid wakeAt : Nat)
      (parked : p.state? tid = some (.blockedSleep wakeAt)) :
      Step .timeout p (p.wake tid)
  | reply {p : Proc} (tid index caller : Nat) (endpoint : Endpoint)
      (frame callerFrame : TrapFrame) (calm : p.dying = none)
      (onCpu : p.current = some tid) (found : p.endpoints[index]? = some endpoint)
      (server : endpoint.activeServer = some tid)
      (answered : endpoint.activeCaller = some caller) :
      Step .reply p
        (((p.wake caller).setEndpoint index
          { endpoint with activeCaller := none, activeServer := none }).emit
          [.callReplied index tid caller (replyFrame (argsOf frame) callerFrame)])
  | spawn {p : Proc} (view : TaskView) (fresh : view.state = .ready)
      (spawner : view.parent = p.current) (grants : List Cap)
      (table : view.caps = CapTable.install grants)
      (held : ∀ tid, p.current = some tid → ∀ cap ∈ grants, ∃ owner srcSlot src mask,
        p.task tid = some owner ∧ owner.caps.cap? srcSlot = some src ∧
          src.rights &&& rGrant ≠ 0 ∧ cap = src.withRights (src.rights &&& mask))
      (ranged : p.current = none → ∀ index rights, Cap.endpoint index rights ∈ grants →
        index < p.endpoints.length) :
      Step .spawn p (p.enter view)
  | die {p : Proc} (tid code : Nat) (found : (p.task tid).isSome) (calm : p.dying = none)
      (target : p.current = some tid ∨
        ∃ view killer, p.task tid = some view ∧ view.parent = some killer ∧
          p.current = some killer) :
      Step (.die (p.state? tid == some .blockedInput)) p (p.died tid code)
  | abortAt {p : Proc} (tid index : Nat) (endpoint : Endpoint) (dying : p.dying = some tid)
      (found : p.endpoints[index]? = some endpoint)
      (alone : endpoint.strandedBy tid = none) :
      Step .lifecycle p (p.setEndpoint index (endpoint.abort tid))
  | abortWake {p : Proc} (tid index caller : Nat) (endpoint : Endpoint)
      (dying : p.dying = some tid) (found : p.endpoints[index]? = some endpoint)
      (stranded : endpoint.strandedBy tid = some caller) :
      Step .lifecycle p
        (((p.wake caller).setEndpoint index (endpoint.abort tid)).emit [.peerDied index caller])
  | finishDeliver {p : Proc} (tid parent code : Nat) (view : TaskView)
      (dying : p.dying = some tid) (unwound : p.Unwound tid)
      (found : p.task tid = some view) (exited : view.state = .zombie code)
      (child : view.parent = some parent) (waiting : p.state? parent = some .blockedWait) :
      Step .lifecycle p
        ({ (p.wake parent).remove tid with dying := none }.emit [.waited parent tid code])
  | finishLinger {p : Proc} (tid parent : Nat) (view : TaskView)
      (dying : p.dying = some tid) (unwound : p.Unwound tid)
      (found : p.task tid = some view) (child : view.parent = some parent)
      (busy : p.state? parent ≠ some .blockedWait) :
      Step .lifecycle p { p with dying := none }
  | finishOrphan {p : Proc} (tid : Nat) (view : TaskView)
      (dying : p.dying = some tid) (unwound : p.Unwound tid)
      (found : p.task tid = some view) (orphan : view.parent = none) :
      Step .lifecycle p { p.remove tid with dying := none }
  | collect {p : Proc} (tid child code : Nat) (view : TaskView) (calm : p.dying = none)
      (onCpu : p.current = some tid) (found : p.task child = some view)
      (exited : view.state = .zombie code) (parent : view.parent = some tid) :
      Step .lifecycle p ((p.remove child).emit [.waited tid child code])
  | serveInput {p : Proc} (waiter : Waiter) (rest : List Waiter)
      (queued : p.waiters = waiter :: rest)
      (parked : p.state? waiter.tid = some .blockedInput) :
      Step .input p { p.wake waiter.tid with waiters := rest }
  | serveStale {p : Proc} (waiter : Waiter) (rest : List Waiter)
      (queued : p.waiters = waiter :: rest)
      (gone : p.state? waiter.tid ≠ some .blockedInput) :
      Step .input p { p with waiters := rest, ready := waiter.tid :: p.ready }
  | derive {p : Proc} (tid slot : Nat) (view : TaskView) (src derived : Cap) (a : Args)
      (onCpu : p.current = some tid) (found : p.task tid = some view)
      (held : view.caps.cap? a.a0 = some src)
      (derivable : Machine.deriveFrom src a = .ok derived)
      (free : view.caps.freeCapSlot = some slot) :
      Step .derive p (p.fillSlot tid slot derived)
  | transfer {p : Proc} (tid slot lba count : Nat) (view : TaskView)
      (disk lbaStart lbas rights : Nat) (write : Bool)
      (onCpu : p.current = some tid) (found : p.task tid = some view)
      (held : view.caps.cap? slot = some (.block disk lbaStart lbas rights))
      (right : rights &&& (if write then rWrite else rRead) = if write then rWrite else rRead)
      (size : 1 ≤ count ∧ count ≤ 8)
      (covered : lbaStart ≤ lba ∧ lba + count ≤ lbaStart + lbas) :
      Step .disk p (p.emit [.ata tid write disk lba count])

/-- A chain of abstract steps of the given kinds. -/
def Steps (kinds : StepKind → Prop) : Proc → Proc → Prop :=
  Relation.ReflTransGen fun p q => ∃ kind, kinds kind ∧ Step kind p q

end Proc

/-- The steps that write an event into the history. -/
def Event.MadeBy : Event → Proc.StepKind → Prop
  | .callIssued _ _ _, .call _ => True
  | .callDelivered _ _ _, .call _ => True
  | .callDelivered _ _ _, .recv => True
  | .callReplied _ _ _ _, .reply => True
  | .peerDied _ _, .lifecycle => True
  | .recvTimedOut _ _, .timeout => True
  | .spawned _ _, .spawn => True
  | .terminated _ _, .die _ => True
  | .waited _ _ _, .lifecycle => True
  | .ata _ _ _ _ _, .disk => True
  | _, _ => False

namespace Machine

/-- The process side of a machine state, seen with another current task and
with a termination under way. -/
@[simps]
def viewAs (s : Machine) (current dying : Option Nat) : Proc where
  task := fun tid => (s.findTask tid).map Task.view
  nextTid := s.nextTid
  endpoints := s.endpoints
  current := current
  ready := s.ready
  waiters := s.input.waiters
  trace := s.trace
  dying := dying

def view (s : Machine) : Proc := s.viewAs s.current none

end Machine

/-- The abstract steps that a system call of the current task may consist of. -/
def Syscall.MayDo (p : Proc) (frame : TrapFrame) : Syscall → Proc.StepKind → Prop
  | .yield, kind => kind = .schedule
  | .exit, kind => kind = .die false ∨ kind = .lifecycle ∨ kind = .schedule
  | .ipcCall, kind => kind = .schedule ∨ ∃ busy, kind = .call busy ∧
      (busy = true → ∃ tid, p.current = some tid ∧ p.CallsBusy tid frame.rdi)
  | .ipcRecv, kind => kind = .recv ∨ kind = .timeout ∨ kind = .schedule
  | .ipcReply, kind => kind = .reply
  | .capDerive, kind => kind = .derive
  | .taskSpawn, kind => kind = .spawn
  | .wait, kind => kind = .lifecycle ∨ kind = .schedule
  | .inputRead, kind => kind = .input ∨ kind = .schedule
  | .sleep, kind => kind = .schedule
  | .kill, kind => kind = .lifecycle ∨ ∃ reading, kind = .die reading ∧
      (reading = true → p.KillsReader frame.rdi)
  | .blockRead, kind => kind = .disk
  | .blockWrite, kind => kind = .disk
  | _, _ => False

/-- The abstract steps that an action may consist of. -/
def Action.MayDo (p : Proc) : Action → Proc.StepKind → Prop
  | .syscall frame _, kind => ∃ call, Syscall.ofNum frame.rax = some call ∧ call.MayDo p frame kind
  | .timer _, kind => kind = .timeout ∨ kind = .schedule
  | .fault _ _, kind => kind = .die false ∨ kind = .lifecycle ∨ kind = .schedule
  | .scancode _, kind => kind = .input
  | .store _ _, _ => False

end Redoubt.Kernel
