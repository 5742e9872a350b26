import Redoubt.Kernel.ProcessModel

/-!
# The process invariant

The facts about tasks, queues and endpoints that every abstract step keeps.
They are grouped by the part of the kernel they belong to; a group's proof may
use the others.
-/

namespace Redoubt.Kernel

open Redoubt.Foundation

/-- Parked in some blocking call. -/
def TaskState.isParked : TaskState → Bool
  | .ready => false
  | .running => false
  | .zombie _ => false
  | _ => true

namespace Proc

/-! ## Lookups after an update -/

section Lookups

variable {p : Proc} {tid other : Nat} {state : TaskState}

@[grind =]
theorem state?_setState : (p.setState tid state).state? other =
    if other = tid then (p.state? other).map (fun _ => state) else p.state? other := by
  unfold state?
  by_cases h : other = tid <;> simp [h, Function.comp_def]

/-- A task found in a state after an update was put there or was there before. -/
theorem state?_setState_cases {found : TaskState}
    (h : (p.setState tid state).state? other = some found) :
    other = tid ∧ found = state ∨ other ≠ tid ∧ p.state? other = some found := by
  rw [state?_setState] at h
  split_ifs at h with heq
  · obtain ⟨-, -, rfl⟩ := Option.map_eq_some_iff.1 h
    exact .inl ⟨heq, rfl⟩
  · exact .inr ⟨heq, h⟩

@[grind =]
theorem state?_wake : (p.wake tid).state? other =
    if other = tid then (p.state? other).map (fun _ => .ready) else p.state? other :=
  state?_setState

@[grind =]
theorem state?_park : (p.park tid state).state? other =
    if other = tid then (p.state? other).map (fun _ => state) else p.state? other :=
  state?_setState

@[grind =]
theorem state?_remove : (p.remove tid).state? other =
    if other = tid then none else p.state? other := by
  unfold state?
  by_cases h : other = tid <;> simp [h]

theorem state?_eq_some : p.state? tid = some state ↔
    ∃ view, p.task tid = some view ∧ view.state = state := by
  simp [state?]

theorem state?_eq_none : p.state? tid = none ↔ p.task tid = none := by
  simp [state?]

@[simp, grind =]
theorem state?_setEndpoint {index : Nat} {endpoint : Endpoint} :
    (p.setEndpoint index endpoint).state? other = p.state? other := rfl

@[simp, grind =]
theorem state?_emit {events : List Event} : (p.emit events).state? other = p.state? other := rfl

@[simp, grind =]
theorem state?_fillSlot {slot : Nat} {cap : Cap} :
    (p.fillSlot tid slot cap).state? other = p.state? other := by
  unfold state?
  by_cases h : other = tid <;> simp [h, Function.comp_def]

theorem live_iff : p.Live tid ↔ ∃ state, p.state? tid = some state ∧ state.isZombie = false := by
  simp [Live, state?]

end Lookups

/-! ## Agreement on a class of states -/

/-- Both tables have the same tasks, and a task is in a state of the kept class
in one of them exactly when it is in that state in the other. -/
structure Agree (keep : TaskState → Bool) (p q : Proc) : Prop where
  present : ∀ tid, q.task tid = none ↔ p.task tid = none
  kept : ∀ tid state, keep state = true → (q.state? tid = some state ↔ p.state? tid = some state)

section Agreement

variable {keep : TaskState → Bool} {p q r : Proc} {tid : Nat} {old new : TaskState}

theorem Agree.trans (hpq : Agree keep p q) (hqr : Agree keep q r) : Agree keep p r :=
  ⟨fun tid => (hqr.present tid).trans (hpq.present tid),
    fun tid state hkeep => (hqr.kept tid state hkeep).trans (hpq.kept tid state hkeep)⟩

/-- A change between two states outside the class is not noticed. -/
theorem Agree.setState (htask : q.task = (p.setState tid new).task)
    (hold : p.state? tid = some old) (houtOld : keep old = false)
    (houtNew : keep new = false) : Agree keep p q := by
  refine ⟨fun other => ?_, fun other state hkeep => ?_⟩
  · by_cases h : other = tid <;> simp [htask, h]
  · have hq : q.state? other = (p.setState tid new).state? other := by simp only [state?, htask]
    rw [hq, state?_setState]
    grind

theorem Agree.of_task (htask : q.task = p.task) : Agree keep p q := by
  refine ⟨fun other => by rw [htask], fun other state _ => ?_⟩
  simp only [state?, htask]

theorem Agree.fillSlot {slot : Nat} {cap : Cap} : Agree keep p (p.fillSlot tid slot cap) := by
  refine ⟨fun other => ?_, fun other state _ => by rw [state?_fillSlot]⟩
  by_cases h : other = tid <;> simp [h]

theorem Agree.live (hzombie : ∀ code, keep (.zombie code) = true) (ha : Agree keep p q) :
    q.Live tid ↔ p.Live tid := by
  have hnone := ha.present tid
  have hkept := fun code => ha.kept tid (.zombie code) (hzombie code)
  simp only [← state?_eq_none] at hnone
  rw [live_iff, live_iff]
  cases hq : q.state? tid with
  | none => simp [hnone.1 hq]
  | some stateq =>
      cases hp : p.state? tid with
      | none => simp [hnone.2 hp] at hq
      | some statep =>
          rw [hp, hq] at hkept
          cases stateq <;> cases statep <;> simp_all [TaskState.isZombie]

end Agreement

/-! ## The table and the dead -/

/-- Ids are handed out once, and the history knows who has terminated. -/
structure TableInv (p : Proc) : Prop where
  positive : 0 < p.nextTid
  bounded : ∀ tid, p.task tid ≠ none → 0 < tid ∧ tid < p.nextTid
  deadBounded : ∀ tid, p.Dead tid → tid < p.nextTid
  deadGone : ∀ tid state, p.Dead tid → p.state? tid = some state → state.isZombie = true
  zombieDead : ∀ tid state, p.state? tid = some state → state.isZombie = true → p.Dead tid

/-! ## The scheduler -/

/-- The CPU and the ready queue agree with the task states. -/
structure SchedInv (p : Proc) : Prop where
  running : ∀ tid, p.current = some tid ↔ p.state? tid = some .running
  queued : ∀ tid, p.state? tid = some .ready → p.ready.count tid = 1
  stale : ∀ tid ∈ p.ready, p.state? tid = some .ready ∨ p.Dead tid

/-! ## IPC -/

/-- The endpoints agree with the task states.  While a task is being unwound the
endpoints may still mention it. -/
structure IpcInv (p : Proc) : Prop where
  paired : ∀ (index : Nat) (endpoint : Endpoint), p.endpoints[index]? = some endpoint →
    endpoint.activeCaller.isSome = endpoint.activeServer.isSome
  active : ∀ (index : Nat) (endpoint : Endpoint) caller,
    p.endpoints[index]? = some endpoint → endpoint.activeCaller = some caller →
    p.state? caller = some (.blockedCall index) ∨ p.dying = some caller
  served : ∀ (index : Nat) (endpoint : Endpoint) server,
    p.endpoints[index]? = some endpoint → endpoint.activeServer = some server →
    p.Live server ∨ p.dying = some server
  distinct : ∀ (index : Nat) (endpoint : Endpoint), p.endpoints[index]? = some endpoint →
    (endpoint.pendingCallers.map Prod.fst).Nodup
  pending : ∀ (index : Nat) (endpoint : Endpoint) caller,
    p.endpoints[index]? = some endpoint → caller ∈ endpoint.pendingCallers.map Prod.fst →
    p.state? caller = some (.blockedSend index) ∨ p.dying = some caller
  sending : ∀ (index caller : Nat), p.state? caller = some (.blockedSend index) →
    ∃ endpoint, p.endpoints[index]? = some endpoint ∧
      caller ∈ endpoint.pendingCallers.map Prod.fst
  rendezvous : ∀ (index : Nat) (endpoint : Endpoint) receiver deadline,
    p.endpoints[index]? = some endpoint →
    p.state? receiver = some (.blockedRecv index deadline) → endpoint.pendingCallers = []

/-- Every endpoint capability names an endpoint. -/
def CapInv (p : Proc) : Prop :=
  ∀ tid view slot index rights, p.task tid = some view →
    view.caps.cap? slot = some (.endpoint index rights) → index < p.endpoints.length

/-! ## The process tree -/

/-- Parents are alive, dead children are visible to a parent that is not parked
in wait, and a parent parked in wait has only living children. -/
structure TreeInv (p : Proc) : Prop where
  older : ∀ tid view parent, p.task tid = some view → view.parent = some parent → parent < tid
  parentLive : ∀ tid view parent, p.task tid = some view → view.parent = some parent →
    p.Live parent
  zombieSeen : ∀ tid view, p.task tid = some view → view.state.isZombie = true →
    p.dying ≠ some tid →
    ∃ parent, view.parent = some parent ∧ p.state? parent ≠ some .blockedWait
  waitingChild : ∀ tid, p.state? tid = some .blockedWait →
    ∃ child view, p.task child = some view ∧ view.parent = some tid
  waitingLive : ∀ tid child view, p.state? tid = some .blockedWait →
    p.task child = some view → view.parent = some tid → view.state.isZombie = true →
    p.dying = some child

/-! ## Keyboard readers -/

/-- Every parked reader is registered once; a registered reader is parked or
has terminated. -/
structure InputInv (p : Proc) : Prop where
  once : (p.waiters.map Waiter.tid).Nodup
  parkedOrDead : ∀ waiter ∈ p.waiters,
    p.state? waiter.tid = some .blockedInput ∨ p.Dead waiter.tid
  registered : ∀ tid, p.state? tid = some .blockedInput →
    ∃ waiter ∈ p.waiters, waiter.tid = tid
  space : ∀ waiter ∈ p.waiters, ∀ view, p.task waiter.tid = some view → view.cr3 = waiter.cr3

/-! ## All groups together -/

structure Inv (p : Proc) : Prop where
  table : p.TableInv
  sched : p.SchedInv
  ipc : p.IpcInv
  caps : p.CapInv
  tree : p.TreeInv
  input : p.InputInv
  /-- Whose termination is under way is still in the table, as a zombie. -/
  dyingZombie : ∀ tid, p.dying = some tid →
    ∃ view, p.task tid = some view ∧ view.state.isZombie = true

end Proc

end Redoubt.Kernel
