import Redoubt.Kernel.ExitHistory
import Redoubt.Kernel.IpcRegisters

/-!
# The scheduler and the keyboard along runs

What the invariant says about the machine itself: the CPU and the ready queue
agree with the task states in every reachable state, and the keyboard's waiters
are live readers as long as nobody kills a reader.
-/

namespace Redoubt.Kernel

open Redoubt.Foundation
open Proc (StepKind Step Steps)

/-! ## A small machine

Eight megabytes, a console and a file server whose images are one page each.
-/

/-- A static image of one loadable, executable segment; what is loaded stands behind the
headers. -/
def sampleElf (fileSize : Nat) (tail : List UInt8) : List UInt8 :=
  [0x7f, 0x45, 0x4c, 0x46, 2, 1, 1, 0] ++ toLeBytes 8 0 ++ toLeBytes 2 2 ++ toLeBytes 2 0x3e ++
    toLeBytes 4 1 ++ toLeBytes 8 0x400000 ++ toLeBytes 8 64 ++ toLeBytes 8 0 ++ toLeBytes 4 0 ++
    toLeBytes 2 64 ++ toLeBytes 2 56 ++ toLeBytes 2 1 ++ toLeBytes 6 0 ++
    toLeBytes 4 1 ++ toLeBytes 4 5 ++ toLeBytes 8 120 ++ toLeBytes 8 0x400000 ++ toLeBytes 8 0 ++
    toLeBytes 8 fileSize ++ toLeBytes 8 136 ++ toLeBytes 8 1 ++ tail

/-- The console's image contains the image of a child and one grant entry. -/
def sampleEnv : BootEnv where
  mem := fun _ _ => 0
  frames := FrameAllocator.init [⟨0x100000, 0x800000, true⟩]
  kernelPml4 := 0x1000
  consoleElf := sampleElf 136 (sampleElf 0 (toLeBytes 8 0 ++ toLeBytes 8 1))
  initfsElf := sampleElf 0 []
  primaryDrive := none
  secondaryDrive := some 100
  userCs := 0x23
  userSs := 0x1b

/-- A system call with these registers. -/
def request (rax rdi rsi rdx r10 : Nat) : Action :=
  .syscall { TrapFrame.newUser 0 0 0x23 0x1b with rax, rdi, rsi, rdx, r10 } none

/-- Whether an action is this system call. -/
def Action.isSyscall (call : Syscall) : Action → Bool
  | .syscall frame _ => Syscall.ofNum frame.rax == some call
  | _ => false

set_option maxRecDepth 100000 in
/-- Whether a wait of `tid` returns in this step, seen in the registers, with
the child's first status on record. -/
def Machine.answersWith (s : Machine) (action : Action) (tid child code status : Nat) : Bool :=
  match s.step action with
  | .error _ => false
  | .ok next =>
      (action.isSyscall .wait && s.current == some tid ||
        (s.findTask tid).any (fun task => task.state == .blockedWait) &&
          (next.findTask tid).any fun task => task.state == .ready || task.state == .running) &&
      (next.frame? tid).any (fun seen => seen.rax == eOk && seen.rdi == child && seen.rsi == code) &&
      firstStatus child next.trace == some status

/-- Execute some more actions that pass a test and look at the last state. -/
def Machine.runs (pass : Machine → Action → Bool) (actions : List Action) (check : Machine → Bool)
    (s : Machine) : Bool :=
  (runList Machine.step pass s actions).any check

theorem BootEnv.Reaches.runs {env : BootEnv} {allowed : Machine → Action → Prop}
    {pass : Machine → Action → Bool} {actions : List Action} {check : Machine → Bool} {s : Machine}
    (h : env.Reaches allowed s) (hpass : ∀ s action, pass s action = true → allowed s action)
    (hruns : s.runs pass actions check = true) :
    ∃ last, env.Reaches allowed last ∧ check last = true := by
  obtain ⟨last, hlast, hcheck⟩ := (Option.any_eq_true check _).1 hruns
  exact ⟨last, .of_runList hpass actions h hlast, hcheck⟩

theorem BootEnv.Reaches.reachable {env : BootEnv} {allowed : Machine → Action → Prop} {s : Machine}
    (h : env.Reaches allowed s) : env.Reachable s :=
  h.mono fun _ _ _ => trivial

/-- The keyboard knows a reader that is not parked. -/
def Machine.dangles (s : Machine) : Bool :=
  s.input.waiters.any fun waiter => (s.findTask waiter.tid).all fun task => task.state != .blockedInput

/-- A caller of endpoint 0 stands in no reply slot. -/
def Machine.strands (s : Machine) : Bool :=
  s.tasks.any fun task => task.state == .blockedCall 0 &&
    s.endpoints.all fun endpoint => endpoint.activeCaller != some task.id

/-- The console runs, and task 3 is its child, ready and with a capability. -/
def Machine.hasChild (s : Machine) : Bool :=
  s.current == some 1 && (s.findTask 3).any fun task =>
    task.parent == some 1 && task.state == .ready && (task.caps.cap? 0).isSome

theorem Machine.of_hasChild {s : Machine} (h : s.hasChild = true) : s.current = some 1 ∧ ∃ task cap,
    s.findTask 3 = some task ∧ task.parent = some 1 ∧ task.state = .ready ∧
      task.caps.cap? 0 = some cap := by
  rw [hasChild, Bool.and_eq_true, beq_iff_eq] at h
  obtain ⟨task, hfind, hchild⟩ := (Option.any_eq_true _ _).1 h.2
  rw [Bool.and_eq_true, Bool.and_eq_true, beq_iff_eq, beq_iff_eq] at hchild
  obtain ⟨cap, hcap⟩ := Option.isSome_iff_exists.1 hchild.2
  exact ⟨h.1, task, cap, hfind, hchild.1.1, hchild.1.2, hcap⟩

set_option maxRecDepth 100000 in
/-- The console spawns a child, task 3.  What the two can do next: the child waits for a
key and is killed; the console and the child receive on one endpoint; the console waits
for the child's exit; it kills the child after its exit. -/
theorem sampleEnv_child : ∃ s, sampleEnv.Reaches (fun _ action => action.isSyscall .taskSpawn = true) s ∧
    s.hasChild = true ∧
    s.runs (fun _ _ => true) [request 1 0 0 0 0, request 1 0 0 0 0, request 10 0x400000 1 0 0,
      request 16 3 0 0 0] Machine.dangles = true ∧
    s.runs (fun _ _ => true) [request 5 0 0 0 0, request 1 0 0 0 0, request 5 0 0 0 0, request 4 0 0 0 0,
      request 4 0 0 0 0] Machine.strands = true ∧
    s.runs (fun _ action => !action.isSyscall .kill) [request 9 0 0 0 0, request 1 0 0 0 0]
      (fun s => s.answersWith (request 2 7 0 0 0) 1 3 7 7) = true ∧
    s.runs (fun _ _ => true) [request 1 0 0 0 0, request 1 0 0 0 0, request 2 7 0 0 0, request 16 3 0 0 0]
      (fun s => s.answersWith (request 9 0 0 0 0) 1 3 Machine.killCode 7) = true := by
  have hrun : sampleEnv.ends (fun _ action => action.isSyscall .taskSpawn)
      [request 8 0x400000 136 0x400078 2] (fun s => s.hasChild &&
        (s.runs (fun _ _ => true) [request 1 0 0 0 0, request 1 0 0 0 0, request 10 0x400000 1 0 0,
          request 16 3 0 0 0] Machine.dangles &&
        (s.runs (fun _ _ => true) [request 5 0 0 0 0, request 1 0 0 0 0, request 5 0 0 0 0,
          request 4 0 0 0 0, request 4 0 0 0 0] Machine.strands &&
        (s.runs (fun _ action => !action.isSyscall .kill) [request 9 0 0 0 0, request 1 0 0 0 0]
          (fun s => s.answersWith (request 2 7 0 0 0) 1 3 7 7) &&
        s.runs (fun _ _ => true) [request 1 0 0 0 0, request 1 0 0 0 0, request 2 7 0 0 0,
          request 16 3 0 0 0]
          (fun s => s.answersWith (request 9 0 0 0 0) 1 3 Machine.killCode 7))))) = true := by
    decide +kernel
  obtain ⟨s, hreach, hruns⟩ := BootEnv.reaches_of_ends hrun fun _ _ h => h
  rw [Bool.and_eq_true, Bool.and_eq_true, Bool.and_eq_true, Bool.and_eq_true] at hruns
  exact ⟨s, hreach, hruns⟩

namespace Machine

variable {s : Machine} {tid : Nat}

/-- A task that is gone or a zombie, and whose termination is on record. -/
def Terminated (s : Machine) (tid : Nat) : Prop :=
  (∃ code, .terminated tid code ∈ s.trace) ∧
    ∀ task ∈ s.tasks, task.id = tid → task.state.isZombie = true

theorem state?_view_of_mem (hids : s.Ids) {task : Task} (hmem : task ∈ s.tasks) :
    s.view.state? task.id = some task.state := by
  rw [view, state?_viewAs, findTask_of_mem hids hmem, Option.map_some]

theorem state?_view_iff {state : TaskState} : s.view.state? tid = some state ↔
    ∃ task, s.findTask tid = some task ∧ task.state = state := by
  rw [view, state?_viewAs, Option.map_eq_some_iff]

theorem mem_of_state?_view {state : TaskState} (h : s.view.state? tid = some state) :
    ∃ task ∈ s.tasks, task.id = tid ∧ task.state = state := by
  obtain ⟨task, hfind, hstate⟩ := state?_view_iff.1 h
  exact ⟨task, lookup_mem hfind, lookup_key hfind, hstate⟩

/-- Whose termination is on record has terminated. -/
theorem Sound.terminated (h : s.Sound) (hdead : s.view.Dead tid) : s.Terminated tid := by
  refine ⟨hdead, fun task hmem hid => ?_⟩
  exact h.inv.table.deadGone tid task.state hdead (hid ▸ state?_view_of_mem h.ids hmem)

end Machine

/-! ## The scheduler -/

/-- In every reachable state the current task is the one running task, every
ready task is queued exactly once, what else is queued has terminated, and the
current task is not queued. -/
theorem scheduler_consistent {env : BootEnv} {s : Machine} (h : env.Reachable s) :
    (∀ tid, s.current = some tid ↔ ∃ task ∈ s.tasks, task.id = tid ∧ task.state = .running ∧
      ∀ other ∈ s.tasks, other.state = .running → other = task) ∧
    (∀ task ∈ s.tasks, task.state = .ready → s.ready.count task.id = 1) ∧
    (∀ tid ∈ s.ready, (∃ task ∈ s.tasks, task.id = tid ∧ task.state = .ready) ∨
      s.Terminated tid) ∧
    (∀ tid, s.current = some tid → tid ∉ s.ready) := by
  obtain ⟨hids, hinv⟩ := h.sound
  have hsched := hinv.sched
  have hrunning : ∀ tid, s.current = some tid ↔ s.view.state? tid = some .running := hsched.running
  refine ⟨fun tid => ⟨fun hcurrent => ?_, ?_⟩, ?_, ?_, ?_⟩
  · obtain ⟨task, hmem, rfl, hstate⟩ := Machine.mem_of_state?_view ((hrunning tid).1 hcurrent)
    refine ⟨task, hmem, rfl, hstate, fun other hother hrun => ?_⟩
    -- both run, so both are current, so they have one id
    have hsame := (hrunning other.id).2 (hrun ▸ Machine.state?_view_of_mem hids hother)
    have hid : other.id = task.id := Option.some.inj (hsame.symm.trans hcurrent)
    exact Option.some.inj ((Machine.findTask_of_mem hids hother).symm.trans
      (hid ▸ Machine.findTask_of_mem hids hmem))
  · rintro ⟨task, hmem, rfl, hstate, -⟩
    exact (hrunning task.id).2 (hstate ▸ Machine.state?_view_of_mem hids hmem)
  · intro task hmem hstate
    exact hsched.queued task.id (hstate ▸ Machine.state?_view_of_mem hids hmem)
  · intro tid hqueued
    rcases hsched.stale tid hqueued with hready | hdead
    · exact .inl (Machine.mem_of_state?_view hready)
    · exact .inr (h.sound.terminated hdead)
  · intro tid hcurrent hqueued
    have hrun := (hrunning tid).1 hcurrent
    rcases hsched.stale tid hqueued with hready | hdead
    · cases hrun.symm.trans hready
    · cases hinv.table.deadGone tid .running hdead hrun

/-- The console runs, and its child is queued once. -/
theorem scheduler_consistent_sampleEnv : ∃ s, sampleEnv.Reachable s ∧
    (∃ task ∈ s.tasks, task.id = 1 ∧ task.state = .running) ∧ 1 ∉ s.ready ∧
    ∃ task ∈ s.tasks, task.id = 3 ∧ task.state = .ready ∧ s.ready.count 3 = 1 := by
  obtain ⟨s, hchild, hhas, -⟩ := sampleEnv_child
  obtain ⟨hcurrent, child, cap, hfind, -, hready, -⟩ := Machine.of_hasChild hhas
  obtain ⟨hrunning, hqueued, -, hout⟩ := scheduler_consistent hchild.reachable
  obtain ⟨task, hmem, hid, hstate, -⟩ := (hrunning 1).1 hcurrent
  have hthree : child.id = 3 := lookup_key hfind
  exact ⟨s, hchild.reachable, ⟨task, hmem, hid, hstate⟩, hout 1 hcurrent, child, lookup_mem hfind,
    hthree, hready, hthree ▸ hqueued child (lookup_mem hfind) hready⟩

/-! ## The keyboard -/

namespace Proc

variable {p q : Proc} {kind : StepKind} {tid : Nat}

/-- Only a termination of the task itself records it as dead. -/
theorem Step.dead_before (step : Step kind p q) (hdead : q.Dead tid) :
    p.Dead tid ∨ kind = .die (p.state? tid == some .blockedInput) := by
  obtain ⟨code, hmem⟩ := hdead
  by_cases hdies : ∃ reading, kind = .die reading
  · obtain ⟨reading, rfl⟩ := hdies
    cases step with
    | die other code' =>
        rcases List.mem_append.1 hmem with hold | hnew
        · exact .inl ⟨code, hold⟩
        · obtain ⟨rfl, -⟩ : tid = other ∧ code = code' := by simpa using hnew
          exact .inr rfl
  · obtain ⟨events, heq, hmade⟩ := step.emits
    rw [heq] at hmem
    rcases List.mem_append.1 hmem with hold | hnew
    · exact .inl ⟨code, hold⟩
    · have := hmade _ hnew
      cases kind <;> simp_all [Event.MadeBy]

/-- Only a read of the current task adds a waiter. -/
theorem Step.waiter_before (step : Step kind p q) {waiter : Waiter} (hmem : waiter ∈ q.waiters) :
    waiter ∈ p.waiters ∨ kind = .input ∧ p.current = some waiter.tid := by
  cases step with
  | parkInput _ _ onCpu =>
      rcases List.mem_append.1 hmem with hold | hnew
      · exact .inl hold
      · obtain rfl := List.mem_singleton.1 hnew
        exact .inr ⟨rfl, onCpu⟩
  | serveInput _ _ queued => exact .inl (queued ▸ List.mem_cons_of_mem _ hmem)
  | serveStale _ _ queued => exact .inl (queued ▸ List.mem_cons_of_mem _ hmem)
  | _ => exact .inl hmem

/-- No waiter is dead. -/
def WaitersLive (p : Proc) : Prop := ∀ waiter ∈ p.waiters, ¬ p.Dead waiter.tid

theorem WaitersLive.step (h : p.WaitersLive) (hinv : p.Inv) (hkind : kind ≠ .die true)
    (step : Step kind p q) : q.WaitersLive := by
  intro waiter hmem hdead
  rcases step.waiter_before hmem with hold | ⟨rfl, hcurrent⟩
  · have hparked := (hinv.input.parkedOrDead waiter hold).resolve_right (h waiter hold)
    rcases step.dead_before hdead with hdead | rfl
    · exact h waiter hold hdead
    · exact hkind (by simp [hparked])
  · rcases step.dead_before hdead with hdead | hdies
    · cases hinv.table.deadGone _ _ hdead (hinv.running_of_current hcurrent)
    · cases hdies

end Proc

/-- No kill that hits a child of the caller while it waits for the keyboard. -/
def Machine.SparesReaders (s : Machine) : Action → Prop
  | .syscall frame _ => Syscall.ofNum frame.rax = some .kill →
      ∀ task parent, s.findTask frame.rdi = some task → task.parent = some parent →
        s.current = some parent → task.state ≠ .blockedInput
  | _ => True

theorem Machine.SparesReaders.kind {s : Machine} {action : Action} {kind : StepKind}
    (h : s.SparesReaders action) (hmay : action.MayDo s.view kind) : kind ≠ .die true := by
  rintro rfl
  cases action with
  | syscall =>
      obtain ⟨call, hcall, hdo⟩ := hmay
      cases call <;> simp [Syscall.MayDo] at hdo
      obtain ⟨view, killer, hview, hstate, hparent, hcurrent⟩ := hdo
      obtain ⟨task, hfind, rfl⟩ := Option.map_eq_some_iff.1 hview
      exact h hcall task killer hfind hparent hcurrent hstate
  | timer => simp [Action.MayDo] at hmay
  | fault => simp [Action.MayDo] at hmay
  | scancode => simp [Action.MayDo] at hmay
  | store => exact hmay

/-- As long as no reader is killed, every waiter is a task parked in the read
it registered, in the address space it registered. -/
theorem waiters_live {env : BootEnv} {s : Machine} (h : env.Reaches Machine.SparesReaders s) :
    ∀ waiter ∈ s.input.waiters, ∃ task, s.findTask waiter.tid = some task ∧
      task.state = .blockedInput ∧ task.cr3 = waiter.cr3 := by
  have hlive : s.view.WaitersLive := by
    refine BootEnv.Reaches.process_invariant (fun kind => kind ≠ .die true) nofun nofun
      (fun _ _ _ hspares hmay => hspares.kind hmay) (fun _ => nofun) ?_ h
    exact fun kind p q hkind hinv hp hstep => hp.step hinv hkind hstep
  have hinput := h.sound.inv.input
  intro waiter hmem
  have hparked := (hinput.parkedOrDead waiter hmem).resolve_right (hlive waiter hmem)
  obtain ⟨task, hfind, hstate⟩ := Machine.state?_view_iff.1 hparked
  exact ⟨task, hfind, hstate, hinput.space waiter hmem task.view (by simp [Machine.view, hfind])⟩

set_option maxRecDepth 100000 in
/-- The console reads with an empty queue and is parked. -/
theorem waiters_live_sampleEnv : ∃ s, sampleEnv.Reaches Machine.SparesReaders s ∧
    s.input.waiters ≠ [] ∧ ∀ waiter ∈ s.input.waiters, ∃ task,
      s.findTask waiter.tid = some task ∧ task.state = .blockedInput ∧ task.cr3 = waiter.cr3 := by
  have hrun : sampleEnv.ends (fun _ action => action.isSyscall .inputRead)
      [request 10 0x400000 1 0 0] (fun s => s.input.waiters != []) = true := by
    decide +kernel
  have hspares : ∀ s action, Action.isSyscall .inputRead action = true →
      Machine.SparesReaders s action := by
    intro s action hread
    cases action with
    | syscall =>
        intro hkill
        simp [Action.isSyscall, hkill] at hread
    | _ => cases hread
  obtain ⟨s, hreach, hwaits⟩ := BootEnv.reaches_of_ends hrun hspares
  exact ⟨s, hreach, by simpa using hwaits, waiters_live hreach⟩

/-- The console spawns a child, the child waits for a key, the console kills it:
its waiter stays registered. -/
theorem killed_reader_dangles : ∃ s, sampleEnv.Reachable s ∧ ∃ waiter ∈ s.input.waiters,
    ∀ task, s.findTask waiter.tid = some task → task.state ≠ .blockedInput := by
  obtain ⟨child, hchild, -, hkilled, -⟩ := sampleEnv_child
  obtain ⟨s, hreach, hdangles⟩ := hchild.reachable.runs (fun _ _ _ => trivial) hkilled
  obtain ⟨waiter, hmem, hstate⟩ := List.any_eq_true.1 hdangles
  refine ⟨s, hreach, waiter, hmem, fun task hfind => ?_⟩
  simpa [hfind] using hstate

end Redoubt.Kernel
