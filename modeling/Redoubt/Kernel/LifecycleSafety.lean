import Redoubt.Kernel.ExitHistory
import Redoubt.Kernel.IpcRegisters
import Redoubt.Kernel.RunSafety

/-!
# Parents, children and exit statuses along runs

The process tree in every reachable state, and what a wait returns: to the
spawner, once, the status of the child's first termination, as long as nobody
kills a child that is already dead.
-/

namespace Redoubt.Kernel

open Redoubt.Foundation
open Proc (StepKind Step Steps)

variable {action : Action}

/-! ## The process tree -/

/-- In every reachable state parents are in the table and alive, every zombie
is visible to such a parent that is not parked in wait, and whoever is parked
in wait has children, all of them alive. -/
theorem process_tree {env : BootEnv} {s : Machine} (h : env.Reachable s) :
    (∀ task ∈ s.tasks, ∀ tid, task.parent = some tid →
      ∃ parent ∈ s.tasks, parent.id = tid ∧ parent.state.isZombie = false) ∧
    (∀ task ∈ s.tasks, task.state.isZombie = true →
      ∃ parent ∈ s.tasks, task.parent = some parent.id ∧ parent.state.isZombie = false ∧
        parent.state ≠ .blockedWait) ∧
    ∀ task ∈ s.tasks, task.state = .blockedWait →
      (∃ child ∈ s.tasks, child.parent = some task.id) ∧
        ∀ child ∈ s.tasks, child.parent = some task.id → child.state.isZombie = false := by
  obtain ⟨hids, hinv⟩ := h.sound
  have htree := hinv.tree
  have hview : ∀ task ∈ s.tasks, s.view.task task.id = some task.view := fun task hmem => by
    simp [Machine.view, Machine.findTask_of_mem hids hmem]
  have hparent : ∀ task ∈ s.tasks, ∀ tid, task.parent = some tid →
      ∃ parent ∈ s.tasks, parent.id = tid ∧ parent.state.isZombie = false := by
    intro task hmem tid hp
    obtain ⟨state, hstate, hlive⟩ :=
      Proc.live_iff.1 (htree.parentLive task.id task.view tid (hview task hmem) hp)
    obtain ⟨parent, hparent, hid, rfl⟩ := Machine.mem_of_state?_view hstate
    exact ⟨parent, hparent, hid, hlive⟩
  refine ⟨hparent, fun task hmem hzombie => ?_, fun task hmem hwait => ⟨?_, ?_⟩⟩
  · obtain ⟨tid, hp, hbusy⟩ := htree.zombieSeen task.id task.view (hview task hmem) hzombie
      (show none ≠ some task.id by simp)
    obtain ⟨parent, hmem', rfl, hlive⟩ := hparent task hmem tid hp
    refine ⟨parent, hmem', hp, hlive, fun hwait => hbusy ?_⟩
    rw [← hwait]
    exact Machine.state?_view_of_mem hids hmem'
  · have hparked := Machine.state?_view_of_mem hids hmem
    rw [hwait] at hparked
    obtain ⟨child, view, hchild, hp⟩ := htree.waitingChild task.id hparked
    obtain ⟨kid, hfind, rfl⟩ := Option.map_eq_some_iff.1 hchild
    exact ⟨kid, lookup_mem hfind, hp⟩
  · intro child hchild hp
    have hparked := Machine.state?_view_of_mem hids hmem
    rw [hwait] at hparked
    by_contra hzombie
    have hdying := htree.waitingLive task.id child.id child.view hparked (hview child hchild) hp
      (by simpa using hzombie)
    cases hdying

/-- The console waits for its child. -/
theorem process_tree_sampleEnv : ∃ s, sampleEnv.Reachable s ∧ ∃ task ∈ s.tasks,
    task.state = .blockedWait ∧ (∃ child ∈ s.tasks, child.parent = some task.id) ∧
      ∀ child ∈ s.tasks, child.parent = some task.id → child.state.isZombie = false := by
  obtain ⟨child, hchild, -, -, -, hwait, -⟩ := sampleEnv_child
  obtain ⟨s, hreach, hanswers⟩ := hchild.reachable.runs (fun _ _ _ => trivial) hwait
  have hparked : (s.findTask 1).any (fun task => task.state == .blockedWait) = true := by
    unfold Machine.answersWith at hanswers
    split at hanswers
    · cases hanswers
    · have hother : Action.isSyscall .wait (request 2 7 0 0 0) = false := by decide
      simp only [hother, Bool.false_and, Bool.false_or, Bool.and_eq_true] at hanswers
      exact hanswers.1.1.1
  obtain ⟨task, hfind, hstate⟩ := (Option.any_eq_true _ _).1 hparked
  have hmem := lookup_mem hfind
  exact ⟨s, hreach, task, hmem, beq_iff_eq.1 hstate,
    (process_tree hreach).2.2 task hmem (beq_iff_eq.1 hstate)⟩

/-! ## The events of a termination -/

namespace Machine

variable {s next : Machine} {tid code : Nat} {frame : TrapFrame}

theorem failStranded_trace (caller : Nat) : ∃ events,
    (s.failStranded caller).trace = s.trace ++ events ∧
      ∀ event ∈ events, ∃ index caller, event = .peerDied index caller := by
  unfold failStranded
  split
  · exact ⟨[], (List.append_nil _).symm, nofun⟩
  · split
    · exact ⟨[.peerDied _ caller], rfl, fun event hmem => ⟨_, _, List.mem_singleton.1 hmem⟩⟩
    · exact ⟨[], (List.append_nil _).symm, nofun⟩

theorem abortIpc_trace (tid : Nat) : ∃ events,
    (s.abortIpcForExitingTask tid).trace = s.trace ++ events ∧
      ∀ event ∈ events, ∃ index caller, event = .peerDied index caller := by
  -- over the stranded callers, from any machine with the same history
  have hfold : ∀ (stranded : List Nat) (m : Machine), ∃ events,
      (stranded.foldl failStranded m).trace = m.trace ++ events ∧
        ∀ event ∈ events, ∃ index caller, event = .peerDied index caller := by
    intro stranded
    induction stranded with
    | nil => exact fun m => ⟨[], (List.append_nil _).symm, nofun⟩
    | cons caller _ ih =>
        intro m
        obtain ⟨first, hfirst, honly⟩ := failStranded_trace (s := m) caller
        obtain ⟨events, hevents, honly'⟩ := ih (m.failStranded caller)
        refine ⟨first ++ events, ?_, fun event hmem => ?_⟩
        · rw [List.foldl_cons, hevents, hfirst, List.append_assoc]
        · exact (List.mem_append.1 hmem).elim (honly event) (honly' event)
  exact hfold _ _

theorem scheduleReap_frame? {other : Nat} (hne : other ≠ tid) :
    (s.scheduleReap tid).frame? other = s.frame? other := by
  unfold scheduleReap
  split
  · rfl
  · exact congrArg (Option.map Task.frame) (lookup_filter_ne.trans (if_neg hne))

/-- A termination is recorded once; a parent parked in wait finds the task and
its status in its registers. -/
theorem terminateLifecycle_events (hids : s.Ids) (hinv : s.view.Inv)
    (hfound : (s.findTask tid).isSome) (h : s.terminateLifecycle tid code = .ok next) :
    ∃ events, next.trace = s.trace ++ events ∧ deaths events = [(tid, code)] ∧
      ∀ parent child status, .waited parent child status ∈ events →
        parent ≠ tid ∧ (∃ task, s.findTask parent = some task ∧ task.state = .blockedWait) ∧
        ∃ seen, next.frame? parent = some seen ∧ seen.rax = eOk ∧ seen.rdi = child ∧
          seen.rsi = status := by
  obtain ⟨task, htask⟩ := Option.isSome_iff_exists.1 hfound
  obtain ⟨tasks, reapQueue, hmarked, -⟩ := marked_spec code s.current none hids hfound
  obtain ⟨aborted, haborted, honly⟩ := abortIpc_trace (s := s.marked tid code) tid
  have hwound : (s.wound tid code).trace = s.trace ++ .terminated tid code :: aborted := by
    rw [wound, haborted, hmarked]
    simp
  have hdeaths : deaths aborted = [] := by
    refine List.filterMap_eq_nil_iff.2 fun event hmem => ?_
    obtain ⟨index, caller, rfl⟩ := honly event hmem
    rfl
  have hone : deaths (.terminated tid code :: aborted) = [(tid, code)] :=
    congrArg ((tid, code) :: ·) hdeaths
  have hsilent : ∀ parent child status,
      Event.waited parent child status ∉ .terminated tid code :: aborted := by
    intro parent child status hmem
    rcases List.mem_cons.1 hmem with heq | hmem
    · cases heq
    · obtain ⟨_, _, heq⟩ := honly _ hmem
      cases heq
  have hreaped : ∀ m : Machine, (m.scheduleReap tid).trace = m.trace := fun m => by
    unfold scheduleReap
    split <;> rfl
  rw [terminateLifecycle_eq] at h
  cases hparent : task.parent with
  | none =>
      rw [markZombie_fate_orphan htask hparent] at h
      cases h
      exact ⟨_, (hreaped _).trans hwound, hone, fun _ _ _ hmem => (hsilent _ _ _ hmem).elim⟩
  | some parent =>
      have hview : s.view.task tid = some task.view := by simp [view, htask]
      have hne : parent ≠ tid := by
        have := hinv.tree.older tid task.view parent hview hparent
        omega
      obtain ⟨parentView, hparentView, -⟩ := hinv.tree.parentLive tid task.view parent hview hparent
      obtain ⟨parentTask, hparentTask, rfl⟩ := Option.map_eq_some_iff.1 hparentView
      rw [markZombie_fate hids htask hparent hne hparentTask] at h
      split_ifs at h with hwait
      · dsimp only at h
        unfold deliverExit at h
        split at h
        · cases h
        · rename_i told htold
          cases h
          refine ⟨.terminated tid code :: aborted ++ [.waited parent tid code], ?_, ?_, ?_⟩
          · rw [hreaped]
            change (s.wound tid code).trace ++ [_] = _
            rw [hwound, List.append_assoc]
          · rw [deaths_append, hone]
            rfl
          · intro other child status hmem
            rcases List.mem_append.1 hmem with hmem | hmem
            · exact (hsilent _ _ _ hmem).elim
            obtain ⟨rfl, rfl, rfl⟩ : other = parent ∧ child = tid ∧ status = code := by
              simpa using hmem
            refine ⟨hne, ⟨parentTask, hparentTask, hwait⟩,
              { told.frame with rax := eOk, rdi := child, rsi := status }, ?_, rfl, rfl, rfl⟩
            rw [scheduleReap_frame? hne]
            exact frame?_wakeWith (s := s.wound child status) _ (by rw [frame?, htold]; rfl)
      · cases h
        exact ⟨_, hwound, hone, fun _ _ _ hmem => (hsilent _ _ _ hmem).elim⟩

/-! ## The events of one step -/

/-- The terminations that an action causes: an exit with its argument, a fault
with 0x100 above its vector, a kill of a child with 0x200. -/
def terminations (s : Machine) : Action → List (Nat × Nat)
  | .syscall frame _ =>
      match Syscall.ofNum frame.rax, s.current with
      | some .exit, some tid => [(tid, frame.rdi)]
      | some .kill, some tid =>
          if frame.rdi ≠ tid ∧ s.tasks.any fun task => task.id == frame.rdi && task.parent == some tid
          then [(frame.rdi, killCode)] else []
      | _, _ => []
  | .fault vector _ =>
      match s.current with
      | some tid => [(tid, 0x100 + vector)]
      | none => []
  | _ => []

/-- What one step adds to the history of exits. -/
structure ExitEvents (s : Machine) (action : Action) (next : Machine) (events : List Event) :
    Prop where
  trace : next.trace = s.trace ++ events
  deaths : deaths events = s.terminations action
  /-- Whom a wait answers finds the child and the status in its registers. -/
  told : ∀ parent child status, .waited parent child status ∈ events →
    ∃ seen, next.frame? parent = some seen ∧ seen.rax = eOk ∧ seen.rdi = child ∧ seen.rsi = status
  /-- A wait that returns at once is on record. -/
  returned : ∀ tid seen, action.isSyscall .wait = true → s.current = some tid →
    next.frame? tid = some seen → seen.rax = eOk → .waited tid seen.rdi seen.rsi ∈ events

/-- A step that neither terminates a task nor answers a wait. -/
theorem ExitEvents.quiet {events : List Event}
    (htrace : next.trace = s.trace ++ events) (hnone : s.terminations action = [])
    (hwait : action.isSyscall .wait = false)
    (hquiet : ∀ event ∈ events, ∃ kind, event.MadeBy kind ∧ kind ≠ .lifecycle ∧
      ∀ reading, kind ≠ .die reading) : ExitEvents s action next events := by
  refine ⟨htrace, ?_, fun parent child status hmem => ?_, fun tid seen hcall => ?_⟩
  · rw [hnone]
    refine List.filterMap_eq_nil_iff.2 fun event hmem => ?_
    obtain ⟨kind, hmade, -, hdie⟩ := hquiet event hmem
    cases event with
    | terminated =>
        cases kind with
        | die reading => exact absurd rfl (hdie reading)
        | _ => exact hmade.elim
    | _ => rfl
  · obtain ⟨kind, hmade, hlifecycle, -⟩ := hquiet _ hmem
    cases kind with
    | lifecycle => exact absurd rfl hlifecycle
    | _ => exact hmade.elim
  · rw [hwait] at hcall
    cases hcall

theorem exitTask_events (hids : s.Ids) (hinv : s.view.Inv) (hcurrent : s.current = some tid)
    (h : s.exitTask tid code = .ok next) :
    ∃ events, next.trace = s.trace ++ events ∧ Redoubt.Kernel.deaths events = [(tid, code)] ∧
      ∀ parent child status, .waited parent child status ∈ events → ∃ seen,
        next.frame? parent = some seen ∧ seen.rax = eOk ∧ seen.rdi = child ∧ seen.rsi = status := by
  unfold exitTask at h
  cases hdone : s.terminateLifecycle tid code with
  | error =>
      rw [hdone] at h
      cases h
  | ok after =>
      rw [hdone] at h
      have hswitched : Switched after next := switchAway_switched h
      obtain ⟨events, htrace, hdeaths, htold⟩ :=
        terminateLifecycle_events hids hinv (findTask_isSome_of_current hinv hcurrent) hdone
      refine ⟨events, hswitched.trace.trans htrace, hdeaths, fun parent child status hmem => ?_⟩
      obtain ⟨-, -, seen, hseen, hrest⟩ := htold parent child status hmem
      exact ⟨seen, (hswitched.frame? parent).trans hseen, hrest⟩

/-- A kill terminates a child and tells nobody: its parent is the caller. -/
theorem sysKill_events {victim : Nat} (hids : s.Ids) (hinv : s.view.Inv)
    (hcurrent : s.current = some tid) (h : s.sysKill tid victim = .ok next) :
    ∃ events, next.trace = s.trace ++ events ∧
      Redoubt.Kernel.deaths events =
        (if victim ≠ tid ∧ s.tasks.any fun task => task.id == victim && task.parent == some tid
          then [(victim, killCode)] else []) ∧
      ∀ parent child status, .waited parent child status ∈ events → ∃ seen,
        next.frame? parent = some seen ∧ seen.rax = eOk ∧ seen.rdi = child ∧ seen.rsi = status := by
  unfold sysKill at h
  by_cases hself : victim = tid
  · rw [if_pos hself] at h
    cases h
    exact ⟨[], (List.append_nil _).symm, by simp [hself, deaths], nofun⟩
  rw [if_neg hself] at h
  by_cases hchild : (s.tasks.any fun task => task.id == victim && task.parent == some tid) = true
  · rw [if_neg (not_not.2 hchild)] at h
    obtain ⟨task, hmem, htask⟩ := List.any_eq_true.1 hchild
    simp only [Bool.and_eq_true, beq_iff_eq] at htask
    obtain ⟨rfl, hparent⟩ := htask
    cases hdone : s.terminateLifecycle task.id killCode with
    | error =>
        rw [hdone] at h
        cases h
    | ok =>
        rw [hdone] at h
        cases h
        have hfind := findTask_of_mem hids hmem
        obtain ⟨events, htrace, hdeaths, htold⟩ :=
          terminateLifecycle_events hids hinv (Option.isSome_iff_exists.2 ⟨task, hfind⟩) hdone
        refine ⟨events, htrace, by rw [hdeaths, if_pos ⟨hself, hchild⟩], ?_⟩
        intro parent child status hmem
        obtain ⟨-, ⟨waiting, hwaiting, hstate⟩, seen, hseen, hrest⟩ := htold parent child status hmem
        -- the caller runs, so it is not the one that is told
        have hne : parent ≠ tid := by
          rintro rfl
          have hrun := hinv.running_of_current hcurrent
          rw [view, state?_viewAs, hwaiting, Option.map_some, hstate] at hrun
          cases hrun
        refine ⟨seen, ?_, hrest⟩
        rw [← hseen, setRax, frame?,
          findTask_modifyTask (Task.setFrame fun frame => { frame with rax := eOk }) parent
            fun _ => rfl, if_neg hne]
        rfl
  · rw [if_pos hchild] at h
    cases h
    refine ⟨[], (List.append_nil _).symm, ?_, nofun⟩
    rw [if_neg fun hboth => hchild hboth.2]
    rfl

/-- A wait is answered on record, or its result is not the one of success. -/
theorem sysWait_events {flags : Nat} (hids : s.Ids) (hinv : s.view.Inv)
    (hframe : s.frame? tid = some frame)
    (hrax : frame.rax ≠ eOk) (h : s.sysWait tid flags = .ok next) :
    (∃ child status seen, next.trace = s.trace ++ [.waited tid child status] ∧
      next.frame? tid = some seen ∧ seen.rax = eOk ∧ seen.rdi = child ∧ seen.rsi = status) ∨
    next.trace = s.trace ∧ ∀ seen, next.frame? tid = some seen → seen.rax ≠ eOk := by
  unfold sysWait at h
  split at h
  · rename_i child hchild
    have hfound := List.find?_some hchild
    have hmem := List.mem_filter.1 (List.mem_of_find?_eq_some hchild)
    have hparent : child.parent = some tid := by simpa using hmem.2
    have hfind := findTask_of_mem hids hmem.1
    have hne : tid ≠ child.id := by
      have := hinv.tree.older child.id child.view tid (by simp [view, hfind]) hparent
      omega
    obtain ⟨code, hcode⟩ : ∃ code, child.state = .zombie code := by
      cases hstate : child.state <;> simp_all [TaskState.isZombie]
    simp only [reapZombie, hfind, hcode] at h
    cases hreclaim : reclaim s.vm child.resources with
    | error =>
        rw [hreclaim] at h
        cases h
    | ok vm =>
        rw [hreclaim] at h
        cases h
        let reaped : Machine :=
          { s with vm := vm, tasks := s.tasks.eraseP fun task => task.id == child.id }
        have hreaped : reaped.frame? tid = some frame := by
          rw [← hframe]
          refine congrArg (Option.map Task.frame) ?_
          change Redoubt.Foundation.lookup Task.id tid (s.tasks.eraseP _) = _
          rw [eraseP_eq_filter hids]
          exact lookup_filter_ne.trans (if_neg hne)
        refine .inl ⟨child.id, code, { frame with rax := eOk, rdi := child.id, rsi := code },
          rfl, ?_, rfl, rfl, rfl⟩
        exact frame?_setFrame (s := reaped) _ hreaped
  · refine .inr ?_
    have hcode : ∀ code, code ≠ eOk → next = s.setRax tid code →
        next.trace = s.trace ∧ ∀ seen, next.frame? tid = some seen → seen.rax ≠ eOk := by
      rintro code hne rfl
      refine ⟨rfl, fun seen hseen => ?_⟩
      have hset := frame?_setFrame (fun frame => { frame with rax := code }) hframe
      obtain rfl := Option.some.inj (hseen.symm.trans hset)
      exact hne
    split_ifs at h
    · cases h
      exact hcode eWouldBlock (by decide) rfl
    · have hswitched : Switched s next := block_switched h
      refine ⟨hswitched.trace, fun seen hseen => ?_⟩
      rw [hswitched.frame? tid, hframe] at hseen
      cases hseen
      exact hrax
    · cases h
      exact hcode eNoChildren (by decide) rfl

end Machine

/-- Of the system calls only exit, kill and wait terminate or answer. -/
theorem Syscall.MayDo.keepsAll {p : Proc} {frame : TrapFrame} {call : Syscall} {kind : StepKind}
    (h : call.MayDo p frame kind) (hexit : call ≠ .exit) (hkill : call ≠ .kill)
    (hwait : call ≠ .wait) : kind ≠ .lifecycle ∧ ∀ reading, kind ≠ .die reading := by
  cases call with
  | exit => exact absurd rfl hexit
  | kill => exact absurd rfl hkill
  | wait => exact absurd rfl hwait
  | ipcCall =>
      obtain rfl | ⟨busy, rfl, -⟩ := h
      all_goals exact ⟨nofun, nofun⟩
  | ipcRecv =>
      obtain rfl | rfl | rfl := h
      all_goals exact ⟨nofun, nofun⟩
  | inputRead =>
      obtain rfl | rfl := h
      all_goals exact ⟨nofun, nofun⟩
  | debugWrite => exact h.elim
  | ticks => exact h.elim
  | setName => exact h.elim
  | stats => exact h.elim
  | reboot => exact h.elim
  | _ =>
      obtain rfl := h
      exact ⟨nofun, nofun⟩

namespace Machine

variable {s next : Machine} {tid code : Nat} {frame : TrapFrame}

theorem any_child_iff (hids : s.Ids) {victim : Nat} :
    (s.tasks.any fun task => task.id == victim && task.parent == some tid) = true ↔
      ∃ view, s.view.task victim = some view ∧ view.parent = some tid := by
  rw [List.any_eq_true]
  constructor
  · rintro ⟨task, hmem, htask⟩
    simp only [Bool.and_eq_true, beq_iff_eq] at htask
    obtain ⟨rfl, hparent⟩ := htask
    exact ⟨task.view, by simp [view, findTask_of_mem hids hmem], hparent⟩
  · rintro ⟨view, hview, hparent⟩
    obtain ⟨task, hfind, rfl⟩ := Option.map_eq_some_iff.1 hview
    have hparent : task.parent = some tid := hparent
    exact ⟨task, lookup_mem hfind, by simp [lookup_key hfind, hparent]⟩

/-- The trap itself changes nobody's parent. -/
theorem trapped_any_child {vm : Vm} {victim : Nat} (hids : s.Ids) :
    ((s.trapped frame vm).tasks.any fun task => task.id == victim && task.parent == some tid) =
      s.tasks.any fun task => task.id == victim && task.parent == some tid := by
  rw [Bool.eq_iff_iff, any_child_iff (ids_trapped hids), any_child_iff hids, trapped_view]

/-- What every step adds to the history of exits. -/
theorem Sound.exitEvents (hsound : s.Sound) (h : s.step action = .ok next) :
    ∃ events, ExitEvents s action next events := by
  obtain ⟨events, htrace, hmade⟩ := (hsound.step h).2.emits
  cases action with
  | syscall frame device =>
      cases hcurrent : s.current with
      | none =>
          obtain ⟨vm, hdispatch⟩ := syscall_dispatch h
          simp only [dispatch, trapped_current, hcurrent] at hdispatch
          cases hdispatch
          refine ⟨[], by simp, ?_, by simp, by simp [hcurrent]⟩
          simp only [terminations, hcurrent]
          split <;> simp_all [Redoubt.Kernel.deaths]
      | some tid =>
          cases hcall : Syscall.ofNum frame.rax with
          | none =>
              refine ⟨events, .quiet htrace (by simp [terminations, hcall])
                (by simp [Action.isSyscall, hcall]) fun event hmem => ?_⟩
              obtain ⟨kind, ⟨call, hcall', -⟩, -⟩ := hmade event hmem
              rw [hcall] at hcall'
              cases hcall'
          | some call =>
              obtain ⟨vm, hperform⟩ := syscall_perform h hcurrent hcall
              have hids : (s.trapped frame vm).Ids := ids_trapped hsound.ids
              have hinv : (s.trapped frame vm).view.Inv := by
                rw [trapped_view]
                exact hsound.inv
              have hcpu : (s.trapped frame vm).current = some tid := trapped_current.trans hcurrent
              by_cases hexit : call = .exit
              · subst hexit
                obtain ⟨events, htrace, hdeaths, htold⟩ := exitTask_events hids hinv hcpu hperform
                refine ⟨events, by rw [htrace, trapped_trace], ?_, htold, ?_⟩
                · rw [hdeaths]
                  simp [terminations, hcall, hcurrent]
                · simp [Action.isSyscall, hcall]
              by_cases hkill : call = .kill
              · subst hkill
                obtain ⟨events, htrace, hdeaths, htold⟩ := sysKill_events hids hinv hcpu hperform
                refine ⟨events, by rw [htrace, trapped_trace], ?_, htold, ?_⟩
                · rw [hdeaths, trapped_any_child hsound.ids]
                  simp [terminations, hcall, hcurrent]
                · simp [Action.isSyscall, hcall]
              by_cases hwait : call = .wait
              · subst hwait
                have hframe : (s.trapped frame vm).frame? tid = some frame :=
                  trapped_frame? hcurrent (findTask_isSome_of_current hsound.inv hcurrent)
                have hrax : frame.rax ≠ eOk := by
                  intro h0
                  rw [h0] at hcall
                  cases hcall
                have hnone : s.terminations (.syscall frame device) = [] := by
                  simp [terminations, hcall]
                rcases sysWait_events hids hinv hframe hrax hperform with
                  ⟨child, status, seen, htrace, hseen, hok, hrdi, hrsi⟩ | ⟨htrace, hrefused⟩
                · refine ⟨[.waited tid child status], by rw [htrace, trapped_trace], hnone.symm,
                    ?_, ?_⟩
                  · intro parent kid result hmem
                    obtain ⟨rfl, rfl, rfl⟩ : parent = tid ∧ kid = child ∧ result = status := by
                      simpa using hmem
                    exact ⟨seen, hseen, hok, hrdi, hrsi⟩
                  · intro other found _ hother hfound hok'
                    obtain rfl := Option.some.inj (hcurrent.symm.trans hother)
                    obtain rfl := Option.some.inj (hseen.symm.trans hfound)
                    simp [hrdi, hrsi]
                · refine ⟨[], by rw [htrace, trapped_trace, List.append_nil], hnone.symm, by simp, ?_⟩
                  intro other found _ hother hfound hok'
                  obtain rfl := Option.some.inj (hcurrent.symm.trans hother)
                  exact absurd hok' (hrefused found hfound)
              refine ⟨events, .quiet htrace ?_ ?_ fun event hmem => ?_⟩
              · simp only [terminations, hcall, hcurrent]
                split <;> simp_all
              · simpa [Action.isSyscall, hcall] using hwait
              · obtain ⟨kind, ⟨call', hcall', hmay⟩, hkind⟩ := hmade event hmem
                rw [hcall] at hcall'
                cases hcall'
                exact ⟨kind, hkind, hmay.keepsAll hexit hkill hwait⟩
  | timer =>
      refine ⟨events, .quiet htrace rfl rfl fun event hmem => ?_⟩
      obtain ⟨kind, rfl | rfl, hkind⟩ := hmade event hmem
      all_goals exact ⟨_, hkind, by simp, by simp⟩
  | fault vector frame =>
      change s.handleUserFault vector frame = _ at h
      unfold handleUserFault at h
      split_ifs at h
      cases hcurrent : s.current with
      | none =>
          rw [hcurrent] at h
          cases h
      | some =>
          rw [hcurrent] at h
          obtain ⟨events, htrace, hdeaths, htold⟩ := exitTask_events (ids_saveFrame hsound.ids)
            (by rw [saveFrame_view]; exact hsound.inv) (saveFrame_current.trans hcurrent) h
          have hsaved : (s.saveFrame frame).trace = s.trace := congrArg Proc.trace saveFrame_view
          refine ⟨events, by rw [htrace, hsaved], ?_, htold, by simp [Action.isSyscall]⟩
          rw [hdeaths]
          simp [terminations, hcurrent]
  | scancode =>
      refine ⟨events, .quiet htrace rfl rfl fun event hmem => ?_⟩
      obtain ⟨kind, rfl, hkind⟩ := hmade event hmem
      exact ⟨_, hkind, by simp, by simp⟩
  | store =>
      refine ⟨events, .quiet htrace rfl rfl fun event hmem => ?_⟩
      obtain ⟨kind, hnone, -⟩ := hmade event hmem
      exact hnone.elim

/-! ## Nobody dies twice -/

/-- No kill that names a child of the caller which is already dead. -/
def SparesZombies (s : Machine) : Action → Prop
  | .syscall frame _ => Syscall.ofNum frame.rax = some .kill →
      ∀ task parent, s.findTask frame.rdi = some task → task.parent = some parent →
        s.current = some parent → task.state.isZombie = false
  | _ => True

theorem terminations_nodup (action : Action) : ((s.terminations action).map Prod.fst).Nodup := by
  unfold terminations
  split
  · split
    · exact List.nodup_singleton _
    · split_ifs
      · exact List.nodup_singleton _
      · exact List.nodup_nil
    · exact List.nodup_nil
  · split
    · exact List.nodup_singleton _
    · exact List.nodup_nil
  · exact List.nodup_nil

/-- Whoever terminates in a step that spares zombies was alive before. -/
theorem Sound.dies_once (hsound : s.Sound) (hspares : s.SparesZombies action)
    (hmem : (tid, code) ∈ s.terminations action) : ¬ s.view.Dead tid := by
  intro hdead
  have hgone := hsound.inv.table.deadGone tid
  have hrunning : s.current ≠ some tid := fun hcurrent => by
    cases hgone _ hdead (hsound.inv.running_of_current hcurrent)
  cases action with
  | syscall frame =>
      simp only [terminations] at hmem
      split at hmem
      · rename_i current _ hcurrent
        obtain ⟨rfl, -⟩ : tid = current ∧ code = frame.rdi := by simpa using hmem
        exact hrunning hcurrent
      · rename_i current hcall hcurrent
        split_ifs at hmem with hkill
        · obtain ⟨rfl, -⟩ : tid = frame.rdi ∧ code = killCode := by simpa using hmem
          obtain ⟨view, hview, hparent⟩ := (any_child_iff hsound.ids).1 hkill.2
          obtain ⟨task, hfind, rfl⟩ := Option.map_eq_some_iff.1 hview
          have hzombie := hgone task.state hdead (by simp [Proc.state?, hview])
          rw [hspares hcall task current hfind hparent hcurrent] at hzombie
          cases hzombie
        · cases hmem
      · cases hmem
  | fault vector =>
      simp only [terminations] at hmem
      split at hmem
      · rename_i current hcurrent
        obtain ⟨rfl, -⟩ : tid = current ∧ code = 0x100 + vector := by simpa using hmem
        exact hrunning hcurrent
      · cases hmem
  | timer => cases hmem
  | scancode => cases hmem
  | store => cases hmem

/-- A step that spares zombies lets nobody die twice. -/
theorem Sound.oneDeath (hsound : s.Sound) (hspares : s.SparesZombies action)
    (h : s.step action = .ok next) (hone : OneDeath s.trace) : OneDeath next.trace := by
  obtain ⟨events, hevents⟩ := hsound.exitEvents h
  rw [OneDeath, hevents.trace, deaths_append, List.map_append, hevents.deaths]
  refine List.nodup_append.2 ⟨hone, terminations_nodup action, ?_⟩
  rintro tid hold _ hnew rfl
  obtain ⟨⟨_, code⟩, hmem, rfl⟩ := List.mem_map.1 hnew
  obtain ⟨⟨_, old⟩, hdeath, rfl⟩ := List.mem_map.1 hold
  exact hsound.dies_once hspares hmem ⟨old, mem_deaths.1 hdeath⟩

end Machine

namespace BootEnv

variable {env : BootEnv} {s : Machine}

theorem boot_oneDeath (h : env.boot = .ok s) : OneDeath s.trace := by
  obtain ⟨vm, -, hsteps⟩ := boot_steps h
  obtain ⟨events, htrace, hmade⟩ := hsteps.emits
  have hnone : deaths s.trace = [] := by
    refine List.filterMap_eq_nil_iff.2 fun event hmem => ?_
    obtain ⟨kind, hkind, hevent⟩ := hmade event (by rwa [show s.trace = events from htrace] at hmem)
    cases event with
    | terminated =>
        obtain rfl | rfl := hkind
        all_goals exact hevent.elim
    | _ => rfl
  rw [OneDeath, hnone]
  exact List.nodup_nil

theorem Reaches.exits (h : env.Reaches Machine.SparesZombies s) :
    OneDeath s.trace ∧ s.view.ExitInv := by
  have hone : s.Sound ∧ OneDeath s.trace := by
    refine Reached.invariant (I := fun s => s.Sound ∧ OneDeath s.trace)
      (fun s hboot => ⟨boot_sound hboot, boot_oneDeath hboot⟩) ?_ h
    exact fun s action next hs hspares hstep =>
      ⟨(hs.1.step hstep).1, hs.1.oneDeath hspares hstep hs.2⟩
  have hexit : OneDeath s.view.trace → s.view.ExitInv := by
    refine Reaches.process_invariant (I := fun p => OneDeath p.trace → p.ExitInv) (fun _ => True)
      trivial trivial (fun _ _ _ _ _ => trivial) ?_ ?_ h
    · exact fun vm _ => ⟨nofun, nofun, nofun, nofun, List.nodup_nil⟩
    · exact fun kind p q _ hinv hp hstep => Proc.ExitInv.step hp hinv hstep
  exact ⟨hone.2, hexit hone.2⟩

end BootEnv

/-! ## Exit statuses -/

/-- In this step a wait of `tid` returns with a child and a status: the call
returns at once, or the parked task becomes runnable, with the registers of a
successful wait. -/
def Machine.WaitReturns (s : Machine) (action : Action) (next : Machine)
    (tid child code : Nat) : Prop :=
  (action.isSyscall .wait = true ∧ s.current = some tid ∨
    (∃ task, s.findTask tid = some task ∧ task.state = .blockedWait) ∧
      ∃ task, next.findTask tid = some task ∧ (task.state = .ready ∨ task.state = .running)) ∧
  ∃ seen, next.frame? tid = some seen ∧ seen.rax = eOk ∧ seen.rdi = child ∧ seen.rsi = code

/-- Every return of a wait is on record. -/
theorem Machine.Sound.waitReturns {s next : Machine} {tid child code : Nat}
    (hsound : s.Sound) (h : s.step action = .ok next)
    (hreturns : s.WaitReturns action next tid child code) {events : List Event}
    (hevents : s.ExitEvents action next events) : .waited tid child code ∈ events := by
  obtain ⟨hcase, seen, hseen, hrax, rfl, rfl⟩ := hreturns
  rcases hcase with ⟨hcall, hcurrent⟩ | ⟨⟨task, hfind, hparked⟩, after, hafter, hruns⟩
  · exact hevents.returned tid seen hcall hcurrent hseen hrax
  · obtain ⟨hnext, hsteps⟩ := hsound.step h
    have hwait : s.view.state? tid = some .blockedWait := state?_view_iff.2 ⟨task, hfind, hparked⟩
    have hstate : next.view.state? tid = some after.state := state?_view_iff.2 ⟨after, hafter, rfl⟩
    obtain ⟨more, hmore, hleft⟩ := hsteps.leaves_wait hsound.inv hwait
    have hsame : more = events := List.append_cancel_left (hmore.symm.trans hevents.trace)
    rcases hleft with hstill | hdead | ⟨child, code, hmem⟩
    · rw [hstate] at hstill
      rcases hruns with hruns | hruns <;> simp [hruns] at hstill
    · have hzombie := hnext.inv.table.deadGone tid after.state hdead hstate
      rcases hruns with hruns | hruns <;> simp [hruns, TaskState.isZombie] at hzombie
    · rw [hsame] at hmem
      obtain ⟨told, htold, -, rfl, rfl⟩ := hevents.told tid child code hmem
      obtain rfl := Option.some.inj (htold.symm.trans hseen)
      exact hmem

/-- As long as nobody kills a dead child: the terminations of a step are those
its exit, fault or kill causes, and a wait that returns a child and a status
does so to the spawner, for the first time, with the status of the child's
first termination. -/
theorem exit_status_integrity {env : BootEnv} {s next : Machine} {action : Action}
    (h : env.Reaches Machine.SparesZombies s) (hspares : s.SparesZombies action)
    (hstep : s.step action = .ok next) :
    deaths next.trace = deaths s.trace ++ s.terminations action ∧
    ∀ tid child code, s.WaitReturns action next tid child code →
      .spawned (some tid) child ∈ next.trace ∧
      (∀ other old, .waited other child old ∉ s.trace) ∧ .waited tid child code ∈ next.trace ∧
      firstStatus child next.trace = some code := by
  obtain ⟨events, hevents⟩ := h.sound.exitEvents hstep
  refine ⟨by rw [hevents.trace, deaths_append, hevents.deaths], fun tid child code hreturns => ?_⟩
  have hnext : env.Reaches Machine.SparesZombies next := .next h hspares hstep
  obtain ⟨-, hexit⟩ := hnext.exits
  have hmem := h.sound.waitReturns hstep hreturns hevents
  have hwaited : .waited tid child code ∈ next.trace := by
    rw [hevents.trace]
    exact List.mem_append_right _ hmem
  obtain ⟨hspawned, hstatus⟩ := hexit.answered tid child code hwaited
  refine ⟨hspawned, fun other old hold => ?_, hwaited, hstatus⟩
  -- a second answer would put the child twice among the collected ones
  have honce : (collected next.trace).Nodup := hexit.once
  rw [hevents.trace, collected_append] at honce
  exact (List.nodup_append.1 honce).2.2 child (mem_collected.2 ⟨other, old, hold⟩) child
    (mem_collected.2 ⟨tid, code, hmem⟩) rfl

theorem Machine.waitReturns_of_answersWith {s : Machine}
    {tid child code status : Nat} (h : s.answersWith action tid child code status = true) :
    ∃ next, s.step action = .ok next ∧ s.WaitReturns action next tid child code ∧
      firstStatus child next.trace = some status := by
  unfold answersWith at h
  split at h
  · cases h
  · rename_i next hstep
    simp only [Bool.and_eq_true, Bool.or_eq_true, beq_iff_eq, Option.any_eq_true] at h
    obtain ⟨⟨hcase, seen, hseen, ⟨hrax, hrdi⟩, hrsi⟩, hstatus⟩ := h
    exact ⟨next, hstep, ⟨hcase, seen, hseen, hrax, hrdi, hrsi⟩, hstatus⟩

/-- The console spawns a child and waits; the child exits with 7. -/
theorem exit_status_integrity_sampleEnv : ∃ s action next,
    sampleEnv.Reaches Machine.SparesZombies s ∧ s.step action = .ok next ∧
      s.WaitReturns action next 1 3 7 ∧ .spawned (some 1) 3 ∈ next.trace ∧
      firstStatus 3 next.trace = some 7 := by
  have hspares : ∀ s action, (!Action.isSyscall .kill action) = true →
      Machine.SparesZombies s action := by
    intro s action hother
    cases action with
    | syscall =>
        intro hkill
        simp [Action.isSyscall, hkill] at hother
    | _ => trivial
  have hspawn : ∀ s action, Action.isSyscall .taskSpawn action = true →
      Machine.SparesZombies s action := by
    intro s action hother
    cases action with
    | syscall =>
        intro hkill
        simp [Action.isSyscall, hkill] at hother
    | _ => trivial
  obtain ⟨child, hchild, -, -, -, hwait, -⟩ := sampleEnv_child
  obtain ⟨s, hreach, hanswers⟩ := BootEnv.Reaches.runs (hchild.mono hspawn) hspares hwait
  obtain ⟨next, hstep, hreturns, hstatus⟩ := Machine.waitReturns_of_answersWith hanswers
  have hall := exit_status_integrity hreach (hspares s _ rfl) hstep
  exact ⟨s, _, next, hreach, hstep, hreturns, (hall.2 1 3 7 hreturns).1, hstatus⟩

/-- The child exits with 7 while nobody waits, the console kills the zombie and
then waits: it is told 0x200. -/
theorem killed_zombie_status : ∃ s action next, sampleEnv.Reachable s ∧
    s.step action = .ok next ∧ s.WaitReturns action next 1 3 Machine.killCode ∧
      firstStatus 3 next.trace = some 7 := by
  obtain ⟨child, hchild, -, -, -, -, hkilled⟩ := sampleEnv_child
  obtain ⟨s, hreach, hanswers⟩ := hchild.reachable.runs (fun _ _ _ => trivial) hkilled
  obtain ⟨next, hstep, hreturns, hstatus⟩ := Machine.waitReturns_of_answersWith hanswers
  exact ⟨s, _, next, hreach, hstep, hreturns, hstatus⟩

end Redoubt.Kernel
