import Redoubt.Kernel.ProcessStep

/-!
# The history of exits

What the history knows about terminations and waits.  As long as no task
terminates twice, a zombie's code is the status of its termination, and every
wait on record was answered to the spawner, once, with that status.
-/

namespace Redoubt.Kernel

open Redoubt.Foundation

/-- The terminations on record, oldest first: task and status. -/
def deaths (trace : List Event) : List (Nat × Nat) :=
  trace.filterMap fun event =>
    match event with
    | .terminated tid code => some (tid, code)
    | _ => none

/-- The children whose status a wait has returned, oldest first. -/
def collected (trace : List Event) : List Nat :=
  trace.filterMap fun event =>
    match event with
    | .waited _ child _ => some child
    | _ => none

/-- Status of a task's first termination. -/
def firstStatus (tid : Nat) (trace : List Event) : Option Nat :=
  (deaths trace).lookup tid

/-- No task has terminated twice. -/
def OneDeath (trace : List Event) : Prop := ((deaths trace).map Prod.fst).Nodup

section Trace

variable {before events trace : List Event} {tid code : Nat}

theorem deaths_append : deaths (before ++ events) = deaths before ++ deaths events :=
  List.filterMap_append

theorem collected_append : collected (before ++ events) = collected before ++ collected events :=
  List.filterMap_append

theorem mem_deaths : (tid, code) ∈ deaths trace ↔ .terminated tid code ∈ trace := by
  unfold deaths
  rw [List.mem_filterMap]
  constructor
  · rintro ⟨event, hmem, hevent⟩
    cases event <;> simp_all
  · exact fun h => ⟨_, h, rfl⟩

theorem mem_collected {child : Nat} :
    child ∈ collected trace ↔ ∃ parent code, .waited parent child code ∈ trace := by
  unfold collected
  rw [List.mem_filterMap]
  constructor
  · rintro ⟨event, hmem, hevent⟩
    cases event <;> simp_all
    exact ⟨_, _, hmem⟩
  · rintro ⟨parent, code, h⟩
    exact ⟨_, h, rfl⟩

theorem firstStatus_append : firstStatus tid (before ++ events) =
    (firstStatus tid before).or (firstStatus tid events) := by
  rw [firstStatus, deaths_append, List.lookup_append]
  rfl

/-- A status on record stays the first one. -/
theorem firstStatus_of_append (h : firstStatus tid before = some code) :
    firstStatus tid (before ++ events) = some code := by
  rw [firstStatus_append, h, Option.some_or]

theorem firstStatus_eq_none (h : ∀ code, .terminated tid code ∉ trace) :
    firstStatus tid trace = none := by
  refine List.lookup_eq_none_iff.2 fun death hmem => ?_
  have hne : tid ≠ death.1 := by
    rintro rfl
    exact h death.2 (mem_deaths.1 hmem)
  simpa using hne

theorem OneDeath.of_append (h : OneDeath (before ++ events)) : OneDeath before := by
  rw [OneDeath, deaths_append, List.map_append] at h
  exact h.of_append_left

/-- Who terminates while nobody terminates twice had not terminated before. -/
theorem OneDeath.fresh (h : OneDeath (before ++ [.terminated tid code])) (old : Nat) :
    .terminated tid old ∉ before := by
  intro hmem
  rw [OneDeath, deaths_append, List.map_append] at h
  have hdisjoint := (List.nodup_append.1 h).2.2
  exact hdisjoint tid (List.mem_map.2 ⟨_, mem_deaths.2 hmem, rfl⟩) tid (by simp [deaths]) rfl

end Trace

namespace Proc

variable {p q r : Proc} {kind : StepKind} {tid : Nat}

/-! ## What a step leaves of parents and zombies -/

/-- Every task was there before, under the same parent or by now without one,
and a zombie was a zombie with the same code. -/
def Inherits (p q : Proc) : Prop :=
  ∀ tid view, q.task tid = some view → ∃ old, p.task tid = some old ∧
    (view.parent = old.parent ∨ view.parent = none) ∧
    ∀ code, view.state = .zombie code → old.state = .zombie code

theorem Inherits.of_task (htask : q.task = p.task) : Inherits p q :=
  fun _ view h => ⟨view, htask ▸ h, .inl rfl, fun _ => id⟩

theorem Inherits.trans (hpq : Inherits p q) (hqr : Inherits q r) : Inherits p r := by
  intro tid view hview
  obtain ⟨mid, hmid, hparent, hzombie⟩ := hqr tid view hview
  obtain ⟨old, hold, hparent', hzombie'⟩ := hpq tid mid hmid
  refine ⟨old, hold, ?_, fun code h => hzombie' code (hzombie code h)⟩
  rcases hparent with h | h
  · exact h ▸ hparent'
  · exact .inr h

theorem Inherits.setTask {change : TaskView → TaskView}
    (htask : q.task = (p.setTask tid change).task)
    (hparent : ∀ view, (change view).parent = view.parent)
    (hzombie : ∀ view code, (change view).state = .zombie code → view.state = .zombie code) :
    Inherits p q := by
  intro other view hview
  rw [htask, setTask_task] at hview
  split_ifs at hview with heq
  · obtain ⟨old, hold, rfl⟩ := Option.map_eq_some_iff.1 hview
    exact ⟨old, hold, .inl (hparent old), hzombie old⟩
  · exact ⟨view, hview, .inl rfl, fun _ => id⟩

theorem Inherits.setState (tid : Nat) (new : TaskState) (htask : q.task = (p.setState tid new).task)
    (halive : new.isZombie = false) : Inherits p q := by
  refine Inherits.setTask htask (fun _ => rfl) fun view code h => ?_
  obtain rfl : new = .zombie code := h
  cases halive

theorem Inherits.remove (tid : Nat) (htask : q.task = (p.remove tid).task) : Inherits p q := by
  intro other view hview
  rw [htask, remove_task] at hview
  split_ifs at hview
  exact ⟨view, hview, .inl rfl, fun _ => id⟩

/-- What a step does to parents, zombies and the history of exits. -/
inductive ExitStep (p q : Proc) : Prop where
  | quiet (events : List Event) (trace : q.trace = p.trace ++ events)
      (noDeath : deaths events = []) (noWait : collected events = [])
      (next : q.nextTid = p.nextTid) (inherits : Inherits p q)
  | entered (view : TaskView) (fresh : view.state = .ready) (eq : q = p.enter view)
  | died (tid code : Nat) (found : (p.task tid).isSome) (eq : q = p.died tid code)
  | told (parent tid code : Nat) (view : TaskView) (found : p.task tid = some view)
      (exited : view.state = .zombie code) (child : view.parent = some parent)
      (trace : q.trace = p.trace ++ [.waited parent tid code]) (next : q.nextTid = p.nextTid)
      (inherits : Inherits p q) (gone : q.task tid = none)

theorem ExitStep.plain (events : List Event) (trace : q.trace = p.trace ++ events)
    (next : q.nextTid = p.nextTid) (inherits : Inherits p q)
    (noDeath : deaths events = [] := by rfl) (noWait : collected events = [] := by rfl) :
    ExitStep p q :=
  .quiet events trace noDeath noWait next inherits

/-- A change of one state that nobody but IPC hears of. -/
theorem ExitStep.state (tid : Nat) (new : TaskState) (events : List Event)
    (htask : q.task = (p.setState tid new).task) (halive : new.isZombie = false)
    (trace : q.trace = p.trace ++ events) (next : q.nextTid = p.nextTid)
    (noDeath : deaths events = [] := by rfl) (noWait : collected events = [] := by rfl) :
    ExitStep p q :=
  .quiet events trace noDeath noWait next (.setState tid new htask halive)

theorem Step.exitStep (step : Step kind p q) : ExitStep p q := by
  have hsilent : p.trace = p.trace ++ [] := (List.append_nil _).symm
  cases step with
  | resume tid => exact .state tid .running [] rfl rfl hsilent rfl
  | forget => exact .plain [] hsilent rfl (.of_task rfl)
  | preempt tid => exact .state tid .ready [] rfl rfl hsilent rfl
  | parkSleep tid wakeAt => exact .state tid (.blockedSleep wakeAt) [] rfl rfl hsilent rfl
  | parkWait tid => exact .state tid .blockedWait [] rfl rfl hsilent rfl
  | parkInput waiter => exact .state waiter.tid .blockedInput [] rfl rfl hsilent rfl
  | callDirect tid index receiver =>
      have hwoken : Inherits p (p.wake receiver) := .setState receiver .ready rfl rfl
      exact .plain _ rfl rfl (hwoken.trans (.setState tid (.blockedCall index) rfl rfl))
  | callQueue tid index => exact .state tid (.blockedSend index) _ rfl rfl rfl rfl
  | recvQueue _ index caller => exact .state caller (.blockedCall index) _ rfl rfl rfl rfl
  | recvPark tid index deadline =>
      exact .state tid (.blockedRecv index deadline) [] rfl rfl hsilent rfl
  | recvPoll => exact .plain _ rfl rfl (.of_task rfl)
  | expireRecv tid => exact .state tid .ready _ rfl rfl rfl rfl
  | expireSleep tid => exact .state tid .ready [] rfl rfl hsilent rfl
  | reply _ _ caller => exact .state caller .ready _ rfl rfl rfl rfl
  | spawn view fresh => exact .entered view fresh rfl
  | die tid code found => exact .died tid code found rfl
  | abortAt => exact .plain [] hsilent rfl (.of_task rfl)
  | abortWake _ _ caller => exact .state caller .ready _ rfl rfl rfl rfl
  | finishDeliver tid parent code view _ _ found exited child =>
      have hwoken : Inherits p (p.wake parent) := .setState parent .ready rfl rfl
      exact .told parent tid code view found exited child rfl rfl
        (hwoken.trans (.remove tid rfl)) (by simp)
  | finishLinger => exact .plain [] hsilent rfl (.of_task rfl)
  | finishOrphan tid => exact .plain [] hsilent rfl (.remove tid rfl)
  | collect tid child code view _ _ found exited parent =>
      exact .told tid child code view found exited parent rfl rfl (.remove child rfl)
        (by simp)
  | serveInput waiter => exact .state waiter.tid .ready [] rfl rfl hsilent rfl
  | serveStale => exact .plain [] hsilent rfl (.of_task rfl)
  | derive =>
      exact .plain [] hsilent rfl (.setTask rfl (fun _ => rfl) fun _ _ => id)
  | transfer => exact .plain _ rfl rfl (.of_task rfl)

/-! ## The invariant -/

/-- Spawners, codes and answered waits agree with the history. -/
structure ExitInv (p : Proc) : Prop where
  child : ∀ tid view parent, p.task tid = some view → view.parent = some parent →
    .spawned (some parent) tid ∈ p.trace
  status : ∀ tid view code, p.task tid = some view → view.state = .zombie code →
    firstStatus tid p.trace = some code
  answered : ∀ parent tid code, .waited parent tid code ∈ p.trace →
    .spawned (some parent) tid ∈ p.trace ∧ firstStatus tid p.trace = some code
  gone : ∀ tid ∈ collected p.trace, p.task tid = none ∧ tid < p.nextTid
  once : (collected p.trace).Nodup

/-- What the history knows stays known while it grows. -/
theorem ExitInv.inherit (h : p.ExitInv) {events : List Event}
    (htrace : q.trace = p.trace ++ events) (hinherits : Inherits p q) :
    (∀ tid view parent, q.task tid = some view → view.parent = some parent →
      .spawned (some parent) tid ∈ q.trace) ∧
    (∀ tid view code, q.task tid = some view → view.state = .zombie code →
      firstStatus tid q.trace = some code) ∧
    (∀ parent tid code, .waited parent tid code ∈ p.trace →
      .spawned (some parent) tid ∈ q.trace ∧ firstStatus tid q.trace = some code) ∧
    ∀ tid, p.task tid = none → q.task tid = none := by
  rw [htrace]
  refine ⟨fun tid view parent hview hparent => ?_, fun tid view code hview hstate => ?_,
    fun parent tid code hmem => ?_, fun tid hnone => ?_⟩
  · obtain ⟨old, hold, hsame | hnone, -⟩ := hinherits tid view hview
    · exact List.mem_append_left _ (h.child tid old parent hold (hsame ▸ hparent))
    · rw [hnone] at hparent
      cases hparent
  · obtain ⟨old, hold, -, hzombie⟩ := hinherits tid view hview
    exact firstStatus_of_append (h.status tid old code hold (hzombie code hstate))
  · obtain ⟨hspawned, hstatus⟩ := h.answered parent tid code hmem
    exact ⟨List.mem_append_left _ hspawned, firstStatus_of_append hstatus⟩
  · cases hq : q.task tid with
    | none => rfl
    | some view =>
        obtain ⟨old, hold, -⟩ := hinherits tid view hq
        rw [hnone] at hold
        cases hold

theorem ExitInv.quiet (h : p.ExitInv) {events : List Event}
    (htrace : q.trace = p.trace ++ events) (hwait : collected events = [])
    (hnext : q.nextTid = p.nextTid) (hinherits : Inherits p q) : q.ExitInv := by
  obtain ⟨hchild, hstatus, hanswered, hgone⟩ := h.inherit htrace hinherits
  have hcollected : collected q.trace = collected p.trace := by
    rw [htrace, collected_append, hwait, List.append_nil]
  refine ⟨hchild, hstatus, fun parent tid code hmem => ?_, fun tid hmem => ?_,
    hcollected ▸ h.once⟩
  · rw [htrace] at hmem
    rcases List.mem_append.1 hmem with hold | hnew
    · exact hanswered parent tid code hold
    · have := mem_collected.2 ⟨parent, code, hnew⟩
      rw [hwait] at this
      cases this
  · obtain ⟨hnone, hlt⟩ := h.gone tid (hcollected ▸ hmem)
    exact ⟨hgone tid hnone, hnext ▸ hlt⟩

theorem ExitInv.told (h : p.ExitInv) (hinv : p.Inv) {parent code : Nat} {view : TaskView}
    (found : p.task tid = some view) (exited : view.state = .zombie code)
    (child : view.parent = some parent)
    (htrace : q.trace = p.trace ++ [.waited parent tid code]) (hnext : q.nextTid = p.nextTid)
    (hinherits : Inherits p q) (gone : q.task tid = none) : q.ExitInv := by
  obtain ⟨hchild, hstatus, hanswered, hgone⟩ := h.inherit htrace hinherits
  have hcollected : collected q.trace = collected p.trace ++ [tid] := by
    rw [htrace, collected_append]
    rfl
  have hfresh : tid ∉ collected p.trace := by
    intro hmem
    have hnone := (h.gone tid hmem).1
    rw [found] at hnone
    cases hnone
  refine ⟨hchild, hstatus, fun other kid status hmem => ?_, fun other hmem => ?_, ?_⟩
  · rw [htrace] at hmem
    rcases List.mem_append.1 hmem with hold | hnew
    · exact hanswered other kid status hold
    · obtain ⟨rfl, rfl, rfl⟩ : other = parent ∧ kid = tid ∧ status = code := by simpa using hnew
      rw [htrace]
      exact ⟨List.mem_append_left _ (h.child kid view other found child),
        firstStatus_of_append (h.status kid view status found exited)⟩
  · rw [hcollected] at hmem
    rcases List.mem_append.1 hmem with hold | hnew
    · obtain ⟨hnone, hlt⟩ := h.gone other hold
      exact ⟨hgone other hnone, hnext ▸ hlt⟩
    · obtain rfl := List.mem_singleton.1 hnew
      exact ⟨gone, hnext ▸ (hinv.table.bounded other (by simp [found])).2⟩
  · rw [hcollected]
    exact List.nodup_append.2 ⟨h.once, List.nodup_singleton tid, by
      rintro a ha _ hb rfl
      exact hfresh (List.mem_singleton.1 hb ▸ ha)⟩

theorem ExitInv.entered (h : p.ExitInv) {view : TaskView} (fresh : view.state = .ready) :
    (p.enter view).ExitInv := by
  have hcollected : collected (p.enter view).trace = collected p.trace := by
    rw [enter_trace, collected_append]
    exact List.append_nil _
  refine ⟨fun tid found parent hfound hparent => ?_, fun tid found code hfound hstate => ?_,
    fun parent tid code hmem => ?_, fun tid hmem => ?_, hcollected ▸ h.once⟩
  · rw [enter_task] at hfound
    split_ifs at hfound with heq
    · cases hfound
      rw [enter_trace, hparent, heq]
      exact List.mem_append_right _ (List.mem_singleton.2 rfl)
    · exact List.mem_append_left _ (h.child tid found parent hfound hparent)
  · rw [enter_task] at hfound
    split_ifs at hfound with heq
    · cases hfound
      rw [fresh] at hstate
      cases hstate
    · exact firstStatus_of_append (h.status tid found code hfound hstate)
  · rcases List.mem_append.1 hmem with hold | hnew
    · obtain ⟨hspawned, hstatus⟩ := h.answered parent tid code hold
      exact ⟨List.mem_append_left _ hspawned, firstStatus_of_append hstatus⟩
    · simp at hnew
  · obtain ⟨hnone, hlt⟩ := h.gone tid (hcollected ▸ hmem)
    refine ⟨?_, Nat.lt_succ_of_lt hlt⟩
    rw [enter_task, if_neg (Nat.ne_of_lt hlt)]
    exact hnone

/-- Who was left by a death is as before, except for the dead task itself. -/
theorem dieTask_inherits {code : Nat} {other : Nat} {view : TaskView}
    (hview : p.dieTask tid code other = some view) : ∃ old, p.task other = some old ∧
      (view.parent = old.parent ∨ view.parent = none) ∧
      ∀ status, view.state = .zombie status →
        old.state = .zombie status ∧ other ≠ tid ∨ other = tid ∧ status = code := by
  cases hold : p.task other with
  | none => simp [dieTask, hold] at hview
  | some old =>
      refine ⟨old, rfl, ?_⟩
      simp only [dieTask, hold] at hview
      by_cases heq : other = tid
      · simp only [heq, if_true] at hview
        grind [TaskState.isZombie]
      · simp only [heq, if_false] at hview
        grind

theorem ExitInv.died (h : p.ExitInv) {code : Nat}
    (hone : OneDeath (p.trace ++ [.terminated tid code])) : (p.died tid code).ExitInv := by
  have hcollected : collected (p.died tid code).trace = collected p.trace := by
    rw [died_trace, collected_append]
    exact List.append_nil _
  refine ⟨fun other view parent hview hparent => ?_, fun other view status hview hstate => ?_,
    fun parent other status hmem => ?_, fun other hmem => ?_, hcollected ▸ h.once⟩
  · obtain ⟨old, hold, hsame | hnone, -⟩ := dieTask_inherits hview
    · exact List.mem_append_left _ (h.child other old parent hold (hsame ▸ hparent))
    · rw [hnone] at hparent
      cases hparent
  · obtain ⟨old, hold, -, hzombie⟩ := dieTask_inherits hview
    rcases hzombie status hstate with ⟨hbefore, -⟩ | ⟨rfl, rfl⟩
    · exact firstStatus_of_append (h.status other old status hold hbefore)
    · rw [died_trace, firstStatus_append, firstStatus_eq_none hone.fresh]
      simp [firstStatus, deaths]
  · rcases List.mem_append.1 hmem with hold | hnew
    · obtain ⟨hspawned, hstatus⟩ := h.answered parent other status hold
      exact ⟨List.mem_append_left _ hspawned, firstStatus_of_append hstatus⟩
    · simp at hnew
  · obtain ⟨hnone, hlt⟩ := h.gone other (hcollected ▸ hmem)
    exact ⟨by simp [dieTask, hnone], hlt⟩

/-- Every step keeps the history of exits honest, as long as nobody dies twice. -/
theorem ExitInv.step (h : OneDeath p.trace → p.ExitInv) (hinv : p.Inv) (step : Step kind p q)
    (hone : OneDeath q.trace) : q.ExitInv := by
  cases step.exitStep with
  | quiet _ trace _ noWait next inherits =>
      exact (h (trace ▸ hone).of_append).quiet trace noWait next inherits
  | entered _ fresh eq =>
      subst eq
      exact (h (OneDeath.of_append hone)).entered fresh
  | died _ _ _ eq =>
      subst eq
      exact (h (OneDeath.of_append hone)).died hone
  | told _ _ _ _ found exited child trace next inherits gone =>
      exact (h (trace ▸ hone).of_append).told hinv found exited child trace next inherits gone

/-! ## Leaving a wait -/

/-- A task parked in wait stays parked, dies, or is told about a child. -/
theorem Step.leaves_wait (hinv : p.Inv) (step : Step kind p q)
    (hparked : p.state? tid = some .blockedWait) :
    q.state? tid = some .blockedWait ∨ q.Dead tid ∨
      ∃ child code, q.trace = p.trace ++ [.waited tid child code] := by
  -- everybody else's state may change
  have hother : ∀ {other : Nat} {old new : TaskState} {r : Proc},
      r.task = (p.setState other new).task → p.state? other = some old → old ≠ .blockedWait →
      r.state? tid = some .blockedWait := by
    intro other old new r htask hold hne
    have heq : tid ≠ other := by
      rintro rfl
      exact hne (Option.some.inj (hold.symm.trans hparked))
    have hr : r.state? tid = (p.setState other new).state? tid := by simp only [state?, htask]
    rw [hr, state?_setState, if_neg heq]
    exact hparked
  have hcurrent : ∀ {other : Nat} {new : TaskState} {r : Proc}, p.current = some other →
      r.task = (p.setState other new).task → r.state? tid = some .blockedWait :=
    fun onCpu htask => hother htask (hinv.running_of_current onCpu) (by simp)
  cases step with
  | resume _ _ _ runnable => exact .inl (hother rfl runnable (by simp))
  | forget => exact .inl hparked
  | preempt _ onCpu => exact .inl (hcurrent onCpu rfl)
  | parkSleep _ _ onCpu => exact .inl (hcurrent onCpu rfl)
  | parkWait _ onCpu => exact .inl (hcurrent onCpu rfl)
  | parkInput _ _ onCpu => exact .inl (hcurrent onCpu rfl)
  | callDirect other _ receiver _ _ _ _ onCpu _ parked =>
      have hwoken : (p.wake receiver).state? tid = some .blockedWait := hother rfl parked (by simp)
      have hne : tid ≠ other := by
        rintro rfl
        cases hparked.symm.trans (hinv.running_of_current onCpu)
      left
      rw [state?_emit, state?_setEndpoint, state?_park, if_neg hne]
      exact hwoken
  | callQueue _ _ _ _ onCpu => exact .inl (hcurrent onCpu rfl)
  | recvQueue _ index caller endpoint _ _ _ calm _ found _ queued =>
      rcases hinv.ipc.pending index endpoint caller found (by simp [queued]) with hsend | hdying
      · exact .inl (hother rfl hsend (by simp))
      · rw [calm] at hdying
        cases hdying
  | recvPark _ _ _ _ onCpu => exact .inl (hcurrent onCpu rfl)
  | recvPoll => exact .inl hparked
  | expireRecv _ _ _ parked => exact .inl (hother rfl parked (by simp))
  | expireSleep _ _ parked => exact .inl (hother rfl parked (by simp))
  | reply _ _ _ _ _ _ calm _ found _ answered =>
      exact .inl (hother rfl (hinv.waiting_of_active found answered (by simp [calm])) (by simp))
  | spawn =>
      have hne : tid ≠ p.nextTid := by
        have hsome : p.task tid ≠ none := by
          rw [Ne, ← state?_eq_none, hparked]
          simp
        exact Nat.ne_of_lt (hinv.table.bounded tid hsome).2
      left
      rw [state?, enter_task, if_neg hne]
      exact hparked
  | die other code found =>
      by_cases heq : tid = other
      · exact .inr (.inl ⟨code, by simp [heq]⟩)
      · exact .inl ((state?_died_iff hinv.tree found rfl).2 ⟨heq, hparked⟩)
  | abortAt => exact .inl hparked
  | abortWake _ _ _ _ dying found stranded =>
      exact .inl (hother rfl (hinv.waiting_of_stranded dying found stranded).2.2 (by simp))
  | finishDeliver child parent code _ _ _ found exited =>
      by_cases heq : tid = parent
      · exact .inr (.inr ⟨child, code, by simp [heq]⟩)
      · have hne : tid ≠ child := by
          rintro rfl
          simp [state?, found, exited] at hparked
        left
        have hwake : (p.wake parent).state? tid = some .blockedWait := by
          rw [state?_wake, if_neg heq]
          exact hparked
        change (((p.wake parent).remove child).state? tid) = _
        rw [state?_remove, if_neg hne]
        exact hwake
  | finishLinger => exact .inl hparked
  | finishOrphan child _ dying =>
      obtain ⟨dead, hdead, hzombie⟩ := hinv.dyingZombie child dying
      have hne : tid ≠ child := by
        rintro rfl
        simp [state?, hdead] at hparked
        simp [hparked, TaskState.isZombie] at hzombie
      left
      change (p.remove child).state? tid = _
      rw [state?_remove, if_neg hne]
      exact hparked
  | collect _ child _ _ _ _ found exited =>
      have hne : tid ≠ child := by
        rintro rfl
        simp [state?, found, exited] at hparked
      left
      rw [state?_emit, state?_remove, if_neg hne]
      exact hparked
  | serveInput _ _ _ parked => exact .inl (hother rfl parked (by simp))
  | serveStale => exact .inl hparked
  | derive => exact .inl (by rwa [state?_fillSlot])
  | transfer => exact .inl hparked

/-- The same along a chain of steps. -/
theorem Steps.leaves_wait {kinds : StepKind → Prop} (hinv : p.Inv) (steps : Steps kinds p q)
    (hparked : p.state? tid = some .blockedWait) : ∃ events, q.trace = p.trace ++ events ∧
      (q.state? tid = some .blockedWait ∨ q.Dead tid ∨
        ∃ child code, .waited tid child code ∈ events) := by
  refine (hinv.steps_rule (I := fun q => ∃ events, q.trace = p.trace ++ events ∧
    (q.state? tid = some .blockedWait ∨ q.Dead tid ∨
      ∃ child code, .waited tid child code ∈ events)) ?_
    ⟨[], (List.append_nil _).symm, .inl hparked⟩ steps).2
  rintro kind mid last - hmid ⟨events, htrace, hcase⟩ hstep
  obtain ⟨more, hmore, -⟩ := hstep.emits
  refine ⟨events ++ more, by rw [hmore, htrace, List.append_assoc], ?_⟩
  rcases hcase with hwait | hdead | ⟨child, code, hmem⟩
  · rcases hstep.leaves_wait hmid hwait with hwait | hdead | ⟨child, code, heq⟩
    · exact .inl hwait
    · exact .inr (.inl hdead)
    · have hsame : more = [.waited tid child code] := List.append_cancel_left (hmore.symm.trans heq)
      exact .inr (.inr ⟨child, code, by simp [hsame]⟩)
  · exact .inr (.inl (hdead.step hstep))
  · exact .inr (.inr ⟨child, code, List.mem_append_left _ hmem⟩)

end Proc

end Redoubt.Kernel
