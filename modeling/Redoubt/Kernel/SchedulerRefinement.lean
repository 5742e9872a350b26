import Redoubt.Kernel.ProcessStep

/-!
# The scheduler refines the process model

What each kernel operation does to the view of the machine, and that blocking,
yielding, preemption and deadline wake-ups are chains of abstract steps in
which no lookup fails.
-/

namespace Redoubt.Kernel

open Redoubt.Foundation
open Proc (StepKind Step Steps)

namespace Machine

variable {s : Machine} {tid : Nat} {current dying : Option Nat}

/-- Task ids are distinct. -/
def Ids (s : Machine) : Prop := (s.tasks.map Task.id).Nodup

/-! ## Views -/

theorem ids_modifyTask {change : Task → Task} (hid : ∀ task, (change task).id = task.id)
    (h : s.Ids) : (s.modifyTask tid change).Ids := by
  unfold Ids modifyTask Redoubt.Kernel.modifyTask
  rw [map_key_update hid]
  exact h

theorem findTask_modifyTask (change : Task → Task) (other : Nat)
    (hid : ∀ task, (change task).id = task.id) : (s.modifyTask tid change).findTask other =
      if other = tid then (s.findTask other).map change else s.findTask other :=
  lookup_update hid

theorem isSome_findTask_modifyTask (change : Task → Task) {other : Nat}
    (hid : ∀ task, (change task).id = task.id) :
    ((s.modifyTask tid change).findTask other).isSome = (s.findTask other).isSome := by
  rw [findTask_modifyTask change other hid]
  split_ifs <;> simp

theorem viewAs_modifyTask (change : Task → Task) (effect : TaskView → TaskView)
    (hid : ∀ task, (change task).id = task.id)
    (hview : ∀ task, (change task).view = effect task.view) :
    (s.modifyTask tid change).viewAs current dying = (s.viewAs current dying).setTask tid effect := by
  ext1 <;> try rfl
  funext other
  simp only [viewAs_task, Proc.setTask_task, findTask, modifyTask, Redoubt.Kernel.findTask,
    Redoubt.Kernel.modifyTask, lookup_update hid]
  split_ifs
  · simp [Option.map_map, Function.comp_def, hview]
  · rfl

theorem setTask_id {p : Proc} : p.setTask tid id = p := by
  ext1 <;> try rfl
  funext other
  simp

/-- Register images are invisible to the process model. -/
@[simp]
theorem viewAs_setFrame {update : TrapFrame → TrapFrame} :
    (s.modifyTask tid (Task.setFrame update)).viewAs current dying = s.viewAs current dying :=
  (viewAs_modifyTask (Task.setFrame update) id (fun _ => rfl) fun _ => rfl).trans setTask_id

@[simp]
theorem viewAs_setRax {value : Nat} :
    (s.setRax tid value).viewAs current dying = s.viewAs current dying :=
  viewAs_setFrame

@[simp]
theorem viewAs_setState {state : TaskState} :
    (s.modifyTask tid (Task.setState state)).viewAs current dying =
      (s.viewAs current dying).setState tid state :=
  viewAs_modifyTask _ _ (fun _ => rfl) fun _ => rfl

@[simp]
theorem viewAs_wakeWith {update : TrapFrame → TrapFrame} :
    (s.modifyTask tid (Task.wakeWith update)).viewAs current dying =
      (s.viewAs current dying).setState tid .ready :=
  viewAs_modifyTask _ _ (fun _ => rfl) fun _ => rfl

@[simp]
theorem viewAs_emit {event : Event} :
    (s.emit event).viewAs current dying = (s.viewAs current dying).emit [event] := rfl

@[simp]
theorem viewAs_setEndpoint {index : Nat} {endpoint : Endpoint} :
    (s.setEndpoint index endpoint).viewAs current dying =
      (s.viewAs current dying).setEndpoint index endpoint := rfl

@[simp]
theorem viewAs_setCurrent {tid : Option Nat} :
    (s.setCurrent tid).viewAs current dying = s.viewAs current dying := rfl

theorem state?_viewAs : (s.viewAs current dying).state? tid = (s.findTask tid).map Task.state := by
  simp [Proc.state?, Task.view, Function.comp_def]

/-- With distinct ids, a task of the table is what its id finds. -/
theorem findTask_of_mem (hids : s.Ids) {task : Task} (hmem : task ∈ s.tasks) :
    s.findTask task.id = some task :=
  lookup_of_mem hids hmem

/-! ## Outcomes -/

/-- The result of a kernel operation, seen from the process state before it: a
chain of abstract steps, or a stop other than a failed lookup. -/
def Outcome (kinds : StepKind → Prop) (p : Proc) : Except Stop Machine → Prop
  | .ok after => after.Ids ∧ Steps kinds p after.view
  | .error (.lookup _) => False
  | .error _ => True

section Outcomes

variable {kinds : StepKind → Prop} {p q : Proc} {result : Except Stop Machine}

theorem Outcome.same {after : Machine} (hids : after.Ids) (hview : after.view = p) :
    Outcome kinds p (.ok after) :=
  ⟨hids, hview ▸ Relation.ReflTransGen.refl⟩

theorem Outcome.after (steps : Steps kinds p q) (h : Outcome kinds q result) :
    Outcome kinds p result := by
  match result, h with
  | .ok _, ⟨hids, hsteps⟩ => exact ⟨hids, steps.trans hsteps⟩
  | .error (.lookup _), h => exact h
  | .error (.panic _), _ => trivial
  | .error .fatalFault, _ => trivial
  | .error .reboot, _ => trivial

theorem steps_one {kind : StepKind} (hkind : kinds kind) (step : Step kind p q) :
    Steps kinds p q :=
  Relation.ReflTransGen.single ⟨kind, hkind, step⟩

theorem Outcome.mono {more : StepKind → Prop} (hmore : ∀ kind, kinds kind → more kind)
    (h : Outcome kinds p result) : Outcome more p result := by
  match result, h with
  | .ok _, ⟨hids, hsteps⟩ =>
      exact ⟨hids, Relation.ReflTransGen.mono
        (fun _ _ ⟨kind, hkind, hstep⟩ => ⟨kind, hmore kind hkind, hstep⟩) _ _ hsteps⟩
  | .error (.lookup _), h => exact h
  | .error (.panic _), _ => trivial
  | .error .fatalFault, _ => trivial
  | .error .reboot, _ => trivial

end Outcomes

theorem ids_setFrame {update : TrapFrame → TrapFrame} (hids : s.Ids) :
    (s.modifyTask tid (Task.setFrame update)).Ids :=
  ids_modifyTask (fun _ => rfl) hids

/-- Reporting a result to a task changes nothing in the process model. -/
theorem setFrame_outcome {kinds : StepKind → Prop} {update : TrapFrame → TrapFrame}
    (hids : s.Ids) : Outcome kinds s.view (.ok (s.modifyTask tid (Task.setFrame update))) :=
  Outcome.same (ids_setFrame hids) viewAs_setFrame

theorem setRax_outcome {kinds : StepKind → Prop} {value : Nat} (hids : s.Ids) :
    Outcome kinds s.view (.ok (s.setRax tid value)) :=
  setFrame_outcome hids

/-! ## Picking the next task -/

theorem any_ready_iff (hids : s.Ids) :
    (s.tasks.any fun task => task.id == tid && task.state == .ready) = true ↔
      (s.viewAs current dying).state? tid = some .ready := by
  rw [state?_viewAs]
  constructor
  · intro h
    obtain ⟨task, hmem, htask⟩ := List.any_eq_true.1 h
    simp only [Bool.and_eq_true, beq_iff_eq] at htask
    rw [← htask.1, findTask_of_mem hids hmem, Option.map_some, htask.2]
  · intro h
    obtain ⟨task, hfind, hstate⟩ := Option.map_eq_some_iff.1 h
    exact List.any_eq_true.2 ⟨task, lookup_mem hfind,
      by simp [hstate, show task.id = tid from lookup_key hfind]⟩

/-- The queue loop finds a runnable entry and keeps the rest of the queue, or
finds none and drops the queue. -/
theorem pickFrom_spec (tasks : List Task) (exclude : Option Nat) (queue skipped : List Nat) :
    match pickFrom tasks exclude queue skipped with
    | (some tid, rest) => tid ∈ queue ∧ some tid ≠ exclude ∧
        (tasks.any fun task => task.id == tid && task.state == .ready) = true ∧
        (tid :: rest).Perm (queue ++ skipped)
    | (none, rest) => rest = [] ∧ ∀ tid ∈ queue, some tid ≠ exclude →
        (tasks.any fun task => task.id == tid && task.state == .ready) = false := by
  induction queue generalizing skipped with
  | nil => simp [pickFrom]
  | cons first queue ih =>
      unfold pickFrom
      dsimp only
      split_ifs with hpick
      · exact ⟨List.mem_cons_self, hpick.1, hpick.2, List.Perm.refl _⟩
      · have h := ih (skipped ++ [first])
        revert h
        rcases pickFrom tasks exclude queue (skipped ++ [first]) with ⟨_ | tid, rest⟩
        · rintro ⟨hrest, hnone⟩
          refine ⟨hrest, fun tid hmem hne => ?_⟩
          rcases List.mem_cons.1 hmem with rfl | hmem
          · simpa [hne] using hpick
          · exact hnone tid hmem hne
        · rintro ⟨hmem, hne, hready, hperm⟩
          refine ⟨List.mem_cons_of_mem _ hmem, hne, hready, hperm.trans ?_⟩
          rw [← List.append_assoc]
          exact List.perm_append_comm

/-! ## Switching -/

section Switching

variable {kinds : StepKind → Prop} {next : Nat} {rest : List Nat}

/-- Putting a runnable task on the CPU. -/
theorem resume_outcome (hkind : kinds .schedule) (hids : s.Ids)
    (hnext : (s.viewAs none none).state? next = some .ready)
    (hqueue : rest.Perm (s.ready.erase next)) :
    Outcome kinds (s.viewAs none none) (({ s with ready := rest } : Machine).resume next) := by
  rw [state?_viewAs] at hnext
  obtain ⟨task, hfind, hstate⟩ := Option.map_eq_some_iff.1 hnext
  have hfind' : ({ s with ready := rest } : Machine).findTask next = some task := hfind
  unfold resume
  rw [hfind']
  have hstep := Step.resume (p := s.viewAs none none) next rest rfl
    (by rw [state?_viewAs, hfind, Option.map_some, hstate]) hqueue
  refine Outcome.after (steps_one hkind hstep) (Outcome.same (ids_modifyTask (fun _ => rfl) hids) ?_)
  exact congrArg (fun p : Proc => { p with current := some next, ready := rest })
    (@viewAs_setState s next none none .running)

theorem parkIdle_eq (s : Machine) : ∃ cr3, s.parkIdle = { s with cr3 := cr3 } := by
  unfold parkIdle
  split
  · exact ⟨s.cr3, rfl⟩
  · exact ⟨_, rfl⟩

/-- The tail of every blocking call never fails. -/
theorem switchAway_outcome (hkind : kinds .schedule) (hids : s.Ids) :
    Outcome kinds (s.viewAs none none) s.switchAway := by
  have hspec := pickFrom_spec s.tasks none s.ready []
  unfold switchAway pickNext
  simp only [setCurrent]
  revert hspec
  rcases pickFrom s.tasks none s.ready [] with ⟨_ | next, rest⟩
  · rintro ⟨rfl, hnone⟩
    have hstale : ∀ tid ∈ (s.viewAs none none).ready,
        (s.viewAs none none).state? tid ≠ some .ready := by
      intro tid hmem hready
      have := hnone tid hmem (by simp)
      rw [(any_ready_iff hids).2 hready] at this
      cases this
    refine Outcome.after (steps_one hkind (Step.forget hstale)) ?_
    have hidle := parkIdle_eq { s with current := none, ready := [] }
    obtain ⟨cr3, hcr3⟩ := hidle
    dsimp only
    rw [hcr3]
    exact Outcome.same hids rfl
  · rintro ⟨hmem, -, hready, hperm⟩
    rw [List.append_nil] at hperm
    exact resume_outcome (s := { s with current := none }) hkind hids ((any_ready_iff hids).1 hready)
      (List.cons_perm_iff_perm_erase.1 hperm).2

/-- Blocking: the step that parks the task, then the switch. -/
theorem block_outcome {state : TaskState} {p : Proc} (hkind : kinds .schedule) (hids : s.Ids)
    (hfind : (s.findTask tid).isSome)
    (hpark : Steps kinds p ((s.viewAs none none).setState tid state)) :
    Outcome kinds p (s.block tid state) := by
  obtain ⟨task, htask⟩ := Option.isSome_iff_exists.1 hfind
  unfold block
  rw [htask]
  refine Outcome.after hpark ?_
  rw [← viewAs_setState]
  exact switchAway_outcome hkind (ids_modifyTask (fun _ => rfl) hids)

/-- Giving the CPU to a picked task and queueing the old one behind the rest. -/
theorem preempt_outcome (hkind : kinds .schedule) (hids : s.Ids) (hinv : s.view.Inv)
    (hcurrent : s.current = some tid) (hmem : next ∈ s.ready) (hne : next ≠ tid)
    (hnext : s.view.state? next = some .ready) (hperm : (next :: rest).Perm s.ready) :
    Outcome kinds s.view (({ s with ready := rest } : Machine).preempt tid next) := by
  have hrun := hinv.running_of_current hcurrent
  rw [view, state?_viewAs] at hrun
  obtain ⟨task, hfind, -⟩ := Option.map_eq_some_iff.1 hrun
  have hfind' : ({ s with ready := rest } : Machine).findTask tid = some task := hfind
  unfold preempt
  rw [hfind']
  have hstep := Step.preempt (p := s.view) tid hcurrent
  let queued : Machine := { s.modifyTask tid (Task.setState .ready) with ready := s.ready ++ [tid] }
  have hqueued : queued.viewAs none none =
      { s.view.park tid .ready with ready := s.ready ++ [tid] } :=
    congrArg (fun p : Proc => { p with ready := s.ready ++ [tid] })
      (@viewAs_setState s tid none none .ready)
  refine Outcome.after (steps_one hkind hstep) ?_
  change Outcome kinds { s.view.park tid .ready with ready := s.ready ++ [tid] } _
  rw [← hqueued]
  refine @resume_outcome queued kinds next (rest ++ [tid]) hkind
    (ids_modifyTask (s := s) (fun _ => rfl) hids) ?_ ?_
  · rw [hqueued]
    change (s.view.park tid .ready).state? next = some .ready
    rw [Proc.state?_park, if_neg hne]
    exact hnext
  · rw [List.erase_append_left _ hmem]
    exact ((List.cons_perm_iff_perm_erase.1 hperm).2).append_right [tid]

/-- What a search for another task than the current one finds. -/
theorem pickNext_cases (hids : s.Ids) (hinv : s.view.Inv) :
    (∃ next rest, s.pickNext s.current = (some next, { s with ready := rest }) ∧
      next ∈ s.ready ∧ some next ≠ s.current ∧ s.view.state? next = some .ready ∧
      (next :: rest).Perm s.ready) ∨
    s.pickNext s.current = (none, { s with ready := [] }) ∧
      ∀ tid ∈ s.view.ready, s.view.state? tid ≠ some .ready := by
  have hspec := pickFrom_spec s.tasks s.current s.ready []
  unfold pickNext
  revert hspec
  rcases pickFrom s.tasks s.current s.ready [] with ⟨_ | next, rest⟩
  · rintro ⟨rfl, hnone⟩
    refine .inr ⟨rfl, fun tid hmem hready => ?_⟩
    have hother : some tid ≠ s.current := fun h => by
      have := hinv.running_of_current h.symm
      rw [hready] at this
      cases this
    have := hnone tid hmem hother
    rw [(any_ready_iff hids).2 hready] at this
    cases this
  · rintro ⟨hmem, hne, hready, hperm⟩
    rw [List.append_nil] at hperm
    exact .inl ⟨next, rest, rfl, hmem, hne, (any_ready_iff hids).1 hready, hperm⟩

theorem yieldTask_outcome (hkind : kinds .schedule) (hids : s.Ids) (hinv : s.view.Inv)
    (hcurrent : s.current = some tid) : Outcome kinds s.view (s.yieldTask tid) := by
  unfold yieldTask
  rw [← hcurrent]
  rcases pickNext_cases hids hinv with ⟨next, rest, heq, hmem, hne, hnext, hperm⟩ | ⟨heq, hstale⟩
  · rw [heq]
    exact preempt_outcome hkind hids hinv hcurrent hmem (fun h => hne (by rw [h, hcurrent])) hnext hperm
  · rw [heq]
    exact Outcome.after (steps_one hkind (Step.forget hstale)) (Outcome.same hids rfl)

theorem maybePreempt_outcome (hkind : kinds .schedule) (hids : s.Ids) (hinv : s.view.Inv) :
    Outcome kinds s.view s.maybePreempt := by
  unfold maybePreempt
  split_ifs with hquantum
  · exact Outcome.same hids rfl
  · extract_lets fresh
    change Outcome kinds fresh.view _
    rcases pickNext_cases (s := fresh) hids hinv with
      ⟨next, rest, heq, hmem, hne, hnext, hperm⟩ | ⟨heq, hstale⟩
    · rw [heq]
      cases hcurrent : fresh.current with
      | none =>
          have hview : fresh.view = fresh.viewAs none none := by rw [view, hcurrent]
          dsimp only
          rw [hview] at hnext ⊢
          exact resume_outcome hkind hids hnext (List.cons_perm_iff_perm_erase.1 hperm).2
      | some =>
          exact preempt_outcome hkind hids hinv hcurrent hmem (fun h => hne (by rw [h, hcurrent]))
            hnext hperm
    · rw [heq]
      have hdone : Outcome kinds fresh.view (.ok { fresh with ready := [] }) :=
        Outcome.after (steps_one hkind (Step.forget hstale)) (Outcome.same hids rfl)
      revert hdone
      cases fresh.current <;> exact id

end Switching

/-! ## Deadlines -/

theorem foldl_makeReady (woke : List Nat) (s : Machine) :
    woke.foldl (fun s tid => s.makeReady tid true) s =
      { s with ready := woke.reverse ++ s.ready } := by
  induction woke generalizing s with
  | nil => rfl
  | cons _ _ ih =>
      rw [List.foldl_cons, ih]
      simp [makeReady]

/-- The machine in which the tasks of `rest` have been woken and those of `done`
are behind us. -/
def wokenAfter (s : Machine) (done rest : List Task) : Machine :=
  { s with
      tasks := done ++ rest.map (Task.wakeIfExpired s.ticks)
      trace := s.trace ++ timeoutEvents s.ticks rest
      ready := ((rest.filter fun task => task.state.expired s.ticks).map Task.id).reverse ++ s.ready }

theorem wakeExpired_eq (s : Machine) : s.wakeExpired = s.wokenAfter [] s.tasks := by
  unfold wakeExpired wokenAfter
  rw [foldl_makeReady]
  rfl

theorem timeoutEvents_cons (now : Nat) (task : Task) (rest : List Task) :
    timeoutEvents now (task :: rest) = timeoutEvents now [task] ++ timeoutEvents now rest :=
  List.filterMap_append (l := [task])

theorem timeoutEvents_of_not_expired {now : Nat} {task : Task}
    (h : task.state.expired now = false) : timeoutEvents now [task] = [] := by
  cases hstate : task.state <;> simp_all [timeoutEvents]

/-- One expired wait is one abstract step. -/
theorem expire_step {done rest : List Task} {task : Task} (hids : s.Ids)
    (htasks : s.tasks = done ++ task :: rest) (hexpired : task.state.expired s.ticks = true) :
    Step .timeout (s.viewAs current dying)
      (({ s with
          tasks := done ++ task.wakeIfExpired s.ticks :: rest
          trace := s.trace ++ timeoutEvents s.ticks [task]
          ready := task.id :: s.ready } : Machine).viewAs current dying) := by
  have hstate : (s.viewAs current dying).state? task.id = some task.state := by
    rw [state?_viewAs, findTask_of_mem hids (by simp [htasks]), Option.map_some]
  have hwoken : s.modifyTask task.id
      (Task.wakeWith fun frame => { frame with rax := task.state.expiryCode }) =
        { s with tasks := done ++ task.wakeIfExpired s.ticks :: rest } := by
    unfold modifyTask Redoubt.Kernel.modifyTask
    rw [htasks, update_append_cons (htasks ▸ hids)]
    simp [Task.wakeIfExpired, hexpired]
  have hview : ({ s with
      tasks := done ++ task.wakeIfExpired s.ticks :: rest } : Machine).viewAs current dying =
        (s.viewAs current dying).setState task.id .ready := by
    rw [← hwoken, viewAs_wakeWith]
  -- the wait is a receive with a deadline or a sleep
  cases hwait : task.state with
  | blockedRecv index deadline =>
      have hevents : timeoutEvents s.ticks [task] = [.recvTimedOut index task.id] := by
        simp [timeoutEvents, hwait, hwait ▸ hexpired]
      rw [hevents]
      have hstep := Step.expireRecv task.id index deadline (hwait ▸ hstate)
      rwa [show ((s.viewAs current dying).wake task.id).emit _ = _ from
        congrArg (fun p : Proc => { p with
          ready := task.id :: s.ready, trace := s.trace ++ [Event.recvTimedOut index task.id] })
          hview.symm] at hstep
  | blockedSleep wakeAt =>
      have hevents : timeoutEvents s.ticks [task] = [] := by simp [timeoutEvents, hwait]
      rw [hevents, List.append_nil]
      have hstep := Step.expireSleep task.id wakeAt (hwait ▸ hstate)
      rwa [show (s.viewAs current dying).wake task.id = _ from
        congrArg (fun p : Proc => { p with ready := task.id :: s.ready }) hview.symm] at hstep
  | _ => rw [hwait] at hexpired; cases hexpired

theorem wokenAfter_steps {kinds : StepKind → Prop} (hkind : kinds .timeout)
    (current dying : Option Nat) (rest : List Task) :
    ∀ (done : List Task) (s : Machine), s.tasks = done ++ rest → s.Ids →
      Steps kinds (s.viewAs current dying) ((s.wokenAfter done rest).viewAs current dying) := by
  induction rest with
  | nil =>
      intro done s htasks _
      have hsame : s.wokenAfter done [] = s := by
        simp only [wokenAfter, timeoutEvents, List.map_nil, List.filterMap_nil, List.append_nil,
          List.filter_nil, List.reverse_nil, List.nil_append]
        rw [← List.append_nil done, ← htasks]
      rw [hsame]
      exact Relation.ReflTransGen.refl
  | cons task rest ih =>
      intro done s htasks hids
      by_cases hexpired : task.state.expired s.ticks = true
      · let woken : Machine :=
          { s with
            tasks := done ++ task.wakeIfExpired s.ticks :: rest
            trace := s.trace ++ timeoutEvents s.ticks [task]
            ready := task.id :: s.ready }
        have hids' : woken.Ids := by
          have hid : (task.wakeIfExpired s.ticks).id = task.id := by
            simp [Task.wakeIfExpired, hexpired, Task.wakeWith, Task.setState, Task.setFrame]
          have := hids
          rw [Ids, htasks] at this
          simpa [Ids, woken, hid] using this
        have hstep : Step .timeout (s.viewAs current dying) (woken.viewAs current dying) :=
          expire_step hids htasks hexpired
        have hrest := ih (done ++ [task.wakeIfExpired s.ticks]) woken (by simp [woken]) hids'
        have hsame : woken.wokenAfter (done ++ [task.wakeIfExpired s.ticks]) rest =
            s.wokenAfter done (task :: rest) := by
          simp [wokenAfter, woken, hexpired, timeoutEvents_cons s.ticks task rest]
        rw [← hsame]
        exact Relation.ReflTransGen.head ⟨_, hkind, hstep⟩ hrest
      · have hkeep : task.wakeIfExpired s.ticks = task := by simp [Task.wakeIfExpired, hexpired]
        have hrest := ih (done ++ [task]) s (by simp [htasks]) hids
        have hsame : s.wokenAfter (done ++ [task]) rest = s.wokenAfter done (task :: rest) := by
          have hnone := timeoutEvents_of_not_expired (Bool.eq_false_iff.2 hexpired)
          simp [wokenAfter, hkeep, hexpired, timeoutEvents_cons s.ticks task rest, hnone]
        rwa [← hsame]

theorem ids_wakeExpired (hids : s.Ids) : s.wakeExpired.Ids := by
  have hid : ∀ task, (Task.wakeIfExpired s.ticks task).id = task.id := by
    intro task
    unfold Task.wakeIfExpired
    split_ifs <;> rfl
  rw [wakeExpired_eq]
  simpa [Ids, wokenAfter, Function.comp_def, hid] using hids

theorem wakeExpired_steps {kinds : StepKind → Prop} (hkind : kinds .timeout) (hids : s.Ids) :
    Steps kinds s.view s.wakeExpired.view := by
  have hcurrent : s.wakeExpired.current = s.current := by
    rw [wakeExpired_eq]
    rfl
  unfold view
  rw [hcurrent, wakeExpired_eq]
  exact wokenAfter_steps hkind s.current none s.tasks [] s rfl hids

end Machine

end Redoubt.Kernel
