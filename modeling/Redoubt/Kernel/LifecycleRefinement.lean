import Redoubt.Kernel.SchedulerRefinement

/-!
# Termination refines the process model

Marking the task, dropping its dead children, unwinding its IPC transactions
and telling its parent are one chain of abstract steps, for a task that exits
and for one that is killed alike.
-/

namespace Redoubt.Kernel

open Redoubt.Foundation
open Proc (StepKind Step Steps)

namespace Machine

variable {s : Machine} {tid code : Nat} {current dying : Option Nat}

/-! ## The children of a dying task -/

theorem mem_childrenOf (hids : s.Ids) {other : Nat} : other ∈ s.childrenOf tid ↔
    ∃ task, s.findTask other = some task ∧ task.parent = some tid := by
  unfold childrenOf
  simp only [List.mem_map, List.mem_filter, beq_iff_eq]
  constructor
  · rintro ⟨task, ⟨hmem, hparent⟩, rfl⟩
    exact ⟨task, findTask_of_mem hids hmem, hparent⟩
  · rintro ⟨task, hfind, hparent⟩
    exact ⟨task, ⟨lookup_mem hfind, hparent⟩, lookup_key hfind⟩

/-- Orphaning a list of tasks changes the parents of those tasks and no more. -/
theorem foldl_orphan (kids : List Nat) (s : Machine) (hids : s.Ids) : ∃ tasks,
    kids.foldl (fun s kid => s.modifyTask kid Task.orphan) s = { s with tasks := tasks } ∧
      (tasks.map Task.id).Nodup ∧ ∀ other, Redoubt.Kernel.findTask tasks other =
        if other ∈ kids then (s.findTask other).map Task.orphan else s.findTask other := by
  induction kids generalizing s with
  | nil => exact ⟨s.tasks, rfl, hids, fun other => by simp [findTask]⟩
  | cons kid _ ih =>
      obtain ⟨tasks, heq, hnodup, hfind⟩ :=
        ih (s.modifyTask kid Task.orphan) (ids_modifyTask (fun _ => rfl) hids)
      refine ⟨tasks, heq, hnodup, fun other => ?_⟩
      have hkid : (s.modifyTask kid Task.orphan).findTask other =
          if other = kid then (s.findTask other).map Task.orphan else s.findTask other :=
        findTask_modifyTask _ _ fun _ => rfl
      rw [hfind, hkid]
      by_cases h : other = kid
      · subst h
        cases s.findTask other <;> simp [Task.orphan]
      · simp [h]

/-- Queueing a list of tasks for teardown drops those tasks and no more. -/
theorem foldl_scheduleReap (dead : List Nat) (s : Machine) (hids : s.Ids) : ∃ tasks reapQueue,
    dead.foldl scheduleReap s = { s with tasks := tasks, reapQueue := reapQueue } ∧
      (tasks.map Task.id).Nodup ∧ ∀ other, Redoubt.Kernel.findTask tasks other =
        if other ∈ dead then none else s.findTask other := by
  induction dead generalizing s with
  | nil => exact ⟨s.tasks, s.reapQueue, rfl, hids, fun other => by simp [findTask]⟩
  | cons first _ ih =>
      rw [List.foldl_cons]
      cases hfirst : s.findTask first with
      | none =>
          have hsame : s.scheduleReap first = s := by simp [scheduleReap, hfirst]
          obtain ⟨tasks, reapQueue, heq, hnodup, hfind⟩ := ih s hids
          refine ⟨tasks, reapQueue, by rw [hsame, heq], hnodup, fun other => ?_⟩
          rw [hfind]
          by_cases h : other = first
          · simp [h, hfirst]
          · simp [h]
      | some task =>
          have hreap : s.scheduleReap first = { s with
              tasks := s.tasks.filter fun task => task.id ≠ first
              reapQueue := s.reapQueue ++ [task.resources] } := by
            simp [scheduleReap, hfirst]
          have hids' : (s.scheduleReap first).Ids := by
            rw [hreap]
            exact hids.sublist (List.filter_sublist.map Task.id)
          obtain ⟨tasks, reapQueue, heq, hnodup, hfind⟩ := ih _ hids'
          refine ⟨tasks, reapQueue, by rw [heq, hreap], hnodup, fun other => ?_⟩
          have hfind' : (s.scheduleReap first).findTask other =
              if other = first then none else s.findTask other := by
            rw [hreap]
            exact lookup_filter_ne
          rw [hfind, hfind']
          by_cases h : other = first <;> simp [h]

/-- The task is marked, its living children are orphaned, its dead ones dropped. -/
def marked (s : Machine) (tid code : Nat) : Machine :=
  let (s, _, zombies) := s.markZombie tid code
  zombies.foldl scheduleReap s

/-- Marking is the abstract beginning of a termination. -/
theorem marked_spec (code : Nat) (current dying : Option Nat) (hids : s.Ids)
    (hfound : (s.findTask tid).isSome) :
    ∃ tasks reapQueue, s.marked tid code =
        { s with
          tasks := tasks
          reapQueue := reapQueue
          trace := s.trace ++ [.terminated tid code] } ∧
      (tasks.map Task.id).Nodup ∧ ∀ other,
        (Redoubt.Kernel.findTask tasks other).map Task.view =
          (s.viewAs current dying).dieTask tid code other := by
  obtain ⟨task, htask⟩ := Option.isSome_iff_exists.1 hfound
  let dead : Machine :=
    (s.modifyTask tid (Task.setState (.zombie code))).emit (.terminated tid code)
  have hdead : dead.Ids := ids_modifyTask (s := s) (fun _ => rfl) hids
  have hfind : ∀ other, dead.findTask other =
      if other = tid then (s.findTask other).map (Task.setState (.zombie code))
      else s.findTask other := fun _ => findTask_modifyTask _ _ fun _ => rfl
  have hmarked : s.marked tid code = (dead.orphanedZombies (dead.childrenOf tid)).foldl scheduleReap
      ((dead.childrenOf tid).foldl (fun s kid => s.modifyTask kid Task.orphan) dead) := by
    simp [marked, markZombie, htask, dead]
  obtain ⟨orphaned, horphan, hnodup, hfindOrphan⟩ := foldl_orphan (dead.childrenOf tid) dead hdead
  obtain ⟨tasks, reapQueue, hreap, hnodup', hfindReap⟩ :=
    foldl_scheduleReap (dead.orphanedZombies (dead.childrenOf tid)) { dead with tasks := orphaned }
      hnodup
  refine ⟨tasks, reapQueue, by rw [hmarked, horphan, hreap]; rfl, hnodup', fun other => ?_⟩
  rw [hfindReap]
  change Option.map Task.view (if other ∈ dead.orphanedZombies (dead.childrenOf tid) then none
    else Redoubt.Kernel.findTask orphaned other) = _
  rw [hfindOrphan]
  simp only [orphanedZombies, List.mem_filter, mem_childrenOf hdead, hfind, Proc.dieTask, viewAs_task]
  -- a child is dropped when dead, orphaned when not; everybody else is kept
  cases hother : s.findTask other with
  | none => by_cases h : other = tid <;> simp [h]
  | some found =>
      by_cases h : other = tid <;> by_cases hkid : found.parent = some tid <;>
        by_cases hz : found.state.isZombie = true <;>
        simp [h, hkid, hz, Task.view, Task.setState, Task.orphan]

/-! ## Unwinding IPC -/

theorem failStranded_withEndpoints (caller : Nat) (endpoints : List Endpoint) :
    ({ s with endpoints := endpoints } : Machine).failStranded caller =
      { s.failStranded caller with endpoints := endpoints } := by
  have hfind : ({ s with endpoints := endpoints } : Machine).findTask caller =
      s.findTask caller := rfl
  unfold failStranded
  rw [hfind]
  cases s.findTask caller with
  | none => rfl
  | some task =>
      dsimp only
      cases task.state <;> rfl

theorem failStranded_eq {caller index : Nat} {task : Task} (hfind : s.findTask caller = some task)
    (hstate : task.state = .blockedCall index) : s.failStranded caller =
      ((s.modifyTask caller (Task.wakeWith fun frame =>
        { frame with rax := ePeerDied })).makeReady caller true).emit (.peerDied index caller) := by
  simp [failStranded, hfind, hstate]

/-- What unwinding leaves alone: a task that is not waiting for a reply keeps
everything, and nobody starts to wait for a child. -/
structure Unstranded (s after : Machine) : Prop where
  ids : after.Ids
  current : after.current = s.current
  kept : ∀ other task, s.findTask other = some task → task.state.isBlockedCall = false →
    after.findTask other = some task
  waiting : ∀ other task, after.findTask other = some task → task.state = .blockedWait →
    s.findTask other = some task

theorem Unstranded.trans {mid after : Machine} (h : Unstranded s mid) (h' : Unstranded mid after) :
    Unstranded s after where
  ids := h'.ids
  current := h'.current.trans h.current
  kept := fun other task hfind hstate => h'.kept other task (h.kept other task hfind hstate) hstate
  waiting := fun other task hfind hstate =>
    h.waiting other task (h'.waiting other task hfind hstate) hstate

theorem Unstranded.failStranded {caller index : Nat} {task : Task} (hids : s.Ids)
    (hfind : s.findTask caller = some task) (hstate : task.state = .blockedCall index) :
    Unstranded s (s.failStranded caller) := by
  rw [failStranded_eq hfind hstate]
  have hfind' : ∀ other, (((s.modifyTask caller (Task.wakeWith fun frame =>
      { frame with rax := ePeerDied })).makeReady caller true).emit
        (.peerDied index caller)).findTask other =
      if other = caller then (s.findTask other).map
        (Task.wakeWith fun frame => { frame with rax := ePeerDied })
      else s.findTask other := fun _ => findTask_modifyTask _ _ fun _ => rfl
  refine ⟨ids_modifyTask (s := s) (fun _ => rfl) hids, rfl, fun other found hother hplain => ?_,
    fun other found hother hwait => ?_⟩
  · have hne : other ≠ caller := fun h => by
      rw [h, hfind] at hother
      cases hother
      simp [hstate, TaskState.isBlockedCall] at hplain
    rw [hfind', if_neg hne, hother]
  · rw [hfind'] at hother
    split_ifs at hother with h
    · obtain ⟨old, -, rfl⟩ := Option.map_eq_some_iff.1 hother
      cases hwait
    · exact hother

/-- One endpoint is unwound in one abstract step. -/
theorem abort_step {done rest : List Endpoint} {endpoint : Endpoint} (hids : s.Ids)
    (hinv : (s.viewAs current (some tid)).Inv) (hends : s.endpoints = done ++ endpoint :: rest) :
    let after := ((endpoint.strandedBy tid).elim s s.failStranded)
    Unstranded s after ∧ Step .lifecycle (s.viewAs current (some tid))
      (({ after with endpoints := done ++ endpoint.abort tid :: rest } : Machine).viewAs current
        (some tid)) := by
  have hfound : (s.viewAs current (some tid)).endpoints[done.length]? = some endpoint := by
    rw [viewAs_endpoints, hends]
    simp
  have hset : s.endpoints.set done.length (endpoint.abort tid) =
      done ++ endpoint.abort tid :: rest := by
    rw [hends]
    simp
  cases hstranded : endpoint.strandedBy tid with
  | none =>
      refine ⟨⟨hids, rfl, fun _ _ h _ => h, fun _ _ h _ => h⟩, ?_⟩
      have hstep := Step.abortAt tid done.length endpoint rfl hfound hstranded
      rwa [Proc.setEndpoint, viewAs_endpoints, hset] at hstep
  | some caller =>
      obtain ⟨-, -, hstate⟩ := hinv.waiting_of_stranded rfl hfound hstranded
      rw [state?_viewAs] at hstate
      obtain ⟨task, hfind, htask⟩ := Option.map_eq_some_iff.1 hstate
      refine ⟨Unstranded.failStranded hids hfind htask, ?_⟩
      have hstep := Step.abortWake tid done.length caller endpoint rfl hfound hstranded
      have hwoken := congrArg Proc.task (@viewAs_wakeWith s caller current (some tid)
        fun frame => { frame with rax := ePeerDied })
      simp only [Option.elim_some, failStranded_eq hfind htask]
      convert hstep using 1
      exact Proc.ext hwoken rfl hset.symm rfl rfl rfl rfl rfl

/-- All endpoints are unwound, one after the other. -/
theorem abort_steps {kinds : StepKind → Prop} (hkind : kinds .lifecycle) (tid : Nat)
    (current : Option Nat) (rest : List Endpoint) : ∀ (done : List Endpoint) (s : Machine),
      s.endpoints = done ++ rest → s.Ids → (s.viewAs current (some tid)).Inv → ∃ after,
        (rest.filterMap (Endpoint.strandedBy tid)).foldl failStranded
          { s with endpoints := done ++ rest.map (Endpoint.abort tid) } = after ∧
        after.endpoints = done ++ rest.map (Endpoint.abort tid) ∧ Unstranded s after ∧
        Steps kinds (s.viewAs current (some tid)) (after.viewAs current (some tid)) := by
  induction rest with
  | nil =>
      intro done s hends hids _
      have hsame : ({ s with endpoints := done ++ [] } : Machine) = s := by rw [← hends]
      refine ⟨s, hsame, hends, ⟨hids, rfl, fun _ _ h _ => h, fun _ _ h _ => h⟩, ?_⟩
      exact Relation.ReflTransGen.refl
  | cons endpoint rest ih =>
      intro done s hends hids hinv
      obtain ⟨hkept, hstep⟩ := abort_step hids hinv hends
      let mid : Machine := { ((endpoint.strandedBy tid).elim s s.failStranded) with
        endpoints := done ++ endpoint.abort tid :: rest }
      have hmid : Unstranded s mid := ⟨hkept.ids, hkept.current, hkept.kept, hkept.waiting⟩
      obtain ⟨after, heq, hendsAfter, hafter, hsteps⟩ :=
        ih (done ++ [endpoint.abort tid]) mid (by simp [mid]) hmid.ids (hinv.step hstep)
      refine ⟨after, ?_, by simpa using hendsAfter, hmid.trans hafter,
        Relation.ReflTransGen.head ⟨_, hkind, hstep⟩ hsteps⟩
      rw [← heq]
      cases hstranded : endpoint.strandedBy tid with
      | none => simp [mid, hstranded]
      | some => simp [mid, hstranded, failStranded_withEndpoints]

theorem abort_unwound (endpoint : Endpoint) :
    (∀ call ∈ (endpoint.abort tid).pendingCallers, call.1 ≠ tid) ∧
      (endpoint.abort tid).activeCaller ≠ some tid ∧
      (endpoint.abort tid).activeServer ≠ some tid := by
  refine ⟨fun call hmem => ?_, ?_, ?_⟩
  · rw [Proc.abort_pendingCallers] at hmem
    simpa using (List.mem_filter.1 hmem).2
  · grind [Endpoint.abort]
  · grind [Endpoint.abort]

/-- Unwinding a dying task. -/
theorem abortIpcForExitingTask_steps {kinds : StepKind → Prop} (hkind : kinds .lifecycle)
    (hids : s.Ids) (hinv : (s.viewAs current (some tid)).Inv) :
    Unstranded s (s.abortIpcForExitingTask tid) ∧
      ((s.abortIpcForExitingTask tid).viewAs current (some tid)).Unwound tid ∧
      Steps kinds (s.viewAs current (some tid))
        ((s.abortIpcForExitingTask tid).viewAs current (some tid)) := by
  obtain ⟨after, heq, hends, hafter, hsteps⟩ :=
    abort_steps hkind tid current s.endpoints [] s rfl hids hinv
  have hsame : s.abortIpcForExitingTask tid = after := heq
  rw [hsame]
  refine ⟨hafter, fun endpoint hmem => ?_, hsteps⟩
  rw [viewAs_endpoints, hends, List.nil_append] at hmem
  obtain ⟨old, -, rfl⟩ := List.mem_map.1 hmem
  exact abort_unwound old

/-! ## Telling the parent -/

theorem markZombie_fate_orphan {task : Task} (htask : s.findTask tid = some task)
    (hparent : task.parent = none) : (s.markZombie tid code).2.1 = .orphan := by
  simp [markZombie, htask, fateOf, hparent]

theorem markZombie_fate {task parentTask : Task} {parent : Nat} (hids : s.Ids)
    (htask : s.findTask tid = some task) (hparent : task.parent = some parent)
    (hne : parent ≠ tid) (hfind : s.findTask parent = some parentTask) :
    (s.markZombie tid code).2.1 =
      if parentTask.state = .blockedWait then .deliver parent else .linger := by
  let dead : Machine :=
    (s.modifyTask tid (Task.setState (.zombie code))).emit (.terminated tid code)
  have hdead : dead.Ids := ids_modifyTask (s := s) (fun _ => rfl) hids
  obtain ⟨tasks, heq, -, hlookup⟩ := foldl_orphan (dead.childrenOf tid) dead hdead
  have hfate : (s.markZombie tid code).2.1 =
      ({ dead with tasks := tasks } : Machine).fateOf (some parent) := by
    rw [← heq]
    simp [markZombie, htask, hparent, dead]
  have hdeadFind : dead.findTask parent = some parentTask := by
    change (s.modifyTask tid (Task.setState (.zombie code))).findTask parent = _
    rw [findTask_modifyTask (Task.setState (.zombie code)) parent fun _ => rfl, if_neg hne, hfind]
  have hid : parentTask.id = parent := lookup_key hfind
  have hfound : ∃ found, ({ dead with tasks := tasks } : Machine).findTask parent = some found ∧
      found.state = parentTask.state ∧ found.id = parent := by
    have h := hlookup parent
    rw [hdeadFind] at h
    split_ifs at h
    · exact ⟨parentTask.orphan, h, rfl, hid⟩
    · exact ⟨parentTask, h, rfl, hid⟩
  obtain ⟨found, hfound, hstate, hfoundId⟩ := hfound
  rw [hfate, fateOf, Option.bind_some, hfound]
  simp [hstate, hfoundId]

theorem scheduleReap_view {task : Task} (hfind : s.findTask tid = some task) :
    (s.scheduleReap tid).viewAs current dying = (s.viewAs current dying).remove tid := by
  refine Proc.ext (funext fun other => ?_) ?_ ?_ ?_ ?_ ?_ ?_ ?_ <;> simp only [scheduleReap, hfind]
  · simp only [viewAs_task, Proc.remove_task, findTask, Redoubt.Kernel.findTask, lookup_filter_ne]
    split_ifs <;> rfl
  all_goals rfl

theorem ids_scheduleReap (hids : s.Ids) : (s.scheduleReap tid).Ids := by
  unfold scheduleReap
  split
  · exact hids
  · exact hids.sublist (List.filter_sublist.map Task.id)

/-- A parent parked in wait receives the code, and the child goes. -/
theorem deliverExit_spec {task parentTask : Task} {parent : Nat} (code : Nat) (hids : s.Ids)
    (htask : s.findTask tid = some task) (hparent : s.findTask parent = some parentTask)
    (hne : tid ≠ parent) : ∃ told, s.deliverExit parent tid code = .ok told ∧
      (told.scheduleReap tid).Ids ∧ (told.scheduleReap tid).current = s.current ∧
      (told.scheduleReap tid).viewAs current dying =
        (((s.viewAs current dying).wake parent).remove tid).emit [.waited parent tid code] := by
  let tell := Task.wakeWith fun frame => { frame with rax := eOk, rdi := tid, rsi := code }
  let told := ((s.modifyTask parent tell).makeReady parent true).emit (.waited parent tid code)
  have hfind : told.findTask tid = some task :=
    (findTask_modifyTask tell tid fun _ => rfl).trans ((if_neg hne).trans htask)
  have hview : told.viewAs current dying =
      ((s.viewAs current dying).wake parent).emit [.waited parent tid code] :=
    congrArg (fun p : Proc => { p with
      ready := parent :: s.ready, trace := s.trace ++ [Event.waited parent tid code] })
      (@viewAs_wakeWith s parent current dying
        fun frame => { frame with rax := eOk, rdi := tid, rsi := code })
  refine ⟨told, by simp [deliverExit, hparent, told, tell], ?_, ?_, ?_⟩
  · exact ids_scheduleReap (ids_modifyTask (s := s) (fun _ => rfl) hids)
  · simp only [scheduleReap, hfind]
    rfl
  · rw [scheduleReap_view hfind, hview]
    rfl

/-! ## The whole termination -/

/-- A termination up to the point where the parent is told. -/
def wound (s : Machine) (tid code : Nat) : Machine :=
  (s.marked tid code).abortIpcForExitingTask tid

theorem terminateLifecycle_eq : s.terminateLifecycle tid code =
    match (s.markZombie tid code).2.1 with
    | .deliver parent => do
        let after ← (s.wound tid code).deliverExit parent tid code
        .ok (after.scheduleReap tid)
    | .linger => .ok (s.wound tid code)
    | .orphan => .ok ((s.wound tid code).scheduleReap tid) := rfl

/-- The CPU as the process model sees it once the task has begun to die. -/
def cpuWithout (current : Option Nat) (tid : Nat) : Option Nat :=
  if current = some tid then none else current

/-- What the rest of the termination finds. -/
structure WoundSpec (kinds : StepKind → Prop) (s : Machine) (current : Option Nat)
    (tid code : Nat) (task : Task) : Prop where
  ids : (s.wound tid code).Ids
  sameCpu : (s.wound tid code).current = s.current
  self : ((s.wound tid code).viewAs (cpuWithout current tid) (some tid)).task tid =
    some { task.view with state := .zombie code }
  unwound : ((s.wound tid code).viewAs (cpuWithout current tid) (some tid)).Unwound tid
  waiting : ∀ other found, other ≠ tid → s.findTask other = some found →
    found.state.isZombie = false →
    (((s.wound tid code).viewAs (cpuWithout current tid) (some tid)).state? other =
      some .blockedWait ↔ found.state = .blockedWait)
  steps : Steps kinds (s.viewAs current none)
    ((s.wound tid code).viewAs (cpuWithout current tid) (some tid))

theorem wound_spec {kinds : StepKind → Prop} {task : Task} (code : Nat)
    (hlifecycle : kinds .lifecycle)
    (hdie : kinds (.die ((s.viewAs current none).state? tid == some .blockedInput)))
    (hids : s.Ids) (hinv : (s.viewAs current none).Inv) (htask : s.findTask tid = some task)
    (target : current = some tid ∨ ∃ view killer, (s.viewAs current none).task tid = some view ∧
      view.parent = some killer ∧ current = some killer) :
    WoundSpec kinds s current tid code task := by
  have hview : (s.viewAs current none).task tid = some task.view := by simp [htask]
  have hisSome : ((s.viewAs current none).task tid).isSome := by simp [htask]
  obtain ⟨tasks, reapQueue, hmarked, hnodup, hlookup⟩ :=
    marked_spec code current none hids (Option.isSome_iff_exists.2 ⟨task, htask⟩)
  have hbegin : (s.marked tid code).viewAs (cpuWithout current tid) (some tid) =
      (s.viewAs current none).died tid code := by
    rw [hmarked]
    exact Proc.ext (funext hlookup) rfl rfl rfl rfl rfl rfl rfl
  have hstep : Step (.die ((s.viewAs current none).state? tid == some .blockedInput))
      (s.viewAs current none)
      ((s.marked tid code).viewAs (cpuWithout current tid) (some tid)) :=
    hbegin ▸ Step.die tid code hisSome rfl target
  have hmarkedIds : (s.marked tid code).Ids := by
    rw [hmarked]
    exact hnodup
  obtain ⟨hkept, hunwound, hsteps⟩ :=
    abortIpcForExitingTask_steps hlifecycle hmarkedIds (hinv.step hstep)
  refine ⟨hkept.ids, hkept.current.trans (by rw [hmarked]), ?_, hunwound, ?_,
    Relation.ReflTransGen.head ⟨_, hdie, hstep⟩ hsteps⟩
  · have hdead := Proc.dieTask_self code hview fun h =>
      Nat.lt_irrefl _ (hinv.tree.older tid task.view tid hview h)
    rw [← hlookup] at hdead
    obtain ⟨self, hfind, hself⟩ := Option.map_eq_some_iff.1 hdead
    have hstate : self.state = .zombie code := congrArg TaskView.state hself
    rw [viewAs_task, wound, hkept.kept tid self (by rw [hmarked]; exact hfind) (by rw [hstate]; rfl),
      Option.map_some, hself]
  · intro other found hne hfind halive
    have hbefore : (s.viewAs current none).state? other = some found.state := by
      rw [state?_viewAs, hfind, Option.map_some]
    have hmid : ((s.marked tid code).viewAs (cpuWithout current tid) (some tid)).state? other =
        some found.state := by
      rw [hbegin]
      exact (Proc.state?_died_iff hinv.tree hisSome halive).2 ⟨hne, hbefore⟩
    rw [state?_viewAs] at hmid ⊢
    obtain ⟨mid, hmidFind, hmidState⟩ := Option.map_eq_some_iff.1 hmid
    constructor
    · intro h
      obtain ⟨after, hafter, hwait⟩ := Option.map_eq_some_iff.1 h
      have := hkept.waiting other after hafter hwait
      rw [hmidFind, Option.some.injEq] at this
      rw [← hmidState, this, hwait]
    · intro h
      have hwait : mid.state = .blockedWait := hmidState.trans h
      rw [wound, hkept.kept other mid hmidFind (by rw [hwait]; rfl), Option.map_some, hwait]

/-- Termination always completes, and is a chain of abstract steps. -/
theorem terminateLifecycle_spec {kinds : StepKind → Prop} (code : Nat)
    (hlifecycle : kinds .lifecycle)
    (hdie : kinds (.die ((s.viewAs current none).state? tid == some .blockedInput)))
    (hids : s.Ids) (hinv : (s.viewAs current none).Inv) (hfound : (s.findTask tid).isSome)
    (target : current = some tid ∨ ∃ view killer, (s.viewAs current none).task tid = some view ∧
      view.parent = some killer ∧ current = some killer) :
    ∃ after, s.terminateLifecycle tid code = .ok after ∧ after.Ids ∧ after.current = s.current ∧
      Steps kinds (s.viewAs current none) (after.viewAs (cpuWithout current tid) none) := by
  obtain ⟨task, htask⟩ := Option.isSome_iff_exists.1 hfound
  have hspec := wound_spec code hlifecycle hdie hids hinv htask target
  have hview : (s.viewAs current none).task tid = some task.view := by simp [htask]
  obtain ⟨self, hself, -⟩ := Option.map_eq_some_iff.1 hspec.self
  rw [terminateLifecycle_eq]
  cases hparent : task.parent with
  | none =>
      rw [markZombie_fate_orphan htask hparent]
      refine ⟨_, rfl, ids_scheduleReap hspec.ids, ?_, hspec.steps.trans ?_⟩
      · simpa [scheduleReap, hself] using hspec.sameCpu
      · have hstep := Step.finishOrphan tid _ rfl hspec.unwound hspec.self hparent
        rw [← scheduleReap_view hself] at hstep
        exact steps_one hlifecycle hstep
  | some parent =>
      have hlive := hinv.tree.parentLive tid task.view parent hview hparent
      have hne : parent ≠ tid := by
        have := hinv.tree.older tid task.view parent hview hparent
        omega
      obtain ⟨parentView, hparentView, halive⟩ := hlive
      obtain ⟨parentTask, hparentTask, rfl⟩ := Option.map_eq_some_iff.1 hparentView
      have hwaiting := hspec.waiting parent parentTask hne hparentTask halive
      rw [markZombie_fate hids htask hparent hne hparentTask]
      split_ifs with hwait
      · have hparked := hwaiting.2 hwait
        rw [state?_viewAs] at hparked
        obtain ⟨parentFound, hparentFound, -⟩ := Option.map_eq_some_iff.1 hparked
        obtain ⟨told, htold, htoldIds, htoldCurrent, htoldView⟩ :=
          deliverExit_spec code hspec.ids hself hparentFound hne.symm
        refine ⟨told.scheduleReap tid, by dsimp only; rw [htold]; rfl, htoldIds,
          htoldCurrent.trans hspec.sameCpu, hspec.steps.trans ?_⟩
        have hstep := Step.finishDeliver tid parent code _ rfl hspec.unwound hspec.self rfl hparent
          (hwaiting.2 hwait)
        rw [htoldView]
        exact steps_one hlifecycle hstep
      · refine ⟨_, rfl, hspec.ids, hspec.sameCpu, hspec.steps.trans ?_⟩
        exact steps_one hlifecycle (Step.finishLinger tid parent _ rfl hspec.unwound hspec.self
          hparent (fun h => hwait (hwaiting.1 h)))

/-! ## Exit, wait and kill -/

section Calls

variable {kinds : StepKind → Prop}

theorem findTask_isSome_of_current (hinv : s.view.Inv) (hcurrent : s.current = some tid) :
    (s.findTask tid).isSome := by
  have hrun := hinv.running_of_current hcurrent
  rw [view, state?_viewAs] at hrun
  obtain ⟨task, hfind, -⟩ := Option.map_eq_some_iff.1 hrun
  simp [hfind]

theorem exitTask_outcome (hlifecycle : kinds .lifecycle) (hdie : kinds (.die false))
    (hschedule : kinds .schedule) (hids : s.Ids) (hinv : s.view.Inv)
    (hcurrent : s.current = some tid) : Outcome kinds s.view (s.exitTask tid code) := by
  have hrun := hinv.running_of_current hcurrent
  obtain ⟨after, heq, hafter, -, hsteps⟩ := terminateLifecycle_spec code hlifecycle
    (by rw [show (s.viewAs s.current none).state? tid = _ from hrun]; exact hdie) hids hinv
    (findTask_isSome_of_current hinv hcurrent) (.inl hcurrent)
  have hexit : s.exitTask tid code = after.switchAway := by
    rw [exitTask, heq]
    rfl
  rw [hexit]
  rw [hcurrent, cpuWithout, if_pos rfl] at hsteps
  refine Outcome.after ?_ (switchAway_outcome hschedule hafter)
  rwa [view, hcurrent]

theorem sysKill_outcome {victim : Nat} (hlifecycle : kinds .lifecycle)
    (hdie : ∀ view, s.view.task victim = some view → view.parent = some tid →
      kinds (.die (s.view.state? victim == some .blockedInput))) (hids : s.Ids)
    (hinv : s.view.Inv) (hcurrent : s.current = some tid) :
    Outcome kinds s.view (s.sysKill tid victim) := by
  unfold sysKill
  by_cases hself : victim = tid
  · rw [if_pos hself]
    exact setRax_outcome hids
  rw [if_neg hself]
  by_cases hchild : (s.tasks.any fun task => task.id == victim && task.parent == some tid) = true
  · rw [if_neg (not_not.2 hchild)]
    obtain ⟨task, hmem, htask⟩ := List.any_eq_true.1 hchild
    simp only [Bool.and_eq_true, beq_iff_eq] at htask
    obtain ⟨rfl, hparent⟩ := htask
    have hfind := findTask_of_mem hids hmem
    have hview : s.view.task task.id = some task.view := by simp [view, hfind]
    obtain ⟨after, heq, hafter, hsame, hsteps⟩ := terminateLifecycle_spec killCode hlifecycle
      (hdie task.view hview hparent) hids hinv (Option.isSome_iff_exists.2 ⟨task, hfind⟩)
      (.inr ⟨task.view, tid, hview, hparent, hcurrent⟩)
    have hcpu : cpuWithout s.current task.id = after.current := by
      rw [hsame, cpuWithout, if_neg]
      rw [hcurrent]
      simpa using Ne.symm hself
    rw [hcpu] at hsteps
    rw [heq]
    exact Outcome.after hsteps (setRax_outcome hafter)
  · rw [if_pos hchild]
    exact setRax_outcome hids

theorem reapZombie_view (hids : s.Ids) (vm : Vm) :
    ({ s with vm := vm, tasks := s.tasks.eraseP fun task => task.id == tid } : Machine).viewAs
      current dying = (s.viewAs current dying).remove tid := by
  rw [eraseP_eq_filter hids]
  refine Proc.ext (funext fun other => ?_) rfl rfl rfl rfl rfl rfl rfl
  simp only [viewAs_task, Proc.remove_task, findTask, Redoubt.Kernel.findTask, lookup_filter_ne]
  split_ifs <;> rfl

theorem sysWait_outcome {flags : Nat} (hlifecycle : kinds .lifecycle)
    (hschedule : kinds .schedule) (hids : s.Ids) (hinv : s.view.Inv)
    (hcurrent : s.current = some tid) : Outcome kinds s.view (s.sysWait tid flags) := by
  unfold sysWait
  split
  · rename_i child hchild
    have hfound := List.find?_some hchild
    have hmem := List.mem_filter.1 (List.mem_of_find?_eq_some hchild)
    have hparent : child.parent = some tid := by simpa using hmem.2
    have hfind := findTask_of_mem hids hmem.1
    obtain ⟨code, hcode⟩ : ∃ code, child.state = .zombie code := by
      cases hstate : child.state <;> simp_all [TaskState.isZombie]
    simp only [reapZombie, hfind, hcode]
    cases hreclaim : reclaim s.vm child.resources with
    | error => trivial
    | ok vm =>
        have hstep := Step.collect (p := s.view) tid child.id code child.view rfl hcurrent
          (by simp [view, hfind]) hcode hparent
        let reaped : Machine :=
          { s with vm := vm, tasks := s.tasks.eraseP fun task => task.id == child.id }
        have hreaped : reaped.Ids := hids.sublist (List.eraseP_sublist.map Task.id)
        have hview : (reaped.emit (.waited tid child.id code)).view =
            (s.view.remove child.id).emit [.waited tid child.id code] :=
          congrArg (fun p : Proc => p.emit [.waited tid child.id code])
            (@reapZombie_view s child.id s.current none hids vm)
        refine Outcome.after (steps_one hlifecycle hstep) ?_
        rw [← hview]
        exact setFrame_outcome (s := reaped.emit (.waited tid child.id code)) hreaped
  · rename_i hnone
    by_cases hlive : (s.tasks.any fun task =>
        task.parent == some tid && !task.state.isZombie) = true
    · rw [if_neg (not_not.2 hlive)]
      split_ifs with hflags
      · exact setRax_outcome hids
      · refine block_outcome hschedule hids (findTask_isSome_of_current hinv hcurrent)
          (steps_one hlifecycle (Step.parkWait tid hcurrent ?_ ?_))
        · intro child view hview hparent
          obtain ⟨task, hfind, rfl⟩ := Option.map_eq_some_iff.1 hview
          have hkid : task ∈ s.tasks.filter fun task => task.parent == some tid :=
            List.mem_filter.2 ⟨lookup_mem hfind, by simpa using hparent⟩
          simpa using List.find?_eq_none.1 hnone task hkid
        · obtain ⟨task, hmem, htask⟩ := List.any_eq_true.1 hlive
          simp only [Bool.and_eq_true, beq_iff_eq] at htask
          exact ⟨task.id, task.view, by simp [view, findTask_of_mem hids hmem], htask.1⟩
    · rw [if_pos hlive]
      exact setRax_outcome hids

end Calls

end Machine

end Redoubt.Kernel
