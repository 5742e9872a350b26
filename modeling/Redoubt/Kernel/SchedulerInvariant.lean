import Redoubt.Kernel.ProcessInvariant

/-!
# Every step keeps the table, scheduler and keyboard invariants

Each group has a congruence rule for steps that do not touch what it speaks
about, and one rule per operation that does.
-/

namespace Redoubt.Kernel

variable {view : TaskView}

theorem TaskState.isZombie_of_isParked {state : TaskState} (h : state.isParked = true) :
    state.isZombie = false := by
  cases state <;> simp_all [TaskState.isParked, TaskState.isZombie]

namespace Proc

variable {p q : Proc} {tid : Nat} {state old : TaskState} {kind : StepKind}

/-! ## The table after a termination and after a spawn -/

theorem dieTask_self (code : Nat) (found : p.task tid = some view)
    (hparent : view.parent ≠ some tid) :
    p.dieTask tid code tid = some { view with state := .zombie code } := by
  simp [dieTask, found, hparent]

theorem dieTask_ne {code other : Nat} (h : other ≠ tid) :
    p.dieTask tid code other = (p.task other).bind fun view =>
      if view.parent = some tid then
        if view.state.isZombie then none else some { view with parent := none }
      else some view := by
  cases hother : p.task other <;> simp [dieTask, hother, h]

theorem state?_died_self (code : Nat) (htree : p.TreeInv) (found : (p.task tid).isSome) :
    (p.died tid code).state? tid = some (.zombie code) := by
  obtain ⟨view, hview⟩ := Option.isSome_iff_exists.1 found
  have hparent : view.parent ≠ some tid := fun h =>
    Nat.lt_irrefl _ (htree.older tid view tid hview h)
  simp [state?, dieTask_self code hview hparent]

/-- Another task keeps its state, or was a dead child and is dropped. -/
theorem state?_died_ne (p : Proc) (code : Nat) {other : Nat} (h : other ≠ tid) :
    (p.died tid code).state? other = p.state? other ∨
      (p.died tid code).state? other = none ∧
        ∃ dead, p.state? other = some dead ∧ dead.isZombie = true := by
  simp only [state?, died_task, dieTask_ne h]
  cases p.task other with
  | none => simp
  | some view =>
      by_cases hkid : view.parent = some tid
      · by_cases hz : view.state.isZombie = true <;> simp [hkid, hz]
      · simp [hkid]

/-- A state that is not dead is seen after a termination exactly when another
task was in it before. -/
theorem state?_died_iff {code other : Nat} (htree : p.TreeInv) (found : (p.task tid).isSome)
    (halive : state.isZombie = false) :
    (p.died tid code).state? other = some state ↔ other ≠ tid ∧ p.state? other = some state := by
  by_cases h : other = tid
  · subst h
    rw [state?_died_self code htree found]
    constructor
    · intro hstate
      cases hstate
      cases halive
    · exact fun hstate => absurd rfl hstate.1
  · rcases state?_died_ne p code h with heq | ⟨hnone, dead, hdead, hzombie⟩
    · simp [heq, h]
    · rw [hnone, hdead]
      grind

theorem dead_died {code other : Nat} :
    (p.died tid code).Dead other ↔ p.Dead other ∨ other = tid := by
  simp [Dead, exists_or, eq_comm]

theorem state?_enter {other : Nat} : (p.enter view).state? other =
    if other = p.nextTid then some view.state else p.state? other := by
  unfold state?
  by_cases h : other = p.nextTid <;> simp [h]

theorem dead_enter {other : Nat} :
    (p.enter view).Dead other ↔ p.Dead other := by
  simp [Dead]

/-! ## Table -/

theorem TableInv.fresh (ht : p.TableInv) : p.task p.nextTid = none := by
  by_contra h
  exact Nat.lt_irrefl _ (ht.bounded _ h).2

theorem TableInv.congr (ht : p.TableInv) (hnext : q.nextTid = p.nextTid)
    (hdead : ∀ tid, q.Dead tid ↔ p.Dead tid) (ha : Agree TaskState.isZombie p q) :
    q.TableInv where
  positive := hnext ▸ ht.positive
  bounded := fun tid hsome => hnext ▸ ht.bounded tid (mt (ha.present tid).2 hsome)
  deadBounded := fun tid h => hnext ▸ ht.deadBounded tid ((hdead tid).1 h)
  deadGone := fun tid state h hstate => by
    have hnone := ha.present tid
    obtain ⟨old, hold⟩ : ∃ old, p.state? tid = some old := by
      rw [← Option.ne_none_iff_exists', Ne, state?_eq_none, ← hnone, ← state?_eq_none]
      simp [hstate]
    have hz := ht.deadGone tid old ((hdead tid).1 h) hold
    have := (ha.kept tid old hz).2 hold
    grind
  zombieDead := fun tid state hstate hz =>
    (hdead tid).2 (ht.zombieDead tid state ((ha.kept tid state hz).1 hstate) hz)

theorem TableInv.remove (ht : p.TableInv) (tid : Nat) : (p.remove tid).TableInv := by
  refine ⟨ht.positive, fun other => ?_, ht.deadBounded, fun other state => ?_, fun other state => ?_⟩
  · have := ht.bounded other
    grind [remove_task, remove_nextTid]
  · have := ht.deadGone other state
    rw [state?_remove]
    exact fun h => by grind [Dead, remove_trace]
  · have := ht.zombieDead other state
    rw [state?_remove]
    grind [Dead, remove_trace]

theorem TableInv.enter (ht : p.TableInv) (fresh : view.state = .ready) :
    (p.enter view).TableInv := by
  have hnotDead : ¬ p.Dead p.nextTid := fun h => Nat.lt_irrefl _ (ht.deadBounded _ h)
  have hpos := ht.positive
  refine ⟨Nat.succ_pos _, fun other => ?_, fun other => ?_, fun other state => ?_, fun other state => ?_⟩
  · have := ht.bounded other
    simp only [enter_task, enter_nextTid]
    grind
  · have := ht.deadBounded other
    rw [dead_enter, enter_nextTid]
    grind
  · have := ht.deadGone other state
    rw [dead_enter, state?_enter]
    grind
  · have := ht.zombieDead other state
    rw [dead_enter, state?_enter]
    grind [TaskState.isZombie]

theorem TableInv.died {code : Nat} (ht : p.TableInv) (htree : p.TreeInv)
    (found : (p.task tid).isSome) : (p.died tid code).TableInv := by
  have hself := state?_died_self code htree found
  have hother := fun other (h : other ≠ tid) => state?_died_ne p code h
  refine ⟨ht.positive, fun other => ?_, fun other => ?_, fun other state => ?_, fun other state => ?_⟩
  · rw [Ne, ← state?_eq_none]
    have := ht.bounded other
    have := @state?_eq_none p other
    have := hother other
    grind
  · rw [dead_died]
    have := ht.deadBounded other
    have := ht.bounded tid (Option.isSome_iff_ne_none.1 found)
    grind [died_nextTid]
  · rw [dead_died]
    have := ht.deadGone other state
    have := hother other
    grind [TaskState.isZombie]
  · rw [dead_died]
    have := ht.zombieDead other state
    have := hother other
    grind

/-! ## Scheduler -/

theorem SchedInv.congr (hs : p.SchedInv) (hrunning : ∀ tid, q.state? tid = some .running ↔
    p.state? tid = some .running) (hrunnable : ∀ tid, q.state? tid = some .ready ↔
    p.state? tid = some .ready) (hcurrent : q.current = p.current) (hready : q.ready = p.ready)
    (hdead : ∀ tid, p.Dead tid → q.Dead tid) : q.SchedInv := by
  refine ⟨fun tid => ?_, fun tid => ?_, fun tid hmem => ?_⟩
  · rw [hcurrent, hrunning]
    exact hs.running tid
  · rw [hrunnable, hready]
    exact hs.queued tid
  · rw [hrunnable]
    rw [hready] at hmem
    exact (hs.stale tid hmem).imp_right (hdead tid)

/-- The special case of an untouched table. -/
theorem SchedInv.history (hs : p.SchedInv) (htask : q.state? = p.state?)
    (hcurrent : q.current = p.current) (hready : q.ready = p.ready)
    (htrace : p.trace ⊆ q.trace) : q.SchedInv :=
  hs.congr (by simp [htask]) (by simp [htask]) hcurrent hready
    fun _ ⟨code, hmem⟩ => ⟨code, htrace hmem⟩

theorem not_mem_ready (hs : p.SchedInv) (ht : p.TableInv) (hstate : p.state? tid = some state)
    (hready : state ≠ .ready) (halive : state.isZombie = false) : tid ∉ p.ready := by
  intro hmem
  rcases hs.stale tid hmem with h | h
  · rw [hstate] at h
    exact hready (Option.some.inj h)
  · have := ht.deadGone tid state h hstate
    simp [halive] at this

theorem SchedInv.wake (hs : p.SchedInv) (ht : p.TableInv) (hstate : p.state? tid = some state)
    (hparked : state.isParked = true) : (p.wake tid).SchedInv := by
  have hnot := not_mem_ready hs ht hstate (by grind [TaskState.isParked])
    (TaskState.isZombie_of_isParked hparked)
  refine ⟨fun other => ?_, fun other => ?_, fun other => ?_⟩
  · have := hs.running other
    grind [TaskState.isParked]
  · have := hs.queued other
    grind [TaskState.isParked]
  · have := hs.stale other
    have hdead : p.Dead other → (p.wake tid).Dead other := id
    grind [TaskState.isParked]

theorem SchedInv.park (hs : p.SchedInv) (onCpu : p.current = some tid) (state : TaskState)
    (hparked : state.isParked = true) : (p.park tid state).SchedInv := by
  have hrun := (hs.running tid).1 onCpu
  refine ⟨fun other => ?_, fun other => ?_, fun other => ?_⟩
  · have := hs.running other
    grind [TaskState.isParked]
  · have := hs.queued other
    grind [TaskState.isParked]
  · have := hs.stale other
    have hdead : p.Dead other → (p.park tid state).Dead other := id
    grind [TaskState.isParked]

theorem SchedInv.resume {ready : List Nat} (hs : p.SchedInv) (idle : p.current = none)
    (runnable : p.state? tid = some .ready) (queue : ready.Perm (p.ready.erase tid)) :
    ({ p.setState tid .running with current := some tid, ready := ready } : Proc).SchedInv := by
  have hcount := hs.queued tid runnable
  refine ⟨fun other => ?_, fun other => ?_, fun other => ?_⟩
  · change some tid = some other ↔ (p.setState tid .running).state? other = _
    have := hs.running other
    grind
  · change (p.setState tid .running).state? other = _ → ready.count other = 1
    have := hs.queued other
    rw [queue.count_eq, List.count_erase]
    grind
  · change other ∈ ready → (p.setState tid .running).state? other = _ ∨ p.Dead other
    have := hs.stale other
    rw [queue.mem_iff]
    have hnot : tid ∉ p.ready.erase tid := by
      rw [← List.count_eq_zero, List.count_erase_self, hcount]
    have := List.mem_of_mem_erase (a := other) (b := tid) (l := p.ready)
    grind

theorem SchedInv.preempt (hs : p.SchedInv) (ht : p.TableInv) (onCpu : p.current = some tid) :
    ({ p.park tid .ready with ready := p.ready ++ [tid] } : Proc).SchedInv := by
  have hrun := (hs.running tid).1 onCpu
  have hnot := not_mem_ready hs ht hrun (by simp) rfl
  refine ⟨fun other => ?_, fun other => ?_, fun other => ?_⟩
  · change none = some other ↔ (p.park tid .ready).state? other = _
    have := hs.running other
    grind
  · change (p.park tid .ready).state? other = _ → (p.ready ++ [tid]).count other = 1
    have := hs.queued other
    grind
  · change other ∈ p.ready ++ [tid] → (p.park tid .ready).state? other = _ ∨ p.Dead other
    have := hs.stale other
    grind

theorem SchedInv.enter (hs : p.SchedInv) (ht : p.TableInv)
    (fresh : view.state = .ready) : (p.enter view).SchedInv := by
  have hnew : p.state? p.nextTid = none := state?_eq_none.2 ht.fresh
  have hnotDead : ¬ p.Dead p.nextTid := fun h => Nat.lt_irrefl _ (ht.deadBounded _ h)
  have hnot : p.nextTid ∉ p.ready := fun hmem => by
    have := hs.stale _ hmem
    simp [hnew, hnotDead] at this
  refine ⟨fun other => ?_, fun other => ?_, fun other => ?_⟩
  · have := hs.running other
    rw [state?_enter]
    grind
  · have := hs.queued other
    rw [state?_enter]
    grind
  · have := hs.stale other
    rw [state?_enter, dead_enter]
    grind

theorem SchedInv.died {code : Nat} (hs : p.SchedInv) (htree : p.TreeInv)
    (found : (p.task tid).isSome) : (p.died tid code).SchedInv := by
  refine ⟨fun other => ?_, fun other => ?_, fun other => ?_⟩
  · have := hs.running other
    rw [state?_died_iff htree found rfl]
    grind
  · have := hs.queued other
    rw [state?_died_iff htree found rfl]
    grind
  · have := hs.stale other
    rw [state?_died_iff htree found rfl, dead_died]
    grind

theorem SchedInv.remove (hs : p.SchedInv) (hstate : p.state? tid = some state)
    (hzombie : state.isZombie = true) : (p.remove tid).SchedInv := by
  refine hs.congr (fun other => ?_) (fun other => ?_) rfl rfl fun _ h => h
  · grind [TaskState.isZombie]
  · grind [TaskState.isZombie]

/-! ## Keyboard readers -/

theorem InputInv.congr (hi : p.InputInv) (hwaiters : q.waiters = p.waiters)
    (hparked : ∀ tid, q.state? tid = some .blockedInput ↔ p.state? tid = some .blockedInput)
    (hdead : ∀ tid, p.Dead tid → q.Dead tid)
    (hspace : ∀ tid view, q.task tid = some view →
      (∃ old, p.task tid = some old ∧ old.cr3 = view.cr3) ∨ ∀ w ∈ p.waiters, w.tid ≠ tid) :
    q.InputInv where
  once := hwaiters ▸ hi.once
  parkedOrDead := fun waiter hmem =>
    (hi.parkedOrDead waiter (hwaiters ▸ hmem)).imp (hparked _).2 (hdead _)
  registered := fun tid hstate => hwaiters ▸ hi.registered tid ((hparked tid).1 hstate)
  space := fun waiter hmem view hview => by
    rw [hwaiters] at hmem
    rcases hspace waiter.tid view hview with ⟨old, hold, heq⟩ | hfresh
    · exact heq ▸ hi.space waiter hmem old hold
    · exact absurd rfl (hfresh waiter hmem)

theorem InputInv.setState (hi : p.InputInv) (new : TaskState) (hstate : p.state? tid = some old)
    (hold : old ≠ .blockedInput) (hnew : new ≠ .blockedInput) :
    (p.setState tid new).InputInv := by
  refine hi.congr rfl (fun other => ?_) (fun _ h => h) fun other view hview => .inl ?_
  · grind
  · by_cases h : other = tid
    · simp only [setState_task, setTask_task, h, if_true, Option.map_eq_some_iff] at hview
      obtain ⟨before, hbefore, rfl⟩ := hview
      exact ⟨before, h ▸ hbefore, rfl⟩
    · simp only [setState_task, setTask_task, h, if_false] at hview
      exact ⟨view, hview, rfl⟩

theorem InputInv.not_registered (hi : p.InputInv) (ht : p.TableInv)
    (hstate : p.state? tid = some state) (hplain : state ≠ .blockedInput)
    (halive : state.isZombie = false) : ∀ waiter ∈ p.waiters, waiter.tid ≠ tid := by
  intro waiter hmem heq
  have hdead := ht.deadGone tid state
  have := hi.parkedOrDead waiter hmem
  grind

theorem InputInv.park {waiter : Waiter} {view : TaskView} (hi : p.InputInv) (ht : p.TableInv)
    (hrun : p.state? waiter.tid = some .running) (found : p.task waiter.tid = some view)
    (hspace : view.cr3 = waiter.cr3) :
    ({ p.park waiter.tid .blockedInput with waiters := p.waiters ++ [waiter] } : Proc).InputInv := by
  have hfresh := hi.not_registered ht hrun (by simp) rfl
  refine ⟨?_, fun other hmem => ?_, fun tid => ?_, fun other hmem before => ?_⟩
  · simp only [List.map_append, List.map_cons, List.map_nil]
    refine List.nodup_append.2 ⟨hi.once, by simp, ?_⟩
    simpa using hfresh
  · change (p.park waiter.tid .blockedInput).state? other.tid = _ ∨ p.Dead other.tid
    have := hi.parkedOrDead other
    grind
  · change (p.park waiter.tid .blockedInput).state? tid = _ → ∃ w ∈ p.waiters ++ [waiter], _
    have := hi.registered tid
    grind
  · have hold := hi.space other
    by_cases h : other.tid = waiter.tid
    · have : other = waiter := by grind
      subst this
      simp only [park_task, setState_task, setTask_task, if_true, found, Option.map_some,
        Option.some.injEq]
      rintro rfl
      exact hspace
    · simp only [park_task, setState_task, setTask_task, h, if_false]
      grind

theorem InputInv.serve {waiter : Waiter} {rest : List Waiter} (hi : p.InputInv)
    (queued : p.waiters = waiter :: rest) (parked : p.state? waiter.tid = some .blockedInput) :
    ({ p.wake waiter.tid with waiters := rest } : Proc).InputInv := by
  have honce := hi.once
  rw [queued, List.map_cons, List.nodup_cons] at honce
  have hfresh : ∀ other ∈ rest, other.tid ≠ waiter.tid := fun other hmem heq =>
    honce.1 (heq ▸ List.mem_map_of_mem hmem)
  refine ⟨honce.2, fun other hmem => ?_, fun tid => ?_, fun other hmem before => ?_⟩
  · change (p.wake waiter.tid).state? other.tid = _ ∨ p.Dead other.tid
    have := hi.parkedOrDead other
    grind
  · change (p.wake waiter.tid).state? tid = _ → ∃ w ∈ rest, _
    have := hi.registered tid
    grind
  · have := hi.space other
    simp only [wake_task, setState_task, setTask_task, hfresh other hmem, if_false]
    grind

theorem InputInv.drop {waiter : Waiter} {rest ready : _} (hi : p.InputInv)
    (queued : p.waiters = waiter :: rest) (gone : p.state? waiter.tid ≠ some .blockedInput) :
    ({ p with waiters := rest, ready := ready } : Proc).InputInv := by
  have honce := hi.once
  rw [queued, List.map_cons, List.nodup_cons] at honce
  refine ⟨honce.2, fun other hmem => ?_, fun tid => ?_, fun other hmem before => ?_⟩
  · exact hi.parkedOrDead other (queued ▸ List.mem_cons_of_mem _ hmem)
  · change p.state? tid = _ → ∃ w ∈ rest, _
    have := hi.registered tid
    grind
  · exact hi.space other (queued ▸ List.mem_cons_of_mem _ hmem) before

theorem InputInv.died {code : Nat} (hi : p.InputInv) (htree : p.TreeInv)
    (found : (p.task tid).isSome) : (p.died tid code).InputInv := by
  obtain ⟨self, hself⟩ := Option.isSome_iff_exists.1 found
  have hself' := dieTask_self code hself fun h =>
    Nat.lt_irrefl _ (htree.older tid self tid hself h)
  refine ⟨hi.once, fun waiter hmem => ?_, fun other hparked => ?_, fun waiter hmem view hview => ?_⟩
  · have := hi.parkedOrDead waiter hmem
    rw [state?_died_iff htree found rfl, dead_died]
    grind
  · exact hi.registered other ((state?_died_iff htree found rfl).1 hparked).2
  · by_cases h : waiter.tid = tid
    · rw [died_task, h, hself', Option.some.injEq] at hview
      have := hi.space waiter hmem self (h ▸ hself)
      grind
    · rw [died_task, dieTask_ne h, Option.bind_eq_some_iff] at hview
      obtain ⟨old, hold, hview⟩ := hview
      have := hi.space waiter hmem old hold
      grind

theorem InputInv.remove (hi : p.InputInv) (hstate : p.state? tid = some state)
    (hzombie : state.isZombie = true) : (p.remove tid).InputInv := by
  refine hi.congr rfl (fun other => ?_) (fun _ h => h) fun other view hview => .inl ?_
  · grind [TaskState.isZombie]
  · exact ⟨view, by grind [remove_task], rfl⟩

theorem InputInv.enter (hi : p.InputInv) (ht : p.TableInv)
    (fresh : view.state = .ready) : (p.enter view).InputInv := by
  have hnew := ht.fresh
  refine hi.congr rfl (fun other => ?_) (fun _ h => dead_enter.2 h) fun other before hview => ?_
  · have := state?_eq_none.2 hnew
    rw [state?_enter]
    grind
  · by_cases h : other = p.nextTid
    · refine .inr fun waiter hmem heq => ?_
      have := hi.parkedOrDead waiter hmem
      have := ht.deadBounded waiter.tid
      have := state?_eq_none.2 hnew
      grind
    · exact .inl ⟨before, by grind [enter_task], rfl⟩

end Proc

end Redoubt.Kernel
