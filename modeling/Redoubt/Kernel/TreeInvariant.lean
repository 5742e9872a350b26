import Redoubt.Kernel.IpcInvariant

/-!
# Every step keeps the process tree

The last group, and from all groups together the invariant of the whole
process model.
-/

namespace Redoubt.Kernel

namespace Proc

variable {p q r : Proc} {tid : Nat} {view : TaskView} {state new : TaskState}

/-! ## Unchanged family relations -/

/-- The same tasks with the same parents, and nobody has died. -/
structure Kin (p q : Proc) : Prop where
  before : ∀ tid view, q.task tid = some view → ∃ old, p.task tid = some old ∧
    old.parent = view.parent ∧ (view.state.isZombie = true → old.state.isZombie = true)
  after : ∀ tid old, p.task tid = some old → ∃ view, q.task tid = some view ∧
    view.parent = old.parent
  live : ∀ tid, p.Live tid → q.Live tid

theorem Kin.trans (hpq : Kin p q) (hqr : Kin q r) : Kin p r where
  before := fun tid view hview => by
    obtain ⟨mid, hmid, hparent, hzombie⟩ := hqr.before tid view hview
    obtain ⟨old, hold, hparent', hzombie'⟩ := hpq.before tid mid hmid
    exact ⟨old, hold, hparent'.trans hparent, hzombie' ∘ hzombie⟩
  after := fun tid old hold => by
    obtain ⟨mid, hmid, hparent⟩ := hpq.after tid old hold
    obtain ⟨view, hview, hparent'⟩ := hqr.after tid mid hmid
    exact ⟨view, hview, hparent'.trans hparent⟩
  live := fun tid h => hqr.live tid (hpq.live tid h)

theorem Kin.setTask {change : TaskView → TaskView} (htask : q.task = (p.setTask tid change).task)
    (hparent : ∀ view, (change view).parent = view.parent)
    (halive : ∀ view, (change view).state.isZombie = true → view.state.isZombie = true) :
    Kin p q := by
  refine ⟨fun other view hview => ?_, fun other old hold => ?_, fun other hlive => ?_⟩
  · by_cases h : other = tid
    · simp only [htask, setTask_task, h, if_true, Option.map_eq_some_iff] at hview
      obtain ⟨old, hold, rfl⟩ := hview
      exact ⟨old, h ▸ hold, (hparent old).symm, halive old⟩
    · simp only [htask, setTask_task, h, if_false] at hview
      exact ⟨view, hview, rfl, id⟩
  · by_cases h : other = tid
    · exact ⟨change old, by simp [htask, h, h ▸ hold], hparent old⟩
    · exact ⟨old, by simp [htask, h, hold], rfl⟩
  · obtain ⟨old, hold, hz⟩ := hlive
    by_cases h : other = tid
    · refine ⟨change old, by simp [htask, h, h ▸ hold], ?_⟩
      have := halive old
      grind
    · exact ⟨old, by simp [htask, h, hold], hz⟩

theorem Kin.setState (tid : Nat) (new : TaskState) (htask : q.task = (p.setState tid new).task)
    (halive : new.isZombie = false) : Kin p q :=
  Kin.setTask htask (fun _ => rfl) fun _ h => by simp [halive] at h

/-- Family relations carry the tree over; who newly waits must have a child and
no dead one. -/
theorem TreeInv.kin (htree : p.TreeInv) (hkin : Kin p q) (hdying : q.dying = p.dying)
    (hwait : ∀ tid, q.state? tid = some .blockedWait → p.state? tid = some .blockedWait ∨
      (∀ child view, p.task child = some view → view.parent = some tid →
        view.state.isZombie = false) ∧
      ∃ child view, p.task child = some view ∧ view.parent = some tid) : q.TreeInv where
  older := fun tid view parent hview hp => by
    obtain ⟨old, hold, heq, -⟩ := hkin.before tid view hview
    exact htree.older tid old parent hold (heq.trans hp)
  parentLive := fun tid view parent hview hp => by
    obtain ⟨old, hold, heq, -⟩ := hkin.before tid view hview
    exact hkin.live parent (htree.parentLive tid old parent hold (heq.trans hp))
  zombieSeen := fun tid view hview hzombie hcalm => by
    obtain ⟨old, hold, heq, hdead⟩ := hkin.before tid view hview
    obtain ⟨parent, hp, hbusy⟩ := htree.zombieSeen tid old hold (hdead hzombie) (hdying ▸ hcalm)
    refine ⟨parent, heq ▸ hp, fun hwaiting => ?_⟩
    rcases hwait parent hwaiting with h | ⟨hnone, -⟩
    · exact hbusy h
    · simp [hnone tid old hold hp] at hdead
      simp [hdead] at hzombie
  waitingChild := fun tid hwaiting => by
    have hchild : ∃ child view, p.task child = some view ∧ view.parent = some tid :=
      (hwait tid hwaiting).elim (htree.waitingChild tid) And.right
    obtain ⟨child, old, hold, hp⟩ := hchild
    obtain ⟨view, hview, heq⟩ := hkin.after child old hold
    exact ⟨child, view, hview, heq.trans hp⟩
  waitingLive := fun tid child view hwaiting hview hp hzombie => by
    obtain ⟨old, hold, heq, hdead⟩ := hkin.before child view hview
    rw [hdying]
    rcases hwait tid hwaiting with h | ⟨hnone, -⟩
    · exact htree.waitingLive tid child old h hold (heq.trans hp) (hdead hzombie)
    · have := hnone child old hold (heq.trans hp)
      simp [hdead hzombie] at this

theorem TreeInv.of_task (htree : p.TreeInv) (htask : q.task = p.task)
    (hdying : q.dying = p.dying) : q.TreeInv :=
  htree.kin ⟨fun _ view h => ⟨view, htask ▸ h, rfl, id⟩, fun _ old h => ⟨old, htask ▸ h, rfl⟩,
    fun _ h => by simpa only [Live, htask] using h⟩ hdying
    fun _ hwait => .inl (by simpa only [state?, htask] using hwait)

/-! ## Birth and death -/

theorem not_parent_of_zombie (htree : p.TreeInv) (hstate : p.state? tid = some state)
    (hzombie : state.isZombie = true) {child : Nat} (hchild : p.task child = some view) :
    view.parent ≠ some tid := by
  intro hp
  have := live_iff.1 (htree.parentLive child view tid hchild hp)
  grind

theorem TreeInv.remove (htree : p.TreeInv) (found : p.task tid = some view)
    (hzombie : view.state.isZombie = true)
    (hbusy : ∀ parent, view.parent = some parent → p.state? parent ≠ some .blockedWait) :
    (p.remove tid).TreeInv := by
  have hstate : p.state? tid = some view.state := by simp [state?, found]
  have hnokid : ∀ child view, p.task child = some view → view.parent ≠ some tid :=
    fun _ _ => not_parent_of_zombie htree hstate hzombie
  refine ⟨fun other view parent hview hp => ?_, fun other view parent hview hp => ?_,
    fun other view hview hz hcalm => ?_, fun other hwait => ?_,
    fun other child view hwait hview hp hz => ?_⟩
  · have := htree.older other view parent
    grind [remove_task]
  · have := htree.parentLive other view parent
    rw [live_iff] at *
    grind [remove_task]
  · have := htree.zombieSeen other view
    grind [remove_task]
  · obtain ⟨child, old, hold, hp⟩ := htree.waitingChild other (by grind)
    have hne : child ≠ tid := by grind
    exact ⟨child, old, by simp [hne, hold], hp⟩
  · have := htree.waitingLive other child view
    grind [remove_task]

/-- The teardown of a task that is gone from the table is over. -/
theorem TreeInv.torn (htree : p.TreeInv) (tid : Nat) (dying : p.dying = some tid)
    (gone : p.task tid = none) :
    ({ p with dying := none } : Proc).TreeInv := by
  refine ⟨htree.older, htree.parentLive, fun other view hview hz _ => ?_, htree.waitingChild,
    fun other child view hwait hview hp hz => ?_⟩
  · refine htree.zombieSeen other view hview hz fun h => ?_
    obtain rfl : tid = other := Option.some.inj (dying.symm.trans h)
    change p.task tid = some view at hview
    simp [gone] at hview
  · have h := htree.waitingLive other child view hwait hview hp hz
    obtain rfl : tid = child := Option.some.inj (dying.symm.trans h)
    change p.task tid = some view at hview
    simp [gone] at hview

/-- The teardown of a task that stays readable for its parent is over. -/
theorem TreeInv.linger {parent : Nat} (htree : p.TreeInv) (dying : p.dying = some tid)
    (found : p.task tid = some view) (child : view.parent = some parent)
    (busy : p.state? parent ≠ some .blockedWait) :
    ({ p with dying := none } : Proc).TreeInv := by
  refine ⟨htree.older, htree.parentLive, fun other before hview hz _ => ?_, htree.waitingChild,
    fun other kid before hwait hview hp hz => ?_⟩
  · change p.task other = some before at hview
    by_cases h : p.dying = some other
    · obtain rfl : tid = other := Option.some.inj (dying.symm.trans h)
      obtain rfl : view = before := Option.some.inj (found.symm.trans hview)
      exact ⟨parent, child, busy⟩
    · exact htree.zombieSeen other before hview hz h
  · change p.task kid = some before at hview
    have h := htree.waitingLive other kid before hwait hview hp hz
    obtain rfl : tid = kid := Option.some.inj (dying.symm.trans h)
    obtain rfl : view = before := Option.some.inj (found.symm.trans hview)
    obtain rfl : parent = other := Option.some.inj (child.symm.trans hp)
    exact absurd hwait busy

theorem TreeInv.enter (htree : p.TreeInv) (ht : p.TableInv) (fresh : view.state = .ready)
    (hparent : ∀ parent, view.parent = some parent → p.Live parent) : (p.enter view).TreeInv := by
  have hnew := ht.fresh
  have hlive : ∀ other, p.Live other → (p.enter view).Live other := by
    intro other h
    obtain ⟨old, hold, hz⟩ := h
    exact ⟨old, by grind [enter_task], hz⟩
  have hwaiting : ∀ other, (p.enter view).state? other = some .blockedWait →
      p.state? other = some .blockedWait := by
    intro other
    rw [state?_enter]
    grind
  have hbound : ∀ other, p.Live other → other < p.nextTid := fun other ⟨old, hold, _⟩ =>
    (ht.bounded other (by simp [hold])).2
  refine ⟨fun other before parent hview hp => ?_, fun other before parent hview hp => ?_,
    fun other before hview hz hcalm => ?_, fun other hwait => ?_,
    fun other child before hwait hview hp hz => ?_⟩
  · have := htree.older other before parent
    grind [enter_task]
  · refine hlive parent ?_
    have := htree.parentLive other before parent
    grind [enter_task]
  · have := htree.zombieSeen other before
    grind [enter_task, TaskState.isZombie]
  · obtain ⟨child, old, hold, hp⟩ := htree.waitingChild other (hwaiting other hwait)
    exact ⟨child, old, by grind [enter_task], hp⟩
  · have := htree.waitingLive other child before (hwaiting other hwait)
    grind [enter_task, TaskState.isZombie]

theorem TreeInv.died {code : Nat} (htree : p.TreeInv) (calm : p.dying = none)
    (found : (p.task tid).isSome) : (p.died tid code).TreeInv := by
  obtain ⟨self, hself⟩ := Option.isSome_iff_exists.1 found
  have hself' := dieTask_self code hself fun h =>
    Nat.lt_irrefl _ (htree.older tid self tid hself h)
  -- whoever is left has its old parent, unless that parent is the dying task
  have hbefore : ∀ other view, (p.died tid code).task other = some view → ∃ old,
      p.task other = some old ∧ (view.parent = old.parent ∧ view.parent ≠ some tid ∧
        (other ≠ tid → view.state = old.state) ∨ view.parent = none ∧ view.state.isZombie = false) := by
    intro other view hview
    by_cases h : other = tid
    · subst h
      rw [died_task, hself', Option.some.injEq] at hview
      subst hview
      have := htree.older other self other hself
      exact ⟨self, hself, .inl ⟨rfl, by grind, by grind⟩⟩
    · rw [died_task, dieTask_ne h, Option.bind_eq_some_iff] at hview
      obtain ⟨old, hold, hview⟩ := hview
      exact ⟨old, hold, by grind⟩
  have hlive : ∀ other, other ≠ tid → p.Live other → (p.died tid code).Live other := by
    intro other h hlive
    have := state?_died_ne p code h
    rw [live_iff] at *
    grind
  have hwaiting : ∀ other, (p.died tid code).state? other = some .blockedWait →
      other ≠ tid ∧ p.state? other = some .blockedWait := fun other =>
    (state?_died_iff htree found rfl).1
  refine ⟨fun other view parent hview hp => ?_, fun other view parent hview hp => ?_,
    fun other view hview hz hcalm => ?_, fun other hwait => ?_,
    fun other child view hwait hview hp hz => ?_⟩
  · obtain ⟨old, hold, hcase⟩ := hbefore other view hview
    exact htree.older other old parent hold (by grind)
  · obtain ⟨old, hold, hcase⟩ := hbefore other view hview
    exact hlive parent (by grind) (htree.parentLive other old parent hold (by grind))
  · obtain ⟨old, hold, hcase⟩ := hbefore other view hview
    have hne : other ≠ tid := fun h => hcalm (by simp [h])
    obtain ⟨parent, hp, hbusy⟩ := htree.zombieSeen other old hold (by grind) (by simp [calm])
    exact ⟨parent, by grind, fun h => hbusy (hwaiting parent h).2⟩
  · obtain ⟨hne, hwait⟩ := hwaiting other hwait
    obtain ⟨child, old, hold, hp⟩ := htree.waitingChild other hwait
    by_cases h : child = tid
    · subst h
      obtain rfl : self = old := Option.some.inj (hself.symm.trans hold)
      exact ⟨child, _, hself', hp⟩
    · refine ⟨child, old, ?_, hp⟩
      rw [died_task, dieTask_ne h, hold]
      simp [hp, hne]
  · obtain ⟨hne, hwait⟩ := hwaiting other hwait
    obtain ⟨old, hold, hcase⟩ := hbefore child view hview
    by_cases h : child = tid
    · simp [h]
    · have := htree.waitingLive other child old hwait hold (by grind) (by grind)
      simp [calm] at this

end Proc

end Redoubt.Kernel
