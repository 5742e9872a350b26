import Redoubt.Kernel.RunSafety

/-!
# Tasks along runs

A task keeps its id, its address space and its capabilities as long as it is in the table.
-/

namespace Redoubt.Kernel

open Redoubt.Foundation

namespace Proc

variable {p q r : Proc} {kind : StepKind} {tid : Nat}

/-- Whoever has an id that was handed out before is the task that had it, in the same
address space and with every capability it held in the slot where it was. -/
structure Endures (p q : Proc) : Prop where
  ids : p.nextTid ≤ q.nextTid
  dead : ∀ tid, p.Dead tid → q.Dead tid
  tasks : ∀ tid view', tid < p.nextTid → q.task tid = some view' → ∃ view, p.task tid = some view ∧
    view'.cr3 = view.cr3 ∧ ∀ slot cap, view.caps.cap? slot = some cap → view'.caps.cap? slot = some cap

theorem Endures.refl (p : Proc) : Endures p p :=
  ⟨Nat.le_refl _, fun _ h => h, fun _ view _ h => ⟨view, h, rfl, fun _ _ h => h⟩⟩

theorem Endures.trans (h : Endures p q) (h' : Endures q r) : Endures p r := by
  refine ⟨h.ids.trans h'.ids, fun tid hdead => h'.dead tid (h.dead tid hdead), ?_⟩
  intro tid view' hold hview'
  obtain ⟨mid, hmid, hcr3, hcaps⟩ := h'.tasks tid view' (hold.trans_le h.ids) hview'
  obtain ⟨view, hview, hcr3', hcaps'⟩ := h.tasks tid mid hold hmid
  exact ⟨view, hview, hcr3.trans hcr3', fun slot cap hcap => hcaps slot cap (hcaps' slot cap hcap)⟩

theorem Step.endures (step : Step kind p q) : Endures p q := by
  refine ⟨by cases step <;> simp, fun tid hdead => hdead.step step, fun tid view' hold hview' => ?_⟩
  by_cases hderive : kind = .derive
  · subst hderive
    cases step with
    | derive owner slot view src derived a _ found _ _ free =>
        by_cases howner : tid = owner
        · subst howner
          simp only [fillSlot_task, setTask_task, if_true, found, Option.map_some,
            Option.some.injEq] at hview'
          subst hview'
          refine ⟨view, found, rfl, fun other cap hcap => ?_⟩
          -- the slot that is filled was empty
          obtain ⟨hroom, hempty⟩ := CapTable.freeCapSlot_spec free
          rw [CapTable.cap?_set hroom]
          split_ifs with hother
          · rw [hother, CapTable.cap?, hempty] at hcap
            cases hcap
          · exact hcap
        · simp only [fillSlot_task, setTask_task, howner, if_false] at hview'
          exact ⟨view', hview', rfl, fun _ _ h => h⟩
  · by_cases hspawn : kind = .spawn
    · subst hspawn
      cases step with
      | spawn =>
          simp only [enter_task, hold.ne, if_false] at hview'
          exact ⟨view', hview', rfl, fun _ _ h => h⟩
    · obtain ⟨view, hview, hcr3, hcaps⟩ := step.holds_before hderive hspawn ⟨view', hview', rfl, rfl⟩
      exact ⟨view, hview, hcr3.symm, fun slot cap hcap => hcaps ▸ hcap⟩

theorem Steps.endures {kinds : StepKind → Prop} (steps : Steps kinds p q) : Endures p q := by
  induction steps with
  | refl => exact .refl _
  | tail _ step ih =>
      obtain ⟨kind, -, step⟩ := step
      exact ih.trans step.endures

end Proc

/-- Along every run a task that was not spawned on the way was in the table before, it has
the same address space and still has each of its capabilities in the same slot; and who is
dead stays dead. -/
theorem tasks_endure {env : BootEnv} {s after : Machine} (h : env.Reachable s)
    (run : RunsTo Machine.step (fun _ _ => True) s after) {tid : Nat} {task : Task}
    (found : after.findTask tid = some task) : s.nextTid ≤ tid ∨
      ∃ before, s.findTask tid = some before ∧ task.cr3 = before.cr3 ∧
        (∀ slot cap, before.caps.cap? slot = some cap → task.caps.cap? slot = some cap) ∧
        (before.state.isZombie = true → task.state.isZombie = true) := by
  have hends : after.Sound ∧ Proc.Endures s.view after.view := by
    refine run.invariant (I := fun now => now.Sound ∧ Proc.Endures s.view now.view) ?_ ?_
    · rintro now rfl
      exact ⟨h.sound, .refl _⟩
    · rintro now action next ⟨hsound, hendures⟩ - hstep
      obtain ⟨hnext, hsteps⟩ := hsound.step hstep
      exact ⟨hnext, hendures.trans hsteps.endures⟩
  obtain ⟨hsound, hendures⟩ := hends
  refine (Nat.lt_or_ge tid s.nextTid).symm.imp_right fun old => ?_
  obtain ⟨view, hview, hcr3, hcaps⟩ := hendures.tasks tid task.view old (by simp [Machine.view, found])
  obtain ⟨before, hbefore, rfl⟩ := Option.map_eq_some_iff.1 hview
  have hstate : s.view.state? tid = some before.state := Machine.state?_view_iff.2 ⟨before, hbefore, rfl⟩
  refine ⟨before, hbefore, hcr3, hcaps, fun hzombie => ?_⟩
  exact hsound.inv.table.deadGone tid task.state
    (hendures.dead tid (h.sound.inv.table.zombieDead tid _ hstate hzombie))
    (Machine.state?_view_iff.2 ⟨task, found, rfl⟩)

/-- The console and its child meet on an endpoint, where one of them is stuck in a call. -/
theorem tasks_endure_stranded : ∃ s after task, sampleEnv.Reachable s ∧
    RunsTo Machine.step (fun _ _ => True) s after ∧ after.findTask task.id = some task ∧
      task.state = .blockedCall 0 ∧
      (s.nextTid ≤ task.id ∨ ∃ before, s.findTask task.id = some before ∧ task.cr3 = before.cr3) := by
  obtain ⟨s, hchild, -, -, hstrands, -⟩ := sampleEnv_child
  obtain ⟨after, hafter, hcheck⟩ := (Option.any_eq_true _ _).1 hstrands
  obtain ⟨task, hmem, hstate⟩ := List.any_eq_true.1 hcheck
  have hrun : RunsTo Machine.step (fun _ _ => True) s after :=
    Reached.of_runList (fun _ _ _ => trivial) _ (.start rfl) hafter
  have hreach : sampleEnv.Reachable after :=
    Reached.of_runList (fun _ _ _ => trivial) _ hchild.reachable hafter
  have hfound := Machine.findTask_of_mem hreach.sound.1 hmem
  refine ⟨s, after, task, hchild.reachable, hrun, hfound,
    by simpa using (Bool.and_eq_true_iff.1 hstate).1, ?_⟩
  refine (tasks_endure hchild.reachable hrun hfound).imp_right ?_
  rintro ⟨before, hbefore, hcr3, -⟩
  exact ⟨before, hbefore, hcr3⟩

end Redoubt.Kernel
