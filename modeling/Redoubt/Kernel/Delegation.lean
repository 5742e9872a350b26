import Redoubt.Kernel.RunSafety
import Redoubt.Kernel.IpcRegisters

/-!
# Delegation of authority

Where the capabilities of a task come from.  A table changes by the task's own
derivation or is filled at the task's creation, always with capabilities that
the acting task could grant.  So everything a task and its descendants can ever
do to a disk lies within what the task itself holds.
-/

namespace Redoubt.Kernel

open Redoubt.Foundation
open Proc (StepKind Step Steps)

/-- `child` was spawned by `root`, by one of its children, and so on. -/
def Descends (trace : List Event) : Nat → Nat → Prop :=
  Relation.ReflTransGen fun parent child => .spawned (some parent) child ∈ trace

section Descent

variable {trace events : List Event} {root tid : Nat}

theorem Descends.of_append (hevents : ∀ parent child, Event.spawned (some parent) child ∉ events)
    (h : Descends (trace ++ events) root tid) : Descends trace root tid := by
  refine Relation.ReflTransGen.mono (fun parent child hmem => ?_) _ _ h
  exact (List.mem_append.1 hmem).resolve_right (hevents parent child)

/-- A spawn adds the new task as a leaf. -/
theorem Descends.of_spawn {parent : Option Nat} {limit : Nat}
    (hold : ∀ parent child, Event.spawned (some parent) child ∈ trace → parent < limit)
    (hparent : ∀ spawner, parent = some spawner → spawner < limit)
    (h : Descends (trace ++ [.spawned parent limit]) root tid) :
    Descends trace root tid ∨
      tid = limit ∧ ∃ spawner, parent = some spawner ∧ Descends trace root spawner := by
  induction h with
  | refl => exact .inl .refl
  | @tail middle child _ hedge ih =>
      rcases List.mem_append.1 hedge with hmem | hmem
      · rcases ih with hroot | ⟨rfl, -⟩
        · exact .inl (hroot.tail hmem)
        · exact absurd (hold _ _ hmem) (Nat.lt_irrefl _)
      · obtain ⟨hspawner, rfl⟩ : some middle = parent ∧ child = limit := by simpa using hmem
        rcases ih with hroot | ⟨rfl, -⟩
        · exact .inr ⟨rfl, middle, hspawner.symm, hroot⟩
        · exact absurd (hparent _ hspawner.symm) (Nat.lt_irrefl _)

/-- Who has spawned nobody has no descendants but itself. -/
theorem Descends.eq_of_leaf (hleaf : ∀ child, Event.spawned (some root) child ∉ trace)
    (h : Descends trace root tid) : tid = root := by
  rcases Relation.ReflTransGen.cases_head h with rfl | ⟨child, hedge, -⟩
  · rfl
  · exact absurd hedge (hleaf child)

end Descent

namespace Proc

variable {p q : Proc} {kind : StepKind} {tid root : Nat} {cap : Cap} {P Q : Cap → Prop}

/-- The task is in the table and holds this capability. -/
def Has (p : Proc) (tid : Nat) (cap : Cap) : Prop :=
  ∃ view slot, p.task tid = some view ∧ view.caps.cap? slot = some cap

/-- A capability that the task could have granted bounds this one. -/
def Grants (p : Proc) (tid : Nat) (cap : Cap) : Prop :=
  ∃ src, p.Has tid src ∧ src.rights &&& rGrant ≠ 0 ∧ cap.BoundedBy src

/-- A derivation fills an empty slot of the current task from a capability that
the task could grant. -/
theorem Step.derive_cases (step : Step .derive p q) : ∃ tid view slot srcSlot src derived,
    p.current = some tid ∧ p.task tid = some view ∧ slot < view.caps.length ∧
    view.caps[slot]? = some none ∧ view.caps.cap? srcSlot = some src ∧
    src.rights &&& rGrant ≠ 0 ∧ derived.BoundedBy src ∧ q = p.fillSlot tid slot derived := by
  cases step with
  | derive tid slot view src derived a onCpu found held derivable free =>
      obtain ⟨hlt, hempty⟩ := CapTable.freeCapSlot_spec free
      obtain ⟨hgrant, hbound⟩ := Machine.deriveFrom_bounded derivable
      exact ⟨tid, view, slot, a.a0, src, derived, onCpu, found, hlt, hempty, held, hgrant, hbound, rfl⟩

/-- A new task holds capabilities that its spawner, if it has one, could grant. -/
theorem Step.spawn_cases (step : Step .spawn p q) : ∃ child, q = p.enter child ∧
    ∀ slot cap, child.caps.cap? slot = some cap → ∀ spawner, p.current = some spawner →
      ∃ owner srcSlot src, p.task spawner = some owner ∧ owner.caps.cap? srcSlot = some src ∧
        src.rights &&& rGrant ≠ 0 ∧ cap.BoundedBy src := by
  cases step with
  | spawn child _ spawner _ table held =>
      refine ⟨child, rfl, fun slot cap hcap spawner hspawner => ?_⟩
      rw [table] at hcap
      obtain ⟨owner, srcSlot, src, mask, howner, hsrc, hgrant, rfl⟩ :=
        held spawner hspawner cap (CapTable.cap?_install hcap)
      exact ⟨owner, srcSlot, src, howner, hsrc, hgrant, src.withRights_bounded mask⟩

/-- How a task came to hold a capability: it held it before, it derived it, or it
was created with it. -/
theorem Step.has_cases (step : Step kind p q) (h : q.Has tid cap) :
    p.Has tid cap ∨ kind = .derive ∧ p.current = some tid ∧ p.Grants tid cap ∨
      kind = .spawn ∧ tid = p.nextTid ∧
        ∀ spawner, p.current = some spawner → p.Grants spawner cap := by
  obtain ⟨view, slot, hview, hcap⟩ := h
  by_cases hderive : kind = .derive
  · subst hderive
    obtain ⟨owner, old, free, srcSlot, src, derived, onCpu, found, hlt, -, held, hgrant, hbound,
      rfl⟩ := step.derive_cases
    by_cases howner : tid = owner
    · subst howner
      simp only [fillSlot_task, setTask_task, if_true, found, Option.map_some,
        Option.some.injEq] at hview
      subst hview
      rw [CapTable.cap?_set hlt] at hcap
      split_ifs at hcap with hslot
      · obtain rfl : derived = cap := Option.some.inj hcap
        exact .inr (.inl ⟨rfl, onCpu, src, ⟨old, srcSlot, found, held⟩, hgrant, hbound⟩)
      · exact .inl ⟨old, slot, found, hcap⟩
    · simp only [fillSlot_task, setTask_task, howner, if_false] at hview
      exact .inl ⟨view, slot, hview, hcap⟩
  by_cases hspawn : kind = .spawn
  · subst hspawn
    obtain ⟨child, rfl, hgranted⟩ := step.spawn_cases
    rw [enter_task] at hview
    split_ifs at hview with hchild
    · cases hview
      refine .inr (.inr ⟨rfl, hchild, fun spawner hspawner => ?_⟩)
      obtain ⟨owner, srcSlot, src, howner, hsrc, hgrant, hbound⟩ :=
        hgranted slot cap hcap spawner hspawner
      exact ⟨src, ⟨owner, srcSlot, howner, hsrc⟩, hgrant, hbound⟩
    · exact .inl ⟨view, slot, hview, hcap⟩
  obtain ⟨old, hold, -, hcaps⟩ := step.holds_before hderive hspawn ⟨view, hview, rfl, rfl⟩
  exact .inl ⟨old, slot, hold, hcaps ▸ hcap⟩

/-- A task of the table was there before, or a spawn has just created it. -/
theorem Step.task_before (step : Step kind p q) (h : q.task tid ≠ none) :
    p.task tid ≠ none ∨ kind = .spawn ∧ tid = p.nextTid := by
  obtain ⟨view, hview⟩ := Option.ne_none_iff_exists'.1 h
  by_cases hderive : kind = .derive
  · subst hderive
    obtain ⟨owner, old, free, srcSlot, src, derived, -, found, -, -, -, -, -, rfl⟩ :=
      step.derive_cases
    refine .inl fun hnone => h ?_
    by_cases howner : tid = owner <;> simp_all
  by_cases hspawn : kind = .spawn
  · subst hspawn
    obtain ⟨child, rfl, -⟩ := step.spawn_cases
    rw [enter_task] at hview
    split_ifs at hview with hchild
    · exact .inr ⟨rfl, hchild⟩
    · exact .inl (by simp [hview])
  obtain ⟨old, hold, -, -⟩ := step.holds_before hderive hspawn ⟨view, hview, rfl, rfl⟩
  exact .inl (by simp [hold])

/-- A task in the table loses no capability. -/
theorem Step.has_after (hinv : p.Inv) (step : Step kind p q) (h : p.Has tid cap)
    (hstays : q.task tid ≠ none) : q.Has tid cap := by
  obtain ⟨old, slot, hold, hcap⟩ := h
  obtain ⟨view, hview⟩ := Option.ne_none_iff_exists'.1 hstays
  by_cases hderive : kind = .derive
  · subst hderive
    obtain ⟨owner, view', free, srcSlot, src, derived, -, found, hlt, hempty, -, -, -, rfl⟩ :=
      step.derive_cases
    by_cases howner : tid = owner
    · subst howner
      obtain rfl : view' = old := Option.some.inj (found.symm.trans hold)
      have hslot : slot ≠ free := by
        rintro rfl
        simp [CapTable.cap?, hempty] at hcap
      refine ⟨{ view' with caps := view'.caps.set free (some derived) }, slot, by simp [found], ?_⟩
      rw [CapTable.cap?_set hlt, if_neg hslot]
      exact hcap
    · exact ⟨old, slot, by simp [howner, hold], hcap⟩
  by_cases hspawn : kind = .spawn
  · subst hspawn
    obtain ⟨child, rfl, -⟩ := step.spawn_cases
    have hne : tid ≠ p.nextTid := fun heq => by
      rw [heq, hinv.table.fresh] at hold
      cases hold
    exact ⟨old, slot, by simp [hne, hold], hcap⟩
  obtain ⟨before, hbefore, -, hcaps⟩ := step.holds_before hderive hspawn ⟨view, hview, rfl, rfl⟩
  obtain rfl : old = before := Option.some.inj (hold.symm.trans hbefore)
  exact ⟨view, slot, hview, hcaps ▸ hcap⟩

/-! ## Confinement -/

/-- The history mentions only ids that were handed out. -/
structure KnownIds (p : Proc) : Prop where
  spawned : ∀ parent child, .spawned (some parent) child ∈ p.trace →
    parent < p.nextTid ∧ child < p.nextTid
  user : ∀ tid write disk lba count, .ata tid write disk lba count ∈ p.trace → tid < p.nextTid

theorem Inv.current_lt (hinv : p.Inv) (h : p.current = some tid) : tid < p.nextTid := by
  have hrun := hinv.running_of_current h
  exact (hinv.table.bounded tid fun hnone => by simp [state?, hnone] at hrun).2

/-- What a step adds to the history of spawns and disk transfers. -/
theorem Step.disk_history (step : Step kind p q) :
    (kind ≠ .spawn ∧ p.nextTid = q.nextTid ∧ ∃ events, q.trace = p.trace ++ events ∧
      (∀ parent child, Event.spawned parent child ∉ events) ∧
      ∀ tid write disk lba count, Event.ata tid write disk lba count ∈ events →
        p.current = some tid ∧ 1 ≤ count ∧ count ≤ 8 ∧ ∃ lbaStart lbas rights,
          p.Has tid (.block disk lbaStart lbas rights) ∧
          rights &&& (if write then rWrite else rRead) = (if write then rWrite else rRead) ∧
          lbaStart ≤ lba ∧ lba + count ≤ lbaStart + lbas) ∨
    kind = .spawn ∧ q.nextTid = p.nextTid + 1 ∧
      q.trace = p.trace ++ [.spawned p.current p.nextTid] := by
  obtain ⟨events, htrace, hmade⟩ := step.emits
  cases step with
  | spawn _ _ spawner =>
      refine .inr ⟨rfl, rfl, ?_⟩
      rw [enter_trace, spawner]
  | transfer tid slot lba count view disk lbaStart lbas rights write onCpu found held right size
      covered =>
      refine .inl ⟨nofun, rfl, _, rfl, by simp, fun other write' disk' lba' count' hmem => ?_⟩
      obtain ⟨rfl, rfl, rfl, rfl, rfl⟩ : other = tid ∧ write' = write ∧ disk' = disk ∧
        lba' = lba ∧ count' = count := by simpa using hmem
      exact ⟨onCpu, size.1, size.2, lbaStart, lbas, rights, ⟨view, slot, found, held⟩, right,
        covered⟩
  | _ =>
      refine .inl ⟨nofun, rfl, events, htrace, fun _ _ hmem => ?_, fun _ _ _ _ _ hmem => ?_⟩
      all_goals exact (hmade _ hmem).elim

theorem KnownIds.descends_lt (h : p.KnownIds) (hroot : root < p.nextTid)
    (hdescends : Descends p.trace root tid) : tid < p.nextTid := by
  rcases Relation.ReflTransGen.cases_tail hdescends with rfl | ⟨parent, -, hedge⟩
  · exact hroot
  · exact (h.spawned parent tid hedge).2

theorem KnownIds.step (h : p.KnownIds) (hinv : p.Inv) (step : Step kind p q) : q.KnownIds := by
  rcases step.disk_history with ⟨-, hnext, events, htrace, hspawned, hata⟩ | ⟨-, hnext, htrace⟩
  · refine ⟨fun parent child hmem => ?_, fun tid write disk lba count hmem => ?_⟩
    all_goals
      rw [htrace] at hmem
      rw [← hnext]
    · exact h.spawned parent child ((List.mem_append.1 hmem).resolve_right (hspawned _ child))
    · rcases List.mem_append.1 hmem with hmem | hmem
      · exact h.user tid write disk lba count hmem
      · exact hinv.current_lt (hata tid write disk lba count hmem).1
  · refine ⟨fun parent child hmem => ?_, fun tid write disk lba count hmem => ?_⟩
    all_goals
      rw [htrace] at hmem
      rw [hnext]
    · rcases List.mem_append.1 hmem with hmem | hmem
      · obtain ⟨hparent, hchild⟩ := h.spawned parent child hmem
        exact ⟨Nat.lt_succ_of_lt hparent, Nat.lt_succ_of_lt hchild⟩
      · obtain ⟨hcurrent, rfl⟩ : some parent = p.current ∧ child = p.nextTid := by simpa using hmem
        exact ⟨Nat.lt_succ_of_lt (hinv.current_lt hcurrent.symm), Nat.lt_succ_self _⟩
    · have hold := (List.mem_append.1 hmem).resolve_right (by simp)
      exact Nat.lt_succ_of_lt (h.user tid write disk lba count hold)

/-- Everything that `root` and its descendants hold, and every transfer they have
made, lies within `P`. -/
structure Confined (p : Proc) (root : Nat) (P : Cap → Prop) : Prop where
  known : root < p.nextTid
  caps : ∀ tid cap, Descends p.trace root tid → p.Has tid cap → P cap
  transfers : ∀ tid write disk lba count, .ata tid write disk lba count ∈ p.trace →
    Descends p.trace root tid → 1 ≤ count ∧ count ≤ 8 ∧ ∃ lbaStart lbas rights,
      P (.block disk lbaStart lbas rights) ∧ lbaStart ≤ lba ∧ lba + count ≤ lbaStart + lbas

theorem Confined.mono (hPQ : ∀ cap, P cap → Q cap) (h : p.Confined root P) : p.Confined root Q where
  known := h.known
  caps := fun tid cap hdescends hhas => hPQ cap (h.caps tid cap hdescends hhas)
  transfers := fun tid write disk lba count hmem hdescends => by
    obtain ⟨hlow, hhigh, lbaStart, lbas, rights, hcap, hrange⟩ :=
      h.transfers tid write disk lba count hmem hdescends
    exact ⟨hlow, hhigh, lbaStart, lbas, rights, hPQ _ hcap, hrange⟩

/-- Delegation does not leave a class of capabilities that is closed downwards. -/
theorem Confined.step (hdown : ∀ cap held, cap.BoundedBy held → P held → P cap)
    (h : p.Confined root P) (hids : p.KnownIds) (hinv : p.Inv) (step : Step kind p q) :
    q.Confined root P := by
  -- a capability of an old descendant was held, or derived from one that was
  have hcaps : ∀ tid cap, Descends p.trace root tid → q.Has tid cap → P cap := by
    intro tid cap hdescends hhas
    rcases step.has_cases hhas with hbefore | ⟨-, -, src, hsrc, -, hbound⟩ | ⟨-, hnew, -⟩
    · exact h.caps tid cap hdescends hbefore
    · exact hdown cap src hbound (h.caps tid src hdescends hsrc)
    · exact absurd hnew (Nat.ne_of_lt (hids.descends_lt h.known hdescends))
  rcases step.disk_history with ⟨-, hnext, events, htrace, hspawned, hata⟩ | ⟨rfl, hnext, htrace⟩
  · have hdescends : ∀ tid, Descends q.trace root tid → Descends p.trace root tid := by
      intro tid hnew
      rw [htrace] at hnew
      exact hnew.of_append fun parent child => hspawned (some parent) child
    refine ⟨hnext ▸ h.known, fun tid cap hnew => hcaps tid cap (hdescends tid hnew),
      fun tid write disk lba count hmem hnew => ?_⟩
    rw [htrace] at hmem
    rcases List.mem_append.1 hmem with hmem | hmem
    · exact h.transfers tid write disk lba count hmem (hdescends tid hnew)
    · obtain ⟨-, hlow, hhigh, lbaStart, lbas, rights, hhas, -, hrange⟩ :=
        hata tid write disk lba count hmem
      exact ⟨hlow, hhigh, lbaStart, lbas, rights, h.caps tid _ (hdescends tid hnew) hhas, hrange⟩
  · have hdescends : ∀ tid, Descends q.trace root tid → Descends p.trace root tid ∨
        tid = p.nextTid ∧ ∃ spawner, p.current = some spawner ∧ Descends p.trace root spawner := by
      intro tid hnew
      rw [htrace] at hnew
      exact hnew.of_spawn (fun parent child hmem => (hids.spawned parent child hmem).1)
        fun spawner hspawner => hinv.current_lt hspawner
    refine ⟨hnext ▸ Nat.lt_succ_of_lt h.known, fun tid cap hnew hhas => ?_,
      fun tid write disk lba count hmem hnew => ?_⟩
    · rcases hdescends tid hnew with hold | ⟨rfl, spawner, hcurrent, hspawner⟩
      · exact hcaps tid cap hold hhas
      · rcases step.has_cases hhas with ⟨view, -, hview, -⟩ | ⟨hkind, -⟩ | ⟨-, -, hgrants⟩
        · rw [hinv.table.fresh] at hview
          cases hview
        · cases hkind
        · obtain ⟨src, hsrc, -, hbound⟩ := hgrants spawner hcurrent
          exact hdown cap src hbound (h.caps spawner src hspawner hsrc)
    · rw [htrace] at hmem
      have hmem := (List.mem_append.1 hmem).resolve_right (by simp)
      rcases hdescends tid hnew with hold | ⟨rfl, -⟩
      · exact h.transfers tid write disk lba count hmem hold
      · exact absurd (hids.user _ write disk lba count hmem) (Nat.lt_irrefl _)

/-- Every task bounds what its descendants hold and do. -/
def Delegated (p : Proc) : Prop :=
  ∀ root, p.task root ≠ none →
    p.Confined root fun cap => ∃ held, p.Has root held ∧ cap.BoundedBy held

theorem Delegated.step (h : p.Delegated) (hids : p.KnownIds) (hinv : p.Inv)
    (step : Step kind p q) : q.Delegated := by
  intro root hroot
  rcases step.task_before hroot with hbefore | ⟨rfl, rfl⟩
  · have hdown : ∀ cap held : Cap, cap.BoundedBy held →
        (∃ held', p.Has root held' ∧ held.BoundedBy held') →
        ∃ held', p.Has root held' ∧ cap.BoundedBy held' := by
      rintro cap held hbound ⟨held', hhas, hbound'⟩
      exact ⟨held', hhas, hbound.trans hbound'⟩
    refine ((h root hbefore).step hdown hids hinv step).mono ?_
    rintro cap ⟨held, hhas, hbound⟩
    exact ⟨held, step.has_after hinv hhas hroot, hbound⟩
  · -- the new task has no descendants but itself, and has done nothing yet
    rcases step.disk_history with ⟨hkind, -⟩ | ⟨-, hnext, htrace⟩
    · exact absurd rfl hkind
    · have hself : ∀ tid, Descends q.trace p.nextTid tid → tid = p.nextTid := by
        intro tid hnew
        refine hnew.eq_of_leaf fun child hmem => ?_
        rw [htrace] at hmem
        rcases List.mem_append.1 hmem with hmem | hmem
        · exact Nat.lt_irrefl _ (hids.spawned _ child hmem).1
        · have hcurrent : some p.nextTid = p.current := (by simpa using hmem : _ ∧ _).1
          exact Nat.lt_irrefl _ (hinv.current_lt hcurrent.symm)
      refine ⟨hnext ▸ Nat.lt_succ_self _, fun tid cap hnew hhas => ?_,
        fun tid write disk lba count hmem hnew => ?_⟩
      · exact ⟨cap, hself tid hnew ▸ hhas, .refl cap⟩
      · rw [htrace] at hmem
        have hmem := (List.mem_append.1 hmem).resolve_right (by simp)
        exact absurd (hself tid hnew ▸ hids.user tid write disk lba count hmem) (Nat.lt_irrefl _)

end Proc

end Redoubt.Kernel
