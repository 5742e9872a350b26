import Redoubt.Kernel.Delegation

/-!
# Authority along runs

No run amplifies authority: every capability in the system is bounded by one of
the boot capabilities, and a task's table changes only by its own derivations.
Disk transfers stay inside the window that the block capabilities of a task's
ancestors describe.
-/

namespace Redoubt.Kernel

open Redoubt.Foundation
open Proc (StepKind Step Steps)

variable {task : Task} {action : Action}

variable {env : BootEnv} {s after : Machine}

/-! ## Capability tables -/

/-- How a task of the next state has come by its capability table. -/
inductive Machine.TableFrom (s : Machine) (action : Action) (task : Task) : Prop where
  | kept (old : Task) (found : s.findTask task.id = some old) (same : task.caps = old.caps)
  /-- The task filled one of its own empty slots from a capability it could grant. -/
  | derived (frame : TrapFrame) (device : Option (Nat → UInt8)) (old : Task)
      (slot srcSlot : Nat) (cap src : Cap) (act : action = .syscall frame device)
      (call : Syscall.ofNum frame.rax = some .capDerive) (own : s.current = some task.id)
      (found : s.findTask task.id = some old) (free : old.caps[slot]? = some none)
      (filled : task.caps = old.caps.set slot (some cap))
      (held : old.caps.cap? srcSlot = some src) (grantable : src.rights &&& rGrant ≠ 0)
      (bounded : cap.BoundedBy src)
  /-- The current task created it with capabilities that it could grant. -/
  | created (frame : TrapFrame) (device : Option (Nat → UInt8)) (spawner : Nat) (owner : Task)
      (act : action = .syscall frame device)
      (call : Syscall.ofNum frame.rax = some .taskSpawn) (own : s.current = some spawner)
      (found : s.findTask spawner = some owner) (fresh : s.findTask task.id = none)
      (granted : ∀ slot cap, task.caps.cap? slot = some cap → ∃ srcSlot src,
        owner.caps.cap? srcSlot = some src ∧ src.rights &&& rGrant ≠ 0 ∧ cap.BoundedBy src)

/-- Of the system calls only two touch capability tables. -/
theorem Syscall.MayDo.keepsTables {p : Proc} {frame : TrapFrame} {call : Syscall} {kind : StepKind}
    (h : call.MayDo p frame kind) (hderive : call ≠ .capDerive) (hspawn : call ≠ .taskSpawn) :
    kind ≠ .derive ∧ kind ≠ .spawn := by
  cases call with
  | capDerive => exact absurd rfl hderive
  | taskSpawn => exact absurd rfl hspawn
  | exit =>
      obtain rfl | rfl | rfl := h
      all_goals exact ⟨nofun, nofun⟩
  | ipcCall =>
      obtain rfl | ⟨busy, rfl, -⟩ := h
      all_goals exact ⟨nofun, nofun⟩
  | ipcRecv =>
      obtain rfl | rfl | rfl := h
      all_goals exact ⟨nofun, nofun⟩
  | kill =>
      obtain rfl | ⟨reading, rfl, -⟩ := h
      all_goals exact ⟨nofun, nofun⟩
  | wait =>
      obtain rfl | rfl := h
      all_goals exact ⟨nofun, nofun⟩
  | inputRead =>
      obtain rfl | rfl := h
      all_goals exact ⟨nofun, nofun⟩
  | debugWrite => exact h.elim
  | ticks => exact h.elim
  | setName => exact h.elim
  | stats => exact h.elim
  | reboot => exact h.elim
  | _ =>
      obtain rfl := h
      exact ⟨nofun, nofun⟩

namespace Machine

theorem view_task {tid : Nat} : s.view.task tid = (s.findTask tid).map Task.view := rfl

/-- A step with neither a derivation nor a spawn leaves every table alone. -/
theorem TableFrom.of_steps {kinds : StepKind → Prop}
    (hkinds : ∀ kind, kinds kind → kind ≠ .derive ∧ kind ≠ .spawn)
    (steps : Steps kinds s.view after.view) (hfind : after.findTask task.id = some task) :
    TableFrom s action task := by
  have hholds : ∀ q, Steps kinds s.view q → q.Holds task.id task.cr3 task.caps →
      s.view.Holds task.id task.cr3 task.caps := by
    intro q hsteps
    induction hsteps with
    | refl => exact id
    | tail _ hlast ih =>
        obtain ⟨kind, hkind, hlast⟩ := hlast
        obtain ⟨hderive, hspawn⟩ := hkinds kind hkind
        exact fun h => ih (hlast.holds_before hderive hspawn h)
  obtain ⟨view, hview, -, hcaps⟩ := hholds _ steps ⟨task.view, by simp [view_task, hfind], rfl, rfl⟩
  obtain ⟨old, hold, rfl⟩ := Option.map_eq_some_iff.1 hview
  exact .kept old hold hcaps.symm

theorem TableFrom.of_view (hview : after.view = s.view)
    (hfind : after.findTask task.id = some task) : TableFrom s action task := by
  have hsteps : Steps (fun _ => False) s.view after.view := hview ▸ Relation.ReflTransGen.refl
  exact .of_steps nofun hsteps hfind

theorem TableFrom.of_derive {frame : TrapFrame} {device : Option (Nat → UInt8)}
    (hcall : Syscall.ofNum frame.rax = some .capDerive) (step : Step .derive s.view after.view)
    (hfind : after.findTask task.id = some task) : TableFrom s (.syscall frame device) task := by
  have hafter : after.view.task task.id = some task.view := by simp [view_task, hfind]
  obtain ⟨tid, view, slot, srcSlot, src, derived, hcurrent, hview, -, hempty, hheld, hgrant, hbound,
    heq⟩ := step.derive_cases
  rw [heq] at hafter
  by_cases howner : task.id = tid
  · obtain ⟨old, hold, rfl⟩ := Option.map_eq_some_iff.1 hview
    have hcaps : task.caps = old.caps.set slot (some derived) := by
      simp only [Proc.fillSlot_task, Proc.setTask_task, howner, if_true, hview, Option.map_some,
        Option.some.injEq] at hafter
      exact (congrArg TaskView.caps hafter).symm
    exact .derived frame device old slot srcSlot derived src rfl hcall (howner ▸ hcurrent)
      (howner ▸ hold) hempty hcaps hheld hgrant hbound
  · simp only [Proc.fillSlot_task, Proc.setTask_task, howner, if_false] at hafter
    obtain ⟨old, hold, hsame⟩ := Option.map_eq_some_iff.1 hafter
    exact .kept old hold (congrArg TaskView.caps hsame).symm

theorem TableFrom.of_spawn {frame : TrapFrame} {device : Option (Nat → UInt8)}
    {spawner : Nat} (hinv : s.view.Inv) (hcall : Syscall.ofNum frame.rax = some .taskSpawn)
    (hcurrent : s.current = some spawner) (step : Step .spawn s.view after.view)
    (hfind : after.findTask task.id = some task) : TableFrom s (.syscall frame device) task := by
  have hafter : after.view.task task.id = some task.view := by simp [view_task, hfind]
  obtain ⟨child, heq, hgranted⟩ := step.spawn_cases
  rw [heq, Proc.enter_task] at hafter
  split_ifs at hafter with hnew
  · obtain rfl : child = task.view := Option.some.inj hafter
    have hfresh : s.findTask task.id = none :=
      Option.map_eq_none_iff.1 (hnew ▸ hinv.table.fresh)
    obtain ⟨owner, howner⟩ := Option.isSome_iff_exists.1 (findTask_isSome_of_current hinv hcurrent)
    refine .created frame device spawner owner rfl hcall hcurrent howner hfresh
      fun slot cap hcap => ?_
    obtain ⟨view, srcSlot, src, hview, hsrc, hgrant, hbound⟩ :=
      hgranted slot cap hcap spawner hcurrent
    obtain rfl : view = owner.view :=
      Option.some.inj (hview.symm.trans (by simp [view_task, howner]))
    exact ⟨srcSlot, src, hsrc, hgrant, hbound⟩
  · obtain ⟨old, hold, hsame⟩ := Option.map_eq_some_iff.1 hafter
    exact .kept old hold (congrArg TaskView.caps hsame).symm

/-- Every task of the next state has its table from the state before. -/
theorem Sound.tableFrom (hsound : s.Sound)
    (h : s.step action = .ok after) (hmem : task ∈ after.tasks) : TableFrom s action task := by
  obtain ⟨hafter, hsteps⟩ := hsound.step h
  have hfind := findTask_of_mem hafter.ids hmem
  cases action with
  | syscall frame =>
      cases hcurrent : s.current with
      | none =>
          obtain ⟨vm, hdispatch⟩ := syscall_dispatch h
          simp only [dispatch, trapped_current, hcurrent] at hdispatch
          cases hdispatch
          exact .of_view trapped_view hfind
      | some tid =>
          by_cases hderive : Syscall.ofNum frame.rax = some .capDerive
          · obtain ⟨vm, hperform⟩ := syscall_perform h hcurrent hderive
            obtain rfl : (s.trapped frame vm).sysCapDerive tid (argsOf frame) = after :=
              Except.ok.inj hperform
            obtain ⟨-, hstep⟩ := sysCapDerive_step (a := argsOf frame) (ids_trapped hsound.ids)
              (trapped_current.trans hcurrent)
            rw [trapped_view] at hstep
            rcases hstep with hsame | hstep
            · exact .of_view hsame hfind
            · exact .of_derive hderive hstep hfind
          by_cases hspawn : Syscall.ofNum frame.rax = some .taskSpawn
          · obtain ⟨vm, hperform⟩ := syscall_perform h hcurrent hspawn
            have hstep := sysTaskSpawn_step (s := s.trapped frame vm) (a := argsOf frame)
              (ids_trapped hsound.ids) (by rw [trapped_view]; exact hsound.inv)
              (trapped_current.trans hcurrent)
            rw [trapped_view] at hstep
            rcases hstep with ⟨site, heq⟩ | ⟨last, heq, -, hstep⟩
            · cases hperform.symm.trans heq
            · obtain rfl : after = last := Except.ok.inj (hperform.symm.trans heq)
              rcases hstep with hsame | hstep
              · exact .of_view hsame hfind
              · exact .of_spawn hsound.inv hspawn hcurrent hstep hfind
          refine .of_steps (fun kind => ?_) hsteps hfind
          rintro ⟨call, hcall, hmay⟩
          rw [hcall] at hderive hspawn
          exact hmay.keepsTables (fun heq => hderive (heq ▸ rfl)) fun heq => hspawn (heq ▸ rfl)
  | timer =>
      refine .of_steps (fun kind => ?_) hsteps hfind
      rintro (rfl | rfl)
      all_goals exact ⟨by simp, by simp⟩
  | fault =>
      refine .of_steps (fun kind => ?_) hsteps hfind
      rintro (rfl | rfl | rfl)
      all_goals exact ⟨by simp, by simp⟩
  | scancode =>
      refine .of_steps (fun kind => ?_) hsteps hfind
      rintro rfl
      exact ⟨by simp, by simp⟩
  | store => exact .of_steps (fun _ hnone => hnone.elim) hsteps hfind

end Machine

/-- Every capability of a booted machine was granted at boot. -/
theorem BootEnv.boot_has {tid : Nat} {cap : Cap} (h : env.boot = .ok s)
    (hhas : s.view.Has tid cap) : cap ∈ env.bootCaps := by
  obtain ⟨vm, console, initfs, -, -, -, hconsole, hinitfs, hswitch⟩ := BootEnv.boot_spawns h
  have hback : ∀ q, Steps (fun kind => kind = .schedule)
      (((env.machine vm).view.enter console).enter initfs) q → q.Has tid cap →
      (((env.machine vm).view.enter console).enter initfs).Has tid cap := by
    intro q hsteps
    induction hsteps with
    | refl => exact id
    | tail _ hlast ih =>
        obtain ⟨kind, rfl, hlast⟩ := hlast
        intro hlater
        rcases hlast.has_cases hlater with hbefore | ⟨hkind, -⟩ | ⟨hkind, -⟩
        · exact ih hbefore
        · cases hkind
        · cases hkind
  obtain ⟨view, slot, hview, hcap⟩ := hback _ hswitch hhas
  rw [Proc.enter_task, Proc.enter_task] at hview
  split_ifs at hview
  · cases hview
    rw [hinitfs] at hcap
    exact List.mem_append_right _ (CapTable.cap?_install hcap)
  · cases hview
    rw [hconsole] at hcap
    exact List.mem_append_left _ (CapTable.cap?_install hcap)
  · cases hview

/-- Every capability in the tables is bounded by one from boot. -/
def BootEnv.Bounds (env : BootEnv) (s : Machine) : Prop :=
  ∀ task ∈ s.tasks, ∀ slot cap, task.caps.cap? slot = some cap →
    ∃ root ∈ env.bootCaps, cap.BoundedBy root

theorem BootEnv.bounds_boot (h : env.boot = .ok s) : env.Bounds s := by
  intro task hmem slot cap hcap
  have hfind := Machine.findTask_of_mem (BootEnv.boot_sound h).ids hmem
  have hhas : s.view.Has task.id cap := ⟨task.view, slot, by simp [Machine.view_task, hfind], hcap⟩
  exact ⟨cap, BootEnv.boot_has h hhas, .refl cap⟩

theorem BootEnv.Bounds.step {action : Action} (h : env.Bounds s) (hsound : s.Sound)
    (hstep : s.step action = .ok after) : env.Bounds after := by
  intro task hmem slot cap hcap
  cases hsound.tableFrom hstep hmem with
  | kept old found same => exact h old (lookup_mem found) slot cap (same ▸ hcap)
  | derived _ _ old free srcSlot derived src _ _ _ found empty filled held _ bounded =>
      obtain ⟨root, hroot, hbound⟩ := h old (lookup_mem found) srcSlot src held
      have hlt : free < old.caps.length := (List.getElem?_eq_some_iff.1 empty).1
      rw [filled, CapTable.cap?_set hlt] at hcap
      split_ifs at hcap
      · obtain rfl : derived = cap := Option.some.inj hcap
        exact ⟨root, hroot, bounded.trans hbound⟩
      · exact h old (lookup_mem found) slot cap hcap
  | created _ _ _ owner _ _ _ found _ granted =>
      obtain ⟨srcSlot, src, held, -, bounded⟩ := granted slot cap hcap
      obtain ⟨root, hroot, hbound⟩ := h owner (lookup_mem found) srcSlot src held
      exact ⟨root, hroot, bounded.trans hbound⟩

/-- In every reachable state every capability is bounded by a boot capability.  A
step keeps every table, except that the current task may fill one empty slot of
its own by a derivation, and may create a task; what it installs is bounded by a
capability it holds with the right to grant. -/
theorem no_amplification (h : env.Reachable s) :
    (∀ task ∈ s.tasks, ∀ slot cap, task.caps.cap? slot = some cap →
      ∃ root ∈ env.bootCaps, cap.BoundedBy root) ∧
    ∀ action after, s.step action = .ok after → ∀ task ∈ after.tasks,
      Machine.TableFrom s action task := by
  have hboot : ∀ s, env.boot = .ok s → s.Sound ∧ env.Bounds s :=
    fun s hs => ⟨BootEnv.boot_sound hs, BootEnv.bounds_boot hs⟩
  have hnext : ∀ s action after, s.Sound ∧ env.Bounds s → True → s.step action = .ok after →
      after.Sound ∧ env.Bounds after :=
    fun s action after hs _ hstep => ⟨(hs.1.step hstep).1, hs.2.step hs.1 hstep⟩
  exact ⟨(Reached.invariant hboot hnext h).2,
    fun action after hstep task hmem => h.sound.tableFrom hstep hmem⟩

/-- The console has given a capability to its child. -/
theorem no_amplification_sampleEnv : ∃ s task cap, sampleEnv.Reachable s ∧ task ∈ s.tasks ∧
    task.parent = some 1 ∧ task.caps.cap? 0 = some cap ∧
      ∃ root ∈ sampleEnv.bootCaps, cap.BoundedBy root := by
  obtain ⟨s, hchild, hhas, -⟩ := sampleEnv_child
  obtain ⟨-, task, cap, hfind, hparent, -, hcap⟩ := Machine.of_hasChild hhas
  have hmem := lookup_mem hfind
  exact ⟨s, task, cap, hchild.reachable, hmem, hparent, hcap,
    (no_amplification hchild.reachable).1 task hmem 0 cap hcap⟩

/-! ## Disk windows -/

/-- The sectors `first`, ..., `limit - 1` of a disk. -/
structure Window where
  disk : Nat
  first : Nat
  limit : Nat
  deriving DecidableEq, Repr

/-- A block capability lies in the window; others do not matter. -/
def Cap.Within (window : Window) : Cap → Prop
  | .block disk lbaStart lbas _ =>
      disk = window.disk ∧ window.first ≤ lbaStart ∧ lbaStart + lbas ≤ window.limit
  | _ => True

instance (window : Window) : DecidablePred (Cap.Within window)
  | .block disk lbaStart lbas _ =>
      inferInstanceAs
        (Decidable (disk = window.disk ∧ window.first ≤ lbaStart ∧ lbaStart + lbas ≤ window.limit))
  | .endpoint .. | .memory .. => .isTrue trivial

theorem Cap.Within.of_bounded {window : Window} {cap held : Cap} (hbound : cap.BoundedBy held)
    (h : held.Within window) : cap.Within window := by
  cases cap with
  | block =>
      cases held with
      | block =>
          obtain ⟨rfl, hlow, hhigh, -⟩ := hbound
          exact ⟨h.1, h.2.1.trans hlow, hhigh.trans h.2.2⟩
      | _ => exact hbound.elim
  | _ => trivial

/-- An action that may drive a disk does nothing else on the process side. -/
theorem Action.MayDo.eq_disk {p : Proc} {kind : StepKind}
    (hdisk : action.MayDo p .disk) (h : action.MayDo p kind) : kind = .disk := by
  cases action with
  | syscall =>
      obtain ⟨call, hcall, hdo⟩ := hdisk
      obtain ⟨call', hcall', hdo'⟩ := h
      obtain rfl : call = call' := Option.some.inj (hcall.symm.trans hcall')
      cases call <;> simp [Syscall.MayDo] at hdo
      all_goals exact hdo'
  | timer => simp [Action.MayDo] at hdisk
  | fault => simp [Action.MayDo] at hdisk
  | scancode => simp [Action.MayDo] at hdisk
  | store => exact hdisk.elim

/-- A transfer by the current task through a block capability with the right for
its direction, which covers all its sectors. -/
def Proc.Covers (p : Proc) (tid : Nat) (write : Bool) (disk lba count : Nat) : Prop :=
  p.current = some tid ∧ 1 ≤ count ∧ count ≤ 8 ∧ ∃ lbaStart lbas rights,
    p.Has tid (.block disk lbaStart lbas rights) ∧
    rights &&& (if write then rWrite else rRead) = (if write then rWrite else rRead) ∧
    lbaStart ≤ lba ∧ lba + count ≤ lbaStart + lbas

/-- The transfers of a chain that only drives disks are covered where it starts. -/
theorem Proc.covers_of_steps {kinds : StepKind → Prop} {p q : Proc}
    (hkinds : ∀ kind, kinds kind → kind = .disk) (steps : Steps kinds p q) :
    q.task = p.task ∧ q.current = p.current ∧ ∃ events, q.trace = p.trace ++ events ∧
      ∀ tid write disk lba count, .ata tid write disk lba count ∈ events →
        p.Covers tid write disk lba count := by
  induction steps with
  | refl => exact ⟨rfl, rfl, [], by simp, by simp⟩
  | @tail middle last _ hlast ih =>
      obtain ⟨kind, hkind, hlast⟩ := hlast
      obtain rfl := hkinds kind hkind
      obtain ⟨htask, hcurrent, events, htrace, hcovers⟩ := ih
      have hsame : last.task = middle.task ∧ last.current = middle.current := by
        cases hlast
        exact ⟨rfl, rfl⟩
      rcases hlast.disk_history with ⟨-, -, new, hnew, -, hata⟩ | ⟨hspawn, -⟩
      · refine ⟨hsame.1.trans htask, hsame.2.trans hcurrent, events ++ new,
          by rw [hnew, htrace, List.append_assoc], fun tid write disk lba count hmem => ?_⟩
        rcases List.mem_append.1 hmem with hmem | hmem
        · exact hcovers tid write disk lba count hmem
        · have := hata tid write disk lba count hmem
          simpa only [Proc.Covers, Proc.Has, htask, hcurrent] using this
      · cases hspawn

/-- Every transfer of a step is covered in the state before it. -/
theorem Machine.Sound.covers {action : Action} (hsound : s.Sound)
    (h : s.step action = .ok after) : ∃ events, after.trace = s.trace ++ events ∧
      ∀ tid write disk lba count, .ata tid write disk lba count ∈ events →
        s.view.Covers tid write disk lba count := by
  obtain ⟨-, hsteps⟩ := hsound.step h
  by_cases hdisk : action.MayDo s.view .disk
  · exact (Proc.covers_of_steps (fun _ => hdisk.eq_disk) hsteps).2.2
  · obtain ⟨events, htrace, hmade⟩ := hsteps.emits
    refine ⟨events, htrace, fun tid write disk lba count hmem => ?_⟩
    obtain ⟨kind, hkind, hevent⟩ := hmade _ hmem
    cases kind with
    | disk => exact absurd hkind hdisk
    | _ => exact hevent.elim

theorem BootEnv.Reachable.delegated (h : env.Reachable s) :
    s.view.KnownIds ∧ s.view.Delegated := by
  refine BootEnv.Reaches.process_invariant (I := fun p => p.KnownIds ∧ p.Delegated)
    (fun _ => True) trivial trivial (fun _ _ _ _ _ => trivial) (fun vm => ⟨⟨nofun, nofun⟩, ?_⟩)
    (fun kind p q _ hinv hp hstep => ⟨hp.1.step hinv hstep, hp.2.step hp.1 hinv hstep⟩) h
  exact fun root hroot => absurd rfl hroot

/-- Whenever all block capabilities of a task lie in a window, every transfer that
the task or any of its descendants makes in any run, before or after, stays in
the window and moves one to eight sectors.  Every transfer is made by the current
task through a capability of its own table with the right for its direction,
which covers all its sectors. -/
theorem block_confinement (h : env.Reachable s) :
    (∀ owner ∈ s.tasks, ∀ window : Window,
      (∀ slot cap, owner.caps.cap? slot = some cap → cap.Within window) →
      ∀ later, RunsTo Machine.step (fun _ _ => True) s later →
      ∀ tid write disk lba count, .ata tid write disk lba count ∈ later.trace →
        Descends later.trace owner.id tid →
        disk = window.disk ∧ window.first ≤ lba ∧ lba + count ≤ window.limit ∧
          1 ≤ count ∧ count ≤ 8) ∧
    ∀ action after, s.step action = .ok after → ∃ events, after.trace = s.trace ++ events ∧
      ∀ tid write disk lba count, .ata tid write disk lba count ∈ events →
        s.current = some tid ∧ 1 ≤ count ∧ count ≤ 8 ∧ ∃ task slot lbaStart lbas rights,
          s.findTask tid = some task ∧
          task.caps.cap? slot = some (.block disk lbaStart lbas rights) ∧
          rights &&& (if write then rWrite else rRead) = (if write then rWrite else rRead) ∧
          lbaStart ≤ lba ∧ lba + count ≤ lbaStart + lbas := by
  obtain ⟨hids, hdelegated⟩ := h.delegated
  refine ⟨fun owner hmem window hwindow later hrun => ?_, fun action after hstep => ?_⟩
  · have hfind := Machine.findTask_of_mem h.sound.ids hmem
    have hview : s.view.task owner.id = some owner.view := by simp [Machine.view_task, hfind]
    have hstart : s.view.Confined owner.id (Cap.Within window) := by
      refine (hdelegated owner.id (by simp [hview])).mono ?_
      rintro cap ⟨held, ⟨view, slot, hfound, hheld⟩, hbound⟩
      obtain rfl : owner.view = view := Option.some.inj (hview.symm.trans hfound)
      exact (hwindow slot held hheld).of_bounded hbound
    have hlater : later.Sound ∧ later.view.KnownIds ∧
        later.view.Confined owner.id (Cap.Within window) := by
      refine hrun.invariant (I := fun t => t.Sound ∧ t.view.KnownIds ∧
        t.view.Confined owner.id (Cap.Within window)) ?_ ?_
      · rintro _ rfl
        exact ⟨h.sound, hids, hstart⟩
      · rintro t action after ⟨hsound, hstate⟩ - hstep
        obtain ⟨hafter, hsteps⟩ := hsound.step hstep
        refine ⟨hafter, (hsound.inv.steps_rule (I := fun p => p.KnownIds ∧
          p.Confined owner.id (Cap.Within window)) ?_ hstate hsteps).2⟩
        intro kind p q _ hinv hp hlast
        exact ⟨hp.1.step hinv hlast,
          hp.2.step (fun _ _ hbound hheld => hheld.of_bounded hbound) hp.1 hinv hlast⟩
    intro tid write disk lba count hata hdescends
    obtain ⟨hlow, hhigh, lbaStart, lbas, rights, ⟨hdisk, hfirst, hlimit⟩, hstart, hend⟩ :=
      hlater.2.2.transfers tid write disk lba count hata hdescends
    exact ⟨hdisk, hfirst.trans hstart, hend.trans hlimit, hlow, hhigh⟩
  · obtain ⟨events, htrace, hcovers⟩ := h.sound.covers hstep
    refine ⟨events, htrace, fun tid write disk lba count hata => ?_⟩
    obtain ⟨hcurrent, hlow, hhigh, lbaStart, lbas, rights, ⟨view, slot, hview, hcap⟩, hright, hrange⟩ :=
      hcovers tid write disk lba count hata
    obtain ⟨task, hfind, rfl⟩ := Option.map_eq_some_iff.1 hview
    exact ⟨hcurrent, hlow, hhigh, task, slot, lbaStart, lbas, rights, hfind, hcap, hright, hrange⟩

set_option maxRecDepth 100000 in
/-- The file server reads two sectors of the volume. -/
theorem block_confinement_sampleEnv : ∃ s, sampleEnv.Reachable s ∧
    .ata 2 false 1 5 2 ∈ s.trace ∧ 5 + 2 ≤ (⟨1, 0, 100⟩ : Window).limit := by
  have hrun : sampleEnv.ends (fun _ _ => true) [request 1 0 0 0 0, request 17 6 5 2 0x400000]
      (fun s => s.trace.contains (.ata 2 false 1 5 2) && s.tasks.any fun owner => owner.id == 2 &&
        owner.caps.all fun slot => slot.all fun cap => decide (cap.Within ⟨1, 0, 100⟩)) = true := by
    decide +kernel
  obtain ⟨s, hreach, hcheck⟩ := BootEnv.reachable_of_ends hrun
  simp only [Bool.and_eq_true, List.any_eq_true, List.contains_iff_mem, beq_iff_eq] at hcheck
  obtain ⟨hata, owner, hmem, hid, hcaps⟩ := hcheck
  refine ⟨s, hreach, hata, ?_⟩
  refine ((block_confinement hreach).1 owner hmem ⟨1, 0, 100⟩ (fun slot cap hcap => ?_) s
    (.start rfl) 2 false 1 5 2 hata ?_).2.2.1
  · have hslot : owner.caps[slot]? = some (some cap) := Option.join_eq_some_iff.1 hcap
    have := List.all_eq_true.1 hcaps _ (List.mem_of_getElem? hslot)
    simpa using this
  · rw [hid]
    exact .refl

end Redoubt.Kernel
