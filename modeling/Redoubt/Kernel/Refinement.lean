import Redoubt.Foundation.Runs
import Redoubt.Kernel.IpcRefinement

/-!
# Every trap refines the process model

The remaining calls, the trap handlers and boot.  Together they give the
invariant of the process model in every state that a run reaches, and that no
lookup of a task or endpoint ever fails.
-/

namespace Redoubt.Kernel

open Redoubt.Foundation
open Proc (StepKind Step Steps)

namespace Machine

variable {frame : TrapFrame} {device : Option (Nat → UInt8)}

variable {s : Machine} {tid : Nat} {kinds : StepKind → Prop}

/-! ## Capabilities -/

/-- A derivation fills one empty slot of the caller's table or changes nothing. -/
theorem sysCapDerive_step (hids : s.Ids) {a : Args} (hcurrent : s.current = some tid) :
    (s.sysCapDerive tid a).Ids ∧
      ((s.sysCapDerive tid a).view = s.view ∨ Step .derive s.view (s.sysCapDerive tid a).view) := by
  unfold sysCapDerive
  cases hfind : s.findTask tid with
  | none => exact ⟨ids_setFrame hids, .inl viewAs_setFrame⟩
  | some task =>
      dsimp only
      cases hsrc : task.caps.cap? a.a0 with
      | none =>
          simp only [deriveInto, hsrc]
          exact ⟨ids_setFrame hids, .inl viewAs_setFrame⟩
      | some src =>
          cases hderive : deriveFrom src a with
          | error =>
              simp only [deriveInto, hsrc, hderive]
              exact ⟨ids_setFrame hids, .inl viewAs_setFrame⟩
          | ok derived =>
              cases hfree : task.caps.freeCapSlot with
              | none =>
                  simp only [deriveInto, hsrc, hderive, hfree]
                  exact ⟨ids_setFrame hids, .inl viewAs_setFrame⟩
              | some slot =>
                  simp only [deriveInto, hsrc, hderive, hfree]
                  refine ⟨ids_modifyTask (fun _ => rfl) hids, .inr ?_⟩
                  have hview : s.view.task tid = some task.view := by simp [view, hfind]
                  have hstep := Step.derive (p := s.view) tid slot task.view src derived a hcurrent
                    hview hsrc hderive hfree
                  convert hstep using 1
                  refine (viewAs_modifyTask (fun task' : Task =>
                      ({ task' with caps := task.caps.set slot (some derived) }).setFrame
                        fun frame => { frame with rax := eOk, rdi := slot })
                    (fun view => { view with caps := task.caps.set slot (some derived) })
                    (fun _ => rfl) fun _ => rfl).trans ?_
                  refine Proc.ext (funext fun other => ?_) rfl rfl rfl rfl rfl rfl rfl
                  by_cases h : other = tid <;> simp [view, h, hfind]

/-- Every granted capability comes from one that the spawner holds with the
right to grant. -/
theorem deriveGrants_held {pairs : List (Nat × Nat)} {grants : List Cap}
    (h : s.deriveGrants tid pairs = .ok grants) : ∀ cap ∈ grants, ∃ owner srcSlot src mask,
      s.view.task tid = some owner ∧ owner.caps.cap? srcSlot = some src ∧
        src.rights &&& rGrant ≠ 0 ∧ cap = src.withRights (src.rights &&& mask) := by
  induction pairs generalizing grants with
  | nil =>
      cases h
      simp
  | cons pair rest ih =>
      obtain ⟨srcSlot, mask⟩ := pair
      simp only [deriveGrants] at h
      cases hfirst : s.deriveForChild tid srcSlot mask with
      | error => simp [hfirst, bind, Except.bind] at h
      | ok =>
          cases hrest : s.deriveGrants tid rest with
          | error => simp [hfirst, hrest, bind, Except.bind] at h
          | ok =>
              simp only [hfirst, hrest, bind, Except.bind, pure, Except.pure, Except.ok.injEq] at h
              subst h
              intro other hmem
              rcases List.mem_cons.1 hmem with rfl | hmem
              · unfold deriveForChild at hfirst
                split at hfirst
                · cases hfirst
                · rename_i task hfind
                  split at hfirst
                  · cases hfirst
                  · rename_i src hsrc
                    split_ifs at hfirst with hgrant hmask
                    cases hfirst
                    exact ⟨task.view, srcSlot, src, mask, by simp [view, hfind], hsrc, hgrant, rfl⟩
              · exact ih hrest other hmem

/-! ## Spawning -/

/-- A task enters the table under a fresh id. -/
theorem enter_view {task : Task} (hinv : s.view.Inv) (hid : task.id = s.nextTid) (vm : Vm)
    (event : Event) (hevent : event = .spawned task.parent s.nextTid) :
    ((({ s with vm := vm, nextTid := s.nextTid + 1, tasks := s.tasks ++ [task] } : Machine).emit
      event).makeReady task.id false).view = s.view.enter task.view := by
  have hfresh := hinv.table.fresh
  simp only [view, viewAs_task, viewAs_nextTid, Option.map_eq_none_iff] at hfresh
  subst hevent
  refine Proc.ext (funext fun other => ?_) rfl rfl rfl ?_ rfl rfl rfl
  · simp only [view, viewAs_task, Proc.enter_task, viewAs_nextTid]
    change Option.map Task.view (lookup Task.id other (s.tasks ++ [task])) = _
    rw [lookup_append, hid]
    by_cases h : other = s.nextTid
    · subst h
      have hnone : lookup Task.id s.nextTid s.tasks = none := hfresh
      simp [hnone]
    · simp [h, Ne.symm h, findTask, Redoubt.Kernel.findTask]
  · simp [view, makeReady, emit, hid]

theorem ids_append {task : Task} (hids : s.Ids) (hfresh : s.findTask task.id = none) :
    ((s.tasks ++ [task]).map Task.id).Nodup := by
  rw [List.map_append, List.map_singleton]
  refine List.nodup_append.2 ⟨hids, by simp, ?_⟩
  intro id hmem other hother
  obtain ⟨found, hfound, rfl⟩ := List.mem_map.1 hmem
  rw [List.mem_singleton.1 hother]
  exact lookup_eq_none.1 hfresh found hfound

/-- Spawning adds one task or none; a failed assertion is one of the memory side. -/
theorem spawnUser_cases (elf : List UInt8) (grants : List Cap) (parent : Option Nat)
    (hids : s.Ids) (hinv : s.view.Inv) :
    (∃ site, s.spawnUser elf grants parent = .error (.panic site)) ∨
    (∃ vm, s.spawnUser elf grants parent = .ok ({ s with vm := vm }, none)) ∨
    ∃ after, s.spawnUser elf grants parent = .ok (after, some s.nextTid) ∧ after.Ids ∧
      after.current = s.current ∧
      ∃ view : TaskView, after.view = s.view.enter view ∧ view.state = .ready ∧
        view.parent = parent ∧ view.caps = CapTable.install grants := by
  unfold spawnUser
  cases hbuild : buildImage s.vm s.cr3 elf with
  | error site => exact .inl ⟨site, rfl⟩
  | ok built =>
      obtain ⟨vm, image⟩ := built
      cases image with
      | none => exact .inr (.inl ⟨vm, rfl⟩)
      | some =>
          have hfresh := hinv.table.fresh
          simp only [view, viewAs_task, viewAs_nextTid, Option.map_eq_none_iff] at hfresh
          refine .inr (.inr ⟨_, rfl, ?_, rfl, _, enter_view hinv rfl vm _ rfl, rfl, rfl, rfl⟩)
          exact ids_append hids hfresh

theorem spawnRequest_grants {a : Args} {elf : List UInt8} {grants : List Cap}
    (h : s.spawnRequest tid a = .ok (elf, grants)) : ∀ cap ∈ grants, ∃ owner srcSlot src mask,
      s.view.task tid = some owner ∧ owner.caps.cap? srcSlot = some src ∧
        src.rights &&& rGrant ≠ 0 ∧ cap = src.withRights (src.rights &&& mask) := by
  unfold spawnRequest at h
  dsimp only at h
  split_ifs at h
  · split at h
    · cases h
    · cases h
      simp
  · split at h
    · cases h
    · split at h
      · cases h
      · rename_i spec _
        cases hgrants : s.deriveGrants tid (specPairs spec) with
        | error => simp [hgrants, Except.map] at h
        | ok =>
            simp only [hgrants, Except.map, Except.ok.injEq, Prod.mk.injEq] at h
            exact h.2 ▸ deriveGrants_held hgrants

/-- A spawn call adds one child with grants of its spawner, or changes nothing. -/
theorem sysTaskSpawn_step {a : Args} (hids : s.Ids) (hinv : s.view.Inv)
    (hcurrent : s.current = some tid) :
    (∃ site, s.sysTaskSpawn tid a = .error (.panic site)) ∨
    ∃ after, s.sysTaskSpawn tid a = .ok after ∧ after.Ids ∧
      (after.view = s.view ∨ Step .spawn s.view after.view) := by
  unfold sysTaskSpawn
  cases hrequest : s.spawnRequest tid a with
  | error => exact .inr ⟨_, rfl, ids_setFrame hids, .inl viewAs_setRax⟩
  | ok request =>
      obtain ⟨elf, grants⟩ := request
      have hgrants := spawnRequest_grants hrequest
      dsimp only
      rcases spawnUser_cases elf grants (some tid) hids hinv with
        ⟨site, heq⟩ | ⟨vm, heq⟩ | ⟨after, heq, hafter, hsame, view, hview, hready, hparent, hcaps⟩
      · exact .inl ⟨site, by rw [heq]; rfl⟩
      · refine .inr ⟨_, by rw [heq]; rfl, ids_setFrame (s := { s with vm := vm }) hids, .inl ?_⟩
        exact viewAs_setRax
      · refine .inr ⟨_, by rw [heq]; rfl, ids_setFrame hafter, .inr ?_⟩
        rw [show (after.modifyTask tid (Task.setFrame _)).view = after.view from viewAs_setFrame, hview]
        refine Step.spawn view hready (hparent.trans hcurrent.symm) grants hcaps ?_ ?_
        · intro other hother
          obtain rfl : tid = other := Option.some.inj (hcurrent.symm.trans hother)
          exact hgrants
        · intro hnone
          rw [show s.view.current = some tid from hcurrent] at hnone
          cases hnone

/-! ## Block I/O -/

theorem checkedAdd_eq_some {a b sum : Nat} (h : checkedAdd a b = some sum) : sum = a + b := by
  unfold checkedAdd at h
  split_ifs at h
  exact (Option.some.inj h).symm

theorem capLocated_spec {slot disk lbaStart : Nat} (h : s.capLocated tid slot = some (disk, lbaStart)) :
    ∃ task lbas rights, s.findTask tid = some task ∧
      task.caps.cap? slot = some (.block disk lbaStart lbas rights) := by
  unfold capLocated at h
  split at h
  · rename_i lbas rights hcap
    cases h
    obtain ⟨task, hfind, hcap⟩ := Option.bind_eq_some_iff.1 hcap
    exact ⟨task, _, _, hfind, hcap⟩
  · cases h

/-- What the check of a block capability establishes about the held one. -/
theorem checkBlockCap_spec {slot disk lba count need lbaStart lbas rights : Nat} {task : Task}
    (hfind : s.findTask tid = some task)
    (hcap : task.caps.cap? slot = some (.block disk lbaStart lbas rights))
    (h : s.checkBlockCap tid slot disk lba count need = eOk) :
    lba + count ≤ lbas ∧ rights &&& need = need := by
  have hslot : task.caps[slot]? = some (some (.block disk lbaStart lbas rights)) :=
    Option.join_eq_some_iff.1 hcap
  simp only [checkBlockCap, hfind, hslot] at h
  split at h
  · cases h
  · rename_i stop hstop
    rw [checkedAdd_eq_some hstop] at h
    by_cases hrange : True ∧ lba + count ≤ lbas
    · rw [if_neg (not_not.2 hrange)] at h
      by_cases hright : rights &&& need = need
      · exact ⟨hrange.2, hright⟩
      · rw [if_pos hright] at h
        cases h
    · rw [if_pos hrange] at h
      cases h

theorem copyToUser_eq (dst : Nat) (src : List UInt8) :
    ∃ vm, (s.copyToUser dst src).1 = { s with vm := vm } := by
  unfold copyToUser
  split_ifs
  · exact ⟨_, rfl⟩
  · exact ⟨s.vm, rfl⟩

theorem blockWrite_view {disk lba count buf : Nat} {device : Bool} (hids : s.Ids) :
    (s.blockWrite tid disk lba count buf device).Ids ∧
      ((s.blockWrite tid disk lba count buf device).view = s.view ∨
        (s.blockWrite tid disk lba count buf device).view =
          s.view.emit [.ata tid true disk lba count]) := by
  unfold blockWrite
  split
  · exact ⟨ids_setFrame hids, .inl viewAs_setRax⟩
  · dsimp only
    split_ifs
    · exact ⟨ids_setFrame (s := s.emit _) hids, .inr viewAs_setRax⟩
    · exact ⟨ids_setFrame (s := s.emit _) hids, .inr viewAs_setRax⟩

theorem blockRead_view {disk lba count buf : Nat} (hids : s.Ids) :
    (s.blockRead tid disk lba count buf device).Ids ∧
      (s.blockRead tid disk lba count buf device).view =
        s.view.emit [.ata tid false disk lba count] := by
  unfold blockRead
  dsimp only
  split
  · rename_i data _
    obtain ⟨vm, heq⟩ := copyToUser_eq (s := s.emit (.ata tid false disk lba count)) buf
      ((List.range (count * sectorBytes)).map data)
    rw [heq]
    split_ifs
    · exact ⟨ids_setFrame (s := { s.emit _ with vm := vm }) hids, viewAs_setRax⟩
    · exact ⟨ids_setFrame (s := { s.emit _ with vm := vm }) hids, viewAs_setRax⟩
  · exact ⟨ids_setFrame (s := s.emit _) hids, viewAs_setRax⟩

/-- The driver is called, if at all, once and within the held capability. -/
theorem blockIo_step {a : Args} {write : Bool} (hids : s.Ids)
    (hcurrent : s.current = some tid) : (s.blockIo tid a write device).Ids ∧
      ((s.blockIo tid a write device).view = s.view ∨
        Step .disk s.view (s.blockIo tid a write device).view) := by
  have hsame : ∀ value, (s.setRax tid value).Ids ∧ ((s.setRax tid value).view = s.view ∨
      Step .disk s.view (s.setRax tid value).view) :=
    fun _ => ⟨ids_setFrame hids, .inl viewAs_setRax⟩
  unfold blockIo
  dsimp only
  by_cases hcount : a.a2 % 65536 = 0 ∨ maxBlockSectors < a.a2 % 65536
  · rw [if_pos hcount]
    exact hsame _
  rw [if_neg hcount]
  cases hlocated : s.capLocated tid a.a0 with
  | none => exact hsame _
  | some located =>
      obtain ⟨disk, lbaStart⟩ := located
      dsimp only
      by_cases hchecked : s.checkBlockCap tid a.a0 disk a.a1 (a.a2 % 65536)
          (if write then rWrite else rRead) = eOk
      · rw [if_neg (not_not.2 hchecked)]
        cases hlba : checkedAdd lbaStart a.a1 with
        | none => exact hsame _
        | some lba =>
            obtain ⟨task, lbas, rights, hfind, hcap⟩ := capLocated_spec hlocated
            obtain ⟨hrange, hright⟩ := checkBlockCap_spec hfind hcap hchecked
            have hlba := checkedAdd_eq_some hlba
            have hstep := Step.transfer (p := s.view) tid a.a0 lba (a.a2 % 65536) task.view disk
              lbaStart lbas rights write hcurrent (by simp [view, hfind]) hcap hright
              (by simp only [maxBlockSectors] at hcount; omega) (by omega)
            cases write with
            | true =>
                simp only [if_true]
                obtain ⟨hafter, hview⟩ := blockWrite_view hids
                exact ⟨hafter, hview.imp_right fun h => by rw [h]; exact hstep⟩
            | false =>
                simp only [Bool.false_eq_true, if_false]
                obtain ⟨hafter, hview⟩ := blockRead_view hids
                exact ⟨hafter, .inr (hview ▸ hstep)⟩
      · rw [if_pos hchecked]
        exact hsame _

/-! ## Keyboard -/

theorem drainQueue_eq (cr3 buf len : Nat) : ∃ vm queue, (s.drainQueue cr3 buf len).1 =
    { s with vm := vm, input := { s.input with queue := queue } } :=
  ⟨_, _, rfl⟩

theorem sysInputRead_outcome {a : Args} (hinput : kinds .input) (hschedule : kinds .schedule)
    (hids : s.Ids) (hinv : s.view.Inv) (hcurrent : s.current = some tid) :
    Outcome kinds s.view (s.sysInputRead tid a) := by
  have hself := findTask_isSome_of_current hinv hcurrent
  -- draining the queue into memory is invisible
  have hserved : ∀ cr3 buf len, Outcome kinds s.view
      (.ok ((s.drainQueue cr3 buf len).1.setRax tid (s.drainQueue cr3 buf len).2)) := by
    intro cr3 buf len
    obtain ⟨vm, queue, heq⟩ := drainQueue_eq (s := s) cr3 buf len
    rw [heq]
    exact Outcome.same (ids_setFrame (s := { s with vm := vm, input := _ }) hids) viewAs_setRax
  unfold sysInputRead
  dsimp only
  cases hfind : s.findTask tid with
  | none => exact setRax_outcome hids
  | some task =>
      dsimp only
      split_ifs with hnohang
      · unfold tryRead
        split_ifs
        · exact setRax_outcome hids
        · exact hserved _ _ _
      · unfold requestRead
        split_ifs
        · exact setRax_outcome hids
        · exact setRax_outcome hids
        · have hstep := Step.parkInput (p := s.view) ⟨tid, a.a0, min a.a1 maxRead, task.cr3⟩ task.view
            hcurrent (by simp [view, hfind]) rfl
          exact block_outcome hschedule hids hself (steps_one hinput hstep)
        · exact hserved _ _ _

theorem deliverTo_view (hids : s.Ids) (waiter : Waiter) : (s.deliverTo waiter).Ids ∧
    (s.deliverTo waiter).view =
      if s.view.state? waiter.tid = some .blockedInput then s.view.wake waiter.tid
      else { s.view with ready := waiter.tid :: s.ready } := by
  have hstate : s.view.state? waiter.tid = (s.findTask waiter.tid).map Task.state := state?_viewAs
  have hfind : (s.drainQueue waiter.cr3 waiter.buf waiter.len).1.findTask waiter.tid =
      s.findTask waiter.tid := rfl
  unfold deliverTo
  dsimp only
  rw [hfind, hstate]
  cases s.findTask waiter.tid with
  | none => exact ⟨hids, by simp; rfl⟩
  | some task =>
      dsimp only
      by_cases hparked : task.state = .blockedInput
      · rw [if_pos hparked, Option.map_some, if_pos (by rw [hparked])]
        refine ⟨ids_modifyTask (s := (s.drainQueue _ _ _).1) (fun _ => rfl) hids, ?_⟩
        exact congrArg (fun p : Proc => { p with ready := waiter.tid :: s.ready })
          (@viewAs_wakeWith (s.drainQueue waiter.cr3 waiter.buf waiter.len).1 waiter.tid s.current
            none _)
      · rw [if_neg hparked, Option.map_some, if_neg (by simpa using hparked)]
        exact ⟨hids, rfl⟩

/-- Serving the head waiter: it wakes, or it has terminated and its id is queued
in vain. -/
theorem enqueue_step (hids : s.Ids) (byte : UInt8) : (s.enqueue byte).Ids ∧
    ((s.enqueue byte).view = s.view ∨ Step .input s.view (s.enqueue byte).view) := by
  unfold enqueue
  dsimp only
  cases hwaiters : s.input.waiters with
  | nil => exact ⟨hids, .inl (Proc.ext rfl rfl rfl rfl rfl hwaiters.symm rfl rfl)⟩
  | cons waiter rest =>
      dsimp only
      let popped : Machine := { s with input := { s.input with
        queue := (if queueCap ≤ s.input.queue.length then s.input.queue.tail
          else s.input.queue) ++ [byte]
        waiters := rest } }
      obtain ⟨hafter, hview⟩ := deliverTo_view (s := popped) hids waiter
      refine ⟨hafter, .inr ?_⟩
      change Step .input s.view (popped.deliverTo waiter).view
      rw [hview]
      split_ifs with hparked
      · exact Step.serveInput waiter rest hwaiters hparked
      · exact Step.serveStale waiter rest hwaiters hparked

theorem onScancode_step (hids : s.Ids) (sc : UInt8) : (s.onScancode sc).Ids ∧
    ((s.onScancode sc).view = s.view ∨ Step .input s.view (s.onScancode sc).view) := by
  unfold onScancode
  split_ifs
  · exact ⟨hids, .inl rfl⟩
  · exact ⟨hids, .inl rfl⟩
  · exact ⟨hids, .inl rfl⟩
  · exact ⟨hids, .inl rfl⟩
  · exact ⟨hids, .inl rfl⟩
  · split
    · exact ⟨hids, .inl rfl⟩
    · exact enqueue_step hids _

/-! ## Traps -/

/-- A result that leaves the process model alone or takes one step in it. -/
theorem Outcome.atMostOne {kind : StepKind} {p : Proc} {after : Machine} (hkind : kinds kind)
    (h : after.Ids ∧ (after.view = p ∨ Step kind p after.view)) : Outcome kinds p (.ok after) := by
  obtain ⟨hafter, hview | hstep⟩ := h
  · exact Outcome.same hafter hview
  · exact ⟨hafter, steps_one hkind hstep⟩

theorem sysTaskSpawn_outcome {a : Args} (hspawn : kinds .spawn) (hids : s.Ids)
    (hinv : s.view.Inv) (hcurrent : s.current = some tid) :
    Outcome kinds s.view (s.sysTaskSpawn tid a) := by
  rcases sysTaskSpawn_step (a := a) hids hinv hcurrent with ⟨site, heq⟩ | ⟨after, heq, h⟩
  · rw [heq]
    trivial
  · rw [heq]
    exact Outcome.atMostOne hspawn h

theorem sysStats_outcome {a : Args} (hids : s.Ids) : Outcome kinds s.view (.ok (s.sysStats tid a)) := by
  unfold sysStats
  split_ifs
  · exact setRax_outcome hids
  · obtain ⟨vm, heq⟩ := copyToUser_eq (s := s) a.a0 (s.statsRecord tid)
    dsimp only
    rw [heq]
    split_ifs
    · exact setRax_outcome (s := { s with vm := vm }) hids
    · exact setRax_outcome (s := { s with vm := vm }) hids

theorem sysSleep_outcome {delta : Nat} (hschedule : kinds .schedule) (hids : s.Ids)
    (hinv : s.view.Inv) (hcurrent : s.current = some tid) :
    Outcome kinds s.view (s.sysSleep tid delta) := by
  unfold sysSleep
  split_ifs
  · exact setRax_outcome hids
  · exact block_outcome hschedule hids (findTask_isSome_of_current hinv hcurrent)
      (steps_one hschedule (Step.parkSleep tid _ hcurrent))

theorem perform_outcome (call : Syscall)
    (hids : s.Ids) (hinv : s.view.Inv) (hcurrent : s.current = some tid) :
    Outcome (call.MayDo s.view frame) s.view (s.perform tid frame device call) := by
  cases call with
  | yield => exact yieldTask_outcome rfl hids hinv hcurrent
  | exit =>
      exact exitTask_outcome (.inr (.inl rfl)) (.inl rfl) (.inr (.inr rfl)) hids hinv hcurrent
  | debugWrite =>
      simp only [perform, sysDebugWrite]
      split <;> exact setRax_outcome hids
  | ipcCall =>
      exact ipcCall_outcome (fun busy hbusy => .inr ⟨busy, rfl, fun h => ⟨tid, hcurrent, hbusy h⟩⟩)
        (.inl rfl) hids hinv hcurrent
  | ipcRecv =>
      exact ipcRecv_outcome (.inl rfl) (.inr (.inl rfl)) (.inr (.inr rfl)) hids hinv hcurrent
  | ipcReply => exact ipcReply_outcome rfl hids hinv hcurrent
  | capDerive => exact Outcome.atMostOne rfl (sysCapDerive_step hids hcurrent)
  | taskSpawn => exact sysTaskSpawn_outcome rfl hids hinv hcurrent
  | wait => exact sysWait_outcome (.inl rfl) (.inr rfl) hids hinv hcurrent
  | inputRead => exact sysInputRead_outcome (.inl rfl) (.inr rfl) hids hinv hcurrent
  | ticks => exact setRax_outcome hids
  | setName =>
      simp only [perform, sysSetName]
      split <;> exact setRax_outcome hids
  | stats => exact sysStats_outcome hids
  | reboot => trivial
  | sleep => exact sysSleep_outcome rfl hids hinv hcurrent
  | kill =>
      refine sysKill_outcome (.inl rfl) (fun view hview hparent => ?_) hids hinv hcurrent
      refine .inr ⟨_, rfl, fun hreading => ⟨view, tid, hview, ?_, hparent, hcurrent⟩⟩
      simpa [Proc.state?, hview] using hreading
  | blockRead => exact Outcome.atMostOne rfl (blockIo_step hids hcurrent)
  | blockWrite => exact Outcome.atMostOne rfl (blockIo_step hids hcurrent)

@[simp]
theorem saveFrame_viewAs {current dying : Option Nat} :
    (s.saveFrame frame).viewAs current dying = s.viewAs current dying := by
  unfold saveFrame
  split
  · rfl
  · exact viewAs_setFrame

theorem saveFrame_current : (s.saveFrame frame).current = s.current := by
  unfold saveFrame
  split <;> rfl

theorem saveFrame_view : (s.saveFrame frame).view = s.view := by
  rw [view, saveFrame_current, saveFrame_viewAs, view]

theorem ids_saveFrame (hids : s.Ids) : (s.saveFrame frame).Ids := by
  unfold saveFrame
  split
  · exact hids
  · exact ids_setFrame hids

theorem drainReaper_cases : (∃ site, s.drainReaper = .error (.panic site)) ∨
    ∃ vm, s.drainReaper = .ok { s with vm := vm, reapQueue := [] } := by
  unfold drainReaper
  cases h : s.reapQueue.foldlM reclaim s.vm with
  | error site => exact .inl ⟨site, rfl⟩
  | ok vm => exact .inr ⟨vm, rfl⟩

theorem dispatch_outcome (hids : s.Ids)
    (hinv : s.view.Inv) :
    Outcome ((Action.syscall frame device).MayDo s.view) s.view (s.dispatch frame device) := by
  unfold dispatch
  cases hcurrent : s.current with
  | none => exact Outcome.same hids rfl
  | some =>
      cases hcall : Syscall.ofNum frame.rax with
      | none => exact setRax_outcome hids
      | some call =>
          exact (perform_outcome call hids hinv hcurrent).mono fun kind hkind => ⟨call, hcall, hkind⟩

/-- One step of the kernel is a chain of abstract steps; no lookup fails in it. -/
theorem step_outcome (action : Action) (hids : s.Ids) (hinv : s.view.Inv) :
    Outcome (action.MayDo s.view) s.view (s.step action) := by
  -- the register save and the reaper are invisible
  have hreaped : ∀ frame vm, ({ s.saveFrame frame with vm := vm, reapQueue := [] } : Machine).view =
      s.view := fun _ _ => saveFrame_view
  cases action with
  | syscall frame device =>
      change Outcome _ _ (s.handleSyscall frame device)
      unfold handleSyscall
      rcases drainReaper_cases (s := s.saveFrame frame) with ⟨site, heq⟩ | ⟨vm, heq⟩
      · rw [heq]
        trivial
      · rw [heq, ← hreaped frame vm]
        exact dispatch_outcome (ids_saveFrame (s := s) hids) (by rwa [hreaped frame vm])
  | timer frame =>
      change Outcome _ _ (s.handleTimer frame)
      unfold handleTimer
      rcases drainReaper_cases (s := s.saveFrame frame) with ⟨site, heq⟩ | ⟨vm, heq⟩
      · rw [heq]
        trivial
      · rw [heq]
        let ticked : Machine := { s.saveFrame frame with
          vm := vm, reapQueue := [], ticks := ((s.saveFrame frame).ticks + 1) % wordLimit }
        have hticked : ticked.view = s.view := saveFrame_view
        have hids' : ticked.Ids := ids_saveFrame (s := s) hids
        have hsteps : Steps ((Action.timer frame).MayDo s.view) s.view ticked.wakeExpired.view :=
          hticked ▸ wakeExpired_steps (.inl rfl) hids'
        exact Outcome.after hsteps
          (maybePreempt_outcome (.inr rfl) (ids_wakeExpired hids') (hinv.steps hsteps))
  | fault vector frame =>
      change Outcome _ _ (s.handleUserFault vector frame)
      unfold handleUserFault
      split_ifs
      · trivial
      · cases hcurrent : s.current with
        | none => trivial
        | some tid =>
            have hview : (s.saveFrame frame).view = s.view := saveFrame_view
            have houtcome : Outcome ((Action.fault vector frame).MayDo s.view)
                (s.saveFrame frame).view ((s.saveFrame frame).exitTask tid (0x100 + vector)) :=
              exitTask_outcome (.inr (.inl rfl)) (.inl rfl) (.inr (.inr rfl)) (ids_saveFrame hids)
                (by rwa [hview]) (saveFrame_current.trans hcurrent)
            rwa [hview] at houtcome
  | scancode sc => exact Outcome.atMostOne rfl (onScancode_step hids sc)
  | store virt byte =>
      change Outcome _ _ (.ok (s.userStore virt byte))
      unfold userStore
      split_ifs
      · split
        · exact Outcome.same hids rfl
        · exact Outcome.same hids rfl
      · exact Outcome.same hids rfl

/-- The invariant of the process side of the machine. -/
structure Sound (s : Machine) : Prop where
  ids : s.Ids
  inv : s.view.Inv

theorem Sound.step {after : Machine} {action : Action} (h : s.Sound)
    (hstep : s.step action = .ok after) :
    after.Sound ∧ Steps (action.MayDo s.view) s.view after.view := by
  have houtcome := step_outcome action h.ids h.inv
  rw [hstep] at houtcome
  exact ⟨⟨houtcome.1, h.inv.steps houtcome.2⟩, houtcome.2⟩

end Machine

/-! ## Boot -/

namespace BootEnv

variable {env : BootEnv} {s after : Machine}

theorem machine_sound (vm : Vm) : (env.machine vm).Sound := by
  have hstate : ∀ tid, (env.machine vm).view.state? tid = none := fun _ => rfl
  have hnone : ∀ tid, (env.machine vm).view.task tid = none := fun _ => rfl
  have hendpoint : ∀ (index : Nat) (endpoint : Endpoint),
      (env.machine vm).view.endpoints[index]? = some endpoint → endpoint = ⟨[], none, none⟩ := by
    intro index endpoint hfound
    exact List.eq_of_mem_replicate (List.mem_of_getElem? hfound)
  have hdead : ∀ tid, ¬ (env.machine vm).view.Dead tid := by
    rintro tid ⟨code, hmem⟩
    cases hmem
  refine ⟨List.nodup_nil, ⟨?_, ?_, ?_, ?_, ?_, ?_, nofun⟩⟩
  · refine ⟨Nat.one_pos, fun tid h => absurd (hnone tid) h, fun tid h => absurd h (hdead tid),
      fun tid _ h => absurd h (hdead tid), fun tid state h => ?_⟩
    rw [hstate] at h
    cases h
  · refine ⟨fun tid => ?_, fun tid h => ?_, nofun⟩
    · rw [hstate]
      exact ⟨nofun, nofun⟩
    · rw [hstate] at h
      cases h
  · refine ⟨?_, ?_, ?_, ?_, ?_, ?_, ?_⟩
    · intro index endpoint hfound
      rw [hendpoint index endpoint hfound]
    · intro index endpoint caller hfound hactive
      rw [hendpoint index endpoint hfound] at hactive
      cases hactive
    · intro index endpoint server hfound hserver
      rw [hendpoint index endpoint hfound] at hserver
      cases hserver
    · intro index endpoint hfound
      rw [hendpoint index endpoint hfound]
      exact List.nodup_nil
    · intro index endpoint caller hfound hmem
      rw [hendpoint index endpoint hfound] at hmem
      cases hmem
    · intro index caller h
      rw [hstate] at h
      cases h
    · intro index endpoint receiver deadline _ h
      rw [hstate] at h
      cases h
  · intro tid view slot index rights h
    rw [hnone] at h
    cases h
  · refine ⟨fun tid view _ h => ?_, fun tid view _ h => ?_, fun tid view h => ?_, fun tid h => ?_,
      fun tid child view h => ?_⟩
    · rw [hnone] at h
      cases h
    · rw [hnone] at h
      cases h
    · rw [hnone] at h
      cases h
    · rw [hstate] at h
      cases h
    · rw [hstate] at h
      cases h
  · refine ⟨List.nodup_nil, nofun, fun tid h => ?_, nofun⟩
    rw [hstate] at h
    cases h

/-- A boot task enters an idle machine with capabilities for its endpoints. -/
theorem spawnBoot_step {elf : List UInt8} {grants : List Cap} (hsound : s.Sound)
    (hidle : s.current = none) (hranged : ∀ index rights, Cap.endpoint index rights ∈ grants →
      index < s.endpoints.length) (h : spawnBoot s elf grants = .ok after) :
    after.Sound ∧ after.current = none ∧ after.endpoints.length = s.endpoints.length ∧
      Step .spawn s.view after.view ∧
      ∃ view, after.view = s.view.enter view ∧ view.caps = CapTable.install grants := by
  unfold spawnBoot at h
  rcases Machine.spawnUser_cases elf grants none hsound.ids hsound.inv with
    ⟨site, heq⟩ | ⟨vm, heq⟩ | ⟨spawned, heq, hids, hsame, view, hview, hready, hparent, hcaps⟩
  · rw [heq] at h
    cases h
  · rw [heq] at h
    cases h
  · rw [heq] at h
    obtain rfl : spawned = after := Except.ok.inj h
    have hstep : Step .spawn s.view spawned.view := by
      rw [hview]
      refine Step.spawn view hready (hparent.trans hidle.symm) grants hcaps ?_ fun _ => hranged
      intro tid htid
      rw [show s.view.current = none from hidle] at htid
      cases htid
    exact ⟨⟨hids, hsound.inv.step hstep⟩, hsame.trans hidle, hstep.endpoints_length, hstep, view,
      hview, hcaps⟩

theorem initfsCaps_ranged {index rights : Nat} (h : Cap.endpoint index rights ∈ env.initfsCaps) :
    index < 6 := by
  have hlisted : Cap.endpoint index rights ∈
      [Cap.endpoint 0 6, .endpoint 1 7, .endpoint 2 7, .endpoint 3 7, .endpoint 4 7,
        .endpoint 5 6] := by
    unfold initfsCaps at h
    rcases List.mem_append.1 h with h | h
    · exact h
    · split at h <;> simp at h
  simp only [List.mem_cons, Cap.endpoint.injEq, List.not_mem_nil, or_false] at hlisted
  omega

theorem consoleCaps_ranged {index rights : Nat} (h : Cap.endpoint index rights ∈ consoleCaps) :
    index < 6 := by
  simp [consoleCaps, consoleEp, stdinEp] at h
  omega

/-- Boot is two spawns on an idle machine and a first switch. -/
theorem boot_cases (h : env.boot = .ok s) : ∃ vm console initfs,
    spawnBoot (env.machine vm) env.consoleElf consoleCaps = .ok console ∧
      spawnBoot console env.initfsElf env.initfsCaps = .ok initfs ∧ initfs.switchAway = .ok s := by
  unfold boot at h
  cases hidle : env.idleVm with
  | error =>
      rw [hidle] at h
      cases h
  | ok idle =>
      obtain ⟨vm, frames⟩ := idle
      rw [hidle] at h
      change (spawnBoot (env.machine vm) env.consoleElf consoleCaps >>= fun s =>
        spawnBoot s env.initfsElf env.initfsCaps >>= fun s => s.switchAway) = _ at h
      cases hconsole : spawnBoot (env.machine vm) env.consoleElf consoleCaps with
      | error =>
          rw [hconsole] at h
          cases h
      | ok console =>
          rw [hconsole] at h
          change (spawnBoot console env.initfsElf env.initfsCaps >>= fun s => s.switchAway) = _ at h
          cases hinitfs : spawnBoot console env.initfsElf env.initfsCaps with
          | error =>
              rw [hinitfs] at h
              cases h
          | ok initfs =>
              rw [hinitfs] at h
              exact ⟨vm, console, initfs, hconsole, hinitfs, h⟩

/-- Boot on the process side: two tasks enter an empty machine, then one runs. -/
theorem boot_spawns (h : env.boot = .ok s) : ∃ vm console initfs, s.Ids ∧
    Step .spawn (env.machine vm).view ((env.machine vm).view.enter console) ∧
    Step .spawn ((env.machine vm).view.enter console)
      (((env.machine vm).view.enter console).enter initfs) ∧
    console.caps = CapTable.install consoleCaps ∧
    initfs.caps = CapTable.install env.initfsCaps ∧
    Steps (fun kind => kind = .schedule) (((env.machine vm).view.enter console).enter initfs)
      s.view := by
  obtain ⟨vm, console, initfs, hconsole, hinitfs, hswitch⟩ := boot_cases h
  obtain ⟨hsound, hidle, hlength, hfirst, view, hview, hcaps⟩ :=
    spawnBoot_step (machine_sound vm) rfl (fun _ _ => consoleCaps_ranged) hconsole
  have hranged : ∀ index rights, Cap.endpoint index rights ∈ env.initfsCaps →
      index < console.endpoints.length := fun _ _ hmem => by
    rw [hlength]
    exact initfsCaps_ranged hmem
  obtain ⟨hsound, hidle, -, hsecond, view', hview', hcaps'⟩ :=
    spawnBoot_step hsound hidle hranged hinitfs
  have hnobody : initfs.view = initfs.viewAs none none := by rw [Machine.view, hidle]
  have houtcome := @Machine.switchAway_outcome initfs (fun kind => kind = .schedule) rfl hsound.ids
  rw [hswitch, ← hnobody] at houtcome
  rw [hview', hview] at houtcome hsecond
  exact ⟨vm, view, view', houtcome.1, hview ▸ hfirst, hsecond, hcaps, hcaps', houtcome.2⟩

/-- Boot is a chain of abstract steps from an empty machine. -/
theorem boot_steps (h : env.boot = .ok s) : ∃ vm, s.Ids ∧
    Steps (fun kind => kind = .spawn ∨ kind = .schedule) (env.machine vm).view s.view := by
  obtain ⟨vm, console, initfs, hids, hfirst, hsecond, -, -, hswitch⟩ := boot_spawns h
  refine ⟨vm, hids, ((Machine.steps_one (.inl rfl) hfirst).trans
    (Machine.steps_one (.inl rfl) hsecond)).trans ?_⟩
  exact Relation.ReflTransGen.mono (fun _ _ ⟨kind, hkind, hstep⟩ => ⟨kind, .inr hkind, hstep⟩) _ _
    hswitch

/-- The first state in which user code runs satisfies the invariant. -/
theorem boot_sound (h : env.boot = .ok s) : s.Sound := by
  obtain ⟨vm, hids, hsteps⟩ := boot_steps h
  exact ⟨hids, (machine_sound vm).inv.steps hsteps⟩

/-- The states of the runs from boot whose steps all meet a condition. -/
def Reaches (env : BootEnv) (allowed : Machine → Action → Prop) : Machine → Prop :=
  Reached (fun s => env.boot = .ok s) Machine.step allowed

/-- The states of all runs from boot. -/
def Reachable (env : BootEnv) : Machine → Prop := env.Reaches fun _ _ => True

/-- Boot, execute some actions that pass a test, and look at the last state. -/
def ends (env : BootEnv) (pass : Machine → Action → Bool) (actions : List Action)
    (check : Machine → Bool) : Bool :=
  match env.boot with
  | .error _ => false
  | .ok first => (runList Machine.step pass first actions).any check

theorem reaches_of_ends {allowed : Machine → Action → Prop} {pass : Machine → Action → Bool}
    {actions : List Action} {check : Machine → Bool} (h : env.ends pass actions check = true)
    (hpass : ∀ s action, pass s action = true → allowed s action) :
    ∃ s, env.Reaches allowed s ∧ check s = true := by
  unfold ends at h
  split at h
  · cases h
  · rename_i first hboot
    cases hrun : runList Machine.step pass first actions with
    | none => simp [hrun] at h
    | some last =>
        rw [hrun] at h
        exact ⟨last, .of_runList hpass actions (.start hboot) hrun, h⟩

theorem reachable_of_ends {actions : List Action} {check : Machine → Bool}
    (h : env.ends (fun _ _ => true) actions check = true) : ∃ s, env.Reachable s ∧ check s = true :=
  reaches_of_ends h fun _ _ _ => trivial

theorem Reaches.sound {allowed : Machine → Action → Prop} (h : env.Reaches allowed s) : s.Sound :=
  h.invariant (fun _ => boot_sound) fun _ _ _ hsound _ hstep => (hsound.step hstep).1

/-- The rule for runs: a property of the process side that holds before the
first task and that the steps the condition leaves possible keep. -/
theorem Reaches.process_invariant {allowed : Machine → Action → Prop} (kinds : StepKind → Prop)
    {I : Proc → Prop} (hspawn : kinds .spawn) (hschedule : kinds .schedule)
    (hallowed : ∀ s action kind, allowed s action → action.MayDo s.view kind → kinds kind)
    (hinit : ∀ vm, I (env.machine vm).view)
    (hstep : ∀ kind p q, kinds kind → p.Inv → I p → Step kind p q → I q)
    (h : env.Reaches allowed s) : I s.view := by
  have hboot : ∀ s, env.boot = .ok s → s.Sound ∧ I s.view := by
    intro s hboot
    obtain ⟨vm, -, hsteps⟩ := boot_steps hboot
    refine ⟨boot_sound hboot, ((machine_sound vm).inv.steps_rule ?_ (hinit vm) hsteps).2⟩
    rintro kind p q (rfl | rfl) hinv hp hlast
    · exact hstep _ p q hspawn hinv hp hlast
    · exact hstep _ p q hschedule hinv hp hlast
  have hnext : ∀ s action after, s.Sound ∧ I s.view → allowed s action →
      s.step action = .ok after → after.Sound ∧ I after.view := by
    rintro s action after ⟨hsound, hs⟩ hok hnext
    obtain ⟨hafter, hsteps⟩ := hsound.step hnext
    refine ⟨hafter, (hsound.inv.steps_rule ?_ hs hsteps).2⟩
    exact fun kind p q hkind hinv hp hlast =>
      hstep kind p q (hallowed s action kind hok hkind) hinv hp hlast
  exact (h.invariant hboot hnext).2

end BootEnv

end Redoubt.Kernel
