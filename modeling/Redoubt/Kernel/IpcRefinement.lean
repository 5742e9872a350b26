import Redoubt.Kernel.LifecycleRefinement

/-!
# The IPC calls refine the process model
-/

namespace Redoubt.Kernel

open Redoubt.Foundation
open Proc (StepKind Step Steps)

namespace Machine

variable {s : Machine} {tid : Nat} {frame : TrapFrame} {kinds : StepKind → Prop}

/-- What a slot that passes the check holds. -/
theorem getEndpointCap_spec {slot need index : Nat}
    (h : s.getEndpointCap tid slot need = .ok index) : ∃ task rights,
      s.findTask tid = some task ∧ task.caps.cap? slot = some (.endpoint index rights) ∧
        rights &&& need = need := by
  unfold getEndpointCap at h
  split at h
  · cases h
  · rename_i task hfind
    split at h
    · cases h
    · cases h
    · rename_i found rights hcap
      split_ifs at h with hright
      cases h
      exact ⟨task, rights, hfind, by simp [CapTable.cap?, hcap], hright⟩
    · cases h

/-- The endpoint a slot names is in the table, so indexing it cannot fail. -/
theorem getEndpointCap_found {slot need index : Nat} (hinv : s.view.Inv)
    (h : s.getEndpointCap tid slot need = .ok index) :
    ∃ endpoint, s.endpoints[index]? = some endpoint := by
  obtain ⟨task, rights, hfind, hcap, -⟩ := getEndpointCap_spec h
  have hlt := hinv.caps tid task.view slot index rights (by simp [view, hfind]) hcap
  exact ⟨_, List.getElem?_eq_getElem hlt⟩

theorem blockedRecv_of_receivesOn {state : TaskState} {index : Nat}
    (h : state.receivesOn index = true) : ∃ deadline, state = .blockedRecv index deadline := by
  cases state <;> simp_all [TaskState.receivesOn]

theorem ipcCall_outcome
    (hcall : ∀ busy, (busy = true → s.view.CallsBusy tid frame.rdi) → kinds (.call busy))
    (hschedule : kinds .schedule) (hids : s.Ids) (hinv : s.view.Inv)
    (hcurrent : s.current = some tid) : Outcome kinds s.view (s.ipcCall tid frame) := by
  have hself := findTask_isSome_of_current hinv hcurrent
  unfold ipcCall
  dsimp only
  cases hcap : s.getEndpointCap tid (argsOf frame).a0 rWrite with
  | error => exact setRax_outcome hids
  | ok index =>
      obtain ⟨endpoint, hfound⟩ := getEndpointCap_found hinv hcap
      dsimp only
      rw [hfound]
      dsimp only
      cases hreceiver : (s.emit (.callIssued index tid frame)).tasks.find? fun task =>
          task.state.receivesOn index with
      | none =>
          have hnone : ∀ receiver deadline,
              s.view.state? receiver ≠ some (.blockedRecv index deadline) := by
            intro receiver deadline hstate
            rw [view, state?_viewAs] at hstate
            obtain ⟨task, hfind, htask⟩ := Option.map_eq_some_iff.1 hstate
            have := List.find?_eq_none.1 hreceiver task (lookup_mem hfind)
            simp [htask, TaskState.receivesOn] at this
          have hstep := Step.callQueue (p := s.view) tid index endpoint frame hcurrent hfound hnone
          refine block_outcome hschedule hids hself (steps_one (hcall false (by simp)) ?_)
          exact hstep
      | some receiver =>
          have hmem : receiver ∈ s.tasks := List.mem_of_find?_eq_some hreceiver
          have hreceives : receiver.state.receivesOn index = true := by
            simpa using List.find?_some hreceiver
          obtain ⟨deadline, hstate⟩ := blockedRecv_of_receivesOn hreceives
          have hfind := findTask_of_mem hids hmem
          have hparked : s.view.state? receiver.id = some (.blockedRecv index deadline) := by
            rw [view, state?_viewAs, hfind, Option.map_some, hstate]
          have hstep := Step.callDirect (p := s.view) tid index receiver.id deadline endpoint frame
            receiver.frame hcurrent hfound hparked
          have hbusy : kinds (.call endpoint.activeCaller.isSome) := by
            refine hcall _ fun hactive => ?_
            obtain ⟨task, rights, hcaller, hslot, hright⟩ := getEndpointCap_spec hcap
            exact ⟨task.view, index, rights, endpoint, receiver.id, deadline,
              by simp [view, hcaller], hslot, hright, hfound, hactive, hparked⟩
          have hwoken := congrArg (fun p : Proc => (p.setState tid (.blockedCall index)).task)
            (@viewAs_wakeWith s receiver.id none none (deliverFrame tid (messageOf (argsOf frame))))
          refine block_outcome hschedule (ids_modifyTask (s := s) (fun _ => rfl) hids) ?_
            (steps_one hbusy ?_)
          · exact (isSome_findTask_modifyTask (Task.wakeWith _) fun _ => rfl).trans hself
          · convert hstep using 1
            exact Proc.ext hwoken rfl rfl rfl rfl rfl
              (List.append_assoc s.trace [_] [_]) rfl

theorem ipcRecv_outcome (hrecv : kinds .recv) (htimeout : kinds .timeout)
    (hschedule : kinds .schedule) (hids : s.Ids) (hinv : s.view.Inv)
    (hcurrent : s.current = some tid) : Outcome kinds s.view (s.ipcRecv tid frame) := by
  have hself := findTask_isSome_of_current hinv hcurrent
  unfold ipcRecv
  dsimp only
  cases hcap : s.getEndpointCap tid (argsOf frame).a0 rRead with
  | error => exact setRax_outcome hids
  | ok index =>
      obtain ⟨endpoint, hfound⟩ := getEndpointCap_found hinv hcap
      dsimp only
      rw [hfound]
      dsimp only
      by_cases hbusy : endpoint.activeCaller.isSome = true
      · rw [if_pos hbusy]
        exact setRax_outcome hids
      · rw [if_neg hbusy]
        have hfree : endpoint.activeCaller = none := by simpa using hbusy
        cases hqueue : endpoint.pendingCallers with
        | cons call rest =>
            obtain ⟨caller, msg⟩ := call
            have hstep := Step.recvQueue (p := s.view) tid index caller endpoint msg rest frame rfl
              hcurrent hfound hfree hqueue
            refine Outcome.after (steps_one hrecv hstep) (Outcome.same ?_ ?_)
            · exact ids_setFrame (ids_modifyTask (s := s) (fun _ => rfl) hids)
            · exact congrArg (fun p : Proc => p.emit _) (viewAs_setFrame.trans viewAs_setState)
        | nil =>
            dsimp only
            split_ifs with hpoll
            · have hstep := Step.recvPoll (p := s.view) tid index hcurrent
              refine Outcome.after (steps_one htimeout hstep) (Outcome.same (ids_setFrame hids) ?_)
              exact congrArg (fun p : Proc => p.emit [.recvTimedOut index tid]) viewAs_setRax
            · have hstep := Step.recvPark (p := s.view) tid index (argsOf frame).a1 endpoint hcurrent
                hfound hfree hqueue
              exact block_outcome hschedule hids hself (steps_one hrecv hstep)

theorem ipcReply_outcome (hreply : kinds .reply) (hids : s.Ids) (hinv : s.view.Inv)
    (hcurrent : s.current = some tid) : Outcome kinds s.view (s.ipcReply tid frame) := by
  unfold ipcReply
  dsimp only
  cases hcap : s.getEndpointCap tid (argsOf frame).a0 rWrite with
  | error => exact setRax_outcome hids
  | ok index =>
      obtain ⟨endpoint, hfound⟩ := getEndpointCap_found hinv hcap
      dsimp only
      rw [hfound]
      dsimp only
      by_cases hserver : endpoint.activeServer = some tid
      · rw [if_neg (not_not.2 hserver)]
        have hpaired := hinv.ipc.paired index endpoint hfound
        rw [hserver] at hpaired
        obtain ⟨caller, hcaller⟩ := Option.isSome_iff_exists.1 hpaired
        have hwaiting := hinv.waiting_of_active hfound hcaller (by simp [view])
        rw [view, state?_viewAs] at hwaiting
        obtain ⟨task, hfind, -⟩ := Option.map_eq_some_iff.1 hwaiting
        rw [hcaller]
        have hfind' : (s.setEndpoint index
            { endpoint with activeCaller := none, activeServer := none }).findTask caller =
              some task := hfind
        simp only [answer, hfind']
        have hstep := Step.reply (p := s.view) tid index caller endpoint frame task.frame rfl hcurrent
          hfound hserver hcaller
        refine Outcome.after (steps_one hreply hstep) (Outcome.same ?_ ?_)
        · exact ids_setFrame (ids_modifyTask (s := s) (fun _ => rfl) hids)
        · refine viewAs_setRax.trans ?_
          exact congrArg (fun p : Proc => ({ p with ready := caller :: s.ready } : Proc).emit _)
            viewAs_wakeWith
      · rw [if_pos hserver]
        exact setRax_outcome hids

end Machine

end Redoubt.Kernel
