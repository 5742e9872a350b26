import Redoubt.Kernel.Refinement

/-!
# What callers and receivers find in their registers

The register images and events of one IPC call, one receive, one reply and one
timer tick, as functions of the machine before it.
-/

namespace Redoubt.Kernel

open Redoubt.Foundation
open Proc (StepKind Step Steps)

namespace Machine

variable {s after : Machine} {tid : Nat} {frame : TrapFrame}

/-- The register image of a task. -/
def frame? (s : Machine) (tid : Nat) : Option TrapFrame :=
  (s.findTask tid).map Task.frame

theorem frame?_eq_some : s.frame? tid = some frame ↔
    ∃ task, s.findTask tid = some task ∧ task.frame = frame :=
  Option.map_eq_some_iff

@[simp]
theorem frame?_setState {state : TaskState} {other : Nat} :
    (s.modifyTask tid (Task.setState state)).frame? other = s.frame? other := by
  unfold frame?
  rw [findTask_modifyTask (Task.setState state) other fun _ => rfl]
  split_ifs
  · simp [Function.comp_def, Task.setState]
  · rfl

/-- The image of a task after an update of its registers. -/
theorem frame?_setFrame (update : TrapFrame → TrapFrame) (h : s.frame? tid = some frame) :
    (s.modifyTask tid (Task.setFrame update)).frame? tid = some (update frame) := by
  obtain ⟨task, hfind, rfl⟩ := frame?_eq_some.1 h
  rw [frame?, findTask_modifyTask (Task.setFrame update) tid fun _ => rfl, if_pos rfl, hfind]
  rfl

theorem frame?_wakeWith (update : TrapFrame → TrapFrame) (h : s.frame? tid = some frame) :
    (s.modifyTask tid (Task.wakeWith update)).frame? tid = some (update frame) := by
  obtain ⟨task, hfind, rfl⟩ := frame?_eq_some.1 h
  rw [frame?, findTask_modifyTask (Task.wakeWith update) tid fun _ => rfl, if_pos rfl, hfind]
  rfl

/-! ## Switches -/

/-- The CPU changed hands: registers, endpoints and history are as before. -/
structure Switched (s after : Machine) : Prop where
  frame? : ∀ tid, after.frame? tid = s.frame? tid
  trace : after.trace = s.trace
  endpoints : after.endpoints = s.endpoints

theorem Switched.trans {mid : Machine} (h : Switched s mid) (h' : Switched mid after) :
    Switched s after :=
  ⟨fun tid => (h'.frame? tid).trans (h.frame? tid), h'.trace.trans h.trace,
    h'.endpoints.trans h.endpoints⟩

theorem resume_switched {next : Nat} (h : s.resume next = .ok after) : Switched s after := by
  unfold resume at h
  split at h
  · cases h
  · cases h
    exact ⟨fun other => frame?_setState (s := s), rfl, rfl⟩

theorem switchAway_switched (h : s.switchAway = .ok after) : Switched s after := by
  unfold switchAway at h
  split at h
  · rename_i next picked hpick
    obtain rfl : ((s.setCurrent none).pickNext none).2 = picked := by rw [hpick]
    obtain ⟨hframe, htrace, hendpoints⟩ := resume_switched h
    exact ⟨hframe, htrace, hendpoints⟩
  · rename_i picked hpick
    obtain rfl : ((s.setCurrent none).pickNext none).2 = picked := by rw [hpick]
    cases h
    obtain ⟨cr3, heq⟩ := parkIdle_eq ((s.setCurrent none).pickNext none).2
    rw [heq]
    exact ⟨fun _ => rfl, rfl, rfl⟩

theorem block_switched {state : TaskState} (h : s.block tid state = .ok after) :
    Switched s after := by
  unfold block at h
  split at h
  · cases h
  · obtain ⟨hframe, htrace, hendpoints⟩ := switchAway_switched h
    exact ⟨fun other => (hframe other).trans (frame?_setState (s := s)), htrace, hendpoints⟩

theorem preempt_switched {next : Nat} (h : s.preempt tid next = .ok after) : Switched s after := by
  unfold preempt at h
  split at h
  · cases h
  · obtain ⟨hframe, htrace, hendpoints⟩ := resume_switched h
    exact ⟨fun other => (hframe other).trans (frame?_setState (s := s)), htrace, hendpoints⟩

theorem maybePreempt_switched (h : s.maybePreempt = .ok after) : Switched s after := by
  unfold maybePreempt at h
  split_ifs at h
  · cases h
    exact ⟨fun _ => rfl, rfl, rfl⟩
  · dsimp only at h
    cases hpick : ({ s with sinceSwitch := 0 } : Machine).pickNext s.current with
    | mk next picked =>
        have hpicked : Switched s picked := by
          obtain rfl : (({ s with sinceSwitch := 0 } : Machine).pickNext s.current).2 = picked := by
            rw [hpick]
          exact ⟨fun _ => rfl, rfl, rfl⟩
        rw [hpick] at h
        cases next with
        | none =>
            have heq : picked = after := by cases hcurrent : s.current <;> simpa [hcurrent] using h
            exact heq ▸ hpicked
        | some =>
            cases hcurrent : s.current with
            | none =>
                rw [hcurrent] at h
                exact hpicked.trans (resume_switched h)
            | some =>
                rw [hcurrent] at h
                exact hpicked.trans (preempt_switched h)

/-! ## Calls, receives and deadlines -/

/-- A call that passes the capability check is issued; if a receiver is parked
on the endpoint, it finds the delivered image in its registers. -/
theorem ipcCall_events (hids : s.Ids) (h : s.ipcCall tid frame = .ok after) :
    (∃ code, s.getEndpointCap tid frame.rdi rWrite = .error code ∧ after.trace = s.trace) ∨
    ∃ index, s.getEndpointCap tid frame.rdi rWrite = .ok index ∧
      (after.trace = s.trace ++ [.callIssued index tid frame] ∨
        ∃ receiver seen, after.frame? receiver = some seen ∧ after.trace = s.trace ++
          [.callIssued index tid frame, .callDelivered index receiver seen]) := by
  unfold ipcCall at h
  dsimp only at h
  cases hcap : s.getEndpointCap tid (argsOf frame).a0 rWrite with
  | error code =>
      rw [hcap] at h
      cases h
      exact .inl ⟨code, hcap, rfl⟩
  | ok index =>
      rw [hcap] at h
      dsimp only at h
      refine .inr ⟨index, hcap, ?_⟩
      split at h
      · cases h
      · rename_i endpoint hfound
        split at h
        · rename_i receiver hreceiver
          obtain ⟨hframe, htrace, -⟩ := block_switched h
          have hmem : receiver ∈ s.tasks := List.mem_of_find?_eq_some hreceiver
          refine .inr ⟨receiver.id, _, ?_, htrace.trans (List.append_assoc s.trace [_] [_])⟩
          have hparked : s.frame? receiver.id = some receiver.frame :=
            frame?_eq_some.2 ⟨receiver, findTask_of_mem hids hmem, rfl⟩
          exact (hframe receiver.id).trans
            (frame?_wakeWith (deliverFrame tid (messageOf (argsOf frame))) hparked)
        · exact .inl (block_switched h).trace

/-- A receive delivers the oldest call into the receiver's registers, reports a
deadline that has passed, or leaves the history as it is. -/
theorem ipcRecv_events (hframe : s.frame? tid = some frame) (h : s.ipcRecv tid frame = .ok after) :
    after.trace = s.trace ∨
    (∃ index seen, after.frame? tid = some seen ∧
      after.trace = s.trace ++ [.callDelivered index tid seen]) ∨
    ∃ index seen, after.frame? tid = some seen ∧ seen.rax = eTimedOut ∧
      after.endpoints = s.endpoints ∧ after.trace = s.trace ++ [.recvTimedOut index tid] := by
  unfold ipcRecv at h
  dsimp only at h
  cases hcap : s.getEndpointCap tid (argsOf frame).a0 rRead with
  | error =>
      rw [hcap] at h
      cases h
      exact .inl rfl
  | ok index =>
      rw [hcap] at h
      dsimp only at h
      split at h
      · cases h
      · rename_i endpoint hfound
        by_cases hbusy : endpoint.activeCaller.isSome = true
        · rw [if_pos hbusy] at h
          cases h
          exact .inl rfl
        · rw [if_neg hbusy] at h
          split at h
          · rename_i caller msg rest hqueue
            cases h
            refine .inr (.inl ⟨index, deliverFrame caller msg frame, ?_, rfl⟩)
            exact frame?_setFrame (deliverFrame caller msg) (frame?_setState.trans hframe)
          · split_ifs at h
            · cases h
              exact .inr (.inr ⟨index, _, frame?_setFrame _ hframe, rfl, rfl, rfl⟩)
            · exact .inl (block_switched h).trace

/-- A timeout is reported to a task that finds the timeout code in its registers. -/
theorem wakeExpired_events (hids : s.Ids) {index receiver : Nat}
    (h : .recvTimedOut index receiver ∈ timeoutEvents s.ticks s.tasks) :
    ∃ seen, s.wakeExpired.frame? receiver = some seen ∧ seen.rax = eTimedOut := by
  obtain ⟨task, hmem, hevent⟩ := List.mem_filterMap.1 h
  have hid : ∀ task, (Task.wakeIfExpired s.ticks task).id = task.id := by
    intro task
    unfold Task.wakeIfExpired
    split_ifs <;> rfl
  split at hevent
  · rename_i endpoint deadline hstate
    split_ifs at hevent with hexpired
    cases hevent
    refine ⟨{ task.frame with rax := eTimedOut }, frame?_eq_some.2 ?_, rfl⟩
    refine ⟨task.wakeIfExpired s.ticks, ?_, ?_⟩
    · rw [wakeExpired_eq]
      have hfind := findTask_of_mem hids hmem
      change lookup Task.id task.id (s.tasks.map (Task.wakeIfExpired s.ticks)) = _
      rw [lookup_map hid, show lookup Task.id task.id s.tasks = some task from hfind,
        Option.map_some]
    · rw [Task.wakeIfExpired, if_pos hexpired, hstate]
      rfl
  · cases hevent

/-! ## Replies -/

/-- Nothing but the result of `tid` differs. -/
structure OnlyResult (s : Machine) (tid code : Nat) (after : Machine) : Prop where
  result : ∃ seen, after.frame? tid = some seen ∧ seen.rax = code
  others : ∀ other, other ≠ tid → after.findTask other = s.findTask other

theorem setRax_onlyResult (code : Nat) (hframe : s.frame? tid = some frame) :
    OnlyResult s tid code (s.setRax tid code) := by
  refine ⟨⟨_, frame?_setFrame _ hframe, rfl⟩, fun other hne => ?_⟩
  unfold setRax
  rw [findTask_modifyTask (Task.setFrame _) other fun _ => rfl, if_neg hne]

theorem getEndpointCap_error {slot need code : Nat} (h : s.getEndpointCap tid slot need = .error code) :
    code ≠ eOk := by
  unfold getEndpointCap at h
  split at h
  · cases h
    decide
  · split at h
    · cases h
      decide
    · cases h
      decide
    · split_ifs at h
      cases h
      decide
    · cases h
      decide

/-- The caller is awake with the words of the reply, the result of `tid` is
success, and nothing else differs. -/
structure Answered (s : Machine) (tid caller : Nat) (frame : TrapFrame) (after : Machine) :
    Prop where
  result : ∃ seen, after.frame? tid = some seen ∧ seen.rax = eOk
  woken : ∃ task, s.findTask caller = some task ∧
    after.findTask caller = some (task.wakeWith (replyFrame (argsOf frame)))
  others : ∀ other, other ≠ tid → other ≠ caller → after.findTask other = s.findTask other

theorem answer_answered {index caller : Nat} {endpoint : Endpoint} (hne : caller ≠ tid)
    (hframe : s.frame? tid = some frame)
    (h : s.answer index endpoint tid caller (argsOf frame) = .ok after) :
    Answered s tid caller frame after := by
  unfold answer at h
  dsimp only at h
  split at h
  · cases h
  · rename_i task hfind
    cases h
    have hwoken : ∀ other, (s.modifyTask caller (Task.wakeWith (replyFrame (argsOf frame)))).findTask
        other = if other = caller then (s.findTask other).map (Task.wakeWith (replyFrame (argsOf frame)))
          else s.findTask other :=
      fun other => findTask_modifyTask (Task.wakeWith _) other fun _ => rfl
    have hself : (s.modifyTask caller (Task.wakeWith (replyFrame (argsOf frame)))).frame? tid =
        some frame := by
      rw [frame?, hwoken, if_neg (Ne.symm hne)]
      exact hframe
    obtain ⟨hresult, hothers⟩ := setRax_onlyResult eOk hself
    refine ⟨hresult, ⟨task, hfind, ?_⟩, fun other hother hcaller => ?_⟩
    · refine (hothers caller hne).trans ?_
      rw [hwoken, if_pos rfl, show s.findTask caller = some task from hfind, Option.map_some]
    · refine (hothers other hother).trans ?_
      rw [hwoken, if_neg hcaller]

/-- A reply reaches the active caller of an endpoint that `tid` serves, or fails
and changes nothing but the result of `tid`. -/
theorem ipcReply_cases (hframe : s.frame? tid = some frame)
    (hother : ∀ (index : Nat) (endpoint : Endpoint), s.endpoints[index]? = some endpoint →
      endpoint.activeCaller ≠ some tid) (h : s.ipcReply tid frame = .ok after) :
    (∃ code, code ≠ eOk ∧ OnlyResult s tid code after) ∨
    ∃ index : Nat, ∃ endpoint : Endpoint, ∃ caller,
      s.getEndpointCap tid frame.rdi rWrite = .ok index ∧ s.endpoints[index]? = some endpoint ∧
      endpoint.activeServer = some tid ∧ endpoint.activeCaller = some caller ∧
      Answered s tid caller frame after := by
  unfold ipcReply at h
  dsimp only at h
  cases hcap : s.getEndpointCap tid (argsOf frame).a0 rWrite with
  | error code =>
      rw [hcap] at h
      cases h
      exact .inl ⟨code, getEndpointCap_error hcap, setRax_onlyResult code hframe⟩
  | ok index =>
      rw [hcap] at h
      dsimp only at h
      split at h
      · cases h
      · rename_i endpoint hfound
        by_cases hserver : endpoint.activeServer = some tid
        · rw [if_neg (not_not.2 hserver)] at h
          split at h
          · rename_i caller hcaller
            have hne : caller ≠ tid := by
              rintro rfl
              exact hother index endpoint hfound hcaller
            exact .inr ⟨index, endpoint, caller, hcap, hfound, hserver, hcaller,
              answer_answered hne hframe h⟩
          · cases h
            obtain ⟨hresult, hothers⟩ := setRax_onlyResult eNoReplyWaiting hframe
            exact .inl ⟨eNoReplyWaiting, by decide, hresult, hothers⟩
        · rw [if_pos hserver] at h
          cases h
          exact .inl ⟨eNoReplyWaiting, by decide, setRax_onlyResult _ hframe⟩

/-! ## Trap entry -/

/-- The machine after the trap stub and the reaper. -/
def trapped (s : Machine) (frame : TrapFrame) (vm : Vm) : Machine :=
  { s.saveFrame frame with vm := vm, reapQueue := [] }

section Trapped

variable {vm : Vm}

theorem trapped_findTask {other : Nat} (hcurrent : s.current = some tid) :
    (s.trapped frame vm).findTask other =
      if other = tid then (s.findTask other).map (Task.setFrame fun _ => frame)
      else s.findTask other := by
  have hsaved : (s.trapped frame vm).findTask other =
      (s.modifyTask tid (Task.setFrame fun _ => frame)).findTask other := by
    simp only [trapped, saveFrame, hcurrent]
    rfl
  rw [hsaved, findTask_modifyTask (Task.setFrame fun _ => frame) other fun _ => rfl]

theorem trapped_frame? (hcurrent : s.current = some tid) (hfound : (s.findTask tid).isSome) :
    (s.trapped frame vm).frame? tid = some frame := by
  obtain ⟨task, hfind⟩ := Option.isSome_iff_exists.1 hfound
  rw [frame?, trapped_findTask hcurrent, if_pos rfl, hfind]
  rfl

theorem trapped_getEndpointCap {slot need : Nat} (hcurrent : s.current = some tid) :
    (s.trapped frame vm).getEndpointCap tid slot need = s.getEndpointCap tid slot need := by
  unfold getEndpointCap
  rw [trapped_findTask hcurrent, if_pos rfl]
  cases s.findTask tid <;> rfl

@[simp]
theorem trapped_trace : (s.trapped frame vm).trace = s.trace := by
  unfold trapped saveFrame
  split <;> rfl

@[simp]
theorem trapped_endpoints : (s.trapped frame vm).endpoints = s.endpoints := by
  unfold trapped saveFrame
  split <;> rfl

@[simp]
theorem trapped_current : (s.trapped frame vm).current = s.current :=
  saveFrame_current

theorem ids_trapped (hids : s.Ids) : (s.trapped frame vm).Ids := ids_saveFrame (s := s) hids

theorem trapped_view : (s.trapped frame vm).view = s.view :=
  saveFrame_view

end Trapped

/-- A system call runs its body on the trapped machine. -/
theorem syscall_dispatch {device : Option (Nat → UInt8)}
    (h : s.step (.syscall frame device) = .ok after) :
    ∃ vm, (s.trapped frame vm).dispatch frame device = .ok after := by
  change s.handleSyscall frame device = _ at h
  unfold handleSyscall at h
  rcases drainReaper_cases (s := s.saveFrame frame) with ⟨site, heq⟩ | ⟨vm, heq⟩
  · rw [heq] at h
    cases h
  · rw [heq] at h
    exact ⟨vm, h⟩

theorem syscall_perform {device : Option (Nat → UInt8)} {call : Syscall}
    (h : s.step (.syscall frame device) = .ok after) (hcurrent : s.current = some tid)
    (hcall : Syscall.ofNum frame.rax = some call) :
    ∃ vm, (s.trapped frame vm).perform tid frame device call = .ok after := by
  obtain ⟨vm, hdispatch⟩ := syscall_dispatch h
  refine ⟨vm, ?_⟩
  simpa only [dispatch, trapped_current, hcurrent, hcall] using hdispatch

/-! ## The history of one step -/

/-- The call that an action issues: `ipcCall` by the current task through a slot
that passes the check. -/
def issuedCalls (s : Machine) : Action → List Event
  | .syscall frame _ =>
      match Syscall.ofNum frame.rax, s.current with
      | some .ipcCall, some tid =>
          match s.getEndpointCap tid frame.rdi rWrite with
          | .ok index => [.callIssued index tid frame]
          | .error _ => []
      | _, _ => []
  | _ => []

end Machine

/-- Of the system calls only the two IPC ones call, receive or time out. -/
theorem Syscall.MayDo.quiet {p : Proc} {frame : TrapFrame} {call : Syscall} {kind : StepKind}
    (h : call.MayDo p frame kind) (hcall : call ≠ .ipcCall) (hrecv : call ≠ .ipcRecv) :
    kind ≠ .recv ∧ kind ≠ .timeout ∧ ∀ busy, kind ≠ .call busy := by
  cases call with
  | ipcCall => exact absurd rfl hcall
  | ipcRecv => exact absurd rfl hrecv
  | exit =>
      obtain rfl | rfl | rfl := h
      all_goals exact ⟨nofun, nofun, nofun⟩
  | kill =>
      obtain rfl | ⟨reading, rfl, -⟩ := h
      all_goals exact ⟨nofun, nofun, nofun⟩
  | wait =>
      obtain rfl | rfl := h
      all_goals exact ⟨nofun, nofun, nofun⟩
  | inputRead =>
      obtain rfl | rfl := h
      all_goals exact ⟨nofun, nofun, nofun⟩
  | debugWrite => exact h.elim
  | ticks => exact h.elim
  | setName => exact h.elim
  | stats => exact h.elim
  | reboot => exact h.elim
  | _ =>
      obtain rfl := h
      exact ⟨nofun, nofun, nofun⟩

def Event.isIssue : Event → Bool
  | .callIssued _ _ _ => true
  | _ => false

namespace Machine

/-- What one step adds to the history of calls. -/
structure StepEvents (s : Machine) (action : Action) (after : Machine) (events : List Event) :
    Prop where
  trace : after.trace = s.trace ++ events
  issued : events.filter Event.isIssue = s.issuedCalls action
  /-- Receivers find what was delivered in their registers. -/
  delivered : ∀ index receiver seen, .callDelivered index receiver seen ∈ events →
    after.frame? receiver = some seen
  /-- A receive that times out takes nothing from any queue. -/
  timedOut : ∀ index receiver, .recvTimedOut index receiver ∈ events →
    (∃ seen, after.frame? receiver = some seen ∧ seen.rax = eTimedOut) ∧
      after.endpoints = s.endpoints ∧ ∀ index receiver seen,
        Event.callDelivered index receiver seen ∉ events

/-- A step that records nothing about calls, deliveries and timeouts. -/
theorem StepEvents.quiet {action : Action} {events : List Event}
    (htrace : after.trace = s.trace ++ events) (hissued : s.issuedCalls action = [])
    (hquiet : ∀ event ∈ events, ∃ kind, event.MadeBy kind ∧ kind ≠ .recv ∧ kind ≠ .timeout ∧
      ∀ busy, kind ≠ .call busy) : StepEvents s action after events := by
  have hnone : ∀ event ∈ events, event.isIssue = false ∧
      (∀ index receiver seen, event ≠ .callDelivered index receiver seen) ∧
      ∀ index receiver, event ≠ .recvTimedOut index receiver := by
    intro event hmem
    obtain ⟨kind, hmade, hrecv, htimeout, hcall⟩ := hquiet event hmem
    cases event with
    | callIssued =>
        cases kind with
        | call busy => exact absurd rfl (hcall busy)
        | _ => exact hmade.elim
    | callDelivered =>
        cases kind with
        | call busy => exact absurd rfl (hcall busy)
        | recv => exact absurd rfl hrecv
        | _ => exact hmade.elim
    | recvTimedOut =>
        cases kind with
        | timeout => exact absurd rfl htimeout
        | _ => exact hmade.elim
    | _ => exact ⟨rfl, nofun, nofun⟩
  refine ⟨htrace, ?_, fun index receiver seen hmem => ?_, fun index receiver hmem => ?_⟩
  · rw [hissued]
    exact List.filter_eq_nil_iff.2 fun event hmem => by simp [(hnone event hmem).1]
  · exact absurd rfl ((hnone _ hmem).2.1 index receiver seen)
  · exact absurd rfl ((hnone _ hmem).2.2 index receiver)

theorem stepEvents_ipcCall {device : Option (Nat → UInt8)} (hids : s.Ids)
    (hcurrent : s.current = some tid) (hcall : Syscall.ofNum frame.rax = some .ipcCall)
    (h : s.step (.syscall frame device) = .ok after) :
    ∃ events, StepEvents s (.syscall frame device) after events := by
  obtain ⟨vm, hperform⟩ := syscall_perform h hcurrent hcall
  have hissued : ∀ result, s.getEndpointCap tid frame.rdi rWrite = result →
      s.issuedCalls (.syscall frame device) = match result with
        | .ok index => [.callIssued index tid frame]
        | .error _ => [] := by
    rintro _ rfl
    simp only [issuedCalls, hcall, hcurrent]
  rcases ipcCall_events (ids_trapped hids) hperform with
    ⟨code, hcap, htrace⟩ | ⟨index, hcap, htrace | ⟨receiver, seen, hseen, htrace⟩⟩
  all_goals
    rw [trapped_getEndpointCap hcurrent] at hcap
    rw [trapped_trace] at htrace
  · exact ⟨[], .quiet (by simpa using htrace) (hissued _ hcap) nofun⟩
  · refine ⟨_, htrace, ?_, by simp, by simp⟩
    rw [hissued _ hcap]
    rfl
  · refine ⟨_, htrace, ?_, fun slot other image hmem => ?_, by simp⟩
    · rw [hissued _ hcap]
      rfl
    · obtain ⟨rfl, rfl, rfl⟩ : slot = index ∧ other = receiver ∧ image = seen := by
        simpa using hmem
      exact hseen

theorem stepEvents_ipcRecv {device : Option (Nat → UInt8)} (hinv : s.view.Inv)
    (hcurrent : s.current = some tid) (hcall : Syscall.ofNum frame.rax = some .ipcRecv)
    (h : s.step (.syscall frame device) = .ok after) :
    ∃ events, StepEvents s (.syscall frame device) after events := by
  obtain ⟨vm, hperform⟩ := syscall_perform h hcurrent hcall
  have hissued : s.issuedCalls (.syscall frame device) = [] := by simp [issuedCalls, hcall]
  have hframe : (s.trapped frame vm).frame? tid = some frame :=
    trapped_frame? hcurrent (findTask_isSome_of_current hinv hcurrent)
  rcases ipcRecv_events hframe hperform with
    htrace | ⟨index, seen, hseen, htrace⟩ | ⟨index, seen, hseen, hrax, hendpoints, htrace⟩
  all_goals rw [trapped_trace] at htrace
  · exact ⟨[], .quiet (by simpa using htrace) hissued nofun⟩
  · refine ⟨_, htrace, hissued.symm, fun slot other image hmem => ?_, by simp⟩
    obtain ⟨rfl, rfl, rfl⟩ : slot = index ∧ other = tid ∧ image = seen := by simpa using hmem
    exact hseen
  · refine ⟨_, htrace, hissued.symm, by simp, fun slot other hmem => ?_⟩
    obtain ⟨rfl, rfl⟩ : slot = index ∧ other = tid := by simpa using hmem
    exact ⟨⟨seen, hseen, hrax⟩, hendpoints.trans trapped_endpoints, by simp⟩

theorem stepEvents_timer (hids : s.Ids) (h : s.step (.timer frame) = .ok after) :
    ∃ events, StepEvents s (.timer frame) after events := by
  change s.handleTimer frame = _ at h
  unfold handleTimer at h
  rcases drainReaper_cases (s := s.saveFrame frame) with ⟨site, heq⟩ | ⟨vm, heq⟩
  · rw [heq] at h
    cases h
  · rw [heq] at h
    let ticked : Machine :=
      { s.trapped frame vm with ticks := ((s.trapped frame vm).ticks + 1) % wordLimit }
    have hswitched : Switched ticked.wakeExpired after := maybePreempt_switched h
    have hfields : ticked.wakeExpired.trace = s.trace ++ timeoutEvents ticked.ticks ticked.tasks ∧
        ticked.wakeExpired.endpoints = s.endpoints := by
      have htrace : (s.trapped frame vm).trace = s.trace := trapped_trace
      have hendpoints : (s.trapped frame vm).endpoints = s.endpoints := trapped_endpoints
      rw [wakeExpired_eq]
      exact ⟨congrArg (· ++ timeoutEvents ticked.ticks ticked.tasks) htrace, hendpoints⟩
    -- only timeouts are recorded
    have honly : ∀ event ∈ timeoutEvents ticked.ticks ticked.tasks,
        ∃ index receiver, event = .recvTimedOut index receiver := by
      intro event hmem
      obtain ⟨task, -, hevent⟩ := List.mem_filterMap.1 hmem
      split at hevent
      · split_ifs at hevent
        cases hevent
        exact ⟨_, _, rfl⟩
      · cases hevent
    refine ⟨_, hswitched.trace.trans hfields.1, ?_, fun index receiver seen hmem => ?_,
      fun index receiver hmem => ⟨?_, hswitched.endpoints.trans hfields.2, ?_⟩⟩
    · refine List.filter_eq_nil_iff.2 fun event hmem => ?_
      obtain ⟨index, receiver, rfl⟩ := honly event hmem
      nofun
    · obtain ⟨_, _, heq⟩ := honly _ hmem
      cases heq
    · have hticked : ticked.Ids := ids_saveFrame (s := s) hids
      obtain ⟨seen, hseen, hrax⟩ := wakeExpired_events hticked hmem
      exact ⟨seen, (hswitched.frame? receiver).trans hseen, hrax⟩
    · intro index receiver seen hdelivered
      obtain ⟨_, _, heq⟩ := honly _ hdelivered
      cases heq

/-- What every step adds to the history of calls. -/
theorem Sound.stepEvents {action : Action} (hsound : s.Sound) (h : s.step action = .ok after) :
    ∃ events, StepEvents s action after events := by
  obtain ⟨events, htrace, hmade⟩ := (hsound.step h).2.emits
  cases action with
  | syscall frame =>
      cases hcurrent : s.current with
      | none =>
          obtain ⟨vm, hdispatch⟩ := syscall_dispatch h
          simp only [dispatch, trapped_current, hcurrent] at hdispatch
          cases hdispatch
          refine ⟨[], .quiet (by simp) ?_ nofun⟩
          simp only [issuedCalls, hcurrent]
          split
          · rename_i hnone
            cases hnone
          · rfl
      | some =>
          cases hcall : Syscall.ofNum frame.rax with
          | none =>
              refine ⟨events, .quiet htrace (by simp [issuedCalls, hcall]) fun event hmem => ?_⟩
              obtain ⟨kind, ⟨call, hcall', -⟩, -⟩ := hmade event hmem
              rw [hcall] at hcall'
              cases hcall'
          | some call =>
              by_cases hipc : call = .ipcCall
              · exact stepEvents_ipcCall hsound.ids hcurrent (hipc ▸ hcall) h
              by_cases hrecv : call = .ipcRecv
              · exact stepEvents_ipcRecv hsound.inv hcurrent (hrecv ▸ hcall) h
              refine ⟨events, .quiet htrace ?_ fun event hmem => ?_⟩
              · simp only [issuedCalls, hcall]
                split
                · rename_i heq _
                  exact absurd (Option.some.inj heq) hipc
                · rfl
              · obtain ⟨kind, ⟨call', hcall', hmay⟩, hkind⟩ := hmade event hmem
                rw [hcall] at hcall'
                cases hcall'
                exact ⟨kind, hkind, hmay.quiet hipc hrecv⟩
  | timer => exact stepEvents_timer hsound.ids h
  | fault =>
      refine ⟨events, .quiet htrace rfl fun event hmem => ?_⟩
      obtain ⟨kind, rfl | rfl | rfl, hkind⟩ := hmade event hmem
      all_goals exact ⟨_, hkind, nofun, nofun, nofun⟩
  | scancode =>
      refine ⟨events, .quiet htrace rfl fun event hmem => ?_⟩
      obtain ⟨kind, rfl, hkind⟩ := hmade event hmem
      exact ⟨_, hkind, nofun, nofun, nofun⟩
  | store =>
      refine ⟨events, .quiet htrace rfl fun event hmem => ?_⟩
      obtain ⟨kind, hnone, -⟩ := hmade event hmem
      exact hnone.elim

end Machine

end Redoubt.Kernel
