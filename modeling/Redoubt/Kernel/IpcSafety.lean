import Redoubt.Kernel.IpcHistory
import Redoubt.Kernel.IpcRegisters
import Redoubt.Kernel.RunSafety

/-!
# IPC along runs

Endpoints and task states agree in every reachable state, so the kernel's
lookups never fail.  Deliveries on an endpoint are the calls in order of issue,
answers reach the caller whose message the server received last.  A caller may
lose its place in the reply slot, but only to a call that finds another receiver
parked on the endpoint.
-/

namespace Redoubt.Kernel

open Redoubt.Foundation
open Proc (StepKind Step Steps)

variable {env : BootEnv} {s : Machine}

/-! ## A call in the small machine -/

/-- No call that finds a parked receiver on an endpoint whose reply slot is in
use. -/
def Machine.KeepsReplySlots (s : Machine) : Action → Prop
  | .syscall frame _ => Syscall.ofNum frame.rax = some .ipcCall →
      ∀ (tid index : Nat) (endpoint : Endpoint), s.current = some tid →
        s.getEndpointCap tid frame.rdi rWrite = .ok index →
        s.endpoints[index]? = some endpoint → endpoint.activeCaller.isSome →
        ∀ task ∈ s.tasks, ∀ deadline, task.state ≠ .blockedRecv index deadline
  | _ => True

/-- The result of a reply by the current task. -/
def replyResult (s : Machine) : Option Nat :=
  match s.step (request 6 0 11 12 13) with
  | .error _ => none
  | .ok after => (after.frame? 1).map TrapFrame.rax

theorem step_of_replyResult {code : Nat} (h : replyResult s = some code) :
    ∃ after, s.step (request 6 0 11 12 13) = .ok after ∧
      (after.frame? 1).map TrapFrame.rax = some code := by
  unfold replyResult at h
  split at h
  · cases h
  · rename_i after hstep
    exact ⟨after, hstep, h⟩

set_option maxRecDepth 100000 in
/-- The console waits for a call, the file server calls it, and the console runs
and can answer. -/
theorem sampleEnv_calls : ∃ s, sampleEnv.Reaches Machine.KeepsReplySlots s ∧
    (∃ task ∈ s.tasks, task.state = .blockedCall 0) ∧ s.current = some 1 ∧ replyResult s = some eOk ∧
      ∃ endpoint, s.endpoints[0]? = some endpoint ∧ endpoint.activeCaller = some 2 := by
  have hrun : sampleEnv.ends
      (fun s _ => s.endpoints.all fun endpoint => endpoint.activeCaller.isNone)
      [request 5 0 0 0 0, request 4 0 0 0 0]
      (fun s => (s.tasks.any fun task => task.state == .blockedCall 0) && s.current == some 1 &&
        replyResult s == some eOk && s.endpoints[0]?.any fun endpoint =>
          endpoint.activeCaller == some 2) =
        true := by
    decide +kernel
  have hkeeps : ∀ (s : Machine) (action : Action),
      (s.endpoints.all fun endpoint => endpoint.activeCaller.isNone) = true →
      s.KeepsReplySlots action := by
    intro s action hfree
    cases action with
    | syscall =>
        intro _ tid index endpoint _ _ hfound hbusy
        have := List.all_eq_true.1 hfree endpoint (List.mem_of_getElem? hfound)
        simp_all
    | _ => trivial
  obtain ⟨s, hreach, hcheck⟩ := BootEnv.reaches_of_ends hrun hkeeps
  simp only [Bool.and_eq_true, List.any_eq_true, Option.any_eq_true, beq_iff_eq] at hcheck
  exact ⟨s, hreach, hcheck.1.1.1, hcheck.1.1.2, hcheck.1.2, hcheck.2⟩

/-! ## Bookkeeping -/

/-- In every reachable state the reply slots and queues of all endpoints agree
with the task states, and no step fails to find a task or an endpoint. -/
theorem ipc_bookkeeping (h : env.Reachable s) :
    (∀ (index : Nat) (endpoint : Endpoint), s.endpoints[index]? = some endpoint →
      (endpoint.activeCaller.isSome ↔ endpoint.activeServer.isSome) ∧
      (∀ caller, endpoint.activeCaller = some caller →
        ∃ task ∈ s.tasks, task.id = caller ∧ task.state = .blockedCall index) ∧
      (endpoint.pendingCallers.map Prod.fst).Nodup ∧
      (∀ tid, tid ∈ endpoint.pendingCallers.map Prod.fst ↔
        ∃ task ∈ s.tasks, task.id = tid ∧ task.state = .blockedSend index) ∧
      (endpoint.pendingCallers ≠ [] →
        ∀ task ∈ s.tasks, ∀ deadline, task.state ≠ .blockedRecv index deadline)) ∧
    ∀ action site, s.step action ≠ .error (.lookup site) := by
  obtain ⟨hids, hinv⟩ := h.sound
  have hipc := hinv.ipc
  refine ⟨fun index endpoint hfound => ⟨?_, ?_, hipc.distinct index endpoint hfound, ?_, ?_⟩, ?_⟩
  · rw [hipc.paired index endpoint hfound]
  · intro caller hactive
    exact Machine.mem_of_state?_view (hinv.waiting_of_active hfound hactive nofun)
  · refine fun tid => ⟨fun hqueued => ?_, ?_⟩
    · exact Machine.mem_of_state?_view
        ((hipc.pending index endpoint tid hfound hqueued).resolve_right nofun)
    · rintro ⟨task, hmem, rfl, hstate⟩
      obtain ⟨e, he, hqueued⟩ :=
        hipc.sending index task.id (hstate ▸ Machine.state?_view_of_mem hids hmem)
      obtain rfl : endpoint = e := Option.some.inj (hfound.symm.trans he)
      exact hqueued
  · intro hqueue task hmem deadline hstate
    exact hqueue (hipc.rendezvous index endpoint task.id deadline hfound
      (hstate ▸ Machine.state?_view_of_mem hids hmem))
  · intro action site hstep
    have houtcome := Machine.step_outcome action hids hinv
    rw [hstep] at houtcome
    exact houtcome

/-- The console has received a call of the file server. -/
theorem ipc_bookkeeping_sampleEnv :
    ∃ s endpoint, sampleEnv.Reachable s ∧ s.endpoints[0]? = some endpoint ∧
    endpoint.activeCaller = some 2 ∧ endpoint.activeServer.isSome ∧
      ∃ task ∈ s.tasks, task.id = 2 ∧ task.state = .blockedCall 0 := by
  obtain ⟨s, hreach, -, -, -, endpoint, hfound, hcaller⟩ := sampleEnv_calls
  obtain ⟨hpaired, hblocked, -⟩ := (ipc_bookkeeping hreach.reachable).1 0 endpoint hfound
  exact ⟨s, endpoint, hreach.reachable, hfound, hcaller, hpaired.1 (hcaller ▸ rfl), hblocked 2 hcaller⟩

/-! ## Callers and the reply slot -/

theorem Machine.getEndpointCap_of_cap {tid slot need index rights : Nat} {task : Task}
    (hfind : s.findTask tid = some task) (hcap : task.caps.cap? slot = some (.endpoint index rights))
    (hneed : rights &&& need = need) : s.getEndpointCap tid slot need = .ok index := by
  have hslot : task.caps[slot]? = some (some (.endpoint index rights)) :=
    Option.join_eq_some_iff.1 hcap
  simp [getEndpointCap, hfind, hslot, hneed]

theorem Machine.KeepsReplySlots.kind {action : Action} {kind : StepKind}
    (h : s.KeepsReplySlots action) (hmay : action.MayDo s.view kind) : kind ≠ .call true := by
  rintro rfl
  cases action with
  | syscall =>
      obtain ⟨call, hcall, hdo⟩ := hmay
      cases call <;> simp [Syscall.MayDo] at hdo
      obtain ⟨tid, hcurrent, view, index, rights, endpoint, receiver, deadline, hview, hcap, hright,
        hfound, hbusy, hparked⟩ := hdo
      obtain ⟨task, hfind, rfl⟩ := Option.map_eq_some_iff.1 hview
      obtain ⟨peer, hpeer, -, hstate⟩ := Machine.mem_of_state?_view hparked
      exact h hcall tid index endpoint hcurrent (Machine.getEndpointCap_of_cap hfind hcap hright)
        hfound hbusy peer hpeer deadline hstate
  | timer => simp [Action.MayDo] at hmay
  | fault => simp [Action.MayDo] at hmay
  | scancode => simp [Action.MayDo] at hmay
  | store => exact hmay

/-- Every reachable state has a history in which deliveries follow the queues. -/
theorem BootEnv.Reaches.history {allowed : Machine → Action → Prop} (h : env.Reaches allowed s) :
    s.view.HistoryInv := by
  refine h.process_invariant (fun _ => True) trivial trivial (fun _ _ _ _ _ => trivial)
    (fun vm => ?_) fun kind p q _ hinv hp hstep => hp.step hinv hstep
  have hnobody : ∀ tid, (env.machine vm).view.state? tid = none := fun _ => rfl
  refine ⟨fun index endpoint hfound => ?_, fun index endpoint caller msg _ _ hstate => ?_,
    fun index endpoint caller server _ _ _ hstate => ?_, fun before event hsplit => ?_⟩
  · obtain rfl : endpoint = ⟨[], none, none⟩ :=
      List.eq_of_mem_replicate (List.mem_of_getElem? hfound)
    exact Mailbox.Holds.nil
  · rw [hnobody] at hstate
    cases hstate
  · rw [hnobody] at hstate
    cases hstate
  · have := hsplit.length_le
    simp [Machine.view, BootEnv.machine] at this

/-- As long as no call overwrites a reply slot in use, whoever waits for an answer
is the active caller of its endpoint, and the active server is alive and has
received its message. -/
theorem callers_answerable (h : env.Reaches Machine.KeepsReplySlots s) :
    ∀ task ∈ s.tasks, ∀ index, task.state = .blockedCall index → ∃ endpoint server,
      s.endpoints[index]? = some endpoint ∧ endpoint.activeCaller = some task.id ∧
      endpoint.activeServer = some server ∧
      (∃ peer ∈ s.tasks, peer.id = server ∧ peer.state.isZombie = false) ∧
      ServedCall s.trace index server task.id := by
  have hanswered : s.view.AnsweredInv := by
    refine h.process_invariant (fun kind => kind ≠ .call true) nofun nofun
      (fun _ _ _ hkeeps hmay => hkeeps.kind hmay) (fun _ _ _ => nofun)
      fun kind p q hkind hinv hp hstep => hp.step hinv hkind hstep
  obtain ⟨hids, hinv⟩ := h.sound
  intro task hmem index hstate
  have hcall : s.view.state? task.id = some (.blockedCall index) :=
    hstate ▸ Machine.state?_view_of_mem hids hmem
  obtain ⟨endpoint, hfound, hactive⟩ := hanswered task.id index hcall
  obtain ⟨server, hserver⟩ : ∃ server, endpoint.activeServer = some server := by
    have hpaired := hinv.ipc.paired index endpoint hfound
    rw [hactive] at hpaired
    exact Option.isSome_iff_exists.1 hpaired.symm
  obtain ⟨state, hlive, halive⟩ :=
    Proc.live_iff.1 ((hinv.ipc.served index endpoint server hfound hserver).resolve_right nofun)
  obtain ⟨peer, hpeer, hid, rfl⟩ := Machine.mem_of_state?_view hlive
  exact ⟨endpoint, server, hfound, hactive, hserver, ⟨peer, hpeer, hid, halive⟩,
    h.history.served index endpoint task.id server hfound hactive hserver hcall⟩

theorem callers_answerable_sampleEnv : ∃ s, sampleEnv.Reaches Machine.KeepsReplySlots s ∧
    ∃ task ∈ s.tasks, task.state = .blockedCall 0 ∧ ∃ server, ServedCall s.trace 0 server task.id := by
  obtain ⟨s, hreach, ⟨task, hmem, hstate⟩, -⟩ := sampleEnv_calls
  obtain ⟨-, server, -, -, -, -, hserved⟩ := callers_answerable hreach task hmem 0 hstate
  exact ⟨s, hreach, task, hmem, hstate, server, hserved⟩

/-- The console and its child wait on one endpoint; the file server calls and is
received by the console; the console calls the same endpoint and is received by
the child, which takes the file server's place in the reply slot. -/
theorem overwritten_caller_stranded : ∃ s, sampleEnv.Reachable s ∧ ∃ task ∈ s.tasks,
    task.state = .blockedCall 0 ∧
      ∀ endpoint ∈ s.endpoints, endpoint.activeCaller ≠ some task.id := by
  obtain ⟨child, hchild, -, -, hreceived, -⟩ := sampleEnv_child
  obtain ⟨s, hreach, hcheck⟩ := hchild.reachable.runs (fun _ _ _ => trivial) hreceived
  obtain ⟨task, hmem, hstranded⟩ := List.any_eq_true.1 hcheck
  rw [Bool.and_eq_true, List.all_eq_true] at hstranded
  exact ⟨s, hreach, task, hmem, by simpa using hstranded.1,
    fun endpoint hendpoint => by simpa using hstranded.2 endpoint hendpoint⟩

/-! ## Deliveries -/

/-- On every endpoint the deliveries are the calls that were not withdrawn by a
termination, oldest first, each once, with the caller and its words; the rest of
those calls waits in the queue.  Every step records the call that the current
task issues, puts what it records as delivered into the receiver's registers,
and takes nothing from a queue when it reports a timeout. -/
theorem ipc_delivery (h : env.Reachable s) :
    (∀ (index : Nat) (endpoint : Endpoint), s.endpoints[index]? = some endpoint →
      Mailbox.taken (endpointHistory index s.trace) <+:
        Mailbox.surviving (endpointHistory index s.trace) ∧
      Mailbox.surviving (endpointHistory index s.trace) =
        Mailbox.taken (endpointHistory index s.trace) ++
          endpoint.pendingCallers.map fun call => (call.1, call.2.words)) ∧
    ∀ action after, s.step action = .ok after →
      ∃ events, Machine.StepEvents s action after events := by
  refine ⟨fun index endpoint hfound => ?_, fun action after => h.sound.stepEvents⟩
  have hqueue := (h.history.fifo index endpoint hfound).surviving_eq_append
  have hwaiting : s.view.waitingCalls endpoint =
      endpoint.pendingCallers.map fun call => (call.1, call.2.words) := by
    exact congrArg (List.map _) (List.filter_eq_self.2 fun _ _ => by simp [Machine.view])
  rw [hwaiting] at hqueue
  exact ⟨hqueue ▸ List.prefix_append _ _, hqueue⟩

theorem ipc_delivery_sampleEnv : ∃ s after, sampleEnv.Reachable s ∧
    s.step (request 6 0 11 12 13) = .ok after ∧
    ∃ events, Machine.StepEvents s (request 6 0 11 12 13) after events := by
  obtain ⟨s, hreach, -, -, hreply, -⟩ := sampleEnv_calls
  obtain ⟨after, hstep, -⟩ := step_of_replyResult hreply
  have hreach : sampleEnv.Reachable s := hreach.mono fun _ _ _ => trivial
  exact ⟨s, after, hreach, hstep, (ipc_delivery hreach).2 _ after hstep⟩

/-! ## Replies -/

/-- Every answer and every failure ends a call that was open.  A reply that
succeeds wakes the caller whose message the server received last on the endpoint,
with the five words of the reply; a reply that fails changes no other task. -/
theorem reply_routing (h : env.Reachable s) :
    SettlesOpenCalls s.trace ∧
    ∀ frame device tid after, Syscall.ofNum frame.rax = some .ipcReply → s.current = some tid →
      s.step (.syscall frame device) = .ok after → ∃ seen, after.frame? tid = some seen ∧
        (seen.rax = eOk → ∃ index caller old woken,
          s.getEndpointCap tid frame.rdi rWrite = .ok index ∧
          ServedCall s.trace index tid caller ∧
          s.findTask caller = some old ∧ old.state = .blockedCall index ∧
          after.findTask caller = some woken ∧ woken.state = .ready ∧ woken.frame.rax = eOk ∧
          [woken.frame.rdi, woken.frame.rsi, woken.frame.rdx, woken.frame.r10, woken.frame.r8] =
            frame.words ∧
          ∀ other, other ≠ tid → other ≠ caller → after.findTask other = s.findTask other) ∧
        (seen.rax ≠ eOk → ∀ other, other ≠ tid → after.findTask other = s.findTask other) := by
  obtain ⟨hids, hinv⟩ := h.sound
  refine ⟨h.history.settles, fun frame device tid after hcall hcurrent hstep => ?_⟩
  obtain ⟨vm, hperform⟩ := Machine.syscall_perform hstep hcurrent hcall
  have hrun := hinv.running_of_current hcurrent
  have hframe : (s.trapped frame vm).frame? tid = some frame :=
    Machine.trapped_frame? hcurrent (Machine.findTask_isSome_of_current hinv hcurrent)
  have htrapped : ∀ other, other ≠ tid → (s.trapped frame vm).findTask other = s.findTask other :=
    fun other hne => by rw [Machine.trapped_findTask hcurrent, if_neg hne]
  have hactive : ∀ (index : Nat) (endpoint : Endpoint) caller, s.endpoints[index]? = some endpoint →
      endpoint.activeCaller = some caller → s.view.state? caller = some (.blockedCall index) :=
    fun index endpoint caller hfound hcaller => hinv.waiting_of_active hfound hcaller nofun
  have hother : ∀ (index : Nat) (endpoint : Endpoint),
      (s.trapped frame vm).endpoints[index]? = some endpoint → endpoint.activeCaller ≠ some tid := by
    intro index endpoint hfound hcaller
    rw [Machine.trapped_endpoints] at hfound
    cases hrun.symm.trans (hactive index endpoint tid hfound hcaller)
  rcases Machine.ipcReply_cases hframe hother hperform with
    ⟨code, hcode, ⟨seen, hseen, rfl⟩, hothers⟩ |
    ⟨index, endpoint, caller, hcap, hfound, hserver, hcaller, ⟨seen, hseen, hok⟩,
      ⟨task, htask, hwoken⟩, hothers⟩
  · refine ⟨seen, hseen, fun hok => absurd hok hcode, fun _ other hne => ?_⟩
    exact (hothers other hne).trans (htrapped other hne)
  · rw [Machine.trapped_getEndpointCap hcurrent] at hcap
    rw [Machine.trapped_endpoints] at hfound
    have hwaits := hactive index endpoint caller hfound hcaller
    have hne : caller ≠ tid := by
      rintro rfl
      cases hrun.symm.trans hwaits
    rw [htrapped caller hne] at htask
    obtain ⟨old, hold, hstate⟩ := Machine.state?_view_iff.1 hwaits
    obtain rfl : task = old := Option.some.inj (htask.symm.trans hold)
    refine ⟨seen, hseen, fun _ => ⟨index, caller, task, _, hcap, ?_, hold, hstate, hwoken, rfl, rfl,
      rfl, fun other hother hcaller => ?_⟩, fun hfail => absurd hok hfail⟩
    · exact h.history.served index endpoint caller tid hfound hcaller hserver hwaits
    · exact (hothers other hother hcaller).trans (htrapped other hother)

/-- The console answers the file server. -/
theorem reply_routing_sampleEnv : ∃ s after index caller woken, sampleEnv.Reachable s ∧
    s.step (request 6 0 11 12 13) = .ok after ∧ ServedCall s.trace index 1 caller ∧
    after.findTask caller = some woken ∧ woken.frame.rdi = 11 ∧ woken.frame.rsi = 12 := by
  obtain ⟨s, hreach, -, hcurrent, hreply, -⟩ := sampleEnv_calls
  obtain ⟨after, hstep, hresult⟩ := step_of_replyResult hreply
  have hreach : sampleEnv.Reachable s := hreach.mono fun _ _ _ => trivial
  obtain ⟨seen, hseen, hok, -⟩ := (reply_routing hreach).2 _ none 1 after rfl hcurrent hstep
  rw [hseen] at hresult
  obtain ⟨index, caller, old, woken, hcap, hserved, -, -, hwoken, -, -, hwords, -⟩ :=
    hok (Option.some.inj hresult)
  rw [TrapFrame.words, List.cons.injEq, List.cons.injEq] at hwords
  exact ⟨s, after, index, caller, woken, hreach, hstep, hserved, hwoken, hwords.1, hwords.2.1⟩

end Redoubt.Kernel
