import Redoubt.Kernel.Authority
import Redoubt.Kernel.TreeInvariant

/-!
# The invariant of the process model

One theorem per group, by cases on the abstract step, and from them that every
chain of steps keeps the whole invariant.
-/

namespace Redoubt.Kernel

open Redoubt.Foundation

namespace Proc

variable {p q : Proc} {kind : StepKind} {tid : Nat}

theorem Inv.running_of_current (hinv : p.Inv) (onCpu : p.current = some tid) :
    p.state? tid = some .running :=
  (hinv.sched.running tid).1 onCpu

theorem Inv.zombie_of_dying (hinv : p.Inv) (dying : p.dying = some tid) :
    ∃ code, p.state? tid = some (.zombie code) := by
  obtain ⟨view, hview, hzombie⟩ := hinv.dyingZombie tid dying
  cases hstate : view.state <;> simp_all [TaskState.isZombie, state?]

/-- A caller in an endpoint's reply slot waits for that reply, unless it is the
task being torn down. -/
theorem Inv.waiting_of_active (hinv : p.Inv) {index : Nat} {endpoint : Endpoint} {caller : Nat}
    (found : p.endpoints[index]? = some endpoint) (active : endpoint.activeCaller = some caller)
    (calm : p.dying ≠ some caller) : p.state? caller = some (.blockedCall index) :=
  (hinv.ipc.active index endpoint caller found active).resolve_right calm

/-- The caller that an exit strands is another task, waiting for its reply. -/
theorem Inv.waiting_of_stranded (hinv : p.Inv) {index : Nat} {endpoint : Endpoint}
    {caller : Nat} (dying : p.dying = some tid) (found : p.endpoints[index]? = some endpoint)
    (stranded : endpoint.strandedBy tid = some caller) :
    endpoint.activeCaller = some caller ∧ endpoint.activeServer = some tid ∧
      p.state? caller = some (.blockedCall index) := by
  have h : endpoint.activeCaller ≠ some tid ∧ endpoint.activeServer = some tid ∧
      endpoint.activeCaller = some caller := by
    grind [Endpoint.strandedBy]
  refine ⟨h.2.2, h.2.1, hinv.waiting_of_active found h.2.2 ?_⟩
  grind

/-! ## Table -/

theorem Inv.table_step (hinv : p.Inv) (step : Step kind p q) : q.TableInv := by
  have ht := hinv.table
  cases step with
  | resume _ _ _ runnable =>
      exact ht.congr rfl (fun _ => Iff.rfl) (Agree.setState rfl runnable rfl rfl)
  | forget => exact ht.congr rfl (fun _ => Iff.rfl) (Agree.of_task rfl)
  | preempt _ onCpu =>
      exact ht.congr rfl (fun _ => Iff.rfl)
        (Agree.setState rfl (hinv.running_of_current onCpu) rfl rfl)
  | parkSleep _ _ onCpu =>
      exact ht.congr rfl (fun _ => Iff.rfl)
        (Agree.setState rfl (hinv.running_of_current onCpu) rfl rfl)
  | parkWait _ onCpu =>
      exact ht.congr rfl (fun _ => Iff.rfl)
        (Agree.setState rfl (hinv.running_of_current onCpu) rfl rfl)
  | parkInput _ _ onCpu =>
      exact ht.congr rfl (fun _ => Iff.rfl)
        (Agree.setState rfl (hinv.running_of_current onCpu) rfl rfl)
  | callDirect tid _ receiver _ _ _ _ onCpu _ parked =>
      have hrun := hinv.running_of_current onCpu
      have hmid : (p.wake receiver).state? tid = some .running := by grind
      refine ht.congr rfl (fun _ => by simp [Dead]) (Agree.trans (q := p.wake receiver) ?_ ?_)
      · exact Agree.setState rfl parked rfl rfl
      · exact Agree.setState rfl hmid rfl rfl
  | callQueue _ _ _ _ onCpu =>
      exact ht.congr rfl (fun _ => by simp [Dead])
        (Agree.setState rfl (hinv.running_of_current onCpu) rfl rfl)
  | recvQueue _ index caller endpoint _ _ _ calm _ found _ queued =>
      have hcaller := (hinv.ipc.pending index endpoint caller found (by simp [queued])).resolve_right
        (by simp [calm])
      exact ht.congr rfl (fun _ => by simp [Dead]) (Agree.setState rfl hcaller rfl rfl)
  | recvPark _ _ _ _ onCpu =>
      exact ht.congr rfl (fun _ => Iff.rfl)
        (Agree.setState rfl (hinv.running_of_current onCpu) rfl rfl)
  | recvPoll =>
      exact ht.congr rfl (fun _ => by simp [Dead]) (Agree.of_task rfl)
  | expireRecv _ _ _ parked =>
      exact ht.congr rfl (fun _ => by simp [Dead]) (Agree.setState rfl parked rfl rfl)
  | expireSleep _ _ parked =>
      exact ht.congr rfl (fun _ => Iff.rfl) (Agree.setState rfl parked rfl rfl)
  | reply _ _ _ _ _ _ calm _ found _ answered =>
      have hcaller := hinv.waiting_of_active found answered (by simp [calm])
      exact ht.congr rfl (fun _ => by simp [Dead]) (Agree.setState rfl hcaller rfl rfl)
  | spawn _ fresh => exact ht.enter fresh
  | die _ _ found => exact ht.died hinv.tree found
  | abortAt =>
      exact ht.congr rfl (fun _ => Iff.rfl) (Agree.of_task rfl)
  | abortWake _ _ _ _ dying found stranded =>
      have hcaller := (hinv.waiting_of_stranded dying found stranded).2.2
      exact ht.congr rfl (fun _ => by simp [Dead]) (Agree.setState rfl hcaller rfl rfl)
  | finishDeliver tid parent _ _ _ _ _ _ _ waiting =>
      have hwoken : (p.wake parent).TableInv :=
        ht.congr rfl (fun _ => Iff.rfl) (Agree.setState rfl waiting rfl rfl)
      exact (hwoken.remove tid).congr rfl (fun _ => by simp [Dead]) (Agree.of_task rfl)
  | finishLinger =>
      exact ht.congr rfl (fun _ => Iff.rfl) (Agree.of_task rfl)
  | finishOrphan tid =>
      exact (ht.remove tid).congr rfl (fun _ => Iff.rfl) (Agree.of_task rfl)
  | collect _ child =>
      exact (ht.remove child).congr rfl (fun _ => by simp [Dead]) (Agree.of_task rfl)
  | serveInput _ _ _ parked =>
      exact ht.congr rfl (fun _ => Iff.rfl) (Agree.setState rfl parked rfl rfl)
  | serveStale =>
      exact ht.congr rfl (fun _ => Iff.rfl) (Agree.of_task rfl)
  | derive =>
      exact ht.congr rfl (fun _ => Iff.rfl) Agree.fillSlot
  | transfer =>
      exact ht.congr rfl (fun _ => by simp [Dead]) (Agree.of_task rfl)

/-! ## Scheduler -/

theorem Inv.sched_step (hinv : p.Inv) (step : Step kind p q) : q.SchedInv := by
  have hs := hinv.sched
  have ht := hinv.table
  cases step with
  | resume _ _ idle runnable queue => exact hs.resume idle runnable queue
  | forget stale =>
      refine ⟨hs.running, fun tid hready => ?_, fun tid hmem => by cases hmem⟩
      have hmem : tid ∈ p.ready := List.count_pos_iff.1 (by rw [hs.queued tid hready]; decide)
      exact absurd hready (stale tid hmem)
  | preempt _ onCpu => exact hs.preempt ht onCpu
  | parkSleep _ _ onCpu => exact hs.park onCpu _ rfl
  | parkWait _ onCpu => exact hs.park onCpu _ rfl
  | parkInput _ _ onCpu =>
      exact (hs.park onCpu .blockedInput rfl).history rfl rfl rfl fun _ h => h
  | callDirect _ index receiver _ _ _ _ onCpu _ parked =>
      have hwoken : (p.wake receiver).SchedInv := hs.wake ht parked rfl
      exact (hwoken.park onCpu (.blockedCall index) rfl).history rfl rfl rfl
        (by simp)
  | callQueue _ index _ _ onCpu =>
      exact (hs.park onCpu (.blockedSend index) rfl).history rfl rfl rfl (by simp)
  | recvQueue _ index caller endpoint _ _ _ calm _ found _ queued =>
      have hcaller := (hinv.ipc.pending index endpoint caller found (by simp [queued])).resolve_right
        (by simp [calm])
      refine hs.congr (fun other => ?_) (fun other => ?_) rfl rfl fun _ ⟨code, h⟩ => ⟨code, by simp [h]⟩
      · grind
      · grind
  | recvPark _ _ _ _ onCpu => exact hs.park onCpu _ rfl
  | recvPoll => exact hs.history rfl rfl rfl (by simp)
  | expireRecv _ _ _ parked =>
      exact (hs.wake ht parked rfl).history rfl rfl rfl (by simp)
  | expireSleep _ _ parked => exact hs.wake ht parked rfl
  | reply _ _ _ _ _ _ calm _ found _ answered =>
      have hcaller := hinv.waiting_of_active found answered (by simp [calm])
      exact (hs.wake ht hcaller rfl).history rfl rfl rfl (by simp)
  | spawn _ fresh => exact hs.enter ht fresh
  | die _ _ found => exact hs.died hinv.tree found
  | abortAt => exact hs.history rfl rfl rfl fun _ h => h
  | abortWake _ _ _ _ dying found stranded =>
      have hcaller := (hinv.waiting_of_stranded dying found stranded).2.2
      exact (hs.wake ht hcaller rfl).history rfl rfl rfl (by simp)
  | finishDeliver tid parent code _ _ _ found exited _ waiting =>
      have hdead : (p.wake parent).state? tid = some (.zombie code) := by
        have : p.state? tid = some (.zombie code) := by simp [state?, found, exited]
        grind
      exact ((hs.wake ht waiting rfl).remove hdead rfl).history rfl rfl rfl (by simp)
  | finishLinger =>
      exact hs.history rfl rfl rfl fun _ h => h
  | finishOrphan _ _ dying =>
      obtain ⟨code, hzombie⟩ := hinv.zombie_of_dying dying
      exact (hs.remove hzombie rfl).history rfl rfl rfl fun _ h => h
  | collect _ child code _ _ _ found exited =>
      have hdead : p.state? child = some (.zombie code) := by simp [state?, found, exited]
      exact (hs.remove hdead rfl).history rfl rfl rfl (by simp)
  | serveInput _ _ _ parked =>
      exact (hs.wake ht parked rfl).history rfl rfl rfl fun _ h => h
  | serveStale waiter _ queued gone =>
      have hdead : p.Dead waiter.tid :=
        (hinv.input.parkedOrDead waiter (by simp [queued])).resolve_left gone
      refine ⟨hs.running, fun other hready => ?_, fun other hmem => ?_⟩
      · have hne : waiter.tid ≠ other := fun h => by
          have := ht.deadGone other .ready (h ▸ hdead) hready
          cases this
        rw [List.count_cons_of_ne hne]
        exact hs.queued other hready
      · rcases List.mem_cons.1 hmem with rfl | hmem
        · exact .inr hdead
        · exact hs.stale other hmem
  | derive =>
      exact hs.history (funext fun _ => state?_fillSlot) rfl rfl fun _ h => h
  | transfer => exact hs.history rfl rfl rfl (by simp)

/-! ## IPC -/

theorem abort_pendingCallers (endpoint : Endpoint) : (endpoint.abort tid).pendingCallers =
    endpoint.pendingCallers.filter fun call => call.1 ≠ tid := by
  simp only [Endpoint.abort]
  split_ifs <;> rfl

/-- Removing a dying task from one endpoint. -/
theorem Inv.ipc_abort (hinv : p.Inv) {index : Nat} {endpoint : Endpoint}
    (dying : p.dying = some tid) (found : p.endpoints[index]? = some endpoint) :
    (p.setEndpoint index (endpoint.abort tid)).IpcInv := by
  have hpaired := hinv.ipc.paired index endpoint found
  refine hinv.ipc.forget found (fun _ h => hinv.zombie_of_dying h) ?_ ?_ ?_ ?_ ?_
  · simp only [Endpoint.abort]
    grind
  · simp only [Endpoint.abort]
    grind
  · simp only [Endpoint.abort]
    grind
  · rw [abort_pendingCallers]
    exact List.filter_sublist
  · intro caller hmem
    rw [abort_pendingCallers]
    by_cases h : caller = tid
    · exact .inr (h ▸ dying)
    · obtain ⟨call, hcall, rfl⟩ := List.mem_map.1 hmem
      exact .inl (List.mem_map_of_mem (List.mem_filter.2 ⟨hcall, by simpa using h⟩))

/-- A caller whose reply slot has been freed wakes up. -/
theorem Inv.ipc_wakeCaller (hinv : p.Inv) {index caller : Nat} {endpoint new : Endpoint}
    (found : p.endpoints[index]? = some endpoint) (hc : (p.setEndpoint index new).IpcInv)
    (waiting : p.state? caller = some (.blockedCall index)) (freed : new.activeCaller = none) :
    ((p.wake caller).setEndpoint index new).IpcInv := by
  refine (hc.wakeCaller caller waiting fun slot e hfound => ?_).congr rfl rfl
    (Agree.of_task rfl)
  rw [getElem?_setEndpoint found] at hfound
  intro hactive
  by_cases h : slot = index
  · grind
  · simp only [h, if_false] at hfound
    rcases hinv.ipc.active slot e caller hfound hactive with hstate | hdying
    · grind
    · obtain ⟨code, hzombie⟩ := hinv.zombie_of_dying hdying
      grind

theorem Inv.ipc_step (hinv : p.Inv) (step : Step kind p q) : q.IpcInv := by
  have hc := hinv.ipc
  cases step with
  | resume _ _ _ runnable =>
      exact hc.congr rfl rfl (Agree.setState rfl runnable rfl rfl)
  | forget => exact hc.congr rfl rfl (Agree.of_task rfl)
  | preempt _ onCpu =>
      exact hc.congr rfl rfl (Agree.setState rfl (hinv.running_of_current onCpu) rfl rfl)
  | parkSleep _ _ onCpu =>
      exact hc.congr rfl rfl (Agree.setState rfl (hinv.running_of_current onCpu) rfl rfl)
  | parkWait _ onCpu =>
      exact hc.congr rfl rfl (Agree.setState rfl (hinv.running_of_current onCpu) rfl rfl)
  | parkInput _ _ onCpu =>
      exact hc.congr rfl rfl (Agree.setState rfl (hinv.running_of_current onCpu) rfl rfl)
  | callDirect tid _ receiver _ _ _ _ onCpu found parked =>
      have hrun := hinv.running_of_current onCpu
      have hmid : (p.wake receiver).state? tid = some .running := by grind
      have hlive : (p.wake receiver).Live receiver :=
        live_iff.2 ⟨.ready, by simp [state?_wake, parked], rfl⟩
      exact ((hc.wakeReceiver parked).activate found hmid hlive).congr rfl rfl (Agree.of_task rfl)
  | callQueue tid _ _ _ onCpu found noReceiver =>
      have hrun := hinv.running_of_current onCpu
      have hcalm : p.dying ≠ some tid := fun h => by
        obtain ⟨code, hzombie⟩ := hinv.zombie_of_dying h
        simp [hrun] at hzombie
      exact (hc.enqueue found hrun hcalm noReceiver).congr rfl rfl (Agree.of_task rfl)
  | recvQueue _ _ _ _ _ _ _ calm onCpu found _ queued =>
      exact (hc.dequeue calm (hinv.running_of_current onCpu) found queued).congr rfl rfl
        (Agree.of_task rfl)
  | recvPark _ _ _ _ onCpu found _ empty =>
      exact hc.parkReceiver (hinv.running_of_current onCpu) found empty
  | recvPoll => exact hc.congr rfl rfl (Agree.of_task rfl)
  | expireRecv _ _ _ parked =>
      exact (hc.wakeReceiver parked).congr rfl rfl (Agree.of_task rfl)
  | expireSleep _ _ parked => exact hc.congr rfl rfl (Agree.setState rfl parked rfl rfl)
  | reply _ index _ endpoint _ _ calm _ found _ answered =>
      have hcaller := hinv.waiting_of_active found answered (by simp [calm])
      have hfreed : (p.setEndpoint index
          { endpoint with activeCaller := none, activeServer := none }).IpcInv :=
        hc.forget found (fun _ h => hinv.zombie_of_dying h) rfl (by simp) (by simp)
          (List.Sublist.refl _) fun _ h => .inl h
      exact (hinv.ipc_wakeCaller found hfreed hcaller rfl).congr rfl rfl (Agree.of_task rfl)
  | spawn _ fresh _ _ table => exact hc.enter hinv.table fresh
  | die _ _ found calm => exact hc.died hinv.tree found calm
  | abortAt _ _ _ dying found => exact hinv.ipc_abort dying found
  | abortWake tid _ _ endpoint dying found stranded =>
      obtain ⟨-, hserver, hcaller⟩ := hinv.waiting_of_stranded dying found stranded
      have hfreed : (endpoint.abort tid).activeCaller = none := by grind [Endpoint.abort]
      exact (hinv.ipc_wakeCaller found (hinv.ipc_abort dying found) hcaller hfreed).congr rfl rfl
        (Agree.of_task rfl)
  | finishDeliver tid parent code _ dying unwound found exited _ waiting =>
      have hwoken : (p.wake parent).IpcInv :=
        hc.congr rfl rfl (Agree.setState rfl waiting rfl rfl)
      have hdead : (p.wake parent).state? tid = some (.zombie code) := by
        have : p.state? tid = some (.zombie code) := by simp [state?, found, exited]
        grind
      exact ((hwoken.finish dying unwound).remove tid hdead rfl).congr rfl rfl
        (Agree.of_task rfl)
  | finishLinger _ _ _ dying unwound => exact hc.finish dying unwound
  | finishOrphan tid _ dying unwound =>
      obtain ⟨code, hzombie⟩ := hinv.zombie_of_dying dying
      exact ((hc.finish dying unwound).remove tid hzombie rfl).congr rfl rfl
        (Agree.of_task rfl)
  | collect _ child code _ _ _ found exited =>
      have hdead : p.state? child = some (.zombie code) := by simp [state?, found, exited]
      exact (hc.remove child hdead rfl).congr rfl rfl (Agree.of_task rfl)
  | serveInput _ _ _ parked =>
      exact hc.congr rfl rfl (Agree.setState rfl parked rfl rfl)
  | serveStale => exact hc.congr rfl rfl (Agree.of_task rfl)
  | derive =>
      exact hc.congr rfl rfl Agree.fillSlot
  | transfer => exact hc.congr rfl rfl (Agree.of_task rfl)

/-! ## Address spaces and capabilities -/

/-- What a change of states leaves of every task: its address space and table. -/
def Holds (p : Proc) (tid cr3 : Nat) (caps : CapTable) : Prop :=
  ∃ view, p.task tid = some view ∧ view.cr3 = cr3 ∧ view.caps = caps

theorem Holds.of_task {cr3 : Nat} {caps : CapTable} (htask : q.task = p.task)
    (h : q.Holds tid cr3 caps) : p.Holds tid cr3 caps := by
  simpa [Holds, htask] using h

theorem Holds.of_setState {other cr3 : Nat} {caps : CapTable} {new : TaskState}
    (htask : q.task = (p.setState other new).task) (h : q.Holds tid cr3 caps) :
    p.Holds tid cr3 caps := by
  obtain ⟨view, hview, hcr3, hcaps⟩ := h
  rw [htask] at hview
  by_cases heq : tid = other
  · simp only [setState_task, setTask_task, heq, if_true, Option.map_eq_some_iff] at hview
    obtain ⟨old, hold, rfl⟩ := hview
    exact ⟨old, heq ▸ hold, hcr3, hcaps⟩
  · simp only [setState_task, setTask_task, heq, if_false] at hview
    exact ⟨view, hview, hcr3, hcaps⟩

theorem Holds.of_remove {other cr3 : Nat} {caps : CapTable}
    (htask : q.task = (p.remove other).task) (h : q.Holds tid cr3 caps) :
    p.Holds tid cr3 caps := by
  obtain ⟨view, hview, hcr3, hcaps⟩ := h
  rw [htask] at hview
  exact ⟨view, by grind [remove_task], hcr3, hcaps⟩

/-- Only a derivation and a spawn change what tasks hold. -/
theorem Step.holds_before {cr3 : Nat} {caps : CapTable} (step : Step kind p q)
    (hderive : kind ≠ .derive) (hspawn : kind ≠ .spawn) (h : q.Holds tid cr3 caps) :
    p.Holds tid cr3 caps := by
  cases step with
  | resume => exact Holds.of_setState rfl h
  | forget => exact Holds.of_task rfl h
  | preempt => exact Holds.of_setState rfl h
  | parkSleep => exact Holds.of_setState rfl h
  | parkWait => exact Holds.of_setState rfl h
  | parkInput => exact Holds.of_setState rfl h
  | callDirect _ _ receiver =>
      exact Holds.of_setState rfl (Holds.of_setState (p := p.wake receiver) rfl h)
  | callQueue => exact Holds.of_setState rfl h
  | recvQueue => exact Holds.of_setState rfl h
  | recvPark => exact Holds.of_setState rfl h
  | recvPoll => exact Holds.of_task rfl h
  | expireRecv => exact Holds.of_setState rfl h
  | expireSleep => exact Holds.of_setState rfl h
  | reply => exact Holds.of_setState rfl h
  | spawn => exact absurd rfl hspawn
  | die other code =>
      obtain ⟨view, hview, hcr3, hcaps⟩ := h
      have hview : p.dieTask other code tid = some view := hview
      cases hold : p.task tid with
      | none => simp [dieTask, hold] at hview
      | some old =>
          refine ⟨old, hold, ?_⟩
          simp only [dieTask, hold] at hview
          grind
  | abortAt => exact Holds.of_task rfl h
  | abortWake => exact Holds.of_setState rfl h
  | finishDeliver _ parent =>
      exact Holds.of_setState rfl (Holds.of_remove (p := p.wake parent) rfl h)
  | finishLinger => exact Holds.of_task rfl h
  | finishOrphan => exact Holds.of_remove rfl h
  | collect => exact Holds.of_remove rfl h
  | serveInput => exact Holds.of_setState rfl h
  | serveStale => exact Holds.of_task rfl h
  | derive => exact absurd rfl hderive
  | transfer => exact Holds.of_task rfl h

theorem Step.endpoints_length (step : Step kind p q) :
    q.endpoints.length = p.endpoints.length := by
  cases step <;> simp

theorem Inv.caps_step (hinv : p.Inv) (step : Step kind p q) : q.CapInv := by
  intro tid view slot index rights hview hcap
  rw [step.endpoints_length]
  by_cases hderive : kind = .derive
  · subst hderive
    cases step with
    | derive owner _ oldView _ _ a _ found held derivable hfree =>
        by_cases h : tid = owner
        · simp only [fillSlot_task, setTask_task, h, if_true, found, Option.map_some,
            Option.some.injEq] at hview
          subst hview
          rw [CapTable.cap?_set (CapTable.freeCapSlot_spec hfree).1] at hcap
          split_ifs at hcap with hslot
          · obtain rfl := Option.some.inj hcap
            obtain ⟨more, rfl⟩ := (Machine.deriveFrom_bounded derivable).2.endpoint
            exact hinv.caps owner oldView a.a0 index more found held
          · exact hinv.caps owner oldView slot index rights found hcap
        · simp only [fillSlot_task, setTask_task, h, if_false] at hview
          exact hinv.caps tid view slot index rights hview hcap
  · by_cases hspawn : kind = .spawn
    · subst hspawn
      cases step with
      | spawn _ _ _ _ table held ranged =>
          by_cases h : tid = p.nextTid
          · simp only [enter_task, h, if_true, Option.some.injEq] at hview
            subst hview
            have hgranted := CapTable.cap?_install (table ▸ hcap)
            cases hcurrent : p.current with
            | none => exact ranged hcurrent index rights hgranted
            | some parent =>
                obtain ⟨owner, srcSlot, src, mask, hfound, hsrc, -, heq⟩ :=
                  held parent hcurrent _ hgranted
                have hbound := Cap.withRights_bounded src mask
                rw [← heq] at hbound
                obtain ⟨more, rfl⟩ := hbound.endpoint
                exact hinv.caps parent owner srcSlot index more hfound hsrc
          · simp only [enter_task, h, if_false] at hview
            exact hinv.caps tid view slot index rights hview hcap
    · obtain ⟨old, hold, -, heq⟩ := step.holds_before hderive hspawn ⟨view, hview, rfl, rfl⟩
      exact hinv.caps tid old slot index rights hold (heq ▸ hcap)

/-! ## Tree -/

/-- Who newly waits after a change to a state other than `blockedWait`: nobody. -/
theorem waiting_of_setState (p : Proc) (tid : Nat) {other : Nat} {new : TaskState}
    (hnew : new ≠ .blockedWait) (h : (p.setState tid new).state? other = some .blockedWait) :
    p.state? other = some .blockedWait := by
  rw [state?_setState] at h
  split_ifs at h
  · simp [hnew] at h
  · exact h

theorem Inv.tree_step (hinv : p.Inv) (step : Step kind p q) : q.TreeInv := by
  have htree := hinv.tree
  -- a change of one state, neither into death nor into waiting
  have hplain : ∀ {tid : Nat} {new : TaskState} {r : Proc}, r.task = (p.setState tid new).task →
      r.dying = p.dying → new.isZombie = false → new ≠ .blockedWait → r.TreeInv := by
    intro tid new r htask hdying halive hnew
    refine htree.kin (Kin.setState tid new htask halive) hdying fun other hwait => .inl ?_
    exact waiting_of_setState p tid hnew (by simpa only [state?, htask] using hwait)
  cases step with
  | resume => exact hplain rfl rfl rfl (by simp)
  | forget => exact htree.of_task rfl rfl
  | preempt => exact hplain rfl rfl rfl (by simp)
  | parkSleep => exact hplain rfl rfl rfl (by simp)
  | parkWait tid _ noneDead someChild =>
      refine htree.kin (Kin.setState tid .blockedWait rfl rfl) rfl fun other hwait => ?_
      by_cases h : other = tid
      · exact .inr ⟨h ▸ noneDead, h ▸ someChild⟩
      · exact .inl (by grind)
  | parkInput => exact hplain rfl rfl rfl (by simp)
  | callDirect tid index receiver =>
      have hwoken : Kin p (p.wake receiver) := Kin.setState receiver .ready rfl rfl
      refine htree.kin (hwoken.trans (Kin.setState tid (.blockedCall index) rfl rfl)) rfl
        fun other hwait => .inl ?_
      have h := waiting_of_setState (p.wake receiver) tid (by simp) hwait
      exact waiting_of_setState p receiver (by simp) h
  | callQueue => exact hplain rfl rfl rfl (by simp)
  | recvQueue => exact hplain rfl rfl rfl (by simp)
  | recvPark => exact hplain rfl rfl rfl (by simp)
  | recvPoll => exact htree.of_task rfl rfl
  | expireRecv => exact hplain rfl rfl rfl (by simp)
  | expireSleep => exact hplain rfl rfl rfl (by simp)
  | reply => exact hplain rfl rfl rfl (by simp)
  | spawn _ fresh spawner _ table =>
      refine htree.enter hinv.table fresh fun parent hparent => ?_
      exact live_iff.2 ⟨.running, hinv.running_of_current (spawner ▸ hparent), rfl⟩
  | die _ _ found calm => exact htree.died calm found
  | abortAt => exact htree.of_task rfl rfl
  | abortWake => exact hplain rfl rfl rfl (by simp)
  | finishDeliver tid parent _ view dying _ found exited child =>
      have hwoken : (p.wake parent).TreeInv := hplain rfl rfl rfl (by simp)
      have hne : tid ≠ parent := by
        have := htree.older tid view parent found child
        omega
      have hfound : (p.wake parent).task tid = some view := by simp [hne, found]
      have hbusy : ∀ other, view.parent = some other →
          (p.wake parent).state? other ≠ some .blockedWait := by
        grind
      have hgone := hwoken.remove hfound (by simp [exited, TaskState.isZombie]) hbusy
      exact (hgone.torn tid dying (by simp)).of_task rfl rfl
  | finishLinger _ _ _ dying _ found child busy =>
      exact htree.linger dying found child busy
  | finishOrphan tid view dying _ found orphan =>
      obtain ⟨dead, hdead, hzombie⟩ := hinv.dyingZombie tid dying
      obtain rfl : view = dead := Option.some.inj (found.symm.trans hdead)
      exact (htree.remove found hzombie (by simp [orphan])).torn tid dying (by simp)
  | collect _ _ _ _ _ onCpu found exited =>
      have hrun := hinv.running_of_current onCpu
      exact (htree.remove found (by simp [exited, TaskState.isZombie]) (by grind)).of_task rfl rfl
  | serveInput => exact hplain rfl rfl rfl (by simp)
  | serveStale => exact htree.of_task rfl rfl
  | derive =>
      refine htree.kin (Kin.setTask rfl (fun _ => rfl) fun _ h => h) rfl fun other hwait => .inl ?_
      rwa [state?_fillSlot] at hwait
  | transfer => exact htree.of_task rfl rfl

/-! ## Keyboard readers -/

theorem InputInv.of_task (hi : p.InputInv) (htask : q.task = p.task)
    (hwaiters : q.waiters = p.waiters) (htrace : p.trace ⊆ q.trace) : q.InputInv :=
  hi.congr hwaiters (fun _ => by simp only [state?, htask])
    (fun _ ⟨code, hmem⟩ => ⟨code, htrace hmem⟩)
    fun _ view hview => .inl ⟨view, htask ▸ hview, rfl⟩

theorem Inv.input_step (hinv : p.Inv) (step : Step kind p q) : q.InputInv := by
  have hi := hinv.input
  -- a change of one state, neither from nor to reading the keyboard
  have hplain : ∀ {tid : Nat} {old new : TaskState} {r : Proc}, p.state? tid = some old →
      r.task = (p.setState tid new).task → r.waiters = p.waiters → p.trace ⊆ r.trace →
      old ≠ .blockedInput → new ≠ .blockedInput → r.InputInv :=
    fun hstate htask hwaiters htrace hold hnew =>
      (hi.setState _ hstate hold hnew).of_task htask hwaiters htrace
  cases step with
  | resume _ _ _ runnable =>
      exact hplain runnable rfl rfl (fun _ h => h) (by simp) (by simp)
  | forget => exact hi.of_task rfl rfl fun _ h => h
  | preempt _ onCpu =>
      exact hplain (hinv.running_of_current onCpu) rfl rfl (fun _ h => h) (by simp) (by simp)
  | parkSleep _ _ onCpu =>
      exact hplain (hinv.running_of_current onCpu) rfl rfl (fun _ h => h) (by simp) (by simp)
  | parkWait _ onCpu =>
      exact hplain (hinv.running_of_current onCpu) rfl rfl (fun _ h => h) (by simp) (by simp)
  | parkInput _ _ onCpu found space =>
      exact hi.park hinv.table (hinv.running_of_current onCpu) found space
  | callDirect tid index receiver _ _ _ _ onCpu _ parked =>
      have hrun := hinv.running_of_current onCpu
      have hmid : (p.setState receiver .ready).state? tid = some .running := by grind
      have hwoken := hi.setState .ready parked (by simp) (by simp)
      exact (hwoken.setState (.blockedCall index) hmid (by simp) (by simp)).of_task rfl rfl
        (by simp)
  | callQueue _ _ _ _ onCpu =>
      exact hplain (hinv.running_of_current onCpu) rfl rfl (by simp) (by simp) (by simp)
  | recvQueue _ index caller endpoint _ _ _ calm _ found _ queued =>
      have hcaller := (hinv.ipc.pending index endpoint caller found (by simp [queued])).resolve_right
        (by simp [calm])
      exact hplain hcaller rfl rfl (by simp) (by simp) (by simp)
  | recvPark _ _ _ _ onCpu =>
      exact hplain (hinv.running_of_current onCpu) rfl rfl (fun _ h => h) (by simp) (by simp)
  | recvPoll => exact hi.of_task rfl rfl (by simp)
  | expireRecv _ _ _ parked =>
      exact hplain parked rfl rfl (by simp) (by simp) (by simp)
  | expireSleep _ _ parked =>
      exact hplain parked rfl rfl (fun _ h => h) (by simp) (by simp)
  | reply _ _ _ _ _ _ calm _ found _ answered =>
      have hcaller := hinv.waiting_of_active found answered (by simp [calm])
      exact hplain hcaller rfl rfl (by simp) (by simp) (by simp)
  | spawn _ fresh _ _ table => exact hi.enter hinv.table fresh
  | die _ _ found => exact hi.died hinv.tree found
  | abortAt => exact hi.of_task rfl rfl fun _ h => h
  | abortWake _ _ _ _ dying found stranded =>
      have hcaller := (hinv.waiting_of_stranded dying found stranded).2.2
      exact hplain hcaller rfl rfl (by simp) (by simp) (by simp)
  | finishDeliver tid parent code _ _ _ found exited _ waiting =>
      have hwoken : (p.wake parent).InputInv :=
        hplain waiting rfl rfl (fun _ h => h) (by simp) (by simp)
      have hdead : (p.wake parent).state? tid = some (.zombie code) := by
        have : p.state? tid = some (.zombie code) := by simp [state?, found, exited]
        grind
      exact (hwoken.remove hdead rfl).of_task rfl rfl (by simp)
  | finishLinger => exact hi.of_task rfl rfl fun _ h => h
  | finishOrphan _ _ dying =>
      obtain ⟨code, hzombie⟩ := hinv.zombie_of_dying dying
      exact (hi.remove hzombie rfl).of_task rfl rfl fun _ h => h
  | collect _ child code _ _ _ found exited =>
      have hdead : p.state? child = some (.zombie code) := by simp [state?, found, exited]
      exact (hi.remove hdead rfl).of_task rfl rfl (by simp)
  | serveInput _ _ queued parked => exact hi.serve queued parked
  | serveStale _ _ queued gone => exact hi.drop queued gone
  | derive tid _ view =>
      refine hi.congr rfl (fun _ => by rw [state?_fillSlot]) (fun _ h => h)
        fun other view hview => .inl ?_
      by_cases h : other = tid
      · simp only [fillSlot_task, setTask_task, h, if_true, Option.map_eq_some_iff] at hview
        obtain ⟨old, hold, rfl⟩ := hview
        exact ⟨old, h ▸ hold, rfl⟩
      · simp only [fillSlot_task, setTask_task, h, if_false] at hview
        exact ⟨view, hview, rfl⟩
  | transfer => exact hi.of_task rfl rfl (by simp)

/-! ## The whole invariant -/

/-- The history only grows, by events of the step's kind. -/
theorem Step.emits (step : Step kind p q) :
    ∃ events, q.trace = p.trace ++ events ∧ ∀ event ∈ events, event.MadeBy kind := by
  cases step with
  | callDirect => exact ⟨_, rfl, by simp [Event.MadeBy]⟩
  | callQueue => exact ⟨_, rfl, by simp [Event.MadeBy]⟩
  | recvQueue => exact ⟨_, rfl, by simp [Event.MadeBy]⟩
  | recvPoll => exact ⟨_, rfl, by simp [Event.MadeBy]⟩
  | expireRecv => exact ⟨_, rfl, by simp [Event.MadeBy]⟩
  | reply => exact ⟨_, rfl, by simp [Event.MadeBy]⟩
  | spawn => exact ⟨_, rfl, by simp [Event.MadeBy]⟩
  | die => exact ⟨_, rfl, by simp [Event.MadeBy]⟩
  | abortWake => exact ⟨_, rfl, by simp [Event.MadeBy]⟩
  | finishDeliver => exact ⟨_, rfl, by simp [Event.MadeBy]⟩
  | collect => exact ⟨_, rfl, by simp [Event.MadeBy]⟩
  | transfer => exact ⟨_, rfl, by simp [Event.MadeBy]⟩
  | _ => exact ⟨[], (List.append_nil _).symm, by simp⟩

theorem Steps.emits {kinds : StepKind → Prop} (steps : Steps kinds p q) :
    ∃ events, q.trace = p.trace ++ events ∧
      ∀ event ∈ events, ∃ kind, kinds kind ∧ event.MadeBy kind := by
  induction steps with
  | refl => exact ⟨[], (List.append_nil _).symm, by simp⟩
  | tail _ hstep ih =>
      obtain ⟨kind, hkind, hstep⟩ := hstep
      obtain ⟨before, hbefore, hold⟩ := ih
      obtain ⟨events, hevents, hnew⟩ := hstep.emits
      refine ⟨before ++ events, by rw [hevents, hbefore, List.append_assoc], fun event hmem => ?_⟩
      rcases List.mem_append.1 hmem with hmem | hmem
      · exact hold event hmem
      · exact ⟨kind, hkind, hnew event hmem⟩

theorem Dead.step (step : Step kind p q) (hdead : p.Dead tid) : q.Dead tid := by
  obtain ⟨code, hmem⟩ := hdead
  obtain ⟨events, heq, -⟩ := step.emits
  exact ⟨code, heq ▸ List.mem_append_left _ hmem⟩

theorem setState_task_ne_none {other : Nat} {new : TaskState} (h : p.task tid ≠ none) :
    (p.setState other new).task tid ≠ none := by
  by_cases heq : tid = other <;> simp_all

/-- While a termination goes on, nobody leaves the table. -/
theorem Step.stays (step : Step kind p q) (hbefore : p.dying ≠ none) (hafter : q.dying ≠ none)
    (h : p.task tid ≠ none) : q.task tid ≠ none := by
  cases step with
  | forget => exact h
  | recvPoll => exact h
  | abortAt => exact h
  | serveStale => exact h
  | transfer => exact h
  | callDirect => exact setState_task_ne_none (setState_task_ne_none h)
  | spawn =>
      rw [enter_task]
      split_ifs
      · simp
      · exact h
  | die _ _ _ calm => exact absurd calm hbefore
  | collect _ _ _ _ calm => exact absurd calm hbefore
  | finishDeliver => exact absurd rfl hafter
  | finishLinger => exact absurd rfl hafter
  | finishOrphan => exact absurd rfl hafter
  | derive other =>
      by_cases heq : tid = other <;> simp_all
  | _ => exact setState_task_ne_none h

/-- Whose termination is under way stays a zombie in the table until it is over. -/
theorem Inv.dying_step (hinv : p.Inv) (step : Step kind p q) (dying : q.dying = some tid) :
    ∃ view, q.task tid = some view ∧ view.state.isZombie = true := by
  by_cases hold : p.dying = some tid
  · obtain ⟨code, hzombie⟩ := hinv.zombie_of_dying hold
    have hdead : q.Dead tid := (hinv.table.zombieDead tid _ hzombie rfl).step step
    have hstays : q.task tid ≠ none :=
      step.stays (by simp [hold]) (by simp [dying]) (by simp [← state?_eq_none, hzombie])
    obtain ⟨view, hview⟩ := Option.ne_none_iff_exists'.1 hstays
    exact ⟨view, hview,
      (hinv.table_step step).deadGone tid view.state hdead (by simp [state?, hview])⟩
  · cases step with
    | die other code found =>
        obtain rfl : other = tid := Option.some.inj dying
        obtain ⟨view, hview, hstate⟩ := state?_eq_some.1 (state?_died_self code hinv.tree found)
        exact ⟨view, hview, by simp [hstate, TaskState.isZombie]⟩
    | finishDeliver => cases dying
    | finishLinger => cases dying
    | finishOrphan => cases dying
    | _ => exact absurd dying hold

theorem Inv.step (hinv : p.Inv) (step : Step kind p q) : q.Inv where
  table := hinv.table_step step
  sched := hinv.sched_step step
  ipc := hinv.ipc_step step
  caps := hinv.caps_step step
  tree := hinv.tree_step step
  input := hinv.input_step step
  dyingZombie := fun _ => hinv.dying_step step

/-- The rule for chains: what every step of the given kinds keeps, under the
invariant, holds at the end. -/
theorem Inv.steps_rule {kinds : StepKind → Prop} {I : Proc → Prop}
    (hstep : ∀ kind p q, kinds kind → p.Inv → I p → Step kind p q → I q) (hinv : p.Inv)
    (h : I p) (steps : Steps kinds p q) : q.Inv ∧ I q := by
  induction steps with
  | refl => exact ⟨hinv, h⟩
  | tail _ hlast ih =>
      obtain ⟨kind, hkind, hlast⟩ := hlast
      exact ⟨ih.1.step hlast, hstep _ _ _ hkind ih.1 ih.2 hlast⟩

/-- Every chain of abstract steps keeps the invariant. -/
theorem Inv.steps {kinds : StepKind → Prop} (hinv : p.Inv) (steps : Steps kinds p q) : q.Inv :=
  (hinv.steps_rule (fun _ _ _ _ _ _ _ => trivial) trivial steps).1

end Proc

end Redoubt.Kernel
