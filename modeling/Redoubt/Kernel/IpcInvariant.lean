import Redoubt.Kernel.SchedulerInvariant

/-!
# Every step keeps the IPC invariant
-/

namespace Redoubt.Kernel

/-- A state that some endpoint has to know about, or dead. -/
def TaskState.isIpc : TaskState → Bool
  | .blockedSend _ => true
  | .blockedCall _ => true
  | .blockedRecv _ _ => true
  | .zombie _ => true
  | _ => false

namespace Proc

variable {p q : Proc} {tid index : Nat} {endpoint : Endpoint} {state : TaskState}

theorem getElem?_setEndpoint (found : p.endpoints[index]? = some endpoint) (new : Endpoint)
    (slot : Nat) :
    (p.setEndpoint index new).endpoints[slot]? =
      if slot = index then some new else p.endpoints[slot]? := by
  rw [setEndpoint_endpoints, List.getElem?_set]
  by_cases h : index = slot
  · subst h
    have hlt : index < p.endpoints.length := (List.getElem?_eq_some_iff.1 found).1
    simp [hlt]
  · simp [h, Ne.symm h]

theorem IpcInv.congr (hc : p.IpcInv) (hendpoints : q.endpoints = p.endpoints)
    (hdying : q.dying = p.dying) (ha : Agree TaskState.isIpc p q) : q.IpcInv where
  paired := hendpoints ▸ hc.paired
  active := fun index endpoint caller hfound hactive => by
    rw [ha.kept caller _ rfl, hdying]
    exact hc.active index endpoint caller (hendpoints ▸ hfound) hactive
  served := fun index endpoint server hfound hserver => by
    rw [ha.live fun _ => rfl, hdying]
    exact hc.served index endpoint server (hendpoints ▸ hfound) hserver
  distinct := hendpoints ▸ hc.distinct
  pending := fun index endpoint caller hfound hpending => by
    rw [ha.kept caller _ rfl, hdying]
    exact hc.pending index endpoint caller (hendpoints ▸ hfound) hpending
  sending := fun index caller hstate => by
    rw [hendpoints]
    exact hc.sending index caller ((ha.kept caller _ rfl).1 hstate)
  rendezvous := fun index endpoint receiver deadline hfound hstate =>
    hc.rendezvous index endpoint receiver deadline (hendpoints ▸ hfound)
      ((ha.kept receiver _ rfl).1 hstate)

theorem live_setState {other : Nat} {new : TaskState} (halive : new.isZombie = false)
    (h : p.Live other) : (p.setState tid new).Live other := by
  rw [live_iff] at h ⊢
  grind

/-- A receiver stops waiting. -/
theorem IpcInv.wakeReceiver {deadline : Nat} (hc : p.IpcInv)
    (parked : p.state? tid = some (.blockedRecv index deadline)) : (p.wake tid).IpcInv where
  paired := hc.paired
  active := fun index endpoint caller hfound hactive => by
    have := hc.active index endpoint caller hfound hactive
    grind
  served := fun index endpoint server hfound hserver =>
    (hc.served index endpoint server hfound hserver).imp_left (live_setState rfl)
  distinct := hc.distinct
  pending := fun index endpoint caller hfound hpending => by
    have := hc.pending index endpoint caller hfound hpending
    grind
  sending := fun index caller hstate => hc.sending index caller (by grind)
  rendezvous := fun index endpoint receiver deadline hfound hstate =>
    hc.rendezvous index endpoint receiver deadline hfound (by grind)

/-- A running task's call goes straight to a receiver. -/
theorem IpcInv.activate {receiver : Nat} (hc : p.IpcInv)
    (found : p.endpoints[index]? = some endpoint) (hrun : p.state? tid = some .running)
    (hlive : p.Live receiver) :
    ((p.park tid (.blockedCall index)).setEndpoint index
      { endpoint with activeCaller := some tid, activeServer := some receiver }).IpcInv := by
  have hlookup := getElem?_setEndpoint (p := p.park tid (.blockedCall index)) found
  refine ⟨fun slot e h => ?_, fun slot e caller h => ?_, fun slot e server h => ?_,
    fun slot e h => ?_, fun slot e caller h => ?_, fun slot caller h => ?_,
    fun slot e receiver deadline h => ?_⟩
  · rw [hlookup] at h
    have := hc.paired slot e
    grind
  · rw [hlookup] at h
    have := hc.active slot e caller
    grind
  · rw [hlookup] at h
    have := hc.served slot e server
    rw [live_iff] at this hlive ⊢
    grind [TaskState.isZombie]
  · rw [hlookup] at h
    have := hc.distinct slot e
    have := hc.distinct index endpoint
    grind
  · rw [hlookup] at h
    have := hc.pending slot e caller
    have := hc.pending index endpoint caller
    grind
  · simp only [hlookup]
    have := hc.sending slot caller
    grind
  · rw [hlookup] at h
    have := hc.rendezvous slot e receiver deadline
    have := hc.rendezvous index endpoint receiver deadline
    grind

/-- A running task's call waits in the queue. -/
theorem IpcInv.enqueue {msg : Message} (hc : p.IpcInv)
    (found : p.endpoints[index]? = some endpoint) (hrun : p.state? tid = some .running)
    (hcalm : p.dying ≠ some tid)
    (noReceiver : ∀ receiver deadline, p.state? receiver ≠ some (.blockedRecv index deadline)) :
    ((p.park tid (.blockedSend index)).setEndpoint index
      { endpoint with pendingCallers := endpoint.pendingCallers ++ [(tid, msg)] }).IpcInv := by
  have hlookup := getElem?_setEndpoint (p := p.park tid (.blockedSend index)) found
  have hfresh := hc.pending index endpoint tid found
  refine ⟨fun slot e h => ?_, fun slot e caller h => ?_, fun slot e server h => ?_,
    fun slot e h => ?_, fun slot e caller h => ?_, fun slot caller h => ?_,
    fun slot e receiver deadline h => ?_⟩
  · rw [hlookup] at h
    have := hc.paired slot e
    have := hc.paired index endpoint
    grind
  · rw [hlookup] at h
    have := hc.active slot e caller
    have := hc.active index endpoint caller
    grind
  · rw [hlookup] at h
    have := hc.served slot e server
    have := hc.served index endpoint server
    rw [live_iff] at *
    grind [TaskState.isZombie]
  · rw [hlookup] at h
    have := hc.distinct slot e
    have := hc.distinct index endpoint
    grind
  · rw [hlookup] at h
    have := hc.pending slot e caller
    have := hc.pending index endpoint caller
    grind
  · simp only [hlookup]
    have := hc.sending slot caller
    grind
  · rw [hlookup] at h
    have := hc.rendezvous slot e receiver deadline
    grind

/-- A receiver takes the oldest queued call. -/
theorem IpcInv.dequeue {caller : Nat} {msg : Message} {rest : List (Nat × Message)}
    (hc : p.IpcInv) (calm : p.dying = none) (hrun : p.state? tid = some .running)
    (found : p.endpoints[index]? = some endpoint)
    (queued : endpoint.pendingCallers = (caller, msg) :: rest) :
    ((p.setState caller (.blockedCall index)).setEndpoint index
      { pendingCallers := rest, activeCaller := some caller, activeServer := some tid }).IpcInv := by
  have hlookup := getElem?_setEndpoint (p := p.setState caller (.blockedCall index)) found
  have hcaller := hc.pending index endpoint caller found (by simp [queued])
  have hdistinct := hc.distinct index endpoint found
  rw [queued, List.map_cons, List.nodup_cons] at hdistinct
  refine ⟨fun slot e h => ?_, fun slot e other h => ?_, fun slot e server h => ?_,
    fun slot e h => ?_, fun slot e other h => ?_, fun slot other h => ?_,
    fun slot e receiver deadline h => ?_⟩
  · rw [hlookup] at h
    have := hc.paired slot e
    grind
  · rw [hlookup] at h
    have := hc.active slot e other
    grind
  · rw [hlookup] at h
    have := hc.served slot e server
    rw [live_iff] at this ⊢
    grind [TaskState.isZombie]
  · rw [hlookup] at h
    have := hc.distinct slot e
    grind
  · rw [hlookup] at h
    have := hc.pending slot e other
    have := hc.pending index endpoint other
    grind
  · simp only [hlookup]
    have := hc.sending slot other
    grind
  · rw [hlookup] at h
    have := hc.rendezvous slot e receiver deadline
    have := hc.rendezvous index endpoint receiver deadline
    grind

/-- An endpoint may forget its active pair and the calls of a dying task. -/
theorem IpcInv.forget {new : Endpoint} (hc : p.IpcInv)
    (found : p.endpoints[index]? = some endpoint)
    (hdying : ∀ tid, p.dying = some tid → ∃ code, p.state? tid = some (.zombie code))
    (hpaired : new.activeCaller.isSome = new.activeServer.isSome)
    (hactive : ∀ caller, new.activeCaller = some caller → endpoint.activeCaller = some caller)
    (hserved : ∀ server, new.activeServer = some server → endpoint.activeServer = some server)
    (hpending : new.pendingCallers.Sublist endpoint.pendingCallers)
    (hkept : ∀ caller ∈ endpoint.pendingCallers.map Prod.fst,
      caller ∈ new.pendingCallers.map Prod.fst ∨ p.dying = some caller) :
    (p.setEndpoint index new).IpcInv := by
  have hlookup := getElem?_setEndpoint found new
  refine ⟨fun slot e h => ?_, fun slot e other h => ?_, fun slot e server h => ?_,
    fun slot e h => ?_, fun slot e other h => ?_, fun slot other h => ?_,
    fun slot e receiver deadline h => ?_⟩
  · rw [hlookup] at h
    have := hc.paired slot e
    grind
  · rw [hlookup] at h
    have := hc.active slot e other
    have := hc.active index endpoint other found
    grind
  · rw [hlookup] at h
    have := hc.served slot e server
    have := hc.served index endpoint server found
    rw [live_iff] at *
    grind
  · rw [hlookup] at h
    have := hc.distinct slot e
    have := (hc.distinct index endpoint found).sublist (hpending.map Prod.fst)
    grind
  · rw [hlookup] at h
    have := hc.pending slot e other
    have := hc.pending index endpoint other found
    have := (hpending.map Prod.fst).subset (a := other)
    grind
  · simp only [hlookup]
    have hsending := hc.sending slot other h
    have hnot : p.dying ≠ some other := fun hdead => by
      obtain ⟨code, hzombie⟩ := hdying other hdead
      rw [state?_setEndpoint, hzombie] at h
      cases h
    have := hkept other
    grind
  · rw [hlookup] at h
    have := hc.rendezvous slot e receiver deadline
    have := hc.rendezvous index endpoint receiver deadline found
    have hnil : endpoint.pendingCallers = [] → new.pendingCallers = [] := fun hempty =>
      List.sublist_nil.1 (hempty ▸ hpending)
    grind

/-- A caller that no endpoint waits for any more wakes up. -/
theorem IpcInv.wakeCaller (hc : p.IpcInv) (tid : Nat)
    (waiting : p.state? tid = some (.blockedCall index))
    (hgone : ∀ (slot : Nat) (e : Endpoint), p.endpoints[slot]? = some e →
      e.activeCaller ≠ some tid) : (p.wake tid).IpcInv where
  paired := hc.paired
  active := fun slot e caller hfound hactive => by
    have := hc.active slot e caller hfound hactive
    have := hgone slot e hfound
    grind
  served := fun slot e server hfound hserver =>
    (hc.served slot e server hfound hserver).imp_left (live_setState rfl)
  distinct := hc.distinct
  pending := fun slot e caller hfound hpending => by
    have := hc.pending slot e caller hfound hpending
    grind
  sending := fun slot caller hstate => hc.sending slot caller (by grind)
  rendezvous := fun slot e receiver deadline hfound hstate =>
    hc.rendezvous slot e receiver deadline hfound (by grind)

/-- A running task starts to wait for calls on an idle endpoint. -/
theorem IpcInv.parkReceiver {deadline : Nat} (hc : p.IpcInv)
    (hrun : p.state? tid = some .running) (found : p.endpoints[index]? = some endpoint)
    (empty : endpoint.pendingCallers = []) :
    (p.park tid (.blockedRecv index deadline)).IpcInv where
  paired := hc.paired
  active := fun slot e caller hfound hactive => by
    have := hc.active slot e caller hfound hactive
    grind
  served := fun slot e server hfound hserver =>
    (hc.served slot e server hfound hserver).imp_left (live_setState rfl)
  distinct := hc.distinct
  pending := fun slot e caller hfound hpending => by
    have := hc.pending slot e caller hfound hpending
    grind
  sending := fun slot caller hstate => hc.sending slot caller (by grind)
  rendezvous := fun slot e receiver deadline hfound hstate => by
    have := hc.rendezvous slot e receiver deadline hfound
    grind

/-! ## Termination -/

/-- The endpoints may go on mentioning a task that begins to die. -/
theorem IpcInv.died {code : Nat} (hc : p.IpcInv) (htree : p.TreeInv)
    (found : (p.task tid).isSome) (calm : p.dying = none) : (p.died tid code).IpcInv where
  paired := hc.paired
  active := fun slot e caller hfound hactive => by
    have := hc.active slot e caller hfound hactive
    rw [state?_died_iff htree found rfl]
    grind
  served := fun slot e server hfound hserver => by
    have := hc.served slot e server hfound hserver
    by_cases h : server = tid
    · simp [h]
    · have := state?_died_ne p code h
      rw [live_iff] at *
      grind
  distinct := hc.distinct
  pending := fun slot e caller hfound hpending => by
    have := hc.pending slot e caller hfound hpending
    rw [state?_died_iff htree found rfl]
    grind
  sending := fun slot caller hstate =>
    hc.sending slot caller ((state?_died_iff htree found rfl).1 hstate).2
  rendezvous := fun slot e receiver deadline hfound hstate =>
    hc.rendezvous slot e receiver deadline hfound ((state?_died_iff htree found rfl).1 hstate).2

/-- Once a task is unwound, no endpoint depends on its being torn down. -/
theorem IpcInv.finish (hc : p.IpcInv) (dying : p.dying = some tid) (unwound : p.Unwound tid) :
    ({ p with dying := none } : Proc).IpcInv := by
  have hgone : ∀ (slot : Nat) (e : Endpoint) (other : Nat), p.endpoints[slot]? = some e →
      p.dying = some other → other ∉ e.pendingCallers.map Prod.fst ∧
        e.activeCaller ≠ some other ∧ e.activeServer ≠ some other := by
    intro slot e other hfound hother
    obtain rfl : tid = other := Option.some.inj (dying.symm.trans hother)
    obtain ⟨hpending, hactive⟩ := unwound e (List.mem_of_getElem? hfound)
    exact ⟨by simpa using fun msg hmem => hpending (tid, msg) hmem rfl, hactive⟩
  refine ⟨hc.paired, fun slot e caller hfound hactive => .inl ?_,
    fun slot e server hfound hserver => .inl ?_, hc.distinct,
    fun slot e caller hfound hpending => .inl ?_, hc.sending, hc.rendezvous⟩
  · exact (hc.active slot e caller hfound hactive).resolve_right fun h =>
      (hgone slot e caller hfound h).2.1 hactive
  · exact (hc.served slot e server hfound hserver).resolve_right fun h =>
      (hgone slot e server hfound h).2.2 hserver
  · exact (hc.pending slot e caller hfound hpending).resolve_right fun h =>
      (hgone slot e caller hfound h).1 hpending

/-- A dead task that no endpoint depends on can be dropped. -/
theorem IpcInv.remove (hc : p.IpcInv) (tid : Nat) (hdead : p.state? tid = some state)
    (hzombie : state.isZombie = true) : (p.remove tid).IpcInv where
  paired := hc.paired
  active := fun slot e caller hfound hactive => by
    have := hc.active slot e caller hfound hactive
    grind [TaskState.isZombie]
  served := fun slot e server hfound hserver => by
    have := hc.served slot e server hfound hserver
    rw [live_iff] at *
    grind
  distinct := hc.distinct
  pending := fun slot e caller hfound hpending => by
    have := hc.pending slot e caller hfound hpending
    grind [TaskState.isZombie]
  sending := fun slot caller hstate => hc.sending slot caller (by grind)
  rendezvous := fun slot e receiver deadline hfound hstate =>
    hc.rendezvous slot e receiver deadline hfound (by grind)

/-- A new task has no part in any transaction yet. -/
theorem IpcInv.enter {view : TaskView} (hc : p.IpcInv) (ht : p.TableInv)
    (fresh : view.state = .ready) : (p.enter view).IpcInv := by
  have hnew : p.state? p.nextTid = none := state?_eq_none.2 ht.fresh
  refine ⟨hc.paired, fun slot e caller hfound hactive => ?_,
    fun slot e server hfound hserver => ?_, hc.distinct,
    fun slot e caller hfound hpending => ?_, fun slot caller hstate => ?_,
    fun slot e receiver deadline hfound hstate => ?_⟩
  · have := hc.active slot e caller hfound hactive
    rw [state?_enter]
    grind
  · have := hc.served slot e server hfound hserver
    rw [live_iff] at *
    simp only [state?_enter]
    grind
  · have := hc.pending slot e caller hfound hpending
    rw [state?_enter]
    grind
  · rw [state?_enter] at hstate
    exact hc.sending slot caller (by grind)
  · rw [state?_enter] at hstate
    exact hc.rendezvous slot e receiver deadline hfound (by grind)

end Proc

end Redoubt.Kernel
