import Redoubt.Foundation.Mailbox
import Redoubt.Kernel.ProcessStep

/-!
# The history of an endpoint

The queue of every endpoint agrees with its history of calls, deliveries and
terminations, so deliveries happen in the order of issue.  A call that waits is
the last thing its caller did, and the reply slot names a caller whose message
was the last one its server received.
-/

namespace Redoubt.Kernel

open Redoubt.Foundation

/-- The five message words, in the registers where caller and receiver have them. -/
def TrapFrame.words (frame : TrapFrame) : List Nat :=
  [frame.rsi, frame.rdx, frame.r10, frame.r8, frame.r9]

def Message.words (msg : Message) : List Nat := [msg.m0, msg.m1, msg.m2, msg.m3, msg.m4]

@[simp]
theorem words_messageOf (frame : TrapFrame) : (messageOf (argsOf frame)).words = frame.words := rfl

@[simp]
theorem words_deliverFrame (caller : Nat) (msg : Message) (frame : TrapFrame) :
    (deliverFrame caller msg frame).words = msg.words := rfl

@[simp]
theorem rdi_deliverFrame (caller : Nat) (msg : Message) (frame : TrapFrame) :
    (deliverFrame caller msg frame).rdi = caller := rfl

/-- An event as the mailbox of an endpoint sees it: a call is posted with the
words of the caller, taken with the caller and the words that the receiver
finds in its registers, and withdrawn when its caller terminates. -/
def Event.mark (index : Nat) : Event → Option (Mailbox.Mark Nat (List Nat))
  | .callIssued endpoint caller frame =>
      if endpoint = index then some (.post caller frame.words) else none
  | .callDelivered endpoint _ frame =>
      if endpoint = index then some (.take frame.rdi frame.words) else none
  | .terminated tid _ => some (.withdraw tid)
  | _ => none

/-- The history of an endpoint. -/
def endpointHistory (index : Nat) (trace : List Event) : List (Mailbox.Mark Nat (List Nat)) :=
  trace.filterMap (Event.mark index)

/-- An event of this task's calls: it issues one, or one is answered or fails. -/
def Event.ConcernsCallsOf (caller : Nat) : Event → Prop
  | .callIssued _ tid _ => tid = caller
  | .callReplied _ _ tid _ => tid = caller
  | .peerDied _ tid => tid = caller
  | _ => False

/-- The call of this task on this endpoint is over. -/
def Event.Settles (index caller : Nat) : Event → Prop
  | .callReplied endpoint _ tid _ => endpoint = index ∧ tid = caller
  | .peerDied endpoint tid => endpoint = index ∧ tid = caller
  | _ => False

theorem Event.Settles.concerns {index caller : Nat} {event : Event}
    (h : event.Settles index caller) : event.ConcernsCallsOf caller := by
  cases event with
  | callReplied => exact h.2
  | peerDied => exact h.2
  | _ => exact h.elim

/-- The last thing that happened to the calls of this task is that it issued
one on this endpoint, with these words. -/
def OpenCall (trace : List Event) (index caller : Nat) (words : List Nat) : Prop :=
  ∃ before frame later, trace = before ++ .callIssued index caller frame :: later ∧
    frame.words = words ∧ ∀ event ∈ later, ¬ event.ConcernsCallsOf caller

/-- The open call of this task was delivered to this server, with its words, and
the server has received nothing else on the endpoint since. -/
def ServedCall (trace : List Event) (index server caller : Nat) : Prop :=
  ∃ before frame between seen later,
    trace = before ++ .callIssued index caller frame ::
      (between ++ .callDelivered index server seen :: later) ∧
    seen.rdi = caller ∧ seen.words = frame.words ∧
    (∀ event ∈ between ++ later, ¬ event.ConcernsCallsOf caller) ∧
    ∀ event ∈ later, ∀ frame, event ≠ .callDelivered index server frame

section Histories

variable {trace events : List Event} {index server caller : Nat} {words : List Nat}

theorem OpenCall.append (h : OpenCall trace index caller words)
    (hquiet : ∀ event ∈ events, ¬ event.ConcernsCallsOf caller) :
    OpenCall (trace ++ events) index caller words := by
  obtain ⟨before, frame, later, rfl, hwords, hlater⟩ := h
  refine ⟨before, frame, later ++ events, by simp, hwords, fun event hmem => ?_⟩
  rcases List.mem_append.1 hmem with hmem | hmem
  · exact hlater event hmem
  · exact hquiet event hmem

theorem OpenCall.issued (trace : List Event) (index caller : Nat) (frame : TrapFrame) :
    OpenCall (trace ++ [.callIssued index caller frame]) index caller frame.words :=
  ⟨trace, frame, [], rfl, rfl, nofun⟩

/-- The server receives the open call. -/
theorem OpenCall.delivered (h : OpenCall trace index caller words) (server : Nat)
    (seen : TrapFrame) (hcaller : seen.rdi = caller) (hwords : seen.words = words) :
    ServedCall (trace ++ [.callDelivered index server seen]) index server caller := by
  obtain ⟨before, frame, later, rfl, rfl, hlater⟩ := h
  refine ⟨before, frame, later, seen, [], by simp, hcaller, hwords, by simpa using hlater, nofun⟩

theorem ServedCall.append (h : ServedCall trace index server caller)
    (hquiet : ∀ event ∈ events, ¬ event.ConcernsCallsOf caller)
    (hidle : ∀ event ∈ events, ∀ frame, event ≠ .callDelivered index server frame) :
    ServedCall (trace ++ events) index server caller := by
  obtain ⟨before, frame, between, seen, later, rfl, hcaller, hwords, hconcerns, hlater⟩ := h
  refine ⟨before, frame, between, seen, later ++ events, by simp, hcaller, hwords, ?_, ?_⟩
  · intro event hmem
    rw [← List.append_assoc] at hmem
    rcases List.mem_append.1 hmem with hmem | hmem
    · exact hconcerns event hmem
    · exact hquiet event hmem
  · intro event hmem
    rcases List.mem_append.1 hmem with hmem | hmem
    · exact hlater event hmem
    · exact hidle event hmem

theorem ServedCall.openCall (h : ServedCall trace index server caller) :
    ∃ words, OpenCall trace index caller words := by
  obtain ⟨before, frame, between, seen, later, rfl, -, -, hconcerns, -⟩ := h
  refine ⟨frame.words, before, frame, between ++ .callDelivered index server seen :: later, rfl,
    rfl, fun event hmem => ?_⟩
  rcases List.mem_append.1 hmem with hmem | hmem
  · exact hconcerns event (List.mem_append_left _ hmem)
  · rcases List.mem_cons.1 hmem with rfl | hmem
    · exact id
    · exact hconcerns event (List.mem_append_right _ hmem)

/-- Every answer and every failure ends a call that was open until then. -/
def SettlesOpenCalls (trace : List Event) : Prop :=
  ∀ before event, before ++ [event] <+: trace → ∀ index caller, event.Settles index caller →
    ∃ words, OpenCall before index caller words

theorem SettlesOpenCalls.append (h : SettlesOpenCalls trace) (event : Event)
    (hevent : ∀ index caller, event.Settles index caller →
      ∃ words, OpenCall trace index caller words) : SettlesOpenCalls (trace ++ [event]) := by
  intro before last hsplit index caller hsettles
  rcases List.prefix_concat_iff.1 hsplit with heq | hold
  · obtain ⟨rfl, hlast⟩ := List.append_inj' heq rfl
    obtain rfl : last = event := List.singleton_inj.1 hlast
    exact hevent index caller hsettles
  · exact h before last hold index caller hsettles

theorem SettlesOpenCalls.append_of_silent (h : SettlesOpenCalls trace)
    (hsilent : ∀ event ∈ events, ∀ caller, ¬ event.ConcernsCallsOf caller) :
    SettlesOpenCalls (trace ++ events) := by
  induction events generalizing trace with
  | nil => simpa using h
  | cons event _ ih =>
      have hfirst : SettlesOpenCalls (trace ++ [event]) := by
        refine h.append event fun index caller hsettles => ?_
        exact absurd hsettles.concerns (hsilent event List.mem_cons_self caller)
      have hall := ih hfirst fun other hmem => hsilent other (List.mem_cons_of_mem _ hmem)
      rwa [List.append_assoc] at hall

end Histories

/-- Inside a call: waiting for a receiver or for the answer. -/
def TaskState.isCalling : TaskState → Bool
  | .blockedSend _ => true
  | .blockedCall _ => true
  | _ => false

namespace Proc

/-! ## The invariants -/

/-- The calls that wait on an endpoint, without those of a task whose
termination is under way. -/
def waitingCalls (p : Proc) (endpoint : Endpoint) : List (Nat × List Nat) :=
  (endpoint.pendingCallers.filter fun call => p.dying ≠ some call.1).map
    fun call => (call.1, call.2.words)

/-- Queues agree with histories. -/
def FifoInv (p : Proc) : Prop :=
  ∀ (index : Nat) (endpoint : Endpoint), p.endpoints[index]? = some endpoint →
    Mailbox.Holds (endpointHistory index p.trace) (p.waitingCalls endpoint)

/-- A queued call is the open call of its caller. -/
def PostedInv (p : Proc) : Prop :=
  ∀ (index : Nat) (endpoint : Endpoint) caller msg, p.endpoints[index]? = some endpoint →
    (caller, msg) ∈ endpoint.pendingCallers → p.state? caller = some (.blockedSend index) →
    OpenCall p.trace index caller msg.words

/-- A reply slot names a call that its server received last. -/
def ServedInv (p : Proc) : Prop :=
  ∀ (index : Nat) (endpoint : Endpoint) caller server, p.endpoints[index]? = some endpoint →
    endpoint.activeCaller = some caller → endpoint.activeServer = some server →
    p.state? caller = some (.blockedCall index) → ServedCall p.trace index server caller

structure HistoryInv (p : Proc) : Prop where
  fifo : p.FifoInv
  posted : p.PostedInv
  served : p.ServedInv
  settles : SettlesOpenCalls p.trace

section Preservation

variable {p q : Proc} {kind : StepKind} {tid index : Nat} {endpoint : Endpoint}
  {events : List Event}

/-- Nobody is inside a call who was not there before. -/
def NoNewCalls (p q : Proc) : Prop :=
  ∀ caller state, state.isCalling = true → q.state? caller = some state →
    p.state? caller = some state

theorem NoNewCalls.of_task (htask : q.task = p.task) : NoNewCalls p q := by
  intro caller state _ h
  rwa [state?, htask] at h

theorem NoNewCalls.setState {new : TaskState} (htask : q.task = (p.setState tid new).task)
    (hnew : new.isCalling = false) : NoNewCalls p q := by
  intro caller state hcalling h
  rw [state?, htask] at h
  rcases state?_setState_cases h with ⟨-, rfl⟩ | ⟨-, hbefore⟩
  · cases hnew.symm.trans hcalling
  · exact hbefore

theorem NoNewCalls.trans {r : Proc} (hpq : NoNewCalls p q) (hqr : NoNewCalls q r) :
    NoNewCalls p r :=
  fun caller state hcalling h => hpq caller state hcalling (hqr caller state hcalling h)

theorem NoNewCalls.remove (htask : q.task = (p.remove tid).task) : NoNewCalls p q := by
  intro caller state _ h
  rw [state?, htask] at h
  change (p.remove tid).state? caller = some state at h
  grind

theorem FifoInv.of_queues (h : p.FifoInv)
    (hqueue : ∀ (index : Nat) (endpoint : Endpoint), q.endpoints[index]? = some endpoint →
      ∃ old, p.endpoints[index]? = some old ∧ q.waitingCalls endpoint = p.waitingCalls old)
    (htrace : q.trace = p.trace ++ events)
    (hsilent : ∀ event ∈ events, ∀ index, event.mark index = none) : q.FifoInv := by
  intro index endpoint hfound
  obtain ⟨old, hold, hsame⟩ := hqueue index endpoint hfound
  have hnone : events.filterMap (Event.mark index) = [] :=
    List.filterMap_eq_nil_iff.2 fun event hmem => hsilent event hmem index
  rw [htrace, endpointHistory, List.filterMap_append, hnone, List.append_nil, hsame]
  exact h index old hold

theorem PostedInv.of_queues (h : p.PostedInv)
    (hqueue : ∀ (index : Nat) (endpoint : Endpoint) call, q.endpoints[index]? = some endpoint →
      call ∈ endpoint.pendingCallers →
      ∃ old, p.endpoints[index]? = some old ∧ call ∈ old.pendingCallers)
    (hcalls : ∀ caller index, q.state? caller = some (.blockedSend index) →
      p.state? caller = some (.blockedSend index) ∧
        ∀ event ∈ events, ¬ event.ConcernsCallsOf caller)
    (htrace : q.trace = p.trace ++ events) : q.PostedInv := by
  intro index endpoint caller msg hfound hmem hstate
  obtain ⟨old, hold, hmem⟩ := hqueue index endpoint (caller, msg) hfound hmem
  obtain ⟨hbefore, hquiet⟩ := hcalls caller index hstate
  rw [htrace]
  exact (h index old caller msg hold hmem hbefore).append hquiet

theorem ServedInv.of_slots (h : p.ServedInv)
    (hslot : ∀ (index : Nat) (endpoint : Endpoint) caller server,
      q.endpoints[index]? = some endpoint → endpoint.activeCaller = some caller →
      endpoint.activeServer = some server → q.state? caller = some (.blockedCall index) →
      ∃ old, p.endpoints[index]? = some old ∧ old.activeCaller = some caller ∧
        old.activeServer = some server ∧ p.state? caller = some (.blockedCall index) ∧
        (∀ event ∈ events, ¬ event.ConcernsCallsOf caller) ∧
        ∀ event ∈ events, ∀ frame, event ≠ .callDelivered index server frame)
    (htrace : q.trace = p.trace ++ events) : q.ServedInv := by
  intro index endpoint caller server hfound hactive hserver hstate
  obtain ⟨old, hold, hoActive, hoServer, hbefore, hquiet, hidle⟩ :=
    hslot index endpoint caller server hfound hactive hserver hstate
  rw [htrace]
  exact (h index old caller server hold hoActive hoServer hbefore).append hquiet hidle

theorem endpointHistory_append (slot : Nat) (trace events : List Event) :
    endpointHistory slot (trace ++ events) =
      endpointHistory slot trace ++ events.filterMap (Event.mark slot) :=
  List.filterMap_append

/-- A step that changes one endpoint and records events of that endpoint only. -/
theorem FifoInv.setEndpoint {new : Endpoint} (h : p.FifoInv)
    (found : p.endpoints[index]? = some endpoint)
    (hset : q.endpoints = (p.setEndpoint index new).endpoints) (hdying : q.dying = p.dying)
    (htrace : q.trace = p.trace ++ events)
    (hself : Mailbox.Holds (endpointHistory index p.trace ++ events.filterMap (Event.mark index))
      (q.waitingCalls new))
    (hother : ∀ slot, slot ≠ index → events.filterMap (Event.mark slot) = []) : q.FifoInv := by
  intro slot e hfound
  rw [hset, getElem?_setEndpoint found] at hfound
  rw [htrace, endpointHistory_append]
  by_cases hslot : slot = index
  · subst hslot
    obtain rfl : new = e := by simpa using hfound
    exact hself
  · rw [hother slot hslot, List.append_nil]
    simp only [hslot, if_false] at hfound
    have hold := h slot e hfound
    rwa [waitingCalls, ← hdying] at hold

/-- A step that changes one endpoint's queue. -/
theorem PostedInv.setEndpoint {new : Endpoint} (h : p.PostedInv)
    (found : p.endpoints[index]? = some endpoint)
    (hset : q.endpoints = (p.setEndpoint index new).endpoints)
    (htrace : q.trace = p.trace ++ events)
    (hself : ∀ caller msg, (caller, msg) ∈ new.pendingCallers →
      q.state? caller = some (.blockedSend index) →
      (caller, msg) ∈ endpoint.pendingCallers ∧ p.state? caller = some (.blockedSend index) ∧
        (∀ event ∈ events, ¬ event.ConcernsCallsOf caller) ∨
      OpenCall q.trace index caller msg.words)
    (hcalls : ∀ slot caller, slot ≠ index → q.state? caller = some (.blockedSend slot) →
      p.state? caller = some (.blockedSend slot) ∧
        ∀ event ∈ events, ¬ event.ConcernsCallsOf caller) : q.PostedInv := by
  intro slot e caller msg hfound hmem hstate
  rw [hset, getElem?_setEndpoint found] at hfound
  by_cases hslot : slot = index
  · subst hslot
    obtain rfl : new = e := by simpa using hfound
    rcases hself caller msg hmem hstate with ⟨hold, hbefore, hquiet⟩ | hopen
    · rw [htrace]
      exact (h slot endpoint caller msg found hold hbefore).append hquiet
    · exact hopen
  · simp only [hslot, if_false] at hfound
    obtain ⟨hbefore, hquiet⟩ := hcalls slot caller hslot hstate
    rw [htrace]
    exact (h slot e caller msg hfound hmem hbefore).append hquiet

/-- A step that changes one endpoint's reply slot. -/
theorem ServedInv.setEndpoint {new : Endpoint} (h : p.ServedInv)
    (found : p.endpoints[index]? = some endpoint)
    (hset : q.endpoints = (p.setEndpoint index new).endpoints)
    (htrace : q.trace = p.trace ++ events)
    (hself : ∀ caller server, new.activeCaller = some caller → new.activeServer = some server →
      q.state? caller = some (.blockedCall index) → ServedCall q.trace index server caller)
    (hcalls : ∀ slot caller, slot ≠ index → q.state? caller = some (.blockedCall slot) →
      p.state? caller = some (.blockedCall slot) ∧
        ∀ event ∈ events, ¬ event.ConcernsCallsOf caller)
    (hidle : ∀ slot, slot ≠ index → ∀ event ∈ events, ∀ server frame,
      event ≠ .callDelivered slot server frame) : q.ServedInv := by
  intro slot e caller server hfound hactive hserver hstate
  rw [hset, getElem?_setEndpoint found] at hfound
  by_cases hslot : slot = index
  · subst hslot
    obtain rfl : new = e := by simpa using hfound
    exact hself caller server hactive hserver hstate
  · simp only [hslot, if_false] at hfound
    obtain ⟨hbefore, hquiet⟩ := hcalls slot caller hslot hstate
    rw [htrace]
    exact (h slot e caller server hfound hactive hserver hbefore).append hquiet
      fun event hmem frame => hidle slot hslot event hmem server frame

/-- A step that touches no endpoint, starts no call and records nothing about
calls keeps the history invariant. -/
theorem HistoryInv.plain (h : p.HistoryInv) (hcalls : NoNewCalls p q)
    (hendpoints : q.endpoints = p.endpoints) (hdying : q.dying = p.dying)
    (htrace : q.trace = p.trace ++ events)
    (hsilent : ∀ event ∈ events, (∀ index, event.mark index = none) ∧
      ∀ caller, ¬ event.ConcernsCallsOf caller) : q.HistoryInv where
  fifo := by
    refine h.fifo.of_queues (fun index endpoint hfound => ?_) htrace fun event hmem =>
      (hsilent event hmem).1
    exact ⟨endpoint, hendpoints ▸ hfound, by simp only [waitingCalls, hdying]⟩
  posted := by
    refine h.posted.of_queues (fun index endpoint call hfound hmem => ?_) ?_ htrace
    · exact ⟨endpoint, hendpoints ▸ hfound, hmem⟩
    · exact fun caller index hstate => ⟨hcalls caller _ rfl hstate,
        fun event hmem => (hsilent event hmem).2 caller⟩
  served := by
    refine h.served.of_slots (fun index endpoint caller server hfound hactive hserver hstate => ?_)
      htrace
    refine ⟨endpoint, hendpoints ▸ hfound, hactive, hserver, hcalls caller _ rfl hstate,
      fun event hmem => (hsilent event hmem).2 caller, fun event hmem frame heq => ?_⟩
    have := (hsilent event hmem).1 index
    simp [heq, Event.mark] at this
  settles := by
    rw [htrace]
    exact h.settles.append_of_silent fun event hmem => (hsilent event hmem).2

theorem Inv.not_dying_of_running (hinv : p.Inv) (hrun : p.state? tid = some .running) :
    p.dying ≠ some tid := by
  intro hdying
  obtain ⟨code, hzombie⟩ := hinv.zombie_of_dying hdying
  cases hrun.symm.trans hzombie

/-- The current task starts a call; everybody else's calls were there before. -/
theorem NoNewCalls.park {new : TaskState} {caller : Nat} {state : TaskState}
    (hcalls : NoNewCalls p q) (hcalling : state.isCalling = true) (hne : caller ≠ tid)
    (hafter : (q.park tid new).state? caller = some state) : p.state? caller = some state :=
  hcalls caller state hcalling (by simpa [state?_park, hne] using hafter)

theorem HistoryInv.callDirect {receiver deadline : Nat} {frame receiverFrame : TrapFrame}
    (h : p.HistoryInv) (hinv : p.Inv) (onCpu : p.current = some tid)
    (found : p.endpoints[index]? = some endpoint)
    (parked : p.state? receiver = some (.blockedRecv index deadline)) :
    ((((p.wake receiver).park tid (.blockedCall index)).setEndpoint index
      { endpoint with activeCaller := some tid, activeServer := some receiver }).emit
      [.callIssued index tid frame, .callDelivered index receiver
        (deliverFrame tid (messageOf (argsOf frame)) receiverFrame)]).HistoryInv := by
  have hrun := hinv.running_of_current onCpu
  have hempty := hinv.ipc.rendezvous index endpoint receiver deadline found parked
  have hwoken : NoNewCalls p (p.wake receiver) := .setState rfl rfl
  have hself : ((p.wake receiver).park tid (.blockedCall index)).state? tid =
      some (.blockedCall index) := by grind
  have hquiet : ∀ caller, caller ≠ tid → ∀ event ∈ [Event.callIssued index tid frame,
      .callDelivered index receiver (deliverFrame tid (messageOf (argsOf frame)) receiverFrame)],
      ¬ event.ConcernsCallsOf caller := fun caller hne => by
    simp [Event.ConcernsCallsOf, Ne.symm hne]
  refine ⟨?_, ?_, ?_, ?_⟩
  · refine h.fifo.setEndpoint found rfl rfl rfl ?_ fun slot hslot => ?_
    · have hqueue := h.fifo index endpoint found
      simp only [waitingCalls, hempty, List.filter_nil, List.map_nil] at hqueue
      have htaken := (hqueue.post tid frame.words).take (by simp)
      simpa [waitingCalls, hempty, Event.mark] using htaken
    · simp [Event.mark, Ne.symm hslot]
  · refine h.posted.setEndpoint found rfl rfl ?_ fun slot caller _ hafter => ?_
    · intro caller msg hmem
      simp [hempty] at hmem
    · have hne : caller ≠ tid := by
        rintro rfl
        cases hself.symm.trans hafter
      exact ⟨hwoken.park rfl hne hafter, hquiet caller hne⟩
  · refine h.served.setEndpoint found rfl rfl ?_ (fun slot caller hslot hafter => ?_)
      fun slot hslot => by simp [Ne.symm hslot]
    · rintro caller server hactive hserver -
      obtain rfl : tid = caller := by simpa using hactive
      obtain rfl : receiver = server := by simpa using hserver
      have hserved := (OpenCall.issued p.trace index tid frame).delivered receiver
        (deliverFrame tid (messageOf (argsOf frame)) receiverFrame) rfl rfl
      rwa [List.append_assoc] at hserved
    · have hne : caller ≠ tid := by
        rintro rfl
        exact hslot (TaskState.blockedCall.inj (Option.some.inj (hafter.symm.trans hself)))
      exact ⟨hwoken.park rfl hne hafter, hquiet caller hne⟩
  · have hissued := h.settles.append (.callIssued index tid frame) nofun
    have hdelivered := hissued.append (.callDelivered index receiver
      (deliverFrame tid (messageOf (argsOf frame)) receiverFrame)) nofun
    rwa [List.append_assoc] at hdelivered

theorem HistoryInv.callQueue {frame : TrapFrame} (h : p.HistoryInv) (hinv : p.Inv)
    (onCpu : p.current = some tid) (found : p.endpoints[index]? = some endpoint) :
    (((p.park tid (.blockedSend index)).setEndpoint index
      { endpoint with
        pendingCallers := endpoint.pendingCallers ++ [(tid, messageOf (argsOf frame))] }).emit
      [.callIssued index tid frame]).HistoryInv := by
  have hrun := hinv.running_of_current onCpu
  have hdying := hinv.not_dying_of_running hrun
  have hsame : NoNewCalls p p := .of_task rfl
  have hself : (p.park tid (.blockedSend index)).state? tid = some (.blockedSend index) := by grind
  have hquiet : ∀ caller, caller ≠ tid → ∀ event ∈ [Event.callIssued index tid frame],
      ¬ event.ConcernsCallsOf caller := fun caller hne => by
    simp [Event.ConcernsCallsOf, Ne.symm hne]
  refine ⟨?_, ?_, ?_, ?_⟩
  · refine h.fifo.setEndpoint found rfl rfl rfl ?_ fun slot hslot => ?_
    · have hposted := (h.fifo index endpoint found).post tid frame.words
      simpa [waitingCalls, Event.mark, hdying] using hposted
    · simp [Event.mark, Ne.symm hslot]
  · refine h.posted.setEndpoint found rfl rfl (fun caller msg hmem hafter => ?_)
      fun slot caller hslot hafter => ?_
    · rcases List.mem_append.1 hmem with hold | hnew
      · -- the current task is not queued yet
        have hne : caller ≠ tid := by
          rintro rfl
          have := hinv.ipc.pending index endpoint caller found (List.mem_map_of_mem hold)
          simp_all
        exact .inl ⟨hold, hsame.park rfl hne hafter, hquiet caller hne⟩
      · obtain ⟨rfl, rfl⟩ : caller = tid ∧ msg = messageOf (argsOf frame) := by simpa using hnew
        exact .inr (OpenCall.issued p.trace index caller frame)
    · have hne : caller ≠ tid := by
        rintro rfl
        exact hslot (TaskState.blockedSend.inj (Option.some.inj (hafter.symm.trans hself)))
      exact ⟨hsame.park rfl hne hafter, hquiet caller hne⟩
  · refine h.served.of_slots (fun slot e caller server hfound hactive hserver hafter => ?_) rfl
    have hne : caller ≠ tid := by
      rintro rfl
      cases hself.symm.trans hafter
    have hold : ∃ old, p.endpoints[slot]? = some old ∧ old.activeCaller = some caller ∧
        old.activeServer = some server := by
      rw [emit_endpoints, getElem?_setEndpoint (p := p.park tid (.blockedSend index)) found] at hfound
      grind
    obtain ⟨old, hold, hactive, hserver⟩ := hold
    exact ⟨old, hold, hactive, hserver, hsame.park rfl hne hafter, hquiet caller hne, by simp⟩
  · exact h.settles.append _ nofun

theorem HistoryInv.recvQueue {caller : Nat} {msg : Message} {rest : List (Nat × Message)}
    {frame : TrapFrame} (h : p.HistoryInv) (hinv : p.Inv) (calm : p.dying = none)
    (found : p.endpoints[index]? = some endpoint)
    (queued : endpoint.pendingCallers = (caller, msg) :: rest) :
    (((p.setState caller (.blockedCall index)).setEndpoint index
      { pendingCallers := rest, activeCaller := some caller, activeServer := some tid }).emit
      [.callDelivered index tid (deliverFrame caller msg frame)]).HistoryInv := by
  have hdistinct := hinv.ipc.distinct index endpoint found
  rw [queued, List.map_cons, List.nodup_cons] at hdistinct
  have hwaits : p.state? caller = some (.blockedSend index) :=
    (hinv.ipc.pending index endpoint caller found (by simp [queued])).resolve_right (by simp [calm])
  have hself : (p.setState caller (.blockedCall index)).state? caller =
      some (.blockedCall index) := by grind
  have hsilent : ∀ other, ∀ event ∈ [Event.callDelivered index tid (deliverFrame caller msg frame)],
      ¬ event.ConcernsCallsOf other := by simp [Event.ConcernsCallsOf]
  have hbefore : ∀ other state, other ≠ caller →
      (p.setState caller (.blockedCall index)).state? other = some state →
      p.state? other = some state := by
    intro other state hne hafter
    simpa [state?_setState, hne] using hafter
  refine ⟨?_, ?_, ?_, ?_⟩
  · refine h.fifo.setEndpoint found rfl rfl rfl ?_ fun slot hslot => ?_
    · have hqueue := h.fifo index endpoint found
      simp only [waitingCalls, queued, calm, reduceCtorEq, ne_eq, not_false_eq_true, decide_true,
        List.filter_true, List.map_cons] at hqueue
      have htaken := hqueue.take ?_
      · simpa [waitingCalls, Event.mark, calm] using htaken
      · intro other hmem heq
        obtain ⟨call, hcall, rfl⟩ := List.mem_map.1 hmem
        have hqueued : call.1 ∈ rest.map Prod.fst := List.mem_map_of_mem hcall
        rw [show call.1 = caller from heq] at hqueued
        exact hdistinct.1 hqueued
    · simp [Event.mark, Ne.symm hslot]
  · refine h.posted.setEndpoint found rfl rfl (fun other text hmem hafter => .inl ?_)
      fun slot other hslot hafter => ?_
    all_goals
      have hne : other ≠ caller := by
        rintro rfl
        cases hself.symm.trans hafter
    · exact ⟨queued ▸ List.mem_cons_of_mem _ hmem, hbefore other _ hne hafter, hsilent other⟩
    · exact ⟨hbefore other _ hne hafter, hsilent other⟩
  · refine h.served.setEndpoint found rfl rfl ?_ (fun slot other hslot hafter => ?_)
      fun slot hslot => by simp [Ne.symm hslot]
    · rintro other server hactive hserver -
      obtain rfl : caller = other := by simpa using hactive
      obtain rfl : tid = server := by simpa using hserver
      have hopen := h.posted index endpoint caller msg found (by simp [queued]) hwaits
      exact hopen.delivered tid (deliverFrame caller msg frame) rfl rfl
    · have hne : other ≠ caller := by
        rintro rfl
        exact hslot (TaskState.blockedCall.inj (Option.some.inj (hafter.symm.trans hself)))
      exact ⟨hbefore other _ hne hafter, hsilent other⟩
  · exact h.settles.append _ nofun

/-- An endpoint's reply slot is freed and its caller wakes up, with an event
that ends the call. -/
theorem HistoryInv.wakeCaller {caller server : Nat} {new : Endpoint} {event : Event}
    (h : p.HistoryInv) (found : p.endpoints[index]? = some endpoint)
    (active : endpoint.activeCaller = some caller) (server : endpoint.activeServer = some server)
    (waits : p.state? caller = some (.blockedCall index))
    (queue : p.waitingCalls new = p.waitingCalls endpoint)
    (kept : ∀ call ∈ new.pendingCallers, call ∈ endpoint.pendingCallers)
    (freed : new.activeCaller = none) (hmark : ∀ slot, event.mark slot = none)
    (hcaller : ∀ other, event.ConcernsCallsOf other → other = caller)
    (hslot : ∀ slot other, event.Settles slot other → slot = index) :
    (((p.wake caller).setEndpoint index new).emit [event]).HistoryInv := by
  have hwoken : NoNewCalls p (p.wake caller) := .setState rfl rfl
  have hself : (p.wake caller).state? caller = some .ready := by grind
  have hquiet : ∀ other state, state.isCalling = true →
      (p.wake caller).state? other = some state → p.state? other = some state ∧
        ∀ last ∈ [event], ¬ last.ConcernsCallsOf other := by
    intro other state hcalling hafter
    refine ⟨hwoken other state hcalling hafter, fun last hmem hconcerns => ?_⟩
    obtain rfl := List.mem_singleton.1 hmem
    obtain rfl := hcaller other hconcerns
    obtain rfl : .ready = state := Option.some.inj (hself.symm.trans hafter)
    cases hcalling
  refine ⟨?_, ?_, ?_, ?_⟩
  · refine h.fifo.setEndpoint found rfl rfl rfl ?_ fun slot _ => by simp [hmark]
    have hqueue := h.fifo index endpoint found
    rw [← queue] at hqueue
    have hnone : [event].filterMap (Event.mark index) = [] := by simp [hmark]
    rw [hnone, List.append_nil]
    exact hqueue
  · refine h.posted.setEndpoint found rfl rfl (fun other msg hmem hafter => .inl ?_)
      fun slot other _ hafter => hquiet other _ rfl hafter
    exact ⟨kept _ hmem, hquiet other _ rfl hafter⟩
  · refine h.served.setEndpoint found rfl rfl ?_ (fun slot other _ hafter => hquiet other _ rfl hafter)
      fun slot hne last hmem other frame heq => ?_
    · intro other peer hactive
      rw [freed] at hactive
      cases hactive
    · obtain rfl := List.mem_singleton.1 hmem
      have hnone := hmark slot
      simp [heq, Event.mark] at hnone
  · refine h.settles.append event fun slot other hsettles => ?_
    obtain rfl := hslot slot other hsettles
    obtain rfl := hcaller other hsettles.concerns
    exact (h.served slot endpoint other _ found active server waits).openCall

theorem HistoryInv.died {code : Nat} (h : p.HistoryInv) (hinv : p.Inv)
    (found : (p.task tid).isSome) (calm : p.dying = none) : (p.died tid code).HistoryInv := by
  have hstate : ∀ other state, state.isCalling = true →
      (p.died tid code).state? other = some state → p.state? other = some state := by
    intro other state hcalling hafter
    have halive : state.isZombie = false := by cases state <;> first | rfl | cases hcalling
    exact ((state?_died_iff hinv.tree found halive).1 hafter).2
  refine ⟨fun slot e hfound => ?_, ?_, ?_, ?_⟩
  · have hgone := (h.fifo slot e hfound).withdraw tid
    have hqueue : (p.died tid code).waitingCalls e =
        (p.waitingCalls e).filter fun call => call.1 ≠ tid := by
      simp [waitingCalls, calm, List.filter_map, Function.comp_def, eq_comm]
    rw [hqueue, died_trace, endpointHistory_append]
    exact hgone
  · refine h.posted.of_queues (fun slot e call hfound hmem => ⟨e, hfound, hmem⟩)
      (fun caller slot hafter => ⟨hstate caller _ rfl hafter, ?_⟩) rfl
    simp [Event.ConcernsCallsOf]
  · refine h.served.of_slots (fun slot e caller server hfound hactive hserver hafter => ?_) rfl
    exact ⟨e, hfound, hactive, hserver, hstate caller _ rfl hafter,
      by simp [Event.ConcernsCallsOf], by simp⟩
  · exact h.settles.append _ nofun

theorem waitingCalls_abort (dying : p.dying = some tid) :
    p.waitingCalls (endpoint.abort tid) = p.waitingCalls endpoint := by
  simp only [waitingCalls, abort_pendingCallers, List.filter_filter, dying]
  congr 2
  funext call
  simp [eq_comm]

theorem HistoryInv.abortAt (h : p.HistoryInv) (dying : p.dying = some tid)
    (found : p.endpoints[index]? = some endpoint) :
    (p.setEndpoint index (endpoint.abort tid)).HistoryInv := by
  have htrace : (p.setEndpoint index (endpoint.abort tid)).trace = p.trace ++ [] := by simp
  refine ⟨?_, ?_, ?_, h.settles⟩
  · refine h.fifo.setEndpoint found rfl rfl htrace ?_ fun _ _ => rfl
    have hqueue := h.fifo index endpoint found
    rw [← waitingCalls_abort dying] at hqueue
    rw [List.filterMap_nil, List.append_nil]
    exact hqueue
  · refine h.posted.setEndpoint found rfl htrace (fun caller msg hmem hstate => .inl ?_)
      fun slot caller _ hstate => ⟨hstate, nofun⟩
    rw [abort_pendingCallers] at hmem
    exact ⟨(List.mem_filter.1 hmem).1, hstate, nofun⟩
  · refine h.served.setEndpoint found rfl htrace (fun caller server hactive hserver hstate => ?_)
      (fun slot caller _ hstate => ⟨hstate, nofun⟩) nofun
    refine h.served index endpoint caller server found ?_ ?_ hstate
    · grind [Endpoint.abort]
    · grind [Endpoint.abort]

/-- The end of a termination: the task is in no queue any more. -/
theorem HistoryInv.finish (h : p.HistoryInv) (dying : p.dying = some tid)
    (unwound : p.Unwound tid) (hcalls : NoNewCalls p q) (hendpoints : q.endpoints = p.endpoints)
    (hcalm : q.dying = none) (htrace : q.trace = p.trace ++ events)
    (hsilent : ∀ event ∈ events, (∀ index, event.mark index = none) ∧
      ∀ caller, ¬ event.ConcernsCallsOf caller) : q.HistoryInv := by
  have hcalmed : HistoryInv { p with dying := none } := by
    refine ⟨fun slot e hfound => ?_, h.posted, h.served, h.settles⟩
    have hqueue : waitingCalls { p with dying := none } e = p.waitingCalls e := by
      simp only [waitingCalls, dying]
      congr 1
      refine (List.filter_eq_self.2 (by simp)).trans (List.filter_eq_self.2 fun call hmem => ?_).symm
      have := (unwound e (List.mem_of_getElem? hfound)).1 call hmem
      simpa using Ne.symm this
    rw [hqueue]
    exact h.fifo slot e hfound
  exact hcalmed.plain hcalls hendpoints hcalm htrace hsilent

/-- Every step keeps the history invariant. -/
theorem HistoryInv.step (h : p.HistoryInv) (hinv : p.Inv) (step : Step kind p q) :
    q.HistoryInv := by
  have hnone : p.trace = p.trace ++ [] := (List.append_nil _).symm
  cases step with
  | resume => exact h.plain (.setState rfl rfl) rfl rfl hnone nofun
  | forget => exact h.plain (.of_task rfl) rfl rfl hnone nofun
  | preempt => exact h.plain (.setState rfl rfl) rfl rfl hnone nofun
  | parkSleep => exact h.plain (.setState rfl rfl) rfl rfl hnone nofun
  | parkWait => exact h.plain (.setState rfl rfl) rfl rfl hnone nofun
  | parkInput => exact h.plain (.setState rfl rfl) rfl rfl hnone nofun
  | callDirect _ _ _ _ _ _ _ onCpu found parked =>
      exact h.callDirect hinv onCpu found parked
  | callQueue _ _ _ _ onCpu found => exact h.callQueue hinv onCpu found
  | recvQueue _ _ _ _ _ _ _ calm _ found _ queued =>
      exact h.recvQueue hinv calm found queued
  | recvPark => exact h.plain (.setState rfl rfl) rfl rfl hnone nofun
  | recvPoll =>
      exact h.plain (.of_task rfl) rfl rfl rfl (by simp [Event.mark, Event.ConcernsCallsOf])
  | expireRecv =>
      exact h.plain (.setState rfl rfl) rfl rfl rfl (by simp [Event.mark, Event.ConcernsCallsOf])
  | expireSleep => exact h.plain (.setState rfl rfl) rfl rfl hnone nofun
  | reply _ _ _ _ _ _ calm _ found server answered =>
      exact h.wakeCaller found answered server
        (hinv.waiting_of_active found answered (by simp [calm])) rfl (fun _ hmem => hmem) rfl
        (fun _ => rfl) (fun _ => Eq.symm) fun _ _ hsettles => hsettles.1.symm
  | spawn _ fresh =>
      refine h.plain (fun caller state hcalling hafter => ?_) rfl rfl rfl
        (by simp [Event.mark, Event.ConcernsCallsOf])
      rw [state?_enter] at hafter
      split_ifs at hafter
      · rw [fresh] at hafter
        cases hafter
        cases hcalling
      · exact hafter
  | die _ _ found calm => exact h.died hinv found calm
  | abortAt _ _ _ dying found => exact h.abortAt dying found
  | abortWake _ _ _ _ dying found stranded =>
      obtain ⟨active, server, waits⟩ := hinv.waiting_of_stranded dying found stranded
      refine h.wakeCaller found active server waits (waitingCalls_abort dying) (fun call hmem => ?_)
        (by grind [Endpoint.abort]) (fun _ => rfl) (fun _ => Eq.symm)
        fun _ _ hsettles => hsettles.1.symm
      rw [abort_pendingCallers] at hmem
      exact (List.mem_filter.1 hmem).1
  | finishDeliver _ parent _ _ dying unwound =>
      have hwoken : NoNewCalls p (p.wake parent) := .setState rfl rfl
      exact h.finish dying unwound (hwoken.trans (.remove rfl)) rfl rfl rfl
        (by simp [Event.mark, Event.ConcernsCallsOf])
  | finishLinger _ _ _ dying unwound =>
      exact h.finish dying unwound (.of_task rfl) rfl rfl hnone nofun
  | finishOrphan _ _ dying unwound =>
      exact h.finish dying unwound (.remove rfl) rfl rfl hnone nofun
  | collect =>
      exact h.plain (.remove rfl) rfl rfl rfl (by simp [Event.mark, Event.ConcernsCallsOf])
  | serveInput => exact h.plain (.setState rfl rfl) rfl rfl hnone nofun
  | serveStale => exact h.plain (.of_task rfl) rfl rfl hnone nofun
  | derive =>
      exact h.plain (fun caller state _ hafter => by rwa [state?_fillSlot] at hafter) rfl rfl hnone
        nofun
  | transfer =>
      exact h.plain (.of_task rfl) rfl rfl rfl (by simp [Event.mark, Event.ConcernsCallsOf])

/-! ## Reply slots -/

/-- Whoever waits for an answer is in the reply slot of its endpoint. -/
def AnsweredInv (p : Proc) : Prop :=
  ∀ caller index, p.state? caller = some (.blockedCall index) →
    ∃ endpoint, p.endpoints[index]? = some endpoint ∧ endpoint.activeCaller = some caller

theorem AnsweredInv.plain (h : p.AnsweredInv) (hcalls : NoNewCalls p q)
    (hendpoints : q.endpoints = p.endpoints) : q.AnsweredInv := by
  intro caller index hstate
  rw [hendpoints]
  exact h caller index (hcalls caller _ rfl hstate)

/-- A step that changes one endpoint: everybody else who waits for an answer
waited before, and on that endpoint it is in the new reply slot. -/
theorem AnsweredInv.setEndpoint {new : Endpoint} (h : p.AnsweredInv)
    (found : p.endpoints[index]? = some endpoint)
    (hset : q.endpoints = (p.setEndpoint index new).endpoints)
    (hself : ∀ caller, q.state? caller = some (.blockedCall index) → new.activeCaller = some caller)
    (hother : ∀ caller slot, slot ≠ index → q.state? caller = some (.blockedCall slot) →
      p.state? caller = some (.blockedCall slot)) : q.AnsweredInv := by
  intro caller slot hstate
  rw [hset, getElem?_setEndpoint found]
  by_cases hslot : slot = index
  · subst hslot
    exact ⟨new, by simp, hself caller hstate⟩
  · simp only [hslot, if_false]
    exact h caller slot (hother caller slot hslot hstate)

/-- On an endpoint only the caller in the reply slot waits for an answer. -/
theorem AnsweredInv.active (h : p.AnsweredInv) (found : p.endpoints[index]? = some endpoint)
    {caller : Nat} (hstate : p.state? caller = some (.blockedCall index)) :
    endpoint.activeCaller = some caller := by
  obtain ⟨e, hfound, hactive⟩ := h caller index hstate
  obtain rfl : endpoint = e := Option.some.inj (found.symm.trans hfound)
  exact hactive

theorem AnsweredInv.step (h : p.AnsweredInv) (hinv : p.Inv) (hkind : kind ≠ .call true)
    (step : Step kind p q) : q.AnsweredInv := by
  cases step with
  | resume => exact h.plain (.setState rfl rfl) rfl
  | forget => exact h.plain (.of_task rfl) rfl
  | preempt => exact h.plain (.setState rfl rfl) rfl
  | parkSleep => exact h.plain (.setState rfl rfl) rfl
  | parkWait => exact h.plain (.setState rfl rfl) rfl
  | parkInput => exact h.plain (.setState rfl rfl) rfl
  | callDirect _ _ receiver _ endpoint _ _ _ found =>
      have hfree : endpoint.activeCaller = none := by
        cases hactive : endpoint.activeCaller with
        | none => rfl
        | some => simp [hactive] at hkind
      have hwoken : NoNewCalls p (p.wake receiver) := .setState rfl rfl
      refine h.setEndpoint found rfl (fun caller hafter => ?_) fun caller slot hslot hafter => ?_
      · rcases state?_setState_cases hafter with ⟨rfl, -⟩ | ⟨-, hbefore⟩
        · rfl
        · cases hfree.symm.trans (h.active found (hwoken caller _ rfl hbefore))
      · rcases state?_setState_cases hafter with ⟨-, heq⟩ | ⟨-, hbefore⟩
        · exact absurd (TaskState.blockedCall.inj heq) hslot
        · exact hwoken caller _ rfl hbefore
  | callQueue tid index _ _ _ found =>
      have hbefore : ∀ caller slot, (p.park tid (.blockedSend index)).state? caller =
          some (.blockedCall slot) → p.state? caller = some (.blockedCall slot) := by
        intro caller slot hafter
        rcases state?_setState_cases hafter with ⟨-, heq⟩ | ⟨-, hbefore⟩
        · cases heq
        · exact hbefore
      refine h.setEndpoint found rfl (fun caller hafter => ?_)
        fun caller slot _ hafter => hbefore caller slot hafter
      exact h.active found (hbefore caller index hafter)
  | recvQueue _ _ _ _ _ _ _ _ _ found slotFree =>
      refine h.setEndpoint found rfl (fun other hafter => ?_) fun other slot hslot hafter => ?_
      · rcases state?_setState_cases hafter with ⟨rfl, -⟩ | ⟨-, hbefore⟩
        · rfl
        · cases slotFree.symm.trans (h.active found hbefore)
      · rcases state?_setState_cases hafter with ⟨-, heq⟩ | ⟨-, hbefore⟩
        · exact absurd (TaskState.blockedCall.inj heq) hslot
        · exact hbefore
  | recvPark => exact h.plain (.setState rfl rfl) rfl
  | recvPoll => exact h.plain (.of_task rfl) rfl
  | expireRecv => exact h.plain (.setState rfl rfl) rfl
  | expireSleep => exact h.plain (.setState rfl rfl) rfl
  | reply _ _ caller _ _ _ _ _ found _ answered =>
      have hwoken : NoNewCalls p (p.wake caller) := .setState rfl rfl
      refine h.setEndpoint found rfl (fun other hafter => ?_)
        fun other slot _ hafter => hwoken other _ rfl hafter
      have hactive := h.active found (hwoken other _ rfl hafter)
      obtain rfl : caller = other := Option.some.inj (answered.symm.trans hactive)
      rcases state?_setState_cases hafter with ⟨-, heq⟩ | ⟨hne, -⟩
      · cases heq
      · exact absurd rfl hne
  | spawn _ fresh =>
      intro caller slot hafter
      rw [state?_enter] at hafter
      split_ifs at hafter
      · rw [fresh] at hafter
        cases hafter
      · exact h caller slot hafter
  | die _ _ found =>
      intro caller slot hafter
      exact h caller slot ((state?_died_iff hinv.tree found rfl).1 hafter).2
  | abortAt tid _ _ dying found =>
      refine h.setEndpoint found rfl (fun other hafter => ?_) fun other slot _ hafter => hafter
      obtain ⟨code, hzombie⟩ := hinv.zombie_of_dying dying
      have hactive := h.active found hafter
      have hne : other ≠ tid := by
        rintro rfl
        cases hafter.symm.trans hzombie
      grind [Endpoint.abort, Endpoint.strandedBy]
  | abortWake _ _ caller _ dying found stranded =>
      obtain ⟨active, server, waits⟩ := hinv.waiting_of_stranded dying found stranded
      have hwoken : NoNewCalls p (p.wake caller) := .setState rfl rfl
      refine h.setEndpoint found rfl (fun other hafter => ?_)
        fun other slot _ hafter => hwoken other _ rfl hafter
      have hactive := h.active found (hwoken other _ rfl hafter)
      obtain rfl : caller = other := Option.some.inj (active.symm.trans hactive)
      rcases state?_setState_cases hafter with ⟨-, heq⟩ | ⟨hne, -⟩
      · cases heq
      · exact absurd rfl hne
  | finishDeliver _ parent =>
      have hwoken : NoNewCalls p (p.wake parent) := .setState rfl rfl
      exact h.plain (hwoken.trans (.remove rfl)) rfl
  | finishLinger => exact h.plain (.of_task rfl) rfl
  | finishOrphan => exact h.plain (.remove rfl) rfl
  | collect => exact h.plain (.remove rfl) rfl
  | serveInput => exact h.plain (.setState rfl rfl) rfl
  | serveStale => exact h.plain (.of_task rfl) rfl
  | derive => exact h.plain (fun caller state _ hafter => by rwa [state?_fillSlot] at hafter) rfl
  | transfer => exact h.plain (.of_task rfl) rfl

end Preservation

end Proc

end Redoubt.Kernel
