import Redoubt.Kernel.Lifecycle

/-!
# Synchronous IPC

A call meets a parked receiver directly or waits in the endpoint's queue.  The
receiver then holds the endpoint's single reply slot until it replies.
-/

namespace Redoubt.Kernel

open Redoubt.Foundation

/-- The five words of a call, with the unused sixth. -/
def messageOf (a : Args) : Message := ⟨a.a1, a.a2, a.a3, a.a4, a.a5, 0⟩

/-- What a receiver finds in its registers. -/
def deliverFrame (caller : Nat) (msg : Message) (frame : TrapFrame) : TrapFrame :=
  { frame with
    rax := eOk
    rdi := caller
    rsi := msg.m0
    rdx := msg.m1
    r10 := msg.m2
    r8 := msg.m3
    r9 := msg.m4 }

/-- What a caller finds in its registers when it is answered. -/
def replyFrame (a : Args) (frame : TrapFrame) : TrapFrame :=
  { frame with
    rax := eOk
    rdi := a.a1
    rsi := a.a2
    rdx := a.a3
    r10 := a.a4
    r8 := a.a5 }

namespace Machine

/-- The endpoint named by a slot that carries the needed rights. -/
def getEndpointCap (s : Machine) (tid slot need : Nat) : Except Nat Nat :=
  match s.findTask tid with
  | none => .error eCapDenied
  | some task =>
      match task.caps[slot]? with
      | none => .error eCapMissing
      | some none => .error eCapMissing
      | some (some (.endpoint endpoint rights)) =>
          if rights &&& need = need then .ok endpoint else .error eCapDenied
      | some (some _) => .error eCapDenied

/-- Hand a call to a receiver parked on the endpoint and take the reply slot. -/
def deliverDirect (s : Machine) (index : Nat) (endpoint : Endpoint) (caller : Nat)
    (msg : Message) (receiver : Task) : Machine :=
  let s := s.modifyTask receiver.id (Task.wakeWith (deliverFrame caller msg))
  let s := s.makeReady receiver.id true
  let s := s.emit (.callDelivered index receiver.id (deliverFrame caller msg receiver.frame))
  s.setEndpoint index
    { endpoint with activeCaller := some caller, activeServer := some receiver.id }

def ipcCall (s : Machine) (tid : Nat) (frame : TrapFrame) : Except Stop Machine :=
  let a := argsOf frame
  let msg := messageOf a
  match s.getEndpointCap tid a.a0 rWrite with
  | .error code => .ok (s.setRax tid code)
  | .ok index =>
      match s.endpoints[index]? with
      | none => .error (.lookup .endpointIndex)
      | some endpoint =>
          let s := s.emit (.callIssued index tid frame)
          match s.tasks.find? fun task => task.state.receivesOn index with
          | some receiver =>
              (s.deliverDirect index endpoint tid msg receiver).block tid (.blockedCall index)
          | none =>
              (s.setEndpoint index
                { endpoint with
                  pendingCallers := endpoint.pendingCallers ++ [(tid, msg)] }).block tid
                (.blockedSend index)

/-- Hand the oldest queued call to the receiver that asks. -/
def deliverQueued (s : Machine) (index tid : Nat) (frame : TrapFrame) (caller : Nat)
    (msg : Message) (rest : List (Nat × Message)) : Machine :=
  let s := s.setEndpoint index
    { pendingCallers := rest, activeCaller := some caller, activeServer := some tid }
  let s := s.modifyTask caller (Task.setState (.blockedCall index))
  let s := s.modifyTask tid (Task.setFrame (deliverFrame caller msg))
  s.emit (.callDelivered index tid (deliverFrame caller msg frame))

def ipcRecv (s : Machine) (tid : Nat) (frame : TrapFrame) : Except Stop Machine :=
  let a := argsOf frame
  let deadline := a.a1
  match s.getEndpointCap tid a.a0 rRead with
  | .error code => .ok (s.setRax tid code)
  | .ok index =>
      match s.endpoints[index]? with
      | none => .error (.lookup .endpointIndex)
      | some endpoint =>
          -- one reply slot: a second receive before the reply is refused
          if endpoint.activeCaller.isSome then .ok (s.setRax tid eEndpointBusy)
          else
            match endpoint.pendingCallers with
            | (caller, msg) :: rest =>
                .ok (s.deliverQueued index tid frame caller msg rest)
            | [] =>
                if deadline ≠ 0 ∧ deadline ≤ s.ticks then
                  .ok ((s.setRax tid eTimedOut).emit (.recvTimedOut index tid))
                else s.block tid (.blockedRecv index deadline)

/-- Answer the active caller and free the reply slot. -/
def answer (s : Machine) (index : Nat) (endpoint : Endpoint) (tid caller : Nat) (a : Args) :
    Except Stop Machine :=
  let s := s.setEndpoint index { endpoint with activeCaller := none, activeServer := none }
  match s.findTask caller with
  | none => .error (.lookup .callerVanished)
  | some task =>
      let s := s.modifyTask caller (Task.wakeWith (replyFrame a))
      let s := s.makeReady caller true
      let s := s.emit (.callReplied index tid caller (replyFrame a task.frame))
      .ok (s.setRax tid eOk)

def ipcReply (s : Machine) (tid : Nat) (frame : TrapFrame) : Except Stop Machine :=
  let a := argsOf frame
  match s.getEndpointCap tid a.a0 rWrite with
  | .error code => .ok (s.setRax tid code)
  | .ok index =>
      match s.endpoints[index]? with
      | none => .error (.lookup .endpointIndex)
      | some endpoint =>
          if endpoint.activeServer ≠ some tid then .ok (s.setRax tid eNoReplyWaiting)
          else
            match endpoint.activeCaller with
            | some caller => s.answer index endpoint tid caller a
            | none =>
                .ok ((s.setEndpoint index { endpoint with activeServer := none }).setRax tid
                  eNoReplyWaiting)

end Machine

end Redoubt.Kernel
