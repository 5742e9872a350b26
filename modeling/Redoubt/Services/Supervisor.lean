import Redoubt.Services.Message

/-!
# The application supervisor

The supervisor starts every service of the roster as a child, restarts what has exited
after a delay, and answers operators.  Its children can end whenever it makes a system
call.  What the outside decides is collected in `Surroundings`: the n-th system call gets
the n-th answer.  A trace keeps what happened, with a snapshot of services and children
at every system call.

Allocation is taken to succeed.  The supervisor has a heap of 1 MiB of which nothing is
freed, so a run ends with a panic once it is used up; `OnHeap.fetchProgram` counts what
the fetch of a program takes of it.
-/

namespace Redoubt.Services

open Redoubt.Foundation Redoubt.Storage

def maxServices : Nat := 6
def baseBackoffTicks : Nat := 20
def maxBackoffTicks : Nat := 1600

inductive SvcState where
  | stopped
  | running (tid : Nat)
  /-- Until this tick. -/
  | waiting (resume : Nat)
  | failed
  deriving DecidableEq

structure Service where
  name : List UInt8
  autostart : Bool
  restart : Bool
  state : SvcState
  failures : Nat
  restarts : Nat
  deriving DecidableEq

/-! ### System calls -/

/-- A task of the supervisor that it has not reaped yet. -/
structure Child where
  tid : Nat
  /-- The service it was spawned for. -/
  owner : Nat
  /-- The exit code, once it has ended. -/
  code : Option UInt64
  deriving DecidableEq

def Child.ended (child : Child) : Bool := child.code.isSome

/-- The endpoints that the supervisor calls. -/
inductive Endpoint where
  | console
  | initfs
  | query
  | config
  deriving DecidableEq

/-- What the surroundings answer to one system call. -/
structure Answer where
  /-- The children that end before it, with their codes. -/
  exits : List (Nat × UInt64)
  tick : Nat
  /-- Error number of a refused spawn. -/
  refusal : Option UInt64
  /-- Task numbers that went to other tasks since the last spawn. -/
  skipped : Nat
  /-- The reply to a call. -/
  reply : Endpoint → Words → Except UInt64 Words
  /-- The message received. -/
  message : Except UInt64 Words

abbrev Surroundings := Nat → Answer

inductive Event where
  /-- A system call, with the services and the children at that moment. -/
  | call (services : List Service) (children : List Child)
  /-- A child was spawned; a respawn carries the clock of its pass. -/
  | spawned (index tid : Nat) (elf : List UInt8) (due : Option Nat)
  /-- No child was spawned: the program could not be fetched, or the spawn was refused. -/
  | refused (index : Nat)
  /-- The loop found the child of this service ended. -/
  | exited (index : Nat)
  | backoff (index tick delay : Nat)
  | gaveUp (index : Nat)
  /-- A child was reaped, by the loop or right after a kill. -/
  | reaped (tid : Nat) (inLoop : Bool) (before after : List Service)
  /-- An operator wants this service up. -/
  | wanted (index : Nat)
  /-- A stop request was answered with ok; the state before it. -/
  | stopped (index : Nat) (before : SvcState)
  | listening (deadline : Nat)
  | answered (request reply : List UInt8)
  deriving DecidableEq

structure Supd where
  services : List Service
  children : List Child
  nextTid : Nat
  calls : Nat
  trace : List Event

namespace Supd

def note (s : Supd) (event : Event) : Supd := { s with trace := s.trace ++ [event] }

def modify (s : Supd) (index : Nat) (f : Service → Service) : Supd :=
  { s with services := s.services.modify index f }

end Supd

/-- A child that ends now keeps its first code. -/
def Child.endIn (exits : List (Nat × UInt64)) (child : Child) : Child :=
  match child.code with
  | some _ => child
  | none => { child with code := exits.lookup child.tid }

variable (w : Surroundings)

/-- Enter the kernel. -/
def enter (s : Supd) : Answer × Supd :=
  let answer := w s.calls
  let s := s.note (.call s.services s.children)
  (answer, { s with calls := s.calls + 1, children := s.children.map (Child.endIn answer.exits) })

def ticks (s : Supd) : Nat × Supd :=
  let (answer, s) := enter w s
  (answer.tick, s)

def call (endpoint : Endpoint) (bytes : List UInt8) (s : Supd) : Except UInt64 Words × Supd :=
  let (answer, s) := enter w s
  (answer.reply endpoint (Msg.pack bytes), s)

/-- Reap the first child in the task table that has ended. -/
def tryWait (s : Supd) : Option (Nat × UInt64) × Supd :=
  let (_, s) := enter w s
  match s.children.find? Child.ended with
  | none => (none, s)
  | some child =>
      (some (child.tid, child.code.getD 0), { s with children := s.children.eraseP Child.ended })

/-- Kill a child; one that has ended gets the new code. -/
def kill (tid : Nat) (s : Supd) : Supd :=
  let (_, s) := enter w s
  { s with children := s.children.map fun child =>
      if child.tid = tid then { child with code := some 0x200 } else child }

def sleep (s : Supd) : Supd := (enter w s).2

/-- Spawn a child for a service. -/
def spawn (index : Nat) (s : Supd) : Except UInt64 Nat × Supd :=
  let (answer, s) := enter w s
  match answer.refusal with
  | some errno => (.error errno, s)
  | none =>
      let tid := s.nextTid + answer.skipped
      (.ok tid, { s with
        children := s.children ++ [{ tid, owner := index, code := none }]
        nextTid := tid + 1 })

/-- Each piece of a text is one call. -/
def printPieces : List (List UInt8) → Supd → Supd
  | [], s => s
  | piece :: rest, s =>
      match call w .console (1 :: piece) s with
      | (.error _, s) => s
      | (.ok _, s) => printPieces rest s

/-- Print on the console. -/
def say (text : List UInt8) (s : Supd) : Supd := printPieces w (text.toChunks 37) s

/-- One line for the audit log. -/
def audit (head tail : List UInt8) (s : Supd) : Supd :=
  (call w .query ((ascii "log " ++ head ++ tail).take 38) s).2

/-! ### Fetching programs -/

def fetchChunks (name : List UInt8) (len : Nat) :
    Nat → List UInt8 → Supd → Except UInt64 (List UInt8) × Supd
  | 0, buf, s => (.ok buf, s)
  | fuel + 1, buf, s =>
      if buf.length < len then
        match call w .initfs (ascii "chunk " ++ name ++ [32] ++ pushNum (UInt64.ofNat buf.length)) s with
        | (.error errno, s) => (.error errno, s)
        | (.ok words, s) =>
            let piece := (Raw.unpackAll words (List.replicate 40 0)).take (min (len - buf.length) 38)
            fetchChunks name len fuel (buf ++ piece) s
      else (.ok buf, s)

/-- The length that the store announces. -/
def announcedLen (text : List UInt8) : Option Nat :=
  match stripPrefix text (ascii "len ") with
  | none => none
  | some rest =>
      match parseTrimmed rest with
      | none => none
      | some len => if 1024 * 1024 < len.toNat then none else some len.toNat

def fetchProgram (name : List UInt8) (s : Supd) : Except UInt64 (List UInt8) × Supd :=
  match call w .initfs (ascii "fetch " ++ name) s with
  | (.error errno, s) => (.error errno, s)
  | (.ok words, s) =>
      match announcedLen (Msg.unpack words) with
      | none => (.error 17, s)
      | some len => fetchChunks w name len len [] s

def fetchFailedText (name : List UInt8) (errno : UInt64) : List UInt8 :=
  ascii "[supd] fetch '" ++ name ++ ascii "' errno " ++ pushNum errno ++ [10]

/-- Start a service; `due` is the clock of the pass that restarts it. -/
def spawnService (index : Nat) (due : Option Nat) (s : Supd) : Bool × Supd :=
  match s.services[index]? with
  | none => (false, s)
  | some svc =>
      match fetchProgram w svc.name s with
      | (.error errno, s) => (false, say w (fetchFailedText svc.name errno) (s.note (.refused index)))
      | (.ok elf, s) =>
          match spawn w index s with
          | (.ok tid, s) =>
              let s := s.modify index fun svc => { svc with state := .running tid, failures := 0 }
              let s := s.note (.spawned index tid elf due)
              (true, audit w (ascii "svc-start " ++ svc.name) [] s)
          | (.error _, s) =>
              let s := s.modify index fun svc => { svc with state := .failed }
              (false, s.note (.refused index))

/-! ### Roster -/

def rosterParts (line : List UInt8) : List (List UInt8) := (line.splitOn 32).filter (!·.isEmpty)

/-- The service that one reply describes. -/
def rosterService (line : List UInt8) : Option Service :=
  match rosterParts line with
  | name :: autostart :: restart :: _ =>
      some
        { name := utf8Or name (ascii "?")
          autostart := autostart == ascii "autostart"
          restart := restart == ascii "restart"
          state := .stopped
          failures := 0
          restarts := 0 }
  | _ => none

def loadEntries : List Nat → Supd → Supd
  | [], s => s
  | index :: rest, s =>
      match call w .query (ascii "roster " ++ pushNum (UInt64.ofNat index)) s with
      | (.error _, s) => loadEntries rest s
      | (.ok words, s) =>
          loadEntries rest { s with services := s.services ++ (rosterService (Msg.unpack words)).toList }

def loadRoster (s : Supd) : Supd :=
  match call w .query (ascii "roster-count") s with
  | (.error _, s) => s
  | (.ok words, s) =>
      let count := ((parseTrimmed (Msg.unpack words)).map UInt64.toNat).getD 0
      loadEntries w (List.range (min count maxServices)) s

/-! ### Supervision -/

/-- Delay before the next attempt. -/
def backoffTicks (failures : Nat) : Nat := min (baseBackoffTicks <<< min failures 7) maxBackoffTicks

/-- The services whose child this was, the last one of them. -/
def lastRunning (tid : Nat) (services : List Service) : Option Nat :=
  (services.zipIdx.filter fun entry => entry.1.state = .running tid).getLast?.map Prod.snd

/-- Mark the services whose child has ended. -/
def markExited (tid : Nat) (services : List Service) : List Service :=
  services.map fun svc =>
    if svc.state = .running tid then { svc with state := .stopped, failures := svc.failures + 1 } else svc

/-- Decide what follows the exit of a service. -/
def settle (index : Nat) (svc : Service) (s : Supd) : Supd :=
  if svc.restart && svc.failures ≤ 5 then
    let (now, s) := ticks w s
    let s := s.modify index fun svc => { svc with state := .waiting (now + backoffTicks svc.failures) }
    s.note (.backoff index now (backoffTicks svc.failures))
  else
    let s := s.modify index fun svc => { svc with state := .failed }
    s.note (.gaveUp index)

/-- The accounting for one reaped child, and the line for the audit log. -/
def accountExit (tid : Nat) (code : UInt64) (s : Supd) : List UInt8 × Supd :=
  let before := s.services
  let s := { s with services := markExited tid before }
  match (lastRunning tid before).bind fun index => (s.services[index]?).map fun svc => (index, svc) with
  | some (index, svc) =>
      let s := settle w index svc (s.note (.exited index))
      (ascii "svc-exit " ++ svc.name ++ ascii " code " ++ pushNum code,
        s.note (.reaped tid true before s.services))
  | none =>
      (ascii "unknown-child " ++ pushNum (UInt64.ofNat tid), s.note (.reaped tid true before s.services))

/-- Reap exited children; each round removes one. -/
def reapExited : Nat → Supd → Supd
  | 0, s => s
  | fuel + 1, s =>
      match tryWait w s with
      | (none, s) => s
      | (some (tid, code), s) =>
          let (line, s) := accountExit w tid code s
          reapExited fuel (audit w line [] s)

/-- Respawn due services; the result is also the next deadline. -/
def respawnDue (now : Nat) : List Nat → Nat → Supd → Nat × Supd
  | [], deadline, s => (deadline, s)
  | index :: rest, deadline, s =>
      match (s.services[index]?).map Service.state with
      | some (.waiting resume) =>
          if resume ≤ now then
            let (_, s) := spawnService w index (some now) s
            let s := s.modify index fun svc => { svc with restarts := svc.restarts + 1 }
            respawnDue now rest deadline s
          else respawnDue now rest (min deadline resume) s
      | _ => respawnDue now rest deadline s

/-! ### Operators -/

def release (tid : Nat) (services : List Service) : List Service :=
  services.map fun svc => if svc.state = .running tid then { svc with state := .stopped } else svc

/-- One child that was reaped outside the loop. -/
def drain (tid : Nat) (s : Supd) : Supd :=
  let before := s.services
  let s := { s with services := release tid before }
  s.note (.reaped tid false before s.services)

/-- Reap one exited child, with a second attempt after a short sleep. -/
def drainOne (s : Supd) : Supd :=
  match tryWait w s with
  | (some (tid, _), s) => drain tid s
  | (none, s) =>
      match tryWait w (sleep w s) with
      | (some (tid, _), s) => drain tid s
      | (none, s) => s

def findService (services : List Service) (name : List UInt8) : Option Nat :=
  services.findIdx? fun svc => svc.name = name

def stateText : SvcState → List UInt8
  | .running _ => ascii "running"
  | .stopped => ascii "stopped"
  | .waiting _ => ascii "backoff"
  | .failed => ascii "FAILED"

def statusText (svc : Service) : List UInt8 :=
  svc.name ++ [32] ++ stateText svc.state ++ ascii " r=" ++ pushNum (UInt64.ofNat svc.restarts) ++
    ascii " f=" ++ pushNum (UInt64.ofNat svc.failures)

def startReply (started : Bool) : List UInt8 :=
  if started then ascii "ok started" else ascii "err: spawn failed"

/-- An operator wants this service up from now on. -/
def Supd.want (s : Supd) (index : Nat) : Supd :=
  (s.modify index fun svc => { svc with restart := true, failures := 0 }).note (.wanted index)

def opRestart (index : Nat) (svc : Service) (s : Supd) : List UInt8 × Supd :=
  match svc.state with
  | .running tid =>
      let s := (kill w tid s).want index
      let (now, s) := ticks w s
      let s := s.modify index fun svc => { svc with state := .waiting (now + 1) }
      (ascii "ok restarting", drainOne w s)
  | _ =>
      let (started, s) := spawnService w index none (s.want index)
      (startReply started, s)

def opStop (index : Nat) (svc : Service) (s : Supd) : List UInt8 × Supd :=
  let s := s.modify index fun svc => { svc with restart := false }
  match svc.state with
  | .running tid =>
      let s := drainOne w (kill w tid s)
      (ascii "ok stopping", s.note (.stopped index svc.state))
  | _ => (ascii "ok already-down", s.note (.stopped index svc.state))

def opStart (index : Nat) (svc : Service) (s : Supd) : List UInt8 × Supd :=
  let s := s.want index
  match svc.state with
  | .running _ => (ascii "ok already-up", s)
  | _ =>
      let (started, s) := spawnService w index none s
      (startReply started, s)

/-- An operation on the service of this name. -/
def onService (name : List UInt8) (op : Nat → Service → Supd → List UInt8 × Supd) (s : Supd) :
    List UInt8 × Supd :=
  match findService s.services name with
  | none => (ascii "err: unknown", s)
  | some index =>
      match s.services[index]? with
      | none => (ascii "err: unknown", s)
      | some svc => op index svc s

/-- A request that the storage service answers. -/
def forward (req : List UInt8) (s : Supd) : List UInt8 × Supd :=
  match call w .config req s with
  | (.ok words, s) => (Msg.unpack words, s)
  | (.error errno, s) => (ascii "err: storage " ++ pushNum errno, s)

def indexArg (rest : List UInt8) : Nat := ((parseNum (trim rest)).map UInt64.toNat).getD (2 ^ 64 - 1)

def handleOp (req : List UInt8) (s : Supd) : List UInt8 × Supd :=
  if req = ascii "status-count" then (pushNum (UInt64.ofNat s.services.length), s)
  else if let some rest := stripPrefix req (ascii "status ") then
    match s.services[indexArg rest]? with
    | some svc => (statusText svc, s)
    | none => (ascii "err: range", s)
  else if let some rest := stripPrefix req (ascii "restart ") then onService (trim rest) (opRestart w) s
  else if let some rest := stripPrefix req (ascii "stop ") then onService (trim rest) (opStop w) s
  else if let some rest := stripPrefix req (ascii "start ") then onService (trim rest) (opStart w) s
  else if req = ascii "update" then forward w (ascii "begin-update") s
  else if req = ascii "install-app" ∨ (stripPrefix req (ascii "remove-app ")).isSome then forward w req s
  else (ascii "err: op?", s)

/-- Listen for an operator; nothing follows the loss of the endpoint. -/
def listen (deadline : Nat) (s : Supd) : Option Supd :=
  let (answer, s) := enter w (s.note (.listening deadline))
  match answer.message with
  | .ok words =>
      let req := Msg.unpack words
      let (reply, s) := handleOp w req s
      let (_, s) := enter w s
      some (s.note (.answered req reply))
  | .error errno => if errno = 10 then some s else none

/-- One round of the supervision loop. -/
def pass (s : Supd) : Option Supd :=
  let s := reapExited w (s.children.length + 1) s
  let (now, s) := ticks w s
  let (next, s) := respawnDue w now (List.range s.services.length) (2 ^ 64 - 1) s
  let deadline := min next (now + 200)
  listen w (max deadline (now + 1)) s

/-! ### Start -/

def autostart : List Nat → Supd → Supd
  | [], s => s
  | index :: rest, s =>
      match s.services[index]? with
      | none => autostart rest s
      | some svc =>
          if svc.autostart then autostart rest (spawnService w index none s).2 else autostart rest s

/-- The supervisor with the roster it has loaded and the first services up. -/
def start (nextTid : Nat) : Supd :=
  let (_, s) := enter w { services := [], children := [], nextTid, calls := 0, trace := [] }
  let s := loadRoster w (say w (ascii "[supd] starting\n") s)
  autostart w (List.range s.services.length) s

end Redoubt.Services
