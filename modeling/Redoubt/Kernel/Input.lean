import Redoubt.Kernel.Scheduler

/-!
# Keyboard input

Scancodes are decoded in interrupt context and either handed to a parked
reader or queued.  The three loops that move queued bytes into a user buffer
are one function here.
-/

namespace Redoubt.Kernel

open Redoubt.Foundation

def queueCap : Nat := 256

/-- Unshifted byte of a make code of scancode set 1. -/
def decodeTable : UInt8 → Option UInt8
  | 0x02 => some 0x31
  | 0x03 => some 0x32
  | 0x04 => some 0x33
  | 0x05 => some 0x34
  | 0x06 => some 0x35
  | 0x07 => some 0x36
  | 0x08 => some 0x37
  | 0x09 => some 0x38
  | 0x0a => some 0x39
  | 0x0b => some 0x30
  | 0x0c => some 0x2d
  | 0x0d => some 0x3d
  | 0x0e => some 0x08
  | 0x0f => some 0x09
  | 0x10 => some 0x71
  | 0x11 => some 0x77
  | 0x12 => some 0x65
  | 0x13 => some 0x72
  | 0x14 => some 0x74
  | 0x15 => some 0x79
  | 0x16 => some 0x75
  | 0x17 => some 0x69
  | 0x18 => some 0x6f
  | 0x19 => some 0x70
  | 0x1a => some 0x5b
  | 0x1b => some 0x5d
  | 0x1c => some 0x0a
  | 0x1e => some 0x61
  | 0x1f => some 0x73
  | 0x20 => some 0x64
  | 0x21 => some 0x66
  | 0x22 => some 0x67
  | 0x23 => some 0x68
  | 0x24 => some 0x6a
  | 0x25 => some 0x6b
  | 0x26 => some 0x6c
  | 0x27 => some 0x3b
  | 0x28 => some 0x27
  | 0x29 => some 0x60
  | 0x2b => some 0x5c
  | 0x2c => some 0x7a
  | 0x2d => some 0x78
  | 0x2e => some 0x63
  | 0x2f => some 0x76
  | 0x30 => some 0x62
  | 0x31 => some 0x6e
  | 0x32 => some 0x6d
  | 0x33 => some 0x2c
  | 0x34 => some 0x2e
  | 0x35 => some 0x2f
  | 0x39 => some 0x20
  | _ => none

/-- The byte a key gives while shift is held. -/
def unshift (byte : UInt8) : UInt8 :=
  match byte with
  | 0x31 => 0x21
  | 0x32 => 0x40
  | 0x33 => 0x23
  | 0x34 => 0x24
  | 0x35 => 0x25
  | 0x36 => 0x5e
  | 0x37 => 0x26
  | 0x38 => 0x2a
  | 0x39 => 0x28
  | 0x30 => 0x29
  | 0x2d => 0x5f
  | 0x3d => 0x2b
  | 0x5b => 0x7b
  | 0x5d => 0x7d
  | 0x3b => 0x3a
  | 0x27 => 0x22
  | 0x60 => 0x7e
  | 0x5c => 0x7c
  | 0x2c => 0x3c
  | 0x2e => 0x3e
  | 0x2f => 0x3f
  | other => if 0x61 ≤ other ∧ other ≤ 0x7a then other - 0x61 + 0x41 else other

def decode (shift : Bool) (sc : UInt8) : Option UInt8 :=
  (decodeTable sc).map fun byte => if shift then unshift byte else byte

/-- Move queued bytes to consecutive user addresses until the buffer is full,
the queue is empty or an address is not mapped. -/
def copyQueued (cr3 buf : Nat) : Nat → Nat → PhysMem → List UInt8 → PhysMem × List UInt8 × Nat
  | 0, written, mem, queue => (mem, queue, written)
  | _ + 1, written, mem, [] => (mem, [], written)
  | room + 1, written, mem, byte :: queue =>
      match translate mem cr3 (buf + written) with
      | none => (mem, byte :: queue, written)
      | some phys => copyQueued cr3 buf room (written + 1) (mem.writeByte phys byte) queue

namespace Machine

/-- Run the copy loop; the result is the number of bytes moved. -/
def drainQueue (s : Machine) (cr3 buf len : Nat) : Machine × Nat :=
  let (mem, queue, written) := copyQueued cr3 buf len 0 s.vm.mem s.input.queue
  ({ s with
      vm := { s.vm with mem := mem }
      input := { s.input with queue := queue } }, written)

/-- Hand queued bytes to a registered reader and make it ready. -/
def deliverTo (s : Machine) (waiter : Waiter) : Machine :=
  let (s, written) := s.drainQueue waiter.cr3 waiter.buf waiter.len
  let s :=
    match s.findTask waiter.tid with
    | none => s
    | some task =>
        if task.state = TaskState.blockedInput then
          s.modifyTask waiter.tid (Task.wakeWith fun frame => { frame with rax := written })
        else s
  s.makeReady waiter.tid true

/-- Queue one byte, dropping the oldest when full, and serve a parked reader. -/
def enqueue (s : Machine) (byte : UInt8) : Machine :=
  let queue := if queueCap ≤ s.input.queue.length then s.input.queue.tail else s.input.queue
  let s := { s with input := { s.input with queue := queue ++ [byte] } }
  match s.input.waiters with
  | [] => s
  | waiter :: rest =>
      let s := { s with input := { s.input with waiters := rest } }
      s.deliverTo waiter

/-- Entry point of the keyboard interrupt with one raw scancode. -/
def onScancode (s : Machine) (sc : UInt8) : Machine :=
  if sc = 0xe0 then { s with input := { s.input with extended := true } }
  else if s.input.extended then { s with input := { s.input with extended := false } }
  else if sc = 0x2a ∨ sc = 0x36 then { s with input := { s.input with shift := true } }
  else if sc = 0xaa ∨ sc = 0xb6 then { s with input := { s.input with shift := false } }
  else if sc &&& 0x80 ≠ 0 then s
  else
    match decode s.input.shift sc with
    | none => s
    | some byte => s.enqueue byte

/-! ## Reading -/

def maxRead : Nat := 512
def inputNohang : Nat := 1

/-- Blocking read by `tid` in address space `cr3`. -/
def requestRead (s : Machine) (tid cr3 buf len : Nat) : Except Stop Machine :=
  if len = 0 ∨ ¬ userRangeValid buf len then .ok (s.setRax tid eBadArg)
  else if (translate s.vm.mem cr3 buf).isNone then .ok (s.setRax tid eBadArg)
  else if s.input.queue = [] then
    let waiter : Waiter := ⟨tid, buf, len, cr3⟩
    let s := { s with input := { s.input with waiters := s.input.waiters ++ [waiter] } }
    s.block tid .blockedInput
  else
    let (s, written) := s.drainQueue cr3 buf len
    .ok (s.setRax tid written)

/-- Read without parking. -/
def tryRead (s : Machine) (tid cr3 buf len : Nat) : Machine :=
  if len = 0 ∨ ¬ userRangeValid buf len then s.setRax tid 0
  else
    let (s, written) := s.drainQueue cr3 buf len
    s.setRax tid written

def sysInputRead (s : Machine) (tid : Nat) (a : Args) : Except Stop Machine :=
  let len := min a.a1 maxRead
  match s.findTask tid with
  | none => .ok (s.setRax tid eBadArg)
  | some task =>
      if a.a2 &&& inputNohang ≠ 0 then .ok (s.tryRead tid task.cr3 a.a0 len)
      else s.requestRead tid task.cr3 a.a0 len

end Machine

end Redoubt.Kernel
