import Redoubt.Foundation.BumpHeap
import Redoubt.Services.Manifest
import Redoubt.Services.Supervisor

/-!
# Fetching a program on two heaps

The supervisor and the program store have a heap of 1 MiB each, of which nothing is freed: a
vector that is dropped gives nothing back, and one that grows leaves its old block behind.
A service that finds no room panics.  Here are the steps by which a program is fetched, with
every vector that they make.  Vectors grow as those of the standard library, and all of them
hold bytes, so that alignment costs nothing.  A fetch that does not panic ends as the one of
the supervisor's model, which knows no heap.
-/

namespace Redoubt.Services

open Redoubt.Foundation Redoubt.Storage

def heapSize : Nat := 1024 * 1024

namespace Initfs

variable (store : Store)

def lookup (name : List UInt8) : Option (List UInt8) := (store.find? (·.1 = name)).map Prod.snd

/-- The line up to its last blank, and what follows. -/
def splitLast (rest : List UInt8) : Option (List UInt8 × List UInt8) :=
  (rest.reverse.findIdx? (· == 32)).map fun index =>
    (rest.take (rest.length - 1 - index), rest.drop (rest.length - index))

/-- A piece of 38 bytes of a program, in a message of 40. -/
def handleChunk (req : List UInt8) : List UInt8 :=
  match stripPrefix req (ascii "chunk ") with
  | none => ascii "err: bad"
  | some rest =>
      match splitLast rest with
      | none => ascii "err: bad"
      | some (before, after) =>
          match parseNum (trim after) with
          | none => ascii "err: bad offset"
          | some off =>
              match lookup store (trim before) with
              | none => ascii "err: no such program"
              | some elf =>
                  if elf.length ≤ off.toNat then []
                  else
                    let piece := (elf.drop off.toNat).take (min (off.toNat + 38) elf.length - off.toNat)
                    piece ++ List.replicate (40 - piece.length) 0

end Initfs

namespace OnHeap

/-! ### Messages -/

def unpackInto : List UInt64 → Vec UInt8 → Alloc heapSize (Vec UInt8)
  | [], out => pure out
  | word :: words, out => do
      let text := (Bytes.ofU64 word).val.takeWhile (· ≠ 0)
      let out ← out.extend text
      if text.length < 8 then pure out else unpackInto words out

def unpack (words : Words) : Alloc heapSize (Vec UInt8) := do
  let out ← Vec.withCapacity 40
  unpackInto (List.ofFn words) out

def pushNum (out : Vec UInt8) (value : UInt64) : Alloc heapSize (Vec UInt8) :=
  out.pushAll (Storage.pushNum value)

/-! ### The program store -/

section Store

variable (store : Initfs.Store)

def fetchMeta (name : List UInt8) : Alloc heapSize (Vec UInt8) :=
  match Initfs.lookup store name with
  | none => do
      let out ← Vec.ofSlice (ascii "err: no such program '")
      let out ← out.extend name
      out.push 39
  | some elf => do
      let out ← Vec.ofSlice (ascii "len ")
      pushNum out (UInt64.ofNat elf.length)

/-- Every answer is the copy of a slice. -/
def handleChunk (req : List UInt8) : Alloc heapSize (Vec UInt8) :=
  Vec.ofSlice (Initfs.handleChunk store req)

/-- A request to start a program; what it is answered with is up to other services. -/
def launches (req : List UInt8) : Bool :=
  (stripPrefix req (ascii "exec ")).isSome || (stripPrefix req (ascii "app ")).isSome

/-- The reply to a request, apart from those to start a program. -/
def dispatchReq (req : List UInt8) : Alloc heapSize (Option Words) :=
  if launches req then pure none
  else do
    let reply ← match stripPrefix req (ascii "fetch ") with
      | some rest => fetchMeta store (trim rest)
      | none =>
          match stripPrefix req (ascii "chunk ") with
          | some _ => handleChunk store req
          | none => Vec.ofSlice (ascii "err: usage 'exec <name>', 'app <name>', or 'fetch <name>'")
    pure (some (Msg.pack reply.data))

def serve (words : Words) : Alloc heapSize (Option Words) := do
  let req ← unpack words
  dispatchReq store req.data

end Store

/-! ### The supervisor -/

section Fetch

variable (w : Surroundings)

def fetchRequest (name : List UInt8) : Alloc heapSize (Vec UInt8) := do
  let req ← Vec.ofSlice (ascii "fetch ")
  req.extend name

def chunkRequest (name : List UInt8) (off : Nat) : Alloc heapSize (Vec UInt8) := do
  let creq ← Vec.ofSlice (ascii "chunk ")
  let creq ← creq.extend name
  let creq ← creq.push 32
  pushNum creq (UInt64.ofNat off)

def fetchChunks (name : List UInt8) (len : Nat) :
    Nat → Vec UInt8 → Supd → Alloc heapSize (Except UInt64 (Vec UInt8) × Supd)
  | 0, buf, s => pure (.ok buf, s)
  | fuel + 1, buf, s =>
      if buf.data.length < len then do
        let creq ← chunkRequest name buf.data.length
        match call w .initfs creq.data s with
        | (.error errno, s) => pure (.error errno, s)
        | (.ok words, s) => do
            let buf ← buf.extend
              ((Raw.unpackAll words (List.replicate 40 0)).take (min (len - buf.data.length) 38))
            fetchChunks name len fuel buf s
      else pure (.ok buf, s)

def fetchProgram (name : List UInt8) (s : Supd) : Alloc heapSize (Except UInt64 (Vec UInt8) × Supd) := do
  let req ← fetchRequest name
  match call w .initfs req.data s with
  | (.error errno, s) => pure (.error errno, s)
  | (.ok words, s) => do
      let text ← unpack words
      match announcedLen text.data with
      | none => pure (.error 17, s)
      | some len => do
          let buf ← Vec.withCapacity len
          fetchChunks w name len len buf s

end Fetch

/-! ### Agreement with the model without heaps -/

theorem gives_unpackInto (words : List UInt64) (out : Vec UInt8) :
    Alloc.Gives (unpackInto words out) fun text => text.data = out.data ++ Msg.unpackWords words := by
  induction words generalizing out with
  | nil => exact .pure (List.append_nil _).symm
  | cons word words ih =>
      rw [unpackInto, Msg.unpackWords]
      refine (Vec.gives_extend out _).bind fun next hnext => ?_
      split_ifs
      · exact .pure hnext
      · refine (ih next).imp fun text htext => ?_
        rw [htext, hnext, List.append_assoc]

theorem gives_unpack (words : Words) :
    Alloc.Gives (unpack words) fun text => text.data = Msg.unpack words :=
  (Vec.gives_withCapacity 40).bind fun out hout =>
    (gives_unpackInto _ out).imp fun text htext => by rw [htext, hout, List.nil_append, Msg.unpack]

theorem gives_fetchRequest (name : List UInt8) :
    Alloc.Gives (fetchRequest name) fun req => req.data = ascii "fetch " ++ name :=
  (Vec.gives_ofSlice _).bind fun req hreq => hreq ▸ Vec.gives_extend req name

theorem gives_chunkRequest (name : List UInt8) (off : Nat) :
    Alloc.Gives (chunkRequest name off) fun creq =>
    creq.data = ascii "chunk " ++ name ++ [32] ++ Storage.pushNum (UInt64.ofNat off) :=
  (Vec.gives_ofSlice _).bind fun word hword =>
    (Vec.gives_extend word name).bind fun named hnamed =>
      (Vec.gives_extend named [32]).bind fun spaced hspaced =>
        (Vec.gives_pushAll spaced _).imp fun creq hcreq => by rw [hcreq, hspaced, hnamed, hword]

/-- The outcome of a fetch without the heap. -/
def plain (outcome : Except UInt64 (Vec UInt8) × Supd) : Except UInt64 (List UInt8) × Supd :=
  (outcome.1.map Vec.data, outcome.2)

theorem gives_fetchChunks (w : Surroundings) (name : List UInt8) (len fuel : Nat) (buf : Vec UInt8)
    (s : Supd) :
    Alloc.Gives (fetchChunks w name len fuel buf s) fun outcome =>
      Services.fetchChunks w name len fuel buf.data s = plain outcome := by
  induction fuel generalizing buf s with
  | zero => exact .pure rfl
  | succ fuel ih =>
      rw [fetchChunks, Services.fetchChunks]
      split_ifs
      · refine (gives_chunkRequest name _).bind fun creq hcreq => ?_
        rw [← hcreq]
        obtain ⟨_ | words, s⟩ := call w .initfs creq.data s
        · exact .pure rfl
        · refine (Vec.gives_extend buf _).bind fun next hnext => ?_
          dsimp only
          rw [← hnext]
          exact ih next s
      · exact .pure rfl

/-- A fetch that does not panic ends as in the model without heaps. -/
theorem gives_fetchProgram (w : Surroundings) (name : List UInt8) (s : Supd) :
    Alloc.Gives (fetchProgram w name s) fun outcome =>
      Services.fetchProgram w name s = plain outcome := by
  unfold fetchProgram Services.fetchProgram
  refine (gives_fetchRequest name).bind fun req hreq => ?_
  rw [← hreq]
  obtain ⟨_ | words, s⟩ := call w .initfs req.data s
  · exact .pure rfl
  · refine (gives_unpack words).bind fun text htext => ?_
    dsimp only
    rw [← htext]
    cases announcedLen text.data with
    | none => exact .pure rfl
    | some len =>
        exact (Vec.gives_withCapacity len).bind fun buf hbuf =>
          hbuf ▸ gives_fetchChunks w name len len buf s

end OnHeap

end Redoubt.Services
