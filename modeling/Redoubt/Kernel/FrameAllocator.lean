import Redoubt.Foundation.MachineWord

/-!
# The physical frame allocator

First fit over a sorted free list, then a bump cursor through the usable
regions.  `freeFrames` keeps the free list sorted and coalesced, and stops the
kernel on every range it cannot account for.
-/

namespace Redoubt.Kernel

open Redoubt.Foundation

/-- The assertions of the memory side, of image loading and of boot. -/
inductive Panic where
  | freeUnaligned
  | freeOverflow
  | freeOutsideUsable
  | freeUnderflow
  | freeOverlapsPreceding
  | freeOverlapsFollowing
  | sliceIndex
  | idleStack
  | embeddedElf
  deriving DecidableEq, Repr

structure FrameAllocator where
  /-- Usable regions `[start, end)` in the order the bootloader reports them. -/
  regions : List (Nat × Nat)
  cur : Nat
  nextFree : Nat
  /-- Free ranges `[base, end)`, sorted by base, pairwise non-adjacent. -/
  free : List (Nat × Nat)
  allocatedFrames : Nat
  deriving DecidableEq, Repr

namespace FrameAllocator

def maxRegions : Nat := 32

/-- Stay above BIOS and EBDA territory. -/
def minAddr : Nat := 0x100000

/-- A memory region as the bootloader reports it. -/
structure MemoryRegion where
  start : Nat
  stop : Nat
  usable : Bool
  deriving DecidableEq, Repr

/-- The page-aligned part of a usable region above `minAddr`, if there is any. -/
def usableRange? (region : MemoryRegion) : Option (Nat × Nat) :=
  let start := pageCeil (max region.start minAddr)
  let stop := pageFloor region.stop
  if region.usable && start < stop then some (start, stop) else none

/-- The allocator before its first request. -/
def init (reported : List MemoryRegion) : FrameAllocator :=
  let regions := (reported.filterMap usableRange?).take maxRegions
  { regions := regions
    cur := 0
    nextFree := (regions.head?.map Prod.fst).getD 0
    free := []
    allocatedFrames := 0 }

/-- First-fit scan of the free list: the base taken and the list left over. -/
def takeFree (bytes : Nat) : List (Nat × Nat) → Option (Nat × List (Nat × Nat))
  | [] => none
  | (base, stop) :: rest =>
      if bytes ≤ stop - base then
        if stop - base = bytes then some (base, rest)
        else some (base, (base + bytes, stop) :: rest)
      else
        (takeFree bytes rest).map fun found => (found.1, (base, stop) :: found.2)

/-- The bump loop; the fuel is the number of regions not yet abandoned. -/
def bump (count : Nat) : Nat → FrameAllocator → FrameAllocator × Option Nat
  | 0, fa => (fa, none)
  | fuel + 1, fa =>
      match fa.regions[fa.cur]? with
      | none => (fa, none)
      | some (_, stop) =>
          -- both sums are 64-bit sums and may wrap
          let aligned := pageCeil fa.nextFree % wordLimit
          let after := (aligned + count * pageSize) % wordLimit
          if after ≤ stop then
            ({ fa with
                nextFree := after
                allocatedFrames := fa.allocatedFrames + count }, some aligned)
          else
            bump count fuel
              { fa with
                cur := fa.cur + 1
                nextFree :=
                  match fa.regions[fa.cur + 1]? with
                  | some (start, _) => start
                  | none => fa.nextFree }

/-- Allocate physically contiguous frames; the result is the base address. -/
def allocFrames (fa : FrameAllocator) (requested : Nat) : FrameAllocator × Option Nat :=
  let count := max requested 1
  match takeFree (count * pageSize % wordLimit) fa.free with
  | some (base, free) =>
      ({ fa with free := free, allocatedFrames := fa.allocatedFrames + count }, some base)
  | none => bump count (fa.regions.length - fa.cur) fa

/-- Put `[start, stop)` between the ranges below and above it, merging with a
neighbour it touches. -/
def insertRange (below above : List (Nat × Nat)) (start stop : Nat) : List (Nat × Nat) :=
  match below.getLast?, above with
  | some (base, last), (next, final) :: rest =>
      if last = start then
        if next = stop then below.dropLast ++ (base, final) :: rest
        else below.dropLast ++ (base, stop) :: above
      else if next = stop then below ++ (start, final) :: rest
      else below ++ (start, stop) :: above
  | some (base, last), [] =>
      if last = start then below.dropLast ++ [(base, stop)]
      else below ++ [(start, stop)]
  | none, (next, final) :: rest =>
      if next = stop then (start, final) :: rest
      else (start, stop) :: above
  | none, [] => [(start, stop)]

/-- Return a contiguous range of frames; every assertion of the source is a
panic here. -/
def freeFrames (fa : FrameAllocator) (start count : Nat) : Except Panic FrameAllocator :=
  if count = 0 then .ok fa
  else if start % pageSize ≠ 0 then .error .freeUnaligned
  else if wordLimit ≤ start + count * pageSize then .error .freeOverflow
  else
    let stop := start + count * pageSize
    if ¬ fa.regions.any (fun region => region.1 ≤ start && stop ≤ region.2) then
      .error .freeOutsideUsable
    else if fa.allocatedFrames < count then .error .freeUnderflow
    else
      -- the insertion point is the first free range that begins after `start`
      let below := fa.free.takeWhile (fun range => range.1 ≤ start)
      let above := fa.free.dropWhile (fun range => range.1 ≤ start)
      if below.getLast?.any (fun range => start < range.2) then
        .error .freeOverlapsPreceding
      else if above.head?.any (fun range => range.1 < stop) then
        .error .freeOverlapsFollowing
      else
        .ok { fa with
          free := insertRange below above start stop
          allocatedFrames := fa.allocatedFrames - count }

/-- Frames held and frames in total. -/
def stats (fa : FrameAllocator) : Nat × Nat :=
  (fa.allocatedFrames,
    (fa.regions.map fun region => (region.2 - region.1) / pageSize).sum)

end FrameAllocator

end Redoubt.Kernel
