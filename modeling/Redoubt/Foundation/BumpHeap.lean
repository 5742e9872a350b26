import Mathlib.Data.List.Basic
import Mathlib.Order.Basic
import Mathlib.Tactic.SplitIfs

/-!
# Vectors on a heap that is never freed

A process takes memory from a region of fixed size and gives nothing back.  A vector that is
full moves to a new block of twice its capacity, and the old block is lost.  A computation
aborts when the region has no room left, and whether it does depends only on how much it
takes in all.
-/

namespace Redoubt.Foundation

/-- How much of a region is taken. -/
structure BumpHeap (size : Nat) where
  used : Nat
  fits : used ≤ size

/-- A computation that takes memory; none when it aborts. -/
abbrev Alloc (size : Nat) := StateT (BumpHeap size) Option

namespace Alloc

variable {size : Nat} {α β : Type}

/-- Take a block of bytes. -/
def take (bytes : Nat) : Alloc size Unit := fun heap =>
  if fits : heap.used + bytes ≤ size then some ((), ⟨heap.used + bytes, fits⟩) else none

/-- The computation takes this much: with room for it the result is as stated, and without
it aborts. -/
structure Takes (run : Alloc size α) (bytes : Nat) (post : α → Prop) : Prop where
  room : ∀ heap : BumpHeap size, heap.used + bytes ≤ size →
    ∃ value after, run heap = some (value, after) ∧ after.used = heap.used + bytes ∧ post value
  full : ∀ heap : BumpHeap size, size < heap.used + bytes → run heap = none

theorem takes_take (bytes : Nat) : Takes (take bytes : Alloc size Unit) bytes fun _ => True where
  room _ fits := ⟨(), _, dif_pos fits, rfl, trivial⟩
  full _ lacking := dif_neg (Nat.not_le.mpr lacking)

theorem takes_pure {post : α → Prop} {value : α} (h : post value) :
    Takes (pure value : Alloc size α) 0 post where
  room heap _ := ⟨value, heap, rfl, rfl, h⟩
  full heap lacking := absurd heap.fits (Nat.not_le.mpr lacking)

/-- One computation after the other takes what the two take. -/
theorem Takes.bind {run : Alloc size α} {next : α → Alloc size β} {first second : Nat} {mid : α → Prop}
    {post : β → Prop} (h : Takes run first mid)
    (hnext : ∀ value, mid value → Takes (next value) second post) :
    Takes (run >>= next) (first + second) post where
  room heap fits := by
    obtain ⟨value, between, hrun, hused, hmid⟩ := h.room heap (by omega)
    obtain ⟨result, after, hthen, hafter, hpost⟩ := (hnext value hmid).room between (by omega)
    refine ⟨result, after, ?_, by omega, hpost⟩
    change (run heap).bind _ = _
    rw [hrun]
    exact hthen
  full heap lacking := by
    change (run heap).bind _ = _
    by_cases hroom : heap.used + first ≤ size
    · obtain ⟨value, between, hrun, hused, hmid⟩ := h.room heap hroom
      rw [hrun]
      exact (hnext value hmid).full between (by omega)
    · rw [h.full heap (by omega)]
      rfl

theorem Takes.bytes {run : Alloc size α} {bytes other : Nat} {post : α → Prop} (h : Takes run bytes post)
    (heq : bytes = other) : Takes run other post := heq ▸ h

theorem Takes.imp {run : Alloc size α} {bytes : Nat} {post weaker : α → Prop} (h : Takes run bytes post)
    (hpost : ∀ value, post value → weaker value) : Takes run bytes weaker where
  room heap fits := by
    obtain ⟨value, after, hrun, hused, hvalue⟩ := h.room heap fits
    exact ⟨value, after, hrun, hused, hpost value hvalue⟩
  full := h.full

theorem exists_of_bind {run : Alloc size α} {next : α → Alloc size β} {heap after : BumpHeap size}
    {result : β} (h : (run >>= next) heap = some (result, after)) :
    ∃ value between, run heap = some (value, between) ∧ next value between = some (result, after) := by
  obtain ⟨⟨value, between⟩, hfirst, hthen⟩ := Option.bind_eq_some_iff.1 h
  exact ⟨value, between, hfirst, hthen⟩

/-- Every result that is reached is as stated. -/
def Gives (run : Alloc size α) (post : α → Prop) : Prop :=
  ∀ heap value after, run heap = some (value, after) → post value

theorem Gives.pure {post : α → Prop} {value : α} (h : post value) :
    Gives (pure value : Alloc size α) post := by
  intro heap found after hrun
  cases hrun
  exact h

theorem Gives.bind {run : Alloc size α} {next : α → Alloc size β} {mid : α → Prop} {post : β → Prop}
    (h : Gives run mid) (hnext : ∀ value, mid value → Gives (next value) post) :
    Gives (run >>= next) post := by
  intro heap result after hrun
  obtain ⟨value, between, hfirst, hthen⟩ := exists_of_bind hrun
  exact hnext value (h heap value between hfirst) between result after hthen

theorem Gives.imp {run : Alloc size α} {post weaker : α → Prop} (h : Gives run post)
    (hpost : ∀ value, post value → weaker value) : Gives run weaker :=
  fun heap value after hrun => hpost value (h heap value after hrun)

theorem gives_take (bytes : Nat) : Gives (take bytes : Alloc size Unit) fun _ => True :=
  fun _ _ _ _ => trivial

/-- A result that was reached had room. -/
theorem Takes.of_some {run : Alloc size α} {bytes : Nat} {post : α → Prop} (h : Takes run bytes post)
    {heap after : BumpHeap size} {value : α} (hrun : run heap = some (value, after)) :
    heap.used + bytes ≤ size ∧ after.used = heap.used + bytes ∧ post value := by
  by_cases hroom : heap.used + bytes ≤ size
  · obtain ⟨found, between, hfound, hused, hpost⟩ := h.room heap hroom
    rw [hrun, Option.some.injEq, Prod.mk.injEq] at hfound
    obtain ⟨rfl, rfl⟩ := hfound
    exact ⟨hroom, hused, hpost⟩
  · rw [h.full heap (by omega)] at hrun
    cases hrun

end Alloc

/-! ## Vectors -/

/-- A vector of elements of one byte. -/
structure Vec (α : Type) where
  data : List α
  capacity : Nat
  fits : data.length ≤ capacity

namespace Vec

open Alloc

variable {size : Nat} {α : Type}

/-- The capacity after growing for a number of elements. -/
def growCap (capacity need : Nat) : Nat := max (max (2 * capacity) 8) need

def withCapacity (capacity : Nat) : Alloc size (Vec α) := do
  take capacity
  pure ⟨[], capacity, Nat.zero_le _⟩

/-- A copy of a slice, with no room to spare. -/
def ofSlice (slice : List α) : Alloc size (Vec α) := do
  take slice.length
  pure ⟨slice, slice.length, Nat.le_refl _⟩

/-- Append a slice, in a larger block where the vector has no room. -/
def extend (vec : Vec α) (slice : List α) : Alloc size (Vec α) :=
  let need := vec.data.length + slice.length
  if room : need ≤ vec.capacity then
    pure ⟨vec.data ++ slice, vec.capacity, List.length_append.trans_le room⟩
  else do
    take (growCap vec.capacity need)
    pure ⟨vec.data ++ slice, growCap vec.capacity need,
      List.length_append.trans_le (Nat.le_max_right _ _)⟩

def push (vec : Vec α) (item : α) : Alloc size (Vec α) := vec.extend [item]

/-- Append elements one by one. -/
def pushAll (vec : Vec α) (items : List α) : Alloc size (Vec α) := items.foldlM push vec

theorem gives_withCapacity (capacity : Nat) :
    Gives (withCapacity capacity : Alloc size (Vec α)) fun vec => vec.data = [] :=
  (gives_take capacity).bind fun _ _ => .pure rfl

theorem gives_ofSlice (slice : List α) :
    Gives (ofSlice slice : Alloc size (Vec α)) fun vec => vec.data = slice :=
  (gives_take _).bind fun _ _ => .pure rfl

theorem gives_extend (vec : Vec α) (slice : List α) :
    Gives (vec.extend slice : Alloc size (Vec α)) fun next => next.data = vec.data ++ slice := by
  unfold extend
  dsimp only
  split_ifs
  · exact .pure rfl
  · exact (gives_take _).bind fun _ _ => .pure rfl

theorem gives_pushAll (vec : Vec α) (items : List α) :
    Gives (vec.pushAll items : Alloc size (Vec α)) fun next => next.data = vec.data ++ items := by
  induction items generalizing vec with
  | nil => exact .pure (List.append_nil _).symm
  | cons item rest ih =>
      rw [pushAll, List.foldlM_cons, List.append_cons]
      exact (gives_extend vec [item]).bind fun next hnext => hnext ▸ ih next

/-- What the vector holds, and in how large a block. -/
def Holds (data : List α) (capacity : Nat) (vec : Vec α) : Prop :=
  vec.data = data ∧ vec.capacity = capacity

variable {data : List α} {capacity : Nat} {vec : Vec α}

theorem takes_withCapacity (capacity : Nat) :
    Takes (withCapacity capacity : Alloc size (Vec α)) capacity (Holds [] capacity) :=
  (takes_take capacity).bind fun _ _ => takes_pure ⟨rfl, rfl⟩

theorem takes_ofSlice (slice : List α) :
    Takes (ofSlice slice : Alloc size (Vec α)) slice.length (Holds slice slice.length) :=
  (takes_take _).bind fun _ _ => takes_pure ⟨rfl, rfl⟩

theorem takes_extend_room (h : Holds data capacity vec) {slice : List α}
    (room : data.length + slice.length ≤ capacity) :
    Takes (vec.extend slice : Alloc size (Vec α)) 0 (Holds (data ++ slice) capacity) := by
  obtain ⟨rfl, rfl⟩ := h
  rw [extend, dif_pos room]
  exact takes_pure ⟨rfl, rfl⟩

theorem takes_extend_grow (h : Holds data capacity vec) {slice : List α} {grown : Nat}
    (lacking : capacity < data.length + slice.length)
    (grow : growCap capacity (data.length + slice.length) = grown) :
    Takes (vec.extend slice : Alloc size (Vec α)) grown (Holds (data ++ slice) grown) := by
  subst grow
  obtain ⟨rfl, rfl⟩ := h
  rw [extend, dif_neg (Nat.not_le.mpr lacking)]
  exact (takes_take _).bind fun _ _ => takes_pure ⟨rfl, rfl⟩

theorem takes_pushAll_room (h : Holds data capacity vec) {items : List α}
    (room : data.length + items.length ≤ capacity) :
    Takes (vec.pushAll items : Alloc size (Vec α)) 0 (Holds (data ++ items) capacity) := by
  induction items generalizing data vec with
  | nil =>
      rw [List.append_nil]
      exact takes_pure h
  | cons item rest ih =>
      rw [List.length_cons] at room
      rw [pushAll, List.foldlM_cons, List.append_cons]
      have hlength : (data ++ [item]).length = data.length + 1 := List.length_append
      have hpush : Takes (vec.push item : Alloc size (Vec α)) 0 (Holds (data ++ [item]) capacity) :=
        takes_extend_room h (by rw [List.length_singleton]; omega)
      exact hpush.bind fun next hnext => ih hnext (by omega)

/-- Elements that need at most twice the capacity make the vector grow once. -/
theorem takes_pushAll_grow (h : Holds data capacity vec) {items : List α} (large : 4 ≤ capacity)
    (lacking : capacity < data.length + items.length)
    (twice : data.length + items.length ≤ 2 * capacity) :
    Takes (vec.pushAll items : Alloc size (Vec α)) (2 * capacity)
      (Holds (data ++ items) (2 * capacity)) := by
  induction items generalizing data vec with
  | nil =>
      have hfits := vec.fits
      rw [h.1, h.2] at hfits
      exact absurd lacking (Nat.not_lt.mpr hfits)
  | cons item rest ih =>
      rw [List.length_cons] at lacking twice
      rw [pushAll, List.foldlM_cons, List.append_cons]
      have hlength : (data ++ [item]).length = data.length + 1 := List.length_append
      by_cases hfull : capacity < data.length + 1
      · have hgrow : growCap capacity (data.length + 1) = 2 * capacity := by
          unfold growCap
          omega
        have hpush : Takes (vec.push item : Alloc size (Vec α)) (2 * capacity)
            (Holds (data ++ [item]) (2 * capacity)) := takes_extend_grow h hfull hgrow
        exact hpush.bind fun next hnext => takes_pushAll_room hnext (by omega)
      · have hpush : Takes (vec.push item : Alloc size (Vec α)) 0 (Holds (data ++ [item]) capacity) :=
          takes_extend_room h (Nat.not_lt.mp hfull)
        exact (hpush.bind fun next hnext => ih hnext (by omega) (by omega)).bytes (Nat.zero_add _)

end Vec

end Redoubt.Foundation
