import Mathlib.Data.List.Nodup
import Mathlib.Data.List.Perm.Basic
import Mathlib.Data.List.TakeWhile
import Redoubt.Kernel.Paging

/-!
# What the frame allocator guarantees

`Holds` relates the allocator to the list of frames that are handed out: they
are page aligned, usable, handed out once, and neither on the free list nor
ahead of the bump cursor.  An allocation adds a block of new frames to the list
and a release takes its block off.
-/

namespace Redoubt.Kernel

open Redoubt.Foundation

/-! ## Ranges of addresses -/

/-- The address lies in one of the ranges. -/
def Within (ranges : List (Nat × Nat)) (address : Nat) : Prop :=
  ∃ range ∈ ranges, range.1 ≤ address ∧ address < range.2

section Within

variable {range : Nat × Nat} {ranges others : List (Nat × Nat)} {address : Nat}

@[simp]
theorem within_nil : ¬ Within [] address := by
  simp [Within]

@[simp]
theorem within_cons : Within (range :: ranges) address ↔
    range.1 ≤ address ∧ address < range.2 ∨ Within ranges address := by
  simp [Within]

@[simp]
theorem within_append : Within (ranges ++ others) address ↔
    Within ranges address ∨ Within others address := by
  simp only [Within, List.mem_append, or_and_right, exists_or]

/-- With aligned bounds an address counts through the start of its page. -/
theorem within_pageFloor (h : ∀ range ∈ ranges, range.1 % pageSize = 0 ∧ range.2 % pageSize = 0) :
    Within ranges (pageFloor address) ↔ Within ranges address := by
  refine exists_congr fun range => and_congr_right fun hmem => ?_
  have haligned := h range hmem
  simp only [pageFloor, pageSize] at haligned ⊢
  omega

end Within

/-- The frames of a contiguous block. -/
def framesOf (base count : Nat) : List Nat :=
  (List.range count).map fun index => base + index * pageSize

section FramesOf

variable {base count frame : Nat}

theorem mem_framesOf :
    frame ∈ framesOf base count ↔ ∃ index < count, base + index * pageSize = frame := by
  simp [framesOf]

@[simp]
theorem length_framesOf : (framesOf base count).length = count := by
  simp [framesOf]

@[simp]
theorem framesOf_one : framesOf base 1 = [base] := by
  simp [framesOf]

theorem nodup_framesOf : (framesOf base count).Nodup := by
  refine List.nodup_range.map fun left right h => ?_
  simp only [pageSize] at h
  omega

/-- For an aligned base the frames of a block are the aligned addresses in it. -/
theorem mem_framesOf_iff (hbase : base % pageSize = 0) : frame ∈ framesOf base count ↔
    frame % pageSize = 0 ∧ base ≤ frame ∧ frame < base + count * pageSize := by
  rw [mem_framesOf]
  simp only [pageSize] at hbase ⊢
  constructor
  · rintro ⟨index, hindex, rfl⟩
    omega
  · rintro ⟨haligned, hlow, hhigh⟩
    exact ⟨(frame - base) / 4096, by omega, by omega⟩

end FramesOf

/-- A sorted list of page-aligned ranges, no two of which touch. -/
structure FreeRanges (ranges : List (Nat × Nat)) : Prop where
  sorted : ranges.Pairwise fun lower upper => lower.2 < upper.1
  proper : ∀ range ∈ ranges, range.1 < range.2 ∧ range.1 % pageSize = 0 ∧ range.2 % pageSize = 0

namespace FreeRanges

variable {range : Nat × Nat} {ranges below above : List (Nat × Nat)} {start stop : Nat}

theorem nil : FreeRanges [] := ⟨.nil, nofun⟩

theorem cons_iff : FreeRanges (range :: ranges) ↔
    (range.1 < range.2 ∧ range.1 % pageSize = 0 ∧ range.2 % pageSize = 0) ∧
      (∀ upper ∈ ranges, range.2 < upper.1) ∧ FreeRanges ranges := by
  constructor
  · rintro ⟨hsorted, hproper⟩
    rw [List.pairwise_cons] at hsorted
    rw [List.forall_mem_cons] at hproper
    exact ⟨hproper.1, hsorted.1, hsorted.2, hproper.2⟩
  · rintro ⟨hrange, habove, hsorted, hproper⟩
    exact ⟨List.pairwise_cons.2 ⟨habove, hsorted⟩, List.forall_mem_cons.2 ⟨hrange, hproper⟩⟩

theorem append_iff : FreeRanges (below ++ above) ↔ FreeRanges below ∧ FreeRanges above ∧
    ∀ lower ∈ below, ∀ upper ∈ above, lower.2 < upper.1 := by
  constructor
  · rintro ⟨hsorted, hproper⟩
    rw [List.pairwise_append] at hsorted
    rw [List.forall_mem_append] at hproper
    exact ⟨⟨hsorted.1, hproper.1⟩, ⟨hsorted.2.1, hproper.2⟩, hsorted.2.2⟩
  · rintro ⟨hbelow, habove, hbetween⟩
    exact ⟨List.pairwise_append.2 ⟨hbelow.sorted, habove.sorted, hbetween⟩,
      List.forall_mem_append.2 ⟨hbelow.proper, habove.proper⟩⟩

/-- Each range begins at an address of the list. -/
theorem within_start (h : FreeRanges ranges) (hmem : range ∈ ranges) : Within ranges range.1 :=
  ⟨range, hmem, le_refl _, (h.proper range hmem).1⟩

/-- Behind the insertion point every range begins later. -/
theorem start_lt_of_mem_dropWhile (h : FreeRanges ranges)
    (hmem : range ∈ ranges.dropWhile fun other => other.1 ≤ start) : start < range.1 := by
  induction ranges with
  | nil => simp at hmem
  | cons first _ ih =>
      obtain ⟨hproper, habove, hrest⟩ := cons_iff.1 h
      by_cases hfirst : first.1 ≤ start
      · rw [List.dropWhile_cons_of_pos (by simpa using hfirst)] at hmem
        exact ih hrest hmem
      · rw [List.dropWhile_cons_of_neg (by simpa using hfirst)] at hmem
        rcases List.mem_cons.1 hmem with rfl | hmem
        · omega
        · have := habove range hmem
          omega

end FreeRanges

namespace FrameAllocator

/-! ## The free list -/

/-- A first fit cuts its block off the free list. -/
theorem takeFree_spec {bytes base : Nat} {free rest : List (Nat × Nat)} (hbytes : 0 < bytes)
    (haligned : bytes % pageSize = 0) (hfree : FreeRanges free)
    (h : takeFree bytes free = some (base, rest)) :
    FreeRanges rest ∧ base % pageSize = 0 ∧
      (∀ address, base ≤ address → address < base + bytes → Within free address) ∧
      ∀ address, Within rest address ↔
        Within free address ∧ ¬ (base ≤ address ∧ address < base + bytes) := by
  induction free generalizing rest with
  | nil => cases h
  | cons first others ih =>
      obtain ⟨start, stop⟩ := first
      obtain ⟨hproper, habove, hothers⟩ := FreeRanges.cons_iff.1 hfree
      -- the ranges behind the first one lie above it
      have hlater : ∀ address, Within others address → stop < address := by
        rintro address ⟨range, hmem, hlow, -⟩
        exact lt_of_lt_of_le (habove range hmem) hlow
      simp only [takeFree] at h
      simp only [pageSize] at hproper haligned ⊢
      by_cases hfits : bytes ≤ stop - start
      · rw [if_pos hfits] at h
        by_cases hexact : stop - start = bytes
        · rw [if_pos hexact] at h
          cases h
          refine ⟨hothers, hproper.2.1, fun address hlow hhigh => ?_, fun address => ?_⟩
          · exact within_cons.2 (.inl ⟨hlow, by dsimp only; omega⟩)
          · have := hlater address
            grind [within_cons]
        · rw [if_neg hexact] at h
          cases h
          refine ⟨FreeRanges.cons_iff.2 ⟨⟨?_, ?_, hproper.2.2⟩, habove, hothers⟩, hproper.2.1,
            fun address hlow hhigh => ?_, fun address => ?_⟩
          · dsimp only
            omega
          · simp only [pageSize]
            omega
          · exact within_cons.2 (.inl ⟨hlow, by dsimp only; omega⟩)
          · have := hlater address
            grind [within_cons]
      · rw [if_neg hfits] at h
        obtain ⟨⟨found, tail⟩, hfound, heq⟩ := Option.map_eq_some_iff.1 h
        cases heq
        obtain ⟨hranges, hbase, hblock, hrest⟩ := ih hothers hfound
        refine ⟨FreeRanges.cons_iff.2 ⟨hproper, fun upper hupper => ?_, hranges⟩, hbase, ?_, ?_⟩
        · exact hlater upper.1 ((hrest upper.1).1 (hranges.within_start hupper)).1
        · exact fun address hlow hhigh => within_cons.2 (.inr (hblock address hlow hhigh))
        · intro address
          have hnot := hblock address
          have := hlater address
          grind [within_cons]

/-- Inserting a range that overlaps no other keeps the list sorted and coalesced
and adds exactly the range. -/
theorem insertRange_spec {below above : List (Nat × Nat)} {start stop : Nat}
    (hranges : FreeRanges (below ++ above)) (hproper : start < stop)
    (hstart : start % pageSize = 0) (hstop : stop % pageSize = 0)
    (hbelow : ∀ range ∈ below, range.2 ≤ start) (habove : ∀ range ∈ above, stop ≤ range.1) :
    FreeRanges (insertRange below above start stop) ∧
      ∀ address, Within (insertRange below above start stop) address ↔
        Within (below ++ above) address ∨ start ≤ address ∧ address < stop := by
  -- the neighbours are the last range below and the first one above
  rcases List.eq_nil_or_concat below with rfl | ⟨lower, ⟨base, last⟩, rfl⟩
  · cases above with
    | nil => simp [insertRange, FreeRanges.cons_iff, FreeRanges.nil, hproper, hstart, hstop]
    | cons first =>
        obtain ⟨next, final⟩ := first
        have hnext : stop ≤ next := habove (next, final) List.mem_cons_self
        simp only [insertRange, List.getLast?_nil, List.nil_append] at hranges ⊢
        split_ifs <;> grind [FreeRanges.cons_iff, within_cons]
  · have hlast : last ≤ start := hbelow (base, last) (by simp)
    cases above with
    | nil =>
        simp only [insertRange, List.concat_eq_append, List.getLast?_append, List.getLast?_singleton,
          List.dropLast_concat, List.append_nil, Option.some_or] at hranges ⊢
        split_ifs <;> simp only [FreeRanges.append_iff, FreeRanges.cons_iff, within_append,
          within_cons, List.forall_mem_cons] at hranges ⊢ <;> grind
    | cons first =>
        obtain ⟨next, final⟩ := first
        have hnext : stop ≤ next := habove (next, final) List.mem_cons_self
        simp only [insertRange, List.concat_eq_append, List.getLast?_append, List.getLast?_singleton,
          List.dropLast_concat, Option.some_or, List.append_assoc, List.singleton_append] at hranges ⊢
        split_ifs <;> simp only [FreeRanges.append_iff, FreeRanges.cons_iff, within_append,
          within_cons, List.forall_mem_cons] at hranges ⊢ <;> grind

/-! ## The bump cursor -/

/-- What lies ahead of the bump cursor. -/
def unbumped (fa : FrameAllocator) : List (Nat × Nat) :=
  match fa.regions.drop fa.cur with
  | [] => []
  | (_, stop) :: rest => (pageCeil fa.nextFree, stop) :: rest

/-- One past the largest physical address. -/
def physLimit : Nat := 2 ^ 52

/-- Usable regions: not empty, page aligned, physical and pairwise disjoint. -/
structure Usable (regions : List (Nat × Nat)) : Prop where
  proper : ∀ region ∈ regions, region.1 < region.2
  aligned : ∀ region ∈ regions, region.1 % pageSize = 0 ∧ region.2 % pageSize = 0
  physical : ∀ region ∈ regions, region.2 ≤ physLimit
  disjoint : regions.Pairwise fun left right => left.2 ≤ right.1 ∨ right.2 ≤ left.1

theorem Usable.start_le {regions : List (Nat × Nat)} (h : Usable regions) {region : Nat × Nat}
    (hmem : region ∈ regions) : region.1 ≤ physLimit :=
  (h.proper region hmem).le.trans (h.physical region hmem)

/-- A request that no physical address is too large to be added to. -/
def Fits (requested : Nat) : Prop := max requested 1 * pageSize + physLimit < wordLimit

instance (requested : Nat) : Decidable (Fits requested) := inferInstanceAs (Decidable (_ < _))

/-- The allocator has handed out exactly these frames. -/
structure Holds (fa : FrameAllocator) (held : List Nat) : Prop where
  usable : Usable fa.regions
  cursor : ∀ region rest, fa.regions.drop fa.cur = region :: rest → region.1 ≤ fa.nextFree
  reach : fa.nextFree ≤ physLimit
  free : FreeRanges fa.free
  freeUsable : ∀ address, Within fa.free address → Within fa.regions address
  freeBumped : ∀ address, Within fa.free address → ¬ Within fa.unbumped address
  nodup : held.Nodup
  aligned : ∀ frame ∈ held, frame % pageSize = 0
  inside : ∀ frame ∈ held, Within fa.regions frame
  notFree : ∀ frame ∈ held, ¬ Within fa.free frame
  bumped : ∀ frame ∈ held, ¬ Within fa.unbumped frame
  counted : fa.allocatedFrames = held.length

namespace Holds

variable {fa : FrameAllocator} {held other : List Nat}

theorem perm (h : fa.Holds held) (hperm : held.Perm other) : fa.Holds other where
  usable := h.usable
  cursor := h.cursor
  reach := h.reach
  free := h.free
  freeUsable := h.freeUsable
  freeBumped := h.freeBumped
  nodup := hperm.nodup h.nodup
  aligned := fun frame hmem => h.aligned frame (hperm.mem_iff.2 hmem)
  inside := fun frame hmem => h.inside frame (hperm.mem_iff.2 hmem)
  notFree := fun frame hmem => h.notFree frame (hperm.mem_iff.2 hmem)
  bumped := fun frame hmem => h.bumped frame (hperm.mem_iff.2 hmem)
  counted := h.counted.trans hperm.length_eq

/-- What is handed out is a physical frame. -/
theorem lt_physLimit (h : fa.Holds held) {frame : Nat} (hmem : frame ∈ held) : frame < physLimit := by
  obtain ⟨region, hregion, -, hlt⟩ := h.inside frame hmem
  exact lt_of_lt_of_le hlt (h.usable.physical region hregion)

end Holds

theorem pageCeil_of_aligned {address : Nat} (h : address % pageSize = 0) :
    pageCeil address = address := by
  simp only [pageCeil, pageSize] at h ⊢
  omega

theorem le_pageCeil (address : Nat) : address ≤ pageCeil address := by
  simp only [pageCeil, pageSize]
  omega

theorem pageCeil_aligned (address : Nat) : pageCeil address % pageSize = 0 := by
  simp only [pageCeil, pageSize]
  omega

/-- The cursor leaves a region that is too small. -/
def nextRegion (fa : FrameAllocator) : FrameAllocator :=
  { fa with
    cur := fa.cur + 1
    nextFree :=
      match fa.regions[fa.cur + 1]? with
      | some (start, _) => start
      | none => fa.nextFree }

/-- The cursor moves up in its region by `count` frames. -/
def advance (fa : FrameAllocator) (count : Nat) : FrameAllocator :=
  { fa with
    nextFree := pageCeil fa.nextFree + count * pageSize
    allocatedFrames := fa.allocatedFrames + count }

/-- A request that fits is compared with the end of the region without wrapping. -/
theorem bump_succ {fa : FrameAllocator} {count : Nat} (hreach : fa.nextFree ≤ physLimit)
    (hfits : count * pageSize + physLimit < wordLimit) (fuel : Nat) :
    bump count (fuel + 1) fa =
      match fa.regions[fa.cur]? with
      | none => (fa, none)
      | some (_, stop) =>
          if pageCeil fa.nextFree + count * pageSize ≤ stop then
            (fa.advance count, some (pageCeil fa.nextFree))
          else bump count fuel fa.nextRegion := by
  have hceil : pageCeil fa.nextFree ≤ physLimit := by
    simp only [pageCeil, pageSize, physLimit] at hreach ⊢
    omega
  have haligned : pageCeil fa.nextFree % wordLimit = pageCeil fa.nextFree := Nat.mod_eq_of_lt (by omega)
  have hafter : (pageCeil fa.nextFree + count * pageSize) % wordLimit =
      pageCeil fa.nextFree + count * pageSize := Nat.mod_eq_of_lt (by omega)
  rw [bump]
  simp only [haligned, hafter]
  rfl

section Cursor

variable {fa : FrameAllocator} {held : List Nat} {start stop : Nat}

theorem drop_cur (h : fa.regions[fa.cur]? = some (start, stop)) :
    fa.regions.drop fa.cur = (start, stop) :: fa.regions.drop (fa.cur + 1) := by
  obtain ⟨hlt, hget⟩ := List.getElem?_eq_some_iff.1 h
  rw [← hget]
  exact List.drop_eq_getElem_cons hlt

theorem unbumped_eq (h : fa.regions[fa.cur]? = some (start, stop)) :
    fa.unbumped = (pageCeil fa.nextFree, stop) :: fa.regions.drop (fa.cur + 1) := by
  rw [unbumped, drop_cur h]

theorem unbumped_aligned (usable : Usable fa.regions) :
    ∀ range ∈ fa.unbumped, range.1 % pageSize = 0 ∧ range.2 % pageSize = 0 := by
  intro range hmem
  unfold unbumped at hmem
  split at hmem
  · simp at hmem
  · rename_i first stop rest hdrop
    have hregions : ∀ region ∈ (first, stop) :: rest, region ∈ fa.regions :=
      fun region hregion => (List.drop_sublist _ _).subset (hdrop ▸ hregion)
    rcases List.mem_cons.1 hmem with rfl | hmem
    · exact ⟨pageCeil_aligned _, (usable.aligned _ (hregions _ List.mem_cons_self)).2⟩
    · exact usable.aligned range (hregions range (List.mem_cons_of_mem _ hmem))

/-- Regions behind the cursor's own are apart from it. -/
theorem Holds.later_apart (hold : fa.Holds held) (h : fa.regions[fa.cur]? = some (start, stop))
    {address : Nat} (hlow : start ≤ address) (hhigh : address < stop) :
    ¬ Within (fa.regions.drop (fa.cur + 1)) address := by
  rintro ⟨region, hmem, hin⟩
  have hpair := hold.usable.disjoint.sublist (List.drop_sublist fa.cur fa.regions)
  rw [drop_cur h, List.pairwise_cons] at hpair
  rcases hpair.1 region hmem with hle | hle <;> dsimp only at hle <;> omega

theorem unbumped_nextRegion (usable : Usable fa.regions) :
    fa.nextRegion.unbumped = fa.regions.drop (fa.cur + 1) := by
  cases hnext : fa.regions[fa.cur + 1]? with
  | none =>
      rw [unbumped, nextRegion, List.drop_eq_nil_of_le (List.getElem?_eq_none_iff.1 hnext)]
  | some region =>
      obtain ⟨first, last⟩ := region
      have hmem : (first, last) ∈ fa.regions := List.mem_of_getElem? hnext
      have hdrop : fa.regions.drop (fa.cur + 1) = (first, last) :: fa.regions.drop (fa.cur + 1 + 1) :=
        @drop_cur fa.nextRegion first last hnext
      rw [@unbumped_eq fa.nextRegion first last hnext, hdrop]
      simp only [nextRegion, hnext]
      rw [pageCeil_of_aligned (usable.aligned _ hmem).1]

theorem nextRegion_reach (usable : Usable fa.regions) (hreach : fa.nextFree ≤ physLimit) :
    fa.nextRegion.nextFree ≤ physLimit := by
  cases hnext : fa.regions[fa.cur + 1]? with
  | none =>
      simp only [nextRegion, hnext]
      exact hreach
  | some =>
      simp only [nextRegion, hnext]
      exact usable.start_le (List.mem_of_getElem? hnext)

/-- Moving on to the next region only gives memory up. -/
theorem Holds.nextRegion (hold : fa.Holds held) (h : fa.regions[fa.cur]? = some (start, stop)) :
    fa.nextRegion.Holds held := by
  have hsub : ∀ address, Within fa.nextRegion.unbumped address → Within fa.unbumped address := by
    intro address hin
    rw [unbumped_nextRegion hold.usable] at hin
    rw [unbumped_eq h]
    exact within_cons.2 (.inr hin)
  refine ⟨hold.usable, ?_, ?_, hold.free, hold.freeUsable, ?_, hold.nodup, hold.aligned, hold.inside,
    hold.notFree, ?_, hold.counted⟩
  · intro region rest hdrop
    have hnext : fa.regions[fa.cur + 1]? = some region := by
      have := congrArg List.head? hdrop
      rwa [List.head?_drop, List.head?_cons] at this
    simp only [FrameAllocator.nextRegion, hnext]
    exact le_refl _
  · exact nextRegion_reach hold.usable hold.reach
  · exact fun address hfree hin => hold.freeBumped address hfree (hsub address hin)
  · exact fun frame hmem hin => hold.bumped frame hmem (hsub frame hin)

theorem unbumped_advance (h : fa.regions[fa.cur]? = some (start, stop)) (count : Nat) :
    (fa.advance count).unbumped =
      (pageCeil fa.nextFree + count * pageSize, stop) :: fa.regions.drop (fa.cur + 1) := by
  have haligned := pageCeil_aligned fa.nextFree
  rw [@unbumped_eq (fa.advance count) start stop h]
  simp only [advance]
  rw [pageCeil_of_aligned]
  simp only [pageSize] at haligned ⊢
  omega

/-- The block that the cursor passes is new. -/
theorem Holds.advance (hold : fa.Holds held) (h : fa.regions[fa.cur]? = some (start, stop))
    {count : Nat} (hroom : pageCeil fa.nextFree + count * pageSize ≤ stop) :
    (fa.advance count).Holds (framesOf (pageCeil fa.nextFree) count ++ held) := by
  have haligned := pageCeil_aligned fa.nextFree
  have hstart : start ≤ pageCeil fa.nextFree :=
    (hold.cursor _ _ (drop_cur h)).trans (le_pageCeil _)
  have hmem := @mem_framesOf_iff (pageCeil fa.nextFree) count
  have hahead := unbumped_advance h count
  have hsub : ∀ address, Within (fa.advance count).unbumped address → Within fa.unbumped address := by
    intro address
    rw [hahead, unbumped_eq h]
    simp only [within_cons]
    rintro (hin | hin)
    · exact .inl ⟨by omega, hin.2⟩
    · exact .inr hin
  -- before the step the block was ahead of the cursor
  have hblock : ∀ frame ∈ framesOf (pageCeil fa.nextFree) count, Within fa.unbumped frame := by
    intro frame hframe
    rw [hmem haligned] at hframe
    rw [unbumped_eq h]
    exact within_cons.2 (.inl ⟨hframe.2.1, by dsimp only; omega⟩)
  refine ⟨hold.usable, ?_, ?_, hold.free, hold.freeUsable, ?_, ?_, ?_, ?_, ?_, ?_, ?_⟩
  · intro region rest hdrop
    have hcursor := hold.cursor region rest hdrop
    have := le_pageCeil fa.nextFree
    simp only [FrameAllocator.advance]
    omega
  · exact hroom.trans (hold.usable.physical _ (List.mem_of_getElem? h))
  · exact fun address hfree hin => hold.freeBumped address hfree (hsub address hin)
  · refine List.nodup_append.2 ⟨nodup_framesOf, hold.nodup, ?_⟩
    rintro frame hnew _ hold' rfl
    exact hold.bumped frame hold' (hblock frame hnew)
  · rw [List.forall_mem_append]
    exact ⟨fun frame hframe => ((hmem haligned).1 hframe).1, hold.aligned⟩
  · rw [List.forall_mem_append]
    refine ⟨fun frame hframe => ?_, hold.inside⟩
    rw [hmem haligned] at hframe
    exact ⟨(start, stop), List.mem_of_getElem? h, by dsimp only; omega, by dsimp only; omega⟩
  · rw [List.forall_mem_append]
    exact ⟨fun frame hframe hfree => hold.freeBumped frame hfree (hblock frame hframe), hold.notFree⟩
  · rw [List.forall_mem_append]
    refine ⟨fun frame hframe hin => ?_, fun frame hframe hin => hold.bumped frame hframe (hsub frame hin)⟩
    rw [hmem haligned] at hframe
    rw [hahead, within_cons] at hin
    rcases hin with hin | hin
    · dsimp only at hin
      omega
    · exact hold.later_apart h (by omega) (by omega) hin
  · rw [List.length_append, length_framesOf, ← hold.counted]
    exact Nat.add_comm ..

theorem bump_spec {count fuel : Nat} (hold : fa.Holds held)
    (hfits : count * pageSize + physLimit < wordLimit) :
    match (bump count fuel fa).2 with
    | none => (bump count fuel fa).1.Holds held
    | some base => (bump count fuel fa).1.Holds (framesOf base count ++ held) := by
  induction fuel generalizing fa with
  | zero => exact hold
  | succ _ ih =>
      rw [bump_succ hold.reach hfits]
      cases hregion : fa.regions[fa.cur]? with
      | none => exact hold
      | some region =>
          obtain ⟨start, stop⟩ := region
          dsimp only
          split_ifs with hroom
          · exact hold.advance hregion hroom
          · exact ih (hold.nextRegion hregion)

end Cursor

/-! ## Requests -/

variable {fa : FrameAllocator} {held : List Nat}

/-- A first fit from the free list hands out new frames. -/
theorem Holds.takeFree {count base : Nat} {rest : List (Nat × Nat)} (hold : fa.Holds held)
    (hcount : 0 < count) (h : FrameAllocator.takeFree (count * pageSize) fa.free = some (base, rest)) :
    ({ fa with free := rest, allocatedFrames := fa.allocatedFrames + count } : FrameAllocator).Holds
      (framesOf base count ++ held) := by
  have hbytes : 0 < count * pageSize := by
    simp only [pageSize]
    omega
  obtain ⟨hranges, hbase, hblock, hrest⟩ :=
    takeFree_spec hbytes (Nat.mul_mod_left count pageSize) hold.free h
  have hin : ∀ frame ∈ framesOf base count, Within fa.free frame := by
    intro frame hframe
    rw [mem_framesOf_iff hbase] at hframe
    exact hblock frame hframe.2.1 hframe.2.2
  refine ⟨hold.usable, hold.cursor, hold.reach, hranges, ?_, ?_, ?_, ?_, ?_, ?_, ?_, ?_⟩
  · exact fun address hfree => hold.freeUsable address ((hrest address).1 hfree).1
  · exact fun address hfree => hold.freeBumped address ((hrest address).1 hfree).1
  · refine List.nodup_append.2 ⟨nodup_framesOf, hold.nodup, ?_⟩
    rintro frame hnew _ hold' rfl
    exact hold.notFree frame hold' (hin frame hnew)
  · rw [List.forall_mem_append]
    exact ⟨fun frame hframe => ((mem_framesOf_iff hbase).1 hframe).1, hold.aligned⟩
  · rw [List.forall_mem_append]
    exact ⟨fun frame hframe => hold.freeUsable frame (hin frame hframe), hold.inside⟩
  · rw [List.forall_mem_append]
    refine ⟨fun frame hframe hfree => ?_, fun frame hframe hfree => ?_⟩
    · exact ((hrest frame).1 hfree).2 ((mem_framesOf_iff hbase).1 hframe).2
    · exact hold.notFree frame hframe ((hrest frame).1 hfree).1
  · rw [List.forall_mem_append]
    exact ⟨fun frame hframe => hold.freeBumped frame (hin frame hframe), hold.bumped⟩
  · rw [List.length_append, length_framesOf, ← hold.counted]
    exact Nat.add_comm ..

/-- An allocation hands out a block of new frames or nothing. -/
theorem allocFrames_spec (hold : fa.Holds held) {requested : Nat} (hfits : Fits requested) :
    match (fa.allocFrames requested).2 with
    | none => (fa.allocFrames requested).1.Holds held
    | some base => (fa.allocFrames requested).1.Holds (framesOf base (max requested 1) ++ held) := by
  have hbytes : max requested 1 * pageSize % wordLimit = max requested 1 * pageSize :=
    Nat.mod_eq_of_lt (lt_of_le_of_lt (Nat.le_add_right _ _) hfits)
  unfold allocFrames
  dsimp only
  rw [hbytes]
  cases htake : takeFree (max requested 1 * pageSize) fa.free with
  | none => exact bump_spec hold hfits
  | some found =>
      obtain ⟨base, rest⟩ := found
      exact hold.takeFree (by omega) htake

/-! ## The free side -/

/-- Cut a block off the first range that has room for it; the ranges before it are
given up. -/
def carve (bytes : Nat) : List (Nat × Nat) → Option Nat × List (Nat × Nat)
  | [] => (none, [])
  | range :: ranges =>
      if range.1 + bytes ≤ range.2 then (some range.1, (range.1 + bytes, range.2) :: ranges)
      else carve bytes ranges

/-- The allocator's cursor is in physical memory. -/
structure Steady (fa : FrameAllocator) : Prop where
  usable : Usable fa.regions
  reach : fa.nextFree ≤ physLimit

theorem Holds.steady (hold : fa.Holds held) : fa.Steady := ⟨hold.usable, hold.reach⟩

theorem unbumped_eq_nil (h : fa.regions.length ≤ fa.cur) : fa.unbumped = [] := by
  rw [unbumped, List.drop_eq_nil_of_le h]

/-- The bump loop carves its block off what is ahead of the cursor. -/
theorem bump_carve {count fuel : Nat} (steady : fa.Steady)
    (hfits : count * pageSize + physLimit < wordLimit) (hfuel : fa.regions.length ≤ fa.cur + fuel) :
    (bump count fuel fa).2 = (carve (count * pageSize) fa.unbumped).1 ∧
      (bump count fuel fa).1.unbumped = (carve (count * pageSize) fa.unbumped).2 ∧
      (bump count fuel fa).1.free = fa.free ∧ (bump count fuel fa).1.regions = fa.regions ∧
      (bump count fuel fa).1.allocatedFrames =
        fa.allocatedFrames + (carve (count * pageSize) fa.unbumped).1.elim 0 (fun _ => count) ∧
      (bump count fuel fa).1.Steady := by
  induction fuel generalizing fa with
  | zero =>
      rw [unbumped_eq_nil hfuel]
      exact ⟨rfl, unbumped_eq_nil hfuel, rfl, rfl, rfl, steady⟩
  | succ fuel ih =>
      rw [bump_succ steady.reach hfits]
      cases hregion : fa.regions[fa.cur]? with
      | none =>
          have hnil := unbumped_eq_nil (List.getElem?_eq_none_iff.1 hregion)
          refine ⟨?_, ?_, rfl, rfl, ?_, steady⟩ <;> rw [hnil] <;> rfl
      | some region =>
          obtain ⟨start, stop⟩ := region
          rw [unbumped_eq hregion, carve]
          dsimp only
          split_ifs with hroom
          · refine ⟨rfl, unbumped_advance hregion count, rfl, rfl, rfl, steady.usable, ?_⟩
            exact hroom.trans (steady.usable.physical _ (List.mem_of_getElem? hregion))
          · have hnext : fa.nextRegion.Steady :=
              ⟨steady.usable, nextRegion_reach steady.usable steady.reach⟩
            have hfuel' : fa.nextRegion.regions.length ≤ fa.nextRegion.cur + fuel := by
              dsimp only [nextRegion]
              omega
            rw [← unbumped_nextRegion steady.usable]
            exact ih hnext hfuel'

/-- The two ways an allocation is answered. -/
theorem allocFrames_cases {requested : Nat} (steady : fa.Steady) (hfits : Fits requested) :
    (∃ base rest, takeFree (max requested 1 * pageSize) fa.free = some (base, rest) ∧
      fa.allocFrames requested =
        ({ fa with free := rest, allocatedFrames := fa.allocatedFrames + max requested 1 }, some base)) ∨
    (takeFree (max requested 1 * pageSize) fa.free = none ∧ ∃ after answer,
      fa.allocFrames requested = (after, answer) ∧
      carve (max requested 1 * pageSize) fa.unbumped = (answer, after.unbumped) ∧
      after.free = fa.free ∧ after.regions = fa.regions ∧
      after.allocatedFrames = fa.allocatedFrames + answer.elim 0 (fun _ => max requested 1) ∧
      after.Steady) := by
  have hbytes : max requested 1 * pageSize % wordLimit = max requested 1 * pageSize :=
    Nat.mod_eq_of_lt (lt_of_le_of_lt (Nat.le_add_right _ _) hfits)
  unfold allocFrames
  dsimp only
  rw [hbytes]
  cases htake : takeFree (max requested 1 * pageSize) fa.free with
  | some found => exact .inl ⟨found.1, found.2, rfl, rfl⟩
  | none =>
      obtain ⟨hanswer, hahead, hfree, hregions, hcount, hsteady⟩ :=
        bump_carve steady hfits (by omega : fa.regions.length ≤ fa.cur + (fa.regions.length - fa.cur))
      exact .inr ⟨rfl, _, _, rfl, Prod.ext hanswer.symm hahead.symm, hfree, hregions,
        hanswer ▸ hcount, hsteady⟩

/-- The address is not on the allocator's free side. -/
def OffFree (fa : FrameAllocator) (address : Nat) : Prop :=
  ¬ Within fa.free address ∧ ¬ Within fa.unbumped address

theorem Holds.offFree {frame : Nat} (hold : fa.Holds held) (hmem : frame ∈ held) : fa.OffFree frame :=
  ⟨hold.notFree frame hmem, hold.bumped frame hmem⟩

theorem carve_within {bytes : Nat} {ranges after : List (Nat × Nat)} {answer : Option Nat}
    (h : carve bytes ranges = (answer, after)) :
    (∀ address, Within after address → Within ranges address) ∧
      ∀ base, answer = some base → ∀ address, base ≤ address → address < base + bytes →
        Within ranges address := by
  induction ranges with
  | nil =>
      cases h
      exact ⟨fun _ => id, nofun⟩
  | cons _ _ ih =>
      rw [carve] at h
      split_ifs at h with hroom
      · cases h
        refine ⟨fun address hin => ?_, ?_⟩
        · rw [within_cons] at hin ⊢
          exact hin.imp_left fun hfirst => ⟨by omega, hfirst.2⟩
        · rintro base ⟨⟩ address hlow hhigh
          exact within_cons.2 (.inl ⟨hlow, by omega⟩)
      · obtain ⟨hafter, hblock⟩ := ih h
        refine ⟨fun address hin => within_cons.2 (.inr (hafter address hin)), ?_⟩
        exact fun base hanswer address hlow hhigh =>
          within_cons.2 (.inr (hblock base hanswer address hlow hhigh))

/-- An allocation only takes from the free side. -/
theorem allocFrames_offFree {requested : Nat} (hold : fa.Holds held) (hfits : Fits requested) :
    (∀ address, fa.OffFree address → (fa.allocFrames requested).1.OffFree address) ∧
      ∀ base, (fa.allocFrames requested).2 = some base →
        ∀ frame ∈ framesOf base (max requested 1), ¬ fa.OffFree frame := by
  have hblock : ∀ {base frame}, frame ∈ framesOf base (max requested 1) →
      base ≤ frame ∧ frame < base + max requested 1 * pageSize := by
    intro base frame hmem
    obtain ⟨index, hindex, rfl⟩ := mem_framesOf.1 hmem
    simp only [pageSize]
    omega
  rcases allocFrames_cases hold.steady hfits with ⟨base, rest, htake, halloc⟩ |
    ⟨-, after, answer, halloc, hcarve, hfree, -⟩
  · have hbytes : 0 < max requested 1 * pageSize := by
      simp only [pageSize]
      omega
    obtain ⟨-, -, hin, hrest⟩ := takeFree_spec hbytes (Nat.mul_mod_left _ _) hold.free htake
    rw [halloc]
    refine ⟨fun address hoff => ⟨fun hwithin => hoff.1 ((hrest address).1 hwithin).1, hoff.2⟩, ?_⟩
    rintro _ ⟨⟩ frame hmem hoff
    exact hoff.1 (hin frame (hblock hmem).1 (hblock hmem).2)
  · obtain ⟨hahead, hin⟩ := carve_within hcarve
    rw [halloc]
    refine ⟨fun address hoff => ⟨hfree ▸ hoff.1, fun hwithin => hoff.2 (hahead address hwithin)⟩, ?_⟩
    intro base hanswer frame hmem hoff
    exact hoff.2 (hin base hanswer frame (hblock hmem).1 (hblock hmem).2)

/-! ## Releases -/

/-- One usable region contains the block. -/
def OneRegion (regions : List (Nat × Nat)) (start count : Nat) : Prop :=
  ∃ region ∈ regions, region.1 ≤ start ∧ start + count * pageSize ≤ region.2

/-- The free ranges below and above the point where a block goes back. -/
def freeBelow (fa : FrameAllocator) (start : Nat) : List (Nat × Nat) :=
  fa.free.takeWhile fun range => range.1 ≤ start

def freeAbove (fa : FrameAllocator) (start : Nat) : List (Nat × Nat) :=
  fa.free.dropWhile fun range => range.1 ≤ start

/-- The allocator with a block back on its free list. -/
def freed (fa : FrameAllocator) (start count : Nat) : FrameAllocator :=
  { fa with
    free := insertRange (fa.freeBelow start) (fa.freeAbove start) start (start + count * pageSize)
    allocatedFrames := fa.allocatedFrames - count }

section Release

variable {start count : Nat} {rest : List Nat}

theorem Holds.start_mem (hold : fa.Holds (framesOf start count ++ rest)) (hcount : 0 < count) :
    start % pageSize = 0 ∧ ¬ Within fa.free start := by
  have hmem : start ∈ framesOf start count ++ rest :=
    List.mem_append_left _ (mem_framesOf.2 ⟨0, hcount, by simp⟩)
  exact ⟨hold.aligned start hmem, hold.notFree start hmem⟩

theorem Holds.freeBelow_le (hold : fa.Holds (framesOf start count ++ rest)) (hcount : 0 < count) :
    ∀ range ∈ fa.freeBelow start, range.2 ≤ start := by
  intro range hrange
  have hle : range.1 ≤ start := by simpa using List.mem_takeWhile_imp hrange
  by_contra hover
  exact (hold.start_mem hcount).2 ⟨range, (List.takeWhile_sublist _).subset hrange, hle, by omega⟩

theorem Holds.le_freeAbove (hold : fa.Holds (framesOf start count ++ rest)) (hcount : 0 < count) :
    ∀ range ∈ fa.freeAbove start, start + count * pageSize ≤ range.1 := by
  intro range hrange
  have hlt := hold.free.start_lt_of_mem_dropWhile hrange
  have hfree : range ∈ fa.free := (List.dropWhile_sublist _).subset hrange
  by_contra hover
  have hmem : range.1 ∈ framesOf start count := (mem_framesOf_iff (hold.start_mem hcount).1).2
    ⟨(hold.free.proper range hfree).2.1, by omega, by omega⟩
  exact hold.notFree range.1 (List.mem_append_left _ hmem) (hold.free.within_start hfree)

/-- A block of handed-out frames fails no assertion but the one on regions. -/
theorem Holds.freeFrames_eq (hold : fa.Holds (framesOf start count ++ rest)) (hcount : 0 < count)
    (hregion : OneRegion fa.regions start count) :
    fa.freeFrames start count = .ok (fa.freed start count) := by
  have hheld := hold.counted
  rw [List.length_append, length_framesOf] at hheld
  obtain ⟨region, hmem, hlow, hhigh⟩ := hregion
  have hlimit := hold.usable.physical region hmem
  have hword : ¬ wordLimit ≤ start + count * pageSize := by
    simp only [wordLimit, physLimit] at hlimit ⊢
    omega
  have hany : fa.regions.any (fun region => region.1 ≤ start && start + count * pageSize ≤ region.2) := by
    rw [List.any_eq_true]
    exact ⟨region, hmem, by simp [hlow, hhigh]⟩
  have hlast : ¬ (fa.freeBelow start).getLast?.any (fun range => start < range.2) := by
    rw [Option.any_eq_true]
    rintro ⟨range, hlast, hover⟩
    have := hold.freeBelow_le hcount range (List.mem_of_getLast? hlast)
    simp only [decide_eq_true_eq] at hover
    omega
  have hfirst : ¬ (fa.freeAbove start).head?.any (fun range => range.1 < start + count * pageSize) := by
    rw [Option.any_eq_true]
    rintro ⟨range, hfirst, hover⟩
    have := hold.le_freeAbove hcount range (List.mem_of_head? hfirst)
    simp only [decide_eq_true_eq] at hover
    omega
  unfold freeFrames
  rw [if_neg (by omega), if_neg (not_not.2 (hold.start_mem hcount).1), if_neg hword]
  exact (if_neg (not_not.2 hany)).trans ((if_neg (by omega)).trans ((if_neg hlast).trans (if_neg hfirst)))

/-- The free list afterwards is the old one with the block. -/
theorem Holds.within_freed (hold : fa.Holds (framesOf start count ++ rest)) (hcount : 0 < count) :
    FreeRanges (fa.freed start count).free ∧ ∀ address, Within (fa.freed start count).free address ↔
      Within fa.free address ∨ start ≤ address ∧ address < start + count * pageSize := by
  have haligned := (hold.start_mem hcount).1
  have hsplit : fa.freeBelow start ++ fa.freeAbove start = fa.free := List.takeWhile_append_dropWhile
  have hspec := @insertRange_spec _ _ start (start + count * pageSize)
    (hsplit.symm ▸ hold.free) (by simp only [pageSize]; omega) haligned
    (by simp only [pageSize] at haligned ⊢; omega) (hold.freeBelow_le hcount) (hold.le_freeAbove hcount)
  rwa [hsplit] at hspec

theorem Holds.freed (hold : fa.Holds (framesOf start count ++ rest)) (hcount : 0 < count) :
    (fa.freed start count).Holds rest := by
  have haligned := (hold.start_mem hcount).1
  obtain ⟨hranges, hwithin⟩ := hold.within_freed hcount
  obtain ⟨hblock, hrest, hapart⟩ := List.nodup_append.1 hold.nodup
  -- an address of the block counts through its frame
  have hframe : ∀ address, start ≤ address ∧ address < start + count * pageSize →
      pageFloor address ∈ framesOf start count ++ rest := by
    intro address hin
    refine List.mem_append_left _ ((mem_framesOf_iff haligned).2 ?_)
    simp only [pageFloor, pageSize] at haligned hin ⊢
    omega
  refine ⟨hold.usable, hold.cursor, hold.reach, hranges, ?_, ?_, hrest, ?_, ?_, ?_, ?_, ?_⟩
  · intro address hfree
    rcases (hwithin address).1 hfree with hfree | hin
    · exact hold.freeUsable address hfree
    · exact (within_pageFloor hold.usable.aligned).1 (hold.inside _ (hframe address hin))
  · intro address hfree
    rcases (hwithin address).1 hfree with hfree | hin
    · exact hold.freeBumped address hfree
    · exact fun hahead => hold.bumped _ (hframe address hin)
        ((within_pageFloor (unbumped_aligned hold.usable)).2 hahead)
  · exact fun frame hmem => hold.aligned frame (List.mem_append_right _ hmem)
  · exact fun frame hmem => hold.inside frame (List.mem_append_right _ hmem)
  · intro frame hmem hfree
    rcases (hwithin frame).1 hfree with hfree | hin
    · exact hold.notFree frame (List.mem_append_right _ hmem) hfree
    · refine hapart frame ((mem_framesOf_iff haligned).2 ⟨?_, hin⟩) frame hmem rfl
      exact hold.aligned frame (List.mem_append_right _ hmem)
  · exact fun frame hmem => hold.bumped frame (List.mem_append_right _ hmem)
  · have hcounted := hold.counted
    rw [List.length_append, length_framesOf] at hcounted
    simp only [FrameAllocator.freed]
    omega

/-- A single handed-out frame can always be returned. -/
theorem Holds.free_one {frame : Nat} (hold : fa.Holds (frame :: rest)) :
    fa.freeFrames frame 1 = .ok (fa.freed frame 1) ∧ (fa.freed frame 1).Holds rest := by
  have hold' : fa.Holds (framesOf frame 1 ++ rest) := by simpa using hold
  refine ⟨hold'.freeFrames_eq Nat.one_pos ?_, hold'.freed Nat.one_pos⟩
  obtain ⟨region, hmem, hlow, hhigh⟩ := hold.inside frame List.mem_cons_self
  have hregion := hold.usable.aligned region hmem
  have haligned := hold.aligned frame List.mem_cons_self
  refine ⟨region, hmem, hlow, ?_⟩
  simp only [pageSize] at hregion haligned ⊢
  omega

/-- Returning a block either works or stops because the block crosses the
boundary of two usable regions. -/
theorem Holds.free_cases (hold : fa.Holds (framesOf start count ++ rest)) (hcount : 0 < count) :
    (OneRegion fa.regions start count ∧ fa.freeFrames start count = .ok (fa.freed start count) ∧
      (fa.freed start count).Holds rest) ∨
    (¬ OneRegion fa.regions start count ∧
      fa.freeFrames start count = .error .freeOutsideUsable) := by
  by_cases hregion : OneRegion fa.regions start count
  · exact .inl ⟨hregion, hold.freeFrames_eq hcount hregion, hold.freed hcount⟩
  · refine .inr ⟨hregion, ?_⟩
    have hlast : start + (count - 1) * pageSize < physLimit :=
      hold.lt_physLimit (List.mem_append_left _ (mem_framesOf.2 ⟨count - 1, by omega, rfl⟩))
    have hword : ¬ wordLimit ≤ start + count * pageSize := by
      simp only [physLimit, wordLimit, pageSize] at hlast ⊢
      omega
    have hany : ¬ fa.regions.any
        (fun region => region.1 ≤ start && start + count * pageSize ≤ region.2) := by
      rw [List.any_eq_true]
      rintro ⟨region, hmem, hin⟩
      exact hregion ⟨region, hmem, by simpa using hin⟩
    unfold freeFrames
    rw [if_neg (by omega), if_neg (not_not.2 (hold.start_mem hcount).1), if_neg hword]
    exact if_pos hany

end Release

end FrameAllocator

namespace Vm

/-- An allocation of one frame takes it off the free side, or fails and changes
nothing but the allocator's cursor. -/
theorem alloc_cases {vm : Vm} {held : List Nat} (hold : vm.frames.Holds held) :
    (∃ frames, vm.allocFrames 1 = ({ vm with frames := frames }, none) ∧ frames.Holds held ∧
      ∀ address, vm.frames.OffFree address → frames.OffFree address) ∨
    ∃ frames frame, vm.allocFrames 1 = ({ vm with frames := frames }, some frame) ∧
      frames.Holds (frame :: held) ∧ (∀ address, vm.frames.OffFree address → frames.OffFree address) ∧
      ¬ vm.frames.OffFree frame := by
  have hspec := FrameAllocator.allocFrames_spec hold (by decide : FrameAllocator.Fits 1)
  have hoff := FrameAllocator.allocFrames_offFree hold (by decide : FrameAllocator.Fits 1)
  unfold allocFrames
  rcases hresult : vm.frames.allocFrames 1 with ⟨frames, _ | frame⟩
  · rw [hresult] at hspec hoff
    exact .inl ⟨frames, rfl, hspec, hoff.1⟩
  · rw [hresult] at hspec hoff
    simp only [Nat.max_self, framesOf_one, List.singleton_append] at hspec
    refine .inr ⟨frames, frame, rfl, hspec, hoff.1, hoff.2 frame rfl frame ?_⟩
    rw [Nat.max_self, framesOf_one]
    exact List.mem_singleton_self frame

end Vm

end Redoubt.Kernel
