import Mathlib.Data.List.Pairwise
import Redoubt.Kernel.FrameSafety

/-!
# Runs of requests to the frame allocator

A run starts with the regions that the bootloader reports and answers allocations and
releases one after the other.  What is handed out stays apart from what is free, a
block goes back unless it crosses from one usable region into the next, and a request
that passes over a region gives up the frames left in it.
-/

namespace Redoubt.Kernel

open Redoubt.Foundation

namespace FrameAllocator

variable {requested : Nat} {ranges : List (Nat × Nat)}

/-! ## Boot -/

/-- The usable regions in a report are physical and pairwise disjoint. -/
structure Reported (reported : List MemoryRegion) : Prop where
  physical : ∀ region ∈ reported, region.usable = true → region.start ≤ region.stop ∧
    region.stop ≤ physLimit
  disjoint : reported.Pairwise fun left right => left.usable = true → right.usable = true →
    left.stop ≤ right.start ∨ right.stop ≤ left.start

variable {reported : List MemoryRegion}

theorem usableRange?_spec {region : MemoryRegion} {range : Nat × Nat}
    (h : usableRange? region = some range) :
    region.usable = true ∧ range.1 < range.2 ∧ region.start ≤ range.1 ∧ range.2 ≤ region.stop ∧
      range.1 % pageSize = 0 ∧ range.2 % pageSize = 0 := by
  unfold usableRange? at h
  dsimp only at h
  split_ifs at h with hkeep
  cases h
  rw [Bool.and_eq_true, decide_eq_true_eq] at hkeep
  refine ⟨hkeep.1, hkeep.2, ?_, ?_, pageCeil_aligned _, Nat.mul_mod_left _ _⟩
  · exact (le_max_left _ _).trans (le_pageCeil _)
  · exact Nat.div_mul_le_self _ _

theorem init_usable (h : Reported reported) : Usable (init reported).regions := by
  have hmem : ∀ range ∈ (init reported).regions, ∃ region ∈ reported, usableRange? region = some range :=
    fun range hrange => List.mem_filterMap.1 (List.mem_of_mem_take hrange)
  refine ⟨fun range hrange => ?_, fun range hrange => ?_, fun range hrange => ?_, ?_⟩
  · obtain ⟨region, -, hsome⟩ := hmem range hrange
    exact (usableRange?_spec hsome).2.1
  · obtain ⟨region, -, hsome⟩ := hmem range hrange
    exact (usableRange?_spec hsome).2.2.2.2
  · obtain ⟨region, hregion, hsome⟩ := hmem range hrange
    have hspec := usableRange?_spec hsome
    exact hspec.2.2.2.1.trans (h.physical region hregion hspec.1).2
  · refine List.Pairwise.sublist (List.take_sublist _ _) (h.disjoint.filterMap _ ?_)
    intro left right happart lower hlower upper hupper
    have hleft := usableRange?_spec hlower
    have hright := usableRange?_spec hupper
    rcases happart hleft.1 hright.1 with hle | hle
    · exact .inl (hleft.2.2.2.1.trans (hle.trans hright.2.2.1))
    · exact .inr (hright.2.2.2.1.trans (hle.trans hleft.2.2.1))

theorem init_holds (h : Reported reported) : (init reported).Holds [] where
  usable := init_usable h
  cursor := by
    intro region rest hdrop
    have hhead : (init reported).regions = region :: rest := hdrop
    change region.1 ≤ ((init reported).regions.head?.map Prod.fst).getD 0
    rw [hhead]
    exact le_refl _
  reach := by
    change ((init reported).regions.head?.map Prod.fst).getD 0 ≤ physLimit
    cases hregions : (init reported).regions with
    | nil => exact Nat.zero_le _
    | cons => exact (init_usable h).start_le (hregions ▸ List.mem_cons_self)
  free := .nil
  freeUsable := fun _ hin => absurd hin within_nil
  freeBumped := fun _ hin => absurd hin within_nil
  nodup := .nil
  aligned := nofun
  inside := nofun
  notFree := nofun
  bumped := nofun
  counted := rfl

/-! ## Runs -/

/-- States of the allocator after some requests, with the frames then handed out.
Allocations meet a condition, and a release is of frames that are handed out. -/
inductive Served (reported : List MemoryRegion) (allowed : FrameAllocator → Nat → Prop) :
    FrameAllocator → List Nat → Prop where
  | start : Served reported allowed (init reported) []
  | granted {fa after : FrameAllocator} {held : List Nat} {requested base : Nat} :
      Served reported allowed fa held → allowed fa requested →
      fa.allocFrames requested = (after, some base) →
      Served reported allowed after (framesOf base (max requested 1) ++ held)
  | refused {fa after : FrameAllocator} {held : List Nat} {requested : Nat} :
      Served reported allowed fa held → allowed fa requested →
      fa.allocFrames requested = (after, none) → Served reported allowed after held
  | released {fa after : FrameAllocator} {held rest : List Nat} {base count : Nat} :
      Served reported allowed fa held → held.Perm (framesOf base count ++ rest) →
      fa.freeFrames base count = .ok after → Served reported allowed after rest

variable {fa after : FrameAllocator} {held rest : List Nat} {allowed : FrameAllocator → Nat → Prop}

/-- What an accepted release does. -/
theorem Holds.released {base count : Nat} (hold : fa.Holds held)
    (hheld : held.Perm (framesOf base count ++ rest)) (hfree : fa.freeFrames base count = .ok after) :
    after.Holds rest ∧ (count = 0 ∧ after = fa ∨ 0 < count ∧ after = fa.freed base count) := by
  rcases Nat.eq_zero_or_pos count with rfl | hcount
  · rw [freeFrames, if_pos rfl] at hfree
    cases hfree
    exact ⟨hold.perm hheld, .inl ⟨rfl, rfl⟩⟩
  · rcases (hold.perm hheld).free_cases hcount with ⟨-, hok, hrest⟩ | ⟨-, herror⟩
    · rw [hok] at hfree
      cases hfree
      exact ⟨hrest, .inr ⟨hcount, rfl⟩⟩
    · rw [herror] at hfree
      cases hfree

theorem Served.holds (h : Reported reported)
    (hfits : ∀ fa requested, allowed fa requested → Fits requested)
    (hrun : Served reported allowed fa held) : fa.Holds held := by
  induction hrun with
  | start => exact init_holds h
  | granted _ hallowed halloc ih =>
      have hspec := allocFrames_spec ih (hfits _ _ hallowed)
      rw [halloc] at hspec
      exact hspec
  | refused _ hallowed halloc ih =>
      have hspec := allocFrames_spec ih (hfits _ _ hallowed)
      rw [halloc] at hspec
      exact hspec
  | released _ hheld hfree ih => exact (ih.released hheld hfree).1

/-! ## Safety -/

/-- An aligned frame lies in aligned ranges with all its bytes or with none. -/
theorem within_offset {frame offset : Nat}
    (h : ∀ range ∈ ranges, range.1 % pageSize = 0 ∧ range.2 % pageSize = 0)
    (haligned : frame % pageSize = 0) (hoffset : offset < pageSize) :
    Within ranges (frame + offset) ↔ Within ranges frame := by
  have hfloor : pageFloor (frame + offset) = frame := by
    simp only [pageFloor, pageSize] at haligned hoffset ⊢
    omega
  rw [← within_pageFloor h, hfloor]

/-- A release adds exactly its range to the free list. -/
theorem Holds.freed_within {base count : Nat} (hold : fa.Holds (framesOf base count ++ rest))
    (hcount : 0 < count) (address : Nat) : Within (fa.freed base count).free address ↔
      Within fa.free address ∨ base ≤ address ∧ address < base + count * pageSize := by
  have haligned := (hold.start_mem hcount).1
  have hsplit : fa.freeBelow base ++ fa.freeAbove base = fa.free := List.takeWhile_append_dropWhile
  have hspec := (@insertRange_spec _ _ base (base + count * pageSize)
    (hsplit.symm ▸ hold.free) (by simp only [pageSize]; omega) haligned
    (by simp only [pageSize] at haligned ⊢; omega) (hold.freeBelow_le hcount)
      (hold.le_freeAbove hcount)).2
  rw [hsplit] at hspec
  exact hspec address

/-- In every run whose requests fit, the bytes handed out are usable, handed out once,
not on the free list and not ahead of the cursor; the free list stays sorted and
coalesced, the count is exact, and a release adds exactly its range. -/
theorem served_sound (h : Reported reported)
    (hrun : Served reported (fun _ requested => Fits requested) fa held) :
    held.Nodup ∧ fa.allocatedFrames = held.length ∧ FreeRanges fa.free ∧
      (∀ frame ∈ held, frame % pageSize = 0 ∧ ∀ offset < pageSize, Within fa.regions (frame + offset) ∧
        ¬ Within fa.free (frame + offset) ∧ ¬ Within fa.unbumped (frame + offset)) ∧
      (∀ address, Within fa.free address → ¬ Within fa.unbumped address) ∧
      ∀ base count rest after, held.Perm (framesOf base count ++ rest) →
        fa.freeFrames base count = .ok after → ∀ address, Within after.free address ↔
          Within fa.free address ∨ base ≤ address ∧ address < base + count * pageSize := by
  have hold := hrun.holds h fun _ _ hfits => hfits
  refine ⟨hold.nodup, hold.counted, hold.free, fun frame hmem => ?_, hold.freeBumped, ?_⟩
  · have haligned := hold.aligned frame hmem
    refine ⟨haligned, fun offset hoffset => ⟨?_, ?_, ?_⟩⟩
    · exact (within_offset hold.usable.aligned haligned hoffset).2 (hold.inside frame hmem)
    · rw [within_offset (fun range hrange => (hold.free.proper range hrange).2) haligned hoffset]
      exact hold.notFree frame hmem
    · rw [within_offset (unbumped_aligned hold.usable) haligned hoffset]
      exact hold.bumped frame hmem
  · intro base count rest after hheld hfree address
    obtain ⟨-, ⟨rfl, rfl⟩ | ⟨hcount, rfl⟩⟩ := hold.released hheld hfree
    · rw [Nat.zero_mul]
      exact ⟨.inl, fun hin => hin.elim id fun hempty => absurd hempty (by omega)⟩
    · exact (hold.perm hheld).freed_within hcount address

/-- One usable megabyte. -/
def oneMegabyte : List MemoryRegion := [⟨0x100000, 0x200000, true⟩]

theorem oneMegabyte_reported : Reported oneMegabyte where
  physical := by decide
  disjoint := List.pairwise_singleton _ _

theorem allocFrames_eq {answer : Option Nat} (h : (fa.allocFrames requested).2 = answer) :
    fa.allocFrames requested = ((fa.allocFrames requested).1, answer) :=
  Prod.ext rfl h

theorem served_sound_once : ∃ fa, Served oneMegabyte (fun _ requested => Fits requested) fa [0x100000] ∧
    fa.allocatedFrames = 1 := by
  obtain ⟨after, halloc⟩ : ∃ after, (init oneMegabyte).allocFrames 1 = (after, some 0x100000) :=
    ⟨_, allocFrames_eq (by decide +kernel)⟩
  have hrun : Served oneMegabyte (fun _ requested => Fits requested) after
      (framesOf 0x100000 (max 1 1) ++ []) := .granted .start (by decide) halloc
  exact ⟨after, hrun, (served_sound oneMegabyte_reported hrun).2.1⟩

/-- A request whose size is a 64-bit number, but not when added to an address, is
granted out of one megabyte. -/
theorem wrapped_request_granted : (2 ^ 52 - 1) * pageSize < wordLimit ∧
    ∃ after, (init oneMegabyte).allocFrames (2 ^ 52 - 1) = (after, some 0x100000) ∧
      ∃ frame ∈ framesOf 0x100000 (2 ^ 52 - 1), ¬ Within after.regions frame := by
  obtain ⟨after, halloc, hregions⟩ : ∃ after,
      (init oneMegabyte).allocFrames (2 ^ 52 - 1) = (after, some 0x100000) ∧
        after.regions = [(0x100000, 0x200000)] :=
    ⟨_, allocFrames_eq (by decide +kernel), by decide +kernel⟩
  refine ⟨by decide, after, halloc, 0x200000, mem_framesOf.2 ⟨0x100, by decide, by decide⟩, ?_⟩
  rw [hregions]
  rintro ⟨range, hmem, hlow, hhigh⟩
  cases List.mem_singleton.1 hmem
  exact absurd hhigh (by decide)

/-! ## Returning a block -/

/-- Consecutive usable frames lie in one region when no two regions touch. -/
theorem oneRegion_of_apart {regions : List (Nat × Nat)} {base : Nat} (usable : Usable regions)
    (apart : ∀ left ∈ regions, ∀ right ∈ regions, left.2 ≠ right.1) (haligned : base % pageSize = 0)
    (last : Nat) (hin : ∀ index ≤ last, Within regions (base + index * pageSize)) :
    OneRegion regions base (last + 1) := by
  induction last with
  | zero =>
      obtain ⟨region, hmem, hlow, hhigh⟩ := hin 0 (le_refl 0)
      have hregion := usable.aligned region hmem
      refine ⟨region, hmem, ?_, ?_⟩ <;> simp only [pageSize] at haligned hregion hlow hhigh ⊢ <;> omega
  | succ last ih =>
      obtain ⟨region, hmem, hlow, hhigh⟩ := ih fun index hle => hin index (Nat.le_succ_of_le hle)
      obtain ⟨next, hnext, hfrom, hto⟩ := hin (last + 1) (le_refl _)
      have hregion := usable.aligned region hmem
      by_cases hroom : base + (last + 1) * pageSize < region.2
      · refine ⟨region, hmem, hlow, ?_⟩
        simp only [pageSize] at haligned hregion hroom ⊢
        omega
      · -- the next frame begins where this region ends
        exfalso
        have hend : region.2 = base + (last + 1) * pageSize := by omega
        have hproper := usable.proper region hmem
        have hsymm : Std.Symm fun left right : Nat × Nat => left.2 ≤ right.1 ∨ right.2 ≤ left.1 :=
          ⟨fun _ _ => Or.symm⟩
        rcases eq_or_ne region next with rfl | hne
        · omega
        · rcases usable.disjoint.forall hmem hnext hne with hle | hle
          · exact apart region hmem next hnext (by omega)
          · omega

/-- A block that was handed out can be returned exactly when one usable region contains
it, which is so whenever no two usable regions touch. -/
theorem release_accepted_iff (h : Reported reported)
    (hrun : Served reported (fun _ requested => Fits requested) fa held) {base requested : Nat}
    (hheld : held.Perm (framesOf base (max requested 1) ++ rest)) :
    ((∃ after, fa.freeFrames base requested = .ok after) ↔
      requested = 0 ∨ OneRegion fa.regions base requested) ∧
    ((∀ left ∈ fa.regions, ∀ right ∈ fa.regions, left.2 ≠ right.1) →
      ∃ after, fa.freeFrames base requested = .ok after) := by
  have hold := (hrun.holds h fun _ _ hfits => hfits).perm hheld
  have hiff : (∃ after, fa.freeFrames base requested = .ok after) ↔
      requested = 0 ∨ OneRegion fa.regions base requested := by
    rcases Nat.eq_zero_or_pos requested with rfl | hpos
    · exact ⟨fun _ => .inl rfl, fun _ => ⟨fa, if_pos rfl⟩⟩
    · rw [max_eq_left hpos] at hold
      rcases hold.free_cases hpos with ⟨hregion, hok, -⟩ | ⟨hregion, herror⟩
      · exact ⟨fun _ => .inr hregion, fun _ => ⟨_, hok⟩⟩
      · rw [herror]
        refine ⟨?_, ?_⟩
        · rintro ⟨after, ⟨⟩⟩
        · rintro (hzero | hone)
          · omega
          · exact absurd hone hregion
  refine ⟨hiff, fun apart => hiff.2 ?_⟩
  rcases Nat.eq_zero_or_pos requested with rfl | hpos
  · exact .inl rfl
  · rw [max_eq_left hpos] at hold
    obtain ⟨last, rfl⟩ : ∃ last, requested = last + 1 := ⟨requested - 1, by omega⟩
    refine .inr (oneRegion_of_apart hold.usable apart (hold.start_mem hpos).1 last fun index hle => ?_)
    exact hold.inside _ (List.mem_append_left _ (mem_framesOf.2 ⟨index, Nat.lt_succ_of_le hle, rfl⟩))

/-- Two usable pages reported as two regions. -/
def touchingPages : List MemoryRegion := [⟨0x100000, 0x101000, true⟩, ⟨0x101000, 0x102000, true⟩]

theorem touchingPages_reported : Reported touchingPages where
  physical := by decide
  disjoint := by decide

theorem release_accepted_iff_once : ∃ fa,
    Served oneMegabyte (fun _ requested => Fits requested) fa (framesOf 0x100000 (max 1 1) ++ []) ∧
      ∃ after, fa.freeFrames 0x100000 1 = .ok after := by
  obtain ⟨fa, halloc, hregions⟩ : ∃ fa, (init oneMegabyte).allocFrames 1 = (fa, some 0x100000) ∧
      fa.regions = [(0x100000, 0x200000)] := ⟨_, allocFrames_eq (by decide +kernel), by decide +kernel⟩
  have hrun : Served oneMegabyte (fun _ requested => Fits requested) fa
      (framesOf 0x100000 (max 1 1) ++ []) := .granted .start (by decide) halloc
  refine ⟨fa, hrun, (release_accepted_iff oneMegabyte_reported hrun (.refl _)).1.2 (.inr ?_)⟩
  exact ⟨(0x100000, 0x200000), by rw [hregions]; exact List.mem_singleton_self _, by decide, by decide⟩

/-! ## Answers -/

inductive Request where
  | alloc (requested : Nat)
  | free (base count : Nat)
  deriving DecidableEq

/-- One request and its answer: the base of the block for an allocation. -/
def serve (fa : FrameAllocator) : Request → Except Panic (FrameAllocator × Option Nat)
  | .alloc requested => .ok (fa.allocFrames requested)
  | .free base count => (fa.freeFrames base count).map fun after => (after, none)

/-- The answers to a list of requests, up to one that stops the kernel. -/
def answers : FrameAllocator → List Request → List (Except Panic (Option Nat))
  | _, [] => []
  | fa, request :: later =>
      match fa.serve request with
      | .error problem => [.error problem]
      | .ok (after, answer) => .ok answer :: answers after later

/-- Two pages go back one by one, and come back as one block that cannot be returned. -/
theorem release_across_regions_panics : Reported touchingPages ∧
    (init touchingPages).answers [.alloc 1, .alloc 1, .free 0x100000 1, .free 0x101000 1, .alloc 2,
      .free 0x100000 2] =
        [.ok (some 0x100000), .ok (some 0x101000), .ok none, .ok none, .ok (some 0x100000),
          .error .freeOutsideUsable] :=
  ⟨touchingPages_reported, by decide +kernel⟩

/-! ## What a request costs -/

/-- Whole frames in the ranges. -/
def framesIn (ranges : List (Nat × Nat)) : Nat :=
  (ranges.map fun range => (range.2 - range.1) / pageSize).sum

@[simp]
theorem framesIn_nil : framesIn [] = 0 := rfl

@[simp]
theorem framesIn_cons (range : Nat × Nat) (ranges : List (Nat × Nat)) :
    framesIn (range :: ranges) = (range.2 - range.1) / pageSize + framesIn ranges := by
  simp [framesIn]

@[simp]
theorem framesIn_append (ranges others : List (Nat × Nat)) :
    framesIn (ranges ++ others) = framesIn ranges + framesIn others := by
  simp [framesIn]

/-- The ranges that `carve` gives up. -/
def passedOver (bytes : Nat) (ranges : List (Nat × Nat)) : List (Nat × Nat) :=
  ranges.takeWhile fun range => range.2 < range.1 + bytes

/-- Allocating this much gives up no frame: the free list has room for it, or no region
passed over has a frame left. -/
def Wasteless (fa : FrameAllocator) (requested : Nat) : Prop :=
  takeFree (max requested 1 * pageSize) fa.free ≠ none ∨
    ∀ range ∈ passedOver (max requested 1 * pageSize) fa.unbumped, range.2 ≤ range.1

/-- Frames handed out, free and ahead of the cursor are all the usable ones. -/
def Conserved (fa : FrameAllocator) : Prop :=
  fa.allocatedFrames + framesIn fa.free + framesIn fa.unbumped = fa.stats.2

/-! ### Accounts -/

def Aligned (ranges : List (Nat × Nat)) : Prop :=
  ∀ range ∈ ranges, range.1 % pageSize = 0 ∧ range.2 % pageSize = 0

theorem framesIn_takeFree {count base : Nat} {free rest : List (Nat × Nat)} (haligned : Aligned free)
    (h : takeFree (count * pageSize) free = some (base, rest)) :
    framesIn rest + count = framesIn free := by
  induction free generalizing rest with
  | nil => cases h
  | cons first _ ih =>
      obtain ⟨start, stop⟩ := first
      have hfirst := haligned (start, stop) List.mem_cons_self
      rw [takeFree] at h
      split_ifs at h with hfits hexact
      · cases h
        rw [framesIn_cons, hexact, Nat.mul_div_cancel _ (by decide)]
        exact Nat.add_comm ..
      · cases h
        rw [framesIn_cons, framesIn_cons]
        simp only [pageSize] at hfirst hfits ⊢
        omega
      · obtain ⟨⟨found, tail⟩, hfound, heq⟩ := Option.map_eq_some_iff.1 h
        cases heq
        have := ih (fun range hmem => haligned range (List.mem_cons_of_mem _ hmem)) hfound
        dsimp only at this ⊢
        rw [framesIn_cons, framesIn_cons]
        omega

theorem framesIn_carve {count : Nat} :
    framesIn (carve (count * pageSize) ranges).2 +
        (carve (count * pageSize) ranges).1.elim 0 (fun _ => count) +
        framesIn (passedOver (count * pageSize) ranges) = framesIn ranges := by
  induction ranges with
  | nil => rfl
  | cons range _ ih =>
      rw [carve, passedOver]
      by_cases hroom : range.1 + count * pageSize ≤ range.2
      · rw [if_pos hroom, List.takeWhile_cons_of_neg (by simpa using hroom)]
        simp only [framesIn_cons, framesIn_nil, Option.elim_some, pageSize] at hroom ⊢
        omega
      · rw [if_neg hroom, List.takeWhile_cons_of_pos (by simpa using hroom), framesIn_cons, framesIn_cons,
          ← ih, passedOver]
        omega

theorem framesIn_eq_zero (haligned : Aligned ranges) :
    framesIn ranges = 0 ↔ ∀ range ∈ ranges, range.2 ≤ range.1 := by
  induction ranges with
  | nil => simp
  | cons range _ ih =>
      have hrange := haligned range List.mem_cons_self
      have hrest := ih fun other hmem => haligned other (List.mem_cons_of_mem _ hmem)
      rw [framesIn_cons, Nat.add_eq_zero_iff, hrest, List.forall_mem_cons]
      refine and_congr_left fun _ => ?_
      simp only [pageSize] at hrange ⊢
      omega

theorem framesIn_insertRange {below above : List (Nat × Nat)} {start count : Nat}
    (haligned : Aligned (below ++ above)) (hproper : ∀ range ∈ below ++ above, range.1 < range.2)
    (hstart : start % pageSize = 0) :
    framesIn (insertRange below above start (start + count * pageSize)) =
      framesIn (below ++ above) + count := by
  have hcount : (start + count * pageSize - start) / pageSize = count := by
    rw [Nat.add_sub_cancel_left, Nat.mul_div_cancel _ (by decide)]
  simp only [pageSize] at hstart
  rcases List.eq_nil_or_concat below with rfl | ⟨lower, ⟨base, last⟩, rfl⟩
  · cases above with
    | nil => simpa [insertRange] using hcount
    | cons first =>
        have hfirst := haligned first (by simp)
        have hfirst' := hproper first (by simp)
        clear haligned hproper
        simp only [insertRange, List.getLast?_nil, List.nil_append]
        simp only [pageSize] at hfirst
        split_ifs with hnext <;> simp only [framesIn_cons, pageSize] at hcount hnext ⊢ <;> omega
  · have hlast := haligned (base, last) (by simp)
    have hlast' := hproper (base, last) (by simp)
    simp only [pageSize] at hlast
    cases above with
    | nil =>
        clear haligned hproper
        simp only [insertRange, List.concat_eq_append, List.getLast?_append, List.getLast?_singleton,
          List.dropLast_concat, List.append_nil, Option.some_or]
        split_ifs <;> simp only [framesIn_append, framesIn_cons, framesIn_nil,
          pageSize] at hcount ⊢ <;> omega
    | cons first =>
        have hfirst := haligned first (by simp)
        have hfirst' := hproper first (by simp)
        clear haligned hproper
        simp only [insertRange, List.concat_eq_append, List.getLast?_append, List.getLast?_singleton,
          List.dropLast_concat, Option.some_or, List.append_assoc, List.singleton_append]
        simp only [pageSize] at hfirst hcount
        split_ifs with hlower hupper hupper <;>
          simp only [framesIn_append, framesIn_cons, pageSize] at hupper ⊢ <;> omega

/-- An allocation keeps the account exactly when it is wasteless. -/
theorem conserved_alloc_iff (hold : fa.Holds held) (hfits : Fits requested)
    (hbefore : fa.Conserved) : (fa.allocFrames requested).1.Conserved ↔ fa.Wasteless requested := by
  have hfree : Aligned fa.free := fun range hmem => (hold.free.proper range hmem).2
  unfold Conserved stats at hbefore ⊢
  rcases allocFrames_cases hold.steady hfits with ⟨base, rest, htake, halloc⟩ |
    ⟨htake, after, answer, halloc, hcarve, hfree', hregions, hcount, -⟩
  · have hrest := framesIn_takeFree hfree htake
    rw [halloc]
    refine ⟨fun _ => .inl (by rw [htake]; exact Option.some_ne_none _), fun _ => ?_⟩
    change fa.allocatedFrames + max requested 1 + framesIn rest + framesIn fa.unbumped =
      framesIn fa.regions
    change fa.allocatedFrames + framesIn fa.free + framesIn fa.unbumped = framesIn fa.regions at hbefore
    omega
  · have hahead := @framesIn_carve fa.unbumped (max requested 1)
    have hpassed : Aligned (passedOver (max requested 1 * pageSize) fa.unbumped) := fun range hmem =>
      unbumped_aligned hold.usable range ((List.takeWhile_sublist _).subset hmem)
    rw [hcarve] at hahead
    dsimp only at hahead
    rw [halloc]
    dsimp only
    rw [hcount, hfree', hregions]
    unfold Wasteless
    rw [htake, ← framesIn_eq_zero hpassed]
    constructor
    · exact fun hafter => .inr (by omega)
    · rintro (hnone | hzero)
      · exact absurd rfl hnone
      · omega

theorem conserved_release {base count : Nat} (hold : fa.Holds held)
    (hheld : held.Perm (framesOf base count ++ rest)) (hfree : fa.freeFrames base count = .ok after)
    (hbefore : fa.Conserved) : after.Conserved := by
  obtain ⟨-, ⟨rfl, rfl⟩ | ⟨hcount, rfl⟩⟩ := hold.released hheld hfree
  · exact hbefore
  · have hblock := hold.perm hheld
    have hsplit : fa.freeBelow base ++ fa.freeAbove base = fa.free := List.takeWhile_append_dropWhile
    have hinsert := @framesIn_insertRange (fa.freeBelow base) (fa.freeAbove base) base count
      (hsplit ▸ fun range hmem => (hold.free.proper range hmem).2)
      (hsplit ▸ fun range hmem => (hold.free.proper range hmem).1) (hblock.start_mem hcount).1
    have hheld := hblock.counted
    rw [List.length_append, length_framesOf] at hheld
    rw [hsplit] at hinsert
    unfold Conserved at hbefore ⊢
    change fa.allocatedFrames - count + framesIn (insertRange (fa.freeBelow base) (fa.freeAbove base) base
      (base + count * pageSize)) + framesIn fa.unbumped = fa.stats.2
    omega

theorem init_conserved (h : Reported reported) : (init reported).Conserved := by
  have hhead : (init reported).unbumped = (init reported).regions := by
    have hnext : (init reported).nextFree = ((init reported).regions.head?.map Prod.fst).getD 0 := rfl
    rw [unbumped, show (init reported).cur = 0 from rfl, List.drop_zero, hnext]
    cases hregions : (init reported).regions with
    | nil => rfl
    | cons first rest =>
        have haligned := ((init_usable h).aligned first (hregions ▸ List.mem_cons_self)).1
        exact congrArg (· :: rest) (Prod.ext (pageCeil_of_aligned haligned) rfl)
  unfold Conserved
  rw [hhead]
  change 0 + 0 + framesIn (init reported).regions = framesIn (init reported).regions
  omega

theorem Served.conserved (h : Reported reported)
    (hrun : Served reported (fun fa requested => Fits requested ∧ fa.Wasteless requested) fa held) :
    fa.Conserved := by
  have hholds : ∀ {fa held}, Served reported (fun fa requested => Fits requested ∧ fa.Wasteless requested)
      fa held → fa.Holds held := fun hrun => hrun.holds h fun _ _ hallowed => hallowed.1
  induction hrun with
  | start => exact init_conserved h
  | granted hrun hallowed halloc ih =>
      have hafter := (conserved_alloc_iff (hholds hrun) hallowed.1 ih).2 hallowed.2
      rwa [halloc] at hafter
  | refused hrun hallowed halloc ih =>
      have hafter := (conserved_alloc_iff (hholds hrun) hallowed.1 ih).2 hallowed.2
      rwa [halloc] at hafter
  | released hrun hheld hfree ih => exact conserved_release (hholds hrun) hheld hfree ih

/-! ### Same answers -/

def Request.Fits : Request → Prop
  | .alloc requested => FrameAllocator.Fits requested
  | .free _ _ => True

/-- No frame is ahead of the cursor. -/
def Exhausted (fa : FrameAllocator) : Prop := ∀ range ∈ fa.unbumped, range.2 ≤ range.1

/-- The states differ at most in a cursor that has nothing ahead of it. -/
structure Alike (fa other : FrameAllocator) : Prop where
  regions : fa.regions = other.regions
  free : fa.free = other.free
  count : fa.allocatedFrames = other.allocatedFrames
  steady : fa.Steady
  steady' : other.Steady
  exhausted : fa.Exhausted
  exhausted' : other.Exhausted

theorem carve_exhausted {bytes : Nat} (hbytes : 0 < bytes)
    (h : ∀ range ∈ ranges, range.2 ≤ range.1) : carve bytes ranges = (none, []) := by
  induction ranges with
  | nil => rfl
  | cons range _ ih =>
      have hrange := h range List.mem_cons_self
      rw [carve, if_neg (by omega)]
      exact ih fun other hmem => h other (List.mem_cons_of_mem _ hmem)

theorem bytes_pos (requested : Nat) : 0 < max requested 1 * pageSize := by
  simp only [pageSize]
  omega

theorem Exhausted.bump_none (steady : fa.Steady) (h : fa.Exhausted) (hfits : Fits requested)
    (htake : takeFree (max requested 1 * pageSize) fa.free = none) :
    ∃ after, fa.allocFrames requested = (after, none) ∧ after.regions = fa.regions ∧
      after.free = fa.free ∧ after.allocatedFrames = fa.allocatedFrames ∧ after.Steady ∧
        after.Exhausted := by
  rcases allocFrames_cases steady hfits with ⟨base, rest, hsome, -⟩ |
    ⟨-, after, answer, halloc, hcarve, hfree, hregions, hcount, hsteady⟩
  · rw [htake] at hsome
    cases hsome
  · rw [carve_exhausted (bytes_pos requested) h, Prod.mk.injEq] at hcarve
    obtain ⟨rfl, hahead⟩ := hcarve
    refine ⟨after, halloc, hregions, hfree, hcount, hsteady, ?_⟩
    rw [Exhausted, ← hahead]
    exact nofun

theorem Alike.alloc {other : FrameAllocator} {requested : Nat} (h : Alike fa other)
    (hfits : Fits requested) :
    ∃ after after' answer, fa.allocFrames requested = (after, answer) ∧
      other.allocFrames requested = (after', answer) ∧ Alike after after' := by
  cases htake : takeFree (max requested 1 * pageSize) fa.free with
  | none =>
      obtain ⟨after, halloc, hregions, hfree, hcount, hsteady, hahead⟩ :=
        h.exhausted.bump_none h.steady hfits htake
      obtain ⟨after', halloc', hregions', hfree', hcount', hsteady', hahead'⟩ :=
        h.exhausted'.bump_none h.steady' hfits (h.free ▸ htake)
      refine ⟨after, after', none, halloc, halloc', ?_, ?_, ?_, hsteady, hsteady', hahead, hahead'⟩
      · rw [hregions, hregions', h.regions]
      · rw [hfree, hfree', h.free]
      · rw [hcount, hcount', h.count]
  | some found =>
      have hbytes : max requested 1 * pageSize % wordLimit = max requested 1 * pageSize :=
        Nat.mod_eq_of_lt (lt_of_le_of_lt (Nat.le_add_right _ _) hfits)
      refine ⟨{ fa with free := found.2, allocatedFrames := fa.allocatedFrames + max requested 1 },
        { other with free := found.2, allocatedFrames := other.allocatedFrames + max requested 1 },
        some found.1, ?_, ?_, h.regions, rfl, congrArg (· + _) h.count, ⟨h.steady.usable, h.steady.reach⟩,
        ⟨h.steady'.usable, h.steady'.reach⟩, h.exhausted, h.exhausted'⟩
      · rw [allocFrames, hbytes, htake]
      · rw [allocFrames, hbytes, ← h.free, htake]

/-- A release does not look at the cursor. -/
theorem freeFrames_moved (fa : FrameAllocator) (base count cur nextFree : Nat) :
    { fa with cur := cur, nextFree := nextFree }.freeFrames base count =
      (fa.freeFrames base count).map fun after => { after with cur := cur, nextFree := nextFree } := by
  unfold freeFrames
  dsimp only
  split_ifs <;> rfl

theorem freeFrames_cursor {base count : Nat} (h : fa.freeFrames base count = .ok after) :
    after.regions = fa.regions ∧ after.cur = fa.cur ∧ after.nextFree = fa.nextFree := by
  unfold freeFrames at h
  dsimp only at h
  split_ifs at h <;> cases h <;> exact ⟨rfl, rfl, rfl⟩

theorem Alike.release {other : FrameAllocator} (h : Alike fa other) (base count : Nat) :
    (∃ problem, fa.freeFrames base count = .error problem ∧
      other.freeFrames base count = .error problem) ∨
      ∃ after after', fa.freeFrames base count = .ok after ∧ other.freeFrames base count = .ok after' ∧
        Alike after after' := by
  have hother : other = { fa with cur := other.cur, nextFree := other.nextFree } := by
    obtain ⟨regions, cur, nextFree, free, allocated⟩ := other
    exact congr (congrArg₂ (fun regions => FrameAllocator.mk regions cur nextFree) h.regions.symm
      h.free.symm)
      h.count.symm
  have hmoved := freeFrames_moved fa base count other.cur other.nextFree
  rw [← hother] at hmoved
  rw [hmoved]
  cases hfree : fa.freeFrames base count with
  | error problem => exact .inl ⟨problem, rfl, rfl⟩
  | ok after =>
      obtain ⟨hregions, hcur, hnext⟩ := freeFrames_cursor hfree
      refine .inr ⟨after, _, rfl, rfl, rfl, rfl, rfl,
        ⟨hregions ▸ h.steady.usable, hnext ▸ h.steady.reach⟩,
        ⟨hregions ▸ h.steady.usable, h.steady'.reach⟩, ?_, ?_⟩
      · have hahead : after.unbumped = fa.unbumped := by
          rw [unbumped, unbumped, hregions, hcur, hnext]
        rw [Exhausted, hahead]
        exact h.exhausted
      · have hahead :
            ({ after with cur := other.cur, nextFree := other.nextFree } : FrameAllocator).unbumped =
            other.unbumped := by
          rw [unbumped, unbumped, ← h.regions, ← hregions]
        rw [Exhausted, hahead]
        exact h.exhausted'

theorem Alike.answers_eq {other : FrameAllocator} (h : Alike fa other) {later : List Request}
    (hfits : ∀ request ∈ later, request.Fits) : fa.answers later = other.answers later := by
  induction later generalizing fa other with
  | nil => rfl
  | cons request later ih =>
      have hlater : ∀ request ∈ later, request.Fits := fun request hmem =>
        hfits request (List.mem_cons_of_mem _ hmem)
      have hfirst := hfits request List.mem_cons_self
      cases request with
      | alloc =>
          obtain ⟨after, after', answer, halloc, halloc', halike⟩ := h.alloc hfirst
          simp only [answers, serve, halloc, halloc', ih halike hlater]
      | free base count =>
          rcases h.release base count with ⟨problem, herror, herror'⟩ | ⟨after, after', hok, hok', halike⟩
          · simp only [answers, serve, herror, herror', Except.map]
          · simp only [answers, serve, hok, hok', Except.map, ih halike hlater]

/-- A frame ahead of the cursor is found by a request for one frame. -/
theorem carve_one (haligned : Aligned ranges)
    (h : ¬ ∀ range ∈ ranges, range.2 ≤ range.1) : (carve (max 1 1 * pageSize) ranges).1 ≠ none := by
  induction ranges with
  | nil => exact absurd nofun h
  | cons range _ ih =>
      have hrange := haligned range List.mem_cons_self
      rw [carve]
      split_ifs with hroom
      · exact Option.some_ne_none _
      · refine ih (fun other hmem => haligned other (List.mem_cons_of_mem _ hmem)) fun hrest => h ?_
        rw [List.forall_mem_cons]
        refine ⟨?_, hrest⟩
        simp only [pageSize, max_self] at hrange hroom
        omega

/-- With a frame ahead of only one of two cursors, asking for frames one by one tells
the two allocators apart. -/
theorem answers_differ {other : FrameAllocator} (hfree : fa.free = other.free) (steady : fa.Steady)
    (steady' : other.Steady) (hahead : ¬ fa.Exhausted) (hexhausted : other.Exhausted)
    (hranges : FreeRanges fa.free) :
    ∃ later, (∀ request ∈ later, Request.Fits request) ∧ fa.answers later ≠ other.answers later := by
  have hone : Fits 1 := by decide
  -- the free list shrinks with every frame until only one of the two has frames left
  induction hsize : framesIn fa.free using Nat.strong_induction_on generalizing fa other with
  | _ _ ih =>
      rcases allocFrames_cases steady hone with ⟨base, rest, htake, halloc⟩ |
        ⟨htake, after, answer, halloc, hcarve, -⟩
      · have hbytes : max 1 1 * pageSize % wordLimit = max 1 1 * pageSize := by decide
        have halloc' : other.allocFrames 1 = ({ other with
            free := rest, allocatedFrames := other.allocatedFrames + max 1 1 }, some base) := by
          rw [allocFrames, hbytes, ← hfree, htake]
        have hrest := framesIn_takeFree (fun range hmem => (hranges.proper range hmem).2) htake
        obtain ⟨later, hfits, hdiffer⟩ := @ih (framesIn rest) (by omega)
          { fa with free := rest, allocatedFrames := fa.allocatedFrames + max 1 1 }
          { other with free := rest, allocatedFrames := other.allocatedFrames + max 1 1 } rfl
          ⟨steady.usable, steady.reach⟩ ⟨steady'.usable, steady'.reach⟩ hahead hexhausted
          (takeFree_spec (bytes_pos 1) (Nat.mul_mod_left _ _) hranges htake).1 rfl
        refine ⟨.alloc 1 :: later, List.forall_mem_cons.2 ⟨hone, hfits⟩, ?_⟩
        simp only [answers, serve, halloc, halloc']
        exact fun heq => hdiffer (List.tail_eq_of_cons_eq heq)
      · obtain ⟨after', halloc', -⟩ := hexhausted.bump_none steady' hone (hfree ▸ htake)
        have hsome := carve_one (unbumped_aligned steady.usable) hahead
        rw [hcarve] at hsome
        refine ⟨[.alloc 1], List.forall_mem_singleton.2 hone, ?_⟩
        simp only [answers, serve, halloc, halloc']
        intro heq
        cases heq
        exact hsome rfl

theorem carve_none {bytes : Nat} {ranges after : List (Nat × Nat)}
    (h : carve bytes ranges = (none, after)) :
    after = [] ∧ passedOver bytes ranges = ranges := by
  induction ranges with
  | nil =>
      cases h
      exact ⟨rfl, rfl⟩
  | cons range _ ih =>
      rw [carve] at h
      split_ifs at h with hroom
      · cases h
      · obtain ⟨hnil, hpassed⟩ := ih h
        refine ⟨hnil, ?_⟩
        rw [passedOver, List.takeWhile_cons_of_pos (by simpa using hroom)]
        exact congrArg (range :: ·) hpassed

/-- A refused request costs nothing exactly when it is wasteless. -/
theorem refused_costs_iff (hold : fa.Holds held) (hfits : Fits requested)
    (hrefused : (fa.allocFrames requested).2 = none) :
    (∀ later, (∀ request ∈ later, Request.Fits request) →
      (fa.allocFrames requested).1.answers later = fa.answers later) ↔ fa.Wasteless requested := by
  rcases allocFrames_cases hold.steady hfits with ⟨base, rest, -, halloc⟩ |
    ⟨htake, after, answer, halloc, hcarve, hfree, hregions, hcount, hsteady⟩
  · rw [halloc] at hrefused
    cases hrefused
  · rw [halloc] at hrefused ⊢
    cases hrefused
    obtain ⟨hnil, hpassed⟩ := carve_none hcarve
    have hexhausted : after.Exhausted := by
      rw [Exhausted, hnil]
      exact nofun
    have hwasteless : fa.Wasteless requested ↔ fa.Exhausted := by
      rw [Wasteless, htake, hpassed, Exhausted]
      exact ⟨fun h => h.elim (absurd rfl) id, .inr⟩
    rw [hwasteless]
    constructor
    · intro hsame
      by_contra hahead
      obtain ⟨later, hlater, hdiffer⟩ :=
        answers_differ hfree.symm hold.steady hsteady hahead hexhausted hold.free
      exact hdiffer (hsame later hlater).symm
    · intro hahead later hlater
      exact (Alike.mk hregions hfree hcount hsteady hold.steady hexhausted hahead).answers_eq hlater

/-- A refused request leaves all later answers alone, and an allocation loses no frame,
exactly when no region with frames left is passed over. -/
theorem request_costs_iff (h : Reported reported)
    (hrun : Served reported (fun _ requested => Fits requested) fa held) {requested : Nat}
    (hfits : Fits requested) :
    ((fa.allocFrames requested).2 = none →
      ((∀ later, (∀ request ∈ later, Request.Fits request) →
        (fa.allocFrames requested).1.answers later = fa.answers later) ↔ fa.Wasteless requested)) ∧
    (fa.Conserved → ((fa.allocFrames requested).1.Conserved ↔ fa.Wasteless requested)) ∧
    (Served reported (fun fa requested => Fits requested ∧ fa.Wasteless requested) fa held →
      fa.Conserved) := by
  have hold := hrun.holds h fun _ _ hfits => hfits
  exact ⟨refused_costs_iff hold hfits, conserved_alloc_iff hold hfits, fun hrun => hrun.conserved h⟩

/-- With two regions of a page each, a refused request for three pages changes later
answers, and a request for one page loses nothing. -/
theorem request_costs_iff_start : ((init touchingPages).allocFrames 3).2 = none ∧
    (∃ later, (∀ request ∈ later, Request.Fits request) ∧
      ((init touchingPages).allocFrames 3).1.answers later ≠ (init touchingPages).answers later) ∧
    (init touchingPages).Wasteless 1 ∧ ((init touchingPages).allocFrames 1).1.Conserved := by
  have hrefused : ((init touchingPages).allocFrames 3).2 = none := by decide +kernel
  have hcosts := request_costs_iff touchingPages_reported .start (by decide : Fits 3)
  have hwasteful : ¬ (init touchingPages).Wasteless 3 := by
    rw [Wasteless, not_or]
    exact ⟨by decide +kernel, by decide +kernel⟩
  have hwasteless : (init touchingPages).Wasteless 1 := .inr (by decide +kernel)
  refine ⟨hrefused, ?_, hwasteless, ?_⟩
  · by_contra hsame
    refine hwasteful ((hcosts.1 hrefused).1 fun later hfits => ?_)
    by_contra hdiffer
    exact hsame ⟨later, hfits, hdiffer⟩
  · exact ((request_costs_iff touchingPages_reported .start (by decide : Fits 1)).2.1
      (hcosts.2.2 .start)).2 hwasteless

/-- A request for more than there is uses up all the memory ahead, and one that only the
second region has room for loses the first. -/
theorem large_requests_cost : Reported touchingPages ∧
    (init touchingPages).answers [.alloc 1] = [.ok (some 0x100000)] ∧
    (init touchingPages).answers [.alloc 3, .alloc 1] = [.ok none, .ok none] ∧
    Reported [⟨0x100000, 0x101000, true⟩, ⟨0x200000, 0x202000, true⟩] ∧
    ((init [⟨0x100000, 0x101000, true⟩, ⟨0x200000, 0x202000, true⟩]).allocFrames 2).2 = some 0x200000 ∧
    ¬ ((init [⟨0x100000, 0x101000, true⟩, ⟨0x200000, 0x202000, true⟩]).allocFrames 2).1.Conserved := by
  refine ⟨touchingPages_reported, by decide +kernel, by decide +kernel, ⟨by decide, by decide⟩,
    by decide +kernel, ?_⟩
  unfold Conserved
  decide +kernel

end FrameAllocator

end Redoubt.Kernel
