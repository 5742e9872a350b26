import Redoubt.Kernel.FrameRuns
import Redoubt.Kernel.PageTree

/-!
# Laws of mapping and unmapping

A collection of address spaces keeps its user pages under slot 0 of each PML4, in
tables that no other part of the collection uses.  Mapping or unmapping a user page
then changes the translation of that page in that space, and nothing else.
-/

namespace Redoubt.Kernel

open Redoubt.Foundation

/-- Address spaces whose tables under slot 0 are separate trees: no such table is
reached in another way, and none is on the free side of the allocator. -/
structure Forest (vm : Vm) (held spaces : List Nat) : Prop where
  holds : vm.frames.Holds held
  trees : ∀ pml4 ∈ spaces, (slotTables vm.mem pml4 0).Nodup
  apart : ∀ pml4 ∈ spaces, ∀ other ∈ spaces, pml4 ≠ other →
    ∀ table ∈ slotTables vm.mem pml4 0, table ∉ slotTables vm.mem other 0
  roots : ∀ pml4 ∈ spaces, ∀ other ∈ spaces, pml4 ∉ slotTables vm.mem other 0
  upper : ∀ pml4 ∈ spaces, ∀ slot, slot ≠ 0 → ∀ table ∈ slotTables vm.mem pml4 slot,
    vm.frames.OffFree table ∧ table ∉ spaces ∧ ∀ other ∈ spaces, table ∉ slotTables vm.mem other 0
  offFree : ∀ pml4 ∈ spaces, vm.frames.OffFree pml4 ∧
    ∀ table ∈ slotTables vm.mem pml4 0, vm.frames.OffFree table

section Forest

variable {vm after : Vm} {held spaces new : List Nat} {pml4 other slot virt frame flags : Nat}

theorem Forest.slotTree (forest : Forest vm held spaces) (hmem : pml4 ∈ spaces) :
    SlotTree vm held pml4 0 where
  holds := forest.holds
  nodup := forest.trees pml4 hmem
  owned := (forest.offFree pml4 hmem).2
  root := forest.roots pml4 hmem pml4 hmem
  settled := (forest.offFree pml4 hmem).1

/-- Frames that were not on the free side are none of the new ones. -/
theorem Taken.not_mem (htaken : Taken vm after new) {frame : Nat} (hoff : vm.frames.OffFree frame) :
    frame ∉ new :=
  fun hmem => htaken.fresh frame hmem hoff

/-- Every slot but slot 0 of the changed space keeps its tables and its leaves. -/
theorem Extends.slot_eq (h : Extends vm after held pml4 0 new) (forest : Forest vm held spaces)
    (hmem : pml4 ∈ spaces) (hother : other ∈ spaces) (hslot : other = pml4 → slot ≠ 0) :
    slotTables after.mem other slot = slotTables vm.mem other slot ∧
      ∀ path, path.length = 3 → (∀ index ∈ path, index < 512) →
        slotLeaf after.mem other slot path = slotLeaf vm.mem other slot path := by
  have hentry : after.mem other slot = vm.mem other slot :=
    h.same other (forest.roots other hother pml4 hmem)
      (h.taken.not_mem (forest.offFree other hother).1) slot hslot
  have htables : ∀ table ∈ slotTables vm.mem other slot, ∀ index,
      after.mem table index = vm.mem table index := by
    intro table htable index
    by_cases hzero : slot = 0
    · subst hzero
      have hne : other ≠ pml4 := fun heq => hslot heq rfl
      have hoff := (forest.offFree other hother).2 table htable
      refine h.same table (forest.apart other hother pml4 hmem hne table htable)
        (h.taken.not_mem hoff) index ?_
      rintro rfl
      exact absurd htable (forest.roots table hmem other hother)
    · obtain ⟨hoff, hroot, happart⟩ := forest.upper other hother slot hzero table htable
      refine h.same table (happart pml4 hmem) (h.taken.not_mem hoff) index ?_
      rintro rfl
      exact absurd hmem hroot
  obtain ⟨hsame, -, hleaves⟩ := slot_congr hentry htables
  exact ⟨hsame, hleaves⟩

/-- The spaces stay separate trees. -/
theorem Extends.forest (h : Extends vm after held pml4 0 new) (forest : Forest vm held spaces)
    (hmem : pml4 ∈ spaces) : Forest after (new ++ held) spaces := by
  have hslot : ∀ space ∈ spaces, ∀ table, table ∈ slotTables after.mem space 0 →
      table ∈ slotTables vm.mem space 0 ∨ space = pml4 ∧ table ∈ new := by
    intro space hspace table htable
    by_cases heq : space = pml4
    · subst heq
      exact (List.mem_append.1 (h.tables.mem_iff.1 htable)).symm.imp_right fun hnew => ⟨rfl, hnew⟩
    · rw [(h.slot_eq forest hmem hspace fun hsame => absurd hsame heq).1] at htable
      exact .inl htable
  -- a frame off the free side is a table afterwards only if it was one before
  have hold : ∀ frame, vm.frames.OffFree frame → ∀ space ∈ spaces, frame ∉ slotTables vm.mem space 0 →
      frame ∉ slotTables after.mem space 0 := by
    intro frame hoff space hspace hnot htable
    rcases hslot space hspace frame htable with hin | ⟨-, hnew⟩
    · exact hnot hin
    · exact h.taken.fresh frame hnew hoff
  refine ⟨h.holds, fun space hspace => ?_, fun left hleft right hright hne table htable => ?_,
    fun space hspace other hother => ?_, fun space hspace slot hzero table htable => ?_,
    fun space hspace => ⟨?_, fun table htable => ?_⟩⟩
  · by_cases heq : space = pml4
    · subst heq
      refine h.tables.nodup_iff.2 (List.nodup_append.2 ⟨(List.nodup_append.1 h.holds.nodup).1,
        forest.trees space hmem, ?_⟩)
      rintro frame hnew _ hin rfl
      exact h.taken.fresh frame hnew ((forest.offFree space hmem).2 frame hin)
    · rw [(h.slot_eq forest hmem hspace fun hsame => absurd hsame heq).1]
      exact forest.trees space hspace
  · rcases hslot left hleft table htable with hin | ⟨rfl, hnew⟩
    · exact hold table ((forest.offFree left hleft).2 table hin) right hright
        (forest.apart left hleft right hright hne table hin)
    · rw [(h.slot_eq forest hmem hright fun hsame => absurd hsame (Ne.symm hne)).1]
      exact fun hin => h.taken.fresh table hnew ((forest.offFree right hright).2 table hin)
  · exact hold space (forest.offFree space hspace).1 other hother (forest.roots space hspace other hother)
  · rw [(h.slot_eq forest hmem hspace fun _ => hzero).1] at htable
    obtain ⟨hoff, hroot, happart⟩ := forest.upper space hspace slot hzero table htable
    exact ⟨h.taken.kept table hoff, hroot,
      fun other hother => hold table hoff other hother (happart other hother)⟩
  · exact h.taken.kept space (forest.offFree space hspace).1
  · rcases hslot space hspace table htable with hin | ⟨-, hnew⟩
    · exact h.taken.kept table ((forest.offFree space hspace).2 table hin)
    · exact h.holds.offFree (List.mem_append_left _ hnew)

end Forest

/-! ## Translation -/

/-- A 48-bit address, sign-extended. -/
def Canonical (virt : Nat) : Prop := virt < 2 ^ 47 ∨ 2 ^ 64 - 2 ^ 47 ≤ virt ∧ virt < 2 ^ 64

/-- Two canonical addresses with the same indices are on the same page. -/
theorem pageFloor_eq_of_indices {virt page : Nat} (hcanonical : Canonical virt) (hpage : page < 2 ^ 39)
    (haligned : page % pageSize = 0) (hroot : p4Index virt = 0) (hpath : pathOf virt = pathOf page) :
    pageFloor virt = page := by
  simp only [pathOf, List.cons.injEq, and_true, p3Index, p2Index, p1Index] at hpath
  simp only [p4Index] at hroot
  simp only [pageFloor, pageSize] at haligned ⊢
  unfold Canonical at hcanonical
  omega

theorem indices_add {page offset : Nat} (hpage : page < 2 ^ 39) (haligned : page % pageSize = 0)
    (hoffset : offset < pageSize) :
    p4Index (page + offset) = 0 ∧ pathOf (page + offset) = pathOf page ∧
      (page + offset) % pageSize = offset := by
  simp only [pageSize] at haligned hoffset ⊢
  have h4 : p4Index (page + offset) = 0 := by
    simp only [p4Index]
    omega
  have h3 : p3Index (page + offset) = p3Index page := by
    simp only [p3Index]
    omega
  have h2 : p2Index (page + offset) = p2Index page := by
    simp only [p2Index]
    omega
  have h1 : p1Index (page + offset) = p1Index page := by
    simp only [p1Index]
    omega
  exact ⟨h4, by rw [pathOf, pathOf, h3, h2, h1], by omega⟩

/-- Addresses of the collection whose translation two memories agree on. -/
def SameElsewhere (vm after : Vm) (spaces : List Nat) (pml4 page : Nat) : Prop :=
  ∀ space ∈ spaces, ∀ virt, Canonical virt → (space = pml4 → pageFloor virt ≠ page) →
    translate after.mem space virt = translate vm.mem space virt

section Laws

variable {vm after : Vm} {held spaces new : List Nat} {pml4 page frame flags : Nat}

theorem translate_congr {space virt : Nat}
    (h : slotLeaf after.mem space (p4Index virt) (pathOf virt) =
      slotLeaf vm.mem space (p4Index virt) (pathOf virt)) :
    translate after.mem space virt = translate vm.mem space virt := by
  rw [translate, translate, leafPte_eq, leafPte_eq, h]

theorem Extends.sameElsewhere (h : Extends vm after held pml4 0 new) (forest : Forest vm held spaces)
    (hmem : pml4 ∈ spaces) (hpage : page < 2 ^ 39) (haligned : page % pageSize = 0)
    (hleaves : ∀ path, path ≠ pathOf page → path.length = 3 → (∀ index ∈ path, index < 512) →
      slotLeaf after.mem pml4 0 path = slotLeaf vm.mem pml4 0 path) :
    SameElsewhere vm after spaces pml4 page := by
  intro space hspace virt hcanonical hvirt
  refine translate_congr ?_
  by_cases hself : space = pml4 ∧ p4Index virt = 0
  · obtain ⟨rfl, hroot⟩ := hself
    rw [hroot]
    refine hleaves (pathOf virt) (fun hpath => hvirt rfl ?_) (length_pathOf virt) (pathOf_bounded virt)
    exact pageFloor_eq_of_indices hcanonical hpage haligned hroot hpath
  · exact (h.slot_eq forest hmem hspace fun heq hroot => hself ⟨heq, hroot⟩).2 _ (length_pathOf virt)
      (pathOf_bounded virt)

theorem translate_page {offset : Nat} {value : Option Nat} (hpage : page < 2 ^ 39)
    (haligned : page % pageSize = 0) (hoffset : offset < pageSize)
    (hleaf : slotLeaf after.mem pml4 0 (pathOf page) = value) :
    translate after.mem pml4 (page + offset) = value.map fun entry => entryAddr entry + offset := by
  obtain ⟨hroot, hpath, hmod⟩ := indices_add hpage haligned hoffset
  rw [translate, leafPte_eq, hroot, hpath, hleaf, hmod]

/-- Mapping a user page gives its bytes the bytes of the frame, a failed mapping changes
no translation, and unmapping takes the page away; translation is the same everywhere
else, and the tables stay separate trees. -/
theorem page_table_laws (forest : Forest vm held spaces) (hmem : pml4 ∈ spaces) (hpage : page < 2 ^ 39)
    (haligned : page % pageSize = 0) (hframe : IsFrame frame) (hflags : LeafFlags flags)
    (hused : makeEntry frame flags ≠ 0) :
    ((vm.mapPageIn pml4 page frame flags).2 = true →
      (∀ offset < pageSize,
        translate (vm.mapPageIn pml4 page frame flags).1.mem pml4 (page + offset) =
          some (frame + offset)) ∧
      SameElsewhere vm (vm.mapPageIn pml4 page frame flags).1 spaces pml4 page) ∧
    ((vm.mapPageIn pml4 page frame flags).2 = false → ∀ space ∈ spaces, ∀ virt, Canonical virt →
      translate (vm.mapPageIn pml4 page frame flags).1.mem space virt = translate vm.mem space virt) ∧
    (∃ new, Forest (vm.mapPageIn pml4 page frame flags).1 (new ++ held) spaces) ∧
    ((∀ offset < pageSize, translate (vm.unmapPageIn pml4 page).mem pml4 (page + offset) = none) ∧
      SameElsewhere vm (vm.unmapPageIn pml4 page) spaces pml4 page ∧
      Forest (vm.unmapPageIn pml4 page) held spaces) := by
  have hroot : p4Index page = 0 := (indices_add hpage haligned (by decide : 0 < pageSize)).1
  have hfloor : pageFloor frame = frame := by
    have := hframe.1
    simp only [pageFloor, pageSize] at this ⊢
    omega
  have htree : SlotTree vm held pml4 (p4Index page) := hroot ▸ forest.slotTree hmem
  refine ⟨?_, ?_, ?_, ?_⟩
  · intro hok
    rcases mapPageIn_cases htree (hfloor.symm ▸ hframe) hflags (hfloor.symm ▸ hused) with
      ⟨after, new, hmap, -⟩ | ⟨after, new, hmap, hremapped⟩
    · rw [hmap] at hok
      cases hok
    · rw [hmap]
      rw [hroot, hfloor] at hremapped
      refine ⟨fun offset hoffset => ?_,
        hremapped.toExtends.sameElsewhere forest hmem hpage haligned hremapped.leaves⟩
      rw [translate_page hpage haligned hoffset hremapped.leaf, Option.map_some,
        entryAddr_makeEntry hframe hflags]
  · intro hfailed
    rcases mapPageIn_cases htree (hfloor.symm ▸ hframe) hflags (hfloor.symm ▸ hused) with
      ⟨after, new, hmap, hgrew⟩ | ⟨after, new, hmap, -⟩
    · rw [hmap]
      rw [hroot] at hgrew
      intro space hspace virt _
      refine translate_congr ?_
      by_cases hself : space = pml4 ∧ p4Index virt = 0
      · rw [hself.1, hself.2]
        exact hgrew.leaves _ (length_pathOf virt) (pathOf_bounded virt)
      · exact (hgrew.toExtends.slot_eq forest hmem hspace fun heq hroot => hself ⟨heq, hroot⟩).2 _
          (length_pathOf virt) (pathOf_bounded virt)
    · rw [hmap] at hfailed
      cases hfailed
  · rcases mapPageIn_cases htree (hfloor.symm ▸ hframe) hflags (hfloor.symm ▸ hused) with
      ⟨after, new, hmap, hgrew⟩ | ⟨after, new, hmap, hremapped⟩
    · rw [hmap]
      rw [hroot] at hgrew
      exact ⟨new, hgrew.toExtends.forest forest hmem⟩
    · rw [hmap]
      rw [hroot] at hremapped
      exact ⟨new, hremapped.toExtends.forest forest hmem⟩
  · have hremapped := unmapPageIn_remapped htree
    rw [hroot] at hremapped
    refine ⟨fun offset hoffset => ?_, ?_, hremapped.toExtends.forest forest hmem⟩
    · rw [translate_page hpage haligned hoffset hremapped.leaf, Option.map_none]
    · exact hremapped.toExtends.sameElsewhere forest hmem hpage haligned hremapped.leaves

end Laws

/-- One megabyte of cleared memory with one address space in its first frame. -/
def oneSpace : Vm where
  mem := fun _ _ => 0
  frames := ((FrameAllocator.init FrameAllocator.oneMegabyte).allocFrames 1).1
  addressSpaces := [0x100000]
  kstacks := []
  nextKstackSlot := 0

theorem oneSpace_forest : Forest oneSpace [0x100000] [0x100000] := by
  have hholds : oneSpace.frames.Holds [0x100000] := by
    have hspec := FrameAllocator.allocFrames_spec
      (FrameAllocator.init_holds FrameAllocator.oneMegabyte_reported) (by decide : FrameAllocator.Fits 1)
    rwa [(by decide +kernel : ((FrameAllocator.init FrameAllocator.oneMegabyte).allocFrames 1).2 =
      some 0x100000)] at hspec
  have htables : ∀ pml4 slot, slotTables oneSpace.mem pml4 slot = [] := fun _ _ => rfl
  refine ⟨hholds, fun pml4 _ => htables pml4 0 ▸ .nil, ?_, ?_, ?_,
    fun pml4 hmem => ⟨hholds.offFree hmem, ?_⟩⟩ <;>
    simp [htables]

theorem page_table_laws_first :
    (oneSpace.mapPageIn 0x100000 0x400000 0x150000 (flagPresent ||| flagUser)).2 = true ∧
      translate (oneSpace.mapPageIn 0x100000 0x400000 0x150000 (flagPresent ||| flagUser)).1.mem 0x100000
        0x400123 = some 0x150123 := by
  have hok : (oneSpace.mapPageIn 0x100000 0x400000 0x150000 (flagPresent ||| flagUser)).2 = true := by
    decide +kernel
  have hframe : IsFrame 0x150000 := by
    unfold IsFrame
    decide
  exact ⟨hok, ((page_table_laws oneSpace_forest List.mem_cons_self (by decide) (by decide) hframe
    (by decide)
    (by decide)).1 hok).1 0x123 (by decide)⟩

end Redoubt.Kernel
