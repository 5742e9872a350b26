import Mathlib.Algebra.Order.BigOperators.Group.List
import Redoubt.Foundation.Bytes
import Redoubt.Kernel.ElfPlan
import Redoubt.Kernel.UserMapping

/-!
# Loading the segments of an image

Each segment gets cleared pages, then the bytes of the file, then its final rights.
Every phase works on the pages of its own segment; the pages that other segments have
been given keep their leaves and their bytes.
-/

namespace Redoubt.Kernel

open Redoubt.Foundation

/-- Leaves and bytes outside the listed pages are as before. -/
structure Untouched (mem after : PhysMem) (cr3 : Nat) (pages : List Nat) : Prop where
  leaves : ∀ page, IsPage page → page ∉ pages → leafAt after cr3 page = leafAt mem cr3 page
  bytes : ∀ virt < 2 ^ 39, pageFloor virt ∉ pages → userByte after cr3 virt = userByte mem cr3 virt

section Untouched

variable {mem mid after : PhysMem} {cr3 : Nat} {pages more : List Nat}

theorem Untouched.refl (mem : PhysMem) (cr3 : Nat) (pages : List Nat) : Untouched mem mem cr3 pages :=
  ⟨fun _ _ _ => rfl, fun _ _ _ => rfl⟩

theorem Untouched.trans (hfirst : Untouched mem mid cr3 pages) (hsecond : Untouched mid after cr3 pages) :
    Untouched mem after cr3 pages :=
  ⟨fun page hpage hnot => (hsecond.leaves page hpage hnot).trans (hfirst.leaves page hpage hnot),
    fun virt hvirt hnot => (hsecond.bytes virt hvirt hnot).trans (hfirst.bytes virt hvirt hnot)⟩

theorem Untouched.mono (h : Untouched mem after cr3 pages) (hsub : ∀ page ∈ pages, page ∈ more) :
    Untouched mem after cr3 more :=
  ⟨fun page hpage hnot => h.leaves page hpage fun hmem => hnot (hsub page hmem),
    fun virt hvirt hnot => h.bytes virt hvirt fun hmem => hnot (hsub _ hmem)⟩

end Untouched

/-! ## Bytes behind a leaf -/

section Bytes

variable {vm after : Vm} {rest frames : List Nat} {cr3 virt page entry : Nat} {mem : PhysMem}

theorem userByte_of_leaf (hvirt : virt < 2 ^ 39) (hleaf : leafAt mem cr3 (pageFloor virt) = some entry) :
    userByte mem cr3 virt = some (mem.readByte (entryAddr entry + virt % pageSize)) := by
  rw [userByte, translate_leafAt hvirt, hleaf, Option.map_some, Option.map_some]

/-- A byte of a cleared frame. -/
theorem readByte_cleared {frame offset : Nat} (haligned : frame % pageSize = 0)
    (hoffset : offset < pageSize)
    (hcleared : ∀ index, mem frame index = 0) : mem.readByte (frame + offset) = 0 := by
  rw [PhysMem.readByte, (pageFloor_add_offset haligned hoffset).1, hcleared, PhysMem.wordByte,
    Nat.zero_shiftRight]
  rfl

/-- A page keeps its bytes when its frame does not change and is not written to. -/
theorem Memory.byte_kept (h : Memory vm rest cr3) (hbeyond : Beyond vm after frames)
    (hapart : ∀ frame ∈ slotPages vm.mem cr3 0, frame ∉ frames) (hvirt : virt < 2 ^ 39)
    (hleaf : (leafAt after.mem cr3 (pageFloor virt)).map entryAddr =
      (leafAt vm.mem cr3 (pageFloor virt)).map entryAddr) :
    userByte after.mem cr3 virt = userByte vm.mem cr3 virt := by
  refine userByte_congr hvirt hleaf fun entry hentry => ?_
  have hpage := leafAt_mem_pages hentry
  have hframe := h.space_frame (mem_spaceFrames.2 (.inr (.inr hpage)))
  exact (hbeyond _ hframe.1 hframe.2 (hapart _ hpage)).2

/-- An edit of one page touches no other page. -/
theorem Edited.untouched {value : Option Nat} (h : Memory vm rest cr3)
    (hedited : Edited vm after cr3 (Function.update (leafAt vm.mem cr3) page value)) :
    Untouched vm.mem after.mem cr3 [page] := by
  have hleaves : ∀ other, IsPage other → other ∉ [page] →
      leafAt after.mem cr3 other = leafAt vm.mem cr3 other := by
    intro other hother hne
    rw [hedited.leaves other hother, Function.update_of_ne fun heq => hne (List.mem_singleton.2 heq)]
  refine ⟨hleaves, fun virt hvirt hnot => ?_⟩
  refine h.byte_kept hedited.content (fun _ => h.page_not_table) hvirt ?_
  rw [hleaves _ (pageFloor_isPage hvirt) hnot]

end Bytes

/-! ## Cleared pages -/

section MapPages

variable {vm : Vm} {rest pages : List Nat} {cr3 page : Nat}

theorem loadFlags_leafFlags : LeafFlags loadFlags := by decide

/-- A page with a frame under the given rights. -/
def MappedAs (mem : PhysMem) (cr3 page flags : Nat) : Prop :=
  ∃ frame, IsFrame frame ∧ leafAt mem cr3 page = some (makeEntry frame flags)

/-- A page that a frame of zeros stands behind. -/
def ClearedPage (mem : PhysMem) (cr3 page : Nat) : Prop :=
  MappedAs mem cr3 page loadFlags ∧
    ∀ virt < 2 ^ 39, pageFloor virt = page → userByte mem cr3 virt = some 0

theorem ClearedPage.untouched {mem after : PhysMem} (h : ClearedPage mem cr3 page)
    (huntouched : Untouched mem after cr3 pages) (hpage : IsPage page) (hnot : page ∉ pages) :
    ClearedPage after cr3 page := by
  obtain ⟨⟨frame, hframe, hleaf⟩, hbytes⟩ := h
  refine ⟨⟨frame, hframe, (huntouched.leaves page hpage hnot).trans hleaf⟩, fun virt hvirt hfloor => ?_⟩
  rw [huntouched.bytes virt hvirt (hfloor ▸ hnot), hbytes virt hvirt hfloor]

/-- A frame from the allocator, cleared: nothing in use has changed. -/
theorem Memory.freshFrame_cases (h : Memory vm rest cr3) :
    (∃ after, vm.allocFrames 1 = (after, none) ∧ Memory after rest cr3) ∨
    ∃ mid frame, vm.allocFrames 1 = (mid, some frame) ∧
      Memory (mid.zeroFrame frame) (frame :: rest) cr3 ∧ Beyond vm (mid.zeroFrame frame) [] ∧
      ∀ index, (mid.zeroFrame frame).mem frame index = 0 := by
  rcases h.alloc_cases with hfailed | ⟨mid, frame, halloc, hmid, hbeyond, hfresh⟩
  · exact .inl hfailed
  · obtain ⟨hcleared, hzeroed⟩ := hmid.zeroFrame List.mem_cons_self
    refine .inr ⟨mid, frame, halloc, hcleared, hbeyond.trans hzeroed fun other hmem hoff => ?_,
      fun index => if_pos rfl⟩
    exact absurd (List.mem_singleton.1 hmem ▸ hoff) hfresh

/-- Nothing in use changes, so the space keeps its pages. -/
theorem Memory.untouched {after : Vm} (h : Memory vm rest cr3)
    (hbeyond : Beyond vm after []) (pages : List Nat) : Untouched vm.mem after.mem cr3 pages := by
  have hleaves : ∀ page, leafAt after.mem cr3 page = leafAt vm.mem cr3 page := fun page =>
    h.leaves_eq hbeyond (fun _ _ => List.not_mem_nil) _ (length_pathOf page) (pathOf_bounded page)
  refine ⟨fun page _ _ => hleaves page, fun virt hvirt _ => ?_⟩
  exact h.byte_kept hbeyond (fun _ _ => List.not_mem_nil) hvirt (by rw [hleaves])

/-- One round: the page is mapped to a cleared frame, or the round fails. -/
theorem Memory.mapCleared_cases (h : Memory vm rest cr3) (hpage : IsPage page)
    (hbare : leafAt vm.mem cr3 page = none) :
    (∃ after, mapSegmentPages cr3 (page :: pages) vm = .ok (after, false) ∧ Memory after rest cr3) ∨
    ∃ after, mapSegmentPages cr3 (page :: pages) vm = mapSegmentPages cr3 pages after ∧
      Memory after rest cr3 ∧ Untouched vm.mem after.mem cr3 [page] ∧ ClearedPage after.mem cr3 page := by
  rw [mapSegmentPages]
  rcases h.freshFrame_cases with ⟨_, halloc, hafter⟩ | ⟨mid, frame, halloc, hmid, hunused, hzero⟩
  · rw [halloc]
    exact .inl ⟨_, rfl, hafter⟩
  rw [halloc]
  dsimp only
  have hframe : IsFrame frame := hmid.rest_isFrame List.mem_cons_self
  rcases hmid.mapPage_cases hpage hframe loadFlags_leafFlags (by decide) with
    ⟨after, hmap, hafter⟩ | ⟨after, hmap, hmapped⟩
  · rw [hmap]
    obtain ⟨_, hfree, hfreed⟩ := hafter.free_one
    dsimp only
    rw [hfree]
    exact .inl ⟨_, rfl, hfreed⟩
  · have hstill : leafAt (mid.zeroFrame frame).mem cr3 page = none :=
      ((h.untouched hunused []).leaves page hpage List.not_mem_nil).trans hbare
    have hperm : (frame :: rest ++
        ((leafAt (mid.zeroFrame frame).mem cr3 page).map entryAddr).toList).Perm
        (rest ++ [frame]) := by
      rw [hstill, Option.map_none, Option.toList_none, List.append_nil]
      exact (List.perm_append_singleton frame rest).symm
    obtain ⟨hafter, hedited⟩ := hmapped rest hperm
    rw [hmap]
    refine .inr ⟨after, rfl, hafter, (h.untouched hunused [page]).trans (hedited.untouched hmid), ?_⟩
    have hleaf : leafAt after.mem cr3 page = some (makeEntry frame loadFlags) := by
      rw [hedited.leaves page hpage, Function.update_self]
    refine ⟨⟨frame, hframe, hleaf⟩, fun virt hvirt hfloor => ?_⟩
    -- the frame was loose, so linking it into the tables has not written to it
    have hcontent := (hedited.content frame hframe.1 (hmid.rest_offFree List.mem_cons_self)
      (hmid.rest_not_table List.mem_cons_self)).2
    rw [userByte_of_leaf hvirt (hfloor ▸ hleaf), entryAddr_makeEntry hframe loadFlags_leafFlags]
    refine congrArg some (readByte_cleared hframe.1 (Nat.mod_lt _ (by decide)) fun index => ?_)
    rw [hcontent index, hzero index]

/-- The loop gives each page of the segment a cleared frame, or fails. -/
theorem Memory.mapSegmentPages_spec (h : Memory vm rest cr3)
    (hpages : ∀ page ∈ pages, IsPage page) (hnodup : pages.Nodup)
    (hbare : ∀ page ∈ pages, leafAt vm.mem cr3 page = none) :
    ∃ after mapped, mapSegmentPages cr3 pages vm = .ok (after, mapped) ∧ Memory after rest cr3 ∧
      (mapped = true → Untouched vm.mem after.mem cr3 pages ∧
        ∀ page ∈ pages, ClearedPage after.mem cr3 page) := by
  induction pages generalizing vm with
  | nil =>
      exact ⟨vm, true, rfl, h, fun _ => ⟨.refl _ _ _, nofun⟩⟩
  | cons page pages ih =>
      obtain ⟨hnot, hrest⟩ := List.nodup_cons.1 hnodup
      have hpage := hpages page List.mem_cons_self
      rcases h.mapCleared_cases hpage (hbare page List.mem_cons_self) with
        ⟨after, hmap, hafter⟩ | ⟨mid, hmap, hmid, huntouched, hcleared⟩
      · exact ⟨after, false, hmap, hafter, nofun⟩
      · have hlater : ∀ other ∈ pages, IsPage other :=
          fun other hmem => hpages other (List.mem_cons_of_mem _ hmem)
        have hbareLater : ∀ other ∈ pages, leafAt mid.mem cr3 other = none := by
          intro other hmem
          have hne : other ∉ [page] := fun heq => hnot (List.mem_singleton.1 heq ▸ hmem)
          rw [huntouched.leaves other (hlater other hmem) hne]
          exact hbare other (List.mem_cons_of_mem _ hmem)
        obtain ⟨after, mapped, hloop, hafter, hdone⟩ := ih hmid hlater hrest hbareLater
        refine ⟨after, mapped, hmap.trans hloop, hafter, fun hmapped => ?_⟩
        obtain ⟨huntouched', hcleared'⟩ := hdone hmapped
        refine ⟨(huntouched.mono ?_).trans (huntouched'.mono fun other => List.mem_cons_of_mem _),
          fun other hmem => ?_⟩
        · intro other hmem
          rw [List.mem_singleton.1 hmem]
          exact List.mem_cons_self
        · rcases List.mem_cons.1 hmem with rfl | hmem
          · exact hcleared.untouched huntouched' hpage hnot
          · exact hcleared' other hmem

end MapPages

/-! ## The bytes of the file -/

section Copy

variable {vm : Vm} {rest : List Nat} {cr3 virt : Nat} {bytes : List UInt8}

/-- Copying the bytes of a segment moves no page. -/
theorem Memory.copyBytes_spec (h : Memory vm rest cr3)
    (hlimit : virt + bytes.length ≤ 2 ^ 39) :
    ∃ after copied, copyBytes cr3 virt bytes vm = (after, copied) ∧ Memory after rest cr3 ∧
      (∀ page, leafAt after.mem cr3 page = leafAt vm.mem cr3 page) ∧
      (copied = true → ∀ address < 2 ^ 39, userByte after.mem cr3 address =
        if virt ≤ address ∧ address < virt + bytes.length then bytes[address - virt]?
        else userByte vm.mem cr3 address) := by
  obtain ⟨written, left, mem, hbytes, hwrote, hend⟩ := Kernel.copyBytes_spec (h.userSpace) hlimit
  have hafter := h.writePages hwrote.frames
  have hleaves : ∀ page, leafAt mem cr3 page = leafAt vm.mem cr3 page := fun page =>
    ((h.userSpace).slot_same hwrote.frames).2.2 _ (length_pathOf page) (pathOf_bounded page)
  rcases hend with ⟨rfl, hcopy⟩ | ⟨-, -, hcopy⟩
  · rw [List.append_nil] at hbytes
    subst hbytes
    exact ⟨_, true, hcopy, hafter, hleaves, fun _ => hwrote.content⟩
  · exact ⟨_, false, hcopy, hafter, hleaves, nofun⟩

end Copy

/-! ## The final rights -/

section Protect

variable {vm after : Vm} {rest pages : List Nat} {cr3 page frame flags old : Nat}

theorem translate_mapped (hpage : IsPage page) (hframe : IsFrame frame) (hold : LeafFlags old)
    (hleaf : leafAt vm.mem cr3 page = some (makeEntry frame old)) :
    translate vm.mem cr3 page = some frame := by
  have hfloor : pageFloor page = page := by
    have := hpage.1
    simp only [pageFloor, pageSize] at this ⊢
    omega
  rw [translate_leafAt hpage.2, hfloor, hleaf, Option.map_some, entryAddr_makeEntry hframe hold,
    hpage.1, Nat.add_zero]

/-- Changing the rights of a page moves no byte. -/
theorem Edited.bytes_kept (h : Memory vm rest cr3) (hframe : IsFrame frame)
    (hold : LeafFlags old) (hflags : LeafFlags flags)
    (hleaf : leafAt vm.mem cr3 page = some (makeEntry frame old))
    (hedited : Edited vm after cr3
      (Function.update (leafAt vm.mem cr3) page (some (makeEntry frame flags))))
    (virt : Nat) (hvirt : virt < 2 ^ 39) :
    userByte after.mem cr3 virt = userByte vm.mem cr3 virt := by
  refine h.byte_kept hedited.content (fun _ => h.page_not_table) hvirt ?_
  rw [hedited.leaves _ (pageFloor_isPage hvirt)]
  by_cases hself : pageFloor virt = page
  · rw [hself, Function.update_self, hleaf, Option.map_some, Option.map_some,
      entryAddr_makeEntry hframe hflags, entryAddr_makeEntry hframe hold]
  · rw [Function.update_of_ne hself]

/-- The loop gives each page its final rights and changes no byte. -/
theorem Memory.protectPages_spec (h : Memory vm rest cr3)
    (hpages : ∀ page ∈ pages, IsPage page) (hnodup : pages.Nodup) (hold : LeafFlags old)
    (hflags : LeafFlags flags)
    (hused : flags ≠ 0) (hmapped : ∀ page ∈ pages, MappedAs vm.mem cr3 page old) :
    ∃ after closed, protectPages cr3 flags pages vm = (after, closed) ∧ Memory after rest cr3 ∧
      (closed = true → (∀ virt < 2 ^ 39, userByte after.mem cr3 virt = userByte vm.mem cr3 virt) ∧
        (∀ page, IsPage page → page ∉ pages → leafAt after.mem cr3 page = leafAt vm.mem cr3 page) ∧
        ∀ page ∈ pages, MappedAs after.mem cr3 page flags) := by
  induction pages generalizing vm with
  | nil =>
      exact ⟨vm, true, rfl, h, fun _ => ⟨fun _ _ => rfl, fun _ _ _ => rfl, nofun⟩⟩
  | cons page pages ih =>
      obtain ⟨hnot, hrest⟩ := List.nodup_cons.1 hnodup
      have hpage := hpages page List.mem_cons_self
      obtain ⟨frame, hframe, hleaf⟩ := hmapped page List.mem_cons_self
      rw [protectPages, translate_mapped hpage hframe hold hleaf]
      dsimp only
      rcases h.mapPage_cases hpage hframe hflags hused with ⟨after, hmap, hafter⟩ | ⟨mid, hmap, hremap⟩
      · rw [hmap]
        exact ⟨after, false, rfl, hafter, nofun⟩
      · have hsame : (rest ++ ((leafAt vm.mem cr3 page).map entryAddr).toList).Perm
            (rest ++ [frame]) := by
          rw [hleaf, Option.map_some, entryAddr_makeEntry hframe hold, Option.toList_some]
        obtain ⟨hmid, hedited⟩ := hremap rest hsame
        have hbytes := Edited.bytes_kept h hframe hold hflags hleaf hedited
        have hothers := (Edited.untouched h hedited).leaves
        have hne : ∀ other ∈ pages, other ∉ [page] :=
          fun other hmem heq => hnot (List.mem_singleton.1 heq ▸ hmem)
        have hlater : ∀ other ∈ pages, IsPage other :=
          fun other hmem => hpages other (List.mem_cons_of_mem _ hmem)
        have hstill : ∀ other ∈ pages, MappedAs mid.mem cr3 other old := by
          intro other hmem
          rw [MappedAs, hothers other (hlater other hmem) (hne other hmem)]
          exact hmapped other (List.mem_cons_of_mem _ hmem)
        obtain ⟨after, closed, hloop, hafter, hdone⟩ := ih hmid hlater hrest hstill
        rw [hmap]
        refine ⟨after, closed, hloop, hafter, fun hclosed => ?_⟩
        obtain ⟨hbytes', hleaves', hmapped'⟩ := hdone hclosed
        refine ⟨fun virt hvirt => (hbytes' virt hvirt).trans (hbytes virt hvirt),
          fun other hother hout => ?_,
          fun other hmem => ?_⟩
        · rw [List.mem_cons, not_or] at hout
          rw [hleaves' other hother hout.2,
            hothers other hother fun heq => hout.1 (List.mem_singleton.1 heq)]
        · rcases List.mem_cons.1 hmem with rfl | hmem
          · refine ⟨frame, hframe, ?_⟩
            rw [hleaves' other hpage hnot, hedited.leaves other hpage, Function.update_self]
          · exact hmapped' other hmem

end Protect

/-! ## One segment -/

/-- The byte that an image asks for at an address of a segment's hull. -/
def ProgramHeader.byteAt (elf : List UInt8) (header : ProgramHeader) (virt : Nat) : UInt8 :=
  if header.vaddr ≤ virt ∧ virt < header.vaddr + header.filesz then
    elf.getD (header.offset + (virt - header.vaddr)) 0
  else 0

/-- The user side of a space holds exactly these segments. -/
structure Carries (mem : PhysMem) (cr3 : Nat) (elf : List UInt8) (headers : List ProgramHeader) :
    Prop where
  mapped : ∀ header ∈ headers, ∀ page, IsPage page → header.hullStart ≤ page → page < header.hullEnd →
    MappedAs mem cr3 page (finalFlags header.flags)
  bytes : ∀ header ∈ headers, ∀ virt, header.hullStart ≤ virt → virt < header.hullEnd →
    userByte mem cr3 virt = some (header.byteAt elf virt)
  bare : ∀ page, IsPage page → (∀ header ∈ headers, page < header.hullStart ∨ header.hullEnd ≤ page) →
    leafAt mem cr3 page = none

section Segment

variable {vm : Vm} {rest : List Nat} {cr3 page virt : Nat} {elf : List UInt8} {header : ProgramHeader}
  {headers : List ProgramHeader}

theorem hull_aligned (header : ProgramHeader) :
    header.hullStart % pageSize = 0 ∧ header.hullEnd % pageSize = 0 := by
  simp only [ProgramHeader.hullStart, ProgramHeader.hullEnd, pageFloor, pageSize]
  omega

/-- The hull covers the segment. -/
theorem hull_covers (header : ProgramHeader) : header.hullStart ≤ header.vaddr ∧
    header.vaddr + header.memsz ≤ header.hullEnd := by
  simp only [ProgramHeader.hullStart, ProgramHeader.hullEnd, pageFloor, pageSize]
  omega

theorem ProgramHeader.Admitted.hull (h : header.Admitted elf.length) : header.hullEnd ≤ 2 ^ 39 :=
  h.high.trans (by decide)

theorem pageFloor_hull (header : ProgramHeader) :
    header.hullStart ≤ pageFloor virt ∧ pageFloor virt < header.hullEnd ↔
      header.hullStart ≤ virt ∧ virt < header.hullEnd := by
  have haligned := hull_aligned header
  simp only [pageFloor, pageSize] at haligned ⊢
  omega

/-- The pages of a hull. -/
def hullPages (header : ProgramHeader) : List Nat := pagesBetween header.hullStart header.hullEnd

theorem mem_hullPages : page ∈ hullPages header ↔
    page % pageSize = 0 ∧ header.hullStart ≤ page ∧ page < header.hullEnd := by
  have haligned := hull_aligned header
  simp only [hullPages, pagesBetween, List.mem_map, List.mem_range, pageSize] at haligned ⊢
  constructor
  · rintro ⟨index, hindex, rfl⟩
    omega
  · rintro ⟨hpage, hfrom, hto⟩
    exact ⟨(page - header.hullStart) / 4096, by omega, by omega⟩

theorem nodup_hullPages : (hullPages header).Nodup := by
  refine List.Nodup.map (fun index other heq => ?_) List.nodup_range
  simp only [pageSize] at heq
  omega

theorem length_hullPages :
    (hullPages header).length = (header.hullEnd - header.hullStart) / pageSize := by
  have haligned := hull_aligned header
  simp only [hullPages, pagesBetween, List.length_map, List.length_range, pageSize] at haligned ⊢
  omega

theorem finalFlags_leafFlags (flags : Nat) : LeafFlags (finalFlags flags) ∧ finalFlags flags ≠ 0 := by
  unfold finalFlags
  split_ifs <;> decide

/-- Pages in the hull of one of two segments apart are not in the other's. -/
theorem ProgramHeader.Apart.not_mem_hullPages {other : ProgramHeader} (h : other.Apart header)
    (hfrom : other.hullStart ≤ page) (hto : page < other.hullEnd) : page ∉ hullPages header := by
  rw [mem_hullPages]
  rintro ⟨-, hfrom', hto'⟩
  rcases h with h | h <;> omega

/-- Segments loaded earlier are kept by work on the pages of another one. -/
theorem Carries.append {mem after : PhysMem} (h : Carries mem cr3 elf headers)
    (hadmitted : ∀ other ∈ headers, other.Admitted elf.length)
    (hapart : ∀ other ∈ headers, other.Apart header)
    (huntouched : Untouched mem after cr3 (hullPages header))
    (hmapped : ∀ page ∈ hullPages header, MappedAs after cr3 page (finalFlags header.flags))
    (hbytes : ∀ virt, header.hullStart ≤ virt → virt < header.hullEnd →
      userByte after cr3 virt = some (header.byteAt elf virt)) :
    Carries after cr3 elf (headers ++ [header]) where
  mapped := by
    intro other hmem page hpage hfrom hto
    rcases List.mem_append.1 hmem with hmem | hmem
    · rw [MappedAs, huntouched.leaves page hpage ((hapart other hmem).not_mem_hullPages hfrom hto)]
      exact h.mapped other hmem page hpage hfrom hto
    · obtain rfl := List.mem_singleton.1 hmem
      exact hmapped page (mem_hullPages.2 ⟨hpage.1, hfrom, hto⟩)
  bytes := by
    intro other hmem virt hfrom hto
    rcases List.mem_append.1 hmem with hmem | hmem
    · have hfloor := (pageFloor_hull other).2 ⟨hfrom, hto⟩
      have hvirt : virt < 2 ^ 39 := lt_of_lt_of_le hto (hadmitted other hmem).hull
      rw [huntouched.bytes virt hvirt ((hapart other hmem).not_mem_hullPages hfloor.1 hfloor.2)]
      exact h.bytes other hmem virt hfrom hto
    · obtain rfl := List.mem_singleton.1 hmem
      exact hbytes virt hfrom hto
  bare := by
    intro page hpage hout
    rw [huntouched.leaves page hpage fun hmem => ?_]
    · exact h.bare page hpage fun other hmem => hout other (List.mem_append_left _ hmem)
    · have hhull := mem_hullPages.1 hmem
      rcases hout header (List.mem_append_right _ (List.mem_singleton_self _)) with hlow | hhigh <;> omega

section Phases

variable {mapped copied after : Vm}

theorem loadSegment_unmapped (hmap : mapSegmentPages cr3 (hullPages header) vm = .ok (mapped, false)) :
    loadSegment cr3 elf header.segment vm = .ok (mapped, none) := by
  change mapSegmentPages cr3 (pagesBetween header.segment.pageStart header.segment.pageEnd) vm = _ at hmap
  rw [loadSegment, hmap]
  rfl

theorem loadSegment_uncopied (hmap : mapSegmentPages cr3 (hullPages header) vm = .ok (mapped, true))
    (hfile : header.offset + header.filesz ≤ elf.length)
    (hcopy : copyBytes cr3 header.vaddr ((elf.drop header.offset).take header.filesz) mapped =
      (copied, false)) :
    loadSegment cr3 elf header.segment vm = .ok (copied, none) := by
  change mapSegmentPages cr3 (pagesBetween header.segment.pageStart header.segment.pageEnd) vm = _ at hmap
  have hslice : slice elf header.segment.offset header.segment.filesz = _ := slice_ok hfile
  change copyBytes cr3 header.segment.vaddr
    ((elf.drop header.segment.offset).take header.segment.filesz) mapped = _ at hcopy
  rw [loadSegment, hmap, hslice]
  simp only [bind, Except.bind, not_true_eq_false, if_false, hcopy]
  rfl

theorem loadSegment_copied {closed : Bool}
    (hmap : mapSegmentPages cr3 (hullPages header) vm = .ok (mapped, true))
    (hfile : header.offset + header.filesz ≤ elf.length)
    (hcopy : copyBytes cr3 header.vaddr ((elf.drop header.offset).take header.filesz) mapped =
      (copied, true))
    (hprotect : protectPages cr3 (finalFlags header.flags) (hullPages header) copied = (after, closed)) :
    loadSegment cr3 elf header.segment vm =
      .ok (after, if closed then some (hullPages header).length else none) := by
  change mapSegmentPages cr3 (pagesBetween header.segment.pageStart header.segment.pageEnd) vm = _ at hmap
  have hslice : slice elf header.segment.offset header.segment.filesz = _ := slice_ok hfile
  change copyBytes cr3 header.segment.vaddr
    ((elf.drop header.segment.offset).take header.segment.filesz) mapped = _ at hcopy
  change protectPages cr3 (finalFlags header.segment.flags)
    (pagesBetween header.segment.pageStart header.segment.pageEnd) copied = _ at hprotect
  rw [loadSegment, hmap, hslice]
  simp only [bind, Except.bind, not_true_eq_false, if_false, hcopy, hprotect]
  cases closed <;> rfl

end Phases

/-- The three phases put the segment into the space, or loading stops. -/
theorem Memory.loadSegment_spec (h : Memory vm rest cr3)
    (hcarries : Carries vm.mem cr3 elf headers) (hadmitted : ∀ other ∈ headers, other.Admitted elf.length)
    (hheader : header.Admitted elf.length) (hapart : ∀ other ∈ headers, other.Apart header) :
    ∃ after result, loadSegment cr3 elf header.segment vm = .ok (after, result) ∧ Memory after rest cr3 ∧
      ∀ pages, result = some pages →
        pages = (hullPages header).length ∧ Carries after.mem cr3 elf (headers ++ [header]) := by
  have hpages : ∀ page ∈ hullPages header, IsPage page := by
    intro page hmem
    obtain ⟨hpage, -, hto⟩ := mem_hullPages.1 hmem
    exact ⟨hpage, lt_of_lt_of_le hto hheader.hull⟩
  have hbare : ∀ page ∈ hullPages header, leafAt vm.mem cr3 page = none := by
    intro page hmem
    obtain ⟨-, hfrom, hto⟩ := mem_hullPages.1 hmem
    refine hcarries.bare page (hpages page hmem) fun other hother => ?_
    by_contra hin
    exact (hapart other hother).not_mem_hullPages (by omega) (by omega) hmem
  have hsize := hheader.size
  have hinFile := hheader.inFile
  have hcovers := hull_covers header
  have hbound := hheader.hull
  obtain ⟨mapped, ok, hmap, hmappedMem, hmappedOk⟩ := h.mapSegmentPages_spec hpages nodup_hullPages hbare
  have hlength : ((elf.drop header.offset).take header.filesz).length = header.filesz := by
    rw [List.length_take, List.length_drop]
    omega
  have hlimit : header.vaddr + ((elf.drop header.offset).take header.filesz).length ≤ 2 ^ 39 := by omega
  obtain ⟨copied, ok', hcopy, hcopiedMem, hleaves, hcopiedOk⟩ := hmappedMem.copyBytes_spec hlimit
  cases ok with
  | false => exact ⟨mapped, none, loadSegment_unmapped hmap, hmappedMem, nofun⟩
  | true =>
  obtain ⟨huntouched, hcleared⟩ := hmappedOk rfl
  cases ok' with
  | false =>
      exact ⟨copied, none, loadSegment_uncopied hmap hinFile hcopy, hcopiedMem, nofun⟩
  | true =>
  have hwritten := hcopiedOk rfl
  have hready : ∀ page ∈ hullPages header, MappedAs copied.mem cr3 page loadFlags := by
    intro page hmem
    rw [MappedAs, hleaves]
    exact (hcleared page hmem).1
  obtain ⟨hflags, hused⟩ := finalFlags_leafFlags header.flags
  obtain ⟨after, closed, hprotect, hafter, hdone⟩ := hcopiedMem.protectPages_spec hpages
    nodup_hullPages loadFlags_leafFlags hflags hused hready
  refine ⟨after, _, loadSegment_copied hmap hinFile hcopy hprotect, hafter, fun pages hcount => ?_⟩
  cases closed with
  | false => cases hcount
  | true =>
  refine ⟨(Option.some.inj hcount).symm, ?_⟩
  obtain ⟨hsame, hothers, hclosed⟩ := hdone rfl
  have hbyte : ∀ virt < 2 ^ 39, userByte after.mem cr3 virt =
      if header.vaddr ≤ virt ∧ virt < header.vaddr + header.filesz then
        ((elf.drop header.offset).take header.filesz)[virt - header.vaddr]?
      else userByte mapped.mem cr3 virt := by
    intro virt hvirt
    rw [hsame virt hvirt, hwritten virt hvirt, hlength]
  refine hcarries.append hadmitted hapart ⟨fun page hpage hnot => ?_, fun virt hvirt hnot => ?_⟩ hclosed
    fun virt hfrom hto => ?_
  · rw [hothers page hpage hnot, hleaves, huntouched.leaves page hpage hnot]
  · rw [hbyte virt hvirt, if_neg, huntouched.bytes virt hvirt hnot]
    intro hin
    refine hnot (mem_hullPages.2
      ⟨(pageFloor_isPage hvirt).1, (pageFloor_hull header).2 ⟨?_, ?_⟩⟩) <;> omega
  · have hvirt : virt < 2 ^ 39 := by omega
    have hpage : pageFloor virt ∈ hullPages header :=
      mem_hullPages.2 ⟨(pageFloor_isPage hvirt).1, (pageFloor_hull header).2 ⟨hfrom, hto⟩⟩
    rw [hbyte virt hvirt, ProgramHeader.byteAt]
    split_ifs with hin
    · have hindex : header.offset + (virt - header.vaddr) < elf.length := by omega
      rw [List.getElem?_take_of_lt (by omega), List.getElem?_drop, List.getElem?_eq_getElem hindex,
        List.getD_eq_getElem]
    · exact (hcleared _ hpage).2 virt hvirt rfl

end Segment

/-! ## The whole image -/

section Image

variable {vm : Vm} {rest : List Nat} {cr3 entry : Nat} {elf : List UInt8}
  {done headers : List ProgramHeader}

/-- The loop over the segments. -/
theorem Memory.loadSegments_spec (h : Memory vm rest cr3)
    (hcarries : Carries vm.mem cr3 elf done)
    (hadmitted : ∀ header ∈ done ++ headers, header.Admitted elf.length)
    (hapart : (done ++ headers).Pairwise ProgramHeader.Apart) (loaded : Nat) :
    ∃ after result, loadSegments cr3 elf (headers.map ProgramHeader.segment) loaded vm =
      .ok (after, result) ∧
      Memory after rest cr3 ∧
      ∀ pages, result = some pages →
        pages = loaded + (headers.map fun header => (hullPages header).length).sum ∧
          Carries after.mem cr3 elf (done ++ headers) := by
  induction headers generalizing vm done loaded with
  | nil =>
      refine ⟨vm, some loaded, rfl, h, fun pages hpages => ⟨?_, ?_⟩⟩
      · exact (Option.some.inj hpages).symm
      · rwa [List.append_nil]
  | cons header _ ih =>
      have hbefore : ∀ other ∈ done, other.Apart header :=
        fun other hmem => (List.pairwise_append.1 hapart).2.2 other hmem header List.mem_cons_self
      obtain ⟨mid, result, hload, hmid, hdone⟩ := h.loadSegment_spec hcarries
        (fun other hmem => hadmitted other (List.mem_append_left _ hmem))
        (hadmitted header (List.mem_append_right _ List.mem_cons_self)) hbefore
      rw [List.map_cons, loadSegments, hload]
      cases result with
      | none => exact ⟨mid, none, rfl, hmid, nofun⟩
      | some pages =>
          obtain ⟨rfl, hcarried⟩ := hdone pages rfl
          rw [List.append_cons] at hadmitted hapart
          obtain ⟨after, result, hloop, hafter, hall⟩ := ih hmid hcarried hadmitted hapart
            (loaded + (hullPages header).length)
          refine ⟨after, result, hloop, hafter, fun pages hpages => ?_⟩
          obtain ⟨hcount, hcarried'⟩ := hall pages hpages
          rw [List.map_cons, List.sum_cons, ← Nat.add_assoc, List.append_cons]
          exact ⟨hcount, hcarried'⟩

/-- The space holds the image and nothing else. -/
structure Loaded (mem : PhysMem) (cr3 : Nat) (elf : List UInt8) (entry pages : Nat) : Prop where
  apart : (loadHeaders elf).Pairwise ProgramHeader.Apart
  inside : ∀ header ∈ loadHeaders elf,
    pageSize ≤ header.hullStart ∧ header.hullEnd ≤ userStackTop - userStackBytes
  hulls : ∀ page, IsPage page → ((leafAt mem cr3 page).isSome ↔
    ∃ header ∈ loadHeaders elf, header.hullStart ≤ page ∧ page < header.hullEnd)
  count : pages = ((loadHeaders elf).map fun header => (header.hullEnd - header.hullStart) / pageSize).sum
  bytes : ∀ header ∈ loadHeaders elf, ∀ virt, header.hullStart ≤ virt → virt < header.hullEnd →
    userByte mem cr3 virt = some (header.byteAt elf virt)
  rights : ∀ header ∈ loadHeaders elf, ∀ page, IsPage page → header.hullStart ≤ page →
    page < header.hullEnd →
    ∃ leaf, leafAt mem cr3 page = some leaf ∧ leaf &&& flagPresent ≠ 0 ∧ leaf &&& flagUser ≠ 0 ∧
      (leaf &&& flagWritable ≠ 0 ↔ header.flags &&& 2 ≠ 0) ∧
        (leaf &&& flagNoExecute = 0 ↔ header.flags &&& 1 ≠ 0)
  separate : ∀ page leaf, IsPage page → leafAt mem cr3 page = some leaf →
    ¬ (leaf &&& flagWritable ≠ 0 ∧ leaf &&& flagNoExecute = 0)
  start : entry = elfEntry elf ∧ ∃ header ∈ loadHeaders elf, header.Runs entry

/-- The flags of a leaf can be read off its entry. -/
theorem makeEntry_flag {frame flags flag : Nat} (hframe : IsFrame frame)
    (hflag : entryAddrMask &&& flag = 0) :
    makeEntry frame flags &&& flag = flags &&& flag := by
  have hclear : frame &&& flag = 0 := by
    rw [← entryAddr_of_isFrame hframe, entryAddr, Nat.and_assoc, hflag, Nat.and_zero]
  rw [makeEntry, Nat.and_or_distrib_right, hclear, Nat.zero_or]

theorem finalFlags_rights (flags : Nat) :
    finalFlags flags &&& flagPresent ≠ 0 ∧ finalFlags flags &&& flagUser ≠ 0 ∧
    (finalFlags flags &&& flagWritable ≠ 0 ↔ flags &&& 2 ≠ 0) ∧
    (finalFlags flags &&& flagNoExecute = 0 ↔ flags &&& 1 ≠ 0) := by
  unfold finalFlags
  by_cases hwrite : flags &&& 2 ≠ 0 <;> by_cases hrun : flags &&& 1 = 0
  · rw [if_pos hwrite, if_pos hrun]
    exact ⟨by decide, by decide, iff_of_true (by decide) hwrite,
      iff_of_false (by decide) (not_not.2 hrun)⟩
  · rw [if_pos hwrite, if_neg hrun]
    exact ⟨by decide, by decide, iff_of_true (by decide) hwrite, iff_of_true (by decide) hrun⟩
  · rw [if_neg hwrite, if_pos hrun]
    exact ⟨by decide, by decide, iff_of_false (by decide) hwrite,
      iff_of_false (by decide) (not_not.2 hrun)⟩
  · rw [if_neg hwrite, if_neg hrun]
    exact ⟨by decide, by decide, iff_of_false (by decide) hwrite, iff_of_true (by decide) hrun⟩

/-- A segment that is not both writable and executable lacks one of the two flags. -/
theorem flags_and_three {flags : Nat} (h : flags &&& 3 ≠ 3) : ¬ (flags &&& 2 ≠ 0 ∧ flags &&& 1 ≠ 0) := by
  rintro ⟨hwrite, hrun⟩
  have hlow : flags &&& 1 = flags % 2 := Nat.and_one_is_mod flags
  have hhigh : flags.testBit 1 = true := by
    have hmask : flags &&& 2 = (flags.testBit 1).toNat * 2 := Nat.and_two_pow flags 1
    cases hbit : flags.testBit 1 with
    | false => simp [hmask, hbit] at hwrite
    | true => rfl
  rw [Nat.testBit_eq_decide_div_mod_eq, decide_eq_true_eq] at hhigh
  rw [show flags &&& 3 = flags % 4 from Nat.and_two_pow_sub_one_eq_mod flags 2] at h
  omega

theorem Carries.loaded {mem : PhysMem} {plan : LoadPlan} (h : Carries mem cr3 elf (loadHeaders elf))
    (hplan : Planned elf.length (elfEntry elf) (loadHeaders elf) plan)
    (hstart : plan.entryIsExecutable = true) :
    Loaded mem cr3 elf (elfEntry elf)
      (((loadHeaders elf).map fun header => (hullPages header).length).sum) := by
  have hrights : ∀ header ∈ loadHeaders elf, ∀ page, IsPage page → header.hullStart ≤ page →
      page < header.hullEnd →
      ∃ leaf, leafAt mem cr3 page = some leaf ∧ leaf &&& flagPresent ≠ 0 ∧ leaf &&& flagUser ≠ 0 ∧
        (leaf &&& flagWritable ≠ 0 ↔ header.flags &&& 2 ≠ 0) ∧
          (leaf &&& flagNoExecute = 0 ↔ header.flags &&& 1 ≠ 0) := by
    intro header hmem page hpage hfrom hto
    obtain ⟨frame, hframe, hleaf⟩ := h.mapped header hmem page hpage hfrom hto
    refine ⟨_, hleaf, ?_⟩
    rw [makeEntry_flag hframe (by decide), makeEntry_flag hframe (by decide),
      makeEntry_flag hframe (by decide), makeEntry_flag hframe (by decide)]
    exact finalFlags_rights header.flags
  have hhulls : ∀ page, IsPage page → ((leafAt mem cr3 page).isSome ↔
      ∃ header ∈ loadHeaders elf, header.hullStart ≤ page ∧ page < header.hullEnd) := by
    intro page hpage
    constructor
    · intro hsome
      by_contra hnone
      push Not at hnone
      rw [h.bare page hpage fun header hmem => ?_] at hsome
      · cases hsome
      · have := hnone header hmem
        omega
    · rintro ⟨header, hmem, hfrom, hto⟩
      obtain ⟨frame, -, hleaf⟩ := h.mapped header hmem page hpage hfrom hto
      rw [hleaf]
      rfl
  refine ⟨hplan.apart,
    fun header hmem => ⟨(hplan.admitted header hmem).low, (hplan.admitted header hmem).high⟩,
    hhulls, ?_, h.bytes, hrights, ?_, rfl, hplan.executable hstart⟩
  · simp only [length_hullPages]
  · intro page leaf hpage hleaf hboth
    obtain ⟨header, hmem, hfrom, hto⟩ := (hhulls page hpage).1 (hleaf ▸ rfl)
    obtain ⟨found, hfound, -, -, hwrite, hrun⟩ := hrights header hmem page hpage hfrom hto
    obtain rfl := Option.some.inj (hfound.symm.trans hleaf)
    exact flags_and_three (hplan.admitted header hmem).rights ⟨hwrite.1 hboth.1, hrun.1 hboth.2⟩

/-- Loading an image into an empty space. -/
theorem Memory.loadElf_spec (h : Memory vm rest cr3)
    (hbare : ∀ page, IsPage page → leafAt vm.mem cr3 page = none) (elf : List UInt8) :
    ∃ after result, loadElf cr3 elf vm = .ok (after, result) ∧
      ∀ entry pages, result = some (entry, pages) → Loaded after.mem cr3 elf entry pages := by
  unfold loadElf
  rcases planElf_spec elf with hplan | ⟨plan, hplan, hplanned⟩
  · rw [hplan]
    exact ⟨vm, none, rfl, nofun⟩
  · have hempty : Carries vm.mem cr3 elf [] := ⟨nofun, nofun, fun page hpage _ => hbare page hpage⟩
    have hadmitted : ∀ header ∈ [] ++ loadHeaders elf, header.Admitted elf.length := hplanned.admitted
    have hapart : ([] ++ loadHeaders elf).Pairwise ProgramHeader.Apart := hplanned.apart
    obtain ⟨after, result, hload, -, hdone⟩ := h.loadSegments_spec hempty hadmitted hapart 0
    rw [← hplanned.segments] at hload
    rw [hplan]
    change ∃ after result, (loadSegments cr3 elf plan.segments 0 vm >>= _) = _ ∧ _
    rw [hload]
    cases result with
    | none => exact ⟨after, none, rfl, nofun⟩
    | some pages =>
        obtain ⟨hcount, hcarries⟩ := hdone pages rfl
        rw [Nat.zero_add] at hcount
        refine ⟨after, if plan.entryIsExecutable then some (elfEntry elf, pages) else none, ?_,
          fun entry count hresult => ?_⟩
        · change (if plan.entryIsExecutable then _ else _ : Except Panic _) = _
          split_ifs <;> rfl
        · split_ifs at hresult with hstart
          cases hresult
          subst hcount
          exact hcarries.loaded hplanned hstart

/-- The sums that the loader forms without checking them: the end of each header, once the
header table is known to lie in the file, the ends of the planned segments in the file
and in memory, and the number of pages. -/
def uncheckedSums (elf : List UInt8) : List Nat :=
  (if elfPhoff elf + elfPhnum elf * elfPhentsize elf ≤ elf.length ∧ 56 ≤ elfPhentsize elf then
    (headerOffsets elf (List.range (elfPhnum elf))).map (· + 56)
  else []) ++
    match planElf elf with
    | .ok (some (_, plan)) =>
        (plan.segments.map fun segment => (segment.pageEnd - segment.pageStart) / pageSize).sum ::
          plan.segments.flatMap fun segment =>
            [segment.offset + segment.filesz, segment.vaddr + segment.filesz, segment.pageEnd]
    | _ => []

theorem elfPhnum_lt (elf : List UInt8) : elfPhnum elf < 2 ^ 16 := by
  refine lt_of_lt_of_le (fromLeBytes_lt _) ?_
  exact Nat.pow_le_pow_right (by decide : 0 < 256) (List.length_take_le 2 _)

/-- The pages of all segments together. -/
theorem sum_hulls_lt (hadmitted : ∀ header ∈ loadHeaders elf, header.Admitted elf.length) :
    ((loadHeaders elf).map fun header =>
      (header.hullEnd - header.hullStart) / pageSize).sum < wordLimit := by
  have hlength : (loadHeaders elf).length < 2 ^ 16 := by
    refine lt_of_le_of_lt (List.length_filterMap_le _ _) ?_
    rw [headerOffsets, List.length_map, List.length_range]
    exact elfPhnum_lt elf
  have hsum : ((loadHeaders elf).map fun header => (header.hullEnd - header.hullStart) / pageSize).sum ≤
      ((loadHeaders elf).map fun header => (header.hullEnd - header.hullStart) / pageSize).length •
        2 ^ 39 := by
    refine List.sum_le_card_nsmul _ _ fun count hmem => ?_
    obtain ⟨header, hheader, rfl⟩ := List.mem_map.1 hmem
    have := (hadmitted header hheader).hull
    exact (Nat.div_le_self _ _).trans (by omega)
  rw [List.length_map] at hsum
  change _ ≤ (loadHeaders elf).length * 2 ^ 39 at hsum
  simp only [wordLimit]
  omega

/-- No sum of the loader wraps around. -/
theorem uncheckedSums_lt (hlength : elf.length < wordLimit) :
    ∀ sum ∈ uncheckedSums elf, sum < wordLimit := by
  intro sum hmem
  rcases List.mem_append.1 hmem with hmem | hmem
  · split_ifs at hmem with htable
    · obtain ⟨ph, hph, rfl⟩ := List.mem_map.1 hmem
      obtain ⟨index, hindex, rfl⟩ := List.mem_map.1 hph
      have hlast : (index + 1) * elfPhentsize elf ≤ elfPhnum elf * elfPhentsize elf :=
        Nat.mul_le_mul_right _ (List.mem_range.1 hindex)
      rw [Nat.succ_mul] at hlast
      omega
    · cases hmem
  · rcases planElf_spec elf with hplan | ⟨plan, hplan, hplanned⟩
    · rw [hplan] at hmem
      cases hmem
    · rw [hplan] at hmem
      dsimp only at hmem
      rw [hplanned.segments, List.map_map, List.flatMap_map] at hmem
      rcases List.mem_cons.1 hmem with rfl | hmem
      · exact sum_hulls_lt hplanned.admitted
      · obtain ⟨header, hheader, hend⟩ := List.mem_flatMap.1 hmem
        have hadmitted := hplanned.admitted header hheader
        have hinFile := hadmitted.inFile
        have hsize := hadmitted.size
        have hbound := hadmitted.hull
        have hcovers := hull_covers header
        simp only [ProgramHeader.segment, List.mem_cons, List.not_mem_nil, or_false] at hend
        simp only [wordLimit] at hlength ⊢
        omega

/-- Loading is exact: no sum wraps, no read leaves the file and nothing stops the kernel;
either loading fails, or the space holds the image and nothing else. -/
theorem loadElf_exact (h : Memory vm rest cr3)
    (hbare : ∀ page, IsPage page → leafAt vm.mem cr3 page = none) (hlength : elf.length < wordLimit) :
    (∀ sum ∈ uncheckedSums elf, sum < wordLimit) ∧
      ∃ after result, loadElf cr3 elf vm = .ok (after, result) ∧
        ∀ entry pages, result = some (entry, pages) → Loaded after.mem cr3 elf entry pages :=
  ⟨uncheckedSums_lt hlength, h.loadElf_spec hbare elf⟩

end Image

/-- One empty space in the first frame of a megabyte, and a frame of the rest beside it. -/
def emptySpace : Vm where
  mem := fun _ _ => 0
  frames := ((FrameAllocator.init FrameAllocator.oneMegabyte).allocFrames 2).1
  addressSpaces := [0x100000]
  kstacks := []
  nextKstackSlot := 1

theorem emptySpace_memory : Memory emptySpace [0x101000] 0x100000 := by
  have hspec := FrameAllocator.allocFrames_spec
    (FrameAllocator.init_holds FrameAllocator.oneMegabyte_reported) (by decide : FrameAllocator.Fits 2)
  rw [(by decide +kernel : ((FrameAllocator.init FrameAllocator.oneMegabyte).allocFrames 2).2 =
    some 0x100000)] at hspec
  refine ⟨?_⟩
  rw [(slot_unused rfl).1]
  exact hspec.perm (List.Perm.swap _ _ _)

/-- Eight bytes of the file, executable, with eight bytes of zeros behind them. -/
def tinyElf : List UInt8 :=
  [0x7f, 0x45, 0x4c, 0x46, 2, 1, 1, 0] ++ toLeBytes 8 0 ++ toLeBytes 2 2 ++ toLeBytes 2 0x3e ++
    toLeBytes 4 1 ++ toLeBytes 8 0x400000 ++ toLeBytes 8 64 ++ toLeBytes 8 0 ++ toLeBytes 4 0 ++
    toLeBytes 2 64 ++ toLeBytes 2 56 ++ toLeBytes 2 1 ++ toLeBytes 6 0 ++
    toLeBytes 4 1 ++ toLeBytes 4 5 ++ toLeBytes 8 0 ++ toLeBytes 8 0x400000 ++ toLeBytes 8 0 ++
    toLeBytes 8 8 ++ toLeBytes 8 16 ++ toLeBytes 8 0x1000

theorem loadElf_exact_tinyElf :
    ∃ after, loadElf 0x100000 tinyElf emptySpace = .ok (after, some (0x400000, 1)) ∧
    Loaded after.mem 0x100000 tinyElf 0x400000 1 := by
  have hruns : (loadElf 0x100000 tinyElf emptySpace).map Prod.snd = .ok (some (0x400000, 1)) := by
    decide +kernel
  obtain ⟨-, after, result, hload, hloaded⟩ := loadElf_exact emptySpace_memory
    (fun page _ => (slot_unused rfl).2 page) (by decide : tinyElf.length < wordLimit)
  rw [hload] at hruns
  obtain rfl : result = some (0x400000, 1) := Except.ok.inj hruns
  exact ⟨after, hload, hloaded _ _ rfl⟩

end Redoubt.Kernel
