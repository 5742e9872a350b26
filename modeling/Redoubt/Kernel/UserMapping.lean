import Redoubt.Kernel.Ownership

/-!
# The user pages of one space

The leaves of a space, read page by page, change at the page that is mapped; the bytes of
its other pages stay.
-/

namespace Redoubt.Kernel

open Redoubt.Foundation

/-- The leaf entry of a user page. -/
def leafAt (mem : PhysMem) (cr3 page : Nat) : Option Nat := slotLeaf mem cr3 0 (pathOf page)

/-- The address of a user page. -/
def IsPage (page : Nat) : Prop := page % pageSize = 0 ∧ page < 2 ^ 39

section Leaves

variable {mem after : PhysMem} {cr3 page other virt : Nat}

theorem pageFloor_isPage (h : virt < 2 ^ 39) : IsPage (pageFloor virt) := by
  simp only [IsPage, pageFloor, pageSize]
  omega

theorem pathOf_inj (hpage : IsPage page) (hother : IsPage other) (h : pathOf page = pathOf other) :
    page = other :=
  virt_eq_of_path hpage.2 hother.2 h (hpage.1.trans hother.1.symm)

theorem pathOf_pageFloor (virt : Nat) : pathOf (pageFloor virt) = pathOf virt := by
  simp only [pathOf, p3Index, p2Index, p1Index, pageFloor, pageSize, List.cons.injEq, and_true]
  omega

theorem translate_leafAt (h : virt < 2 ^ 39) : translate mem cr3 virt =
    (leafAt mem cr3 (pageFloor virt)).map fun entry => entryAddr entry + virt % pageSize := by
  rw [translate, leafPte_eq, p4Index_user h, leafAt, pathOf_pageFloor]

/-- Memories with the same leaf for a page and the same contents behind it agree on its
bytes. -/
theorem userByte_congr (h : virt < 2 ^ 39)
    (hleaf : (leafAt after cr3 (pageFloor virt)).map entryAddr =
      (leafAt mem cr3 (pageFloor virt)).map entryAddr)
    (hcontent : ∀ entry, leafAt mem cr3 (pageFloor virt) = some entry →
      ∀ index, after (entryAddr entry) index = mem (entryAddr entry) index) :
    userByte after cr3 virt = userByte mem cr3 virt := by
  rw [userByte, userByte, translate_leafAt h, translate_leafAt h]
  cases hbefore : leafAt mem cr3 (pageFloor virt) with
  | none =>
      rw [hbefore, Option.map_none, Option.map_eq_none_iff] at hleaf
      rw [hleaf]
      rfl
  | some entry =>
      rw [hbefore, Option.map_some, Option.map_eq_some_iff] at hleaf
      obtain ⟨entry', hafter, haddr⟩ := hleaf
      rw [hafter, Option.map_some, Option.map_some, Option.map_some, Option.map_some, haddr]
      have hfloor :=
        pageFloor_add_offset (entryAddr_aligned entry) (Nat.mod_lt virt (by decide : 0 < pageSize))
      rw [PhysMem.readByte, PhysMem.readByte, hfloor.1, hcontent entry hbefore]

/-- The frame behind a leaf is one of the space's pages. -/
theorem leafAt_mem_pages {entry : Nat} (h : leafAt mem cr3 page = some entry) :
    entryAddr entry ∈ slotPages mem cr3 0 :=
  (slotLeaf_decode (length_pathOf page) (pathOf_bounded page) h).2

/-- A space with no entry in use has its PML4 only. -/
theorem slot_unused {mem : PhysMem} {pml4 : Nat} (h : mem pml4 0 = 0) :
    spaceFrames mem pml4 = [pml4] ∧ ∀ page, leafAt mem pml4 page = none := by
  refine ⟨?_, fun page => ?_⟩
  · rw [spaceFrames, slotTables, slotPages, h, decode_zero]
    rfl
  · rw [leafAt, slotLeaf, h, decode_zero, Option.bind_none]

end Leaves

/-! ## Editing a leaf -/

/-- The tables of one space have been worked on, and its leaves are the given ones. -/
structure Edited (vm after : Vm) (cr3 : Nat) (leaf : Nat → Option Nat) : Prop where
  content : Beyond vm after (cr3 :: slotTables vm.mem cr3 0)
  leaves : ∀ page, IsPage page → leafAt after.mem cr3 page = leaf page

section Edit

variable {vm after : Vm} {cr3 page phys flags : Nat} {rest : List Nat}

theorem isFrame_pageFloor (h : IsFrame phys) : pageFloor phys = phys := by
  have := h.1
  simp only [pageFloor, pageSize] at this ⊢
  omega

theorem leaves_update {value : Option Nat} (hpage : IsPage page)
    (hleaf : leafAt after.mem cr3 page = value)
    (hleaves : ∀ path, path ≠ pathOf page → path.length = 3 → (∀ index ∈ path, index < 512) →
      slotLeaf after.mem cr3 0 path = slotLeaf vm.mem cr3 0 path) (other : Nat) (hother : IsPage other) :
    leafAt after.mem cr3 other = Function.update (leafAt vm.mem cr3) page value other := by
  by_cases heq : other = page
  · subst heq
    rw [Function.update_self, hleaf]
  · rw [Function.update_of_ne heq]
    exact hleaves _ (fun hpath => heq (pathOf_inj hother hpage hpath)) (length_pathOf other)
      (pathOf_bounded other)

/-- Mapping a user page fails, or sets the leaf of the page. -/
theorem Memory.mapPage_cases (h : Memory vm rest cr3) (hpage : IsPage page)
    (hphys : IsFrame phys) (hflags : LeafFlags flags) (hused : flags ≠ 0) :
    (∃ after, vm.mapPageIn cr3 page phys flags = (after, false) ∧ Memory after rest cr3) ∨
    ∃ after, vm.mapPageIn cr3 page phys flags = (after, true) ∧
      (∀ rest', (rest ++ ((leafAt vm.mem cr3 page).map entryAddr).toList).Perm (rest' ++ [phys]) →
        Memory after rest' cr3 ∧
        Edited vm after cr3
          (Function.update (leafAt vm.mem cr3) page (some (makeEntry phys flags)))) := by
  have hroot : p4Index page = 0 := p4Index_user hpage.2
  have hfloor := isFrame_pageFloor hphys
  have htree := h.slotTree
  rw [← hroot] at htree
  rcases mapPageIn_cases htree (hfloor.symm ▸ hphys) hflags (makeEntry_ne_zero hused) with
    ⟨after, new, hmap, hgrew⟩ | ⟨after, new, hmap, hremapped⟩
  · rw [hroot] at hgrew
    exact .inl ⟨after, hmap, .extended hgrew.toExtends (hgrew.pages.append_right []) (.refl _)⟩
  · rw [hroot, hfloor] at hremapped
    have hpages := hremapped.pages
    rw [Option.map_some, entryAddr_makeEntry hphys hflags, Option.toList_some] at hpages
    refine .inr ⟨after, hmap, fun rest' hrest => ⟨.extended hremapped.toExtends hpages hrest, ?_⟩⟩
    exact ⟨hremapped.toExtends.beyond, leaves_update hpage hremapped.leaf hremapped.leaves⟩

end Edit

end Redoubt.Kernel
