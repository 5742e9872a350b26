import Redoubt.Foundation.RadixTree
import Redoubt.Kernel.FrameSafety
import Redoubt.Kernel.Paging

/-!
# Page tables as radix trees

The tables under one slot of a PML4 form a tree of height three.  Mapping a page
links at most three cleared tables into it and then sets one leaf; unmapping
clears one leaf.  Neither touches anything outside the slot's tables.
-/

namespace Redoubt.Kernel

open Redoubt.Foundation

/-! ## Entries -/

/-- Flags that leave the address bits of an entry alone and ask for no huge page. -/
def LeafFlags (flags : Nat) : Prop := flags &&& entryAddrMask = 0 ∧ flags &&& flagHuge = 0

instance (flags : Nat) : Decidable (LeafFlags flags) := inferInstanceAs (Decidable (_ ∧ _))

/-- A page-aligned physical address. -/
def IsFrame (frame : Nat) : Prop := frame % pageSize = 0 ∧ frame < FrameAllocator.physLimit

/-- The address of an entry is its bits 12 to 51. -/
theorem entryAddr_eq (entry : Nat) : entryAddr entry = (entry >>> 12 % 2 ^ 40) <<< 12 := by
  refine Nat.eq_of_testBit_eq fun bit => ?_
  have hmask : entryAddrMask = (2 ^ 40 - 1) <<< 12 := by decide
  rw [entryAddr, hmask, Nat.testBit_and]
  simp only [Nat.testBit_shiftLeft, Nat.testBit_two_pow_sub_one, Nat.testBit_mod_two_pow,
    Nat.testBit_shiftRight]
  by_cases h : 12 ≤ bit
  · simp [h, Bool.and_comm]
  · simp [h]

theorem entryAddr_aligned (entry : Nat) : entryAddr entry % pageSize = 0 := by
  rw [entryAddr_eq, Nat.shiftLeft_eq]
  simp only [pageSize]
  omega

theorem entryAddr_of_isFrame {frame : Nat} (h : IsFrame frame) : entryAddr frame = frame := by
  obtain ⟨haligned, hlimit⟩ := h
  rw [entryAddr_eq, Nat.shiftLeft_eq, Nat.shiftRight_eq_div_pow]
  simp only [pageSize, FrameAllocator.physLimit] at haligned hlimit
  omega

theorem entryAddr_makeEntry {frame flags : Nat} (hframe : IsFrame frame) (hflags : LeafFlags flags) :
    entryAddr (makeEntry frame flags) = frame := by
  have h := entryAddr_of_isFrame hframe
  rw [entryAddr] at h ⊢
  rw [makeEntry, Nat.and_or_distrib_right, hflags.1, Nat.or_zero, h]

theorem makeEntry_ne_zero {frame flags : Nat} (hflags : flags ≠ 0) : makeEntry frame flags ≠ 0 :=
  fun h => hflags (Nat.or_eq_zero_iff.1 h).2

/-! ## The tree under a slot -/

/-- An entry in use points to the frame in its address bits. -/
def pageRadix : Radix Nat Nat where
  decode := fun entry => if entry = 0 then none else some (entryAddr entry)
  fanout := 512

section Decode

variable {entry frame flags : Nat}

theorem decode_zero : pageRadix.decode 0 = none := rfl

theorem decode_of_ne (h : entry ≠ 0) : pageRadix.decode entry = some (entryAddr entry) := if_neg h

theorem decode_eq_none : pageRadix.decode entry = none ↔ entry = 0 := by
  simp [pageRadix]

theorem decode_makeEntry (hframe : IsFrame frame) (hflags : LeafFlags flags)
    (hused : makeEntry frame flags ≠ 0) : pageRadix.decode (makeEntry frame flags) = some frame := by
  rw [decode_of_ne hused, entryAddr_makeEntry hframe hflags]

/-- A used entry's address is the frame it points to. -/
theorem map_entryAddr_decode :
    ((pageRadix.decode entry).map fun _ => entry).map entryAddr = pageRadix.decode entry := by
  by_cases h : entry = 0
  · rw [decode_eq_none.2 h]
    rfl
  · rw [decode_of_ne h]
    rfl

end Decode

/-- The page tables under one slot of a PML4. -/
def slotTables (mem : PhysMem) (pml4 slot : Nat) : List Nat :=
  (pageRadix.decode (mem pml4 slot)).elim [] (pageRadix.tables mem 3)

/-- The pages mapped under one slot of a PML4. -/
def slotPages (mem : PhysMem) (pml4 slot : Nat) : List Nat :=
  (pageRadix.decode (mem pml4 slot)).elim [] (pageRadix.pages mem 3)

/-- The leaf entry that three indices select under a slot. -/
def slotLeaf (mem : PhysMem) (pml4 slot : Nat) (path : List Nat) : Option Nat :=
  (pageRadix.decode (mem pml4 slot)).bind fun root => pageRadix.leaf mem root path

/-- The table that indices lead to under a slot. -/
def Located (mem : PhysMem) (pml4 slot : Nat) (path : List Nat) (table : Nat) : Prop :=
  ((pageRadix.decode (mem pml4 slot)).bind fun root => pageRadix.descend mem root path) = some table

/-- The indices below the PML4. -/
def pathOf (virt : Nat) : List Nat := [p3Index virt, p2Index virt, p1Index virt]

theorem leafPte_eq (mem : PhysMem) (pml4 virt : Nat) :
    leafPte mem pml4 virt = slotLeaf mem pml4 (p4Index virt) (pathOf virt) := by
  unfold leafPte slotLeaf pathOf
  dsimp only
  split
  · rename_i h4
    rw [h4, decode_zero, Option.bind_none]
  rename_i h4
  rw [decode_of_ne h4, Option.bind_some, Radix.leaf_cons (by simp)]
  split
  · rename_i h3
    rw [h3, decode_zero, Option.bind_none]
  rename_i h3
  rw [decode_of_ne h3, Option.bind_some, Radix.leaf_cons (by simp)]
  split
  · rename_i h2
    rw [h2, decode_zero, Option.bind_none]
  rename_i h2
  rw [decode_of_ne h2, Option.bind_some, Radix.leaf]
  split
  · rename_i h1
    rw [h1, decode_zero, Option.map_none]
  · rename_i h1
    rw [decode_of_ne h1, Option.map_some]

section Slot

variable {mem mem' : PhysMem} {pml4 slot table child index : Nat} {path : List Nat}

/-- What a slot holds is determined by its entry and its tables. -/
theorem slot_congr (hentry : mem' pml4 slot = mem pml4 slot)
    (htables : ∀ table ∈ slotTables mem pml4 slot, ∀ index, mem' table index = mem table index) :
    slotTables mem' pml4 slot = slotTables mem pml4 slot ∧
    slotPages mem' pml4 slot = slotPages mem pml4 slot ∧
    ∀ path, path.length = 3 → (∀ index ∈ path, index < 512) →
      slotLeaf mem' pml4 slot path = slotLeaf mem pml4 slot path := by
  simp only [slotTables, slotPages, slotLeaf, hentry] at htables ⊢
  cases hroot : pageRadix.decode (mem pml4 slot) with
  | none => simp only [Option.elim_none, Option.bind_none, implies_true, and_self]
  | some root =>
      rw [hroot] at htables
      have hsame : ∀ table ∈ pageRadix.tables mem 3 root, ∀ index < pageRadix.fanout,
          mem' table index = mem table index := fun table hmem index _ => htables table hmem index
      exact ⟨Radix.gather_congr hsame, Radix.gather_congr hsame, fun path hlength hpath =>
        Radix.leaf_congr hpath (le_of_eq hlength) hsame⟩

theorem Located.mem_slotTables (h : Located mem pml4 slot path table)
    (hpath : ∀ index ∈ path, index < 512) (hlength : path.length < 3) :
    table ∈ slotTables mem pml4 slot := by
  obtain ⟨root, hroot, hdescend⟩ := Option.bind_eq_some_iff.1 h
  rw [slotTables, hroot]
  exact Radix.descend_mem_tables hpath hlength hdescend

end Slot

/-! ## Linking tables -/

/-- A slot whose tables are separate frames, none of them and not the PML4 on the free
side of the allocator. -/
structure SlotTree (vm : Vm) (held : List Nat) (pml4 slot : Nat) : Prop where
  holds : vm.frames.Holds held
  nodup : (slotTables vm.mem pml4 slot).Nodup
  owned : ∀ table ∈ slotTables vm.mem pml4 slot, vm.frames.OffFree table
  root : pml4 ∉ slotTables vm.mem pml4 slot
  settled : vm.frames.OffFree pml4

/-- These frames were taken off the allocator's free side. -/
structure Taken (vm after : Vm) (new : List Nat) : Prop where
  kept : ∀ address, vm.frames.OffFree address → after.frames.OffFree address
  fresh : ∀ frame ∈ new, ¬ vm.frames.OffFree frame

namespace Taken

variable {vm mid after : Vm} {new more : List Nat}

theorem refl : Taken vm vm [] := ⟨fun _ => id, nofun⟩

theorem trans (hfirst : Taken vm mid new) (hsecond : Taken mid after more) :
    Taken vm after (more ++ new) where
  kept := fun address hoff => hsecond.kept address (hfirst.kept address hoff)
  fresh := by
    rw [List.forall_mem_append]
    exact ⟨fun frame hmem hoff => hsecond.fresh frame hmem (hfirst.kept frame hoff), hfirst.fresh⟩

end Taken

/-- What mapping and unmapping have in common: the tables under the slot may grow by
frames from the free side, and nothing outside them changes. -/
structure Extends (vm after : Vm) (held : List Nat) (pml4 slot : Nat) (new : List Nat) : Prop where
  holds : after.frames.Holds (new ++ held)
  taken : Taken vm after new
  same : ∀ frame ∉ slotTables vm.mem pml4 slot, frame ∉ new → ∀ index, (frame = pml4 → index ≠ slot) →
    after.mem frame index = vm.mem frame index
  tables : (slotTables after.mem pml4 slot).Perm (new ++ slotTables vm.mem pml4 slot)

/-- The second memory has a few more tables under the slot, linked and cleared,
and no other difference to the first. -/
structure Grew (vm after : Vm) (held : List Nat) (pml4 slot : Nat) (new : List Nat) : Prop
    extends Extends vm after held pml4 slot new where
  pages : (slotPages after.mem pml4 slot).Perm (slotPages vm.mem pml4 slot)
  leaves : ∀ path, path.length = 3 → (∀ index ∈ path, index < 512) →
    slotLeaf after.mem pml4 slot path = slotLeaf vm.mem pml4 slot path

section Linking

variable {vm mid after : Vm} {held new more : List Nat} {pml4 slot table index : Nat} {path : List Nat}

theorem Extends.slotTree (h : Extends vm after held pml4 slot new) (htree : SlotTree vm held pml4 slot) :
    SlotTree after (new ++ held) pml4 slot := by
  have hnew := (List.nodup_append.1 h.holds.nodup).1
  refine ⟨h.holds, h.tables.nodup_iff.2 (List.nodup_append.2 ⟨hnew, htree.nodup, ?_⟩), ?_, ?_, ?_⟩
  · rintro frame hframe _ hother rfl
    exact h.taken.fresh frame hframe (htree.owned frame hother)
  · intro table hmem
    rcases List.mem_append.1 (h.tables.mem_iff.1 hmem) with hmem | hmem
    · exact h.holds.offFree (List.mem_append_left _ hmem)
    · exact h.taken.kept table (htree.owned table hmem)
  · intro hmem
    rcases List.mem_append.1 (h.tables.mem_iff.1 hmem) with hmem | hmem
    · exact h.taken.fresh pml4 hmem htree.settled
    · exact htree.root hmem
  · exact h.taken.kept pml4 htree.settled

theorem Extends.refl (htree : SlotTree vm held pml4 slot) : Extends vm vm held pml4 slot [] :=
  ⟨htree.holds, .refl, fun _ _ _ _ _ => rfl, .refl _⟩

theorem Extends.trans (hfirst : Extends vm mid held pml4 slot new)
    (hsecond : Extends mid after (new ++ held) pml4 slot more) :
    Extends vm after held pml4 slot (more ++ new) where
  holds := by rw [List.append_assoc]; exact hsecond.holds
  taken := hfirst.taken.trans hsecond.taken
  same := by
    intro frame htables hnew index hroot
    rw [List.mem_append, not_or] at hnew
    have hmid : frame ∉ slotTables mid.mem pml4 slot := by
      rw [hfirst.tables.mem_iff, List.mem_append, not_or]
      exact ⟨hnew.2, htables⟩
    rw [hsecond.same frame hmid hnew.1 index hroot, hfirst.same frame htables hnew.2 index hroot]
  tables := by
    rw [List.append_assoc]
    exact hsecond.tables.trans (hfirst.tables.append_left _)

theorem Grew.refl (htree : SlotTree vm held pml4 slot) : Grew vm vm held pml4 slot [] :=
  ⟨.refl htree, .refl _, fun _ _ _ => rfl⟩

theorem Grew.trans (hfirst : Grew vm mid held pml4 slot new)
    (hsecond : Grew mid after (new ++ held) pml4 slot more) :
    Grew vm after held pml4 slot (more ++ new) where
  toExtends := hfirst.toExtends.trans hsecond.toExtends
  pages := hsecond.pages.trans hfirst.pages
  leaves := fun path hlength hpath =>
    (hsecond.leaves path hlength hpath).trans (hfirst.leaves path hlength hpath)

/-- A cleared table has nothing below it. -/
theorem gather_cleared {mem : PhysMem} {atTable atPage : Nat → List Nat} {level : Nat}
    (h : ∀ index < 512, mem table index = 0) :
    pageRadix.gather atTable atPage mem (level + 1) table = atTable table := by
  rw [Radix.gather_succ, List.flatMap_eq_nil_iff.2, List.append_nil]
  intro index hindex
  rw [h index (List.mem_range.1 hindex), Radix.below, decode_zero, Option.elim_none]

theorem leaf_cleared {mem : PhysMem} (h : ∀ index < 512, mem table index = 0)
    (hpath : ∀ index ∈ path, index < 512) : pageRadix.leaf mem table path = none := by
  cases path with
  | nil => rfl
  | cons index rest =>
      have hentry := h index (hpath index List.mem_cons_self)
      cases rest with
      | nil => rw [Radix.leaf, hentry, decode_zero, Option.map_none]
      | cons => rw [Radix.leaf_cons (by simp), hentry, decode_zero, Option.bind_none]

/-- Link a cleared frame into an unused entry. -/
def linkTable (mem : PhysMem) (table index frame : Nat) : PhysMem :=
  (mem.zeroFrame frame).setWord table index (makeEntry frame tableFlags)

theorem tableFlags_leafFlags : LeafFlags tableFlags := by decide

theorem decode_tableEntry {frame : Nat} (hframe : IsFrame frame) :
    pageRadix.decode (makeEntry frame tableFlags) = some frame :=
  decode_makeEntry hframe tableFlags_leafFlags (makeEntry_ne_zero (by decide))

section LinkTable

variable {mem : PhysMem} {frame : Nat}

theorem linkTable_entry : linkTable mem table index frame table index = makeEntry frame tableFlags := by
  simp [linkTable, PhysMem.setWord]

theorem linkTable_cleared (hne : frame ≠ table) (next : Nat) :
    linkTable mem table index frame frame next = 0 := by
  simp [linkTable, PhysMem.setWord, PhysMem.zeroFrame, hne]

theorem linkTable_other {other next : Nat} (hframe : other ≠ frame)
    (hentry : other = table → next ≠ index) :
    linkTable mem table index frame other next = mem other next := by
  by_cases h : other = table
  · subst h
    simp [linkTable, PhysMem.setWord, PhysMem.zeroFrame, hframe, hentry rfl]
  · simp [linkTable, PhysMem.setWord, PhysMem.zeroFrame, hframe, h]

end LinkTable

/-- The outcomes of looking behind an entry: it was in use, memory ran out, or a
new frame was linked. -/
theorem nextTableMut_cases (hold : vm.frames.Holds held) (table index : Nat) :
    (vm.mem table index ≠ 0 ∧
      vm.nextTableMut table index = (vm, some (entryAddr (vm.mem table index)))) ∨
    (vm.mem table index = 0 ∧
      ∃ frames, vm.nextTableMut table index = ({ vm with frames := frames }, none) ∧
      frames.Holds held ∧ Taken vm { vm with frames := frames } []) ∨
    (vm.mem table index = 0 ∧ ∃ frames frame, vm.nextTableMut table index =
        ({ vm with frames := frames, mem := linkTable vm.mem table index frame }, some frame) ∧
      IsFrame frame ∧ frames.Holds (frame :: held) ∧
      Taken vm { vm with frames := frames, mem := linkTable vm.mem table index frame } [frame]) := by
  unfold Vm.nextTableMut
  by_cases hentry : vm.mem table index = 0
  · rw [if_pos hentry]
    rcases Vm.alloc_cases hold with ⟨frames, halloc, hafter, hkept⟩ |
      ⟨frames, frame, halloc, hafter, hkept, hfresh⟩
    · exact .inr (.inl ⟨hentry, frames, by rw [halloc], hafter, hkept, nofun⟩)
    · have hframe : IsFrame frame := ⟨hafter.aligned frame List.mem_cons_self,
        hafter.lt_physLimit List.mem_cons_self⟩
      refine .inr (.inr ⟨hentry, frames, frame, ?_, hframe, hafter, hkept, by simpa using hfresh⟩)
      rw [halloc]
      dsimp only
      rw [entryAddr_makeEntry hframe tableFlags_leafFlags]
      rfl
  · exact .inl ⟨hentry, if_neg hentry⟩

/-- Looking behind the PML4's own entry. -/
theorem nextTableMut_root (htree : SlotTree vm held pml4 slot) :
    ∃ after new, Grew vm after held pml4 slot new ∧
      (vm.nextTableMut pml4 slot = (after, none) ∨
        ∃ child, vm.nextTableMut pml4 slot = (after, some child) ∧
          Located after.mem pml4 slot [] child) := by
  rcases nextTableMut_cases htree.holds pml4 slot with ⟨hne, hnext⟩ |
    ⟨hzero, frames, hnext, hafter, htaken⟩ | ⟨hzero, frames, frame, hnext, hframe, hafter, htaken⟩
  · refine ⟨vm, [], .refl htree, .inr ⟨_, hnext, ?_⟩⟩
    rw [Located, decode_of_ne hne]
    rfl
  · exact ⟨{ vm with frames := frames }, [], ⟨⟨hafter, htaken, fun _ _ _ _ _ => rfl, .refl _⟩, .refl _,
      fun _ _ _ => rfl⟩, .inl hnext⟩
  · have hne : frame ≠ pml4 := by
      rintro rfl
      exact htaken.fresh frame List.mem_cons_self htree.settled
    have hroot : pageRadix.decode (linkTable vm.mem pml4 slot frame pml4 slot) = some frame := by
      rw [linkTable_entry]
      exact decode_tableEntry hframe
    have hcleared : ∀ index < 512, linkTable vm.mem pml4 slot frame frame index = 0 :=
      fun index _ => linkTable_cleared hne index
    have hbefore : pageRadix.decode (vm.mem pml4 slot) = none := decode_eq_none.2 hzero
    have hnew : slotTables (linkTable vm.mem pml4 slot frame) pml4 slot = [frame] := by
      rw [slotTables, hroot, Option.elim_some]
      exact gather_cleared hcleared
    refine ⟨_, [frame], ⟨⟨hafter, htaken, ?_, ?_⟩, ?_, ?_⟩, .inr ⟨frame, hnext, ?_⟩⟩
    · intro other _ hother index hentry
      exact linkTable_other (by simpa using hother) hentry
    · dsimp only
      rw [hnew, slotTables, hbefore, Option.elim_none, List.append_nil]
    · dsimp only
      rw [slotPages, slotPages, hroot, hbefore, Option.elim_some, Option.elim_none]
      exact .of_eq (gather_cleared hcleared)
    · intro path _ hpath
      dsimp only
      rw [slotLeaf, slotLeaf, hroot, hbefore, Option.bind_some, Option.bind_none]
      exact leaf_cleared hcleared hpath
    · dsimp only
      rw [Located, hroot]
      rfl

theorem Located.snoc {child : Nat} {mem : PhysMem} (h : Located mem pml4 slot path table)
    (hchild : pageRadix.decode (mem table index) = some child) :
    Located mem pml4 slot (path ++ [index]) child := by
  obtain ⟨root, hroot, hdescend⟩ := Option.bind_eq_some_iff.1 h
  rw [Located, hroot, Option.bind_some, Radix.descend_append, hdescend, Option.bind_some, Radix.descend,
    hchild, Option.bind_some, Radix.descend]

/-- A memory that differs from another one, on the tables of a slot, in one entry. -/
theorem SlotTree.changesAt {mem' : PhysMem} {root : Nat} (htree : SlotTree vm held pml4 slot)
    (hroot : pageRadix.decode (vm.mem pml4 slot) = some root)
    (hlocated : Located vm.mem pml4 slot path table) (hpath : ∀ next ∈ path, next < 512)
    (hindex : index < 512)
    (hsame : ∀ other ∈ slotTables vm.mem pml4 slot, ∀ next, (other = table → next ≠ index) →
      mem' other next = vm.mem other next) :
    Radix.ChangesAt pageRadix vm.mem mem' 3 root path table index := by
  have htables : slotTables vm.mem pml4 slot = pageRadix.tables vm.mem 3 root := by
    rw [slotTables, hroot, Option.elim_some]
  rw [Located, hroot, Option.bind_some] at hlocated
  refine ⟨htables ▸ htree.nodup, hpath, hindex, hlocated, ?_⟩
  exact fun other hother next _ hentry => hsame other (htables ▸ hother) next hentry

/-- Linking a cleared frame into an unused entry adds that table and nothing else. -/
theorem SlotTree.link {frame : Nat} (htree : SlotTree vm held pml4 slot)
    (hlocated : Located vm.mem pml4 slot path table) (hpath : ∀ next ∈ path, next < 512)
    (hlength : path.length < 2) (hindex : index < 512) (hunused : vm.mem table index = 0)
    (hframe : IsFrame frame) (hfresh : frame ∉ slotTables vm.mem pml4 slot) (hroot : pml4 ≠ frame) :
    (slotTables (linkTable vm.mem table index frame) pml4 slot).Perm
      (frame :: slotTables vm.mem pml4 slot) ∧
    (slotPages (linkTable vm.mem table index frame) pml4 slot).Perm (slotPages vm.mem pml4 slot) ∧
    (∀ path, path.length = 3 → (∀ index ∈ path, index < 512) →
      slotLeaf (linkTable vm.mem table index frame) pml4 slot path = slotLeaf vm.mem pml4 slot path) ∧
    Located (linkTable vm.mem table index frame) pml4 slot (path ++ [index]) frame := by
  have htable : table ∈ slotTables vm.mem pml4 slot := hlocated.mem_slotTables hpath (by omega)
  have hne : frame ≠ table := by
    rintro rfl
    exact hfresh htable
  have hentry : linkTable vm.mem table index frame pml4 slot = vm.mem pml4 slot :=
    linkTable_other hroot fun heq => absurd (heq ▸ htable) htree.root
  have hcleared : ∀ next < 512, linkTable vm.mem table index frame frame next = 0 :=
    fun next _ => linkTable_cleared hne next
  have hchild : pageRadix.decode (linkTable vm.mem table index frame table index) = some frame := by
    rw [linkTable_entry]
    exact decode_tableEntry hframe
  have hnone : pageRadix.decode (vm.mem table index) = none := decode_eq_none.2 hunused
  obtain ⟨root, hdecode, hdescend⟩ := Option.bind_eq_some_iff.1 hlocated
  have hchange : Radix.ChangesAt pageRadix vm.mem (linkTable vm.mem table index frame) 3 root path
      table index := htree.changesAt hdecode hlocated hpath hindex fun other hother next hnext =>
    linkTable_other (by rintro rfl; exact hfresh hother) hnext
  have hbelow : path.length < 3 := by omega
  obtain ⟨rest, hlevel⟩ : ∃ rest, 3 = path.length + (rest + 1 + 1) := ⟨1 - path.length, by omega⟩
  refine ⟨?_, ?_, fun other hfull hother => ?_, ?_⟩
  · rw [slotTables, slotTables, hentry, hdecode, Option.elim_some, Option.elim_some]
    have hperm : (pageRadix.tables (linkTable vm.mem table index frame) 3 root ++ []).Perm
        (pageRadix.tables vm.mem 3 root ++ [frame]) := by
      refine hchange.gather_perm hlevel ?_
      rw [Radix.below, Radix.below, hchild, hnone, Option.elim_some, Option.elim_none,
        gather_cleared hcleared]
      exact .refl _
    rw [List.append_nil] at hperm
    exact hperm.trans List.perm_append_comm
  · rw [slotPages, slotPages, hentry, hdecode, Option.elim_some, Option.elim_some]
    have hperm : (pageRadix.pages (linkTable vm.mem table index frame) 3 root ++ []).Perm
        (pageRadix.pages vm.mem 3 root ++ []) := by
      refine hchange.gather_perm hlevel ?_
      rw [Radix.below, Radix.below, hchild, hnone, Option.elim_some, Option.elim_none,
        gather_cleared hcleared]
    rwa [List.append_nil, List.append_nil] at hperm
  · rw [slotLeaf, slotLeaf, hentry, hdecode, Option.bind_some, Option.bind_some]
    by_cases hextends : (path ++ [index]) <+: other
    · -- a leaf behind the new table: none before, none now
      obtain ⟨behind, rfl⟩ := hextends
      have hbehind : behind ≠ [] := by
        rintro rfl
        simp at hfull
        omega
      have hsame := htree.changesAt hdecode hlocated hpath hindex fun _ _ _ _ => rfl
      rw [List.append_assoc, List.singleton_append, hchange.leaf_behind hbelow, hsame.leaf_behind hbelow,
        Radix.leaf_cons hbehind, Radix.leaf_cons hbehind, hchild, hnone, Option.bind_some,
          Option.bind_none]
      exact leaf_cleared hcleared fun next hnext => hother next (List.mem_append_right _ hnext)
    · exact hchange.leaf_other hbelow hother (le_of_eq hfull) hextends
  · have hsame := hchange.descend hbelow
    refine Located.snoc ?_ hchild
    rw [Located, hentry, hdecode, Option.bind_some, hsame]

/-- Looking behind an entry of a table above the last layer. -/
theorem nextTableMut_inner (htree : SlotTree vm held pml4 slot)
    (hlocated : Located vm.mem pml4 slot path table) (hpath : ∀ next ∈ path, next < 512)
    (hlength : path.length < 2) (hindex : index < 512) :
    ∃ after new, Grew vm after held pml4 slot new ∧
      (vm.nextTableMut table index = (after, none) ∨
        ∃ child, vm.nextTableMut table index = (after, some child) ∧
          Located after.mem pml4 slot (path ++ [index]) child) := by
  rcases nextTableMut_cases htree.holds table index with ⟨hne, hnext⟩ |
    ⟨hzero, frames, hnext, hafter, htaken⟩ | ⟨hzero, frames, frame, hnext, hframe, hafter, htaken⟩
  · exact ⟨vm, [], .refl htree, .inr ⟨_, hnext, hlocated.snoc (decode_of_ne hne)⟩⟩
  · exact ⟨{ vm with frames := frames }, [], ⟨⟨hafter, htaken, fun _ _ _ _ _ => rfl, .refl _⟩, .refl _,
      fun _ _ _ => rfl⟩, .inl hnext⟩
  · have htable : table ∈ slotTables vm.mem pml4 slot := hlocated.mem_slotTables hpath (by omega)
    have hfresh := htaken.fresh frame List.mem_cons_self
    have hnew : frame ∉ slotTables vm.mem pml4 slot := fun hmem => hfresh (htree.owned frame hmem)
    have hroot : pml4 ≠ frame := by
      rintro rfl
      exact hfresh htree.settled
    obtain ⟨htables, hpages, hleaves, hchild⟩ :=
      htree.link hlocated hpath hlength hindex hzero hframe hnew hroot
    refine ⟨_, [frame], ⟨⟨hafter, htaken, ?_, htables⟩, hpages, hleaves⟩, .inr ⟨frame, hnext, hchild⟩⟩
    · intro other hother hframe index hentry
      exact linkTable_other (by simpa using hframe) fun heq => absurd (heq ▸ htable) hother

end Linking

/-! ## Setting a leaf -/

/-- The second memory has a few more tables under the slot, and the leaf that
the path selects is the given one. -/
structure Remapped (vm after : Vm) (held : List Nat) (pml4 slot : Nat) (path : List Nat)
    (value : Option Nat) (new : List Nat) : Prop extends Extends vm after held pml4 slot new where
  pages : (slotPages after.mem pml4 slot ++ ((slotLeaf vm.mem pml4 slot path).map entryAddr).toList).Perm
    (slotPages vm.mem pml4 slot ++ (value.map entryAddr).toList)
  leaf : slotLeaf after.mem pml4 slot path = value
  leaves : ∀ other, other ≠ path → other.length = 3 → (∀ index ∈ other, index < 512) →
    slotLeaf after.mem pml4 slot other = slotLeaf vm.mem pml4 slot other

section Leaf

variable {vm mid after : Vm} {held new : List Nat} {pml4 slot table index entry : Nat} {path : List Nat}

theorem Located.slotLeaf {mem : PhysMem} (h : Located mem pml4 slot path table) :
    slotLeaf mem pml4 slot (path ++ [index]) =
      (pageRadix.decode (mem table index)).map fun _ => mem table index := by
  obtain ⟨root, hroot, hdescend⟩ := Option.bind_eq_some_iff.1 h
  rw [Redoubt.Kernel.slotLeaf, hroot, Option.bind_some, Radix.leaf_append_singleton, hdescend,
    Option.bind_some]

/-- Setting an entry of a table in the last layer. -/
theorem SlotTree.setEntry (htree : SlotTree vm held pml4 slot)
    (hlocated : Located vm.mem pml4 slot path table) (hpath : ∀ next ∈ path, next < 512)
    (hlength : path.length = 2) (hindex : index < 512) (entry : Nat) :
    Remapped vm (vm.setEntry table index entry) held pml4 slot (path ++ [index])
      ((pageRadix.decode entry).map fun _ => entry) [] := by
  have htable : table ∈ slotTables vm.mem pml4 slot := hlocated.mem_slotTables hpath (by omega)
  have hset : (vm.setEntry table index entry).mem table index = entry := by
    simp [Vm.setEntry, PhysMem.setWord]
  have hother : ∀ other next, (other = table → next ≠ index) →
      (vm.setEntry table index entry).mem other next = vm.mem other next := by
    intro other next hne
    simp only [Vm.setEntry, PhysMem.setWord]
    split_ifs with htable hnext
    · exact absurd hnext (hne htable)
    · rfl
    · rfl
  have hentry : (vm.setEntry table index entry).mem pml4 slot = vm.mem pml4 slot :=
    hother pml4 slot fun heq => absurd (heq ▸ htable) htree.root
  obtain ⟨root, hdecode, hdescend⟩ := Option.bind_eq_some_iff.1 hlocated
  have hchange : Radix.ChangesAt pageRadix vm.mem (vm.setEntry table index entry).mem 3 root path
      table index :=
    htree.changesAt hdecode hlocated hpath hindex fun other _ next hnext => hother other next hnext
  have hbelow : path.length < 3 := by omega
  have hlevel : 3 = path.length + (0 + 1) := by omega
  have hmoved : Located (vm.setEntry table index entry).mem pml4 slot path table := by
    rw [Located, hentry, hdecode, Option.bind_some, hchange.descend hbelow]
  have htables : (slotTables (vm.setEntry table index entry).mem pml4 slot).Perm
      (slotTables vm.mem pml4 slot) := by
    rw [slotTables, slotTables, hentry, hdecode, Option.elim_some, Option.elim_some]
    have hperm : (pageRadix.tables (vm.setEntry table index entry).mem 3 root ++ []).Perm
        (pageRadix.tables vm.mem 3 root ++ []) := by
      refine hchange.gather_perm hlevel (.of_eq ?_)
      simp only [Radix.below, Radix.gather]
      cases pageRadix.decode ((vm.setEntry table index entry).mem table index) <;>
        cases pageRadix.decode (vm.mem table index) <;> rfl
    rwa [List.append_nil, List.append_nil] at hperm
  refine ⟨⟨htree.holds, ⟨fun _ => id, by simp⟩, ?_, htables⟩, ?_, ?_, ?_⟩
  · intro frame hframe _ next _
    exact hother frame next fun heq => absurd (heq ▸ htable) hframe
  · rw [hlocated.slotLeaf, map_entryAddr_decode, map_entryAddr_decode, slotPages, slotPages, hentry,
      hdecode, Option.elim_some, Option.elim_some]
    refine hchange.gather_perm hlevel ?_
    rw [hset]
    simp only [Radix.below, Radix.gather]
    cases pageRadix.decode entry <;> cases pageRadix.decode (vm.mem table index) <;>
      simp [List.Perm.swap]
  · rw [hmoved.slotLeaf, hset]
  · intro other hne hfull hbound
    rw [Redoubt.Kernel.slotLeaf, Redoubt.Kernel.slotLeaf, hentry, hdecode, Option.bind_some,
      Option.bind_some]
    refine hchange.leaf_other hbelow hbound (le_of_eq hfull) fun hextends => hne ?_
    exact (hextends.eq_of_length (by simp [hlength, hfull])).symm

/-- New tables first, then the leaf. -/
theorem Grew.remapped {value : Option Nat} (hgrew : Grew vm mid held pml4 slot new)
    (hset : Remapped mid after (new ++ held) pml4 slot path value [])
    (hlength : path.length = 3) (hpath : ∀ index ∈ path, index < 512) :
    Remapped vm after held pml4 slot path value new where
  toExtends := hgrew.toExtends.trans hset.toExtends
  pages := by
    rw [← hgrew.leaves path hlength hpath]
    exact hset.pages.trans (hgrew.pages.append_right _)
  leaf := hset.leaf
  leaves := fun other hne hfull hother =>
    (hset.leaves other hne hfull hother).trans (hgrew.leaves other hfull hother)

theorem index_lt (virt : Nat) : p4Index virt < 512 ∧ p3Index virt < 512 ∧ p2Index virt < 512 ∧
    p1Index virt < 512 :=
  ⟨Nat.mod_lt _ (by decide), Nat.mod_lt _ (by decide), Nat.mod_lt _ (by decide),
    Nat.mod_lt _ (by decide)⟩

theorem length_pathOf (virt : Nat) : (pathOf virt).length = 3 := rfl

theorem pathOf_bounded (virt : Nat) : ∀ index ∈ pathOf virt, index < 512 := by
  have := index_lt virt
  simp [pathOf, this]

/-- Mapping a page links tables and sets the page's leaf, or runs out of memory
after linking some of the tables. -/
theorem mapPageIn_cases {virt phys flags : Nat} (htree : SlotTree vm held pml4 (p4Index virt))
    (hphys : IsFrame (pageFloor phys)) (hflags : LeafFlags flags)
    (hused : makeEntry (pageFloor phys) flags ≠ 0) :
    (∃ after new, vm.mapPageIn pml4 virt phys flags = (after, false) ∧
      Grew vm after held pml4 (p4Index virt) new) ∨
    ∃ after new, vm.mapPageIn pml4 virt phys flags = (after, true) ∧
      Remapped vm after held pml4 (p4Index virt) (pathOf virt)
        (some (makeEntry (pageFloor phys) flags)) new := by
  obtain ⟨h4, h3, h2, h1⟩ := index_lt virt
  unfold Vm.mapPageIn
  obtain ⟨vm3, new3, hgrew3, hnext | ⟨l3, hnext, hl3⟩⟩ := nextTableMut_root htree
  · exact .inl ⟨vm3, new3, by rw [hnext], hgrew3⟩
  rw [hnext]
  dsimp only
  have htree3 := hgrew3.slotTree htree
  obtain ⟨vm2, new2, hgrew2, hnext | ⟨l2, hnext, hl2⟩⟩ :=
    nextTableMut_inner htree3 hl3 (by simp) (by simp) h3
  · exact .inl ⟨vm2, new2 ++ new3, by rw [hnext], hgrew3.trans hgrew2⟩
  rw [hnext]
  dsimp only
  have htree2 := hgrew2.slotTree htree3
  obtain ⟨vm1, new1, hgrew1, hnext | ⟨l1, hnext, hl1⟩⟩ :=
    nextTableMut_inner htree2 hl2 (by simp [h3]) (by simp) h2
  · exact .inl ⟨vm1, new1 ++ (new2 ++ new3), by rw [hnext],
      (hgrew3.trans hgrew2).trans (by rw [List.append_assoc]; exact hgrew1)⟩
  rw [hnext]
  dsimp only
  have hgrew : Grew vm vm1 held pml4 (p4Index virt) (new1 ++ (new2 ++ new3)) :=
    (hgrew3.trans hgrew2).trans (by rw [List.append_assoc]; exact hgrew1)
  have hset := (hgrew1.slotTree htree2).setEntry hl1 (by simp [h3, h2]) rfl h1
    (makeEntry (pageFloor phys) flags)
  rw [decode_makeEntry hphys hflags hused, Option.map_some] at hset
  refine .inr ⟨_, new1 ++ (new2 ++ new3), rfl, hgrew.remapped ?_ (length_pathOf virt)
    (pathOf_bounded virt)⟩
  rw [List.append_assoc, List.append_assoc]
  exact hset

/-- An unused leaf can be left alone. -/
theorem Remapped.unused (htree : SlotTree vm held pml4 slot)
    (hnone : slotLeaf vm.mem pml4 slot path = none) : Remapped vm vm held pml4 slot path none [] where
  toExtends := .refl htree
  pages := by rw [hnone]
  leaf := hnone
  leaves := fun _ _ _ _ => rfl

/-- Clearing the leaf of a page. -/
theorem unmapPageIn_remapped {virt : Nat} (htree : SlotTree vm held pml4 (p4Index virt)) :
    Remapped vm (vm.unmapPageIn pml4 virt) held pml4 (p4Index virt) (pathOf virt) none [] := by
  obtain ⟨-, h3, h2, h1⟩ := index_lt virt
  have hleaf := leafPte_eq vm.mem pml4 virt
  unfold leafPte at hleaf
  unfold Vm.unmapPageIn
  dsimp only at hleaf ⊢
  -- without a table there is no leaf to clear
  by_cases he4 : vm.mem pml4 (p4Index virt) = 0
  · rw [if_pos he4] at hleaf ⊢
    exact .unused htree hleaf.symm
  rw [if_neg he4] at hleaf ⊢
  by_cases he3 : vm.mem (entryAddr (vm.mem pml4 (p4Index virt))) (p3Index virt) = 0
  · rw [if_pos he3] at hleaf ⊢
    exact .unused htree hleaf.symm
  rw [if_neg he3] at hleaf ⊢
  by_cases he2 : vm.mem (entryAddr (vm.mem (entryAddr (vm.mem pml4 (p4Index virt))) (p3Index virt)))
      (p2Index virt) = 0
  · rw [if_pos he2] at hleaf ⊢
    exact .unused htree hleaf.symm
  rw [if_neg he2]
  have hroot : Located vm.mem pml4 (p4Index virt) [] (entryAddr (vm.mem pml4 (p4Index virt))) := by
    rw [Located, decode_of_ne he4]
    rfl
  have hlocated := (hroot.snoc (decode_of_ne he3)).snoc (decode_of_ne he2)
  have hset := htree.setEntry hlocated (by simp [h3, h2]) rfl h1 0
  rwa [decode_zero, Option.map_none] at hset

end Leaf

end Redoubt.Kernel
