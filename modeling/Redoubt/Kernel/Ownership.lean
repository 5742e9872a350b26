import Redoubt.Kernel.UserMemory

/-!
# Who owns which frame

Every frame that the allocator has handed out belongs to the address space that is worked
on, with its PML4, its tables and its pages, or to the rest, which is what the other spaces,
the kernel stacks and a function in the middle of its work hold.  The lemmas say how each
operation on memory moves frames between the two and what it leaves untouched.
-/

namespace Redoubt.Kernel

open Redoubt.Foundation

/-- The frames of an address space that no other space shares. -/
def spaceFrames (mem : PhysMem) (pml4 : Nat) : List Nat :=
  pml4 :: (slotTables mem pml4 0 ++ slotPages mem pml4 0)

/-- Every frame handed out has one owner, the space or the rest. -/
structure Memory (vm : Vm) (rest : List Nat) (cr3 : Nat) : Prop where
  holds : vm.frames.Holds (rest ++ spaceFrames vm.mem cr3)

/-- Frames in use that are not listed stay in use and keep their contents. -/
def Beyond (vm after : Vm) (frames : List Nat) : Prop :=
  ∀ frame, frame % pageSize = 0 → vm.frames.OffFree frame → frame ∉ frames →
    after.frames.OffFree frame ∧ ∀ index, after.mem frame index = vm.mem frame index

theorem Beyond.trans {vm mid after : Vm} {frames more : List Nat} (hfirst : Beyond vm mid frames)
    (hsecond : Beyond mid after more) (hmore : ∀ frame ∈ more, vm.frames.OffFree frame → frame ∈ frames) :
    Beyond vm after frames := by
  intro frame haligned hoff hnot
  obtain ⟨hmid, hsame⟩ := hfirst frame haligned hoff hnot
  obtain ⟨hafter, hsame'⟩ := hsecond frame haligned hmid fun hmem => hnot (hmore frame hmem hoff)
  exact ⟨hafter, fun index => (hsame' index).trans (hsame index)⟩

/-! ## Owners are separate -/

section Separate

variable {vm after : Vm} {rest frames : List Nat} {cr3 frame : Nat}

theorem mem_spaceFrames {mem : PhysMem} : frame ∈ spaceFrames mem cr3 ↔
    frame = cr3 ∨ frame ∈ slotTables mem cr3 0 ∨ frame ∈ slotPages mem cr3 0 := by
  rw [spaceFrames, List.mem_cons, List.mem_append]

namespace Memory

theorem rest_isFrame (h : Memory vm rest cr3) (hmem : frame ∈ rest) : IsFrame frame :=
  ⟨h.holds.aligned frame (List.mem_append_left _ hmem),
    h.holds.lt_physLimit (List.mem_append_left _ hmem)⟩

theorem rest_offFree (h : Memory vm rest cr3) (hmem : frame ∈ rest) : vm.frames.OffFree frame :=
  h.holds.offFree (List.mem_append_left _ hmem)

theorem space_frame (h : Memory vm rest cr3) (hmem : frame ∈ spaceFrames vm.mem cr3) :
    frame % pageSize = 0 ∧ vm.frames.OffFree frame :=
  ⟨h.holds.aligned frame (List.mem_append_right _ hmem), h.holds.offFree (List.mem_append_right _ hmem)⟩

theorem space_nodup (h : Memory vm rest cr3) : (spaceFrames vm.mem cr3).Nodup :=
  (List.nodup_append.1 h.holds.nodup).2.1

theorem rest_apart (h : Memory vm rest cr3) (hrest : frame ∈ rest) : frame ∉ spaceFrames vm.mem cr3 :=
  fun hmem => (List.nodup_append.1 h.holds.nodup).2.2 frame hrest frame hmem rfl

/-- The user side of the space is a tree. -/
theorem slotTree (h : Memory vm rest cr3) : SlotTree vm (rest ++ spaceFrames vm.mem cr3) cr3 0 := by
  have hparts := List.nodup_cons.1 h.space_nodup
  refine ⟨h.holds, (List.nodup_append.1 hparts.2).1, fun table htable => ?_, fun hmem => ?_, ?_⟩
  · exact (h.space_frame (mem_spaceFrames.2 (.inr (.inl htable)))).2
  · exact hparts.1 (List.mem_append_left _ hmem)
  · exact (h.space_frame List.mem_cons_self).2

theorem userSpace (h : Memory vm rest cr3) : UserSpace vm.mem cr3 := by
  have hparts := List.nodup_cons.1 h.space_nodup
  have hsplit := List.nodup_append.1 hparts.2
  refine ⟨hsplit.2.1, fun page hpage htable => hsplit.2.2 page htable page hpage rfl, fun hmem => ?_⟩
  exact hparts.1 (List.mem_append_right _ hmem)

/-- A space none of whose frames is touched keeps its leaves. -/
theorem leaves_eq (h : Memory vm rest cr3) (hbeyond : Beyond vm after frames)
    (hapart : ∀ frame ∈ spaceFrames vm.mem cr3, frame ∉ frames) :
    ∀ path, path.length = 3 → (∀ index ∈ path, index < 512) →
      slotLeaf after.mem cr3 0 path = slotLeaf vm.mem cr3 0 path := by
  have hsame : ∀ frame ∈ spaceFrames vm.mem cr3, ∀ index, after.mem frame index = vm.mem frame index := by
    intro frame hmem
    obtain ⟨haligned, hoff⟩ := h.space_frame hmem
    exact (hbeyond frame haligned hoff (hapart frame hmem)).2
  exact (slot_congr (hsame cr3 List.mem_cons_self 0) fun table htable =>
    hsame table (mem_spaceFrames.2 (.inr (.inl htable)))).2.2

end Memory

end Separate

/-! ## Changing the space -/

section Changing

variable {vm after : Vm} {held rest rest' new gone came : List Nat} {cr3 : Nat}

/-- Work on the tables touches nothing else that is in use. -/
theorem Extends.beyond (h : Extends vm after held cr3 0 new) :
    Beyond vm after (cr3 :: slotTables vm.mem cr3 0) := by
  intro frame _ hoff hnot
  rw [List.mem_cons, not_or] at hnot
  refine ⟨h.taken.kept frame hoff, fun index => ?_⟩
  exact h.same frame hnot.2 (h.taken.not_mem hoff) index fun heq => absurd heq hnot.1

/-- New tables come from the free side; the pages of the space change with the rest. -/
theorem Memory.extended (hext : Extends vm after (rest ++ spaceFrames vm.mem cr3) cr3 0 new)
    (hpages : (slotPages after.mem cr3 0 ++ gone).Perm (slotPages vm.mem cr3 0 ++ came))
    (hrest : (rest ++ gone).Perm (rest' ++ came)) : Memory after rest' cr3 := by
  refine ⟨hext.holds.perm (List.perm_iff_count.2 fun frame => ?_)⟩
  have htables := hext.tables.count_eq frame
  have hpages := hpages.count_eq frame
  have hrest := hrest.count_eq frame
  simp only [spaceFrames, List.count_cons, List.count_append] at htables hpages hrest ⊢
  omega

end Changing

/-! ## Requests to the allocator -/

section Requests

variable {vm : Vm} {rest : List Nat} {cr3 frame : Nat}

/-- An allocation gives the rest a frame from the free side, or nothing. -/
theorem Memory.alloc_cases (h : Memory vm rest cr3) :
    (∃ after, vm.allocFrames 1 = (after, none) ∧ Memory after rest cr3) ∨
    ∃ after frame, vm.allocFrames 1 = (after, some frame) ∧ Memory after (frame :: rest) cr3 ∧
      Beyond vm after [] ∧ ¬ vm.frames.OffFree frame := by
  rcases Vm.alloc_cases h.holds with ⟨frames, halloc, hholds, -⟩ |
    ⟨frames, frame, halloc, hholds, hkept, hfresh⟩
  · exact .inl ⟨_, halloc, ⟨hholds⟩⟩
  · exact .inr ⟨_, frame, halloc, ⟨hholds⟩, fun other _ hoff _ => ⟨hkept other hoff, fun _ => rfl⟩,
      hfresh⟩

/-- A frame of the rest can always be returned. -/
theorem Memory.free_one (h : Memory vm (frame :: rest) cr3) :
    ∃ after, vm.freeFrames frame 1 = .ok after ∧ Memory after rest cr3 := by
  obtain ⟨hfree, hholds⟩ := h.holds.free_one
  exact ⟨{ vm with frames := vm.frames.freed frame 1 }, by rw [Vm.freeFrames, hfree]; rfl, ⟨hholds⟩⟩

end Requests

/-! ## Writing to frames that are no tables -/

section Writing

variable {vm : Vm} {mem : PhysMem} {rest : List Nat} {cr3 frame : Nat}

theorem Memory.setMem (h : Memory vm rest cr3)
    (hsame : ∀ frame ∈ cr3 :: slotTables vm.mem cr3 0, ∀ index, mem frame index = vm.mem frame index) :
    Memory { vm with mem := mem } rest cr3 := by
  obtain ⟨htables, hpages, -⟩ := slot_congr (hsame cr3 List.mem_cons_self 0) fun table htable =>
    hsame table (List.mem_cons_of_mem _ htable)
  have hframes : spaceFrames mem cr3 = spaceFrames vm.mem cr3 := by
    rw [spaceFrames, htables, hpages, spaceFrames]
  exact ⟨hframes ▸ h.holds⟩

theorem Memory.rest_not_table (h : Memory vm rest cr3) (hrest : frame ∈ rest) :
    frame ∉ cr3 :: slotTables vm.mem cr3 0 :=
  fun hmem => h.rest_apart hrest (mem_spaceFrames.2 ((List.mem_cons.1 hmem).imp_right .inl))

theorem Memory.page_not_table (h : Memory vm rest cr3) (hpage : frame ∈ slotPages vm.mem cr3 0) :
    frame ∉ cr3 :: slotTables vm.mem cr3 0 := by
  intro hmem
  rcases List.mem_cons.1 hmem with rfl | htable
  · exact h.userSpace.root hpage
  · exact h.userSpace.tables frame hpage htable

/-- Clearing a frame of the rest. -/
theorem Memory.zeroFrame (h : Memory vm rest cr3) (hrest : frame ∈ rest) :
    Memory (vm.zeroFrame frame) rest cr3 ∧ Beyond vm (vm.zeroFrame frame) [frame] := by
  have hother : ∀ other, other ≠ frame → ∀ index,
      vm.mem.zeroFrame frame other index = vm.mem other index :=
    fun other hne index => if_neg hne
  refine ⟨h.setMem fun other htable => hother other ?_, fun other _ hoff hnot => ⟨hoff, hother other ?_⟩⟩
  · rintro rfl
    exact h.rest_not_table hrest htable
  · exact fun heq => hnot (List.mem_singleton.2 heq)

/-- Writing to pages of the space. -/
theorem Memory.writePages (h : Memory vm rest cr3)
    (hframes : ∀ frame ∉ slotPages vm.mem cr3 0, ∀ index, mem frame index = vm.mem frame index) :
    Memory { vm with mem := mem } rest cr3 :=
  h.setMem fun frame htable => hframes frame fun hpage => h.page_not_table hpage htable

end Writing

end Redoubt.Kernel
