import Redoubt.Kernel.FrameSafety
import Redoubt.Kernel.ElfLoader

/-!
# The load plan of a program image

An image is described by its loadable headers, read from the file directly.  The loader
reads no byte outside the file, and the plan it accepts lists exactly the loadable
headers with their page hulls, which are disjoint and lie in the user range.
-/

namespace Redoubt.Kernel

open Redoubt.Foundation

/-! ## The image as a table of headers -/

/-- The little-endian number in `count` bytes of the file. -/
def field (elf : List UInt8) (offset count : Nat) : Nat := fromLeBytes ((elf.drop offset).take count)

def elfEntry (elf : List UInt8) : Nat := field elf 0x18 8
def elfPhoff (elf : List UInt8) : Nat := field elf 0x20 8
def elfPhentsize (elf : List UInt8) : Nat := field elf 0x36 2
def elfPhnum (elf : List UInt8) : Nat := field elf 0x38 2

/-- The program header at an offset of the file. -/
def headerAt (elf : List UInt8) (ph : Nat) : ProgramHeader where
  flags := field elf (ph + 4) 4
  offset := field elf (ph + 8) 8
  vaddr := field elf (ph + 16) 8
  filesz := field elf (ph + 32) 8
  memsz := field elf (ph + 40) 8
  align := field elf (ph + 48) 8

/-- Where the headers with these indices start. -/
def headerOffsets (elf : List UInt8) (indices : List Nat) : List Nat :=
  indices.map fun index => elfPhoff elf + index * elfPhentsize elf

/-- The headers among them that ask for memory. -/
def loadableAt (elf : List UInt8) (offsets : List Nat) : List ProgramHeader :=
  offsets.filterMap fun ph =>
    if field elf ph 4 = ptLoad ∧ (headerAt elf ph).memsz ≠ 0 then some (headerAt elf ph) else none

/-- The loadable segments of the image with a size. -/
def loadHeaders (elf : List UInt8) : List ProgramHeader :=
  loadableAt elf (headerOffsets elf (List.range (elfPhnum elf)))

namespace ProgramHeader

/-- First page of the hull. -/
def hullStart (header : ProgramHeader) : Nat := pageFloor header.vaddr

/-- End of the last page of the hull. -/
def hullEnd (header : ProgramHeader) : Nat := pageFloor (header.vaddr + header.memsz + (pageSize - 1))

/-- The hulls share no page. -/
def Apart (header other : ProgramHeader) : Prop :=
  header.hullEnd ≤ other.hullStart ∨ other.hullEnd ≤ header.hullStart

/-- The address lies in the segment and may be executed. -/
def Runs (header : ProgramHeader) (entry : Nat) : Prop :=
  header.flags &&& 1 ≠ 0 ∧ header.vaddr ≤ entry ∧ entry < header.vaddr + header.memsz

/-- What the loader keeps of a header. -/
def segment (header : ProgramHeader) : LoadSegment where
  flags := header.flags
  offset := header.offset
  vaddr := header.vaddr
  filesz := header.filesz
  pageStart := header.hullStart
  pageEnd := header.hullEnd

/-- What the loader insists on for one segment. -/
structure Admitted (elfLen : Nat) (header : ProgramHeader) : Prop where
  used : header.memsz ≠ 0
  inFile : header.offset + header.filesz ≤ elfLen
  size : header.filesz ≤ header.memsz
  low : pageSize ≤ header.hullStart
  high : header.hullEnd ≤ userLoadLimit
  rights : header.flags &&& 3 ≠ 3

end ProgramHeader

/-! ## Reading -/

section Reading

variable {elf : List UInt8} {offset ph : Nat}

theorem slice_ok {count : Nat} (h : offset + count ≤ elf.length) :
    slice elf offset count = .ok ((elf.drop offset).take count) :=
  if_pos h

theorem rd_ok (h : offset + 8 ≤ elf.length) : rd elf offset = .ok (field elf offset 8) := by
  rw [rd, slice_ok h]
  rfl

theorem rd16_ok (h : offset + 2 ≤ elf.length) : rd16 elf offset = .ok (field elf offset 2) := by
  rw [rd16, slice_ok h]
  rfl

theorem rd32_ok (h : offset + 4 ≤ elf.length) : rd32 elf offset = .ok (field elf offset 4) := by
  rw [rd32, slice_ok h]
  rfl

theorem readProgramHeader_ok (h : ph + 56 ≤ elf.length) :
    readProgramHeader elf ph = .ok (headerAt elf ph) := by
  unfold readProgramHeader
  rw [rd32_ok (by omega), rd_ok (by omega), rd_ok (by omega), rd_ok (by omega), rd_ok (by omega),
    rd_ok (by omega)]
  rfl

end Reading

/-! ## The plan -/

/-- A plan for these headers. -/
structure Planned (elfLen entry : Nat) (headers : List ProgramHeader) (plan : LoadPlan) : Prop where
  segments : plan.segments = headers.map ProgramHeader.segment
  admitted : ∀ header ∈ headers, header.Admitted elfLen
  apart : headers.Pairwise ProgramHeader.Apart
  executable : plan.entryIsExecutable = true → ∃ header ∈ headers, header.Runs entry

section Plan

variable {elf : List UInt8} {elfLen entry : Nat} {headers : List ProgramHeader} {plan after : LoadPlan}
  {header : ProgramHeader}

theorem Planned.nil : Planned elfLen entry [] ⟨[], false⟩ := ⟨rfl, nofun, .nil, nofun⟩

theorem checkedAdd_eq_some {left right sum : Nat} (h : checkedAdd left right = some sum) :
    sum = left + right := by
  unfold checkedAdd at h
  split_ifs at h with hfits
  exact (Option.some.inj h).symm

/-- A check that lets the computation go on has succeeded. -/
theorem of_guard_bind {α : Type} {condition : Prop} [Decidable condition] {next : Unit → Option α}
    {result : α}
    (h : (guard condition >>= next) = some result) : condition ∧ next () = some result := by
  by_cases hcondition : condition
  · simp only [guard, if_pos hcondition] at h
    exact ⟨hcondition, h⟩
  · simp only [guard, if_neg hcondition] at h
    cases h

/-- A header is rejected, skipped for its size, or planned behind the earlier ones. -/
theorem admitSegment_some (hplan : Planned elfLen entry headers plan)
    (h : admitSegment elfLen entry plan header = some after) :
    header.memsz = 0 ∧ after = plan ∨ header.memsz ≠ 0 ∧
      Planned elfLen entry (headers ++ [header]) after := by
  unfold admitSegment at h
  by_cases hsize : header.memsz = 0
  · rw [if_pos hsize] at h
    exact .inl ⟨hsize, (Option.some.inj h).symm⟩
  rw [if_neg hsize] at h
  obtain ⟨fileEnd, hfileEnd, h⟩ := Option.bind_eq_some_iff.1 h
  obtain ⟨hinFile, h⟩ := of_guard_bind h
  obtain ⟨hfits, h⟩ := of_guard_bind h
  obtain ⟨-, h⟩ := of_guard_bind h
  obtain ⟨segmentEnd, hsegmentEnd, h⟩ := Option.bind_eq_some_iff.1 h
  obtain ⟨rounded, hrounded, h⟩ := Option.bind_eq_some_iff.1 h
  obtain ⟨⟨hlow, hhigh⟩, h⟩ := of_guard_bind h
  obtain ⟨hrights, h⟩ := of_guard_bind h
  obtain ⟨happart, h⟩ := of_guard_bind h
  obtain rfl := checkedAdd_eq_some hfileEnd
  obtain rfl := checkedAdd_eq_some hsegmentEnd
  obtain rfl := checkedAdd_eq_some hrounded
  obtain rfl := Option.some.inj h
  refine .inr ⟨hsize, ?_, ?_, ?_, ?_⟩
  · rw [List.map_append, ← hplan.segments]
    rfl
  · intro other hmem
    rcases List.mem_append.1 hmem with hmem | hmem
    · exact hplan.admitted other hmem
    · rw [List.mem_singleton.1 hmem]
      exact ⟨hsize, hinFile, hfits, hlow, hhigh, hrights⟩
  · refine List.pairwise_append.2 ⟨hplan.apart, List.pairwise_singleton _ _,
      fun other hmem new hnew => ?_⟩
    rw [List.mem_singleton.1 hnew]
    rw [hplan.segments, List.any_map] at happart
    simp only [List.any_eq_true, not_exists, not_and, Function.comp, Bool.and_eq_true,
      decide_eq_true_eq] at happart
    have hdisjoint := happart other hmem
    simp only [ProgramHeader.segment] at hdisjoint
    simp only [ProgramHeader.Apart, ProgramHeader.hullStart, ProgramHeader.hullEnd] at hdisjoint ⊢
    omega
  · intro hrun
    simp only [Bool.or_eq_true, Bool.and_eq_true, bne_iff_ne, decide_eq_true_eq] at hrun
    rcases hrun with hrun | ⟨⟨hflag, hfrom⟩, hto⟩
    · obtain ⟨other, hmem, hruns⟩ := hplan.executable hrun
      exact ⟨other, List.mem_append_left _ hmem, hruns⟩
    · exact ⟨header, List.mem_append_right _ (List.mem_singleton_self _), hflag, hfrom, hto⟩

/-- One round of the loop over the headers. -/
theorem planHeaders_cons {phoff phentsize index : Nat} {indices : List Nat}
    (hread : phoff + index * phentsize + 56 ≤ elf.length) :
    planHeaders elf entry phoff phentsize (index :: indices) plan =
      if field elf (phoff + index * phentsize) 4 ≠ ptLoad then
        planHeaders elf entry phoff phentsize indices plan
      else
        match admitSegment elf.length entry plan (headerAt elf (phoff + index * phentsize)) with
        | none => .ok none
        | some next => planHeaders elf entry phoff phentsize indices next := by
  rw [planHeaders, rd32_ok (by omega), readProgramHeader_ok hread]
  rfl

theorem loadableAt_cons (ph : Nat) (offsets : List Nat) : loadableAt elf (ph :: offsets) =
    if field elf ph 4 = ptLoad ∧ (headerAt elf ph).memsz ≠ 0 then
      headerAt elf ph :: loadableAt elf offsets
    else loadableAt elf offsets := by
  rw [loadableAt, List.filterMap_cons]
  split_ifs <;> rfl

/-- The loop over the headers reads inside the file; its plan lists the loadable ones. -/
theorem planHeaders_spec {indices : List Nat}
    (hread : ∀ index ∈ indices, elfPhoff elf + index * elfPhentsize elf + 56 ≤ elf.length)
    (hplan : Planned elf.length entry headers plan) :
    ∃ result, planHeaders elf entry (elfPhoff elf) (elfPhentsize elf) indices plan = .ok result ∧
      ∀ after, result = some after →
        Planned elf.length entry (headers ++ loadableAt elf (headerOffsets elf indices)) after := by
  induction indices generalizing headers plan with
  | nil =>
      refine ⟨some plan, rfl, fun after hafter => ?_⟩
      obtain rfl := Option.some.inj hafter
      rw [show loadableAt elf (headerOffsets elf []) = [] from rfl, List.append_nil]
      exact hplan
  | cons index indices ih =>
      have hlater : ∀ index ∈ indices, elfPhoff elf + index * elfPhentsize elf + 56 ≤ elf.length :=
        fun index hmem => hread index (List.mem_cons_of_mem _ hmem)
      rw [planHeaders_cons (hread index List.mem_cons_self), headerOffsets, List.map_cons,
        loadableAt_cons]
      by_cases hkind : field elf (elfPhoff elf + index * elfPhentsize elf) 4 = ptLoad
      · rw [if_neg (not_not.2 hkind)]
        cases hadmit :
          admitSegment elf.length entry plan (headerAt elf (elfPhoff elf + index * elfPhentsize elf)) with
        | none => exact ⟨none, rfl, nofun⟩
        | some =>
            rcases admitSegment_some hplan hadmit with ⟨hsize, rfl⟩ | ⟨hsize, hnext⟩
            · rw [if_neg fun h => h.2 hsize]
              exact ih hlater hplan
            · rw [if_pos ⟨hkind, hsize⟩, List.append_cons]
              exact ih hlater hnext
      · rw [if_pos hkind, if_neg fun h => hkind h.1]
        exact ih hlater hplan

/-- The header checks and the loop, once the file is long enough for its header. -/
theorem planElf_eq (hlong : 0x40 ≤ elf.length) : planElf elf =
    if elf.take 4 ≠ [0x7f, 0x45, 0x4c, 0x46] then .ok none
    else if (elf.drop 4).take 3 ≠ [2, 1, 1] then .ok none
    else if field elf 0x12 2 ≠ 0x3e then .ok none
    else if field elf 0x10 2 ≠ 2 then .ok none
    else if 32 < elfPhnum elf ∨ elfPhentsize elf < 56 then .ok none
    else
      match checkedAdd (elfPhoff elf) (elfPhnum elf * elfPhentsize elf) with
      | none => .ok none
      | some phend =>
          if elf.length < phend then .ok none
          else (planHeaders elf (elfEntry elf) (elfPhoff elf) (elfPhentsize elf)
            (List.range (elfPhnum elf))
            ⟨[], false⟩).map fun plan => plan.map fun plan => (elfEntry elf, plan) := by
  unfold planElf
  rw [if_neg (not_lt.2 hlong), rd16_ok (by omega), rd16_ok (by omega), rd_ok (by omega), rd_ok (by omega),
    rd16_ok (by omega), rd16_ok (by omega)]
  change (if elf.take 4 ≠ [0x7f, 0x45, 0x4c, 0x46] then _ else
    if (elf.drop 4).take 3 ≠ [2, 1, 1] then _ else
    if field elf 0x12 2 ≠ 0x3e then _ else if field elf 0x10 2 ≠ 2 then _ else
    if 32 < elfPhnum elf ∨ elfPhentsize elf < 56 then _ else
    match checkedAdd (elfPhoff elf) (elfPhnum elf * elfPhentsize elf) with
    | none => _
    | some phend => _) = _
  rfl

/-- Planning never reads outside the file; an accepted plan is the image's own. -/
theorem planElf_spec (elf : List UInt8) :
    planElf elf = .ok none ∨
    ∃ plan, planElf elf = .ok (some (elfEntry elf, plan)) ∧
      Planned elf.length (elfEntry elf) (loadHeaders elf) plan := by
  by_cases hlong : 0x40 ≤ elf.length
  · rw [planElf_eq hlong]
    split_ifs with hmagic hclass hmachine hkind hsizes
    iterate 5 exact .inl rfl
    cases hend : checkedAdd (elfPhoff elf) (elfPhnum elf * elfPhentsize elf) with
    | none => exact .inl rfl
    | some =>
        obtain rfl := checkedAdd_eq_some hend
        dsimp only
        split_ifs with hfits
        · exact .inl rfl
        have hread : ∀ index ∈ List.range (elfPhnum elf),
            elfPhoff elf + index * elfPhentsize elf + 56 ≤ elf.length := by
          intro index hmem
          have hindex : (index + 1) * elfPhentsize elf ≤ elfPhnum elf * elfPhentsize elf :=
            Nat.mul_le_mul_right _ (List.mem_range.1 hmem)
          rw [Nat.succ_mul] at hindex
          omega
        obtain ⟨result, hresult, hplanned⟩ := planHeaders_spec hread Planned.nil
        rw [hresult]
        cases result with
        | none => exact .inl rfl
        | some plan => exact .inr ⟨plan, rfl, hplanned plan rfl⟩
  · left
    unfold planElf
    rw [if_pos (not_le.1 hlong)]
    rfl

end Plan

end Redoubt.Kernel
