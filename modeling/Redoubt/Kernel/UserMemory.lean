import Redoubt.Kernel.PageLaws
import Redoubt.Kernel.Machine

/-!
# Bytes of user memory

A byte written to physical memory is the only one that changes.  In an address space
whose user pages are frames of their own, a loop that writes to consecutive user
addresses therefore changes no translation, and what it has written when it stops is a
prefix of its bytes.
-/

namespace Redoubt.Kernel

open Redoubt.Foundation

/-! ## Bytes of words -/

section WordByte

variable {word position other bit : Nat} {byte : UInt8}

theorem wordByte_testBit (word position : Nat) :
    (PhysMem.wordByte word position).toNat.testBit bit =
      (decide (bit < 8) && word.testBit (8 * position + bit)) := by
  rw [PhysMem.wordByte, UInt8.toNat_ofNat', Nat.testBit_mod_two_pow, Nat.testBit_shiftRight]

theorem byte_testBit (byte : UInt8) (h : 8 ≤ bit) : byte.toNat.testBit bit = false :=
  Nat.testBit_lt_two_pow (lt_of_lt_of_le byte.toNat_lt (Nat.pow_le_pow_right (by decide) h))

theorem setWordByte_testBit (hposition : 8 * position + bit < 64) (hbit : bit < 8) :
    (PhysMem.setWordByte word position byte).testBit (8 * position + bit) = byte.toNat.testBit bit := by
  have hones : (wordLimit - 1).testBit (8 * position + bit) = true := by
    rw [wordLimit, Nat.testBit_two_pow_sub_one, decide_eq_true hposition]
  have hmask : (0xff <<< (8 * position)).testBit (8 * position + bit) = true := by
    rw [Nat.testBit_shiftLeft, Nat.add_sub_cancel_left, show 0xff = 2 ^ 8 - 1 from rfl,
      Nat.testBit_two_pow_sub_one, decide_eq_true hbit, decide_eq_true (Nat.le_add_right _ _)]
    rfl
  rw [PhysMem.setWordByte, Nat.testBit_or, Nat.testBit_and, Nat.testBit_xor, hones, hmask,
    Nat.testBit_shiftLeft, Nat.add_sub_cancel_left, decide_eq_true (Nat.le_add_right _ _)]
  simp

theorem setWordByte_testBit_other (hother : other < 8) (hne : other ≠ position) (hbit : bit < 8) :
    (PhysMem.setWordByte word position byte).testBit (8 * other + bit) =
      word.testBit (8 * other + bit) := by
  have hones : (wordLimit - 1).testBit (8 * other + bit) = true := by
    rw [wordLimit, Nat.testBit_two_pow_sub_one, decide_eq_true (by omega)]
  -- the bit is on one side of the byte that is replaced
  have hside : 8 * other + bit < 8 * position ∨ 8 ≤ 8 * other + bit - 8 * position := by omega
  have hmask : (0xff <<< (8 * position)).testBit (8 * other + bit) = false := by
    rw [Nat.testBit_shiftLeft, show 0xff = 2 ^ 8 - 1 from rfl, Nat.testBit_two_pow_sub_one]
    rcases hside with hlow | hhigh
    · rw [decide_eq_false (by omega)]
      rfl
    · rw [decide_eq_false (by omega : ¬ 8 * other + bit - 8 * position < 8), Bool.and_false]
  have hbyte : (byte.toNat <<< (8 * position)).testBit (8 * other + bit) = false := by
    rw [Nat.testBit_shiftLeft]
    rcases hside with hlow | hhigh
    · rw [decide_eq_false (by omega)]
      rfl
    · rw [byte_testBit byte hhigh, Bool.and_false]
  rw [PhysMem.setWordByte, Nat.testBit_or, Nat.testBit_and, Nat.testBit_xor, hones, hmask, hbyte]
  simp

theorem wordByte_set (hposition : position < 8) :
    PhysMem.wordByte (PhysMem.setWordByte word position byte) position = byte := by
  refine UInt8.toNat_inj.1 (Nat.eq_of_testBit_eq fun bit => ?_)
  rw [wordByte_testBit]
  by_cases hbit : bit < 8
  · rw [setWordByte_testBit (by omega) hbit, decide_eq_true hbit, Bool.true_and]
  · rw [decide_eq_false hbit, Bool.false_and, byte_testBit byte (by omega)]

theorem wordByte_set_other (hother : other < 8) (hne : other ≠ position) :
    PhysMem.wordByte (PhysMem.setWordByte word position byte) other = PhysMem.wordByte word other := by
  refine UInt8.toNat_inj.1 (Nat.eq_of_testBit_eq fun bit => ?_)
  rw [wordByte_testBit, wordByte_testBit]
  by_cases hbit : bit < 8
  · rw [setWordByte_testBit_other hother hne hbit]
  · rw [decide_eq_false hbit, Bool.false_and, Bool.false_and]

end WordByte

namespace PhysMem

variable {mem : PhysMem} {address other frame : Nat} {byte : UInt8}

theorem writeByte_frame (h : frame ≠ pageFloor address) (index : Nat) :
    mem.writeByte address byte frame index = mem frame index := by
  simp [writeByte, setWord, h]

theorem readByte_writeByte : (mem.writeByte address byte).readByte address = byte := by
  have hword : mem.writeByte address byte (pageFloor address) (address % pageSize / 8) =
      setWordByte (mem (pageFloor address) (address % pageSize / 8)) (address % 8) byte := by
    simp [writeByte, setWord]
  rw [readByte, hword, wordByte_set (Nat.mod_lt _ (by decide))]

theorem readByte_writeByte_other (h : other ≠ address) :
    (mem.writeByte address byte).readByte other = mem.readByte other := by
  unfold readByte
  by_cases hword : pageFloor other = pageFloor address ∧ other % pageSize / 8 = address % pageSize / 8
  · have hposition : other % 8 ≠ address % 8 := by
      obtain ⟨hpage, hindex⟩ := hword
      simp only [pageFloor, pageSize] at hpage hindex
      omega
    rw [hword.1, hword.2]
    have hset : mem.writeByte address byte (pageFloor address) (address % pageSize / 8) =
        setWordByte (mem (pageFloor address) (address % pageSize / 8)) (address % 8) byte := by
      simp [writeByte, setWord]
    rw [hset, wordByte_set_other (Nat.mod_lt _ (by decide)) hposition]
  · have hsame : mem.writeByte address byte (pageFloor other) (other % pageSize / 8) =
        mem (pageFloor other) (other % pageSize / 8) := by
      unfold writeByte setWord
      split_ifs with hpage hindex
      · exact absurd ⟨hpage, hindex⟩ hword
      · rfl
      · rfl
    rw [hsame]

end PhysMem

/-! ## Address spaces -/

/-- An address space whose user pages are frames of their own: no two of them share a
frame, and none is a page table of the space. -/
structure UserSpace (mem : PhysMem) (cr3 : Nat) : Prop where
  nodup : (slotPages mem cr3 0).Nodup
  tables : ∀ page ∈ slotPages mem cr3 0, page ∉ slotTables mem cr3 0
  root : cr3 ∉ slotPages mem cr3 0

/-- The byte that user code sees at an address of its half. -/
def userByte (mem : PhysMem) (cr3 virt : Nat) : Option UInt8 :=
  (translate mem cr3 virt).map mem.readByte

section Translation

variable {mem after : PhysMem} {cr3 virt other phys : Nat}

theorem p4Index_user (h : virt < 2 ^ 39) : p4Index virt = 0 := by
  simp only [p4Index]
  omega

/-- A user address is determined by its indices and its offset. -/
theorem virt_eq_of_path (hvirt : virt < 2 ^ 39) (hother : other < 2 ^ 39)
    (hpath : pathOf virt = pathOf other)
    (hoffset : virt % pageSize = other % pageSize) : virt = other := by
  simp only [pathOf, List.cons.injEq, and_true, p3Index, p2Index, p1Index] at hpath
  simp only [pageSize] at hoffset
  omega

theorem translate_eq_some (hvirt : virt < 2 ^ 39) (h : translate mem cr3 virt = some phys) :
    ∃ entry, slotLeaf mem cr3 0 (pathOf virt) = some entry ∧
      phys = entryAddr entry + virt % pageSize := by
  rw [translate, leafPte_eq, p4Index_user hvirt] at h
  obtain ⟨entry, hleaf, hphys⟩ := Option.map_eq_some_iff.1 h
  exact ⟨entry, hleaf, hphys.symm⟩

theorem pageFloor_add_offset {frame offset : Nat} (haligned : frame % pageSize = 0)
    (hoffset : offset < pageSize) :
    pageFloor (frame + offset) = frame ∧ (frame + offset) % pageSize = offset := by
  simp only [pageFloor, pageSize] at *
  omega

theorem slotLeaf_some {slot : Nat} {path : List Nat} {entry : Nat}
    (h : slotLeaf mem cr3 slot path = some entry) :
    ∃ root, pageRadix.decode (mem cr3 slot) = some root ∧ pageRadix.leaf mem root path = some entry :=
  Option.bind_eq_some_iff.1 h

/-- A leaf entry is in use, so it points to the frame in its address bits. -/
theorem slotLeaf_decode {slot : Nat} {path : List Nat} {entry : Nat} (hlength : path.length = 3)
    (hpath : ∀ index ∈ path, index < 512) (h : slotLeaf mem cr3 slot path = some entry) :
    pageRadix.decode entry = some (entryAddr entry) ∧ entryAddr entry ∈ slotPages mem cr3 slot := by
  obtain ⟨root, hroot, hleaf⟩ := slotLeaf_some h
  obtain ⟨page, hdecode, hmem⟩ := Radix.leaf_mem_pages hpath hlength hleaf
  have hne : entry ≠ 0 := by
    rintro rfl
    cases hdecode
  rw [decode_of_ne hne] at hdecode ⊢
  obtain rfl := Option.some.inj hdecode
  exact ⟨rfl, by rwa [slotPages, hroot]⟩

theorem translate_mem_pages (hvirt : virt < 2 ^ 39) (h : translate mem cr3 virt = some phys) :
    pageFloor phys ∈ slotPages mem cr3 0 := by
  obtain ⟨entry, hleaf, rfl⟩ := translate_eq_some hvirt h
  rw [(pageFloor_add_offset (entryAddr_aligned entry) (Nat.mod_lt virt (by decide))).1]
  exact (slotLeaf_decode (length_pathOf virt) (pathOf_bounded virt) hleaf).2

/-- Different user addresses are different bytes of memory. -/
theorem UserSpace.translate_inj (space : UserSpace mem cr3) (hvirt : virt < 2 ^ 39)
    (hother : other < 2 ^ 39) (h : translate mem cr3 virt = some phys)
    (h' : translate mem cr3 other = some phys) : virt = other := by
  obtain ⟨entry, hleaf, heq⟩ := translate_eq_some hvirt h
  obtain ⟨entry', hleaf', heq'⟩ := translate_eq_some hother h'
  obtain ⟨hfloor, hmod⟩ :=
    pageFloor_add_offset (entryAddr_aligned entry) (Nat.mod_lt virt (by decide : 0 < pageSize))
  obtain ⟨hfloor', hmod'⟩ :=
    pageFloor_add_offset (entryAddr_aligned entry') (Nat.mod_lt other (by decide : 0 < pageSize))
  rw [← heq] at hfloor hmod
  rw [← heq'] at hfloor' hmod'
  refine virt_eq_of_path hvirt hother ?_ (hmod.symm.trans hmod')
  have hdecode := (slotLeaf_decode (length_pathOf virt) (pathOf_bounded virt) hleaf).1
  have hdecode' := (slotLeaf_decode (length_pathOf other) (pathOf_bounded other) hleaf').1
  obtain ⟨root, hroot, hleaf⟩ := slotLeaf_some hleaf
  obtain ⟨root', hroot', hleaf'⟩ := slotLeaf_some hleaf'
  obtain rfl := Option.some.inj (hroot.symm.trans hroot')
  have hnodup := space.nodup
  rw [slotPages, hroot] at hnodup
  rw [← hfloor] at hdecode
  rw [← hfloor'] at hdecode'
  exact Radix.leaf_inj hnodup (pathOf_bounded virt) (pathOf_bounded other) (length_pathOf virt)
    (length_pathOf other) hleaf hleaf' hdecode hdecode'

end Translation

/-! ## Writing through translations -/

/-- The second memory differs from the first in the bytes of one user range, all of it
mapped, which now are the given ones. -/
structure Wrote (mem after : PhysMem) (cr3 virt : Nat) (bytes : List UInt8) : Prop where
  mapped : ∀ index < bytes.length, (translate mem cr3 (virt + index)).isSome
  frames : ∀ frame ∉ slotPages mem cr3 0, ∀ index, after frame index = mem frame index
  content : ∀ address < 2 ^ 39, userByte after cr3 address =
    if virt ≤ address ∧ address < virt + bytes.length then bytes[address - virt]?
    else userByte mem cr3 address

section Wrote

variable {mem mid after : PhysMem} {cr3 virt phys : Nat} {bytes more : List UInt8} {byte : UInt8}

/-- Memories that agree on everything but user pages have the same user tables. -/
theorem UserSpace.slot_same (space : UserSpace mem cr3)
    (hframes : ∀ frame ∉ slotPages mem cr3 0, ∀ index, after frame index = mem frame index) :
    slotTables after cr3 0 = slotTables mem cr3 0 ∧ slotPages after cr3 0 = slotPages mem cr3 0 ∧
      ∀ path, path.length = 3 → (∀ index ∈ path, index < 512) →
        slotLeaf after cr3 0 path = slotLeaf mem cr3 0 path :=
  slot_congr (hframes cr3 space.root 0) fun table htable =>
    hframes table fun hpage => space.tables table hpage htable

theorem UserSpace.translate_same (space : UserSpace mem cr3)
    (hframes : ∀ frame ∉ slotPages mem cr3 0, ∀ index, after frame index = mem frame index)
    (hvirt : virt < 2 ^ 39) : translate after cr3 virt = translate mem cr3 virt := by
  rw [translate, translate, leafPte_eq, leafPte_eq, p4Index_user hvirt,
    (space.slot_same hframes).2.2 _ (length_pathOf virt) (pathOf_bounded virt)]

theorem Wrote.translate (h : Wrote mem after cr3 virt bytes) (space : UserSpace mem cr3) {address : Nat}
    (haddress : address < 2 ^ 39) : translate after cr3 address = translate mem cr3 address :=
  space.translate_same h.frames haddress

theorem Wrote.userSpace (h : Wrote mem after cr3 virt bytes) (space : UserSpace mem cr3) :
    UserSpace after cr3 := by
  obtain ⟨htables, hpages, -⟩ := space.slot_same h.frames
  exact ⟨hpages ▸ space.nodup, by rw [hpages, htables]; exact space.tables, hpages ▸ space.root⟩

theorem Wrote.nil : Wrote mem mem cr3 virt [] where
  mapped := nofun
  frames := fun _ _ _ => rfl
  content := by
    intro address _
    rw [if_neg (by simp)]

theorem UserSpace.wrote (space : UserSpace mem cr3) (hvirt : virt < 2 ^ 39)
    (h : Kernel.translate mem cr3 virt = some phys) :
    Wrote mem (mem.writeByte phys byte) cr3 virt [byte] := by
  have hframes : ∀ frame ∉ slotPages mem cr3 0, ∀ index,
      mem.writeByte phys byte frame index = mem frame index := by
    refine fun frame hframe index => PhysMem.writeByte_frame ?_ index
    rintro rfl
    exact hframe (translate_mem_pages hvirt h)
  refine ⟨?_, hframes, ?_⟩
  · intro index hindex
    obtain rfl : index = 0 := by simpa using hindex
    rw [Nat.add_zero, h]
    rfl
  · intro address haddress
    rw [userByte, space.translate_same hframes haddress]
    by_cases heq : address = virt
    · subst heq
      rw [h, Option.map_some, PhysMem.readByte_writeByte, if_pos (by simp), Nat.sub_self]
      rfl
    · rw [if_neg (by simp only [List.length_singleton]; omega), userByte]
      cases hother : Kernel.translate mem cr3 address with
      | none => rfl
      | some place =>
          have hne : place ≠ phys := by
            rintro rfl
            exact heq (space.translate_inj haddress hvirt hother h)
          rw [Option.map_some, Option.map_some, PhysMem.readByte_writeByte_other hne]

theorem Wrote.append (space : UserSpace mem cr3) (hfirst : Wrote mem mid cr3 virt bytes)
    (hsecond : Wrote mid after cr3 (virt + bytes.length) more)
    (hlimit : virt + bytes.length + more.length ≤ 2 ^ 39) : Wrote mem after cr3 virt (bytes ++ more) where
  mapped := by
    intro index hindex
    rw [List.length_append] at hindex
    by_cases hin : index < bytes.length
    · exact hfirst.mapped index hin
    · have h := hsecond.mapped (index - bytes.length) (by omega)
      rwa [hfirst.translate space (by omega),
        show virt + bytes.length + (index - bytes.length) = virt + index by omega] at h
  frames := by
    intro frame hframe index
    rw [hsecond.frames frame (by rwa [(space.slot_same hfirst.frames).2.1]) index,
      hfirst.frames frame hframe index]
  content := by
    intro address haddress
    rw [hsecond.content address haddress, hfirst.content address haddress, List.length_append]
    by_cases hbelow : address < virt + bytes.length
    · rw [if_neg (by omega), List.getElem?_append]
      by_cases hvirt : virt ≤ address
      · rw [if_pos ⟨hvirt, hbelow⟩, if_pos ⟨hvirt, by omega⟩, if_pos (by omega)]
      · rw [if_neg (by omega), if_neg (by omega)]
    · by_cases hin : address < virt + bytes.length + more.length
      · rw [if_pos ⟨by omega, hin⟩, if_pos ⟨by omega, by omega⟩, List.getElem?_append_right (by omega),
          Nat.sub_add_eq]
      · rw [if_neg (by omega), if_neg (by omega), if_neg (by omega)]

end Wrote

/-! ## The copy loop -/

/-- The loop writes a prefix of its bytes and stops early at an unmapped address only. -/
theorem copyBytes_spec {vm : Vm} {cr3 virt : Nat} {bytes : List UInt8} (space : UserSpace vm.mem cr3)
    (hlimit : virt + bytes.length ≤ 2 ^ 39) :
    ∃ written rest after, bytes = written ++ rest ∧ Wrote vm.mem after cr3 virt written ∧
      (rest = [] ∧ copyBytes cr3 virt bytes vm = ({ vm with mem := after }, true) ∨
        rest ≠ [] ∧ translate vm.mem cr3 (virt + written.length) = none ∧
          copyBytes cr3 virt bytes vm = ({ vm with mem := after }, false)) := by
  induction bytes generalizing virt vm with
  | nil => exact ⟨[], [], vm.mem, rfl, .nil, .inl ⟨rfl, rfl⟩⟩
  | cons byte bytes ih =>
      rw [List.length_cons] at hlimit
      rw [copyBytes]
      cases htranslate : translate vm.mem cr3 virt with
      | none => exact ⟨[], byte :: bytes, vm.mem, rfl, .nil, .inr ⟨nofun, htranslate, rfl⟩⟩
      | some phys =>
          have hone : Wrote vm.mem (vm.mem.writeByte phys byte) cr3 virt [byte] :=
            space.wrote (by omega) htranslate
          have hspace : UserSpace (vm.writeByte phys byte).mem cr3 := hone.userSpace space
          obtain ⟨written, rest, after, rfl, hwrote, hend⟩ :=
            ih hspace (by omega : virt + 1 + bytes.length ≤ 2 ^ 39)
          rw [List.length_append] at hlimit
          have hall := hone.append space hwrote (by rw [List.length_singleton]; omega)
          refine ⟨byte :: written, rest, after, rfl, hall,
            hend.imp_right fun ⟨hrest, hnone, hcopy⟩ => ⟨hrest, ?_, hcopy⟩⟩
          have hlength : 0 < rest.length := List.length_pos_iff.2 hrest
          rw [← hone.translate space (by rw [List.length_cons]; omega), List.length_cons,
            Nat.add_comm written.length 1, ← Nat.add_assoc]
          exact hnone

/-! ## Copies to the caller -/

/-- A copy that changes nothing when it fails, and the destination range when it
succeeds. -/
def AllOrNothing (s : Machine) (dst : Nat) (src : List UInt8) : Prop :=
  ((s.copyToUser dst src).2 = false → ∀ virt < 2 ^ 39,
    userByte (s.copyToUser dst src).1.vm.mem s.cr3 virt = userByte s.vm.mem s.cr3 virt) ∧
  ((s.copyToUser dst src).2 = true → ∀ virt < 2 ^ 39,
    userByte (s.copyToUser dst src).1.vm.mem s.cr3 virt =
      if dst ≤ virt ∧ virt < dst + src.length then src[virt - dst]? else userByte s.vm.mem s.cr3 virt)

section CopyToUser

variable {s : Machine} {dst : Nat} {src : List UInt8}

theorem userRangeValid_le {start len : Nat} (h : userRangeValid start len = true) :
    start + len ≤ 2 ^ 39 := by
  unfold userRangeValid at h
  split at h
  · cases h
  · rename_i stop hstop
    unfold checkedAdd at hstop
    split_ifs at hstop
    cases hstop
    have hstop : start + len ≤ userStackTop := of_decide_eq_true (Bool.and_eq_true_iff.1 h).2
    exact hstop.trans (by decide)

/-- The copy is all or nothing when the range is refused, when it is mapped to its end, and
when the bytes in front of the first unmapped address already are the source bytes. -/
theorem copyToUser_allOrNothing_iff (space : UserSpace s.vm.mem s.cr3) :
    AllOrNothing s dst src ↔
      (userRangeValid dst src.length = true →
        (∀ index < src.length, (translate s.vm.mem s.cr3 (dst + index)).isSome) ∨
        ∀ index < src.length, (∀ earlier ≤ index, (translate s.vm.mem s.cr3 (dst + earlier)).isSome) →
          userByte s.vm.mem s.cr3 (dst + index) = src[index]?) := by
  by_cases hvalid : userRangeValid dst src.length = true
  swap
  · simp [AllOrNothing, Machine.copyToUser, hvalid]
  have hlimit := userRangeValid_le hvalid
  obtain ⟨written, rest, after, hsplit, hwrote, ⟨rfl, hcopy⟩ | ⟨hrest, hunmapped, hcopy⟩⟩ :=
    copyBytes_spec space hlimit
  · rw [List.append_nil] at hsplit
    subst hsplit
    have hresult : s.copyToUser dst src = ({ s with vm := { s.vm with mem := after } }, true) := by
      rw [Machine.copyToUser, if_pos hvalid, hcopy]
    rw [AllOrNothing, hresult]
    exact ⟨fun _ _ => .inl hwrote.mapped, fun _ => ⟨nofun, fun _ => hwrote.content⟩⟩
  · have hresult : s.copyToUser dst src = ({ s with vm := { s.vm with mem := after } }, false) := by
      rw [Machine.copyToUser, if_pos hvalid, hcopy]
    have hlength : src.length = written.length + rest.length := by rw [hsplit, List.length_append]
    have hpositive : 0 < rest.length := List.length_pos_iff.2 hrest
    have hget : ∀ index < written.length, written[index]? = src[index]? := by
      intro index hindex
      rw [hsplit, List.getElem?_append_left hindex]
    have hchanged : ∀ index < written.length,
        userByte after s.cr3 (dst + index) = src[index]? := by
      intro index hindex
      rw [hwrote.content _ (by omega), if_pos ⟨by omega, by omega⟩, Nat.add_sub_cancel_left,
        hget index hindex]
    rw [AllOrNothing, hresult]
    constructor
    · rintro ⟨hsame, -⟩ -
      refine .inr fun index _ hmapped => ?_
      -- an address in front of which everything is mapped has been written
      have hin : index < written.length := by
        by_contra hout
        have h := hmapped written.length (by omega)
        rw [hunmapped] at h
        cases h
      rw [← hsame rfl (dst + index) (by omega), hchanged index hin]
    · intro hcond
      refine ⟨fun _ virt hvirt => ?_, nofun⟩
      rcases hcond hvalid with hall | hequal
      · have h := hall written.length (by omega)
        rw [hunmapped] at h
        cases h
      · by_cases hin : dst ≤ virt ∧ virt < dst + written.length
        · obtain ⟨index, rfl⟩ := Nat.exists_eq_add_of_le hin.1
          have hindex : index < written.length := by omega
          refine (hchanged index hindex).trans (hequal index (by omega) fun earlier hearlier => ?_).symm
          exact hwrote.mapped earlier (by omega)
        · exact (hwrote.content virt hvirt).trans (if_neg hin)

end CopyToUser

/-- One space with one user page. -/
def onePage : Vm := (oneSpace.mapPageIn 0x100000 0x400000 0x150000 stackFlags).1

def onePageMachine : Machine :=
  BootEnv.machine
    { mem := onePage.mem, frames := onePage.frames, kernelPml4 := 0x100000, consoleElf := [],
      initfsElf := [], primaryDrive := none, secondaryDrive := none, userCs := 0x23, userSs := 0x1b }
    onePage

theorem onePageMachine_userSpace : UserSpace onePageMachine.vm.mem onePageMachine.cr3 := by
  have hpages : slotPages onePage.mem 0x100000 0 = [0x150000] := by decide +kernel
  have htables : 0x150000 ∉ slotTables onePage.mem 0x100000 0 := by decide +kernel
  change UserSpace onePage.mem 0x100000
  refine ⟨by rw [hpages]; exact List.nodup_singleton _, ?_, by rw [hpages]; decide⟩
  intro page hpage
  rw [hpages, List.mem_singleton] at hpage
  rwa [hpage]

theorem copyToUser_allOrNothing_onePage : AllOrNothing onePageMachine 0x400ffe [1, 2] :=
  (copyToUser_allOrNothing_iff onePageMachine_userSpace).2 fun _ => .inl (by decide +kernel)

/-- A copy across the end of the page fails and leaves its first byte behind. -/
theorem copyToUser_partial :
    UserSpace onePageMachine.vm.mem onePageMachine.cr3 ∧
      ¬ AllOrNothing onePageMachine 0x400fff [1, 2] := by
  refine ⟨onePageMachine_userSpace, fun h => ?_⟩
  have hsame := h.1 (by decide +kernel) 0x400fff (by decide)
  revert hsame
  decide +kernel

end Redoubt.Kernel
