import Redoubt.Storage.Mounting

/-!
# Mounting after faults

Two faults reach a mount: a block read that fails, and a superblock write that was
cut off so that the sector mixes old and new bytes.  The first makes the mount clear
the header of a good slot; the second makes it stop before either slot is looked at,
unless the tag of the mixture happens to be right.
-/

namespace Redoubt.Storage

open Redoubt.Foundation Redoubt.Crypto

variable {disk : Disk} {slot : SlotId}

section

variable {w : World} {d : Dev} {key pubkey : Bytes 32}

/-! ### A sealed image in a slot -/

/-- The sectors of an image in a slot. -/
def imageSectors (slot : SlotId) (img : List UInt8) : List (Nat × Sector) :=
  numbered slot.hdrLba (toSectors ((img.length + 511) / 512) img)

/-- The disk after the sectors of an image went into a slot. -/
def installImage (disk : Disk) (slot : SlotId) (img : List UInt8) : Disk :=
  applyWrites disk (imageSectors slot img)

theorem slotOnDisk_installImage (disk : Disk) {gen : UInt64} {payload : List UInt8}
    (room : payload.length ≤ payloadCap) {sig : Bytes 64} (nonempty : payload ≠ [])
    (signed : Ed25519.accepts pubkey payload sig = true) :
    slotOnDisk (installImage disk slot (buildSlotImage gen payload room sig key)) key pubkey slot =
      some (payload, gen) := by
  have hlen := length_buildSlotImage gen payload room sig key
  have hsectors := sectors_applyWrites disk slot.hdrLba
    (toSectors (((buildSlotImage gen payload room sig key).length + 511) / 512)
      (buildSlotImage gen payload room sig key))
  rw [length_toSectors] at hsectors
  exact (sealed_image (by rw [hlen]) hsectors).slotOnDisk nonempty signed

/-- An image that fits leaves everything outside its slot alone. -/
theorem installImage_untouched (disk : Disk) (slot : SlotId) {img : List UInt8} {lba : Nat}
    (fits : img.length ≤ slotImageMax) (outside : ¬ slot.Owns lba) :
    installImage disk slot img lba = disk lba := by
  refine applyWrites_of_untouched _ _ _ fun entry hentry heq => outside ?_
  have hrange := mem_numbered hentry
  have hmax : slotImageMax = 513024 := by decide
  rw [length_toSectors, heq] at hrange
  unfold SlotId.Owns
  rw [payloadLba_eq]
  omega

/-! ### Failing reads -/

/-- A mount whose superblock read succeeds and names a slot that is good on the disk,
while one of the reads that load that slot fails and the cleared header reaches the disk. -/
structure BootReadFault (w : World) (pubkey : Bytes 32) (d : Dev) (slot : SlotId) : Prop where
  superblockRead : (w.read d.reads superblockLba).isSome
  trusted : superblockTrusted (d.disk superblockLba) = true
  named : superblockSlot (d.disk superblockLba) = some slot
  readFails : ∃ payload gen,
    slotOnDisk d.disk (superblockKey (d.disk superblockLba)) pubkey slot = some (payload, gen) ∧
    ¬ w.SlotRead (d.reads + 1) slot payload.length
  clears : ¬ w.Lost d.writes

theorem mountRejects_iff (honest : w.HonestReads) :
    MountRejects w d pubkey slot ↔ (w.read d.reads superblockLba).isSome ∧
      superblockTrusted (d.disk superblockLba) = true ∧
      superblockSlot (d.disk superblockLba) = some slot ∧
      slotSeen w (superblockKey (d.disk superblockLba)) pubkey slot
        { d with reads := d.reads + 1 } = none := by
  unfold MountRejects
  rw [brSector_honest honest]
  by_cases hread : (w.read d.reads superblockLba).isSome
  · rw [if_pos hread]
    simp [hread]
  · rw [if_neg hread]
    simp [hread]

/-- Seeing nothing of a good slot means that one of its reads failed. -/
theorem slotSeen_eq_none_iff (honest : w.HonestReads) (d : Dev) {payload : List UInt8}
    {gen : UInt64} (h : slotOnDisk d.disk key pubkey slot = some (payload, gen)) :
    slotSeen w key pubkey slot d = none ↔ ¬ w.SlotRead d.reads slot payload.length := by
  constructor
  · intro hnone hreads
    rw [(slotSeen_eq_some_iff honest).mpr ⟨h, hreads⟩] at hnone
    cases hnone
  · intro hfails
    rw [← Option.not_isSome_iff_eq_none, Option.isSome_iff_exists]
    rintro ⟨⟨payload', gen'⟩, hseen⟩
    obtain ⟨hsame, hreads⟩ := (slotSeen_eq_some_iff honest).mp hseen
    rw [h] at hsame
    cases hsame
    exact hfails hreads

theorem BootReadFault.rejects (honest : w.HonestReads) {slot : SlotId}
    (fault : BootReadFault w pubkey d slot) : MountRejects w d pubkey slot := by
  obtain ⟨payload, gen, hslot, hfail⟩ := fault.readFails
  exact (mountRejects_iff honest).mpr ⟨fault.superblockRead, fault.trusted, fault.named,
    (slotSeen_eq_none_iff honest { d with reads := d.reads + 1 } hslot).mpr hfail⟩

/-- After such a mount the good slot is gone. -/
theorem BootReadFault.destroys (honest : w.HonestReads) {slot : SlotId}
    (fault : BootReadFault w pubkey d slot) (key : Bytes 32) :
    slotOnDisk (boot w true pubkey d).2.disk key pubkey slot = none := by
  obtain ⟨read, honly, hlog⟩ :=
    mount_wroteIn_of_rejected w (State.factory true pubkey) d (fault.rejects honest)
  change slotOnDisk (mount w (State.factory true pubkey) d).2.disk key pubkey slot = none
  rw [slotOnDisk_wroteIn hlog]
  rcases slotOnDisk_zeroHeader w read key pubkey slot with ⟨hlost, -⟩ | ⟨-, hnone⟩
  · rw [honly.writes] at hlost
    exact absurd hlost fault.clears
  · exact hnone

/-- Without such a fault every good slot survives. -/
theorem slotOnDisk_boot_of_no_fault (honest : w.HonestReads)
    (noFault : ∀ slot, ¬ BootReadFault w pubkey d slot)
    (good : (slotOnDisk d.disk (superblockKey (d.disk superblockLba)) pubkey slot).isSome) :
    (slotOnDisk (boot w true pubkey d).2.disk (superblockKey (d.disk superblockLba)) pubkey
      slot).isSome := by
  change (slotOnDisk (mount w (State.factory true pubkey) d).2.disk _ pubkey slot).isSome
  by_cases hrejects : ∃ bad, MountRejects w d pubkey bad
  · obtain ⟨bad, hbad⟩ := hrejects
    obtain ⟨read, honly, hlog⟩ :=
      mount_wroteIn_of_rejected w (State.factory true pubkey) d hbad
    rw [slotOnDisk_wroteIn hlog]
    by_cases hsame : slot = bad
    · subst hsame
      obtain ⟨hread, htrust, hnamed, hseen⟩ := (mountRejects_iff honest).mp hbad
      obtain ⟨⟨payload, gen⟩, hslot⟩ := Option.isSome_iff_exists.mp good
      rcases slotOnDisk_zeroHeader w read (superblockKey (d.disk superblockLba)) pubkey slot with
        ⟨-, hkept⟩ | ⟨hlanded, -⟩
      · rw [hkept, honly.disk]
        exact good
      · exact absurd
          { superblockRead := hread
            trusted := htrust
            named := hnamed
            readFails := ⟨payload, gen, hslot,
              (slotSeen_eq_none_iff honest { d with reads := d.reads + 1 } hslot).mp hseen⟩
            clears := by rwa [honly.writes] at hlanded } (noFault slot)
    · have hother := SlotId.eq_other hsame
      rw [hother, slotOnDisk_zeroHeader_other, honly.disk, ← hother]
      exact good
  · rw [slotOnDisk_wroteIn (mount_wroteIn_of_accepted w (State.factory true pubkey) d
      fun bad hbad => hrejects ⟨bad, hbad⟩)]
    exact good

/-- A mount keeps every good slot exactly when there is no such fault: every read that loads
the slot named by a trusted superblock succeeds if that slot is good, or the superblock is
not read, or the write that clears the header is lost. -/
theorem mount_keeps_good_slots (w : World) (honest : w.HonestReads) (pubkey : Bytes 32) (d : Dev) :
    (∀ slot, (slotOnDisk d.disk (superblockKey (d.disk superblockLba)) pubkey slot).isSome →
      (slotOnDisk (boot w true pubkey d).2.disk (superblockKey (d.disk superblockLba)) pubkey
        slot).isSome) ↔
      ∀ slot, ¬ BootReadFault w pubkey d slot := by
  constructor
  · intro keeps slot fault
    obtain ⟨payload, gen, hslot, -⟩ := fault.readFails
    have hkept := keeps slot (by rw [hslot]; rfl)
    rw [fault.destroys honest] at hkept
    cases hkept
  · intro noFault slot good
    exact slotOnDisk_boot_of_no_fault honest noFault good

end

/-- A slot with its generation and payload. -/
abbrev Commit := SlotId × UInt64 × List UInt8

/-- The disk boots this system without a rollback. -/
structure BootsCommit (pubkey : Bytes 32) (disk : Disk) (c : Commit) : Prop where
  trusted : superblockTrusted (disk superblockLba) = true
  named : superblockSlot (disk superblockLba) = some c.1
  good : slotOnDisk disk (superblockKey (disk superblockLba)) pubkey c.1 = some (c.2.2, c.2.1)

theorem BootsCommit.congr {pubkey : Bytes 32} {disk other : Disk} {c : Commit}
    (h : BootsCommit pubkey disk c) (superblock : other superblockLba = disk superblockLba)
    (slot : ∀ lba, c.1.Owns lba → other lba = disk lba) : BootsCommit pubkey other c where
  trusted := by rw [superblock, h.trusted]
  named := by rw [superblock, h.named]
  good := by rw [superblock, slotOnDisk_congr slot, h.good]

/-- A mount boots the committed system and only writes audit records. -/
theorem BootsCommit.boot {w : World} {pubkey : Bytes 32} {disk : Disk} {c : Commit}
    (boots : BootsCommit pubkey disk c) (reads : w.ReadsSucceed) :
    ∃ st d, boot w true pubkey (Dev.fresh disk) = (st, d) ∧
      (Dev.fresh disk).WroteIn AuditSector d ∧
      st.system = (State.factory true pubkey).system.mounted
        (superblockKey (disk superblockLba)) c.1 c.2.1 c.2.2 ∧
      ListedBy w (Dev.fresh disk) (superblockKey (disk superblockLba)) pubkey st :=
  boot_active reads boots.trusted boots.named boots.good

/-- Slot `slot` with the sample image of this generation, and this superblock. -/
def sampleDisk (sb : Sector) (slot : SlotId) (gen : UInt64) : Disk :=
  installImage (fun lba => if lba = superblockLba then sb else Bytes.zeros 512) slot
    (buildSlotImage gen factoryPayload factoryPayload_room sampleSignature sampleKey)

theorem sampleDisk_outside (sb : Sector) (gen : UInt64) {lba : Nat}
    (outside : ¬ slot.Owns lba) :
    sampleDisk sb slot gen lba = if lba = superblockLba then sb else Bytes.zeros 512 := by
  refine installImage_untouched _ slot ?_ outside
  have hroom := factoryPayload_room
  have hcap : payloadCap = 512000 := by decide
  have hmax : slotImageMax = 513024 := by decide
  rw [length_buildSlotImage]
  omega

theorem superblock_not_owned (slot : SlotId) : ¬ slot.Owns superblockLba := by
  unfold SlotId.Owns
  cases slot <;> decide

theorem sampleDisk_superblock (sb : Sector) (slot : SlotId) (gen : UInt64) :
    sampleDisk sb slot gen superblockLba = sb :=
  (sampleDisk_outside sb gen (superblock_not_owned slot)).trans (if_pos rfl)

theorem sampleDisk_other_header (sb : Sector) (slot : SlotId) (gen : UInt64) :
    sampleDisk sb slot gen slot.other.hdrLba = Bytes.zeros 512 := by
  refine (sampleDisk_outside sb gen fun h =>
    SlotId.not_owns_other h slot.other.owns_hdrLba).trans (if_neg ?_)
  cases slot <;> decide

theorem sampleDisk_slot (sb : Sector) (slot : SlotId) (gen : UInt64) :
    slotOnDisk (sampleDisk sb slot gen) sampleKey samplePublic slot = some (factoryPayload, gen) :=
  slotOnDisk_installImage _ factoryPayload_room (by decide) sampleSignature_accepted

theorem superblockTrusted_write (active : Option SlotId) (genA genB : UInt64) (key : Bytes 32) :
    superblockTrusted (writeSuperblock active genA genB key) = true := by
  have hmagic : (writeSuperblock active genA genB key).slice 0 8 = sbMagic := by
    simp (disch := decide) [writeSuperblock, Bytes.slice_splice_before]
  rw [superblockTrusted, hmagic, superblockKey_write, superblockValid_write, beq_self_eq_true]
  rfl

theorem superblockSlot_write (active : Option SlotId) (genA genB : UInt64) (key : Bytes 32) :
    superblockSlot (writeSuperblock active genA genB key) = active := by
  rw [superblockSlot, parseSuperblock_write]
  rfl

/-- The superblock of the sample volume names its good slot. -/
theorem sampleDisk_commit (slot : SlotId) (gen genA genB : UInt64) :
    BootsCommit samplePublic (sampleDisk (writeSuperblock (some slot) genA genB sampleKey) slot gen)
        (slot, gen, factoryPayload) ∧
      superblockKey
        (sampleDisk (writeSuperblock (some slot) genA genB sampleKey) slot gen superblockLba) =
        sampleKey := by
  have hread := sampleDisk_superblock (writeSuperblock (some slot) genA genB sampleKey) slot gen
  have hslot := sampleDisk_slot (writeSuperblock (some slot) genA genB sampleKey) slot gen
  generalize sampleDisk (writeSuperblock (some slot) genA genB sampleKey) slot gen = disk at hread hslot ⊢
  rw [hread, superblockKey_write]
  exact ⟨⟨by rw [hread, superblockTrusted_write], by rw [hread, superblockSlot_write],
    by rw [hread, superblockKey_write]; exact hslot⟩, rfl⟩

/-- The read of the header of the active slot fails, everything else succeeds. -/
def headerReadFails : World :=
  { World.faultless with read := fun n _ => if n = 1 then none else some fun _ sector => sector }

theorem headerReadFails_honest : headerReadFails.HonestReads := by
  intro n first seen h lba sector
  unfold headerReadFails at h
  dsimp only at h
  split_ifs at h
  cases h
  rfl

theorem BootsCommit.headerReadFails {pubkey : Bytes 32} {c : Commit}
    (h : BootsCommit pubkey disk c) :
    BootReadFault Storage.headerReadFails pubkey (Dev.fresh disk) c.1 where
  superblockRead := rfl
  trusted := h.trusted
  named := h.named
  readFails := ⟨c.2.2, c.2.1, h.good, fun hreads => by cases hreads.1⟩
  clears := World.not_lost_of_none rfl

/-- The good slot of a volume survives a mount in which nothing fails, and not one in which
the read of its header fails. -/
theorem mount_keeps_good_slots_sample : ∃ disk,
    slotOnDisk disk (superblockKey (disk superblockLba)) samplePublic .a = some (factoryPayload, 1) ∧
    ∀ w, w = World.faultless ∨ w = headerReadFails →
      ((∀ slot, (slotOnDisk disk (superblockKey (disk superblockLba)) samplePublic slot).isSome →
        (slotOnDisk (boot w true samplePublic (Dev.fresh disk)).2.disk
          (superblockKey (disk superblockLba)) samplePublic slot).isSome) ↔ w = World.faultless) := by
  have hcommit := (sampleDisk_commit .a 1 1 0).1
  generalize sampleDisk (writeSuperblock (some .a) 1 0 sampleKey) .a 1 = disk at hcommit
  have hne : headerReadFails ≠ World.faultless := fun h =>
    Option.some_ne_none _ (congrFun (congrFun (congrArg World.read h) 1) 0).symm
  refine ⟨disk, hcommit.good, ?_⟩
  rintro w (rfl | rfl)
  · refine (mount_keeps_good_slots World.faultless World.faultless_reads.1 samplePublic
      (Dev.fresh disk)).trans (iff_of_true (fun slot fault => ?_) rfl)
    obtain ⟨payload, gen, -, hfails⟩ := fault.readFails
    exact hfails ⟨rfl, fun _ _ => rfl⟩
  · exact (mount_keeps_good_slots headerReadFails headerReadFails_honest samplePublic
      (Dev.fresh disk)).trans (iff_of_false (fun none => none .a hcommit.headerReadFails) hne)

/-- The superblock names slot A, which is good; the read of its header fails once. -/
theorem good_slot_destroyed :
    slotOnDisk (sampleDisk (writeSuperblock (some .a) 1 0 sampleKey) .a 1) sampleKey samplePublic .a =
        some (factoryPayload, 1) ∧
      slotOnDisk (boot headerReadFails true samplePublic
        (Dev.fresh (sampleDisk (writeSuperblock (some .a) 1 0 sampleKey) .a 1))).2.disk
        sampleKey samplePublic .a = none := by
  have hslot := sampleDisk_slot (writeSuperblock (some .a) 1 0 sampleKey) .a 1
  have hcommit := (sampleDisk_commit .a 1 1 0).1
  generalize sampleDisk (writeSuperblock (some .a) 1 0 sampleKey) .a 1 = disk at hslot hcommit ⊢
  exact ⟨hslot, hcommit.headerReadFails.destroys headerReadFails_honest sampleKey⟩

/-! ### A torn superblock -/

/-- Every byte of the sector is the old one or the new one. -/
def Torn (old new mix : Sector) : Prop :=
  ∀ index : Nat, mix.val[index]? = old.val[index]? ∨ mix.val[index]? = new.val[index]?

/-- A field that the write does not change is not torn. -/
theorem Torn.slice {old new mix : Sector} (torn : Torn old new mix) {off len : Nat}
    (inside : off + len ≤ 512) (same : new.slice off len inside = old.slice off len inside) :
    mix.slice off len inside = old.slice off len inside := by
  apply Subtype.ext
  have hsame := congrArg Subtype.val same
  rw [Bytes.slice_val, Bytes.slice_val] at *
  apply List.ext_getElem?
  intro index
  have hindex := congrArg (·[index]?) hsame
  simp only [List.getElem?_take, List.getElem?_drop] at hindex ⊢
  split_ifs at hindex ⊢ with hlt
  · rcases torn (off + index) with h | h
    · exact h
    · rw [h, hindex]
  · rfl

section

variable {pubkey : Bytes 32}

theorem selection_untrusted
    (untrusted : superblockTrusted (disk superblockLba) = false) : selection disk pubkey = none := by
  rw [selection, untrusted]
  rfl

theorem selection_unnamed (unnamed : superblockSlot (disk superblockLba) = none) :
    selection disk pubkey = none := by
  rw [selection, unnamed]
  exact ite_self none

theorem selection_of_trusted
    (trusted : superblockTrusted (disk superblockLba) = true)
    (named : superblockSlot (disk superblockLba) = some slot) :
    selection disk pubkey =
      match slotOnDisk disk (superblockKey (disk superblockLba)) pubkey slot with
      | some (payload, gen) => some (slot, gen, payload)
      | none =>
          (slotOnDisk disk (superblockKey (disk superblockLba)) pubkey slot.other).map
            fun stored => (slot.other, stored.2, stored.1) := by
  unfold selection
  dsimp only
  rw [if_pos trusted, named]
  dsimp only [Option.bind_eq_bind, Option.bind_some]
  cases slotOnDisk disk (superblockKey (disk superblockLba)) pubkey slot with
  | some => rfl
  | none =>
      cases slotOnDisk disk (superblockKey (disk superblockLba)) pubkey slot.other <;> rfl

/-- A trusted superblock that names a slot finds any slot that is good. -/
theorem selection_good (trusted : superblockTrusted (disk superblockLba) = true)
    (named : (superblockSlot (disk superblockLba)).isSome)
    (good : ∃ slot, (slotOnDisk disk (superblockKey (disk superblockLba)) pubkey slot).isSome) :
    ∃ slot gen payload, selection disk pubkey = some (slot, gen, payload) ∧
      slotOnDisk disk (superblockKey (disk superblockLba)) pubkey slot = some (payload, gen) := by
  obtain ⟨first, hfirst⟩ := Option.isSome_iff_exists.mp named
  rw [selection_of_trusted trusted hfirst]
  cases hslot : slotOnDisk disk (superblockKey (disk superblockLba)) pubkey first with
  | some stored => exact ⟨first, stored.2, stored.1, rfl, hslot⟩
  | none =>
      obtain ⟨slot, hgood⟩ := good
      have hother : slot = first.other := by
        refine SlotId.eq_other ?_
        rintro rfl
        rw [hslot] at hgood
        cases hgood
      rw [hother] at hgood
      obtain ⟨stored, hstored⟩ := Option.isSome_iff_exists.mp hgood
      exact ⟨first.other, stored.2, stored.1, by rw [hstored]; rfl, hstored⟩

end

/-- After a torn superblock write a mount falls back to a good slot exactly when the tag
of the torn sector is right and the sector names a slot. -/
theorem torn_superblock_falls_back (w : World) (reads : w.ReadsSucceed) (pubkey key : Bytes 32)
    (d : Dev) (old : Sector) (newActive : SlotId) (genA genB : UInt64)
    (trusted : superblockTrusted old = true) (keyed : superblockKey old = key)
    (torn : Torn old (writeSuperblock (some newActive) genA genB key) (d.disk superblockLba))
    (good : ∃ slot, (slotOnDisk d.disk key pubkey slot).isSome) :
    ((boot w true pubkey d).1.recovery = false ∧ ∃ slot,
        (boot w true pubkey d).1.active = some slot ∧
        slotOnDisk d.disk key pubkey slot =
          some ((boot w true pubkey d).1.payload, (boot w true pubkey d).1.generation)) ↔
      superblockValid key (d.disk superblockLba) = true ∧
        (superblockSlot (d.disk superblockLba)).isSome := by
  unfold superblockTrusted at trusted
  rw [Bool.and_eq_true, beq_iff_eq] at trusted
  have hmagic : (d.disk superblockLba).slice 0 8 = sbMagic := by
    rw [← trusted.1]
    refine torn.slice (by decide) ?_
    rw [trusted.1]
    simp (disch := decide) [writeSuperblock, Bytes.slice_splice_before]
  have hkey : superblockKey (d.disk superblockLba) = key := by
    rw [← keyed]
    refine torn.slice (by decide) ?_
    have hnew := superblockKey_write (some newActive) genA genB key
    exact hnew.trans keyed.symm
  have htrusted : superblockTrusted (d.disk superblockLba) =
      superblockValid key (d.disk superblockLba) := by
    rw [superblockTrusted, hmagic, hkey, beq_self_eq_true, Bool.true_and]
  have hbooted := @boot_selection w d pubkey reads
  generalize (boot w true pubkey d).1 = st at hbooted ⊢
  constructor
  · rintro ⟨hrecovery, slot, hactive, -⟩
    by_contra hbad
    have hnone : selection d.disk pubkey = none := by
      unfold selection
      dsimp only
      rw [htrusted]
      split_ifs with hvalid
      · have hnot : superblockSlot (d.disk superblockLba) = none :=
          Option.not_isSome_iff_eq_none.mp fun hsome => hbad ⟨hvalid, hsome⟩
        rw [hnot]
        rfl
      · rfl
    rw [hnone] at hbooted
    have hrec : st.recovery = true := congrArg Prod.fst hbooted
    rw [hrec] at hrecovery
    cases hrecovery
  · rintro ⟨hvalid, hnamed⟩
    rw [← hkey] at good
    obtain ⟨slot, gen, payload, hselect, hslot⟩ :=
      selection_good (htrusted.trans hvalid) hnamed good
    rw [hselect] at hbooted
    rw [hkey] at hslot
    obtain ⟨hrecovery, hactive, hgen, hpayload⟩ : st.recovery = false ∧ st.active = some slot ∧
        st.generation = gen ∧ st.payload = payload := by
      simpa [State.booted, bootedFrom] using hbooted
    exact ⟨hrecovery, slot, hactive, by rw [hslot, hpayload, hgen]⟩

theorem torn_superblock_falls_back_whole :
    (boot World.faultless true samplePublic (Dev.fresh
        (sampleDisk (writeSuperblock (some .a) 1 0 sampleKey) .a 1))).1.recovery = false := by
  obtain ⟨hcommit, hkey⟩ := sampleDisk_commit .a 1 1 0
  generalize sampleDisk (writeSuperblock (some .a) 1 0 sampleKey) .a 1 = disk at hcommit hkey ⊢
  have hvalid := (Bool.and_eq_true_iff.mp hcommit.trusted).2
  have hgood := hcommit.good
  have hnamed := hcommit.named
  rw [hkey] at hvalid hgood
  exact ((torn_superblock_falls_back World.faultless World.faultless_reads samplePublic sampleKey
    (Dev.fresh disk) (disk superblockLba) .b 1 2 hcommit.trusted hkey (fun index => .inl rfl)
    ⟨.a, Option.isSome_of_eq_some hgood⟩).mpr ⟨hvalid, Option.isSome_of_eq_some hnamed⟩).1

/-- The first bytes of the new sector and the last ones of the old sector. -/
def tornAt (count : Nat) (old new : Sector) : Sector :=
  ⟨new.val.take count ++ old.val.drop count, by simp; omega⟩

theorem torn_tornAt (count : Nat) (old new : Sector) : Torn old new (tornAt count old new) := by
  intro index
  change (new.val.take count ++ old.val.drop count)[index]? = old.val[index]? ∨
    (new.val.take count ++ old.val.drop count)[index]? = new.val[index]?
  have hold := old.property
  have hnew := new.property
  rw [List.getElem?_append, List.length_take, List.getElem?_take, List.getElem?_drop]
  by_cases hsector : index < 512
  · by_cases hfront : index < count
    · rw [if_pos (by omega), if_pos hfront]
      exact .inr rfl
    · rw [if_neg (by omega)]
      left
      congr 1
      omega
  · rw [if_neg (by omega), List.getElem?_eq_none (by omega), List.getElem?_eq_none (by omega)]
    exact .inl rfl

/-- Slot A with generation 1 is active; the switch to slot B with generation 2 is cut off
after the slot number. -/
def tornSuperblock : Sector :=
  tornAt 24 (writeSuperblock (some .a) 1 0 sampleKey) (writeSuperblock (some .b) 1 2 sampleKey)

theorem tornSuperblock_untrusted : superblockTrusted tornSuperblock = false := by
  decide +kernel

theorem torn_tornSuperblock :
    Torn (writeSuperblock (some .a) 1 0 sampleKey) (writeSuperblock (some .b) 1 2 sampleKey)
      tornSuperblock :=
  torn_tornAt 24 _ _

/-- Slot A is good, but the mount stops at the torn superblock. -/
theorem torn_superblock_recovery :
    Torn (writeSuperblock (some .a) 1 0 sampleKey) (writeSuperblock (some .b) 1 2 sampleKey)
        tornSuperblock ∧
      sampleDisk tornSuperblock .a 1 superblockLba = tornSuperblock ∧
      slotOnDisk (sampleDisk tornSuperblock .a 1) sampleKey samplePublic .a =
        some (factoryPayload, 1) ∧
      (boot World.faultless true samplePublic
        (Dev.fresh (sampleDisk tornSuperblock .a 1))).1.recovery = true := by
  have hrecovery : ∀ disk : Disk, disk superblockLba = tornSuperblock →
      (boot World.faultless true samplePublic (Dev.fresh disk)).1.recovery = true := by
    intro disk hsb
    have hnone : selection disk samplePublic = none :=
      selection_untrusted (by rw [hsb, tornSuperblock_untrusted])
    have hbooted :=
      @boot_selection World.faultless (Dev.fresh disk) samplePublic World.faultless_reads
    generalize (boot World.faultless true samplePublic (Dev.fresh disk)).1 = st at hbooted ⊢
    rw [Dev.fresh, hnone] at hbooted
    exact congrArg Prod.fst hbooted
  exact ⟨torn_tornSuperblock, sampleDisk_superblock tornSuperblock .a 1,
    sampleDisk_slot tornSuperblock .a 1, hrecovery _ (sampleDisk_superblock tornSuperblock .a 1)⟩

end Redoubt.Storage
