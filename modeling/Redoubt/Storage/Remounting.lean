import Redoubt.Storage.MountFaults

/-!
# Mounting again

A mount clears the header of a slot that it rejects and appends audit records, and it
leaves the superblock as it is, even when that names the rejected slot.  What a slot
holds for a mount is the same before and after it, so a disk that is mounted again and
again keeps its selection.
-/

namespace Redoubt.Storage

open Redoubt.Foundation Redoubt.Crypto

section

variable {w : World} {d : Dev} {pubkey : Bytes 32} {disk later : Disk}

/-- The selection depends on the superblock and on what the two slots hold. -/
theorem selection_congr (superblock : later superblockLba = disk superblockLba)
    (slots : ∀ slot, slotOnDisk later (superblockKey (disk superblockLba)) pubkey slot =
      slotOnDisk disk (superblockKey (disk superblockLba)) pubkey slot) :
    selection later pubkey = selection disk pubkey := by
  unfold selection
  dsimp only
  rw [superblock]
  simp only [slots]

/-- With reads that succeed only a slot that holds nothing is rejected. -/
theorem MountRejects.empty (reads : w.ReadsSucceed) {slot : SlotId} (h : MountRejects w d pubkey slot) :
    slotOnDisk d.disk (superblockKey (d.disk superblockLba)) pubkey slot = none := by
  obtain ⟨-, -, -, hseen⟩ := (mountRejects_iff reads.1).mp h
  rwa [slotSeen_succeed reads] at hseen

theorem boot_superblock (w : World) (d : Dev) (pubkey : Bytes 32) :
    (boot w true pubkey d).2.disk superblockLba = d.disk superblockLba := by
  change (mount w (State.factory true pubkey) d).2.disk superblockLba = _
  by_cases hrejects : ∃ bad, MountRejects w d pubkey bad
  · obtain ⟨bad, hbad⟩ := hrejects
    obtain ⟨read, honly, hlog⟩ := mount_wroteIn_of_rejected w (State.factory true pubkey) d hbad
    rw [hlog.disk_eq superblock_not_audit, (zeroHeader_wroteIn w read bad).disk_eq, honly.disk]
    cases bad <;> decide
  · exact (mount_wroteIn_of_accepted w (State.factory true pubkey) d
      fun bad hbad => hrejects ⟨bad, hbad⟩).disk_eq superblock_not_audit

/-- A mount leaves what the slots hold. -/
theorem slotOnDisk_boot (reads : w.ReadsSucceed) (slot : SlotId) :
    slotOnDisk (boot w true pubkey d).2.disk (superblockKey (d.disk superblockLba)) pubkey slot =
      slotOnDisk d.disk (superblockKey (d.disk superblockLba)) pubkey slot := by
  change slotOnDisk (mount w (State.factory true pubkey) d).2.disk _ pubkey slot = _
  by_cases hrejects : ∃ bad, MountRejects w d pubkey bad
  · obtain ⟨bad, hbad⟩ := hrejects
    obtain ⟨read, honly, hlog⟩ := mount_wroteIn_of_rejected w (State.factory true pubkey) d hbad
    rw [slotOnDisk_wroteIn hlog]
    by_cases hsame : slot = bad
    · subst hsame
      have hempty := hbad.empty reads
      rw [hempty, slotOnDisk_zeroHeader_none w read (by rw [honly.disk, hempty])]
    · rw [SlotId.eq_other hsame, slotOnDisk_zeroHeader_other, honly.disk]
  · exact slotOnDisk_wroteIn (mount_wroteIn_of_accepted w (State.factory true pubkey) d
      fun bad hbad => hrejects ⟨bad, hbad⟩) _ _ _

theorem selection_boot (reads : w.ReadsSucceed) :
    selection (boot w true pubkey d).2.disk pubkey = selection d.disk pubkey :=
  selection_congr (boot_superblock w d pubkey) fun slot => slotOnDisk_boot reads slot

/-- Records in the audit log leave the selection. -/
theorem selection_audited (logged : ∀ lba, ¬ AuditSector lba → later lba = disk lba) :
    selection later pubkey = selection disk pubkey :=
  selection_congr (logged _ superblock_not_audit) fun _ =>
    slotOnDisk_congr fun lba howns => logged lba (SlotId.not_owns_audit howns)

/-- The disks that mounts with working reads leave, whatever becomes of their writes, with
audit records appended in between. -/
inductive Remounted (pubkey : Bytes 32) (disk : Disk) : Disk → Prop where
  | start : Remounted pubkey disk disk
  | mounted {now : Disk} {w : World} : Remounted pubkey disk now → w.ReadsSucceed →
      Remounted pubkey disk (boot w true pubkey (Dev.fresh now)).2.disk
  | audited {now later : Disk} : Remounted pubkey disk now →
      (∀ lba, ¬ AuditSector lba → later lba = now lba) → Remounted pubkey disk later

theorem Remounted.selection_eq (h : Remounted pubkey disk later) :
    selection later pubkey = selection disk pubkey := by
  induction h with
  | start => rfl
  | mounted _ hreads ih => exact (selection_boot hreads).trans ih
  | audited _ hlogged ih => exact (selection_audited hlogged).trans ih

/-- The slot that the superblock names is selected if it verifies, else the other one if
that does, else none; and so at every later mount. -/
theorem mount_selects_and_keeps (pubkey : Bytes 32) (disk : Disk) (slot : SlotId)
    (trusted : superblockTrusted (disk superblockLba) = true)
    (named : superblockSlot (disk superblockLba) = some slot) (later : Disk)
    (remounted : Remounted pubkey disk later) (w : World) (reads : w.ReadsSucceed) :
    let key := superblockKey (disk superblockLba)
    let booted := (boot w true pubkey (Dev.fresh later)).1.booted
    (∀ payload gen, slotOnDisk disk key pubkey slot = some (payload, gen) →
      booted = (false, some slot, gen, payload)) ∧
    (slotOnDisk disk key pubkey slot = none →
      (∀ payload gen, slotOnDisk disk key pubkey slot.other = some (payload, gen) →
        booted = (false, some slot.other, gen, payload)) ∧
      (slotOnDisk disk key pubkey slot.other = none → booted = (true, none, 0, factoryPayload))) := by
  intro key booted
  have hkept : selection (Dev.fresh later).disk pubkey = selection disk pubkey := remounted.selection_eq
  have hbooted : booted = bootedFrom (selection disk pubkey) := by
    rw [← hkept]
    exact boot_selection reads
  rw [selection_of_trusted trusted named] at hbooted
  refine ⟨fun payload gen hslot => ?_, fun hslot => ⟨fun payload gen hother => ?_, fun hother => ?_⟩⟩
  · rw [hslot] at hbooted
    exact hbooted
  · rw [hslot, hother] at hbooted
    exact hbooted
  · rw [hslot, hother] at hbooted
    exact hbooted

end

/-- The superblock names slot B, which is empty; slot A boots, also at the second mount. -/
theorem mount_selects_and_keeps_rollback :
    let disk := sampleDisk (writeSuperblock (some .b) 1 2 sampleKey) .a 1
    let second := (boot World.faultless true samplePublic (Dev.fresh disk)).2.disk
    (boot World.faultless true samplePublic (Dev.fresh second)).1.booted =
      (false, some .a, 1, factoryPayload) := by
  intro disk second
  have hsb : disk superblockLba = writeSuperblock (some .b) 1 2 sampleKey := sampleDisk_superblock _ _ _
  have hempty : slotOnDisk disk sampleKey samplePublic .b = none := by
    have hheader : disk (SlotId.b).hdrLba = Bytes.zeros 512 := sampleDisk_other_header _ .a 1
    rw [slotOnDisk, hheader, openSlot_zeros]
  have hgood : slotOnDisk disk sampleKey samplePublic .a = some (factoryPayload, 1) :=
    sampleDisk_slot _ .a 1
  obtain ⟨-, hrollback⟩ := mount_selects_and_keeps samplePublic disk .b
    (by rw [hsb, superblockTrusted_write]) (by rw [hsb, superblockSlot_write]) second
    (.mounted .start World.faultless_reads) World.faultless World.faultless_reads
  rw [hsb, superblockKey_write] at hrollback
  exact (hrollback hempty).1 factoryPayload 1 hgood

end Redoubt.Storage
