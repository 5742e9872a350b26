import Redoubt.Storage.AppStore

/-!
# The staging area

An installation request takes its package from the staging area.  With honest reads
what it admits is the package stored there, and with reads that succeed a package that
passes the checks is admitted.
-/

namespace Redoubt.Storage

open Redoubt.Foundation Redoubt.Crypto

/-- The bytes of the staging area, as many as its header announces. -/
def stagedBytes (disk : Disk) : List UInt8 :=
  disk.bytes stagingLba (appPkgHeader + ((disk stagingLba).slice 12 4 packageLen_inside).toU32.toNat)

/-- The package in the staging area. -/
def stagedPackage (disk : Disk) : Option AppPackage := parseAppStagePackage (stagedBytes disk)

theorem stagedPackage_congr {disk other : Disk} (same : ∀ lba, stagingLba ≤ lba → disk lba = other lba) :
    stagedPackage disk = stagedPackage other := by
  unfold stagedPackage stagedBytes
  rw [same stagingLba le_rfl, Disk.bytes_congr fun lba hlow _ => same lba hlow]

section Reading

variable {w : World} {base total : Nat}

/-- Whole sectors from the front on. -/
theorem Disk.bytes_grow (disk : Disk) (base : Nat) {done take : Nat} (aligned : done % 512 = 0)
    (whole : take % 512 = 0) :
    disk.bytes base (done + take) =
      disk.bytes base done ++ sectorBytes (disk.sectors (base + done / 512) (take / 512)) := by
  have hdone : 512 * (done / 512) = done := by omega
  have htake : take = 512 * (take / 512) := by omega
  have hnone : ∀ start, disk.bytes start 0 = [] := fun start => by simp [Disk.bytes]
  rw [disk.bytes_split base (done / 512) (by omega), disk.bytes_split base (done / 512) (by omega),
    hdone, Nat.add_sub_cancel_left, Nat.sub_self, hnone, List.append_nil,
    disk.bytes_split (base + done / 512) (take / 512) (by omega), ← htake, Nat.sub_self, hnone,
    List.append_nil]

/-- What arrives in the buffer is what the sectors hold. -/
theorem readInto_honest (honest : w.HonestReads) (fuel done : Nat) (out : Buffer) (d : Dev)
    (whole : total % 512 = 0) (aligned : ChunkStart total done) (inside : done ≤ total)
    (enough : total - done ≤ fuel) (front : out.read 0 done = d.disk.bytes base done)
    (complete : (readInto w base total fuel done out d).1 = true) :
    (readInto w base total fuel done out d).2.1.read 0 total = d.disk.bytes base total := by
  induction fuel generalizing done out d with
  | zero =>
      have hdone : done = total := by omega
      rw [readInto, ← hdone]
      exact front
  | succ _ ih =>
      rw [readInto] at complete ⊢
      by_cases hmore : done < total
      · rw [if_pos hmore] at complete ⊢
        dsimp only at complete ⊢
        rw [br_honest honest] at complete ⊢
        have hnext := aligned.next
        have hstart : done % 4096 = 0 := aligned.resolve_right (by omega)
        generalize htake : min (total - done) (chunkSectors * sectorSize) = take at complete hnext ⊢
        unfold chunkSectors at htake
        unfold sectorSize at htake complete ⊢
        by_cases hread : (w.read d.reads (base + done / 512)).isSome
        · rw [if_pos hread] at complete ⊢
          refine ih (done + take) _ _ hnext (by omega) (by omega) ?_ complete
          have hlen : (sectorBytes (d.disk.sectors (base + done / 512) (take / 512))).length = take := by
            simp
            omega
          rw [d.disk.bytes_grow base (by omega) (by omega), Buffer.read_append,
            Buffer.read_write_before (by omega), front, Nat.zero_add, Buffer.read_write_self hlen.ge,
            List.take_of_length_le hlen.le]
        · rw [if_neg hread] at complete
          cases complete
      · have hdone : done = total := by omega
        rw [if_neg hmore, ← hdone]
        exact front

theorem readInto_succeed (reads : w.ReadsSucceed) (fuel done : Nat) (out : Buffer) (d : Dev) :
    (readInto w base total fuel done out d).1 = true := by
  induction fuel generalizing done out d with
  | zero => rfl
  | succ _ ih =>
      rw [readInto]
      split
      · dsimp only
        rw [br_honest reads.1, if_pos (reads.2 _ _)]
        exact ih ..
      · rfl

end Reading

/-! ### Admission -/

section Admission

variable {w : World} {st : State} {d : Dev}

/-- The bytes of a whole package in the buffer. -/
theorem read_staged (honest : w.HonestReads) (out : Buffer) {bytes total : Nat}
    (htotal : (bytes + sectorSize - 1) / sectorSize * sectorSize = total)
    (complete : (readInto w stagingLba total total 0 out d).1 = true) :
    (readInto w stagingLba total total 0 out d).2.1.read 0 bytes = d.disk.bytes stagingLba bytes := by
  unfold sectorSize at htotal
  have hall := readInto_honest honest total 0 out d (by omega) (.inl rfl) (Nat.zero_le _) (by omega)
    (by simp [Disk.bytes, Buffer.read]) complete
  rw [← Buffer.take_read (by omega : bytes ≤ total), hall, Disk.take_bytes _ _ (by omega)]

/-- What a request admits is what is staged. -/
theorem admission_staged (honest : w.HonestReads) {a : Admission} (h : admission w st d = some a) :
    stagedPackage d.disk = some a.pkg := by
  unfold admission at h
  split_ifs at h
  rw [brSector_honest honest] at h
  by_cases hhead : (w.read d.reads stagingLba).isSome
  · rw [if_pos hhead] at h
    dsimp only at h
    split_ifs at h
    unfold stagedPackage stagedBytes
    generalize appPkgHeader + ((d.disk stagingLba).slice 12 4).toU32.toNat = bytes at h ⊢
    generalize htotal : (bytes + sectorSize - 1) / sectorSize * sectorSize = total at h
    have hread := @read_staged w { d with reads := d.reads + 1 } honest st.workspace bytes total htotal
    generalize readInto w stagingLba total total 0 st.workspace { d with reads := d.reads + 1 } = result
      at h hread
    obtain ⟨_ | _, out, last⟩ := result
    · cases h
    · have hbytes := hread rfl
      dsimp only at h hbytes
      obtain ⟨hadmitted, hlen, hout, -⟩ := admitFrom_eq_some_iff.mp h
      rw [← hbytes, ← hlen, ← hout]
      exact hadmitted.parsed
  · rw [if_neg hhead] at h
    cases h

/-- The header of the staged bytes is the front of the first staging sector. -/
theorem staged_header (disk : Disk) {off len : Nat} (long : 0 + 192 ≤ (stagedBytes disk).length)
    (inside : off + len ≤ 192) :
    (cut (stagedBytes disk) 0 192 long).slice off len inside =
      (disk stagingLba).slice off len (by omega) := by
  have hfront : (stagedBytes disk).take 192 = (disk stagingLba).val.take 192 := by
    have hlen : 192 ≤ (stagedBytes disk).length := by omega
    unfold stagedBytes at hlen ⊢
    rw [Disk.length_bytes] at hlen
    rw [Disk.take_bytes _ _ hlen]
    simp [Disk.bytes, Disk.sectors, sectorBytes]
  apply Subtype.ext
  rw [Bytes.slice_val, Bytes.slice_val, cut_val, List.drop_zero, hfront, List.drop_take, List.take_take]
  congr 1
  omega

/-- A package that passes the checks is admitted. -/
theorem admission_of_staged (reads : w.ReadsSucceed) {pkg : AppPackage} {slot : UInt8} {lba : Nat}
    (block : st.block = true) (running : st.recovery = false) (staged : stagedPackage d.disk = some pkg)
    (admissible : AppAdmissible st.pubkey pkg)
    (newer : ∀ old, bestApp st pkg.label = some old → old.version < pkg.version)
    (target : targetAppSlot st pkg.label = some slot) (located : appSlotLba slot = some lba) :
    ∃ a, admission w st d = some a ∧ a.pkg = pkg ∧ a.slot = slot ∧ a.lba = lba := by
  obtain ⟨hmagic, hformat, hshort⟩ : (d.disk stagingLba).slice 0 8 = appPkgMagic ∧
      (d.disk stagingLba).byte 8 = appFormatVersion ∧
      ¬ (((d.disk stagingLba).slice 12 4).toU32.toNat = 0 ∨
        appStageCap < ((d.disk stagingLba).slice 12 4).toU32.toNat) := by
    have hparse := staged
    unfold stagedPackage parseAppStagePackage at hparse
    split_ifs at hparse with hlong
    dsimp only at hparse
    split_ifs at hparse with hbad hname
    unfold Bytes.byte at hbad
    rw [staged_header, staged_header] at hbad
    rw [staged_header] at hname
    push Not at hbad
    exact ⟨hbad.1, hbad.2, fun h => hname (.inr (.inr h))⟩
  have hread := @read_staged w { d with reads := d.reads + 1 } reads.1 st.workspace
    (appPkgHeader + ((d.disk stagingLba).slice 12 4).toU32.toNat) _ rfl (readInto_succeed reads ..)
  have hcomplete := @readInto_succeed w stagingLba
    ((appPkgHeader + ((d.disk stagingLba).slice 12 4).toU32.toNat + sectorSize - 1) / sectorSize *
      sectorSize) reads
    ((appPkgHeader + ((d.disk stagingLba).slice 12 4).toU32.toNat + sectorSize - 1) / sectorSize *
      sectorSize) 0 st.workspace { d with reads := d.reads + 1 }
  unfold admission
  rw [if_neg (by simp [block]), if_neg (by simp [running]), brSector_honest reads.1,
    if_pos (reads.2 _ _)]
  dsimp only
  rw [if_neg (by simp [hmagic, hformat]), if_neg hshort]
  generalize readInto w stagingLba _ _ 0 st.workspace { d with reads := d.reads + 1 } = result
    at hread hcomplete ⊢
  obtain ⟨ok, out, last⟩ := result
  cases hcomplete
  dsimp only at hread ⊢
  have hparsed : parseAppStagePackage (out.read 0 _) = some pkg := (congrArg _ hread).trans staged
  obtain ⟨hholds, hroom⟩ := read_payload hparsed
  exact ⟨⟨pkg, slot, lba, _, out, last⟩,
    admitFrom_eq_some_iff.mpr ⟨⟨hparsed, admissible, newer, target, located, hholds, hroom⟩, rfl,
      rfl, rfl⟩,
    rfl, rfl, rfl⟩

end Admission

/-! ### Sample volumes -/

/-- A bootable volume without applications. -/
def sampleVolume : Disk := sampleDisk (writeSuperblock (some .a) 1 0 sampleKey) .a 1

/-- The volume with a package stored in a slot. -/
def holding (disk : Disk) (slot : UInt8) (pkg : AppPackage) : Disk :=
  applyWrites disk (installWrites sampleKey slot pkg (appStartLba + slot.toNat * appSlotSectors))

/-- The volume with a first staging sector. -/
def staging (disk : Disk) (sector : Sector) : Disk := Function.update disk stagingLba sector

/-- A sample volume that boots and whose slots hold this. -/
structure Prepared (disk : Disk) (stored : UInt8 → Option (AppView × List UInt8)) : Prop where
  boots : BootsCommit samplePublic disk (.a, 1, factoryPayload)
  keyed : superblockKey (disk superblockLba) = sampleKey
  stored : storedApp disk sampleKey samplePublic = stored

theorem SlotId.owns_before_apps {slot : SlotId} {lba : Nat} (h : slot.Owns lba) : lba < appStartLba := by
  unfold SlotId.Owns at h
  cases slot <;> simp only [SlotId.hdrLba, SlotId.payloadLba, slotAHdrLba, slotAPayloadLba, slotBHdrLba,
    slotBPayloadLba, appStartLba] at * <;> omega

theorem sampleVolume_prepared : Prepared sampleVolume fun _ => none := by
  have hsb := sampleDisk_superblock (writeSuperblock (some .a) 1 0 sampleKey) .a 1
  have hslot := sampleDisk_slot (writeSuperblock (some .a) 1 0 sampleKey) .a 1
  have hzeros : ∀ lba, appStartLba ≤ lba → sampleVolume lba = Bytes.zeros 512 := by
    intro lba hlow
    refine (sampleDisk_outside _ 1 fun howns => ?_).trans (if_neg ?_)
    · exact absurd (SlotId.owns_before_apps howns) (by omega)
    · unfold superblockLba
      unfold appStartLba at hlow
      omega
  have hkey : superblockKey (sampleVolume superblockLba) = sampleKey := by
    rw [sampleVolume, hsb, superblockKey_write]
  refine ⟨⟨?_, ?_, ?_⟩, hkey, ?_⟩
  · rw [sampleVolume, hsb, superblockTrusted_write]
  · rw [sampleVolume, hsb, superblockSlot_write]
  · rw [hkey]
    exact hslot
  · funext slot
    cases hlba : appSlotLba slot with
    | none =>
        rw [storedApp, appOnDisk, hlba]
        rfl
    | some lba =>
        exact storedApp_cleared hlba (hzeros lba ((Nat.le_add_right _ _).trans (appOwns_header hlba).1))

section Prepared

variable {disk : Disk} {stored : UInt8 → Option (AppView × List UInt8)}

/-- Sectors from the applications on do not matter for the boot. -/
theorem Prepared.beside {other : Disk} (h : Prepared disk stored)
    (same : ∀ lba, lba < appStartLba → other lba = disk lba) :
    BootsCommit samplePublic other (.a, 1, factoryPayload) ∧
      superblockKey (other superblockLba) = sampleKey := by
  have hsb : other superblockLba = disk superblockLba := same _ (by decide)
  refine ⟨h.boots.congr hsb fun lba howns => same lba (SlotId.owns_before_apps howns), ?_⟩
  rw [hsb, h.keyed]

theorem Prepared.holding (h : Prepared disk stored) {slot : UInt8} {pkg : AppPackage}
    (located : slot.toNat < appSlots) (admissible : AppAdmissible samplePublic pkg) :
    Prepared (holding disk slot pkg)
      (Function.update stored slot (some (storedView slot pkg, pkg.payload))) := by
  have hlba : appSlotLba slot = some (appStartLba + slot.toNat * appSlotSectors) := if_pos located
  obtain ⟨hboots, hkey⟩ :=
    @Prepared.beside disk stored (Storage.holding disk slot pkg) h fun lba hbefore =>
    applyWrites_of_untouched _ _ _ fun entry hentry heq => by
      have hinside := (installWrites_inside hlba admissible entry hentry).1
      omega
  refine ⟨hboots, hkey, ?_⟩
  have hmap := @storedApp_install disk sampleKey samplePublic slot _ pkg hlba admissible
    (installWrites sampleKey slot pkg (appStartLba + slot.toNat * appSlotSectors)).length
  rw [List.take_length, if_neg (by rw [length_installWrites]; omega), if_neg (Nat.lt_irrefl _),
    h.stored] at hmap
  exact hmap

theorem Prepared.staging (h : Prepared disk stored) (sector : Sector) :
    Prepared (staging disk sector) stored := by
  have hsame : ∀ lba, lba < stagingLba → Storage.staging disk sector lba = disk lba := fun lba hbefore =>
    Function.update_of_ne (by omega) ..
  obtain ⟨hboots, hkey⟩ := @Prepared.beside disk stored (Storage.staging disk sector) h fun lba hbefore =>
    hsame lba (hbefore.trans (by decide))
  refine ⟨hboots, hkey, ?_⟩
  rw [← h.stored]
  funext slot
  cases hlba : appSlotLba slot with
  | none => rw [storedApp, storedApp, appOnDisk, appOnDisk, hlba]
  | some lba =>
      refine storedApp_congr fun lba howns => hsame lba ?_
      have hslot := appSlotLba_lt hlba
      unfold AppOwns appStartLba appSlotSectors at howns
      unfold appSlots at hslot
      unfold stagingLba
      omega

/-- The running service on a prepared volume. -/
theorem Prepared.boot (h : Prepared disk stored) : ∃ st d,
    boot World.faultless true samplePublic (Dev.fresh disk) = (st, d) ∧
      (Dev.fresh disk).WroteIn AuditSector d ∧ Running samplePublic d.disk st ∧ st.volKey = sampleKey ∧
      st.apps = appsOnDisk d.disk sampleKey samplePublic ∧ st.cachedApp = none ∧
      storedApp d.disk sampleKey samplePublic = stored := by
  obtain ⟨st, d, hboot, hwrote, hrunning, happs, hcached⟩ := boot_lists h.boots World.faultless_reads
  have hsb : d.disk superblockLba = disk superblockLba := hwrote.disk_eq superblock_not_audit
  have hlisted := appsOnDisk_wroteIn hwrote sampleKey samplePublic
  have hstored := @storedApp_wroteIn sampleKey samplePublic _ _ hwrote
  rw [h.keyed] at happs
  refine ⟨st, d, hboot, hwrote, ?_, hrunning.keyed.trans h.keyed, happs.trans hlisted.symm, hcached,
    hstored.trans h.stored⟩
  exact { hrunning with keyed := by rw [hrunning.keyed, hsb] }

end Prepared

/-! ### Sample packages -/

def samplePackage (label : List UInt8) (room : label.length ≤ 24) (version : UInt64)
    (payload : List UInt8) (signature : Bytes 64) : AppPackage :=
  { packedMeta label room version payload signature with payload }

theorem samplePackage_label (label : List UInt8) (room : label.length ≤ 24) (version : UInt64)
    (payload : List UInt8) (signature : Bytes 64) :
    (samplePackage label room version payload signature).label = label :=
  packedMeta_label label room version payload signature

/-- Signature of a package under the sample seed. -/
def packageSignature (label : List UInt8) (version : UInt64) (payload : List UInt8) : Bytes 64 :=
  Ed25519.sign sampleSeed (appSigningMessage label version payload.length (sha256 payload)).val

def demoTwo : AppPackage := samplePackage (ascii "demo") (by decide) 2 [2]
  (packageSignature (ascii "demo") 2 [2])

def demoThree : AppPackage := samplePackage (ascii "demo") (by decide) 3 [3]
  (packageSignature (ascii "demo") 3 [3])

def demoFour : AppPackage := samplePackage (ascii "demo") (by decide) 4 [4]
  (packageSignature (ascii "demo") 4 [4])

def betaThree : AppPackage := samplePackage (ascii "beta") (by decide) 3 [5]
  (packageSignature (ascii "beta") 3 [5])

theorem demoTwo_label : demoTwo.label = ascii "demo" := samplePackage_label _ _ _ _ _

theorem demoThree_label : demoThree.label = ascii "demo" := samplePackage_label _ _ _ _ _

theorem demoFour_label : demoFour.label = ascii "demo" := samplePackage_label _ _ _ _ _

/-- A short signed package passes the checks. -/
theorem samplePackage_admissible {label : List UInt8} {room : label.length ≤ 24} {version : UInt64}
    {payload : List UInt8} (named : appNameValid label = true) (nonempty : 0 < payload.length)
    (fits : payload.length ≤ appStageCap) :
    AppAdmissible samplePublic
      (samplePackage label room version payload (packageSignature label version payload)) := by
  refine ⟨?_, nonempty, fits, rfl, ?_⟩
  · rw [samplePackage_label]
    exact named
  · rw [samplePackage_label]
    exact Ed25519.accepts_sign sampleSeed _

theorem samplePackages_admissible : ∀ pkg ∈ [demoTwo, demoThree, demoFour, betaThree],
    AppAdmissible samplePublic pkg := by
  intro pkg hpkg
  rw [List.mem_cons, List.mem_cons, List.mem_cons, List.mem_singleton] at hpkg
  rcases hpkg with rfl | rfl | rfl | rfl
  · exact samplePackage_admissible (by decide) (by decide) (by decide)
  · exact samplePackage_admissible (by decide) (by decide) (by decide)
  · exact samplePackage_admissible (by decide) (by decide) (by decide)
  · exact samplePackage_admissible (by decide) (by decide) (by decide)

/-- The first staging sector of a short package. -/
def stageSector (pkg : AppPackage) : Sector :=
  padSector ((writeAppStagePackage pkg.label pkg.version pkg.payload pkg.signature).getD [])

/-- A package of one sector is found in the staging area. -/
theorem stagedPackage_samplePackage (disk : Disk) {label : List UInt8} {room : label.length ≤ 24}
    {version : UInt64} {payload : List UInt8} {signature : Bytes 64} (named : label ≠ [])
    (nonempty : payload ≠ []) (short : payload.length ≤ 320) :
    stagedPackage (staging disk (stageSector (samplePackage label room version payload signature))) =
      some (samplePackage label room version payload signature) := by
  have hwritten : writeAppStagePackage label version payload signature =
      some ((appStageHeader label version payload signature room).val ++ payload) := by
    refine dif_neg ?_
    have hcap : ¬ appStageCap < payload.length := Nat.not_lt.mpr (short.trans (by decide))
    simp only [named, nonempty, hcap, or_false, false_or, not_lt]
    exact room
  obtain ⟨-, -, -, hlen, -⟩ := appStageHeader_fields label version payload signature room
  have hparse := parseAppStagePackage_write room hwritten []
  have hsector : stageSector (samplePackage label room version payload signature) =
      padSector ((appStageHeader label version payload signature room).val ++ payload) := by
    rw [stageSector, samplePackage_label]
    exact congrArg (fun pkg => padSector (pkg.getD [])) hwritten
  rw [hsector]
  rw [List.append_nil] at hparse
  generalize appStageHeader label version payload signature room = hdr at hlen hparse ⊢
  have hhdr : hdr.val.length = 192 := hdr.property
  have hfits : (hdr.val ++ payload).length ≤ 512 := by
    rw [List.length_append, hhdr]
    omega
  have hval : (padSector (hdr.val ++ payload)).val =
      hdr.val ++ payload ++ List.replicate (512 - (hdr.val ++ payload).length) 0 := by
    change (hdr.val ++ payload).take 512 ++ _ = _
    rw [List.take_of_length_le hfits]
  have hfirst : staging disk (padSector (hdr.val ++ payload)) stagingLba =
      padSector (hdr.val ++ payload) :=
    Function.update_self ..
  have hannounced : ((padSector (hdr.val ++ payload)).slice 12 4).toU32.toNat = payload.length := by
    have hslice : (padSector (hdr.val ++ payload)).slice 12 4 = hdr.slice 12 4 := by
      apply Subtype.ext
      rw [Bytes.slice_val, Bytes.slice_val, hval, List.append_assoc,
        List.drop_append_of_le_length (by omega), List.take_append_of_le_length (by simp)]
    rw [hslice, hlen, UInt32.toNat_ofNat_of_lt' (short.trans_lt (by decide))]
  have hone : (appPkgHeader + payload.length + 511) / 512 = 1 := by
    unfold appPkgHeader
    omega
  have hbytes : (hdr.val ++ payload).length = appPkgHeader + payload.length := by
    rw [List.length_append, hhdr, appPkgHeader]
  rw [stagedPackage, stagedBytes, hfirst, hannounced, Disk.bytes, hone]
  simp only [Disk.sectors, List.range_one, List.map_cons, List.map_nil, Nat.add_zero, hfirst, sectorBytes,
    List.flatMap_cons, List.flatMap_nil, List.append_nil, hval]
  rw [List.take_left' hbytes]
  exact hparse

theorem stagedPackage_sample (disk : Disk) : ∀ pkg ∈ [demoTwo, demoThree, demoFour, betaThree],
    stagedPackage (staging disk (stageSector pkg)) = some pkg := by
  intro pkg hpkg
  rw [List.mem_cons, List.mem_cons, List.mem_cons, List.mem_singleton] at hpkg
  rcases hpkg with rfl | rfl | rfl | rfl
  · exact stagedPackage_samplePackage disk (by decide) (by decide) (by decide)
  · exact stagedPackage_samplePackage disk (by decide) (by decide) (by decide)
  · exact stagedPackage_samplePackage disk (by decide) (by decide) (by decide)
  · exact stagedPackage_samplePackage disk (by decide) (by decide) (by decide)

end Redoubt.Storage
