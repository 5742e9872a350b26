import Redoubt.Crypto.Signatures
import Redoubt.Storage.HostTool
import Redoubt.Storage.Loading
import Redoubt.Storage.Service

/-!
# Sealed slots are accepted

The two ways a sealed slot reaches the disk, through the staging area and the update
agent or directly from the host tool, both leave sectors that the storage service
accepts, with exactly the payload and the generation that were sealed.
-/

namespace Redoubt.Storage

open Redoubt.Foundation Redoubt.Crypto

/-! ### Sectors of a byte string -/

theorem toSectors_add (first second : Nat) (bytes : List UInt8) :
    toSectors (first + second) bytes =
      toSectors first bytes ++ toSectors second (bytes.drop (512 * first)) := by
  simp only [toSectors, List.range_add, List.map_append, List.map_map, Function.comp_def,
    List.drop_drop, Nat.mul_add]

theorem padSector_take (bytes : List UInt8) {count : Nat} (h : 512 ≤ count) :
    padSector (bytes.take count) = padSector bytes := by
  apply Subtype.ext
  change (bytes.take count).take 512 ++ List.replicate (512 - (bytes.take count).length) 0 =
    bytes.take 512 ++ List.replicate (512 - bytes.length) 0
  rw [List.take_take, min_eq_left h, List.length_take]
  congr 2
  omega

/-- Bytes behind the sectors do not matter. -/
theorem toSectors_take (count : Nat) (bytes : List UInt8) {keep : Nat} (h : 512 * count ≤ keep) :
    toSectors count (bytes.take keep) = toSectors count bytes := by
  apply List.map_congr_left
  intro index hindex
  rw [List.mem_range] at hindex
  rw [List.drop_take, padSector_take]
  omega

theorem numbered_append {α : Type} (base : Nat) (first second : List α) :
    numbered base (first ++ second) = numbered base first ++ numbered (base + first.length) second := by
  induction first generalizing base with
  | nil => rfl
  | cons _ _ ih =>
      rw [List.cons_append, numbered, numbered, ih, List.cons_append, List.length_cons]
      congr 3
      omega

/-- Sectors written one after the other are read back. -/
theorem sectors_applyWrites (disk : Disk) (base : Nat) (sectors : List Sector) :
    Disk.sectors (applyWrites disk (numbered base sectors)) base sectors.length = sectors := by
  apply List.ext_getElem
  · simp
  · intro index hleft hright
    simp only [Disk.sectors, List.getElem_map, List.getElem_range]
    exact applyWrites_numbered disk base sectors index hright

/-- Bytes stored as sectors, from some sector on. -/
theorem bytes_of_sectors {disk : Disk} {base count skip len : Nat} {bytes : List UInt8}
    (stored : disk.sectors base count = toSectors count bytes)
    (inside : 512 * skip + len ≤ bytes.length) (covered : bytes.length ≤ 512 * count) :
    disk.bytes (base + skip) len = (bytes.drop (512 * skip)).take len := by
  have hall : disk.bytes base (512 * count) =
      bytes ++ List.replicate (512 * count - bytes.length) 0 := by
    have hdiv : (512 * count + 511) / 512 = count := by omega
    rw [Disk.bytes, hdiv, stored, sectorBytes_toSectors, List.take_of_length_le covered,
      List.take_of_length_le (by simp; omega)]
  have hsplit := disk.bytes_split base skip (show 512 * skip ≤ 512 * count by omega)
  have hfront : (sectorBytes (disk.sectors base skip)).length = 512 * skip := by simp
  have hrest : disk.bytes (base + skip) (512 * count - 512 * skip) =
      (bytes ++ List.replicate (512 * count - bytes.length) 0).drop (512 * skip) := by
    rw [← hall, hsplit, List.drop_left' hfront]
  rw [← disk.take_bytes (base + skip) (show len ≤ 512 * count - 512 * skip by omega), hrest,
    List.drop_append_of_le_length (by omega), List.take_append_of_le_length]
  rw [List.length_drop]
  omega

/-! ### Acceptance -/

variable {w : World} {disk : Disk} {key pubkey : Bytes 32} {slot label : SlotId} {gen : UInt64}
  {payload : List UInt8} {room : payload.length ≤ payloadCap} {sig : Bytes 64}

/-- The sealed header and the ciphertext of a payload are stored in a slot. -/
structure Sealed (disk : Disk) (key : Bytes 32) (slot label : SlotId) (gen : UInt64)
    (payload : List UInt8) (room : payload.length ≤ payloadCap) (sig : Bytes 64) : Prop where
  hdr : disk slot.hdrLba = sealSlotHeader (writeSlotHeader label slotStateValid gen payload room sig)
    (slotMac key (writeSlotHeader label slotStateValid gen payload room sig)
      (ChaCha20.xorStream key 0 (sealNonce gen) payload))
  data : disk.bytes slot.payloadLba payload.length = ChaCha20.xorStream key 0 (sealNonce gen) payload

/-- A sealed header in front of its ciphertext is accepted. -/
theorem Sealed.slotOnDisk (h : Sealed disk key slot label gen payload room sig) (nonempty : payload ≠ [])
    (signed : Ed25519.accepts pubkey payload sig = true) :
    slotOnDisk disk key pubkey slot = some (payload, gen) := by
  obtain ⟨hdr, data⟩ := h
  have hpos : 0 < payload.length := List.length_pos_iff.mpr nonempty
  have hlen : (UInt32.ofNat payload.length).toNat = payload.length := by
    apply UInt32.toNat_ofNat_of_lt'
    exact room.trans_lt (by decide)
  refine openSlot_eq_some_iff.mpr ⟨⟨label, slotStateValid, gen, UInt32.ofNat payload.length,
    sha256 payload, sig⟩, ChaCha20.xorStream key 0 (sealNonce gen) payload, ?_, ?_, rfl⟩
  · rw [hlen, data]
  · refine ⟨?_, rfl, ?_, ?_, ?_, ChaCha20.xorStream_xorStream _ _, rfl, signed⟩
    · rw [hdr]
      exact parseSlotHeader_seal _ _ _ _ _ _ _ (by decide)
    · rw [hlen]
      omega
    · rw [hlen]
      exact room
    · rw [hdr, slotMacOk, constantTimeEq_bytes, tag_sealSlotHeader, slotMac, slice_sealSlotHeader,
        slotMac]

/-! ### The agent on a staged package -/

/-- No write fails. -/
def World.WritesSucceed (w : World) : Prop := ∀ n, w.write n = none

theorem World.WritesSucceed.failuresKeep (succeed : w.WritesSucceed) : w.FailuresKeep := by
  intro call
  rw [succeed call]
  exact (Option.some_ne_none _).symm

theorem bw_succeed (succeed : w.WritesSucceed) (d : Dev) (lba : Nat)
    (sectors : List Sector) :
    bw w d lba sectors = (true, { d with writes := d.writes + 1 }.put (numbered lba sectors)) := by
  unfold bw
  rw [succeed]

theorem readStaging_succeed (succeed : w.ReadsSucceed) (fuel done : Nat) (d : Dev)
    (aligned : done % 4096 = 0) :
    UpdateAgent.readStaging w fuel done d =
      (some (sectorBytes (d.disk.sectors (stagingLba + done / 512) (8 * fuel))),
        { d with reads := d.reads + fuel }) := by
  induction fuel generalizing done d with
  | zero => rfl
  | succ fuel ih =>
      have hnext : stagingLba + (done + chunkSectors * sectorSize) / 512 =
          stagingLba + done / 512 + 8 := by
        unfold chunkSectors sectorSize
        omega
      rw [UpdateAgent.readStaging, br_honest succeed.1, if_pos (succeed.2 _ _)]
      dsimp only
      rw [ih _ _ (by unfold chunkSectors sectorSize; omega), hnext]
      dsimp only
      have hcount : 8 * (fuel + 1) = 8 + 8 * fuel := by ring
      have hreads : d.reads + 1 + fuel = d.reads + (fuel + 1) := by omega
      rw [hcount, Disk.sectors_add, sectorBytes_append, hreads]
      rfl

/-- The sectors of an image from this byte on, where the copy puts them. -/
def imageFrom (lba : Nat) (image : List UInt8) (done : Nat) : List (Nat × Sector) :=
  numbered (lba + done / 512) (toSectors ((image.length - done + 511) / 512) (image.drop done))

/-- The chunk that is copied next, and what is left of the image behind it. -/
theorem imageFrom_chunk (lba : Nat) {image : List UInt8} {done take sectors : Nat}
    (aligned : done % 4096 = 0) (htake : min (image.length - done) 4096 = take)
    (hsectors : (take + 511) / 512 = sectors) :
    imageFrom lba image done =
      numbered (lba + done / 512) (toSectors sectors ((image.drop done).take take)) ++
        imageFrom lba image (done + take) := by
  have hcount : (image.length - done + 511) / 512 =
      sectors + (image.length - (done + take) + 511) / 512 := by omega
  rw [imageFrom, hcount, toSectors_add, numbered_append, length_toSectors, List.drop_drop, imageFrom]
  by_cases hlast : image.length ≤ done + take
  · -- behind the last chunk, which may be short, there is nothing
    have hzero : (image.length - (done + take) + 511) / 512 = 0 := by omega
    rw [List.take_of_length_le (by rw [List.length_drop]; omega), hzero]
    rfl
  · have hpos : lba + (done + take) / 512 = lba + done / 512 + sectors := by omega
    have hbytes : done + take = done + 512 * sectors := by omega
    rw [toSectors_take _ _ (by omega), hpos, hbytes]

/-- The copy leaves a front part of the sectors of the image in the window, all of them if
it answers so; and it does when nothing is in the way. -/
theorem copyImage_front (lba len : Nat) (image : List UInt8) (fuel off done : Nat) (d : Dev)
    (aligned : ChunkStart image.length done) (hoff : done < image.length → off = done / 512)
    (enough : image.length - done ≤ fuel) :
    ∃ ok after count, UpdateAgent.copyImage w lba len image fuel off done d = (ok, after) ∧
      d.Made ((imageFrom lba image done).take count) after ∧
      count ≤ (image.length - done + 511) / 512 ∧ (count = 0 ∨ done / 512 + count ≤ len) ∧
      (ok = true → (image.length - done + 511) / 512 ≤ count) ∧
      (w.WritesSucceed → (image.length + 511) / 512 ≤ len → ok = true) := by
  induction fuel generalizing off done d with
  | zero =>
      have hzero : (image.length - done + 511) / 512 = 0 := by omega
      exact ⟨true, d, 0, rfl, .of_onlyRead .refl, Nat.zero_le _, .inl rfl, fun _ => hzero.le,
        fun _ _ => rfl⟩
  | succ _ ih =>
      rw [UpdateAgent.copyImage]
      by_cases hlt : done < image.length
      · rw [if_pos hlt]
        dsimp only
        generalize htake : min (image.length - done) (chunkSectors * sectorSize) = take
        generalize hsectors : (take + sectorSize - 1) / sectorSize = sectors
        have hnext : ChunkStart image.length (done + take) := htake ▸ aligned.next
        unfold chunkSectors sectorSize at htake
        unfold sectorSize at hsectors
        rw [UpdateAgent.windowWrite, length_toSectors, hoff hlt,
          imageFrom_chunk lba (aligned.resolve_right (by omega)) htake hsectors]
        generalize hchunk : toSectors sectors ((image.drop done).take take) = chunk
        have hlen : chunk.length = sectors := hchunk ▸ length_toSectors _ _
        by_cases hwindow : done / 512 + sectors ≤ len
        · rw [if_pos hwindow]
          obtain ⟨-, after, hbw, hmade, -⟩ | ⟨fault, after, hfault, hbw, hmade⟩ :=
            bw_cases w d (lba + done / 512) chunk
          · obtain ⟨ok, last, count, hcopy, hrest, hfew, hinside, hdone, hsucceed⟩ :=
              ih (done / 512 + sectors) (done + take) after hnext (fun h => by omega) (by omega)
            refine ⟨ok, last, sectors + count, by rw [hbw]; exact hcopy, ?_, by omega, ?_, ?_, hsucceed⟩
            · rw [← hlen, ← length_numbered (lba + done / 512) chunk, List.take_length_add_append]
              exact hmade.trans hrest
            · right
              omega
            · intro hok
              have hlast := hdone hok
              omega
          · have hlanded := fault.landed_le sectors
            rw [hlen] at hmade
            refine ⟨false, after, fault.landed sectors, by rw [hbw], ?_, by omega, .inr (by omega),
              ?_, ?_⟩
            · rw [List.take_append_of_le_length (by rw [length_numbered]; omega)]
              exact hmade
            · exact fun h => absurd h Bool.false_ne_true
            · exact fun hsucceed => absurd (hfault.symm.trans (hsucceed _)) (Option.some_ne_none _)
        · refine ⟨false, d, 0, by rw [if_neg hwindow], .of_onlyRead .refl, Nat.zero_le _, .inl rfl,
            ?_, ?_⟩
          · exact fun h => absurd h Bool.false_ne_true
          · exact fun _ hfits => absurd (by omega) hwindow
      · have hzero : (image.length - done + 511) / 512 = 0 := by omega
        rw [if_neg hlt]
        exact ⟨true, d, 0, rfl, .of_onlyRead .refl, Nat.zero_le _, .inl rfl, fun _ => hzero.le,
          fun _ _ => rfl⟩

/-- The agent accepts and installs a correctly signed image. -/
theorem agent_applies (reads : w.ReadsSucceed) (writes : w.WritesSucceed) (lba len : Nat) (d : Dev)
    {img rest : List UInt8} (staged : sectorBytes (d.disk.sectors stagingLba stagingSectors) =
      writeStagePackage img sig ++ rest)
    (nonempty : img ≠ []) (fits : img.length ≤ slotImageMax)
    (window : (img.length + 511) / 512 ≤ len) (signed : Ed25519.accepts pubkey img sig = true) :
    ∃ after, UpdateAgent.main w pubkey lba len d = (UpdateAgent.exitApplied, after) ∧
      d.Made (numbered lba (toSectors ((img.length + 511) / 512) img)) after := by
  have hread : UpdateAgent.readStaging w (stagingSectors / chunkSectors) 0 d =
      (some (writeStagePackage img sig ++ rest), { d with reads := d.reads + 32 }) := by
    rw [← staged]
    exact readStaging_succeed reads 32 0 d rfl
  obtain ⟨ok, after, count, hcopy, hmade, -, -, hall, hok⟩ :=
    @copyImage_front w lba len img img.length 0 0
    { d with reads := d.reads + 32 } (.inl rfl) (fun _ => rfl) (by omega)
  rw [hok writes window] at hcopy
  rw [List.take_of_length_le (by simpa [imageFrom] using hall (hok writes window))] at hmade
  refine ⟨after, ?_, hmade⟩
  unfold UpdateAgent.main
  rw [hread]
  dsimp only
  rw [parseStagePackage_write img sig rest nonempty fits]
  dsimp only
  rw [signed, hcopy]
  rfl

theorem padSector_append (sec : Sector) (rest : List UInt8) : padSector (sec.val ++ rest) = sec := by
  apply Subtype.ext
  change (sec.val ++ rest).take 512 ++ List.replicate (512 - (sec.val ++ rest).length) 0 = sec.val
  have hzero : 512 - (sec.val ++ rest).length = 0 := by
    rw [List.length_append, sec.property]
    omega
  rw [List.take_left' sec.property, hzero, List.replicate_zero, List.append_nil]

theorem payloadLba_eq (slot : SlotId) : slot.payloadLba = slot.hdrLba + 2 := by
  cases slot <;> rfl

/-- The sectors of a sealed image. -/
theorem sealed_image {count : Nat} (hcount : count = (1024 + payload.length + 511) / 512)
    (stored : disk.sectors slot.hdrLba count =
      toSectors count (buildSlotImage gen payload room sig key)) :
    Sealed disk key slot .a gen payload room sig := by
  have hlen := length_buildSlotImage gen payload room sig key
  have hhdr : disk slot.hdrLba = padSector (buildSlotImage gen payload room sig key) := by
    have hfirst := congrArg (·[0]?) stored
    have hzero : 0 < count := by omega
    simpa [Disk.sectors, toSectors, hzero] using hfirst
  have hbytes := bytes_of_sectors stored (show 512 * 2 + payload.length ≤ _ by omega) (by omega)
  have hct : (ChaCha20.xorStream key 0 (sealNonce gen) payload).length = payload.length :=
    ChaCha20.length_xorStream _ _
  rw [buildSlotImage, List.append_assoc, padSector_append] at hhdr
  rw [buildSlotImage, List.drop_left' (by simp), ← hct, List.take_length, hct,
    ← payloadLba_eq] at hbytes
  exact ⟨hhdr, hbytes⟩

/-! ### The host tools -/

theorem length_padToSector (bytes : List UInt8) :
    (padToSector bytes).length = 512 * ((bytes.length + 511) / 512) := by
  unfold padToSector sectorSize
  rw [List.length_append, List.length_replicate]
  omega

/-- The sectors a host write leaves. -/
theorem Volume.sectors_writeLba {vol written : Volume} {lba : Nat} {buf : List UInt8}
    (h : vol.writeLba lba buf = some written) :
    written.disk.sectors lba (buf.length / 512) = toSectors (buf.length / 512) buf ∧
      ∀ other, other < lba ∨ lba + buf.length / 512 ≤ other → written.disk other = vol.disk other := by
  unfold Volume.writeLba sectorSize at h
  dsimp only at h
  split_ifs at h
  cases h
  constructor
  · have hsectors := sectors_applyWrites vol.disk lba (toSectors (buf.length / 512) buf)
    rwa [length_toSectors] at hsectors
  · intro other hother
    refine applyWrites_of_untouched _ _ _ fun entry hentry => ?_
    have hrange := mem_numbered hentry
    rw [length_toSectors] at hrange
    omega

/-- What the host stages is what the agent reads, with old staging bytes behind it. -/
theorem staged_sectors {vol staged : Volume} {pkg : List UInt8}
    (room : pkg.length ≤ stagingSectors * sectorSize)
    (h : vol.writeLba stagingLba (padToSector pkg) = some staged) :
    ∃ rest, sectorBytes (staged.disk.sectors stagingLba stagingSectors) = pkg ++ rest := by
  have hlen := length_padToSector pkg
  have hcount : (padToSector pkg).length / 512 = (pkg.length + 511) / 512 := by omega
  obtain ⟨hsectors, -⟩ := Volume.sectors_writeLba h
  rw [hcount] at hsectors
  have hsplit : stagingSectors =
      (pkg.length + 511) / 512 + (stagingSectors - (pkg.length + 511) / 512) := by
    unfold stagingSectors sectorSize at *
    omega
  rw [hsplit, Disk.sectors_add, sectorBytes_append, hsectors, sectorBytes_toSectors, ← hlen,
    List.take_length, padToSector, List.append_assoc, List.append_assoc]
  exact ⟨_, rfl⟩

theorem Volume.disk_writeLba_sector {vol written : Volume} {lba : Nat} {sec : Sector}
    (h : vol.writeLba lba sec.val = some written) : written.disk lba = sec := by
  obtain ⟨hsectors, -⟩ := Volume.sectors_writeLba h
  rw [sec.property] at hsectors
  have hfirst := congrArg (·[0]?) hsectors
  have hpad := padSector_append sec []
  rw [List.append_nil] at hpad
  simpa [Disk.sectors, toSectors, hpad] using hfirst

theorem Volume.bytes_writeLba {vol written : Volume} {lba count : Nat} {buf : List UInt8} (len : Nat)
    (h : vol.writeLba lba buf = some written) (whole : buf.length = 512 * count)
    (inside : len ≤ buf.length) : written.disk.bytes lba len = buf.take len := by
  obtain ⟨hsectors, -⟩ := Volume.sectors_writeLba h
  have hbytes := bytes_of_sectors hsectors (show 512 * 0 + len ≤ buf.length by omega) (by omega)
  simpa using hbytes

/-- The sectors that the host writes. -/
theorem sealed_writeSlot {vol written : Volume}
    (h : writeSlot vol slot gen payload sig key = some written) :
    ∃ room, Sealed written.disk key slot slot gen payload room sig := by
  have hnonce : slot.dataNonce 83 gen = sealNonce gen := rfl
  have hct : (ChaCha20.xorStream key 0 (sealNonce gen) payload).length = payload.length :=
    ChaCha20.length_xorStream _ _
  have hlba := payloadLba_eq slot
  unfold writeSlot at h
  rw [hnonce] at h
  split_ifs at h with room
  rw [Option.bind_eq_bind, Option.bind_eq_some_iff] at h
  obtain ⟨middle, hhdr, hdata⟩ := h
  have hwhole : (ChaCha20.xorStream key 0 (sealNonce gen) payload ++ List.replicate
      (payloadCap - (ChaCha20.xorStream key 0 (sealNonce gen) payload).length) 0).length =
      512 * 1000 := by
    unfold payloadCap sectorSize at *
    rw [List.length_append, List.length_replicate]
    omega
  have hbytes := Volume.bytes_writeLba payload.length hdata hwhole (by simp)
  obtain ⟨-, hkeep⟩ := Volume.sectors_writeLba hdata
  have hheader := hkeep slot.hdrLba (.inl (by omega))
  rw [Volume.disk_writeLba_sector hhdr] at hheader
  rw [List.take_left' hct] at hbytes
  exact ⟨room, hheader, hbytes⟩

/-- A staged update is installed by the agent and accepted. -/
theorem slotOnDisk_updpack (reads : w.ReadsSucceed) (writes : w.WritesSucceed) {vol staged : Volume}
    {seed : Bytes 32} {pkg : List UInt8} {d : Dev} (packed : packUpdate seed key gen payload = some pkg)
    (stored : vol.writeLba stagingLba pkg = some staged) (disk : d.disk = staged.disk)
    (nonempty : payload ≠ []) :
    ∃ after, UpdateAgent.main w (Ed25519.publicFromSeed seed) slot.hdrLba (windowLen slot) d =
        (UpdateAgent.exitApplied, after) ∧
      slotOnDisk after.disk key (Ed25519.publicFromSeed seed) slot = some (payload, gen) := by
  have hsigned := Ed25519.accepts_sign seed
  unfold packUpdate at packed
  split_ifs at packed with room
  dsimp only at packed
  have hlen := length_buildSlotImage gen payload room (Ed25519.sign seed payload) key
  generalize himg : buildSlotImage gen payload room (Ed25519.sign seed payload) key = img at *
  have hpkg := length_writeStagePackage img (Ed25519.sign seed img)
  split_ifs at packed with hfit
  cases packed
  rw [Nat.not_lt] at hfit
  obtain ⟨rest, hstaged⟩ := staged_sectors hfit stored
  rw [← disk] at hstaged
  have hnonempty : img ≠ [] := by
    rintro rfl
    rw [List.length_nil] at hlen
    omega
  have hbound : img.length ≤ 131072 := by
    unfold stagingSectors sectorSize at hfit
    omega
  have hwindow : (img.length + 511) / 512 ≤ windowLen slot := by
    have hlen : windowLen slot = 1000 := by cases slot <;> rfl
    omega
  obtain ⟨after, hagent, hafter⟩ := agent_applies reads writes slot.hdrLba (windowLen slot) d
    hstaged hnonempty (hbound.trans (by decide)) hwindow (hsigned img)
  refine ⟨after, hagent, ?_⟩
  have hsectors := sectors_applyWrites d.disk slot.hdrLba (toSectors ((img.length + 511) / 512) img)
  rw [length_toSectors, ← hafter.1, ← himg] at hsectors
  exact (sealed_image (by rw [himg, hlen]) hsectors).slotOnDisk nonempty (hsigned payload)

theorem updpack_packs {vol staged : Volume} {seed : Bytes 32}
    (h : updpack vol seed gen payload = some staged) : ∃ pkg,
      packUpdate seed (superblockKey (vol.disk superblockLba)) gen payload = some pkg ∧
        vol.writeLba stagingLba pkg = some staged := by
  unfold updpack at h
  obtain ⟨-, -, h⟩ := Option.bind_eq_some_iff.mp h
  split_ifs at h
  exact Option.bind_eq_some_iff.mp h

/-- Loading the slot gives this payload with its length and generation. -/
def LoadsBack (w : World) (key : Bytes 32) (slot : SlotId) (pubkey : Bytes 32) (gen : UInt64)
    (payload : List UInt8) (d : Dev) : Prop :=
  ∀ out, ∃ out' last, validateAndLoad w key slot pubkey out d =
      (some (payload.length, gen), out', last) ∧
    out'.read 0 payload.length = payload

theorem loadsBack_of_onDisk (reads : w.ReadsSucceed) {d : Dev}
    (h : slotOnDisk d.disk key pubkey slot = some (payload, gen)) :
    LoadsBack w key slot pubkey gen payload d := by
  intro out
  obtain ⟨out', last, -, hload, hread⟩ := validateAndLoad_eq w key slot pubkey out d
  rw [slotSeen_succeed reads, h] at hload hread
  exact ⟨out', last, hload, hread _ rfl⟩

/-- A sealed image comes back from either way onto the disk: packaged under the key of the
volume and staged by the host, checked and copied by the agent, or written into the slot
by the host. -/
theorem sealed_image_round_trip (w : World) (seed key : Bytes 32) (gen : UInt64)
    (payload : List UInt8) (nonempty : payload ≠ []) (reads : w.ReadsSucceed)
    (writes : w.WritesSucceed) :
    let pubkey := Ed25519.publicFromSeed seed
    (∀ (slot : SlotId) (vol staged : Volume) (d : Dev), updpack vol seed gen payload = some staged →
      d.disk = staged.disk →
      ∃ after, UpdateAgent.main w pubkey slot.hdrLba (windowLen slot) d =
          (UpdateAgent.exitApplied, after) ∧
        LoadsBack w (superblockKey (vol.disk superblockLba)) slot pubkey gen payload after) ∧
    (∀ (slot : SlotId) (vol staged : Volume) (pkg : List UInt8) (d : Dev),
      packUpdate seed key gen payload = some pkg → vol.writeLba stagingLba pkg = some staged →
      d.disk = staged.disk →
      ∃ after, UpdateAgent.main w pubkey slot.hdrLba (windowLen slot) d =
          (UpdateAgent.exitApplied, after) ∧ LoadsBack w key slot pubkey gen payload after) ∧
    ∀ (slot : SlotId) (vol written : Volume) (d : Dev),
      writeSlot vol slot gen payload (Ed25519.sign seed payload) key = some written →
      d.disk = written.disk → LoadsBack w key slot pubkey gen payload d := by
  have hstaged : ∀ (key : Bytes 32) (slot : SlotId) (vol staged : Volume) (pkg : List UInt8) (d : Dev),
      packUpdate seed key gen payload = some pkg → vol.writeLba stagingLba pkg = some staged →
      d.disk = staged.disk →
      ∃ after, UpdateAgent.main w (Ed25519.publicFromSeed seed) slot.hdrLba (windowLen slot) d =
          (UpdateAgent.exitApplied, after) ∧
        LoadsBack w key slot (Ed25519.publicFromSeed seed) gen payload after := by
    intro key slot vol staged pkg d packed stored disk
    obtain ⟨after, hagent, hslot⟩ := slotOnDisk_updpack reads writes packed stored disk nonempty
    exact ⟨after, hagent, loadsBack_of_onDisk reads hslot⟩
  refine ⟨fun slot vol staged d hpack disk => ?_, hstaged key, fun slot vol written d hwrite disk => ?_⟩
  · obtain ⟨pkg, packed, stored⟩ := updpack_packs hpack
    exact hstaged _ slot vol staged pkg d packed stored disk
  · obtain ⟨_, hsealed⟩ := sealed_writeSlot hwrite
    have hslot := hsealed.slotOnDisk nonempty (Ed25519.accepts_sign seed payload)
    rw [← disk] at hslot
    exact loadsBack_of_onDisk reads hslot

/-! ### A signed sample -/

def sampleSeed : Bytes 32 :=
  ⟨[157, 97, 177, 157, 239, 253, 90, 96, 186, 132, 74, 244, 146, 236, 44, 196, 68, 73, 197, 105, 123,
    50, 105, 25, 112, 59, 172, 3, 28, 174, 127, 96], rfl⟩

def samplePublic : Bytes 32 := Ed25519.publicFromSeed sampleSeed

def sampleKey : Bytes 32 := ⟨List.replicate 32 7, rfl⟩

/-- Signature of the factory definition. -/
def sampleSignature : Bytes 64 := Ed25519.sign sampleSeed factoryPayload

theorem factoryPayload_room : factoryPayload.length ≤ payloadCap := by decide +kernel

def sampleImage : List UInt8 :=
  buildSlotImage 1 factoryPayload factoryPayload_room sampleSignature sampleKey

/-- Signature of its sealed image of generation 1. -/
def sampleImageSignature : Bytes 64 := Ed25519.sign sampleSeed sampleImage

theorem sampleSignature_accepted :
    Ed25519.accepts samplePublic factoryPayload sampleSignature = true :=
  Ed25519.accepts_sign sampleSeed factoryPayload

theorem sampleImageSignature_accepted :
    Ed25519.accepts samplePublic sampleImage sampleImageSignature = true :=
  Ed25519.accepts_sign sampleSeed sampleImage

/-- Surroundings in which nothing fails. -/
def World.faultless : World where
  read := fun _ _ => some fun _ sector => sector
  write := fun _ => none
  tick := fun _ => 0
  derive := fun _ => none
  spawn := fun _ => none
  agent := fun _ => none

theorem World.faultless_reads : World.faultless.ReadsSucceed :=
  ⟨fun _ _ _ h _ _ => (by cases h; rfl), fun _ _ => rfl⟩

theorem World.faultless_writes : World.faultless.WritesSucceed := fun _ => rfl

def blankVolume : Volume := { disk := fun _ => Bytes.zeros 512, sectors := 32768 }

/-- A payload that leaves room for the two headers can be staged. -/
theorem packUpdate_some (seed key : Bytes 32) (gen : UInt64) (payload : List UInt8)
    (h : payload.length ≤ 100000) : ∃ pkg, packUpdate seed key gen payload = some pkg ∧
      pkg.length ≤ stagingSectors * sectorSize := by
  have room : payload.length ≤ payloadCap := h.trans (by decide)
  unfold packUpdate
  rw [dif_pos room]
  dsimp only
  have himg := length_buildSlotImage gen payload room (Ed25519.sign seed payload) key
  generalize buildSlotImage gen payload room (Ed25519.sign seed payload) key = img at himg ⊢
  have hlen := length_writeStagePackage img (Ed25519.sign seed img)
  unfold stagingSectors sectorSize
  rw [if_neg (by omega)]
  refine ⟨_, rfl, ?_⟩
  rw [length_padToSector]
  omega

/-- A volume whose superblock names slot A, otherwise blank. -/
def formattedVolume : Volume :=
  { disk := Function.update (fun _ => Bytes.zeros 512) superblockLba
      (writeSuperblock (some .a) 1 0 sampleKey)
    sectors := 32768 }

theorem sealed_image_round_trip_sample : ∃ staged after,
    updpack formattedVolume sampleSeed 1 factoryPayload = some staged ∧
    UpdateAgent.main World.faultless samplePublic SlotId.b.hdrLba (windowLen .b)
      (Dev.fresh staged.disk) = (UpdateAgent.exitApplied, after) ∧
    LoadsBack World.faultless sampleKey .b samplePublic 1 factoryPayload after := by
  have hsb : formattedVolume.disk superblockLba = writeSuperblock (some .a) 1 0 sampleKey := by
    unfold formattedVolume
    dsimp only
    rw [Function.update_self]
  obtain ⟨pkg, hpack, hlen⟩ := packUpdate_some sampleSeed sampleKey 1 factoryPayload (by decide)
  have hroom : ¬ formattedVolume.sectors < stagingLba + pkg.length / sectorSize := by
    change ¬ 32768 < 20480 + pkg.length / 512
    unfold stagingSectors sectorSize at hlen
    omega
  obtain ⟨staged, hstaged⟩ :
      ∃ staged, updpack formattedVolume sampleSeed 1 factoryPayload = some staged := by
    unfold updpack
    dsimp only
    rw [hsb, parseSuperblock_write, superblockKey_write, superblockValid_write, hpack]
    exact ⟨_, if_neg hroom⟩
  obtain ⟨after, hagent, hload⟩ := (sealed_image_round_trip World.faultless sampleSeed sampleKey 1
    factoryPayload (by decide) World.faultless_reads World.faultless_writes).1 .b formattedVolume staged
    (Dev.fresh staged.disk) hstaged rfl
  rw [hsb, superblockKey_write] at hload
  exact ⟨staged, after, hstaged, hagent, hload⟩

end Redoubt.Storage
