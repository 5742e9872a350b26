import Redoubt.Storage.Storaged

/-!
# The host tools that write volumes

A volume file is a disk with a number of sectors; accesses past its end fail.
`mkvol` formats a volume with a first system, `writeSlot` provisions a slot directly,
`updpack` stages a signed update package.
-/

namespace Redoubt.Storage

open Redoubt.Foundation Redoubt.Crypto

structure Volume where
  disk : Disk
  sectors : Nat

def Volume.writeLba (vol : Volume) (lba : Nat) (buf : List UInt8) : Option Volume :=
  let count := buf.length / sectorSize
  if vol.sectors < lba + count then none
  else some { vol with disk := applyWrites vol.disk (numbered lba (toSectors count buf)) }

/-- Header and encrypted payload of a slot, the payload region padded with zeros. -/
def writeSlot (vol : Volume) (slot : SlotId) (generation : UInt64) (payload : List UInt8)
    (sig : Bytes 64) (volKey : Bytes 32) : Option Volume :=
  if room : payload.length ≤ payloadCap then do
    let hdr := writeSlotHeader slot slotStateValid generation payload room sig
    let ct := ChaCha20.xorStream volKey 0 (slot.dataNonce 83 generation) payload
    let hdr := sealSlotHeader hdr (slotMac volKey hdr ct)
    let region := ct ++ List.replicate (payloadCap - ct.length) 0
    let vol ← vol.writeLba slot.hdrLba hdr.val
    vol.writeLba slot.payloadLba region
  else none

/-- Write zeros to consecutive sectors. -/
def Volume.clear (vol : Volume) (lba : Nat) : Nat → Option Volume
  | 0 => some vol
  | count + 1 => do
      let vol ← vol.writeLba lba (Bytes.zeros 512).val
      Volume.clear vol (lba + 1) count

/-- Format a volume file that is not formatted yet. -/
def mkvol (vol : Volume) (seed volKey : Bytes 32) : Option Volume :=
  if (vol.disk superblockLba).slice 0 8 magic_inside = sbMagic then none
  else do
    let vol ← vol.writeLba superblockLba (writeSuperblock (some .a) 1 0 volKey).val
    let vol ← vol.writeLba configLba (writeConfig 0 factoryConfig volKey).val
    let vol ← writeSlot vol .a 1 factoryPayload (Ed25519.sign seed factoryPayload) volKey
    let vol ← vol.clear stagingLba stagingSectors
    vol.clear auditStartLba 8

/-- Zero bytes up to the next sector boundary. -/
def padToSector (bytes : List UInt8) : List UInt8 :=
  bytes ++ List.replicate ((sectorSize - bytes.length % sectorSize) % sectorSize) 0

/-- The padded staging package of an update. -/
def packUpdate (seed volKey : Bytes 32) (gen : UInt64) (payload : List UInt8) :
    Option (List UInt8) :=
  if room : payload.length ≤ payloadCap then
    let img := buildSlotImage gen payload room (Ed25519.sign seed payload) volKey
    let pkg := writeStagePackage img (Ed25519.sign seed img)
    if stagingSectors * sectorSize < pkg.length then none else some (padToSector pkg)
  else none

/-- Stage an update on a formatted volume, sealed under the key in its superblock. -/
def updpack (vol : Volume) (seed : Bytes 32) (gen : UInt64) (payload : List UInt8) :
    Option Volume := do
  let sb := vol.disk superblockLba
  let _ ← parseSuperblock sb.val
  if superblockValid (superblockKey sb) sb then
    let pkg ← packUpdate seed (superblockKey sb) gen payload
    vol.writeLba stagingLba pkg
  else none

end Redoubt.Storage
