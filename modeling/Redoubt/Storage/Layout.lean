import Redoubt.Crypto.ChaCha20
import Redoubt.Crypto.Hmac

/-!
# The volume layout

Sector numbers, on-disk records and their codecs, shared by the host tools and the
storage service.  Writers fill a zeroed sector field by field; parsers accept any
byte string and look at its first sector.  An assertion of a writer is an argument
of its model.
-/

namespace Redoubt.Storage

open Redoubt.Foundation Redoubt.Crypto

/-- One disk sector of 512 bytes. -/
abbrev Sector := Bytes 512

def sectorSize : Nat := 512

/-! Fields that are read or written in several places lie inside their sector. -/

theorem magic_inside : 0 + 8 ≤ 512 := by decide
theorem version_inside : 8 + 1 ≤ 512 := by decide
theorem packageLen_inside : 12 + 4 ≤ 512 := by decide
theorem configTag_inside : 448 + 32 ≤ 512 := by decide
theorem slotTagged_inside : 0 + 0x80 ≤ 512 := by decide
theorem slotTag_inside : 0x80 + 32 ≤ 512 := by decide
theorem appTagged_inside : 0 + 160 ≤ 512 := by decide
theorem appTag_inside : 160 + 32 ≤ 512 := by decide
theorem recordNumber_inside : 4 + 8 ≤ 512 := by decide
theorem recordTick_inside : 12 + 8 ≤ 512 := by decide
theorem recordLen_inside : 22 + 2 ≤ 512 := by decide
theorem recordLinked_inside : 0 + 0x1E0 ≤ 512 := by decide
theorem recordLink_inside : 0x1E0 + 32 ≤ 512 := by decide

def superblockLba : Nat := 0
def configLba : Nat := 1
def slotAHdrLba : Nat := 2
def slotAPayloadLba : Nat := 4
def slotBHdrLba : Nat := 1034
def slotBPayloadLba : Nat := 1036
def auditStartLba : Nat := 3072
def auditEndLba : Nat := 16383
def appStartLba : Nat := 16384
def appSlotSectors : Nat := 512
def appSlots : Nat := 8
def stagingLba : Nat := 20480
def stagingSectors : Nat := 256

/-- Payload capacity of a slot in bytes. -/
def payloadCap : Nat := 1000 * sectorSize
/-- The first sector of an application slot is its header. -/
def appPayloadCap : Nat := (appSlotSectors - 1) * sectorSize
def auditRecords : Nat := auditEndLba - auditStartLba

def sbMagic : Bytes 8 := ⟨ascii "AEGSVOL\x00", by decide⟩
def cfgMagic : Bytes 8 := ⟨ascii "AEGSCFG\x00", by decide⟩
def slotMagic : Bytes 8 := ⟨ascii "AEGSLOT\x00", by decide⟩
def pkgMagic : Bytes 7 := ⟨ascii "AEGUPKG", by decide⟩
def appMagic : Bytes 8 := ⟨ascii "AEGSAPP\x00", by decide⟩
def appPkgMagic : Bytes 8 := ⟨ascii "AEGAPKG\x00", by decide⟩
def appSignMagic : Bytes 8 := ⟨ascii "AEGAPPV1", by decide⟩

def volFormatVersion : UInt32 := 1

inductive SlotId where
  | a
  | b
  deriving DecidableEq, Repr

namespace SlotId

def other : SlotId → SlotId
  | a => b
  | b => a

/-- Encoding in the superblock. -/
def num : SlotId → UInt32
  | a => 1
  | b => 2

def fromNum (n : UInt32) : Option SlotId :=
  if n = 1 then some a else if n = 2 then some b else none

def hdrLba : SlotId → Nat
  | a => slotAHdrLba
  | b => slotBHdrLba

def payloadLba : SlotId → Nat
  | a => slotAPayloadLba
  | b => slotBPayloadLba

/-- The nonce of slot payloads; the slot itself is not mixed in. -/
def dataNonce (_ : SlotId) (purpose : UInt8) (gen : UInt64) : Bytes 12 :=
  ((Bytes.zeros 12).splice 0 (Bytes.one purpose)).splice 2 (Bytes.ofU64 gen)

/-- The letter used in log lines. -/
def letter (slot : SlotId) : UInt8 := if slot.num = 1 then 65 else 66

end SlotId

def sealNonce (gen : UInt64) : Bytes 12 :=
  ((Bytes.zeros 12).splice 0 (Bytes.one 83)).splice 2 (Bytes.ofU64 gen)

/-- Equality test without an early exit. -/
def constantTimeEq (a b : List UInt8) : Bool :=
  if a.length ≠ b.length then false
  else (a.zip b).foldl (fun acc pair => acc ||| (pair.1 ^^^ pair.2)) 0 == 0

/-- The first sector of a buffer that has one. -/
def firstSector? (bytes : List UInt8) : Option Sector :=
  if h : sectorSize ≤ bytes.length then some (cut bytes 0 512 (by rw [Nat.zero_add]; exact h)) else none

/-! ### Superblock -/

def sbKeyOff : Nat := 0x28
def sbMacOff : Nat := 0x48

/-- The active slot and the two generations; integrity is checked separately. -/
def parseSuperblock (bytes : List UInt8) : Option (Option SlotId × UInt64 × UInt64) := do
  let sb ← firstSector? bytes
  if sb.slice 0 8 ≠ sbMagic then none
  else if (sb.slice 8 4).toU32 ≠ volFormatVersion then none
  else some (SlotId.fromNum (sb.slice 16 4).toU32, (sb.slice 24 8).toU64, (sb.slice 32 8).toU64)

def superblockMac (key : Bytes 32) (sb : Sector) : Bytes 32 :=
  HmacSha256.oneshot key.val (sb.slice 0 sbMacOff).val

def writeSuperblock (active : Option SlotId) (genA genB : UInt64) (key : Bytes 32) : Sector :=
  let act := (active.map SlotId.num).getD 0
  let sb := (Bytes.zeros 512).splice 0 sbMagic
  let sb := sb.splice 8 (Bytes.ofU32 volFormatVersion)
  let sb := sb.splice 16 (Bytes.ofU32 act)
  let sb := sb.splice 24 (Bytes.ofU64 genA)
  let sb := sb.splice 32 (Bytes.ofU64 genB)
  let sb := sb.splice sbKeyOff key
  sb.splice sbMacOff (superblockMac key sb)

/-- The volume key a superblock carries. -/
def superblockKey (sb : Sector) : Bytes 32 := sb.slice sbKeyOff 32

def superblockValid (key : Bytes 32) (sb : Sector) : Bool :=
  constantTimeEq (superblockMac key sb).val (sb.slice sbMacOff 32).val

/-! ### Runtime configuration -/

def cfgTextMax : Nat := 400

/-- A configuration text of admissible length. -/
abbrev ConfigText := { text : List UInt8 // text.length ≤ cfgTextMax }

def configMac (key : Bytes 32) (sec : Sector) : Bytes 32 :=
  HmacSha256.oneshot key.val (sec.slice 0 448).val

def parseConfig (bytes : List UInt8) : Option (Bytes 32 × UInt64 × ConfigText) := do
  let sec ← firstSector? bytes
  if sec.slice 0 8 ≠ cfgMagic then none
  else
    let len := (sec.slice 16 2).toU16.toNat
    if h : len ≤ cfgTextMax then
      let text := sec.slice 32 len (by simp only [cfgTextMax] at h; omega)
      some (sec.slice 448 32, (sec.slice 8 8).toU64, ⟨text.val, text.property.trans_le h⟩)
    else none

def writeConfig (gen : UInt64) (text : ConfigText) (key : Bytes 32) : Sector :=
  let sec := (Bytes.zeros 512).splice 0 cfgMagic
  let sec := sec.splice 8 (Bytes.ofU64 gen)
  let sec := sec.splice 16 (Bytes.ofU16 (UInt16.ofNat text.val.length))
  let sec := sec.splice 32 (Bytes.ofList text.val) (by
    have h := text.property
    simp only [cfgTextMax] at h
    omega)
  sec.splice 448 (configMac key sec)

/-! ### Slots -/

def slotStateEmpty : UInt8 := 0
def slotStateValid : UInt8 := 1
def slotStateBad : UInt8 := 2

structure SlotHeader where
  slot : SlotId
  state : UInt8
  generation : UInt64
  payloadLen : UInt32
  payloadSha : Bytes 32
  signature : Bytes 64
  deriving DecidableEq

def parseSlotHeader (bytes : List UInt8) : Option SlotHeader := do
  let hdr ← firstSector? bytes
  if hdr.slice 0 8 ≠ slotMagic then none
  else
    let slot ← SlotId.fromNum (hdr.byte 8).toUInt32
    let state := hdr.byte 9
    if slotStateBad < state then none
    else
      some
        { slot
          state
          generation := (hdr.slice 16 8).toU64
          payloadLen := (hdr.slice 24 4).toU32
          payloadSha := hdr.slice 32 32
          signature := hdr.slice 0x40 64 }

/-- Header fields; the tag area stays zero. -/
def writeSlotHeader (slot : SlotId) (state : UInt8) (generation : UInt64) (payload : List UInt8)
    (_ : payload.length ≤ payloadCap) (signature : Bytes 64) : Sector :=
  let hdr := (Bytes.zeros 512).splice 0 slotMagic
  let hdr := hdr.splice 8 (Bytes.one slot.num.toUInt8)
  let hdr := hdr.splice 9 (Bytes.one state)
  let hdr := hdr.splice 16 (Bytes.ofU64 generation)
  let hdr := hdr.splice 24 (Bytes.ofU32 (UInt32.ofNat payload.length))
  let hdr := hdr.splice 32 (sha256 payload)
  hdr.splice 0x40 signature

/-- Tag over the header fields and the ciphertext. -/
def slotMac (key : Bytes 32) (hdr : Sector) (ciphertext : List UInt8) : Bytes 32 :=
  (((HmacSha256.new key.val).update (hdr.slice 0 0x80).val).update ciphertext).finalize

/-- Store the tag in a header. -/
def sealSlotHeader (hdr : Sector) (mac : Bytes 32) : Sector := hdr.splice 0x80 mac

def slotMacOk (key : Bytes 32) (hdr : Sector) (ciphertext : List UInt8) : Bool :=
  constantTimeEq (slotMac key hdr ciphertext).val (hdr.slice 0x80 32).val

/-! ### Update packages -/

def pkgImageOff : Nat := 0x80

/-- Header sector, gap sector and payload region. -/
def slotImageMax : Nat := sectorSize * (2 + payloadCap / sectorSize)

/-- A sealed slot image: the part of the buffer up to the returned length. -/
def buildSlotImage (generation : UInt64) (payload : List UInt8)
    (room : payload.length ≤ payloadCap) (signature : Bytes 64) (key : Bytes 32) : List UInt8 :=
  let hdr := writeSlotHeader .a slotStateValid generation payload room signature
  let ct := ChaCha20.xorStream key 0 (sealNonce generation) payload
  (sealSlotHeader hdr (slotMac key hdr ct)).val ++ (Bytes.zeros 512).val ++ ct

def stageHeader (img : List UInt8) (imageSig : Bytes 64) : Bytes 128 :=
  let out := (Bytes.zeros 128).splice 0 pkgMagic
  let out := out.splice 7 (Bytes.one 2)
  let out := out.splice 0x10 (Bytes.ofU64 (UInt64.ofNat img.length))
  let out := out.splice 0x18 (sha256 img)
  out.splice 0x38 imageSig

def writeStagePackage (img : List UInt8) (imageSig : Bytes 64) : List UInt8 :=
  (stageHeader img imageSig).val ++ img

/-- The image and its signature, which is still to be verified. -/
def parseStagePackage (buf : List UInt8) : Option (List UInt8 × Bytes 64) :=
  if h : pkgImageOff ≤ buf.length then
    let hdr := cut buf 0 128 (by simpa [pkgImageOff] using h)
    if hdr.slice 0 7 ≠ pkgMagic ∨ hdr.byte 7 ≠ 2 then none
    else
      let len := (hdr.slice 0x10 8).toU64.toNat
      if hlen : len = 0 ∨ slotImageMax < len ∨ buf.length < pkgImageOff + len then none
      else some ((cut buf pkgImageOff len (by omega)).val, hdr.slice 0x38 64)
  else none

/-! ### Applications -/

def appFormatVersion : UInt8 := 1
def appStateValid : UInt8 := 1
def appNameMax : Nat := 24
def appPkgHeader : Nat := 192
def appStageCap : Nat := stagingSectors * sectorSize - appPkgHeader

/-- The metadata that identifies one application version. -/
structure AppMeta where
  name : Bytes 24
  nameLen : Nat
  payloadLen : Nat
  version : UInt64
  payloadSha : Bytes 32
  signature : Bytes 64
  nameFits : nameLen ≤ 24
  deriving DecidableEq

/-- The name without its padding. -/
def AppMeta.label (app : AppMeta) : List UInt8 :=
  (app.name.slice 0 app.nameLen (by have h := app.nameFits; omega)).val

structure AppHeader extends AppMeta where
  slot : UInt8
  deriving DecidableEq

structure AppPackage extends AppMeta where
  payload : List UInt8
  deriving DecidableEq

theorem AppPackage.nameInside (pkg : AppPackage) : pkg.nameLen ≤ 24 := pkg.nameFits

def appSlotLba (slot : UInt8) : Option Nat :=
  if slot.toNat < appSlots then some (appStartLba + slot.toNat * appSlotSectors) else none

/-- The other slot of the pair. -/
def appPeerSlot (slot : UInt8) : Option UInt8 :=
  if slot.toNat < appSlots then some (slot ^^^ 1) else none

def appNonce (slot : UInt8) (version : UInt64) : Bytes 12 :=
  let n := (Bytes.zeros 12).splice 0 (Bytes.one 65)
  let n := n.splice 1 (Bytes.one slot)
  n.splice 2 (Bytes.ofU64 version)

/-- The fixed-width byte string signed for every application package. -/
def appSigningMessage (name : List UInt8) (version : UInt64) (payloadLen : Nat)
    (payloadSha : Bytes 32) : Bytes 80 :=
  let n := min name.length appNameMax
  let out := (Bytes.zeros 80).splice 0 appSignMagic
  let out := out.splice 8 (Bytes.one (UInt8.ofNat n))
  let out := out.splice 9 (Bytes.ofList (name.take n)) (by simp [n, appNameMax]; omega)
  let out := out.splice 33 (Bytes.ofU64 version)
  let out := out.splice 41 (Bytes.ofU32 (UInt32.ofNat payloadLen))
  out.splice 45 payloadSha

def appHeaderMac (key : Bytes 32) (hdr : Sector) (ciphertext : List UInt8) : Bytes 32 :=
  (((HmacSha256.new key.val).update (hdr.slice 0 160).val).update ciphertext).finalize

def appHeaderMacOk (key : Bytes 32) (hdr : Sector) (ciphertext : List UInt8) : Bool :=
  constantTimeEq (appHeaderMac key hdr ciphertext).val (hdr.slice 160 32).val

/-- Header fields of an application slot, or nothing when they are out of range. -/
def writeAppHeader (slot : UInt8) (name : List UInt8) (version : UInt64) (payload : List UInt8)
    (signature : Bytes 64) : Option Sector :=
  if h : appSlots ≤ slot.toNat ∨ name = [] ∨ appNameMax < name.length ∨
      appPayloadCap < payload.length then none
  else
    let hdr := (Bytes.zeros 512).splice 0 appMagic
    let hdr := hdr.splice 8 (Bytes.one appFormatVersion)
    let hdr := hdr.splice 9 (Bytes.one appStateValid)
    let hdr := hdr.splice 10 (Bytes.one slot)
    let hdr := hdr.splice 11 (Bytes.one (UInt8.ofNat name.length))
    let hdr := hdr.splice 12 (Bytes.ofU32 (UInt32.ofNat payload.length))
    let hdr := hdr.splice 16 (Bytes.ofU64 version)
    let hdr := hdr.splice 32 (Bytes.ofList name) (by simp only [appNameMax] at h; omega)
    let hdr := hdr.splice 64 (sha256 payload)
    some (hdr.splice 96 signature)

def parseAppHeader (bytes : List UInt8) : Option AppHeader := do
  let hdr ← firstSector? bytes
  if hdr.slice 0 8 ≠ appMagic ∨ hdr.byte 8 ≠ appFormatVersion then none
  else if hdr.byte 9 ≠ appStateValid ∨ appSlots ≤ (hdr.byte 10).toNat then none
  else
    let nameLen := (hdr.byte 11).toNat
    let payloadLen := (hdr.slice 12 4).toU32.toNat
    if h : nameLen = 0 ∨ appNameMax < nameLen ∨ payloadLen = 0 ∨ appPayloadCap < payloadLen then
      none
    else
      some
        { slot := hdr.byte 10
          name := hdr.slice 32 24
          nameLen
          payloadLen
          version := (hdr.slice 16 8).toU64
          payloadSha := hdr.slice 64 32
          signature := hdr.slice 96 64
          nameFits := by simp only [appNameMax] at h; omega }

def appStageHeader (name : List UInt8) (version : UInt64) (payload : List UInt8)
    (signature : Bytes 64) (named : name.length ≤ appNameMax) : Bytes 192 :=
  let out := (Bytes.zeros 192).splice 0 appPkgMagic
  let out := out.splice 8 (Bytes.one appFormatVersion)
  let out := out.splice 9 (Bytes.one (UInt8.ofNat name.length))
  let out := out.splice 12 (Bytes.ofU32 (UInt32.ofNat payload.length))
  let out := out.splice 16 (Bytes.ofU64 version)
  let out := out.splice 32 (Bytes.ofList name) (by simp only [appNameMax] at named; omega)
  let out := out.splice 64 (sha256 payload)
  out.splice 96 signature

def writeAppStagePackage (name : List UInt8) (version : UInt64) (payload : List UInt8)
    (signature : Bytes 64) : Option (List UInt8) :=
  if h : name = [] ∨ appNameMax < name.length ∨ payload = [] ∨ appStageCap < payload.length then
    none
  else some ((appStageHeader name version payload signature (by omega)).val ++ payload)

def parseAppStagePackage (buf : List UInt8) : Option AppPackage :=
  if h : appPkgHeader ≤ buf.length then
    let hdr := cut buf 0 192 (by simpa [appPkgHeader] using h)
    if hdr.slice 0 8 ≠ appPkgMagic ∨ hdr.byte 8 ≠ appFormatVersion then none
    else
      let nameLen := (hdr.byte 9).toNat
      let payloadLen := (hdr.slice 12 4).toU32.toNat
      if hname : nameLen = 0 ∨ appNameMax < nameLen ∨ payloadLen = 0 ∨ appStageCap < payloadLen then
        none
      else if hend : buf.length < appPkgHeader + payloadLen then none
      else
        some
          { name := hdr.slice 32 24
            nameLen
            payloadLen
            payload := (cut buf appPkgHeader payloadLen (by omega)).val
            version := (hdr.slice 16 8).toU64
            payloadSha := hdr.slice 64 32
            signature := hdr.slice 96 64
            nameFits := by simp only [appNameMax] at hname; omega }
  else none

/-! ### Audit log -/

def audMagic : UInt32 := 0x31445541
def audDataMax : Nat := 424

/-- One audit record with the digest of its predecessor; returns its own digest too. -/
def writeAuditRecord (seq tick : UInt64) (event aux : UInt8) (data : List UInt8)
    (room : data.length ≤ audDataMax) (prev : Bytes 32) : Sector × Bytes 32 :=
  let rec0 := (Bytes.zeros 512).splice 0 (Bytes.ofU32 audMagic)
  let rec0 := rec0.splice 4 (Bytes.ofU64 seq)
  let rec0 := rec0.splice 12 (Bytes.ofU64 tick)
  let rec0 := rec0.splice 20 (Bytes.one event)
  let rec0 := rec0.splice 21 (Bytes.one aux)
  let rec0 := rec0.splice 22 (Bytes.ofU16 (UInt16.ofNat data.length))
  let rec0 := rec0.splice 24 prev
  let rec0 := rec0.splice 56 (Bytes.ofList data) (by simp only [audDataMax] at room; omega)
  let digest := sha256 (rec0.slice 0 0x1E0).val
  (rec0.splice 0x1E0 digest, digest)

inductive AuditCheck where
  | valid (seq : UInt64)
  | «end»
  | broken
  deriving DecidableEq

def checkAuditRecord (bytes : List UInt8) (expectedSeq : UInt64) (expectedPrev : Bytes 32) :
    AuditCheck :=
  match firstSector? bytes with
  | none => .broken
  | some sec =>
      let magic := (sec.slice 0 4).toU32
      let seq := (sec.slice 4 8).toU64
      if magic = 0 then .end
      else if magic ≠ audMagic then .broken
      else if seq ≠ expectedSeq then .broken
      else if !constantTimeEq (sec.slice 24 32).val expectedPrev.val then .broken
      else if !constantTimeEq (sha256 (sec.slice 0 0x1E0).val).val (sec.slice 0x1E0 32).val then
        .broken
      else .valid seq

end Redoubt.Storage
