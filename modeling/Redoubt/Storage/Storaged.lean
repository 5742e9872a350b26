import Redoubt.Storage.Text
import Redoubt.Storage.UpdateAgent

/-!
# The storage service: state, slots, audit log and applications

A volume is trusted step by step: a slot or an application counts only after its
tag, its digest and its signature were checked over the bytes of one load.  The
shared workspace is part of the state, because a failed load leaves it half
overwritten.

Allocation is taken to succeed.  The service has a heap of 1 MiB of which nothing
is freed, so a run ends with a panic once the vectors of its requests have used it up.
-/

namespace Redoubt.Storage

open Redoubt.Foundation Redoubt.Crypto

def factoryPayload : List UInt8 :=
  ascii "# redoubt system definition v1\ndevice-id=redoubt-dev-01\nmin-generation=1\nservice heart autostart restart\n"

def factoryConfig : ConfigText := ⟨ascii "hostname=redoubt-dev-01\n", by decide⟩

/-- A verified application slot. -/
structure AppEntry extends AppMeta where
  slot : UInt8
  deriving DecidableEq

structure State where
  recovery : Bool
  /-- Whether the whole-disk capability is present. -/
  block : Bool
  volKey : Bytes 32
  active : Option SlotId
  generation : UInt64
  payload : List UInt8
  overrides : ConfigText
  cfgGen : UInt64
  roster : List RosterEntry
  deviceId : List UInt8
  auditSeq : UInt64
  auditPrev : Bytes 32
  pubkey : Bytes 32
  apps : List AppEntry
  cachedApp : Option AppEntry
  /-- The static buffer that payloads are loaded into. -/
  workspace : Buffer

/-- The state before anything is mounted: the compiled-in factory values. -/
def State.factory (block : Bool) (pubkey : Bytes 32) : State where
  recovery := true
  block := block
  volKey := Bytes.zeros 32
  active := none
  generation := 0
  payload := factoryPayload
  overrides := factoryConfig
  cfgGen := 0
  roster := parseRoster factoryPayload
  deviceId := (findKv factoryPayload (ascii "device-id")).getD (ascii "redoubt-device")
  auditSeq := 0
  auditPrev := Bytes.zeros 32
  pubkey := pubkey
  apps := []
  cachedApp := none
  workspace := fun _ => 0

/-! ### Loading payloads -/

/-- Read a payload in chunks into the buffer, decrypting it in place while the tag
runs over the ciphertext.  The chunk at byte `done` starts at sector
`base + done / 512`. -/
def loadChunks (w : World) (key : Bytes 32) (nonce : Bytes 12) (base len : Nat) :
    Nat → Nat → HmacSha256 → Buffer → Dev → Option HmacSha256 × Buffer × Dev
  | 0, _, mac, out, d => (some mac, out, d)
  | fuel + 1, done, mac, out, d =>
      if done < len then
        let take := min (len - done) (chunkSectors * sectorSize)
        let sectors := (take + sectorSize - 1) / sectorSize
        match br w d (base + done / sectorSize) sectors with
        | (none, d) => (none, out, d)
        | (some data, d) =>
            let out := out.write done data
            let mac := mac.update (data.take take)
            let plain := ChaCha20.xorStream key (UInt32.ofNat (done / 64)) nonce (data.take take)
            loadChunks w key nonce base len fuel (done + take) mac (out.write done plain) d
      else (some mac, out, d)

/-- Header, tag, digest and signature of a slot; the payload ends up in the buffer. -/
def validateAndLoad (w : World) (key : Bytes 32) (slot : SlotId) (pubkey : Bytes 32) (out : Buffer)
    (d : Dev) : Option (Nat × UInt64) × Buffer × Dev :=
  match brSector w d slot.hdrLba with
  | (none, d) => (none, out, d)
  | (some hdrSec, d) =>
      match parseSlotHeader hdrSec.val with
      | none => (none, out, d)
      | some hdr =>
          let len := hdr.payloadLen.toNat
          if hdr.state ≠ slotStateValid then (none, out, d)
          else if len = 0 ∨ payloadCap < len then (none, out, d)
          else
            let mac := (HmacSha256.new key.val).update (hdrSec.slice 0 0x80 slotTagged_inside).val
            match loadChunks w key (sealNonce hdr.generation) slot.payloadLba len len 0 mac out d with
            | (none, out, d) => (none, out, d)
            | (some mac, out, d) =>
                if !constantTimeEq mac.finalize.val (hdrSec.slice 0x80 32 slotTag_inside).val then
                  (none, out, d)
                else if !constantTimeEq (sha256 (out.read 0 len)).val hdr.payloadSha.val then
                  (none, out, d)
                else if !Ed25519.accepts pubkey (out.read 0 len) hdr.signature then (none, out, d)
                else (some (len, hdr.generation), out, d)

def slotValidates (w : World) (key : Bytes 32) (slot : Option SlotId) (pubkey : Bytes 32)
    (out : Buffer) (d : Dev) : Bool × Buffer × Dev :=
  match slot with
  | none => (false, out, d)
  | some slot =>
      let (loaded, out, d) := validateAndLoad w key slot pubkey out d
      (loaded.isSome, out, d)

def isAlphanumeric (byte : UInt8) : Bool :=
  (48 ≤ byte && byte ≤ 57) || (65 ≤ byte && byte ≤ 90) || (97 ≤ byte && byte ≤ 122)

def appNameValid (name : List UInt8) : Bool :=
  !name.isEmpty && name.length ≤ appNameMax && name.all fun byte => isAlphanumeric byte || byte == 45

def appEntryFromHeader (h : AppHeader) : AppEntry := { h with slot := h.slot }

/-- The same checks for an application slot, whose header also names its slot. -/
def validateAndLoadApp (w : World) (key : Bytes 32) (slot : UInt8) (pubkey : Bytes 32)
    (out : Buffer) (d : Dev) : Option AppEntry × Buffer × Dev :=
  match appSlotLba slot with
  | none => (none, out, d)
  | some lba =>
      match brSector w d lba with
      | (none, d) => (none, out, d)
      | (some hdrSec, d) =>
          match parseAppHeader hdrSec.val with
          | none => (none, out, d)
          | some hdr =>
              let len := hdr.payloadLen
              if hdr.slot ≠ slot ∨ !appNameValid hdr.label ∨ payloadCap < len then (none, out, d)
              else
                let mac := (HmacSha256.new key.val).update (hdrSec.slice 0 160 appTagged_inside).val
                match loadChunks w key (appNonce slot hdr.version) (lba + 1) len len 0 mac out d with
                | (none, out, d) => (none, out, d)
                | (some mac, out, d) =>
                    let signed := appSigningMessage hdr.label hdr.version len hdr.payloadSha
                    if !constantTimeEq mac.finalize.val (hdrSec.slice 160 32 appTag_inside).val then
                      (none, out, d)
                    else if !constantTimeEq (sha256 (out.read 0 len)).val hdr.payloadSha.val then
                      (none, out, d)
                    else if !Ed25519.accepts pubkey signed.val hdr.signature then (none, out, d)
                    else (some (appEntryFromHeader hdr), out, d)

/-- Load the application slots one after the other. -/
def loadAppSlots (w : World) (key pubkey : Bytes 32) :
    List UInt8 → Buffer → Dev → List AppEntry × Buffer × Dev
  | [], out, d => ([], out, d)
  | slot :: slots, out, d =>
      let (valid, out, d) := validateAndLoadApp w key slot pubkey out d
      let (entries, out, d) := loadAppSlots w key pubkey slots out d
      (valid.toList ++ entries, out, d)

def loadApps (w : World) (st : State) (d : Dev) : State × Dev :=
  let (apps, out, d) := loadAppSlots w st.volKey st.pubkey [0, 1, 2, 3, 4, 5, 6, 7] st.workspace d
  ({ st with apps, cachedApp := none, workspace := out }, d)

/-! ### Audit log -/

/-- Follow the chain of intact records. -/
def scanRecords (w : World) : Nat → Nat → Bytes 32 → Dev → (Nat × Bytes 32) × Dev
  | 0, seq, prev, d => ((seq, prev), d)
  | fuel + 1, seq, prev, d =>
      match brSector w d (auditStartLba + seq) with
      | (none, d) => ((seq, prev), d)
      | (some sec, d) =>
          match checkAuditRecord sec.val (UInt64.ofNat seq) prev with
          | .valid _ => scanRecords w fuel (seq + 1) (sec.slice 0x1E0 32 recordLink_inside) d
          | _ => ((seq, prev), d)

/-- Position the append cursor after the last intact record. -/
def scanAudit (w : World) (st : State) (d : Dev) : State × Dev :=
  let ((seq, prev), d) := scanRecords w auditRecords 0 (Bytes.zeros 32) d
  ({ st with auditSeq := UInt64.ofNat seq, auditPrev := prev }, d)

/-- Append one event; a failed write loses the record. -/
def auditRaw (w : World) (st : State) (text : List UInt8) (d : Dev) : State × Dev :=
  if !st.block then (st, d)
  else if auditRecords ≤ st.auditSeq.toNat then (st, d)
  else
    let (tick, d) := ticks w d
    let (sector, digest) := writeAuditRecord st.auditSeq tick 1 0 (text.take audDataMax)
      (List.length_take_le _ _) st.auditPrev
    match bw w d (auditStartLba + st.auditSeq.toNat) [sector] with
    | (true, d) => ({ st with auditSeq := st.auditSeq + 1, auditPrev := digest }, d)
    | (false, d) => (st, d)

/-! ### Mounting -/

def zeroHeader (w : World) (slot : SlotId) (d : Dev) : Dev :=
  (bw w d slot.hdrLba [Bytes.zeros 512]).2

/-- The slot to boot: the active one if it validates, else the other one if that does.
A rejected active slot loses its header. -/
def selectSlot (w : World) (st : State) (key : Bytes 32) (active : Option SlotId) (d : Dev) :
    Option SlotId × State × Dev :=
  match slotValidates w key active st.pubkey st.workspace d with
  | (true, out, d) => (active, { st with workspace := out }, d)
  | (false, out, d) =>
      let st := { st with workspace := out }
      match active with
      | none => (none, st, d)
      | some bad =>
          let d := zeroHeader w bad d
          let (st, d) := scanAudit w st d
          let (st, d) := auditRaw w st (ascii "rollback slot " ++ [bad.letter]) d
          match slotValidates w key (some bad.other) st.pubkey st.workspace d with
          | (true, out, d) => (some bad.other, { st with workspace := out }, d)
          | (false, out, d) => (none, { st with workspace := out }, d)

/-- Take over the runtime configuration if its tag is right. -/
def mountConfig (w : World) (st : State) (d : Dev) : State × Dev :=
  match brSector w d configLba with
  | (none, d) => (st, d)
  | (some sec, d) =>
      if sec.slice 0 8 magic_inside ≠ cfgMagic then (st, d)
      else if constantTimeEq (configMac st.volKey sec).val (sec.slice 448 32 configTag_inside).val then
        match parseConfig sec.val with
        | some (_, gen, text) => ({ st with overrides := text, cfgGen := gen }, d)
        | none => (st, d)
      else
        let (st, d) := scanAudit w st d
        auditRaw w st (ascii "cfg tamper ignored") d

/-- Load the selected slot and everything that depends on it. -/
def mountSlot (w : World) (st : State) (key : Bytes 32) (active : SlotId) (d : Dev) : State × Dev :=
  match validateAndLoad w key active st.pubkey st.workspace d with
  | (none, out, d) =>
      let (st, d) := scanAudit w { st with workspace := out, volKey := key } d
      auditRaw w st (ascii "boot payload-fail") d
  | (some (len, gen), out, d) =>
      let payload := out.read 0 len
      let st :=
        { st with
          workspace := out
          volKey := key
          active := some active
          generation := gen
          payload
          roster := parseRoster payload
          deviceId := (findKv payload (ascii "device-id")).getD (ascii "?")
          recovery := false }
      let (st, d) := mountConfig w st d
      let (st, d) := scanAudit w st d
      let (st, d) := loadApps w st d
      auditRaw w st (ascii "boot slot" ++ [active.letter] ++ ascii " gen " ++ pushNum gen) d

def mount (w : World) (st : State) (d : Dev) : State × Dev :=
  match brSector w d superblockLba with
  | (none, d) => (st, d)
  | (some sec, d) =>
      if sec.slice 0 8 magic_inside ≠ sbMagic then (st, d)
      else
        let key := superblockKey sec
        if !superblockValid key sec then (st, d)
        else
          let (activeSb, _, _) := (parseSuperblock sec.val).getD (none, 0, 0)
          match selectSlot w st key activeSb d with
          | (none, st, d) =>
              let (st, d) := scanAudit w { st with volKey := key, active := none } d
              auditRaw w st (ascii "boot recovery") d
          | (some active, st, d) => mountSlot w st key active d

/-- Start of the service on a device. -/
def boot (w : World) (block : Bool) (pubkey : Bytes 32) (d : Dev) : State × Dev :=
  if block then mount w (State.factory block pubkey) d else (State.factory block pubkey, d)

end Redoubt.Storage
