import Redoubt.Storage.SealedImage

/-!
# What a mount selects

A mount trusts a superblock with the right magic and tag, boots the slot it names if
that slot is accepted and the other one if not.  With reads that succeed the outcome
is a function of the disk alone, `selection`; the only sectors written are audit
records and the header of a rejected slot.
-/

namespace Redoubt.Storage

open Redoubt.Foundation Redoubt.Crypto

/-! ### The part of the state that a mount decides -/

/-- The booted system, without configuration, applications, audit cursor and scratch. -/
structure SystemView where
  recovery : Bool
  block : Bool
  volKey : Bytes 32
  active : Option SlotId
  generation : UInt64
  payload : List UInt8
  roster : List RosterEntry
  deviceId : List UInt8
  pubkey : Bytes 32

def State.system (st : State) : SystemView :=
  { recovery := st.recovery
    block := st.block
    volKey := st.volKey
    active := st.active
    generation := st.generation
    payload := st.payload
    roster := st.roster
    deviceId := st.deviceId
    pubkey := st.pubkey }

/-- The system of an accepted slot. -/
def SystemView.mounted (sys : SystemView) (key : Bytes 32) (slot : SlotId) (gen : UInt64)
    (payload : List UInt8) : SystemView :=
  { sys with
    recovery := false
    volKey := key
    active := some slot
    generation := gen
    payload
    roster := parseRoster payload
    deviceId := (findKv payload (ascii "device-id")).getD (ascii "?") }

/-! ### Audit records -/

/-- The sectors of the audit log. -/
def AuditSector (lba : Nat) : Prop := auditStartLba ≤ lba ∧ lba < auditEndLba

variable (w : World) (st : State) (d : Dev)

theorem scanRecords_onlyRead (fuel seq : Nat) (prev : Bytes 32) :
    d.OnlyRead (scanRecords w fuel seq prev d).2 := by
  induction fuel generalizing seq prev d with
  | zero => exact .refl
  | succ _ ih =>
      have hread := brSector_onlyRead w d (auditStartLba + seq)
      rw [scanRecords]
      generalize brSector w d (auditStartLba + seq) = result at hread ⊢
      obtain ⟨_ | sec, after⟩ := result
      · exact hread
      · dsimp only
        split
        · exact hread.trans (ih after _ _)
        · exact hread

theorem scanAudit_onlyRead : d.OnlyRead (scanAudit w st d).2 :=
  scanRecords_onlyRead w d auditRecords 0 (Bytes.zeros 32)

@[simp]
theorem scanAudit_system : (scanAudit w st d).1.system = st.system := rfl

/-- The sector of the next audit record, unless the log is full. -/
def NextRecord (st : State) (lba : Nat) : Prop :=
  st.auditSeq.toNat < auditRecords ∧ lba = auditStartLba + st.auditSeq.toNat

theorem nextRecord_audit {st : State} {lba : Nat} (h : NextRecord st lba) : AuditSector lba := by
  obtain ⟨hroom, rfl⟩ := h
  unfold auditRecords at hroom
  unfold AuditSector
  omega

/-- An audit call does nothing without a volume or on a full log.  Else it writes the next
record, and the cursor moves when the write is reported as done. -/
theorem auditRaw_cases (text : List UInt8) :
    (¬ (st.block = true ∧ st.auditSeq.toNat < auditRecords) ∧ auditRaw w st text d = (st, d)) ∨
      (st.block = true ∧ st.auditSeq.toNat < auditRecords) ∧ ∃ record,
        record = writeAuditRecord st.auditSeq (ticks w d).1 1 0 (text.take audDataMax)
          (List.length_take_le _ _) st.auditPrev ∧
        auditRaw w st text d =
          (if w.write d.writes = none then
              { st with auditSeq := st.auditSeq + 1, auditPrev := record.2 } else st,
            (bw w (ticks w d).2 (auditStartLba + st.auditSeq.toNat) [record.1]).2) := by
  unfold auditRaw
  by_cases hblock : (!st.block) = true
  · rw [if_pos hblock]
    exact .inl ⟨fun h => by simp [h.1] at hblock, rfl⟩
  rw [if_neg hblock]
  by_cases hfull : auditRecords ≤ st.auditSeq.toNat
  · rw [if_pos hfull]
    exact .inl ⟨fun h => by omega, rfl⟩
  rw [if_neg hfull]
  refine .inr ⟨⟨by simpa using hblock, by omega⟩, _, rfl, ?_⟩
  dsimp only
  generalize writeAuditRecord st.auditSeq (ticks w d).1 1 0 (text.take audDataMax) _ st.auditPrev = record
  have hok := bw_fst w (ticks w d).2 (auditStartLba + st.auditSeq.toNat) [record.1]
  change _ = (w.write d.writes).isNone at hok
  generalize bw w (ticks w d).2 (auditStartLba + st.auditSeq.toNat) [record.1] = result at hok ⊢
  obtain ⟨ok, after⟩ := result
  cases hok
  cases w.write d.writes with
  | none => rfl
  | some => rfl

/-- An audit record only moves the cursor of the state. -/
theorem auditRaw_state (text : List UInt8) : ∃ seq prev,
    (auditRaw w st text d).1 = { st with auditSeq := seq, auditPrev := prev } := by
  obtain ⟨-, hnone⟩ | ⟨-, record, -, hsome⟩ := auditRaw_cases w st d text
  · rw [hnone]
    exact ⟨st.auditSeq, st.auditPrev, rfl⟩
  · rw [hsome]
    dsimp only
    split_ifs
    · exact ⟨_, _, rfl⟩
    · exact ⟨st.auditSeq, st.auditPrev, rfl⟩

theorem auditRaw_next (text : List UInt8) : d.WroteIn (NextRecord st) (auditRaw w st text d).2 := by
  obtain ⟨-, hnone⟩ | ⟨⟨-, hroom⟩, record, -, hsome⟩ := auditRaw_cases w st d text
  · rw [hnone]
    exact .refl
  · rw [hsome]
    exact (ticks_onlyRead w d).wroteIn.trans
      ((bw_one_wroteIn w _ _ record.1).mono fun lba hlba => ⟨hroom, hlba⟩)

theorem auditRaw_wroteIn (text : List UInt8) : d.WroteIn AuditSector (auditRaw w st text d).2 :=
  (auditRaw_next w st d text).mono fun _ => nextRecord_audit

@[simp]
theorem auditRaw_system (text : List UInt8) : (auditRaw w st text d).1.system = st.system := by
  obtain ⟨seq, prev, hstate⟩ := auditRaw_state w st d text
  rw [hstate]
  rfl

@[simp]
theorem auditRaw_apps (text : List UInt8) : (auditRaw w st text d).1.apps = st.apps := by
  obtain ⟨seq, prev, hstate⟩ := auditRaw_state w st d text
  rw [hstate]

/-- An audit record after the cursor was positioned. -/
theorem scanAudit_auditRaw (text : List UInt8) :
    ∃ st' after, auditRaw w (scanAudit w st d).1 text (scanAudit w st d).2 = (st', after) ∧
      st'.system = st.system ∧ st'.apps = st.apps ∧ d.WroteIn AuditSector after :=
  ⟨_, _, rfl, auditRaw_system .., auditRaw_apps ..,
    (scanAudit_onlyRead w st d).wroteIn.trans (auditRaw_wroteIn ..)⟩

/-! ### The parts of a mount -/

theorem slotValidates_spec (key : Bytes 32) (slot : SlotId) (pubkey : Bytes 32) (out : Buffer) :
    ∃ out' after, d.OnlyRead after ∧ slotValidates w key (some slot) pubkey out d =
      ((slotSeen w key pubkey slot d).isSome, out', after) := by
  obtain ⟨out', after, honly, hload, -⟩ := validateAndLoad_eq w key slot pubkey out d
  refine ⟨out', after, honly, ?_⟩
  rw [slotValidates, hload]
  simp

/-- An accepted active slot is selected and nothing is written. -/
theorem selectSlot_accepted {key : Bytes 32} {slot : SlotId}
    (seen : (slotSeen w key st.pubkey slot d).isSome) :
    ∃ st' after, selectSlot w st key (some slot) d = (some slot, st', after) ∧
      st'.system = st.system ∧ st'.apps = st.apps ∧ d.OnlyRead after := by
  obtain ⟨out, after, honly, hvalid⟩ := slotValidates_spec w d key slot st.pubkey st.workspace
  refine ⟨{ st with workspace := out }, after, ?_, rfl, rfl, honly⟩
  rw [selectSlot, hvalid, seen]

/-- A rejected active slot loses its header, and the other slot gets its chance. -/
theorem selectSlot_rejected {key : Bytes 32} {slot : SlotId}
    (unseen : slotSeen w key st.pubkey slot d = none) :
    ∃ read logged st' after, d.OnlyRead read ∧
      (zeroHeader w slot read).WroteIn AuditSector logged ∧ logged.OnlyRead after ∧
      st'.system = st.system ∧ st'.apps = st.apps ∧
      selectSlot w st key (some slot) d =
        (if (slotSeen w key st.pubkey slot.other logged).isSome then some slot.other else none,
          st', after) := by
  obtain ⟨out, read, honly, hvalid⟩ := slotValidates_spec w d key slot st.pubkey st.workspace
  rw [unseen] at hvalid
  rw [selectSlot, hvalid]
  dsimp only [Option.isSome_none]
  obtain ⟨st', logged, haudit, hsystem, happs, hlog⟩ := scanAudit_auditRaw w
    { st with workspace := out } (zeroHeader w slot read) (ascii "rollback slot " ++ [slot.letter])
  rw [haudit]
  dsimp only
  obtain ⟨out', after, honly', hother⟩ :=
    slotValidates_spec w logged key slot.other st'.pubkey st'.workspace
  have hpubkey : st'.pubkey = st.pubkey := congrArg SystemView.pubkey hsystem
  rw [hother]
  refine ⟨read, logged, { st' with workspace := out' }, after, honly, hlog, honly', hsystem, happs, ?_⟩
  rw [← hpubkey]
  cases (slotSeen w key st'.pubkey slot.other logged).isSome <;> rfl

/-- A configuration is taken over or its rejection logged. -/
theorem mountConfig_spec : ∃ st' after, mountConfig w st d = (st', after) ∧
    st'.system = st.system ∧ d.WroteIn AuditSector after := by
  have hread := brSector_onlyRead w d configLba
  unfold mountConfig
  generalize brSector w d configLba = result at hread ⊢
  obtain ⟨_ | sec, after⟩ := result
  · exact ⟨st, after, rfl, rfl, hread.wroteIn⟩
  · dsimp only
    split_ifs
    · exact ⟨st, after, rfl, rfl, hread.wroteIn⟩
    · cases parseConfig sec.val with
      | none => exact ⟨st, after, rfl, rfl, hread.wroteIn⟩
      | some => exact ⟨_, after, rfl, rfl, hread.wroteIn⟩
    · obtain ⟨st', last, haudit, hsystem, -, hlog⟩ :=
        scanAudit_auditRaw w st after (ascii "cfg tamper ignored")
      exact ⟨st', last, haudit, hsystem, hread.wroteIn.trans hlog⟩

/-- Every listed application was accepted by the load of its slot. -/
theorem loadAppSlots_spec (key pubkey : Bytes 32) (slots : List UInt8) (out : Buffer) :
    d.OnlyRead (loadAppSlots w key pubkey slots out d).2.2 ∧
      ∀ entry ∈ (loadAppSlots w key pubkey slots out d).1, ∃ slot before payload,
        appSeen w key pubkey slot before = some (entry, payload) := by
  induction slots generalizing out d with
  | nil => exact ⟨.refl, fun _ h => (List.not_mem_nil h).elim⟩
  | cons slot _ ih =>
      obtain ⟨out', after, honly, hload, -⟩ := validateAndLoadApp_eq w key slot pubkey out d
      obtain ⟨hrest, hentries⟩ := ih after out'
      rw [loadAppSlots, hload]
      refine ⟨honly.trans hrest, fun entry hentry => ?_⟩
      rcases List.mem_append.mp hentry with hfirst | hlater
      · rw [Option.mem_toList, Option.map_eq_some_iff] at hfirst
        obtain ⟨⟨found, payload⟩, hseen, rfl⟩ := hfirst
        exact ⟨slot, d, payload, hseen⟩
      · exact hentries entry hlater

theorem loadApps_spec : ∃ st' after, loadApps w st d = (st', after) ∧ st'.system = st.system ∧
    d.OnlyRead after ∧ ∀ entry ∈ st'.apps, ∃ slot before payload,
      appSeen w st.volKey st.pubkey slot before = some (entry, payload) := by
  obtain ⟨honly, hentries⟩ := loadAppSlots_spec w d st.volKey st.pubkey [0, 1, 2, 3, 4, 5, 6, 7]
    st.workspace
  exact ⟨_, _, rfl, rfl, honly, hentries⟩

/-- The list comes from one load, after writes to the audit log only. -/
def ListedBy (key pubkey : Bytes 32) (st' : State) : Prop :=
  ∃ st before, st.volKey = key ∧ st.pubkey = pubkey ∧ d.WroteIn AuditSector before ∧
    st'.apps = (loadApps w st before).1.apps ∧ st'.cachedApp = none

/-- The selected slot fails at its second load: the service stays in recovery. -/
theorem mountSlot_unseen {key : Bytes 32} {slot : SlotId}
    (unseen : slotSeen w key st.pubkey slot d = none) :
    ∃ st' after, mountSlot w st key slot d = (st', after) ∧
      st'.system = { st.system with volKey := key } ∧ st'.apps = st.apps ∧
      d.WroteIn AuditSector after := by
  obtain ⟨out, read, honly, hload, -⟩ := validateAndLoad_eq w key slot st.pubkey st.workspace d
  rw [unseen] at hload
  obtain ⟨st', after, haudit, hsystem, happs, hlog⟩ := scanAudit_auditRaw w
    { st with workspace := out, volKey := key } read (ascii "boot payload-fail")
  refine ⟨st', after, ?_, hsystem, happs, honly.wroteIn.trans hlog⟩
  rw [mountSlot, hload]
  exact haudit

/-- The selected slot is loaded: the system is the one of its payload. -/
theorem mountSlot_seen {key : Bytes 32} {slot : SlotId} {payload : List UInt8} {gen : UInt64}
    (seen : slotSeen w key st.pubkey slot d = some (payload, gen)) :
    ∃ st' after, mountSlot w st key slot d = (st', after) ∧
      st'.system = st.system.mounted key slot gen payload ∧ d.WroteIn AuditSector after ∧
      (∀ entry ∈ st'.apps, ∃ slot before payload,
        appSeen w key st.pubkey slot before = some (entry, payload)) ∧
      ListedBy w d key st.pubkey st' := by
  obtain ⟨out, read, honly, hload, hbuffer⟩ :=
    validateAndLoad_eq w key slot st.pubkey st.workspace d
  rw [seen] at hload
  have hpayload : out.read 0 payload.length = payload := hbuffer _ seen
  rw [mountSlot, hload]
  dsimp only [Option.map_some]
  rw [hpayload]
  generalize hloaded : ({ st with
      workspace := out
      volKey := key
      active := some slot
      generation := gen
      payload
      roster := parseRoster payload
      deviceId := (findKv payload (ascii "device-id")).getD (ascii "?")
      recovery := false } : State) = loaded
  have hmounted : loaded.system = st.system.mounted key slot gen payload := by rw [← hloaded]; rfl
  obtain ⟨configured, afterConfig, hconfig, hsys, hwrote⟩ := mountConfig_spec w loaded read
  rw [hconfig]
  have hscan := scanAudit_onlyRead w configured afterConfig
  have hscanned := scanAudit_system w configured afterConfig
  generalize scanAudit w configured afterConfig = result at hscan hscanned ⊢
  obtain ⟨scanned, afterScan⟩ := result
  obtain ⟨listed, afterApps, happs, hsys', honly', hentries⟩ := loadApps_spec w scanned afterScan
  dsimp only at hscan hscanned ⊢
  rw [happs]
  have hsystem : scanned.system = st.system.mounted key slot gen payload := by
    rw [hscanned, hsys, hmounted]
  have hkey : scanned.volKey = key := congrArg SystemView.volKey hsystem
  have hpubkey : scanned.pubkey = st.pubkey := congrArg SystemView.pubkey hsystem
  generalize ascii "boot slot" ++ [slot.letter] ++ ascii " gen " ++ pushNum gen = text
  have hbefore : d.WroteIn AuditSector afterScan :=
    honly.wroteIn.trans (hwrote.trans hscan.wroteIn)
  refine ⟨(auditRaw w listed text afterApps).1, (auditRaw w listed text afterApps).2, rfl,
    ?_, ?_, ?_, scanned, afterScan, hkey, hpubkey, hbefore, ?_, ?_⟩
  · rw [auditRaw_system, hsys', hsystem]
  · exact hbefore.trans (honly'.wroteIn.trans (auditRaw_wroteIn ..))
  · rw [auditRaw_apps, ← hkey, ← hpubkey]
    exact hentries
  · rw [auditRaw_apps, happs]
  · obtain ⟨seq, prev, hstate⟩ := auditRaw_state w listed afterApps text
    rw [hstate]
    exact congrArg (fun result => result.1.cachedApp) happs.symm

/-! ### Whole mounts -/

/-- A superblock with the right magic and the right tag under the key it carries. -/
def superblockTrusted (sb : Sector) : Bool :=
  sb.slice 0 8 magic_inside == sbMagic && superblockValid (superblockKey sb) sb

/-- The slot a superblock names. -/
def superblockSlot (sb : Sector) : Option SlotId :=
  ((parseSuperblock sb.val).getD (none, 0, 0)).1

/-- What a mount does after the selection. -/
def finishMount (w : World) (key : Bytes 32) : Option SlotId × State × Dev → State × Dev
  | (none, st, d) =>
      let (st, d) := scanAudit w { st with volKey := key, active := none } d
      auditRaw w st (ascii "boot recovery") d
  | (some active, st, d) => mountSlot w st key active d

theorem mount_untrusted (h : ∀ sb, (brSector w d superblockLba).1 = some sb →
    superblockTrusted sb = false) : mount w st d = (st, (brSector w d superblockLba).2) := by
  unfold mount
  generalize brSector w d superblockLba = result at h ⊢
  obtain ⟨_ | sb, after⟩ := result
  · rfl
  · have hbad := h sb rfl
    unfold superblockTrusted at hbad
    dsimp only
    by_cases hmagic : sb.slice 0 8 = sbMagic
    · rw [hmagic, beq_self_eq_true, Bool.true_and] at hbad
      rw [if_neg (not_not.mpr hmagic), hbad]
      rfl
    · rw [if_pos hmagic]

theorem mount_trusted {sb : Sector} (hread : (brSector w d superblockLba).1 = some sb)
    (trusted : superblockTrusted sb = true) :
    mount w st d = finishMount w (superblockKey sb)
      (selectSlot w st (superblockKey sb) (superblockSlot sb) (brSector w d superblockLba).2) := by
  unfold superblockTrusted at trusted
  rw [Bool.and_eq_true, beq_iff_eq] at trusted
  unfold mount
  generalize brSector w d superblockLba = result at hread ⊢
  obtain ⟨sb?, after⟩ := result
  cases hread
  dsimp only
  rw [if_neg (not_not.mpr trusted.1), trusted.2]
  change (match selectSlot w st (superblockKey sb) (superblockSlot sb) after with
    | (none, st, d) => _
    | (some active, st, d) => _) = _
  rcases selectSlot w st (superblockKey sb) (superblockSlot sb) after with ⟨_ | active, st', d'⟩
  · rfl
  · rfl

/-- Without a selected slot the service stays in recovery. -/
theorem finishMount_none (key : Bytes 32) : ∃ st' after, finishMount w key (none, st, d) = (st', after) ∧
    st'.system = { st.system with volKey := key, active := none } ∧ st'.apps = st.apps ∧
    d.WroteIn AuditSector after :=
  scanAudit_auditRaw w { st with volKey := key, active := none } d (ascii "boot recovery")

theorem finishMount_wroteIn (key : Bytes 32) (selected : Option SlotId) :
    d.WroteIn AuditSector (finishMount w key (selected, st, d)).2 := by
  cases selected with
  | none =>
      obtain ⟨st', after, hmount, -, -, hlog⟩ := finishMount_none w st d key
      rw [hmount]
      exact hlog
  | some slot =>
      rw [finishMount]
      cases hseen : slotSeen w key st.pubkey slot d with
      | none =>
          obtain ⟨st', after, hmount, -, -, hlog⟩ := mountSlot_unseen w st d hseen
          rw [hmount]
          exact hlog
      | some =>
          obtain ⟨st', after, hmount, -, hlog, -⟩ := mountSlot_seen w st d hseen
          rw [hmount]
          exact hlog

/-- Nothing can be selected when no slot is named. -/
theorem selectSlot_none (key : Bytes 32) :
    selectSlot w st key none d = (none, st, d) := rfl

/-- The mount finds a trusted superblock and does not accept the slot it names. -/
def MountRejects (pubkey : Bytes 32) (slot : SlotId) : Prop :=
  ∃ sb, (brSector w d superblockLba).1 = some sb ∧ superblockTrusted sb = true ∧
    superblockSlot sb = some slot ∧
    slotSeen w (superblockKey sb) pubkey slot (brSector w d superblockLba).2 = none

/-- Without a rejected slot only the audit log is written. -/
theorem mount_wroteIn_of_accepted (accepted : ∀ slot, ¬ MountRejects w d st.pubkey slot) :
    d.WroteIn AuditSector (mount w st d).2 := by
  have hread := brSector_onlyRead w d superblockLba
  by_cases htrust : ∃ sb, (brSector w d superblockLba).1 = some sb ∧ superblockTrusted sb = true
  · obtain ⟨sb, hsb, trusted⟩ := htrust
    rw [mount_trusted w st d hsb trusted]
    cases hslot : superblockSlot sb with
    | none =>
        rw [selectSlot_none]
        exact hread.wroteIn.trans (finishMount_wroteIn ..)
    | some slot =>
        have hseen : (slotSeen w (superblockKey sb) st.pubkey slot
            (brSector w d superblockLba).2).isSome := by
          rw [← Option.ne_none_iff_isSome]
          exact fun hnone => accepted slot ⟨sb, hsb, trusted, hslot, hnone⟩
        obtain ⟨st', after, hselect, -, -, honly⟩ := selectSlot_accepted w st _ hseen
        rw [hselect]
        exact (hread.trans honly).wroteIn.trans (finishMount_wroteIn ..)
  · rw [mount_untrusted w st d fun sb hsb =>
      Bool.eq_false_iff.mpr fun trusted => htrust ⟨sb, hsb, trusted⟩]
    exact hread.wroteIn

/-- A rejected slot loses its header; apart from that only the audit log is written. -/
theorem mount_wroteIn_of_rejected {slot : SlotId} (rejected : MountRejects w d st.pubkey slot) :
    ∃ read, d.OnlyRead read ∧ (zeroHeader w slot read).WroteIn AuditSector (mount w st d).2 := by
  obtain ⟨sb, hsb, trusted, hslot, hseen⟩ := rejected
  obtain ⟨read, logged, st', after, honly, hlog, hlast, -, -, hselect⟩ :=
    selectSlot_rejected w st _ hseen
  refine ⟨read, (brSector_onlyRead w d superblockLba).trans honly, ?_⟩
  rw [mount_trusted w st d hsb trusted, hslot, hselect]
  exact hlog.trans (hlast.wroteIn.trans (finishMount_wroteIn ..))

/-! ### The selection on a disk -/

/-- The slot that a mount boots when all reads succeed, with its generation and payload. -/
def selection (disk : Disk) (pubkey : Bytes 32) : Option (SlotId × UInt64 × List UInt8) :=
  let sb := disk superblockLba
  if superblockTrusted sb then do
    let slot ← superblockSlot sb
    match slotOnDisk disk (superblockKey sb) pubkey slot with
    | some (payload, gen) => some (slot, gen, payload)
    | none => do
        let (payload, gen) ← slotOnDisk disk (superblockKey sb) pubkey slot.other
        some (slot.other, gen, payload)
  else none

/-- What boots: whether in recovery, the slot, the generation and the payload. -/
def State.booted (st : State) : Bool × Option SlotId × UInt64 × List UInt8 :=
  (st.recovery, st.active, st.generation, st.payload)

def bootedFrom : Option (SlotId × UInt64 × List UInt8) → Bool × Option SlotId × UInt64 × List UInt8
  | some (slot, gen, payload) => (false, some slot, gen, payload)
  | none => (true, none, 0, factoryPayload)

theorem SlotId.not_owns_audit {slot : SlotId} {lba : Nat} (h : slot.Owns lba) : ¬ AuditSector lba := by
  unfold SlotId.Owns at h
  unfold AuditSector
  cases slot <;> simp only [SlotId.hdrLba, SlotId.payloadLba, slotAHdrLba,
    slotAPayloadLba, slotBHdrLba, slotBPayloadLba, auditStartLba] at * <;> omega

theorem SlotId.eq_other {slot bad : SlotId} (h : slot ≠ bad) : slot = bad.other := by
  revert h
  cases slot <;> cases bad <;> simp [SlotId.other]

theorem SlotId.owns_hdrLba (slot : SlotId) : slot.Owns slot.hdrLba := by
  unfold SlotId.Owns
  cases slot <;> decide

theorem superblock_not_audit : ¬ AuditSector superblockLba := by
  unfold AuditSector
  decide

/-- Audit records leave the slots alone. -/
theorem slotOnDisk_wroteIn {d after : Dev} (h : d.WroteIn AuditSector after) (key pubkey : Bytes 32)
    (slot : SlotId) : slotOnDisk after.disk key pubkey slot = slotOnDisk d.disk key pubkey slot :=
  slotOnDisk_congr fun _ howns => h.disk_eq (SlotId.not_owns_audit howns)

theorem zeroHeader_wroteIn (slot : SlotId) : d.WroteIn (· = slot.hdrLba) (zeroHeader w slot d) :=
  bw_one_wroteIn w d slot.hdrLba (Bytes.zeros 512)

/-- Clearing a header leaves the other slot alone. -/
theorem slotOnDisk_zeroHeader_other (key pubkey : Bytes 32) (slot : SlotId) :
    slotOnDisk (zeroHeader w slot d).disk key pubkey slot.other =
      slotOnDisk d.disk key pubkey slot.other := by
  refine slotOnDisk_congr fun lba howns => (zeroHeader_wroteIn w d slot).disk_eq ?_
  rintro rfl
  exact SlotId.not_owns_other slot.owns_hdrLba howns

theorem parseSlotHeader_zeros : parseSlotHeader (Bytes.zeros 512).val = none := by
  decide +kernel

theorem openSlot_zeros (key pubkey : Bytes 32) (fetch : Nat → Option (List UInt8)) :
    openSlot key pubkey (Bytes.zeros 512) fetch = none := by
  rw [openSlot, parseSlotHeader_zeros]

/-- A cleared header is not accepted; a lost attempt to clear it changes nothing. -/
theorem slotOnDisk_zeroHeader (key pubkey : Bytes 32) (slot : SlotId) :
    (w.Lost d.writes ∧
        slotOnDisk (zeroHeader w slot d).disk key pubkey slot = slotOnDisk d.disk key pubkey slot) ∨
      (¬ w.Lost d.writes ∧ slotOnDisk (zeroHeader w slot d).disk key pubkey slot = none) := by
  obtain ⟨hlost, hdisk, -⟩ | ⟨hlost, hdisk, -⟩ := bw_one_made w d slot.hdrLba (Bytes.zeros 512)
  · exact .inl ⟨hlost, by rw [zeroHeader, hdisk, applyWrites_nil]⟩
  · refine .inr ⟨hlost, ?_⟩
    have hhdr : (zeroHeader w slot d).disk slot.hdrLba = Bytes.zeros 512 := by
      rw [zeroHeader, hdisk]
      exact applyWrites_numbered d.disk slot.hdrLba [Bytes.zeros 512] 0 (by decide)
    rw [slotOnDisk, hhdr, openSlot_zeros]

theorem slotOnDisk_zeroHeader_none {key pubkey : Bytes 32} {slot : SlotId}
    (bad : slotOnDisk d.disk key pubkey slot = none) :
    slotOnDisk (zeroHeader w slot d).disk key pubkey slot = none := by
  rcases slotOnDisk_zeroHeader w d key pubkey slot with ⟨-, hsame⟩ | ⟨-, hnone⟩
  · rw [hsame, bad]
  · exact hnone

theorem booted_of_system {st : State} {sys : SystemView} (h : st.system = sys) :
    st.booted = (sys.recovery, sys.active, sys.generation, sys.payload) := by
  rw [← h]
  rfl

theorem pubkey_of_mounted {st : State} {pubkey key : Bytes 32} {slot : SlotId} {gen : UInt64}
    {payload : List UInt8}
    (h : st.system = (State.factory true pubkey).system.mounted key slot gen payload) :
    st.pubkey = pubkey :=
  congrArg SystemView.pubkey h

section Succeeding

variable {w} {d} {pubkey : Bytes 32} {slot : SlotId} {payload : List UInt8} {gen : UInt64}

theorem brSector_succeed (reads : w.ReadsSucceed) (lba : Nat) :
    (brSector w d lba).1 = some (d.disk lba) := by
  rw [brSector_honest reads.1, if_pos (reads.2 _ _)]

/-- The slot named by the superblock is good and is booted. -/
theorem boot_active (reads : w.ReadsSucceed)
    (trusted : superblockTrusted (d.disk superblockLba) = true)
    (named : superblockSlot (d.disk superblockLba) = some slot)
    (good : slotOnDisk d.disk (superblockKey (d.disk superblockLba)) pubkey slot =
      some (payload, gen)) :
    ∃ st after, boot w true pubkey d = (st, after) ∧ d.WroteIn AuditSector after ∧
      st.system = (State.factory true pubkey).system.mounted
        (superblockKey (d.disk superblockLba)) slot gen payload ∧
      ListedBy w d (superblockKey (d.disk superblockLba)) pubkey st := by
  have hmount := mount_trusted w (State.factory true pubkey) d (brSector_succeed reads _) trusted
  have hread := brSector_onlyRead w d superblockLba
  rw [boot, if_pos rfl, hmount, named]
  generalize superblockKey (d.disk superblockLba) = key at good ⊢
  rw [← hread.disk, ← slotSeen_succeed reads] at good
  obtain ⟨st, after, hselect, hsystem, -, honly⟩ := selectSlot_accepted w
    (State.factory true pubkey) (brSector w d superblockLba).2 (Option.isSome_of_eq_some good)
  have hpubkey : st.pubkey = pubkey := congrArg SystemView.pubkey hsystem
  rw [slotSeen_succeed reads, ← honly.disk, ← slotSeen_succeed reads, ← hpubkey] at good
  obtain ⟨st', last, hslot, hsystem', hlog, -, listed, before, hkey, hlisted, hbefore, happs⟩ :=
    mountSlot_seen w st after good
  exact ⟨st', last, by rw [hselect, finishMount, hslot], (hread.trans honly).wroteIn.trans hlog,
    by rw [hsystem', hsystem], listed, before, hkey, hlisted.trans hpubkey,
    (hread.trans honly).wroteIn.trans hbefore, happs⟩

/-- The slot named by the superblock is bad; the other one is booted. -/
theorem boot_rollback (reads : w.ReadsSucceed)
    (trusted : superblockTrusted (d.disk superblockLba) = true)
    (named : superblockSlot (d.disk superblockLba) = some slot)
    (bad : slotOnDisk d.disk (superblockKey (d.disk superblockLba)) pubkey slot = none)
    (good : slotOnDisk d.disk (superblockKey (d.disk superblockLba)) pubkey slot.other =
      some (payload, gen)) :
    ∃ st after, boot w true pubkey d = (st, after) ∧
      d.WroteIn (fun lba => lba = slot.hdrLba ∨ AuditSector lba) after ∧
      slotOnDisk after.disk (superblockKey (d.disk superblockLba)) pubkey slot = none ∧
      st.system = (State.factory true pubkey).system.mounted
        (superblockKey (d.disk superblockLba)) slot.other gen payload := by
  have hmount := mount_trusted w (State.factory true pubkey) d (brSector_succeed reads _) trusted
  have hread := brSector_onlyRead w d superblockLba
  rw [boot, if_pos rfl, hmount, named]
  generalize superblockKey (d.disk superblockLba) = key at bad good ⊢
  have hunseen := bad
  rw [← hread.disk, ← slotSeen_succeed reads] at hunseen
  obtain ⟨rejected, logged, st, after, honly, hlog, hlast, hsystem, -, hselect⟩ :=
    selectSlot_rejected w (State.factory true pubkey) (brSector w d superblockLba).2 hunseen
  have hpubkey : st.pubkey = pubkey := congrArg SystemView.pubkey hsystem
  have hother : slotOnDisk logged.disk key pubkey slot.other = some (payload, gen) := by
    rw [slotOnDisk_wroteIn hlog, slotOnDisk_zeroHeader_other, honly.disk, hread.disk, good]
  have hseen : slotSeen w key (State.factory true pubkey).pubkey slot.other logged =
      some (payload, gen) := (slotSeen_succeed reads _ _).trans hother
  rw [← hlast.disk, ← slotSeen_succeed reads, ← hpubkey] at hother
  obtain ⟨st', last, hslot, hsystem', hlog', -⟩ := mountSlot_seen w st after hother
  refine ⟨st', last, ?_, ?_, ?_, by rw [hsystem', hsystem]⟩
  · rw [hselect, hseen]
    exact hslot
  · exact (hread.trans honly).wroteIn.trans
      (((zeroHeader_wroteIn w rejected slot).mono fun _ => .inl).trans
        ((hlog.trans (hlast.wroteIn.trans hlog')).mono fun _ => .inr))
  · rw [slotOnDisk_wroteIn (hlog.trans (hlast.wroteIn.trans hlog'))]
    exact slotOnDisk_zeroHeader_none w rejected (by rw [honly.disk, hread.disk, bad])

/-- Neither slot is good, or none is named: the service stays in recovery. -/
theorem boot_recovery (reads : w.ReadsSucceed)
    (trusted : superblockTrusted (d.disk superblockLba) = true)
    (bad : ∀ slot, superblockSlot (d.disk superblockLba) = some slot →
      slotOnDisk d.disk (superblockKey (d.disk superblockLba)) pubkey slot = none ∧
      slotOnDisk d.disk (superblockKey (d.disk superblockLba)) pubkey slot.other = none) :
    (boot w true pubkey d).1.booted = bootedFrom none := by
  have hmount := mount_trusted w (State.factory true pubkey) d (brSector_succeed reads _) trusted
  have hread := brSector_onlyRead w d superblockLba
  rw [boot, if_pos rfl, hmount]
  generalize superblockKey (d.disk superblockLba) = key at bad ⊢
  -- without a slot the factory system stays
  have hfinish : ∀ (st : State) (after : Dev), st.system = (State.factory true pubkey).system →
      (finishMount w key (none, st, after)).1.booted = bootedFrom none := by
    intro st after hsystem
    obtain ⟨st', last, hnone, hsystem', -⟩ := finishMount_none w st after key
    rw [hnone, booted_of_system hsystem', hsystem]
    rfl
  cases hnamed : superblockSlot (d.disk superblockLba) with
  | none =>
      rw [selectSlot_none]
      exact hfinish _ _ rfl
  | some slot =>
      obtain ⟨hslot, hother⟩ := bad slot hnamed
      rw [← hread.disk, ← slotSeen_succeed reads] at hslot
      obtain ⟨rejected, logged, st, after, honly, hlog, -, hsystem, -, hselect⟩ :=
        selectSlot_rejected w (State.factory true pubkey) (brSector w d superblockLba).2 hslot
      have hseen : slotSeen w key (State.factory true pubkey).pubkey slot.other logged = none := by
        rw [slotSeen_succeed reads, slotOnDisk_wroteIn hlog, slotOnDisk_zeroHeader_other,
          honly.disk, hread.disk]
        exact hother
      rw [hselect, hseen]
      exact hfinish st after hsystem

/-- With reads that succeed the service boots the selection of its disk. -/
theorem boot_selection (reads : w.ReadsSucceed) :
    (boot w true pubkey d).1.booted = bootedFrom (selection d.disk pubkey) := by
  unfold selection
  dsimp only
  by_cases htrust : superblockTrusted (d.disk superblockLba) = true
  · rw [if_pos htrust]
    cases hnamed : superblockSlot (d.disk superblockLba) with
    | none =>
        refine boot_recovery reads htrust fun slot hslot => ?_
        rw [hnamed] at hslot
        cases hslot
    | some slot =>
        dsimp only [Option.bind_eq_bind, Option.bind_some]
        cases hslot : slotOnDisk d.disk (superblockKey (d.disk superblockLba)) pubkey slot with
        | some =>
            obtain ⟨st, after, hboot, -, hsystem, -⟩ := boot_active reads htrust hnamed hslot
            rw [hboot]
            exact booted_of_system hsystem
        | none =>
            cases hother : slotOnDisk d.disk (superblockKey (d.disk superblockLba)) pubkey
                slot.other with
            | some stored =>
                obtain ⟨st, after, hboot, -, -, hsystem⟩ :=
                  boot_rollback reads htrust hnamed hslot hother
                rw [hboot]
                exact booted_of_system hsystem
            | none =>
                refine boot_recovery reads htrust fun named h => ?_
                rw [hnamed] at h
                cases h
                exact ⟨hslot, hother⟩
  · rw [if_neg htrust, boot, if_pos rfl, mount_untrusted w _ d fun sb hread => ?_]
    · rfl
    · rw [brSector_succeed reads] at hread
      cases hread
      exact Bool.eq_false_iff.mpr htrust

end Succeeding

end Redoubt.Storage
