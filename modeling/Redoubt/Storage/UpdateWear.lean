import Redoubt.Kernel.Authority
import Redoubt.Storage.UpdateFlow

/-!
# Updates and the capability table

Each update request derives two capabilities for the agent into the table of the storage
service.  The kernel has no call that empties a slot, so the requests of one boot share
what is left of the 32 slots.
-/

namespace Redoubt.Storage

open Redoubt.Foundation Redoubt.Crypto

/-! ### Slots of the table -/

def freeSlots (caps : Kernel.CapTable) : Nat := caps.count none

theorem freeCapSlot_none_iff (caps : Kernel.CapTable) : caps.freeCapSlot = none ↔ freeSlots caps = 0 := by
  unfold Kernel.CapTable.freeCapSlot freeSlots
  rw [List.findIdx?_eq_none_iff, List.count_eq_zero]
  constructor
  · intro h hmem
    cases h none hmem
  · intro h cap hmem
    cases cap with
    | none => exact absurd hmem h
    | some => rfl

theorem freeSlots_set {caps : Kernel.CapTable} {slot : Nat} (h : caps.freeCapSlot = some slot)
    (cap : Kernel.Cap) :
    freeSlots (caps.set slot (some cap)) + 1 = freeSlots caps := by
  obtain ⟨hlt, hnone⟩ := Kernel.CapTable.freeCapSlot_spec h
  have hentry : caps[slot] = none := by
    rw [List.getElem?_eq_getElem hlt] at hnone
    exact Option.some.inj hnone
  have hpos : 0 < caps.count none := List.count_pos_iff.mpr (List.mem_of_getElem? hnone)
  unfold freeSlots
  rw [List.count_set hlt, hentry]
  simp
  omega

/-! ### The derivations of one boot -/

/-- The request for the staging region. -/
def stageArgs : Kernel.Args := ⟨3, Kernel.rRead ||| Kernel.rGrant, stagingLba, stagingSectors, 0, 0⟩

/-- The request for the window of a slot. -/
def slotArgs (slot : SlotId) : Kernel.Args :=
  ⟨3, Kernel.rWrite ||| Kernel.rGrant, slot.hdrLba, windowLen slot, 0, 0⟩

/-- Slot 3 holds the whole volume, which reaches beyond the start of the staging region. -/
def HoldsVolume (caps : Kernel.CapTable) : Prop :=
  ∃ disk lbas, caps.cap? 3 =
    some (.block disk 0 lbas (Kernel.rRead ||| Kernel.rWrite ||| Kernel.rGrant)) ∧
    stagingLba < lbas

/-- The kernel answers each derivation from the table that the earlier ones left. -/
structure KernelDerives (w : World) (tables : Nat → Kernel.CapTable) : Prop where
  held : HoldsVolume (tables 0)
  answer : ∀ n, ∃ a, (a = stageArgs ∨ ∃ slot, a = slotArgs slot) ∧
    match Kernel.Machine.deriveInto (tables n) a with
    | .ok (caps, _) => w.derive n = none ∧ tables (n + 1) = caps
    | .error code => w.derive n = some (UInt64.ofNat code) ∧ tables (n + 1) = tables n

/-- The volume covers what an update asks for. -/
theorem deriveFrom_volume {disk lbas : Nat} (large : stagingLba < lbas) {a : Kernel.Args}
    (h : a = stageArgs ∨ ∃ slot, a = slotArgs slot) :
    ∃ derived, Kernel.Machine.deriveFrom
      (.block disk 0 lbas (Kernel.rRead ||| Kernel.rWrite ||| Kernel.rGrant)) a = .ok derived := by
  have hrange : a.a2 ≤ stagingLba ∧ 0 < a.a3 ∧ a.a2 + a.a3 < 100000 := by
    obtain rfl | ⟨slot, rfl⟩ := h
    · decide
    · cases slot <;> decide
  have hlimit : wordLimit = 2 ^ 64 := rfl
  have hgrant :
      ¬ (Kernel.Cap.block disk 0 lbas (Kernel.rRead ||| Kernel.rWrite ||| Kernel.rGrant)).rights &&&
      Kernel.rGrant = 0 := (by decide : ¬ (7 : Nat) &&& 4 = 0)
  have hmask : ¬
      (Kernel.Cap.block disk 0 lbas (Kernel.rRead ||| Kernel.rWrite ||| Kernel.rGrant)).rights &&&
      a.a1 = 0 := by
    obtain rfl | ⟨slot, rfl⟩ := h
    · exact (by decide : ¬ (7 : Nat) &&& 5 = 0)
    · exact (by decide : ¬ (7 : Nat) &&& 6 = 0)
  unfold Kernel.Machine.deriveFrom
  rw [if_neg hgrant, if_neg hmask, if_neg (by simp [Kernel.Cap.isBlock])]
  dsimp only
  rw [checkedAdd, if_pos (by omega)]
  dsimp only
  rw [if_neg (by unfold saturatingAdd; omega)]
  exact ⟨_, rfl⟩

namespace KernelDerives

variable {w : World} {tables : Nat → Kernel.CapTable}

/-- One derivation takes a slot or fails for want of one. -/
theorem step (h : KernelDerives w tables) (n : Nat) (held : HoldsVolume (tables n)) :
    HoldsVolume (tables (n + 1)) ∧ freeSlots (tables (n + 1)) = freeSlots (tables n) - 1 ∧
      (w.derive n = none ↔ 0 < freeSlots (tables n)) := by
  obtain ⟨a, hargs, hanswer⟩ := h.answer n
  obtain ⟨disk, lbas, hcap, hlarge⟩ := held
  obtain ⟨derived, hderived⟩ := @deriveFrom_volume disk lbas hlarge a hargs
  have hslot : a.a0 = 3 := by
    obtain rfl | ⟨slot, rfl⟩ := hargs
    · rfl
    · rfl
  unfold Kernel.Machine.deriveInto at hanswer
  rw [hslot, hcap] at hanswer
  dsimp only at hanswer
  rw [hderived] at hanswer
  dsimp only at hanswer
  cases hfree : (tables n).freeCapSlot with
  | none =>
      rw [hfree] at hanswer
      obtain ⟨hfail, hsame⟩ := hanswer
      have hzero := (freeCapSlot_none_iff _).mp hfree
      rw [hsame, hzero, hfail]
      exact ⟨⟨disk, lbas, hcap, hlarge⟩, rfl, iff_of_false (Option.some_ne_none _) (Nat.lt_irrefl 0)⟩
  | some slot =>
      rw [hfree] at hanswer
      obtain ⟨hok, hnext⟩ := hanswer
      obtain ⟨hlt, hempty⟩ := Kernel.CapTable.freeCapSlot_spec hfree
      have hfewer := freeSlots_set hfree derived
      have hother : 3 ≠ slot := by
        rintro rfl
        rw [Kernel.CapTable.cap?, hempty] at hcap
        cases hcap
      rw [hnext, hok]
      refine ⟨⟨disk, lbas, ?_, hlarge⟩, by omega, iff_of_true rfl (by omega)⟩
      rw [Kernel.CapTable.cap?_set hlt, if_neg hother, hcap]

theorem holds (h : KernelDerives w tables) (n : Nat) : HoldsVolume (tables n) := by
  induction n with
  | zero => exact h.held
  | succ n ih => exact (h.step n ih).1

/-- The free slots after some derivations. -/
theorem freeSlots_eq (h : KernelDerives w tables) (n : Nat) :
    freeSlots (tables n) = freeSlots (tables 0) - n := by
  induction n with
  | zero => rfl
  | succ n ih =>
      rw [(h.step n (h.holds n)).2.1, ih]
      omega

/-- Both derivations of an update succeed exactly when two slots are free. -/
theorem both_iff (h : KernelDerives w tables) (n : Nat) :
    w.derive n = none ∧ w.derive (n + 1) = none ↔ 2 ≤ freeSlots (tables n) := by
  obtain ⟨-, hfewer, hfirst⟩ := h.step n (h.holds n)
  obtain ⟨-, -, hsecond⟩ := h.step (n + 1) (h.holds (n + 1))
  rw [hfirst, hsecond, hfewer]
  omega

end KernelDerives

/-! ### Updates that should be applied -/

/-- The package in the staging region is signed, and its image, once it is in the slot that
the update goes to, verifies there and is newer than what runs. -/
structure StagedFresh (st : State) (d : Dev) (payload : List UInt8) (gen : UInt64) : Prop where
  staged : ∃ img sig rest, sectorBytes (d.disk.sectors stagingLba stagingSectors) =
      writeStagePackage img sig ++ rest ∧ img ≠ [] ∧ Ed25519.accepts st.pubkey img sig = true ∧
    slotOnDisk (installImage d.disk (updateTarget st.active) img) st.volKey st.pubkey
      (updateTarget st.active) = some (payload, gen)
  fresh : st.active.isSome → st.generation < gen

/-- The update was applied: the reply says so and the slot is the active one. -/
def Applied (st : State) (payload : List UInt8) (gen : UInt64)
    (result : List UInt8 × State × Dev) : Prop :=
  result.1 = ascii "ok applied " ++ pushNum (UInt64.ofNat payload.length) ++ ascii " bytes; reboot" ∧
    result.2.1.active = some (updateTarget st.active) ∧ result.2.1.generation = gen

theorem Applied.not_error {st : State} {payload : List UInt8} {gen : UInt64}
    {result : List UInt8 × State × Dev} (h : Applied st payload gen result) : ¬ IsError result.1 := by
  rw [h.1, List.append_assoc, isError_append_iff (by decide)]
  decide

variable {w : World}

theorem commitSlot_fresh {st : State} {newActive : SlotId} {gen : UInt64} (writes : w.WritesSucceed)
    (fresh : st.active.isSome → st.generation < gen) (d : Dev) : ∃ after,
    commitSlot w st newActive gen d =
      (true, { st with active := some newActive, generation := gen }, after) := by
  unfold commitSlot
  rw [if_neg fun hstale => UInt64.not_le.mpr (fresh hstale.1) hstale.2]
  dsimp only
  rw [bw_succeed writes]
  exact ⟨_, rfl⟩

/-- A newer image is committed. -/
theorem finishUpdate_fresh {st : State} {target : SlotId} {copied : Dev} {payload : List UInt8}
    {gen : UInt64} (writes : w.WritesSucceed)
    (seen : slotSeen w st.volKey st.pubkey target copied = some (payload, gen))
    (fresh : st.active.isSome → st.generation < gen) :
    (finishUpdate w st target 0 copied).1 =
        ascii "ok applied " ++ pushNum (UInt64.ofNat payload.length) ++ ascii " bytes; reboot" ∧
      (finishUpdate w st target 0 copied).2.1.active = some target ∧
      (finishUpdate w st target 0 copied).2.1.generation = gen := by
  obtain ⟨out, after, honly, hload, -⟩ :=
    validateAndLoad_eq w st.volKey target st.pubkey st.workspace copied
  unfold finishUpdate
  dsimp only
  rw [if_pos rfl, hload, seen]
  dsimp only [Option.map_some]
  obtain ⟨last, hcommit⟩ := @commitSlot_fresh w { st with workspace := out } target gen writes fresh after
  rw [hcommit]
  refine ⟨rfl, ?_, ?_⟩
  · exact congrArg SystemView.active (auditRaw_system ..)
  · exact congrArg SystemView.generation (auditRaw_system ..)

/-- The derived capabilities and the agent are there, and nothing else is in the way. -/
theorem runUpdate_applied {st : State} {d : Dev} {payload : List UInt8} {gen : UInt64}
    (reads : w.ReadsSucceed) (writes : w.WritesSucceed) (agents : ∀ n, w.agent n = none)
    (block : st.block = true) (package : StagedFresh st d payload gen)
    (stage : w.derive d.derives = none) (slot : w.derive (d.derives + 1) = none)
    (spawned : w.spawn d.spawns = none) : Applied st payload gen (runUpdate w st d) := by
  obtain ⟨⟨img, sig, rest, hstaged, hnonempty, hsigned, hgood⟩, hfresh⟩ := package
  -- the staging region is smaller than the window
  have hfits : img.length ≤ 512 * windowLen (updateTarget st.active) := by
    have hwindow : windowLen (updateTarget st.active) = 1000 := by cases updateTarget st.active <;> rfl
    have hsize : stagingSectors = 256 := rfl
    have hlength := congrArg List.length hstaged
    rw [length_sectorBytes, Disk.length_sectors, List.length_append, writeStagePackage,
      List.length_append] at hlength
    omega
  obtain ⟨copied, hagent, hcopied⟩ := @agent_installs w st.pubkey reads writes (updateTarget st.active)
    { d with derives := d.derives + 2, spawns := d.spawns + 1 } img rest sig hstaged hnonempty hfits
      hsigned
  rw [runUpdate_of_applied block stage slot spawned agents hagent]
  refine @finishUpdate_fresh w { st with cachedApp := none }
    (updateTarget st.active) copied payload gen writes ?_ hfresh
  rw [slotSeen_succeed reads, hcopied.1]
  exact hgood

/-- A request that cannot start the agent is refused. -/
theorem runUpdate_refused {st : State} {d : Dev}
    (h : ¬ ((w.derive d.derives = none ∧ w.derive (d.derives + 1) = none) ∧ w.spawn d.spawns = none)) :
    IsError (runUpdate w st d).1 := by
  unfold runUpdate
  dsimp only
  by_cases hblock : (!st.block) = true
  · rw [if_pos hblock]
    exact (by decide : IsError (ascii "err: no volume"))
  rw [if_neg hblock]
  cases hstage : w.derive d.derives with
  | some => exact (isError_append_iff (by decide)).mpr (by decide)
  | none =>
      cases hslot : w.derive (d.derives + 1) with
      | some => exact (isError_append_iff (by decide)).mpr (by decide)
      | none =>
          cases hspawn : w.spawn d.spawns with
          | some =>
              dsimp only
              rw [Nat.add_sub_cancel, hspawn]
              exact (isError_append_iff (by decide)).mpr (by decide)
          | none => exact absurd ⟨⟨hstage, hslot⟩, hspawn⟩ h

/-- With all block transfers succeeding and the agent finishing, a correct package is
applied exactly when two slots of the table are free and the agent can be spawned. -/
theorem fresh_update_applied_iff {tables : Nat → Kernel.CapTable} (kernel : KernelDerives w tables)
    (reads : w.ReadsSucceed) (writes : w.WritesSucceed) (agents : ∀ n, w.agent n = none)
    {st : State} {d : Dev} {payload : List UInt8} {gen : UInt64} (block : st.block = true)
    (package : StagedFresh st d payload gen) :
    Applied st payload gen (handle w st beginUpdate d) ↔
      2 ≤ freeSlots (tables d.derives) ∧ w.spawn d.spawns = none := by
  rw [handle_beginUpdate, ← kernel.both_iff]
  constructor
  · intro happlied
    by_contra hnot
    exact happlied.not_error (runUpdate_refused hnot)
  · rintro ⟨⟨hstage, hslot⟩, hspawned⟩
    exact runUpdate_applied reads writes agents block package hstage hslot hspawned

/-! ### A boot that runs out of slots -/

/-- The system calls of an update were not made. -/
def Dev.Unasked (d after : Dev) : Prop := after.derives = d.derives ∧ after.spawns = d.spawns

theorem scanRecords_unasked (fuel seq : Nat) (prev : Bytes 32) (d : Dev) :
    d.Unasked (scanRecords w fuel seq prev d).2 := by
  induction fuel generalizing seq prev d with
  | zero => exact ⟨rfl, rfl⟩
  | succ _ ih =>
      rw [scanRecords]
      have hread : d.Unasked (brSector w d (auditStartLba + seq)).2 := ⟨rfl, rfl⟩
      generalize brSector w d (auditStartLba + seq) = result at hread ⊢
      obtain ⟨_ | sec, after⟩ := result
      · exact hread
      · dsimp only
        split
        · exact ⟨(ih _ _ after).1.trans hread.1, (ih _ _ after).2.trans hread.2⟩
        · exact hread

theorem auditRaw_unasked (st : State) (text : List UInt8) (d : Dev) :
    d.Unasked (auditRaw w st text d).2 := by
  obtain ⟨-, hresult⟩ | ⟨-, record, -, hresult⟩ := auditRaw_cases w st d text
  · rw [hresult]
    exact ⟨rfl, rfl⟩
  · rw [hresult]
    unfold bw
    cases w.write (ticks w d).2.writes with
    | none => exact ⟨rfl, rfl⟩
    | some => exact ⟨rfl, rfl⟩

/-- A volume that names no slot is mounted in recovery, with its key. -/
theorem boot_unnamed {pubkey : Bytes 32} {d : Dev} (reads : w.ReadsSucceed)
    (trusted : superblockTrusted (d.disk superblockLba) = true)
    (unnamed : superblockSlot (d.disk superblockLba) = none) :
    ∃ st after, boot w true pubkey d = (st, after) ∧ d.Unasked after ∧ d.WroteIn AuditSector after ∧
      st.system = { (State.factory true pubkey).system with
        volKey := superblockKey (d.disk superblockLba), active := none } := by
  have hread := brSector_onlyRead w d superblockLba
  obtain ⟨st, after, hfinish, hsystem, -, hlog⟩ := finishMount_none w (State.factory true pubkey)
    (brSector w d superblockLba).2 (superblockKey (d.disk superblockLba))
  refine ⟨st, after, ?_, ?_, hread.wroteIn.trans hlog, hsystem⟩
  · rw [boot, if_pos rfl, mount_trusted w _ d (brSector_succeed reads _) trusted, unnamed,
      selectSlot_none, hfinish]
  · have hscan := @scanRecords_unasked w auditRecords 0 (Bytes.zeros 32) (brSector w d superblockLba).2
    have hafter : after = (finishMount w (superblockKey (d.disk superblockLba))
        (none, State.factory true pubkey, (brSector w d superblockLba).2)).2 := by rw [hfinish]
    have haudit := @auditRaw_unasked w (scanAudit w { State.factory true pubkey with
        volKey := superblockKey (d.disk superblockLba), active := none } (brSector w d superblockLba).2).1
      (ascii "boot recovery")
        (scanRecords w auditRecords 0 (Bytes.zeros 32) (brSector w d superblockLba).2).2
    rw [hafter]
    exact ⟨haudit.1.trans hscan.1, haudit.2.trans hscan.2⟩

/-- The table of the storage service after its start: console, two endpoints, the volume,
and what the probe for the volume has left. -/
def storagedCaps : Kernel.CapTable :=
  let granted : List Kernel.Cap :=
    [.endpoint 1 Kernel.rWrite, .endpoint 2 (Kernel.rRead ||| Kernel.rWrite),
      .endpoint 3 (Kernel.rRead ||| Kernel.rWrite),
      .block 1 0 32768 (Kernel.rRead ||| Kernel.rWrite ||| Kernel.rGrant)]
  match Kernel.Machine.deriveInto (Kernel.CapTable.install granted) ⟨3, Kernel.rRead, 0, 1, 0, 0⟩ with
  | .ok (caps, _) => caps
  | .error _ => Kernel.CapTable.install granted

/-- The derivations of requests that install into slot A. -/
def requestArgs (n : Nat) : Kernel.Args := if n % 2 = 0 then stageArgs else slotArgs .a

def tablesAfter : Nat → Kernel.CapTable
  | 0 => storagedCaps
  | n + 1 =>
      match Kernel.Machine.deriveInto (tablesAfter n) (requestArgs n) with
      | .ok (caps, _) => caps
      | .error _ => tablesAfter n

/-- Everything succeeds but what the kernel refuses. -/
def kernelAnswers : World :=
  { World.faultless with
    derive := fun n =>
      match Kernel.Machine.deriveInto (tablesAfter n) (requestArgs n) with
      | .ok _ => none
      | .error code => some (UInt64.ofNat code) }

/-- The same with the first thirteen spawns refused. -/
def spawnsRefusedFirst : World := { kernelAnswers with spawn := fun n => if n < 13 then some 5 else none }

theorem derives_of_tables {w : World} (h : w.derive = kernelAnswers.derive) :
    KernelDerives w tablesAfter where
  held := ⟨1, 32768, by decide +kernel, by decide⟩
  answer := by
    intro n
    refine ⟨requestArgs n, ?_, ?_⟩
    · unfold requestArgs
      split_ifs
      · exact .inl rfl
      · exact .inr ⟨.a, rfl⟩
    · rw [tablesAfter, h]
      dsimp only [kernelAnswers]
      cases Kernel.Machine.deriveInto (tablesAfter n) (requestArgs n) with
      | error => exact ⟨rfl, rfl⟩
      | ok => exact ⟨rfl, rfl⟩

theorem freeSlots_start : freeSlots (tablesAfter 0) = 27 := by decide +kernel

/-- A volume that names no slot, with the sample image staged. -/
def stagedVolume : Disk :=
  stageSample fun lba => if lba = superblockLba then writeSuperblock none 0 0 sampleKey else
    Bytes.zeros 512

theorem stagedVolume_superblock : stagedVolume superblockLba = writeSuperblock none 0 0 sampleKey :=
  ((stageSample_spec _).1 superblockLba (by decide)).trans (if_pos rfl)

theorem stagedVolume_fresh {st : State} {d : Dev} (volKey : st.volKey = sampleKey)
    (pubkey : st.pubkey = samplePublic) (active : st.active = none)
    (disk : ∀ lba, ¬ AuditSector lba → d.disk lba = stagedVolume lba) :
    StagedFresh st d factoryPayload 1 := by
  obtain ⟨-, rest, hstaged⟩ := stageSample_spec fun lba =>
    if lba = superblockLba then writeSuperblock none 0 0 sampleKey else Bytes.zeros 512
  refine ⟨⟨sampleImage, sampleImageSignature, rest, ?_, ?_, ?_, ?_⟩, fun hsome => ?_⟩
  · rw [← hstaged]
    refine congrArg sectorBytes (List.map_congr_left fun index _ => disk _ ?_)
    change ¬ (3072 ≤ 20480 + index ∧ 20480 + index < 16383)
    omega
  · exact List.ne_nil_of_length_pos (by rw [sampleImage_length]; omega)
  · rw [pubkey]
    exact sampleImageSignature_accepted
  · rw [volKey, pubkey, sampleImage]
    exact slotOnDisk_installImage d.disk factoryPayload_room (by decide) sampleSignature_accepted
  · rw [active] at hsome
    cases hsome

/-- What a start gives on a volume whose superblock names no slot. -/
theorem boot_unassigned {disk : Disk} {pubkey : Bytes 32} (reads : w.ReadsSucceed)
    (superblock : disk superblockLba = writeSuperblock none 0 0 sampleKey) : ∃ st d,
      boot w true pubkey (Dev.fresh disk) = (st, d) ∧ st.block = true ∧ d.derives = 0 ∧ d.spawns = 0 ∧
        st.volKey = sampleKey ∧ st.pubkey = pubkey ∧ st.active = none ∧
        ∀ lba, ¬ AuditSector lba → d.disk lba = disk lba := by
  have hsb : (Dev.fresh disk).disk superblockLba = writeSuperblock none 0 0 sampleKey := superblock
  obtain ⟨st, d, hboot, hunasked, hwrote, hsystem⟩ := @boot_unnamed w pubkey (Dev.fresh disk) reads
    (by rw [hsb, superblockTrusted_write]) (by rw [hsb, superblockSlot_write])
  refine ⟨st, d, hboot, congrArg SystemView.block hsystem, hunasked.1, hunasked.2, ?_,
    congrArg SystemView.pubkey hsystem, congrArg SystemView.active hsystem, fun lba hlba =>
      hwrote.disk_eq hlba⟩
  refine (congrArg SystemView.volKey hsystem).trans ?_
  change superblockKey ((Dev.fresh disk).disk superblockLba) = sampleKey
  rw [hsb, superblockKey_write]

theorem kernelDerives_reads : kernelAnswers.ReadsSucceed := World.faultless_reads

theorem fresh_update_applied_iff_first : ∃ st d,
    boot kernelAnswers true samplePublic (Dev.fresh stagedVolume) = (st, d) ∧
      Applied st factoryPayload 1 (handle kernelAnswers st beginUpdate d) := by
  obtain ⟨st, d, hboot, hblock, hderives, -, hvolKey, hpubkey, hactive, hdisk⟩ :=
    boot_unassigned kernelDerives_reads stagedVolume_superblock
  refine ⟨st, d, hboot, ?_⟩
  refine (fresh_update_applied_iff
    (derives_of_tables rfl) kernelDerives_reads World.faultless_writes (fun _ => rfl)
    hblock (stagedVolume_fresh hvolKey hpubkey hactive hdisk)).mpr ⟨?_, rfl⟩
  rw [hderives, freeSlots_start]
  decide

/-- The state after some update requests. -/
def afterUpdates (w : World) : Nat → State × Dev → State × Dev
  | 0, now => now
  | n + 1, now => afterUpdates w n (handle w now.1 beginUpdate now.2).2

/-- Requests whose agent cannot be spawned take two slots each and do nothing else. -/
theorem afterUpdates_unspawned (n : Nat) {st : State} {d : Dev} (block : st.block = true)
    (derives : ∀ m < d.derives + 2 * n, w.derive m = none)
    (spawns : ∀ m < d.spawns + n, w.spawn m ≠ none) : ∃ st' d',
      afterUpdates w n (st, d) = (st', d') ∧ st'.system = st.system ∧ d'.disk = d.disk ∧
        d'.derives = d.derives + 2 * n ∧ d'.spawns = d.spawns + n := by
  induction n generalizing st d with
  | zero => exact ⟨st, d, rfl, rfl, rfl, rfl, rfl⟩
  | succ n ih =>
      obtain ⟨errno, herrno⟩ := Option.ne_none_iff_exists'.mp (spawns d.spawns (by omega))
      have hrun : (handle w st beginUpdate d).2 =
          ({ st with cachedApp := none },
            { d with derives := d.derives + 2, spawns := d.spawns + 1 }) := by
        rw [handle_beginUpdate, runUpdate]
        simp only [block, derives d.derives (by omega), derives (d.derives + 1) (by omega), herrno,
          Bool.not_true, Bool.false_eq_true, if_false, Nat.add_sub_cancel]
      obtain ⟨st', d', hrest, hsystem, hdisk, hderives, hspawns⟩ := @ih { st with cachedApp := none }
        { d with derives := d.derives + 2, spawns := d.spawns + 1 } block
        (fun m hm => derives m (by dsimp only at hm; omega))
          (fun m hm => spawns m (by dsimp only at hm; omega))
      refine ⟨st', d', by rw [afterUpdates, hrun, hrest], hsystem, hdisk, ?_, ?_⟩
      · rw [hderives]
        dsimp only
        omega
      · rw [hspawns]
        dsimp only
        omega

/-- After thirteen requests a correct package is refused for want of a slot. -/
theorem updates_worn_out : ∃ st d st' d',
    boot spawnsRefusedFirst true samplePublic (Dev.fresh stagedVolume) = (st, d) ∧
      afterUpdates spawnsRefusedFirst 13 (st, d) = (st', d') ∧
      KernelDerives spawnsRefusedFirst tablesAfter ∧ spawnsRefusedFirst.ReadsSucceed ∧
      spawnsRefusedFirst.WritesSucceed ∧ (∀ n, spawnsRefusedFirst.agent n = none) ∧
      spawnsRefusedFirst.spawn d'.spawns = none ∧ StagedFresh st' d' factoryPayload 1 ∧
      (handle spawnsRefusedFirst st' beginUpdate d').1 = ascii "err: derive slot 1" := by
  have hkernel : KernelDerives spawnsRefusedFirst tablesAfter := derives_of_tables rfl
  have hderive : ∀ m < 27, spawnsRefusedFirst.derive m = none := by
    intro m hm
    rw [(hkernel.step m (hkernel.holds m)).2.2, hkernel.freeSlots_eq, freeSlots_start]
    omega
  have hfull : spawnsRefusedFirst.derive 27 = some 1 := by decide +kernel
  have hspawn : ∀ m < 13, spawnsRefusedFirst.spawn m ≠ none := by
    intro m hm
    change (if m < 13 then some 5 else none) ≠ none
    rw [if_pos hm]
    exact Option.some_ne_none 5
  obtain ⟨st, d, hboot, hblock, hderives, hspawns, hvolKey, hpubkey, hactive, hdisk⟩ :=
    @boot_unassigned spawnsRefusedFirst stagedVolume samplePublic World.faultless_reads
      stagedVolume_superblock
  obtain ⟨st', d', hrun, hsystem, hdisk', hderives', hspawns'⟩ :=
    @afterUpdates_unspawned spawnsRefusedFirst 13 st d
    hblock (fun m hm => hderive m (by omega)) (fun m hm => hspawn m (by omega))
  have hblock' : st'.block = true := (congrArg SystemView.block hsystem).trans hblock
  refine ⟨st, d, st', d', hboot, hrun, hkernel, World.faultless_reads, World.faultless_writes,
    fun _ => rfl, ?_, ?_, ?_⟩
  · rw [hspawns', hspawns]
    rfl
  · exact stagedVolume_fresh ((congrArg SystemView.volKey hsystem).trans hvolKey)
      ((congrArg SystemView.pubkey hsystem).trans hpubkey)
        ((congrArg SystemView.active hsystem).trans hactive)
      fun lba hlba => (congrFun hdisk' lba).trans (hdisk lba hlba)
  · have htwentySix : d'.derives = 26 := by omega
    rw [handle_beginUpdate, runUpdate]
    simp only [hblock', htwentySix, hderive 26 (by decide), hfull, Bool.not_true,
      Bool.false_eq_true, if_false]
    decide

end Redoubt.Storage
