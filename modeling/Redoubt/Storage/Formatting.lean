import Redoubt.Storage.Settings

/-!
# Formatting a volume

`mkvol` writes a first system for slot A.  What the host formats, the service mounts.
-/

namespace Redoubt.Storage

open Redoubt.Foundation Redoubt.Crypto

/-- A write inside the volume succeeds and changes the sectors it names. -/
theorem Volume.writeLba_some {vol : Volume} {lba : Nat} {buf : List UInt8} {count : Nat}
    (whole : buf.length = 512 * count) (room : lba + count ≤ vol.sectors) : ∃ written,
      vol.writeLba lba buf = some written ∧ written.sectors = vol.sectors ∧
        ∀ other, other < lba ∨ lba + count ≤ other → written.disk other = vol.disk other := by
  have hcount : buf.length / 512 = count := by omega
  have hwrite : vol.writeLba lba buf =
      some { vol with disk := applyWrites vol.disk (numbered lba (toSectors (buf.length / 512) buf)) } :=
    if_neg (show ¬ vol.sectors < lba + buf.length / 512 by omega)
  exact ⟨_, hwrite, rfl, hcount ▸ (Volume.sectors_writeLba hwrite).2⟩

theorem Volume.clear_some {vol : Volume} {lba count : Nat} (room : lba + count ≤ vol.sectors) : ∃ cleared,
    vol.clear lba count = some cleared ∧ cleared.sectors = vol.sectors ∧
      ∀ other, other < lba ∨ lba + count ≤ other → cleared.disk other = vol.disk other := by
  induction count generalizing vol lba with
  | zero => exact ⟨vol, rfl, rfl, fun _ _ => rfl⟩
  | succ count ih =>
      obtain ⟨first, hfirst, hsize, hkeep⟩ :=
        @Volume.writeLba_some vol lba (Bytes.zeros 512).val 1 (Bytes.zeros 512).property (by omega)
      obtain ⟨cleared, hcleared, hsize', hkeep'⟩ := @ih first (lba + 1) (by omega)
      refine ⟨cleared, ?_, hsize'.trans hsize, fun other hother => ?_⟩
      · rw [Volume.clear, hfirst]
        exact hcleared
      · exact (hkeep' other (by omega)).trans (hkeep other (by omega))

theorem writeSlot_some {vol : Volume} {payload : List UInt8} (room : payload.length ≤ payloadCap)
    (size : 1004 ≤ vol.sectors) (gen : UInt64) (sig : Bytes 64) (key : Bytes 32) : ∃ written,
    writeSlot vol .a gen payload sig key = some written ∧ written.sectors = vol.sectors ∧
      ∀ lba < slotAHdrLba, written.disk lba = vol.disk lba := by
  unfold writeSlot
  rw [dif_pos room]
  dsimp only
  generalize sealSlotHeader _ _ = hdr
  have hlength := @ChaCha20.length_xorStream key (SlotId.a.dataNonce 83 gen) 0 payload
  generalize ChaCha20.xorStream key 0 (SlotId.a.dataNonce 83 gen) payload = ct at hlength ⊢
  have hwhole : (ct ++ List.replicate (payloadCap - ct.length) 0).length = 512 * 1000 := by
    rw [List.length_append, List.length_replicate, hlength, Nat.add_sub_cancel' room]
    rfl
  obtain ⟨first, hfirst, hsize, hkeep⟩ := @Volume.writeLba_some vol SlotId.a.hdrLba hdr.val 1
    hdr.property (Nat.le_trans (by decide) size)
  obtain ⟨written, hwritten, hsize', hkeep'⟩ :=
    @Volume.writeLba_some first SlotId.a.payloadLba _ 1000 hwhole (hsize ▸ size)
  refine ⟨written, Option.bind_eq_some_iff.mpr ⟨first, hfirst, hwritten⟩, hsize'.trans hsize, ?_⟩
  intro lba hlba
  exact (hkeep' lba (.inl (Nat.lt_trans hlba (by decide)))).trans (hkeep lba (.inl hlba))

/-- Formatting succeeds on every unformatted volume that has room for the staging area. -/
theorem mkvol_spec {vol : Volume} (seed key : Bytes 32)
    (unformatted : (vol.disk superblockLba).slice 0 8 magic_inside ≠ sbMagic)
    (size : stagingLba + stagingSectors ≤ vol.sectors) : ∃ written, mkvol vol seed key = some written ∧
      written.disk superblockLba = writeSuperblock (some .a) 1 0 key ∧
      written.disk configLba = writeConfig 0 factoryConfig key ∧
      slotOnDisk written.disk key (Ed25519.publicFromSeed seed) .a = some (factoryPayload, 1) := by
  unfold stagingLba stagingSectors at size
  obtain ⟨v1, h1, s1, k1⟩ := @Volume.writeLba_some vol superblockLba
    (writeSuperblock (some .a) 1 0 key).val 1 (writeSuperblock _ _ _ _).property (show 0 + 1 ≤ _ by omega)
  obtain ⟨v2, h2, s2, k2⟩ := @Volume.writeLba_some v1 configLba
    (writeConfig 0 factoryConfig key).val 1 (writeConfig _ _ _).property (show 1 + 1 ≤ _ by omega)
  obtain ⟨v3, h3, s3, k3⟩ := @writeSlot_some v2 factoryPayload factoryPayload_room (by omega) 1
    (Ed25519.sign seed factoryPayload) key
  obtain ⟨v4, h4, s4, k4⟩ := @Volume.clear_some v3 stagingLba stagingSectors
    (show 20480 + 256 ≤ _ by omega)
  obtain ⟨v5, h5, -, k5⟩ := @Volume.clear_some v4 auditStartLba 8 (show 3072 + 8 ≤ _ by omega)
  -- the areas that are cleared last lie behind both slots
  have hfront : ∀ lba < auditStartLba, v5.disk lba = v3.disk lba := fun lba hlba =>
    (k5 lba (.inl hlba)).trans (k4 lba (.inl (Nat.lt_trans hlba (by decide))))
  refine ⟨v5, ?_, ?_, ?_, ?_⟩
  · rw [mkvol, if_neg unformatted]
    exact Option.bind_eq_some_iff.mpr ⟨v1, h1, Option.bind_eq_some_iff.mpr ⟨v2, h2,
      Option.bind_eq_some_iff.mpr ⟨v3, h3, Option.bind_eq_some_iff.mpr ⟨v4, h4, h5⟩⟩⟩⟩
  · rw [hfront _ (by decide), k3 _ (by decide), k2 _ (.inl (by decide)), Volume.disk_writeLba_sector h1]
  · rw [hfront _ (by decide), k3 _ (by decide), Volume.disk_writeLba_sector h2]
  · rw [slotOnDisk_congr fun lba howns => hfront lba (SlotId.owns_bounds howns).2]
    obtain ⟨_, hsealed⟩ := sealed_writeSlot h3
    exact hsealed.slotOnDisk (by decide) (Ed25519.accepts_sign seed factoryPayload)

/-- What the host formats, the service mounts under the key of the signing seed. -/
theorem formatted_volume_boots (vol : Volume) (seed key : Bytes 32)
    (unformatted : (vol.disk superblockLba).slice 0 8 magic_inside ≠ sbMagic)
    (size : stagingLba + stagingSectors ≤ vol.sectors) : ∃ written, mkvol vol seed key = some written ∧
      ∀ w : World, w.ReadsSucceed → ∃ st d,
        boot w true (Ed25519.publicFromSeed seed) (Dev.fresh written.disk) = (st, d) ∧
        st.system = (State.factory true (Ed25519.publicFromSeed seed)).system.mounted key .a 1
          factoryPayload ∧
        st.overrides = factoryConfig ∧ st.cfgGen = 0 := by
  obtain ⟨written, hmade, hsb, hconfig, hslot⟩ := mkvol_spec seed key unformatted size
  refine ⟨written, hmade, fun w reads => ?_⟩
  have hboots : BootsCommit (Ed25519.publicFromSeed seed) written.disk (.a, 1, factoryPayload) :=
    ⟨by rw [hsb, superblockTrusted_write], by rw [hsb, superblockSlot_write],
      by rwa [hsb, superblockKey_write]⟩
  obtain ⟨st, d, hboot, -, hsystem, -⟩ := hboots.boot reads
  rw [hsb, superblockKey_write] at hsystem
  have hmode : (boot w true (Ed25519.publicFromSeed seed) (Dev.fresh written.disk)).1.recovery =
      false := by
    rw [hboot]
    exact congrArg SystemView.recovery hsystem
  have hstored := boot_config reads hmode
  rw [hboot, show (Dev.fresh written.disk).disk = written.disk from rfl, hsb, superblockKey_write,
    hconfig, storedConfig_write, Option.getD_some] at hstored
  exact ⟨st, d, hboot, hsystem, congrArg (·.2.2.2) hstored, congrArg (·.2.2.1) hstored⟩

theorem formatted_volume_boots_blank : ∃ written, mkvol blankVolume sampleSeed sampleKey = some written ∧
    (boot World.faultless true samplePublic (Dev.fresh written.disk)).1.recovery = false := by
  obtain ⟨written, hmade, hboots⟩ :=
    formatted_volume_boots blankVolume sampleSeed sampleKey (by decide) (by decide)
  obtain ⟨st, d, hboot, hsystem, -⟩ := hboots World.faultless World.faultless_reads
  refine ⟨written, hmade, ?_⟩
  rw [samplePublic, hboot]
  exact congrArg SystemView.recovery hsystem

end Redoubt.Storage
