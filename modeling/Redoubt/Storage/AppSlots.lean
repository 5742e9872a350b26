import Redoubt.Storage.Loading
import Mathlib.Tactic.IntervalCases

/-!
# Application slots on a disk

An application slot is a header sector and the sectors behind it.  Whether a slot
verifies depends on these sectors alone, and with reads that succeed a load finds
exactly the slots that verify.
-/

namespace Redoubt.Storage

open Redoubt.Foundation Redoubt.Crypto

variable {lba : Nat} {disk : Disk} {entry : AppEntry} {payload : List UInt8}

/-- Everything that was checked about an accepted application. -/
structure AppAccepted (key pubkey : Bytes 32) (slot : UInt8) (hdrSec : Sector) (hdr : AppHeader)
    (ct payload : List UInt8) : Prop where
  parsed : parseAppHeader hdrSec.val = some hdr
  own : hdr.slot = slot
  named : appNameValid hdr.label = true
  fits : hdr.payloadLen ≤ payloadCap
  tag : appHeaderMacOk key hdrSec ct = true
  plain : ChaCha20.xorStream key 0 (appNonce slot hdr.version) ct = payload
  digest : sha256 payload = hdr.payloadSha
  signed : Ed25519.accepts pubkey
    (appSigningMessage hdr.label hdr.version hdr.payloadLen hdr.payloadSha).val hdr.signature = true

variable {w : World} {key pubkey : Bytes 32} {slot : UInt8}

theorem openApp_eq_some_iff {hdrSec : Sector} {fetch : Nat → Option (List UInt8)}
    :
    openApp key pubkey slot hdrSec fetch = some (entry, payload) ↔
      ∃ hdr ct, fetch hdr.payloadLen = some ct ∧ AppAccepted key pubkey slot hdrSec hdr ct payload ∧
        entry = appEntryFromHeader hdr := by
  constructor
  · intro h
    unfold openApp at h
    cases hparse : parseAppHeader hdrSec.val with
    | none =>
        rw [hparse] at h
        cases h
    | some hdr =>
        rw [hparse] at h
        dsimp only at h
        by_cases hbad : hdr.slot ≠ slot ∨ (!appNameValid hdr.label) = true ∨
            payloadCap < hdr.payloadLen
        · rw [if_pos hbad] at h
          cases h
        · rw [if_neg hbad] at h
          push Not at hbad
          obtain ⟨hslot, hname, hfits⟩ := hbad
          cases hfetch : fetch hdr.payloadLen with
          | none =>
              rw [hfetch] at h
              cases h
          | some ct =>
              rw [hfetch] at h
              dsimp only at h
              split_ifs at h with htag hdigest hsigned
              cases h
              rw [Bool.not_eq_true', Bool.not_eq_false] at htag hdigest hsigned
              exact ⟨hdr, ct, hfetch,
                { parsed := hparse
                  own := hslot
                  named := by simpa using hname
                  fits := hfits
                  tag := htag
                  plain := rfl
                  digest := constantTimeEq_bytes.mp hdigest
                  signed := hsigned }, rfl⟩
  · rintro ⟨hdr, ct, hfetch, hok, rfl⟩
    have hgood : ¬ (hdr.slot ≠ slot ∨ (!appNameValid hdr.label) = true ∨
        payloadCap < hdr.payloadLen) := by
      have hfits := hok.fits
      simp [hok.own, hok.named]
      omega
    unfold openApp
    rw [hok.parsed]
    dsimp only
    rw [if_neg hgood, hfetch]
    dsimp only
    rw [hok.plain, if_neg (by simp [hok.tag]), if_neg (by simp [hok.digest]),
      if_neg (by simp [hok.signed])]

/-- The lengths a header can announce. -/
theorem parseAppHeader_fits {bytes : List UInt8} {hdr : AppHeader}
    (h : parseAppHeader bytes = some hdr) : 0 < hdr.payloadLen ∧ hdr.payloadLen ≤ appPayloadCap := by
  unfold parseAppHeader at h
  cases hsec : firstSector? bytes with
  | none =>
      rw [hsec] at h
      cases h
  | some =>
      rw [hsec] at h
      simp only [Option.bind_eq_bind, Option.bind_some] at h
      split_ifs at h with _ _ hlen
      cases h
      dsimp only
      omega

/-! ### The sectors of a slot -/

/-- The sectors an application slot occupies. -/
def AppOwns (slot : UInt8) (lba : Nat) : Prop :=
  appStartLba + slot.toNat * appSlotSectors ≤ lba ∧ lba < appStartLba + (slot.toNat + 1) * appSlotSectors

theorem appOwns_disjoint {slot other : UInt8} (h : AppOwns slot lba)
    (h' : AppOwns other lba) : slot = other := by
  unfold AppOwns appSlotSectors at *
  exact UInt8.toNat_inj.mp (by omega)

theorem appOwns_header (h : appSlotLba slot = some lba) : AppOwns slot lba := by
  unfold appSlotLba at h
  split_ifs at h
  cases h
  unfold AppOwns appSlotSectors
  omega

theorem appSlotLba_lt (h : appSlotLba slot = some lba) : slot.toNat < appSlots := by
  unfold appSlotLba at h
  split_ifs at h with hslot
  exact hslot

theorem appOwns_payload {lba count sector : Nat} (h : appSlotLba slot = some lba)
    (fits : count ≤ 511) (inside : lba + 1 ≤ sector ∧ sector < lba + 1 + count) :
    AppOwns slot sector := by
  unfold appSlotLba at h
  split_ifs at h
  cases h
  unfold AppOwns appSlotSectors at *
  omega

/-- The checks of an application slot over the bytes stored in it. -/
def appOnDisk (disk : Disk) (key pubkey : Bytes 32) (slot : UInt8) : Option (AppEntry × List UInt8) :=
  match appSlotLba slot with
  | none => none
  | some lba => openApp key pubkey slot (disk lba) fun len => some (disk.bytes (lba + 1) len)

theorem appOnDisk_eq_some_iff :
    appOnDisk disk key pubkey slot = some (entry, payload) ↔
      ∃ lba hdr, appSlotLba slot = some lba ∧
        AppAccepted key pubkey slot (disk lba) hdr (disk.bytes (lba + 1) hdr.payloadLen) payload ∧
        entry = appEntryFromHeader hdr := by
  unfold appOnDisk
  cases appSlotLba slot with
  | none => simp
  | some lba =>
      dsimp only
      rw [openApp_eq_some_iff]
      constructor
      · rintro ⟨hdr, ct, hfetch, hok, hentry⟩
        cases hfetch
        exact ⟨lba, hdr, rfl, hok, hentry⟩
      · rintro ⟨other, hdr, hlba, hok, hentry⟩
        cases hlba
        exact ⟨hdr, _, rfl, hok, hentry⟩

/-- A slot is checked over its own sectors. -/
theorem appOnDisk_congr {disk other : Disk} (same : ∀ lba, AppOwns slot lba → disk lba = other lba) :
    appOnDisk disk key pubkey slot = appOnDisk other key pubkey slot := by
  have haccepted : ∀ {lba : Nat} {hdr : AppHeader} {payload : List UInt8},
      appSlotLba slot = some lba →
      (AppAccepted key pubkey slot (disk lba) hdr (disk.bytes (lba + 1) hdr.payloadLen) payload ↔
        AppAccepted key pubkey slot (other lba) hdr (other.bytes (lba + 1) hdr.payloadLen) payload) := by
    intro lba hdr payload hlba
    rw [same lba (appOwns_header hlba)]
    by_cases hparse : parseAppHeader (other lba).val = some hdr
    · have hfits := (parseAppHeader_fits hparse).2
      have hbytes : disk.bytes (lba + 1) hdr.payloadLen = other.bytes (lba + 1) hdr.payloadLen := by
        refine Disk.bytes_congr fun sector hlow hhigh => same sector ?_
        have hcount : (hdr.payloadLen + 511) / 512 ≤ 511 := by
          unfold appPayloadCap appSlotSectors sectorSize at hfits
          omega
        exact appOwns_payload hlba hcount ⟨hlow, hhigh⟩
      rw [hbytes]
    · exact ⟨fun h => absurd h.parsed hparse, fun h => absurd h.parsed hparse⟩
  apply Option.ext
  rintro ⟨entry, payload⟩
  rw [appOnDisk_eq_some_iff, appOnDisk_eq_some_iff]
  constructor
  · rintro ⟨lba, hdr, hlba, hok, hentry⟩
    exact ⟨lba, hdr, hlba, (haccepted hlba).mp hok, hentry⟩
  · rintro ⟨lba, hdr, hlba, hok, hentry⟩
    exact ⟨lba, hdr, hlba, (haccepted hlba).mpr hok, hentry⟩

/-- An entry names the slot it was loaded from. -/
theorem appOnDisk_slot
    (h : appOnDisk disk key pubkey slot = some (entry, payload)) : entry.slot = slot := by
  obtain ⟨lba, hdr, -, hok, rfl⟩ := appOnDisk_eq_some_iff.mp h
  exact hok.own

theorem appOnDisk_payload
    (h : appOnDisk disk key pubkey slot = some (entry, payload)) :
    payload.length = entry.payloadLen ∧ sha256 payload = entry.payloadSha := by
  obtain ⟨lba, hdr, -, hok, rfl⟩ := appOnDisk_eq_some_iff.mp h
  refine ⟨?_, hok.digest⟩
  rw [← hok.plain, ChaCha20.length_xorStream, Disk.length_bytes]
  rfl

theorem parseAppHeader_zeros : parseAppHeader (Bytes.zeros 512).val = none := by
  decide +kernel

/-- A cleared header is not accepted. -/
theorem appOnDisk_cleared (located : appSlotLba slot = some lba)
    (cleared : disk lba = Bytes.zeros 512) : appOnDisk disk key pubkey slot = none := by
  unfold appOnDisk
  rw [located]
  dsimp only
  rw [cleared, openApp, parseAppHeader_zeros]

/-! ### Loads -/

theorem appSeen_succeed (reads : w.ReadsSucceed) (slot : UInt8) (d : Dev) :
    appSeen w key pubkey slot d = appOnDisk d.disk key pubkey slot := by
  unfold appSeen appOnDisk
  cases appSlotLba slot with
  | none => rfl
  | some =>
      dsimp only
      rw [brSector_honest reads.1, if_pos (reads.2 _ _)]
      dsimp only
      congr 1
      funext len
      exact readChunks_succeed reads _ len _

/-- The applications that verify on a disk, in the order of their slots. -/
def appsOnDisk (disk : Disk) (key pubkey : Bytes 32) : List AppEntry :=
  ([0, 1, 2, 3, 4, 5, 6, 7] : List UInt8).filterMap fun slot =>
    (appOnDisk disk key pubkey slot).map (·.1)

theorem loadAppSlots_succeed (reads : w.ReadsSucceed) (slots : List UInt8) (out : Buffer) (d : Dev) :
    (loadAppSlots w key pubkey slots out d).1 =
      slots.filterMap fun slot => (appOnDisk d.disk key pubkey slot).map (·.1) := by
  induction slots generalizing out d with
  | nil => rfl
  | cons slot _ ih =>
      obtain ⟨out', after, honly, hload, -⟩ := validateAndLoadApp_eq w key slot pubkey out d
      rw [loadAppSlots, hload]
      dsimp only
      rw [ih, appSeen_succeed reads, honly.disk, List.filterMap_cons]
      cases appOnDisk d.disk key pubkey slot with
      | none => rfl
      | some => rfl

theorem loadApps_succeed (reads : w.ReadsSucceed) (st : State) (d : Dev) :
    (loadApps w st d).1.apps = appsOnDisk d.disk st.volKey st.pubkey := by
  unfold loadApps appsOnDisk
  rw [← loadAppSlots_succeed reads _ st.workspace d]

/-- The slot numbers are the ones a mount loads. -/
theorem mem_appSlots {slot : UInt8} (h : slot.toNat < appSlots) :
    slot ∈ ([0, 1, 2, 3, 4, 5, 6, 7] : List UInt8) := by
  unfold appSlots at h
  rw [← UInt8.ofNat_toNat (x := slot)]
  generalize slot.toNat = number at h
  interval_cases number <;> decide

theorem mem_appsOnDisk :
    entry ∈ appsOnDisk disk key pubkey ↔
      ∃ payload, appOnDisk disk key pubkey entry.slot = some (entry, payload) := by
  unfold appsOnDisk
  rw [List.mem_filterMap]
  constructor
  · rintro ⟨slot, -, hfound⟩
    rw [Option.map_eq_some_iff] at hfound
    obtain ⟨⟨found, payload⟩, hfound, rfl⟩ := hfound
    exact ⟨payload, by rw [appOnDisk_slot hfound]; exact hfound⟩
  · rintro ⟨payload, hfound⟩
    refine ⟨entry.slot, ?_, by rw [hfound]; rfl⟩
    obtain ⟨lba, hdr, hlba, -⟩ := appOnDisk_eq_some_iff.mp hfound
    exact mem_appSlots (appSlotLba_lt hlba)

end Redoubt.Storage
