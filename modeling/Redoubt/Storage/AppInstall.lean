import Redoubt.Storage.AppSlots
import Redoubt.Storage.UpdateFlow

/-!
# Installing and removing applications

An installation is a fixed list of sector writes: the header is cleared, the encrypted
payload follows, and the new header comes last.  A removal clears headers.  One lemma
for each request says which part of its list reached the disk and what the service
remembers afterwards.
-/

namespace Redoubt.Storage

open Redoubt.Foundation Redoubt.Crypto

/-! ### A package in a slot -/

/-- What an entry says about its slot.  Bytes behind the name do not count. -/
structure AppView where
  slot : UInt8
  label : List UInt8
  payloadLen : Nat
  version : UInt64
  payloadSha : Bytes 32
  signature : Bytes 64
  deriving DecidableEq

def AppEntry.view (entry : AppEntry) : AppView :=
  { slot := entry.slot
    label := entry.label
    payloadLen := entry.payloadLen
    version := entry.version
    payloadSha := entry.payloadSha
    signature := entry.signature }

/-- The checks every stored package has passed. -/
structure AppAdmissible (pubkey : Bytes 32) (pkg : AppPackage) : Prop where
  named : appNameValid pkg.label = true
  nonempty : 0 < pkg.payload.length
  fits : pkg.payload.length ≤ appStageCap
  digest : sha256 pkg.payload = pkg.payloadSha
  signed : Ed25519.accepts pubkey
    (appSigningMessage pkg.label pkg.version pkg.payload.length pkg.payloadSha).val pkg.signature = true

section Stored

variable (key : Bytes 32) (slot : UInt8) (pkg : AppPackage)

def storedCiphertext : List UInt8 :=
  ChaCha20.xorStream key 0 (appNonce slot pkg.version) pkg.payload

def storedBody : List Sector :=
  toSectors ((pkg.payload.length + 511) / 512) (storedCiphertext key slot pkg)

/-- Header with its tag. -/
def storedHeader : Sector :=
  let hdr := (writeAppHeader slot pkg.label pkg.version pkg.payload pkg.signature).getD (Bytes.zeros 512)
  hdr.splice 160 (appHeaderMac key hdr (storedCiphertext key slot pkg)) appTag_inside

/-- The sector writes of an installation. -/
def installWrites (lba : Nat) : List (Nat × Sector) :=
  (lba, Bytes.zeros 512) :: (numbered (lba + 1) (storedBody key slot pkg) ++
    [(lba, storedHeader key slot pkg)])

/-- The entry of a stored package. -/
def storedView : AppView :=
  { slot
    label := pkg.label
    payloadLen := pkg.payload.length
    version := pkg.version
    payloadSha := pkg.payloadSha
    signature := pkg.signature }

end Stored

theorem AppMeta.length_label (app : AppMeta) : app.label.length = app.nameLen :=
  Bytes.length_val _

theorem AppMeta.label_eq (app : AppMeta) : app.label = app.name.val.take app.nameLen := rfl

theorem appNameValid_ne_nil {name : List UInt8} (h : appNameValid name = true) : name ≠ [] := by
  rintro rfl
  cases h

section RoundTrip

variable {key pubkey : Bytes 32} {slot : UInt8} {pkg : AppPackage} {lba : Nat}

theorem AppAdmissible.fits_slot (h : AppAdmissible pubkey pkg) :
    pkg.payload.length ≤ appPayloadCap :=
  h.fits.trans (by decide)

theorem AppAdmissible.payload_sectors (h : AppAdmissible pubkey pkg) :
    (pkg.payload.length + 511) / 512 ≤ 511 := by
  have hfits := h.fits_slot
  unfold appPayloadCap appSlotSectors sectorSize at hfits
  omega

/-- The header of an admissible package is written. -/
theorem AppAdmissible.header (h : AppAdmissible pubkey pkg) (located : appSlotLba slot = some lba) :
    ∃ hdr, writeAppHeader slot pkg.label pkg.version pkg.payload pkg.signature = some hdr := by
  unfold writeAppHeader
  have hname := appNameValid_ne_nil h.named
  have hslot := appSlotLba_lt located
  have hlen := pkg.toAppMeta.length_label
  have hfits := pkg.nameFits
  have hroom := h.fits_slot
  rw [dif_neg]
  · exact ⟨_, rfl⟩
  · unfold appNameMax
    rintro (hbad | hbad | hbad | hbad)
    · omega
    · exact hname hbad
    · omega
    · omega

/-- A written header parses to what was written, whatever tag is put into it. -/
theorem parseAppHeader_sealed {hdr : Sector} (mac : Bytes 32) (nonempty : 0 < pkg.payload.length)
    (written : writeAppHeader slot pkg.label pkg.version pkg.payload pkg.signature = some hdr) :
    ∃ parsed, parseAppHeader (hdr.splice 160 mac).val = some parsed ∧
      (appEntryFromHeader parsed).view =
        { storedView slot pkg with payloadSha := sha256 pkg.payload } := by
  obtain ⟨named, hparsed⟩ := parseAppHeader_write written nonempty
  rw [parseAppHeader_front (Bytes.slice_splice_before _ _ (by decide)), hparsed]
  refine ⟨_, rfl, ?_⟩
  simp only [AppEntry.view, appEntryFromHeader, storedView, AppView.mk.injEq, true_and, and_true]
  rw [AppMeta.label]
  dsimp only
  rw [Bytes.slice_splice_self]
  rfl

/-- A stored package is accepted, with its own payload. -/
theorem appOnDisk_stored {disk : Disk} (located : appSlotLba slot = some lba)
    (admissible : AppAdmissible pubkey pkg) (header : disk lba = storedHeader key slot pkg)
    (body : disk.sectors (lba + 1) ((pkg.payload.length + 511) / 512) = storedBody key slot pkg) :
    ∃ entry, appOnDisk disk key pubkey slot = some (entry, pkg.payload) ∧
      entry.view = storedView slot pkg := by
  obtain ⟨hdr, hwritten⟩ := admissible.header located
  have hheader : storedHeader key slot pkg =
      hdr.splice 160 (appHeaderMac key hdr (storedCiphertext key slot pkg)) := by
    unfold storedHeader
    rw [hwritten]
    rfl
  obtain ⟨parsed, hparsed, hview⟩ := parseAppHeader_sealed
    (appHeaderMac key hdr (storedCiphertext key slot pkg)) admissible.nonempty hwritten
  rw [admissible.digest] at hview
  have hslot : parsed.slot = slot := congrArg AppView.slot hview
  have hlabel : parsed.label = pkg.label := congrArg AppView.label hview
  have hlen : parsed.payloadLen = pkg.payload.length := congrArg AppView.payloadLen hview
  have hversion : parsed.version = pkg.version := congrArg AppView.version hview
  have hsha : parsed.payloadSha = pkg.payloadSha := congrArg AppView.payloadSha hview
  have hsig : parsed.signature = pkg.signature := congrArg AppView.signature hview
  have hct : (storedCiphertext key slot pkg).length = pkg.payload.length :=
    ChaCha20.length_xorStream ..
  have hbytes : disk.bytes (lba + 1) pkg.payload.length = storedCiphertext key slot pkg := by
    have hread := @bytes_of_sectors disk (lba + 1) _ 0 pkg.payload.length _ body (by omega) (by omega)
    rwa [Nat.add_zero, Nat.mul_zero, List.drop_zero, List.take_of_length_le hct.le] at hread
  refine ⟨appEntryFromHeader parsed, appOnDisk_eq_some_iff.mpr ⟨lba, parsed, located, ?_, rfl⟩, hview⟩
  rw [header, hheader, hlen, hbytes]
  exact
    { parsed := hparsed
      own := hslot
      named := by rw [hlabel]; exact admissible.named
      fits := by rw [hlen]; exact admissible.fits.trans (by decide)
      tag := by
        unfold appHeaderMacOk
        rw [Bytes.slice_splice_self, constantTimeEq_bytes]
        unfold appHeaderMac
        rw [Bytes.slice_splice_before _ _ (by decide)]
      plain := by
        rw [hversion]
        exact ChaCha20.xorStream_xorStream ..
      digest := by rw [hsha]; exact admissible.digest
      signed := by
        rw [hlabel, hversion, hlen, hsha, hsig]
        exact admissible.signed }

end RoundTrip

/-! ### The writes of an installation -/

/-- The sectors of a part of the workspace, from a sector of the disk on. -/
def bufferWrites (base : Nat) (buf : Buffer) (off len : Nat) : List (Nat × Sector) :=
  numbered (base + off / 512) (toSectors (len / 512) (buf.read off len))

theorem bufferWrites_add (base : Nat) (buf : Buffer) {off first : Nat} (second : Nat)
    (aligned : off % 512 = 0) (whole : first % 512 = 0) :
    bufferWrites base buf off (first + second) =
      bufferWrites base buf off first ++ bufferWrites base buf (off + first) second := by
  have hcount : (first + second) / 512 = first / 512 + second / 512 := by omega
  have hfirst : 512 * (first / 512) = first := by omega
  have hnext : base + (off + first) / 512 = base + off / 512 + first / 512 := by omega
  unfold bufferWrites
  rw [hcount, toSectors_add, numbered_append, length_toSectors, hnext, hfirst, Buffer.read_append,
    List.drop_left' Buffer.length_read, ← toSectors_take _ _ (by rw [hfirst]),
    List.take_left' Buffer.length_read]

theorem chunkCount_step {total wrote : Nat} (more : wrote < total) :
    chunkCount (total - wrote) =
      chunkCount (total - (wrote + min (total - wrote) (chunkSectors * sectorSize))) + 1 := by
  unfold chunkCount chunkSectors sectorSize
  omega

/-- The next write calls succeed. -/
def World.WritesOk (w : World) (first count : Nat) : Prop :=
  ∀ index < count, w.write (first + index) = none

theorem World.writesOk_zero (w : World) (first : Nat) : w.WritesOk first 0 :=
  fun _ hindex => absurd hindex (Nat.not_lt_zero _)

theorem World.writesOk_one {w : World} {first : Nat} : w.WritesOk first 1 ↔ w.write first = none := by
  constructor
  · intro h
    exact h 0 Nat.one_pos
  · intro h index hindex
    have hzero : index = 0 := by omega
    rw [hzero]
    exact h

theorem World.writesOk_add {w : World} {first count more : Nat} :
    w.WritesOk first (count + more) ↔ w.WritesOk first count ∧ w.WritesOk (first + count) more := by
  constructor
  · intro h
    refine ⟨fun index hindex => h index (by omega), fun index hindex => ?_⟩
    rw [Nat.add_assoc]
    exact h _ (by omega)
  · rintro ⟨hfront, hrest⟩ index hindex
    by_cases hlow : index < count
    · exact hfront index hlow
    · have hshift : first + index = first + count + (index - count) := by omega
      rw [hshift]
      exact hrest _ (by omega)

/-- Writes that stopped in a failing call: not all of them are on the disk, unless the last
call was reported as failed after its sectors had been written. -/
structure World.Stopped (w : World) (count total : Nat) : Prop where
  inside : count ≤ total
  kept : w.FailuresKeep → count < total

theorem World.Stopped.add {w : World} {count total : Nat} (h : w.Stopped count total) (front : Nat) :
    w.Stopped (front + count) (front + total) :=
  ⟨Nat.add_le_add_left h.inside _, fun keeps => Nat.add_lt_add_left (h.kept keeps) _⟩

theorem World.Stopped.append {w : World} {count total : Nat} (h : w.Stopped count total) (rest : Nat) :
    w.Stopped count (total + rest) :=
  ⟨Nat.le_add_right_of_le h.inside, fun keeps => Nat.lt_add_right _ (h.kept keeps)⟩

theorem World.stopped_of_fault {w : World} {call total : Nat} {fault : WriteFault}
    (fails : w.write call = some fault) (nonempty : 0 < total) : w.Stopped (fault.landed total) total :=
  ⟨fault.landed_le total, fun keeps => keeps.landed_lt fails nonempty⟩

/-- The payload loop writes all sectors, or stops in the call that fails. -/
theorem writeFrom_cases (w : World) (base total : Nat) (buf : Buffer) (fuel wrote : Nat) (d : Dev)
    (whole : total % 512 = 0) (aligned : ChunkStart total wrote) (enough : total - wrote ≤ fuel) :
    (w.WritesOk d.writes (chunkCount (total - wrote)) ∧
        ∃ after, writeFrom w base total buf fuel wrote d = (true, after) ∧
          d.Made (bufferWrites base buf wrote (total - wrote)) after ∧
          after.writes = d.writes + chunkCount (total - wrote)) ∨
      (¬ w.WritesOk d.writes (chunkCount (total - wrote)) ∧
        ∃ after count, writeFrom w base total buf fuel wrote d = (false, after) ∧
          d.Made ((bufferWrites base buf wrote (total - wrote)).take count) after ∧
          w.Stopped count ((total - wrote) / 512)) := by
  induction fuel generalizing wrote d with
  | zero =>
      have hzero : total - wrote = 0 := by omega
      rw [hzero]
      exact .inl ⟨w.writesOk_zero _, d, rfl, .of_onlyRead .refl, rfl⟩
  | succ _ ih =>
      rw [writeFrom]
      by_cases hmore : wrote < total
      · rw [if_pos hmore]
        dsimp only
        have hchunks := chunkCount_step hmore
        have hnext := aligned.next
        have hstart : wrote % 4096 = 0 := aligned.resolve_right (by omega)
        generalize htake : min (total - wrote) (chunkSectors * sectorSize) = take at hchunks hnext ⊢
        unfold chunkSectors at htake
        unfold sectorSize at htake ⊢
        have hleft : total - wrote = take + (total - (wrote + take)) := by omega
        have hplan := bufferWrites_add base buf (total - (wrote + take))
          (by omega : wrote % 512 = 0) (by omega : take % 512 = 0)
        rw [← hleft] at hplan
        rw [hchunks, Nat.add_comm _ 1, hplan, World.writesOk_add, World.writesOk_one]
        have hlen : (bufferWrites base buf wrote take).length = take / 512 := by simp [bufferWrites]
        have hpart : (total - wrote) / 512 = take / 512 + (total - (wrote + take)) / 512 := by omega
        obtain ⟨hok, after, hbw, hmade, hwrites⟩ | ⟨fault, after, hfault, hbw, hmade⟩ :=
          bw_cases w d (base + wrote / 512) (toSectors (take / 512) (buf.read wrote take))
        · rw [hbw]
          dsimp only
          have hrest := ih (wrote + take) after hnext (by omega)
          rw [hwrites] at hrest
          obtain ⟨hcalls, last, hrun, hlast, hcalled⟩ | ⟨hcalls, last, count, hrun, hlast, hstop⟩ :=
            hrest
          · exact .inl ⟨⟨hok, hcalls⟩, last, hrun, hmade.trans hlast, by omega⟩
          · refine .inr ⟨fun hall => hcalls hall.2, last, take / 512 + count, hrun, ?_, ?_⟩
            · rw [← hlen, List.take_length_add_append]
              exact hmade.trans hlast
            · rw [hpart]
              exact hstop.add _
        · rw [hbw]
          rw [length_toSectors] at hmade
          have hstop := World.stopped_of_fault hfault (by omega : 0 < take / 512)
          refine .inr ⟨fun hall => ?_, after, fault.landed (take / 512), rfl, ?_, ?_⟩
          · rw [hfault] at hall
            cases hall.1
          · rw [List.take_append_of_le_length (hstop.inside.trans hlen.ge)]
            exact hmade
          · rw [hpart]
            exact hstop.append _
      · have hzero : total - wrote = 0 := by omega
        rw [if_neg hmore, hzero]
        exact .inl ⟨w.writesOk_zero _, d, rfl, .of_onlyRead .refl, rfl⟩

theorem padSector_append_zeros (bytes : List UInt8) (count : Nat) :
    padSector (bytes ++ List.replicate count 0) = padSector bytes := by
  apply Subtype.ext
  change (bytes ++ List.replicate count 0).take 512 ++
      List.replicate (512 - (bytes ++ List.replicate count 0).length) 0 =
    bytes.take 512 ++ List.replicate (512 - bytes.length) 0
  rw [List.take_append, List.take_replicate, List.length_append, List.length_replicate,
    List.append_assoc, ← List.replicate_add]
  congr 2
  omega

/-- Zeros behind a byte string are the zeros it is filled up with. -/
theorem toSectors_append_zeros (count : Nat) (bytes : List UInt8) (zeros : Nat) :
    toSectors count (bytes ++ List.replicate zeros 0) = toSectors count bytes := by
  apply List.map_congr_left
  intro index _
  rw [List.drop_append, List.drop_replicate, padSector_append_zeros]

/-- The entry the service lists for a stored package. -/
def storedEntry (slot : UInt8) (pkg : AppPackage) : AppEntry :=
  { pkg with slot, payloadLen := pkg.payload.length, nameFits := pkg.nameInside }

theorem storedEntry_view (slot : UInt8) (pkg : AppPackage) :
    (storedEntry slot pkg).view = storedView slot pkg := rfl

/-- Number of write calls of an installation. -/
def installCalls (pkg : AppPackage) : Nat := chunkCount pkg.payload.length + 2

theorem length_installWrites (key : Bytes 32) (slot : UInt8) (pkg : AppPackage) (lba : Nat) :
    (installWrites key slot pkg lba).length = (pkg.payload.length + 511) / 512 + 2 := by
  simp [installWrites, storedBody]

section StoreApp

variable {w : World} {st : State} {d : Dev} {pkg : AppPackage} {slot : UInt8} {lba bytes : Nat}

/-- The workspace while a package is stored: plaintext moved down and padded, then
encrypted in place. -/
theorem storeApp_workspace (key : Bytes 32) {raw : Buffer} {padded : Nat}
    (holds : raw.read appPkgHeader pkg.payload.length = pkg.payload)
    (room : appPkgHeader + pkg.payload.length ≤ bytes)
    (hpadded : padded = (pkg.payload.length + 511) / 512 * 512) :
    let plain := (raw.write 0 (raw.read appPkgHeader (bytes - appPkgHeader))).write
      pkg.payload.length (List.replicate (padded - pkg.payload.length) 0)
    plain.read 0 pkg.payload.length = pkg.payload ∧ ∀ base,
      bufferWrites base (plain.write 0 (storedCiphertext key slot pkg)) 0 padded =
        numbered base (storedBody key slot pkg) := by
  dsimp only
  have hct : (storedCiphertext key slot pkg).length = pkg.payload.length :=
    ChaCha20.length_xorStream ..
  refine ⟨?_, fun base => ?_⟩
  · rw [Buffer.read_write_before (by omega), Buffer.read_write_self (by simp; omega),
      Buffer.take_read (by omega), holds]
  · have hsplit : padded = pkg.payload.length + (padded - pkg.payload.length) := by omega
    have hcount : padded / 512 = (pkg.payload.length + 511) / 512 := by omega
    unfold bufferWrites storedBody
    rw [hcount, Nat.zero_div, Nat.add_zero]
    conv_lhs => rw [hsplit]
    rw [Buffer.read_append, Buffer.read_write_self hct.ge, List.take_of_length_le hct.le,
      Nat.zero_add, Buffer.read_write_after (by omega), Buffer.read_write_self (by simp),
      List.take_of_length_le (by simp), toSectors_append_zeros]

/-- Storing a package: all of its writes and the new entry, or a first part of the writes
and nothing but a changed workspace. -/
theorem storeApp_cases (located : appSlotLba slot = some lba)
    (admissible : AppAdmissible st.pubkey pkg)
    (holds : st.workspace.read appPkgHeader pkg.payload.length = pkg.payload)
    (room : appPkgHeader + pkg.payload.length ≤ bytes) : ∃ out,
    (w.WritesOk d.writes (installCalls pkg) ∧ ∃ written,
        d.Made (installWrites st.volKey slot pkg lba) written ∧
        let stored :=
          { st with
            workspace := out
            apps := st.apps.filter (·.slot ≠ slot) ++ [storedEntry slot pkg]
            cachedApp := none }
        let logged := auditRaw w stored ((ascii "app-install " ++ pkg.label).take 38) written
        storeApp w st pkg slot lba bytes d =
          (ascii "ok app " ++ pkg.label ++ ascii " v" ++ pushNum pkg.version, logged.1, logged.2)) ∨
      (¬ w.WritesOk d.writes (installCalls pkg) ∧ ∃ after count,
        d.Made ((installWrites st.volKey slot pkg lba).take count) after ∧
        w.Stopped count (installWrites st.volKey slot pkg lba).length ∧ (count = 0 ↔ w.Lost d.writes) ∧
        storeApp w st pkg slot lba bytes d =
          (ascii "err: app io", { st with workspace := out }, after)) := by
  obtain ⟨hdr, hheader⟩ := admissible.header located
  generalize hpadded : (pkg.payload.length + sectorSize - 1) / sectorSize * sectorSize = padded
  have hsectors : padded = (pkg.payload.length + 511) / 512 * 512 := by
    unfold sectorSize at hpadded
    omega
  obtain ⟨hplain, hbody⟩ := @storeApp_workspace pkg slot bytes st.volKey st.workspace padded holds room
    hsectors
  unfold storeApp
  dsimp only at hplain hbody ⊢
  rw [hpadded, hplain, hheader]
  dsimp only
  have hct : ChaCha20.xorStream st.volKey 0 (appNonce slot pkg.version) pkg.payload =
      storedCiphertext st.volKey slot pkg := rfl
  have hsealed : hdr.splice 160 (appHeaderMac st.volKey hdr (storedCiphertext st.volKey slot pkg)) =
      storedHeader st.volKey slot pkg := by
    unfold storedHeader
    rw [hheader]
    rfl
  rw [hct, hsealed]
  generalize (Buffer.write _ 0 (storedCiphertext st.volKey slot pkg)) = raw at hbody ⊢
  have hbodyLen : (storedBody st.volKey slot pkg).length = padded / 512 := by
    rw [storedBody, length_toSectors]
    omega
  have hchunks : chunkCount padded = chunkCount pkg.payload.length := by
    unfold chunkCount
    omega
  have hcalls : installCalls pkg = 1 + (chunkCount padded + 1) := by
    rw [hchunks, installCalls]
    omega
  refine ⟨raw, ?_⟩
  have htotal : (pkg.payload.length + 511) / 512 + 2 = 1 + padded / 512 + 1 := by omega
  rw [hcalls, World.writesOk_add, World.writesOk_add, World.writesOk_one, World.writesOk_one,
    length_installWrites, htotal]
  unfold installWrites
  obtain ⟨hok, cleared, hbw, hmade, hwrites⟩ | ⟨fault, after, hfault, hbw, hmade⟩ :=
    bw_cases w d lba [Bytes.zeros 512]
  · rw [hbw]
    dsimp only
    have hfirst : ∀ count, 1 + count = 0 ↔ w.Lost d.writes := fun count =>
      iff_of_false (by omega) (World.not_lost_of_none hok)
    have hloop := writeFrom_cases w (lba + 1) padded raw padded 0 cleared (by omega) (.inl rfl) (by omega)
    rw [Nat.sub_zero, hbody, hwrites] at hloop
    obtain ⟨hcopied, copied, hrun, hcopy, hcalled⟩ | ⟨hstopped, after, count, hrun, hcopy, hstop⟩ :=
      hloop
    · rw [hrun]
      dsimp only
      obtain ⟨hlast, written, hbw', hmade', -⟩ | ⟨fault, after, hfault, hbw', hmade'⟩ :=
        bw_cases w copied lba [storedHeader st.volKey slot pkg]
      · rw [hbw']
        rw [hcalled] at hlast
        exact .inl ⟨⟨hok, hcopied, hlast⟩, written, (hmade.trans hcopy).trans hmade', rfl⟩
      · rw [hbw']
        rw [List.length_singleton] at hmade'
        have hstop := (World.stopped_of_fault hfault Nat.one_pos).add (1 + padded / 512)
        rw [Nat.add_assoc 1] at hstop
        rw [hcalled] at hfault
        refine .inr ⟨fun hall => ?_, after, 1 + (padded / 512 + fault.landed 1), ?_, hstop, hfirst _, rfl⟩
        · rw [hfault] at hall
          cases hall.2.2
        · rw [Nat.add_comm 1, List.take_succ_cons, ← hbodyLen, ← @length_numbered _ (lba + 1),
            List.take_length_add_append]
          exact (hmade.trans hcopy).trans hmade'
    · rw [hrun]
      refine .inr ⟨fun hall => hstopped hall.2.1, after, 1 + count, ?_, (hstop.add 1).append 1,
        hfirst _, rfl⟩
      have hlen := (length_numbered (lba + 1) (storedBody st.volKey slot pkg)).trans hbodyLen
      rw [Nat.add_comm 1, List.take_succ_cons, List.take_append_of_le_length (hstop.inside.trans hlen.ge)]
      exact hmade.trans hcopy
  · rw [hbw]
    rw [List.length_singleton] at hmade
    refine .inr ⟨fun hall => ?_, after, fault.landed 1, ?_,
      ((World.stopped_of_fault hfault Nat.one_pos).append _).append _, WriteFault.landed_one hfault, rfl⟩
    · rw [hfault] at hall
      cases hall.1
    · rw [← List.singleton_append, List.take_append_of_le_length (fault.landed_le 1)]
      exact hmade

end StoreApp

/-! ### Installation requests -/

/-- What a request takes from the staging area, the slot it chooses, and the device and
the workspace after reading. -/
structure Admission where
  pkg : AppPackage
  slot : UInt8
  lba : Nat
  bytes : Nat
  out : Buffer
  read : Dev

/-- The checks of a package that was read into a buffer. -/
def admitFrom (st : State) (bytes : Nat) (out : Buffer) (read : Dev) : Option Admission :=
  match parseAppStagePackage (out.read 0 bytes) with
  | none => none
  | some pkg =>
      let signed := appSigningMessage pkg.label pkg.version pkg.payload.length pkg.payloadSha
      if !appNameValid pkg.label ∨ sha256 pkg.payload ≠ pkg.payloadSha then none
      else if !Ed25519.accepts st.pubkey signed.val pkg.signature then none
      else if (bestApp st pkg.label).any fun old => pkg.version ≤ old.version then none
      else
        match targetAppSlot st pkg.label with
        | none => none
        | some slot => (appSlotLba slot).map fun lba => { pkg, slot, lba, bytes, out, read }

/-- The package that a request goes on to store. -/
def admission (w : World) (st : State) (d : Dev) : Option Admission :=
  if !st.block then none
  else if st.recovery then none
  else
    match brSector w d stagingLba with
    | (none, _) => none
    | (some head, d) =>
        let packageLen := (head.slice 12 4 packageLen_inside).toU32.toNat
        if head.slice 0 8 magic_inside ≠ appPkgMagic ∨
          head.byte 8 version_inside ≠ appFormatVersion then none
        else if packageLen = 0 ∨ appStageCap < packageLen then none
        else
          let bytes := appPkgHeader + packageLen
          let total := (bytes + sectorSize - 1) / sectorSize * sectorSize
          match readInto w stagingLba total total 0 st.workspace d with
          | (false, _, _) => none
          | (true, out, d) => admitFrom st bytes out d

/-- Everything that holds of an admitted package. -/
structure Admitted (st : State) (a : Admission) : Prop where
  parsed : parseAppStagePackage (a.out.read 0 a.bytes) = some a.pkg
  admissible : AppAdmissible st.pubkey a.pkg
  newer : ∀ old, bestApp st a.pkg.label = some old → old.version < a.pkg.version
  target : targetAppSlot st a.pkg.label = some a.slot
  located : appSlotLba a.slot = some a.lba
  holds : a.out.read appPkgHeader a.pkg.payload.length = a.pkg.payload
  room : appPkgHeader + a.pkg.payload.length ≤ a.bytes

/-- The payload of a package lies behind its header. -/
theorem parseAppStagePackage_spec {buf : List UInt8} {pkg : AppPackage}
    (h : parseAppStagePackage buf = some pkg) :
    appPkgHeader + pkg.payload.length ≤ buf.length ∧
      pkg.payload = (buf.drop appPkgHeader).take pkg.payload.length ∧
      0 < pkg.payload.length ∧ pkg.payload.length ≤ appStageCap := by
  unfold parseAppStagePackage at h
  split_ifs at h with hlong
  dsimp only at h
  split_ifs at h with _ hname hend
  cases h
  dsimp only
  rw [Bytes.length_val, cut_val]
  refine ⟨by omega, rfl, by omega, by omega⟩

section Install

variable {w : World} {st : State} {d : Dev}

theorem readInto_onlyRead (base total fuel done : Nat) (out : Buffer) (d : Dev) :
    d.OnlyRead (readInto w base total fuel done out d).2.2 := by
  induction fuel generalizing done out d with
  | zero => exact .refl
  | succ _ ih =>
      rw [readInto]
      split
      · dsimp only
        have hread := br_onlyRead w d (base + done / sectorSize)
          (min (total - done) (chunkSectors * sectorSize) / sectorSize)
        generalize br w d (base + done / sectorSize)
          (min (total - done) (chunkSectors * sectorSize) / sectorSize) = result at hread ⊢
        obtain ⟨_ | data, after⟩ := result
        · exact hread
        · exact hread.trans (ih _ _ after)
      · exact .refl

/-- The payload of a package in a buffer. -/
theorem read_payload {out : Buffer} {bytes : Nat} {pkg : AppPackage}
    (parsed : parseAppStagePackage (out.read 0 bytes) = some pkg) :
    out.read appPkgHeader pkg.payload.length = pkg.payload ∧
      appPkgHeader + pkg.payload.length ≤ bytes := by
  obtain ⟨hroom, hpayload, -⟩ := parseAppStagePackage_spec parsed
  rw [Buffer.length_read] at hroom
  have hsplit : bytes = appPkgHeader + (bytes - appPkgHeader) := by omega
  refine ⟨?_, hroom⟩
  conv_rhs => rw [hpayload, hsplit, Buffer.read_append]
  rw [List.drop_left' Buffer.length_read, Nat.zero_add, Buffer.take_read (by omega)]

/-- A package is admitted exactly when it passes all checks. -/
theorem admitFrom_eq_some_iff {bytes : Nat} {out : Buffer} {read : Dev} {a : Admission} :
    admitFrom st bytes out read = some a ↔ Admitted st a ∧ a.bytes = bytes ∧ a.out = out ∧
      a.read = read := by
  unfold admitFrom
  constructor
  · intro h
    cases hparse : parseAppStagePackage (out.read 0 bytes) with
    | none =>
        rw [hparse] at h
        cases h
    | some pkg =>
        rw [hparse] at h
        dsimp only at h
        split_ifs at h with hbad hforged hstale
        push Not at hbad
        cases htarget : targetAppSlot st pkg.label with
        | none =>
            rw [htarget] at h
            cases h
        | some =>
            rw [htarget] at h
            obtain ⟨lba, hlba, rfl⟩ := Option.map_eq_some_iff.mp h
            obtain ⟨-, -, hnonempty, hfits⟩ := parseAppStagePackage_spec hparse
            obtain ⟨hholds, hroom⟩ := read_payload hparse
            refine ⟨?_, rfl, rfl, rfl⟩
            exact
              { parsed := hparse
                admissible :=
                  { named := by simpa using hbad.1
                    nonempty := hnonempty
                    fits := hfits
                    digest := hbad.2
                    signed := by simpa using hforged }
                newer := by
                  intro old hold
                  dsimp only at hold
                  rw [hold] at hstale
                  simpa using hstale
                target := htarget
                located := hlba
                holds := hholds
                room := hroom }
  · rintro ⟨h, rfl, rfl, rfl⟩
    have hfresh : ((bestApp st a.pkg.label).any fun old => decide (a.pkg.version ≤ old.version)) =
        false := by
      cases hbest : bestApp st a.pkg.label with
      | none => rfl
      | some old => simpa using h.newer old hbest
    rw [h.parsed]
    dsimp only
    rw [if_neg (by simp [h.admissible.named, h.admissible.digest]),
      if_neg (by simp [h.admissible.signed]), if_neg (by simp [hfresh]), h.target]
    dsimp only
    rw [h.located]
    rfl

/-- The checks of a package in the workspace: it is refused, or it is stored. -/
theorem admitApp_cases (bytes : Nat) :
    (admitFrom st bytes st.workspace d = none ∧ ∃ reply, admitApp w st bytes d = (reply, st, d) ∧
        IsError reply) ∨
      ∃ a, admitFrom st bytes st.workspace d = some a ∧ Admitted st a ∧ a.read = d ∧
        a.out = st.workspace ∧
        admitApp w st bytes d = storeApp w st a.pkg a.slot a.lba a.bytes d := by
  have hpassed := @admitFrom_eq_some_iff st bytes st.workspace d
  unfold admitApp
  unfold admitFrom at hpassed ⊢
  cases hparse : parseAppStagePackage (st.workspace.read 0 bytes) with
  | none => exact .inl ⟨rfl, _, rfl, by decide⟩
  | some pkg =>
      rw [hparse] at hpassed
      dsimp only at hpassed ⊢
      by_cases hbad : (!appNameValid pkg.label) = true ∨ sha256 pkg.payload ≠ pkg.payloadSha
      · rw [if_pos hbad, if_pos hbad]
        exact .inl ⟨rfl, _, rfl, by decide⟩
      rw [if_neg hbad] at hpassed ⊢
      rw [if_neg hbad]
      by_cases hforged : (!Ed25519.accepts st.pubkey (appSigningMessage pkg.label pkg.version
          pkg.payload.length pkg.payloadSha).val pkg.signature) = true
      · rw [if_pos hforged, if_pos hforged]
        exact .inl ⟨rfl, _, rfl, by decide⟩
      rw [if_neg hforged] at hpassed ⊢
      rw [if_neg hforged]
      by_cases hstale : ((bestApp st pkg.label).any fun old => decide (pkg.version ≤ old.version)) = true
      · rw [if_pos hstale, if_pos hstale]
        exact .inl ⟨rfl, _, rfl, by decide⟩
      rw [if_neg hstale] at hpassed ⊢
      rw [if_neg hstale]
      cases htarget : targetAppSlot st pkg.label with
      | none => exact .inl ⟨rfl, _, rfl, by decide⟩
      | some slot =>
          rw [htarget] at hpassed
          dsimp only at hpassed ⊢
          cases hlba : appSlotLba slot with
          | none => exact .inl ⟨rfl, _, rfl, by decide⟩
          | some =>
              rw [hlba] at hpassed
              exact .inr ⟨_, rfl, (hpassed.mp rfl).1, rfl, rfl, rfl⟩

/-- An installation request reads only, and is refused or goes on to store a package. -/
theorem installApp_admission :
    (admission w st d = none ∧ ∃ reply out after,
        installApp w st d = (reply, { st with workspace := out }, after) ∧ d.OnlyRead after ∧
        IsError reply) ∨
      ∃ a, admission w st d = some a ∧ Admitted st a ∧ d.OnlyRead a.read ∧
        installApp w st d =
          storeApp w { st with workspace := a.out } a.pkg a.slot a.lba a.bytes a.read := by
  unfold installApp admission
  by_cases hblock : (!st.block) = true
  · rw [if_pos hblock, if_pos hblock]
    exact .inl ⟨rfl, _, st.workspace, d, rfl, .refl, by decide⟩
  rw [if_neg hblock, if_neg hblock]
  by_cases hrecovery : st.recovery = true
  · rw [if_pos hrecovery, if_pos hrecovery]
    exact .inl ⟨rfl, _, st.workspace, d, rfl, .refl, by decide⟩
  rw [if_neg hrecovery, if_neg hrecovery]
  have hhead := brSector_onlyRead w d stagingLba
  generalize brSector w d stagingLba = result at hhead ⊢
  obtain ⟨_ | head, after⟩ := result
  · exact .inl ⟨rfl, _, st.workspace, after, rfl, hhead, by decide⟩
  dsimp only at hhead ⊢
  by_cases hmagic : head.slice 0 8 ≠ appPkgMagic ∨ head.byte 8 ≠ appFormatVersion
  · rw [if_pos hmagic, if_pos hmagic]
    exact .inl ⟨rfl, _, st.workspace, after, rfl, hhead, by decide⟩
  rw [if_neg hmagic, if_neg hmagic]
  generalize (head.slice 12 4).toU32.toNat = packageLen
  by_cases hlen : packageLen = 0 ∨ appStageCap < packageLen
  · rw [if_pos hlen, if_pos hlen]
    exact .inl ⟨rfl, _, st.workspace, after, rfl, hhead, by decide⟩
  rw [if_neg hlen, if_neg hlen]
  generalize (appPkgHeader + packageLen + sectorSize - 1) / sectorSize * sectorSize = total
  have hread := @readInto_onlyRead w stagingLba total total 0 st.workspace after
  generalize readInto w stagingLba total total 0 st.workspace after = result at hread ⊢
  obtain ⟨_ | _, out, last⟩ := result
  · exact .inl ⟨rfl, _, out, last, rfl, hhead.trans hread, by decide⟩
  dsimp only at hread ⊢
  have honly := hhead.trans hread
  obtain ⟨hnone, reply, hreply, herror⟩ | ⟨a, hsome, hadmitted, rfl, hout, hstore⟩ :=
    @admitApp_cases w { st with workspace := out } last (appPkgHeader + packageLen)
  · exact .inl ⟨hnone, reply, out, last, hreply, honly, herror⟩
  · refine .inr ⟨a, hsome, ?_, honly, ?_⟩
    · exact ⟨hadmitted.parsed, hadmitted.admissible, hadmitted.newer, hadmitted.target,
        hadmitted.located, hadmitted.holds, hadmitted.room⟩
    · rw [hstore, hout]

theorem Admitted.of_admission {a : Admission} (h : admission w st d = some a) : Admitted st a := by
  obtain ⟨hnone, -⟩ | ⟨a', hsome, hadmitted, -⟩ := @installApp_admission w st d
  · rw [h] at hnone
    cases hnone
  · rw [h] at hsome
    cases hsome
    exact hadmitted

/-- The listed applications after a package was stored in a slot. -/
def storedApps (st : State) (slot : UInt8) (pkg : AppPackage) : List AppEntry :=
  st.apps.filter (·.slot ≠ slot) ++ [storedEntry slot pkg]

/-- The outcomes of an installation request: refused without a write, stopped by a failed
write with the list unchanged, or stored and listed. -/
theorem installApp_cases :
    (admission w st d = none ∧ ∃ reply out after,
        installApp w st d = (reply, { st with workspace := out }, after) ∧ d.OnlyRead after ∧
        IsError reply) ∨
      ∃ a out, admission w st d = some a ∧ Admitted st a ∧
        ((¬ w.WritesOk d.writes (installCalls a.pkg) ∧ ∃ after count,
            d.Made ((installWrites st.volKey a.slot a.pkg a.lba).take count) after ∧
            w.Stopped count (installWrites st.volKey a.slot a.pkg a.lba).length ∧
            (count = 0 ↔ w.Lost d.writes) ∧
            installApp w st d = (ascii "err: app io", { st with workspace := out }, after)) ∨
          (w.WritesOk d.writes (installCalls a.pkg) ∧ ∃ written,
            d.Made (installWrites st.volKey a.slot a.pkg a.lba) written ∧
            let stored :=
              { st with workspace := out, apps := storedApps st a.slot a.pkg, cachedApp := none }
            let logged := auditRaw w stored ((ascii "app-install " ++ a.pkg.label).take 38) written
            installApp w st d =
              (ascii "ok app " ++ a.pkg.label ++ ascii " v" ++ pushNum a.pkg.version, logged.1,
                logged.2))) := by
  obtain hrefused | ⟨a, hadmission, hadmitted, honly, hstore⟩ := @installApp_admission w st d
  · exact .inl hrefused
  · have hread := Dev.Made.of_onlyRead honly
    have hwrites : a.read.writes = d.writes := honly.writes
    obtain ⟨out, hdone | hfailed⟩ := @storeApp_cases w { st with workspace := a.out } a.read a.pkg a.slot
      a.lba a.bytes hadmitted.located hadmitted.admissible hadmitted.holds hadmitted.room
    · obtain ⟨hcalls, written, hmade, hresult⟩ := hdone
      rw [hwrites] at hcalls
      refine .inr ⟨a, out, hadmission, hadmitted, .inr ⟨hcalls, written, hread.trans hmade, ?_⟩⟩
      rw [hstore, hresult]
      rfl
    · obtain ⟨hcalls, after, count, hmade, hcount, hfirst, hresult⟩ := hfailed
      rw [hwrites] at hcalls hfirst
      exact .inr ⟨a, out, hadmission, hadmitted, .inl ⟨hcalls, after, count, hread.trans hmade, hcount,
        hfirst, hstore.trans hresult⟩⟩

/-! ### Removal requests -/

/-- The writes that clear the headers of these entries. -/
def headerClears (entries : List AppEntry) : List (Nat × Sector) :=
  entries.filterMap fun entry => (appSlotLba entry.slot).map fun lba => (lba, Bytes.zeros 512)

theorem clearHeaders_cases (entries : List AppEntry) (removed : Bool) (d : Dev) :
    (w.WritesOk d.writes (headerClears entries).length ∧ ∃ after, d.Made (headerClears entries) after ∧
        clearHeaders w entries removed d = (some (removed || !(headerClears entries).isEmpty), after)) ∨
      (¬ w.WritesOk d.writes (headerClears entries).length ∧ ∃ after count,
        d.Made ((headerClears entries).take count) after ∧ w.Stopped count (headerClears entries).length ∧
        (count = 0 ↔ w.Lost d.writes) ∧ clearHeaders w entries removed d = (none, after)) := by
  induction entries generalizing removed d with
  | nil =>
      refine .inl ⟨w.writesOk_zero _, d, .of_onlyRead .refl, ?_⟩
      rw [clearHeaders]
      simp [headerClears]
  | cons entry entries ih =>
      rw [clearHeaders]
      cases hlba : appSlotLba entry.slot with
      | none =>
          have hskip : headerClears (entry :: entries) = headerClears entries := by
            simp [headerClears, hlba]
          rw [hskip]
          exact ih removed d
      | some lba =>
          have hcons : headerClears (entry :: entries) =
              (lba, Bytes.zeros 512) :: headerClears entries := by
            simp [headerClears, hlba]
          rw [hcons, List.length_cons, Nat.add_comm, World.writesOk_add, World.writesOk_one]
          dsimp only
          obtain ⟨hok, cleared, hbw, hmade, hwrites⟩ | ⟨fault, after, hfault, hbw, hmade⟩ :=
            bw_cases w d lba [Bytes.zeros 512]
          · rw [hbw, ← hwrites]
            dsimp only
            obtain ⟨hcalls, last, hrest, hrun⟩ | ⟨hcalls, last, count, hrest, hstop, -, hrun⟩ :=
              ih true cleared
            · refine .inl ⟨⟨hok, hcalls⟩, last, hmade.trans hrest, ?_⟩
              rw [hrun]
              simp
            · refine .inr ⟨fun hall => hcalls hall.2, last, 1 + count, ?_, hstop.add 1, ?_, hrun⟩
              · rw [Nat.add_comm, List.take_succ_cons]
                exact hmade.trans hrest
              · exact iff_of_false (by omega) (World.not_lost_of_none hok)
          · rw [hbw]
            rw [List.length_singleton] at hmade
            refine .inr ⟨fun hall => ?_, after, fault.landed 1, ?_,
              (World.stopped_of_fault hfault Nat.one_pos).append _, WriteFault.landed_one hfault, rfl⟩
            · rw [hfault] at hall
              cases hall.1
            · rw [← List.singleton_append, List.take_append_of_le_length (fault.landed_le 1)]
              exact hmade

/-- The writes of a removal. -/
def removeWrites (st : State) (name : List UInt8) : List (Nat × Sector) :=
  headerClears (st.apps.filter (sameAppName · name))

/-- The outcomes of a removal request: refused, stopped by a failed write with the list
unchanged, or done. -/
theorem removeApp_cases (name : List UInt8) :
    ((appNameValid name = true → st.block = true → removeWrites st name = []) ∧ ∃ reply after,
        removeApp w st name d = (reply, st, after) ∧ d.Made [] after ∧ IsError reply) ∨
      (appNameValid name = true ∧ st.block = true ∧ removeWrites st name ≠ []) ∧
        ((¬ w.WritesOk d.writes (removeWrites st name).length ∧ ∃ after count,
            d.Made ((removeWrites st name).take count) after ∧
            w.Stopped count (removeWrites st name).length ∧ (count = 0 ↔ w.Lost d.writes) ∧
            removeApp w st name d = (ascii "err: app io", st, after)) ∨
          (w.WritesOk d.writes (removeWrites st name).length ∧ ∃ written,
            d.Made (removeWrites st name) written ∧
            let kept := { st with apps := st.apps.filter (!sameAppName · name), cachedApp := none }
            let logged := auditRaw w kept (ascii "app-remove " ++ name) written
            removeApp w st name d = (ascii "ok removed", logged.1, logged.2))) := by
  unfold removeApp removeWrites
  by_cases hname : appNameValid name = true
  · rw [if_neg (by simp [hname])]
    by_cases hblock : st.block = true
    · rw [if_neg (by simp [hblock])]
      obtain ⟨hcalls, written, hmade, hrun⟩ | ⟨hcalls, after, count, hmade, hcount, hfirst, hrun⟩ :=
        @clearHeaders_cases w (st.apps.filter (sameAppName · name)) false d
      · by_cases hnone : headerClears (st.apps.filter (sameAppName · name)) = []
        · rw [hrun, hnone]
          rw [hnone] at hmade
          exact .inl ⟨fun _ _ => rfl, _, written, rfl, hmade, by decide⟩
        · have hsome : (headerClears (st.apps.filter (sameAppName · name))).isEmpty = false := by
            simpa using hnone
          rw [hrun, hsome]
          exact .inr ⟨⟨hname, hblock, hnone⟩, .inr ⟨hcalls, written, hmade, rfl⟩⟩
      · have hsome : headerClears (st.apps.filter (sameAppName · name)) ≠ [] := by
          intro hnone
          rw [hnone] at hcalls
          exact hcalls (w.writesOk_zero _)
        rw [hrun]
        exact .inr ⟨⟨hname, hblock, hsome⟩, .inl ⟨hcalls, after, count, hmade, hcount, hfirst, rfl⟩⟩
    · rw [if_pos (by simp [hblock])]
      exact .inl ⟨fun _ h => absurd h hblock, _, d, rfl, .of_onlyRead .refl, by decide⟩
  · rw [if_pos (by simp [hname])]
    exact .inl ⟨fun h => absurd h hname, _, d, rfl, .of_onlyRead .refl, by decide⟩

end Install

end Redoubt.Storage
