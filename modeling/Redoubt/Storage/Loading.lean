import Redoubt.Storage.LayoutLaws
import Redoubt.Storage.Storaged

/-!
# What a load accepts

A load succeeds exactly when the header and the bytes delivered to it pass every
check, and then the workspace holds the decrypted payload.  With reads that either
fail or deliver what is stored, the bytes are the ones on the disk.
-/

namespace Redoubt.Storage

open Redoubt.Foundation Redoubt.Crypto

/-- The checks of a slot over a header and the payload bytes fetched for it. -/
def openSlot (key pubkey : Bytes 32) (hdrSec : Sector) (fetch : Nat → Option (List UInt8)) :
    Option (List UInt8 × UInt64) :=
  match parseSlotHeader hdrSec.val with
  | none => none
  | some hdr =>
      let len := hdr.payloadLen.toNat
      if hdr.state ≠ slotStateValid then none
      else if len = 0 ∨ payloadCap < len then none
      else
        match fetch len with
        | none => none
        | some ct =>
            let plain := ChaCha20.xorStream key 0 (sealNonce hdr.generation) ct
            if !slotMacOk key hdrSec ct then none
            else if !constantTimeEq (sha256 plain).val hdr.payloadSha.val then none
            else if !Ed25519.accepts pubkey plain hdr.signature then none
            else some (plain, hdr.generation)

/-- Everything that was checked about an accepted slot. -/
structure SlotAccepted (key pubkey : Bytes 32) (hdrSec : Sector) (hdr : SlotHeader)
    (ct payload : List UInt8) : Prop where
  parsed : parseSlotHeader hdrSec.val = some hdr
  state : hdr.state = slotStateValid
  nonempty : hdr.payloadLen.toNat ≠ 0
  fits : hdr.payloadLen.toNat ≤ payloadCap
  tag : slotMacOk key hdrSec ct = true
  plain : ChaCha20.xorStream key 0 (sealNonce hdr.generation) ct = payload
  digest : sha256 payload = hdr.payloadSha
  signed : Ed25519.accepts pubkey payload hdr.signature = true

theorem openSlot_eq_some_iff {key pubkey : Bytes 32} {hdrSec : Sector}
    {fetch : Nat → Option (List UInt8)} {payload : List UInt8} {gen : UInt64} :
    openSlot key pubkey hdrSec fetch = some (payload, gen) ↔
      ∃ hdr ct, fetch hdr.payloadLen.toNat = some ct ∧
        SlotAccepted key pubkey hdrSec hdr ct payload ∧ hdr.generation = gen := by
  constructor
  · intro h
    unfold openSlot at h
    cases hparse : parseSlotHeader hdrSec.val with
    | none =>
        rw [hparse] at h
        cases h
    | some hdr =>
        rw [hparse] at h
        dsimp only at h
        split_ifs at h with hstate hlen
        cases hfetch : fetch hdr.payloadLen.toNat with
        | none =>
            rw [hfetch] at h
            cases h
        | some ct =>
            rw [hfetch] at h
            dsimp only at h
            split_ifs at h with htag hdigest hsig
            cases h
            rw [not_or, Nat.not_lt] at hlen
            simp only [Bool.not_eq_true', Bool.not_eq_false, constantTimeEq_bytes] at htag hdigest hsig
            exact ⟨hdr, ct, hfetch, ⟨hparse, not_not.mp hstate, hlen.1, hlen.2, htag, rfl, hdigest,
              hsig⟩, rfl⟩
  · rintro ⟨hdr, ct, hfetch, hok, rfl⟩
    unfold openSlot
    rw [hok.parsed]
    dsimp only
    rw [if_neg (not_not.mpr hok.state), if_neg (by have := hok.nonempty; have := hok.fits; omega),
      hfetch]
    dsimp only
    rw [hok.plain, if_neg (by simp [hok.tag]), if_neg (by simp [hok.digest]),
      if_neg (by simp [hok.signed])]

/-- The checks of an application slot. -/
def openApp (key pubkey : Bytes 32) (slot : UInt8) (hdrSec : Sector)
    (fetch : Nat → Option (List UInt8)) : Option (AppEntry × List UInt8) :=
  match parseAppHeader hdrSec.val with
  | none => none
  | some hdr =>
      let len := hdr.payloadLen
      if hdr.slot ≠ slot ∨ !appNameValid hdr.label ∨ payloadCap < len then none
      else
        match fetch len with
        | none => none
        | some ct =>
            let plain := ChaCha20.xorStream key 0 (appNonce slot hdr.version) ct
            let signed := appSigningMessage hdr.label hdr.version len hdr.payloadSha
            if !appHeaderMacOk key hdrSec ct then none
            else if !constantTimeEq (sha256 plain).val hdr.payloadSha.val then none
            else if !Ed25519.accepts pubkey signed.val hdr.signature then none
            else some (appEntryFromHeader hdr, plain)

/-! ### The bytes a load reads -/

/-- The payload bytes that successive block reads deliver. -/
def readChunks (w : World) (base len : Nat) : Nat → Nat → Dev → Option (List UInt8) × Dev
  | 0, _, d => (some [], d)
  | fuel + 1, done, d =>
      if done < len then
        let take := min (len - done) (chunkSectors * sectorSize)
        let sectors := (take + sectorSize - 1) / sectorSize
        match br w d (base + done / sectorSize) sectors with
        | (none, d) => (none, d)
        | (some data, d) =>
            match readChunks w base len fuel (done + take) d with
            | (none, d) => (none, d)
            | (some rest, d) => (some (data.take take ++ rest), d)
      else (some [], d)

variable {w : World} {key pubkey : Bytes 32} {nonce : Bytes 12} {base len : Nat}

theorem readChunks_onlyRead (fuel done : Nat) (d : Dev) :
    d.OnlyRead (readChunks w base len fuel done d).2 := by
  induction fuel generalizing done d with
  | zero => exact .refl
  | succ _ ih =>
      rw [readChunks]
      split
      · dsimp only
        have hread := br_onlyRead w d (base + done / sectorSize)
          ((min (len - done) (chunkSectors * sectorSize) + sectorSize - 1) / sectorSize)
        split
        · next after heq =>
            rw [heq] at hread
            exact hread
        · next data after heq =>
            rw [heq] at hread
            have hrest := hread.trans
              (ih (done + min (len - done) (chunkSectors * sectorSize)) after)
            split
            · next last hlast =>
                rw [hlast] at hrest
                exact hrest
            · next rest last hlast =>
                rw [hlast] at hrest
                exact hrest
      · exact .refl

/-- Chunks start at multiples of their size until the payload is complete. -/
def ChunkStart (len done : Nat) : Prop := done % 4096 = 0 ∨ len ≤ done

theorem ChunkStart.next {done : Nat} (h : ChunkStart len done) :
    ChunkStart len (done + min (len - done) (chunkSectors * sectorSize)) := by
  unfold ChunkStart chunkSectors sectorSize at *
  omega

theorem readChunks_done (fuel : Nat) {done : Nat} (d : Dev) (complete : len ≤ done) :
    readChunks w base len fuel done d = (some [], d) := by
  cases fuel with
  | zero => rfl
  | succ => rw [readChunks, if_neg (by omega)]

/-- Decrypting a chunk and the rest separately is decrypting them together: a chunk
that something follows consists of whole cipher blocks. -/
theorem xorStream_chunk {done take : Nat} {chunk rest : List UInt8} (aligned : done % 4096 = 0)
    (htake : chunk.length = take) (hfull : take = 4096 ∨ rest = []) :
    ChaCha20.xorStream key (UInt32.ofNat (done / 64)) nonce (chunk ++ rest) =
      ChaCha20.xorStream key (UInt32.ofNat (done / 64)) nonce chunk ++
        ChaCha20.xorStream key (UInt32.ofNat ((done + take) / 64)) nonce rest := by
  rcases hfull with rfl | rfl
  · have hdiv : (done + 4096) / 64 = done / 64 + 64 := by omega
    rw [hdiv, UInt32.ofNat_add]
    exact ChaCha20.xorStream_append _ _ _ 64 htake
  · have hnil : ChaCha20.xorStream key (UInt32.ofNat ((done + take) / 64)) nonce [] = [] := rfl
    rw [hnil, List.append_nil, List.append_nil]

/-- The loading loop fetches these bytes, runs the tag over them and leaves their
decryption in the buffer. -/
theorem loadChunks_eq (fuel done : Nat) (mac : HmacSha256) (out : Buffer) (d : Dev)
    (aligned : ChunkStart len done) :
    let load := loadChunks w key nonce base len fuel done mac out d
    let fetched := readChunks w base len fuel done d
    load.1 = fetched.1.map mac.update ∧ load.2.2 = fetched.2 ∧
      (∀ ct, fetched.1 = some ct → load.2.1.read done ct.length =
        ChaCha20.xorStream key (UInt32.ofNat (done / 64)) nonce ct) ∧
      ∀ index < done, load.2.1 index = out index := by
  induction fuel generalizing done mac out d with
  | zero => simp [loadChunks, readChunks, ChaCha20.xorStream, ChaCha20.xorChunks, Buffer.read]
  | succ fuel ih =>
      dsimp only
      rw [loadChunks, readChunks]
      by_cases hlt : done < len
      · rw [if_pos hlt, if_pos hlt]
        dsimp only
        have haligned : done % 4096 = 0 := aligned.resolve_right (by omega)
        generalize htake : min (len - done) (chunkSectors * sectorSize) = take
        generalize hsectors : (take + sectorSize - 1) / sectorSize = sectors
        have hnext : ChunkStart len (done + take) := htake ▸ aligned.next
        rcases hbr : br w d (base + done / sectorSize) sectors with ⟨data?, after⟩
        cases data? with
        | none => simp
        | some data =>
            have hdata : data.length = 512 * sectors := length_br w d _ (by rw [hbr])
            have hchunk : (data.take take).length = take := by
              unfold sectorSize at hsectors
              rw [List.length_take]
              omega
            dsimp only
            generalize hplain :
              ChaCha20.xorStream key (UInt32.ofNat (done / 64)) nonce (data.take take) = plain
            obtain ⟨hmac, hdev, hread, hkeep⟩ := ih (done + take) (mac.update (data.take take))
              ((out.write done data).write done plain) after hnext
            have hplainLen : plain.length = take := by
              rw [← hplain, ChaCha20.length_xorStream, hchunk]
            have hbelow : ∀ index < done,
                ((out.write done data).write done plain) index = out index := fun index hindex => by
              rw [Buffer.write_apply_of_lt hindex, Buffer.write_apply_of_lt hindex]
            rcases hrest : readChunks w base len fuel (done + take) after with ⟨rest?, last⟩
            rw [hrest] at hmac hdev hread
            cases rest? with
            | none =>
                refine ⟨hmac, hdev, fun ct hct => (by cases hct), fun index hindex => ?_⟩
                rw [hkeep index (by omega), hbelow index hindex]
            | some rest =>
                refine ⟨?_, hdev, ?_, fun index hindex => ?_⟩
                · rw [hmac]
                  exact congrArg some (HmacSha256.update_update mac _ _)
                · intro ct hct
                  cases hct
                  have hfull : take = 4096 ∨ rest = [] := by
                    by_cases hmore : len ≤ done + take
                    · rw [readChunks_done fuel after hmore] at hrest
                      cases hrest
                      exact .inr rfl
                    · unfold chunkSectors sectorSize at htake
                      omega
                  have hfirst := Buffer.read_congr hkeep (le_refl (done + take))
                  rw [Buffer.read_write_self hplainLen.ge,
                    List.take_of_length_le hplainLen.le] at hfirst
                  rw [List.length_append, hchunk, Buffer.read_append, hread rest rfl,
                    xorStream_chunk haligned hchunk hfull, hfirst, hplain]
                · rw [hkeep index (by omega), hbelow index hindex]
      · rw [if_neg hlt, if_neg hlt]
        simp [ChaCha20.xorStream, ChaCha20.xorChunks, Buffer.read]

theorem length_readChunks (fuel done : Nat) (d : Dev) (enough : len - done ≤ fuel) {ct : List UInt8}
    (h : (readChunks w base len fuel done d).1 = some ct) : ct.length = len - done := by
  induction fuel generalizing done d ct with
  | zero =>
      cases h
      simp
      omega
  | succ fuel ih =>
      rw [readChunks] at h
      by_cases hlt : done < len
      · rw [if_pos hlt] at h
        dsimp only at h
        generalize htake : min (len - done) (chunkSectors * sectorSize) = take at h
        generalize hsectors : (take + sectorSize - 1) / sectorSize = sectors at h
        rcases hbr : br w d (base + done / sectorSize) sectors with ⟨data?, after⟩
        rw [hbr] at h
        cases data? with
        | none => cases h
        | some data =>
            have hdata : data.length = 512 * sectors := length_br w d _ (by rw [hbr])
            unfold chunkSectors at htake
            unfold sectorSize at hsectors htake
            dsimp only at h
            rcases hrest : readChunks w base len fuel (done + take) after with ⟨rest?, last⟩
            rw [hrest] at h
            cases rest? with
            | none => cases h
            | some =>
                cases h
                have hlen := ih (done + take) after (by omega) (by rw [hrest])
                rw [List.length_append, List.length_take, hlen]
                omega
      · rw [if_neg hlt] at h
        cases h
        simp
        omega

/-- A whole load: either some read failed, or all bytes were fetched, the tag ran over
them and the buffer starts with their decryption. -/
theorem loadChunks_cases (w : World) (key : Bytes 32) (nonce : Bytes 12) (base len : Nat)
    (mac : HmacSha256) (out : Buffer) (d : Dev) :
    ∃ out' after, d.OnlyRead after ∧
      ((readChunks w base len len 0 d).1 = none ∧
          loadChunks w key nonce base len len 0 mac out d = (none, out', after) ∨
        ∃ ct, (readChunks w base len len 0 d).1 = some ct ∧ ct.length = len ∧
          loadChunks w key nonce base len len 0 mac out d = (some (mac.update ct), out', after) ∧
          out'.read 0 len = ChaCha20.xorStream key 0 nonce ct) := by
  obtain ⟨htag, hdev, hread, -⟩ := @loadChunks_eq w key nonce base len len 0 mac out d (.inl rfl)
  have honly := @readChunks_onlyRead w base len len 0 d
  have hlen := @length_readChunks w base len len 0 d (by omega)
  rcases hload : loadChunks w key nonce base len len 0 mac out d with ⟨mac?, out', after⟩
  rw [hload] at htag hdev hread
  dsimp only at htag hdev hread
  refine ⟨out', after, hdev ▸ honly, ?_⟩
  cases hfetch : (readChunks w base len len 0 d).1 with
  | none =>
      rw [hfetch] at htag
      exact .inl ⟨rfl, by rw [htag]; rfl⟩
  | some ct =>
      rw [hfetch] at htag
      have hct : ct.length = len := by
        have h := hlen hfetch
        omega
      have hplain := hread ct hfetch
      rw [hct] at hplain
      exact .inr ⟨ct, rfl, hct, by rw [htag]; rfl, hplain⟩

/-- The outcome of loading a slot, from what the reads deliver. -/
def slotSeen (w : World) (key pubkey : Bytes 32) (slot : SlotId) (d : Dev) :
    Option (List UInt8 × UInt64) :=
  match brSector w d slot.hdrLba with
  | (none, _) => none
  | (some hdrSec, d) =>
      openSlot key pubkey hdrSec fun len => (readChunks w slot.payloadLba len len 0 d).1

/-- Loading a slot succeeds when the delivered bytes pass; the payload is then in the
buffer, and nothing is written. -/
theorem validateAndLoad_eq (w : World) (key : Bytes 32) (slot : SlotId) (pubkey : Bytes 32)
    (out : Buffer) (d : Dev) :
    ∃ out' after, d.OnlyRead after ∧
      validateAndLoad w key slot pubkey out d =
        ((slotSeen w key pubkey slot d).map (fun seen => (seen.1.length, seen.2)), out', after) ∧
      ∀ seen, slotSeen w key pubkey slot d = some seen → out'.read 0 seen.1.length = seen.1 := by
  unfold validateAndLoad slotSeen
  have hhdr := brSector_onlyRead w d slot.hdrLba
  rcases hbr : brSector w d slot.hdrLba with ⟨hdrSec?, after⟩
  rw [hbr] at hhdr
  have hstop : ∃ out' last, d.OnlyRead last ∧ ((none : Option (Nat × UInt64)), out, after) =
      ((none : Option (List UInt8 × UInt64)).map (fun seen => (seen.1.length, seen.2)), out', last) ∧
      ∀ seen : List UInt8 × UInt64, none = some seen → out'.read 0 seen.1.length = seen.1 :=
    ⟨out, after, hhdr, rfl, fun _ h => (by cases h)⟩
  cases hdrSec? with
  | none => exact hstop
  | some hdrSec =>
      dsimp only
      unfold openSlot
      cases parseSlotHeader hdrSec.val with
      | none => exact hstop
      | some hdr =>
          dsimp only
          split
          · exact hstop
          split
          · exact hstop
          generalize hdr.payloadLen.toNat = len
          generalize hmac : (HmacSha256.new key.val).update (hdrSec.slice 0 0x80).val = mac
          obtain ⟨out', last, honly, ⟨hfetch, hload⟩ | ⟨ct, hfetch, hct, hload, hplain⟩⟩ :=
            loadChunks_cases w key (sealNonce hdr.generation) slot.payloadLba len mac out after
          · rw [hfetch, hload]
            exact ⟨out', last, hhdr.trans honly, rfl, fun _ h => (by cases h)⟩
          · rw [hfetch, hload]
            dsimp only
            unfold slotMacOk slotMac
            rw [hplain, hmac]
            refine ⟨out', last, hhdr.trans honly, ?_⟩
            split
            · exact ⟨rfl, fun _ h => (by cases h)⟩
            split
            · exact ⟨rfl, fun _ h => (by cases h)⟩
            split
            · exact ⟨rfl, fun _ h => (by cases h)⟩
            refine ⟨by simp [hct], ?_⟩
            rintro seen hseen
            cases hseen
            rw [ChaCha20.length_xorStream, hct]
            exact hplain

/-- The outcome of loading an application, from what the reads deliver. -/
def appSeen (w : World) (key pubkey : Bytes 32) (slot : UInt8) (d : Dev) :
    Option (AppEntry × List UInt8) :=
  match appSlotLba slot with
  | none => none
  | some lba =>
      match brSector w d lba with
      | (none, _) => none
      | (some hdrSec, d) =>
          openApp key pubkey slot hdrSec fun len => (readChunks w (lba + 1) len len 0 d).1

/-- The same for an application. -/
theorem validateAndLoadApp_eq (w : World) (key : Bytes 32) (slot : UInt8) (pubkey : Bytes 32)
    (out : Buffer) (d : Dev) :
    ∃ out' after, d.OnlyRead after ∧
      validateAndLoadApp w key slot pubkey out d =
        ((appSeen w key pubkey slot d).map (·.1), out', after) ∧
      ∀ seen, appSeen w key pubkey slot d = some seen → out'.read 0 seen.2.length = seen.2 := by
  unfold validateAndLoadApp appSeen
  cases appSlotLba slot with
  | none => exact ⟨out, d, .refl, rfl, fun _ h => (by cases h)⟩
  | some lba =>
      dsimp only
      have hhdr := brSector_onlyRead w d lba
      rcases hbr : brSector w d lba with ⟨hdrSec?, after⟩
      rw [hbr] at hhdr
      have hstop : ∃ out' last, d.OnlyRead last ∧ ((none : Option AppEntry), out, after) =
          ((none : Option (AppEntry × List UInt8)).map (·.1), out', last) ∧
          ∀ seen : AppEntry × List UInt8, none = some seen → out'.read 0 seen.2.length = seen.2 :=
        ⟨out, after, hhdr, rfl, fun _ h => (by cases h)⟩
      cases hdrSec? with
      | none => exact hstop
      | some hdrSec =>
          dsimp only
          unfold openApp
          cases parseAppHeader hdrSec.val with
          | none => exact hstop
          | some hdr =>
              dsimp only
              split
              · exact hstop
              generalize hdr.payloadLen = len
              generalize hmac : (HmacSha256.new key.val).update (hdrSec.slice 0 160).val = mac
              obtain ⟨out', last, honly, ⟨hfetch, hload⟩ | ⟨ct, hfetch, hct, hload, hplain⟩⟩ :=
                loadChunks_cases w key (appNonce slot hdr.version) (lba + 1) len mac out after
              · rw [hfetch, hload]
                exact ⟨out', last, hhdr.trans honly, rfl, fun _ h => (by cases h)⟩
              · rw [hfetch, hload]
                dsimp only
                unfold appHeaderMacOk appHeaderMac
                rw [hplain, hmac]
                refine ⟨out', last, hhdr.trans honly, ?_⟩
                split
                · exact ⟨rfl, fun _ h => (by cases h)⟩
                split
                · exact ⟨rfl, fun _ h => (by cases h)⟩
                split
                · exact ⟨rfl, fun _ h => (by cases h)⟩
                refine ⟨rfl, ?_⟩
                rintro seen hseen
                cases hseen
                rw [ChaCha20.length_xorStream, hct]
                exact hplain

/-! ### Reads that fail or deliver what is stored -/

/-- No read delivers anything but what is stored. -/
def World.HonestReads (w : World) : Prop := ∀ n first seen, w.read n first = some seen → ∀ lba sector,
  seen lba sector = sector

/-- No read fails, and every read delivers what is stored. -/
def World.ReadsSucceed (w : World) : Prop := w.HonestReads ∧ ∀ n first, (w.read n first).isSome

/-- The bytes stored from a sector on. -/
def Disk.bytes (disk : Disk) (base len : Nat) : List UInt8 :=
  (sectorBytes (disk.sectors base ((len + 511) / 512))).take len

/-- The checks of a slot over the bytes stored for it. -/
def slotOnDisk (disk : Disk) (key pubkey : Bytes 32) (slot : SlotId) :
    Option (List UInt8 × UInt64) :=
  openSlot key pubkey (disk slot.hdrLba) fun len => some (disk.bytes slot.payloadLba len)

/-- Number of block reads for this many bytes. -/
def chunkCount (len : Nat) : Nat := (len + 4095) / 4096

theorem Disk.sectors_add (disk : Disk) (base first second : Nat) :
    disk.sectors base (first + second) =
      disk.sectors base first ++ disk.sectors (base + first) second := by
  simp only [Disk.sectors, List.range_add, List.map_append, List.map_map, Function.comp_def,
    Nat.add_assoc]

@[simp]
theorem Disk.length_sectors (disk : Disk) (base count : Nat) :
    (disk.sectors base count).length = count := by
  simp [Disk.sectors]

/-- Stored bytes split after whole sectors. -/
theorem Disk.bytes_split (disk : Disk) (base count : Nat) {len : Nat} (h : 512 * count ≤ len) :
    disk.bytes base len = sectorBytes (disk.sectors base count) ++
      disk.bytes (base + count) (len - 512 * count) := by
  have hcount : (len + 511) / 512 = count + (len - 512 * count + 511) / 512 := by omega
  have hfront : (sectorBytes (disk.sectors base count)).length = 512 * count := by simp
  rw [Disk.bytes, Disk.bytes, hcount, Disk.sectors_add, sectorBytes_append, List.take_append,
    List.take_of_length_le (by omega), hfront]

/-- The first chunk of the stored bytes and what follows it. -/
theorem Disk.bytes_chunk (disk : Disk) (base : Nat) {len take sectors : Nat}
    (htake : min len (8 * 512) = take) (hsectors : (take + 512 - 1) / 512 = sectors) :
    (sectorBytes (disk.sectors base sectors)).take take ++
      disk.bytes (base + take / 512) (len - take) = disk.bytes base len := by
  by_cases hlast : len ≤ 4096
  · have hwhole : take = len := by omega
    subst hwhole
    rw [Nat.sub_self, ← hsectors]
    simp [Disk.bytes]
  · have hfull : take = 512 * 8 := by omega
    have height : sectors = 8 := by omega
    rw [disk.bytes_split base 8 (by omega), height, hfull, List.take_of_length_le (by simp)]

@[simp]
theorem Disk.length_bytes (disk : Disk) (base len : Nat) : (disk.bytes base len).length = len := by
  rw [Disk.bytes, List.length_take, length_sectorBytes, Disk.length_sectors]
  omega

/-- A shorter read is the front of a longer one. -/
theorem Disk.take_bytes (disk : Disk) (base : Nat) {short long : Nat} (h : short ≤ long) :
    (disk.bytes base long).take short = disk.bytes base short := by
  have hcount : (long + 511) / 512 = (short + 511) / 512 +
      ((long + 511) / 512 - (short + 511) / 512) := by omega
  rw [Disk.bytes, Disk.bytes, hcount, Disk.sectors_add, sectorBytes_append, List.take_take,
    min_eq_left h, List.take_append_of_le_length]
  rw [length_sectorBytes, Disk.length_sectors]
  omega

/-- Stored bytes only depend on the sectors they lie in. -/
theorem Disk.bytes_congr {disk other : Disk} {base len : Nat}
    (same : ∀ lba, base ≤ lba → lba < base + (len + 511) / 512 → disk lba = other lba) :
    disk.bytes base len = other.bytes base len := by
  have hsectors : disk.sectors base ((len + 511) / 512) = other.sectors base ((len + 511) / 512) := by
    apply List.map_congr_left
    intro index hindex
    rw [List.mem_range] at hindex
    exact same _ (by omega) (by omega)
  rw [Disk.bytes, Disk.bytes, hsectors]

theorem br_honest (honest : w.HonestReads) (d : Dev) (lba count : Nat) :
    br w d lba count =
      (if (w.read d.reads lba).isSome then some (sectorBytes (d.disk.sectors lba count)) else none,
        { d with reads := d.reads + 1 }) := by
  unfold br
  cases hread : w.read d.reads lba with
  | none => rfl
  | some seen =>
      have hsame : ((List.range count).map fun index => seen (lba + index) (d.disk (lba + index))) =
          d.disk.sectors lba count :=
        List.map_congr_left fun index _ => honest _ _ _ hread _ _
      dsimp only
      rw [hsame]
      rfl

theorem brSector_honest (honest : w.HonestReads) (d : Dev) (lba : Nat) :
    brSector w d lba =
      (if (w.read d.reads lba).isSome then some (d.disk lba) else none,
        { d with reads := d.reads + 1 }) := by
  unfold brSector
  cases hread : w.read d.reads lba with
  | none => rfl
  | some => simp [honest _ _ _ hread]

/-- The reads of consecutive chunks all succeed. -/
def World.ChunksRead (w : World) (call lba count : Nat) : Prop :=
  ∀ index < count, (w.read (call + index) (lba + 8 * index)).isSome

theorem World.chunksRead_succ {call lba count : Nat} : w.ChunksRead call lba (count + 1) ↔
    (w.read call lba).isSome ∧ w.ChunksRead (call + 1) (lba + 8) count := by
  have hcall : ∀ index, call + (index + 1) = call + 1 + index := fun index => by omega
  have hlba : ∀ index, lba + 8 * (index + 1) = lba + 8 + 8 * index := fun index => by omega
  unfold World.ChunksRead
  constructor
  · intro hall
    refine ⟨hall 0 (Nat.succ_pos _), fun index hindex => ?_⟩
    rw [← hcall, ← hlba]
    exact hall _ (Nat.succ_lt_succ hindex)
  · rintro ⟨hfirst, hrest⟩ index hindex
    cases index with
    | zero => exact hfirst
    | succ index =>
        rw [hcall, hlba]
        exact hrest _ (Nat.lt_of_succ_lt_succ hindex)

/-- The bytes of a whole payload: the stored ones unless one of the reads fails. -/
theorem readChunks_honest (honest : w.HonestReads) (fuel done : Nat) (d : Dev)
    (aligned : ChunkStart len done) (enough : len - done ≤ fuel) (bytes : List UInt8) :
    (readChunks w base len fuel done d).1 = some bytes ↔
      w.ChunksRead d.reads (base + done / 512) (chunkCount (len - done)) ∧
        bytes = d.disk.bytes (base + done / 512) (len - done) := by
  induction fuel generalizing done d bytes with
  | zero =>
      have hzero : len - done = 0 := by omega
      rw [readChunks, hzero, eq_comm]
      simp [World.ChunksRead, chunkCount, Disk.bytes]
  | succ fuel ih =>
      rw [readChunks]
      by_cases hlt : done < len
      · rw [if_pos hlt]
        dsimp only
        have haligned : done % 4096 = 0 := aligned.resolve_right (by omega)
        generalize htake : min (len - done) (chunkSectors * sectorSize) = take
        generalize hsectors : (take + sectorSize - 1) / sectorSize = sectors
        have hnext : ChunkStart len (done + take) := htake ▸ aligned.next
        unfold chunkSectors at htake
        unfold sectorSize at htake hsectors ⊢
        have hcount : chunkCount (len - done) = chunkCount (len - (done + take)) + 1 := by
          unfold chunkCount
          omega
        rw [br_honest honest, hcount, World.chunksRead_succ]
        by_cases hread : (w.read d.reads (base + done / 512)).isSome
        · have hwhere : w.ChunksRead (d.reads + 1) (base + (done + take) / 512)
              (chunkCount (len - (done + take))) ↔
              w.ChunksRead (d.reads + 1) (base + done / 512 + 8) (chunkCount (len - (done + take))) := by
            by_cases hlast : len ≤ done + take
            · have hnone : chunkCount (len - (done + take)) = 0 := by
                unfold chunkCount
                omega
              rw [hnone]
              exact iff_of_true (fun _ h => absurd h (Nat.not_lt_zero _))
                fun _ h => absurd h (Nat.not_lt_zero _)
            · have hpos : base + (done + take) / 512 = base + done / 512 + 8 := by omega
              rw [hpos]
          have hpos : base + (done + take) / 512 = base + done / 512 + take / 512 := by omega
          have hleft : len - (done + take) = len - done - take := by omega
          have hrest := ih (done + take) { d with reads := d.reads + 1 } hnext (by omega)
          have hchunk := d.disk.bytes_chunk (base + done / 512) htake hsectors
          rw [if_pos hread, and_iff_right hread, ← hwhere]
          dsimp only at hrest ⊢
          generalize readChunks w base len fuel (done + take) { d with reads := d.reads + 1 } = result
            at hrest ⊢
          obtain ⟨_ | rest, last⟩ := result
          · exact iff_of_false (by simp) fun h => by simpa using (hrest _).mpr ⟨h.1, rfl⟩
          · obtain ⟨hreads, hbytes⟩ := (hrest rest).mp rfl
            rw [and_iff_right hreads, ← hchunk, ← hleft, ← hpos, hbytes]
            exact Option.some_inj.trans eq_comm
        · rw [if_neg hread]
          simp [hread]
      · have hzero : len - done = 0 := by omega
        rw [if_neg hlt, hzero, eq_comm]
        simp [World.ChunksRead, chunkCount, Disk.bytes]

theorem readChunks_succeed (succeed : w.ReadsSucceed) (base len : Nat) (d : Dev) :
    (readChunks w base len len 0 d).1 = some (d.disk.bytes base len) := by
  rw [readChunks_honest succeed.1 _ _ _ (.inl rfl) (by omega)]
  exact ⟨fun _ _ => succeed.2 _ _, rfl⟩

theorem SlotAccepted.length_eq {hdrSec : Sector} {hdr : SlotHeader} {ct payload : List UInt8}
    (h : SlotAccepted key pubkey hdrSec hdr ct payload) : payload.length = ct.length := by
  rw [← h.plain, ChaCha20.length_xorStream]

/-- The header and every chunk of a payload of this length are read. -/
def World.SlotRead (w : World) (call : Nat) (slot : SlotId) (len : Nat) : Prop :=
  (w.read call slot.hdrLba).isSome ∧ w.ChunksRead (call + 1) slot.payloadLba (chunkCount len)

/-- Reading the slot gives what is on the disk unless one of the reads fails. -/
theorem slotSeen_eq_some_iff (honest : w.HonestReads) {slot : SlotId} {d : Dev} {payload : List UInt8}
    {gen : UInt64} : slotSeen w key pubkey slot d = some (payload, gen) ↔
      slotOnDisk d.disk key pubkey slot = some (payload, gen) ∧
        w.SlotRead d.reads slot payload.length := by
  unfold slotSeen World.SlotRead
  rw [brSector_honest honest]
  by_cases hhdr : (w.read d.reads slot.hdrLba).isSome
  · rw [if_pos hhdr, and_iff_right hhdr, slotOnDisk]
    dsimp only
    rw [openSlot_eq_some_iff, openSlot_eq_some_iff]
    have hchunks : ∀ (hdr : SlotHeader) (ct : List UInt8), _ := fun hdr ct =>
      @readChunks_honest w slot.payloadLba hdr.payloadLen.toNat honest hdr.payloadLen.toNat 0
        { d with reads := d.reads + 1 } (.inl rfl) (by omega) ct
    simp only [Nat.zero_div, Nat.add_zero, Nat.sub_zero] at hchunks
    constructor
    · rintro ⟨hdr, ct, hfetch, hok, hgen⟩
      obtain ⟨hreads, rfl⟩ := (hchunks hdr ct).mp hfetch
      refine ⟨⟨hdr, _, rfl, hok, hgen⟩, ?_⟩
      rw [hok.length_eq, Disk.length_bytes]
      exact hreads
    · rintro ⟨⟨hdr, ct, hfetch, hok, hgen⟩, hreads⟩
      cases hfetch
      rw [hok.length_eq, Disk.length_bytes] at hreads
      exact ⟨hdr, _, (hchunks hdr _).mpr ⟨hreads, rfl⟩, hok, hgen⟩
  · rw [if_neg hhdr]
    simp [hhdr]

theorem slotSeen_succeed (succeed : w.ReadsSucceed) (slot : SlotId) (d : Dev) :
    slotSeen w key pubkey slot d = slotOnDisk d.disk key pubkey slot := by
  refine Option.ext fun stored => ?_
  rw [slotSeen_eq_some_iff succeed.1]
  exact and_iff_left ⟨succeed.2 _ _, fun _ _ => succeed.2 _ _⟩

/-- The sectors a slot occupies. -/
def SlotId.Owns (slot : SlotId) (lba : Nat) : Prop :=
  slot.hdrLba ≤ lba ∧ lba < slot.payloadLba + 1000

/-- The checks only depend on the sectors of the slot. -/
theorem slotOnDisk_congr {disk other : Disk} {slot : SlotId}
    (same : ∀ lba, slot.Owns lba → disk lba = other lba) :
    slotOnDisk disk key pubkey slot = slotOnDisk other key pubkey slot := by
  have hbelow : slot.hdrLba ≤ slot.payloadLba ∧ slot.hdrLba < slot.payloadLba + 1000 := by
    cases slot <;> decide
  have hhdr : disk slot.hdrLba = other slot.hdrLba := same _ ⟨le_rfl, hbelow.2⟩
  have hbytes : ∀ len ≤ payloadCap,
      disk.bytes slot.payloadLba len = other.bytes slot.payloadLba len := by
    intro len hlen
    unfold payloadCap sectorSize at hlen
    exact Disk.bytes_congr fun lba hlow hhigh => same lba ⟨by omega, by omega⟩
  apply Option.ext
  rintro ⟨payload, gen⟩
  unfold slotOnDisk
  rw [openSlot_eq_some_iff, openSlot_eq_some_iff, hhdr]
  constructor
  · rintro ⟨hdr, ct, hfetch, hok, hgen⟩
    exact ⟨hdr, ct, by rw [← hbytes _ hok.fits]; exact hfetch, hok, hgen⟩
  · rintro ⟨hdr, ct, hfetch, hok, hgen⟩
    exact ⟨hdr, ct, by rw [hbytes _ hok.fits]; exact hfetch, hok, hgen⟩

theorem SlotId.not_owns_other {slot : SlotId} {lba : Nat} (h : slot.Owns lba) :
    ¬ slot.other.Owns lba := by
  unfold SlotId.Owns at *
  cases slot <;> simp only [SlotId.other, SlotId.hdrLba, SlotId.payloadLba, slotAHdrLba,
    slotAPayloadLba, slotBHdrLba, slotBPayloadLba] at * <;> omega

end Redoubt.Storage
