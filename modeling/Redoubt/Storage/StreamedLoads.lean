import Redoubt.Storage.AppStore

/-!
# Payloads that are written whole and read in chunks

The host tools and the installation of an application encrypt a payload with one call
from counter zero.  The loading loops read eight sectors at a time and go on with the
counter of the first byte of a chunk.  What they leave in the buffer is the payload.
-/

namespace Redoubt.Storage

open Redoubt.Foundation Redoubt.Crypto

/-- With reads that succeed, the loading loop leaves this payload in the buffer and has
run the tag over its ciphertext. -/
def Decrypts (disk : Disk) (key : Bytes 32) (nonce : Bytes 12) (base : Nat)
    (payload : List UInt8) : Prop :=
  ∀ (w : World) (d : Dev) (mac : HmacSha256) (out : Buffer), w.ReadsSucceed → d.disk = disk →
    ∃ out' after, loadChunks w key nonce base payload.length payload.length 0 mac out d =
      (some (mac.update (ChaCha20.xorStream key 0 nonce payload)), out', after) ∧
    out'.read 0 payload.length = payload

theorem decrypts_of_bytes {disk : Disk} {key : Bytes 32} {nonce : Bytes 12} {base : Nat}
    {payload : List UInt8}
    (stored : disk.bytes base payload.length = ChaCha20.xorStream key 0 nonce payload) :
    Decrypts disk key nonce base payload := by
  intro w d mac out reads hdisk
  have hfetched : (readChunks w base payload.length payload.length 0 d).1 =
      some (ChaCha20.xorStream key 0 nonce payload) := by
    rw [readChunks_succeed reads, hdisk, stored]
  obtain ⟨out', after, -, ⟨hnone, -⟩ | ⟨ct, hct, -, hload, hread⟩⟩ :=
    loadChunks_cases w key nonce base payload.length mac out d
  · rw [hfetched] at hnone
    cases hnone
  · cases hct.symm.trans hfetched
    refine ⟨out', after, hload, ?_⟩
    rw [hread, ChaCha20.xorStream_xorStream]

/-- The header of a slot announces the payload that the loop then decrypts. -/
def SlotDecrypts (disk : Disk) (key : Bytes 32) (slot : SlotId) (payload : List UInt8) : Prop :=
  ∃ hdr, parseSlotHeader (disk slot.hdrLba).val = some hdr ∧ hdr.payloadLen.toNat = payload.length ∧
    Decrypts disk key (sealNonce hdr.generation) slot.payloadLba payload

theorem Sealed.decrypts {disk : Disk} {key : Bytes 32} {slot label : SlotId} {gen : UInt64}
    {payload : List UInt8} {room : payload.length ≤ payloadCap} {sig : Bytes 64}
    (h : Sealed disk key slot label gen payload room sig) : SlotDecrypts disk key slot payload := by
  refine ⟨_, by rw [h.hdr, parseSlotHeader_seal _ _ _ _ room _ _ (by decide)], ?_,
    decrypts_of_bytes h.data⟩
  exact UInt32.toNat_ofNat_of_lt' (room.trans_lt (by decide))

/-- The same for an application slot. -/
def AppDecrypts (disk : Disk) (key : Bytes 32) (slot : UInt8) (payload : List UInt8) : Prop :=
  ∃ lba hdr, appSlotLba slot = some lba ∧ parseAppHeader (disk lba).val = some hdr ∧
    hdr.payloadLen = payload.length ∧ Decrypts disk key (appNonce slot hdr.version) (lba + 1) payload

theorem appDecrypts_of_onDisk {disk : Disk} {key pubkey : Bytes 32} {slot : UInt8} {entry : AppEntry}
    {payload : List UInt8} (h : appOnDisk disk key pubkey slot = some (entry, payload)) :
    AppDecrypts disk key slot payload := by
  obtain ⟨lba, hdr, hlba, hok, -⟩ := appOnDisk_eq_some_iff.mp h
  have hlen : hdr.payloadLen = payload.length := by
    rw [← hok.plain, ChaCha20.length_xorStream, Disk.length_bytes]
  refine ⟨lba, hdr, hlba, hok.parsed, hlen, decrypts_of_bytes ?_⟩
  rw [← hok.plain, ChaCha20.xorStream_xorStream, ChaCha20.length_xorStream, Disk.length_bytes]

/-- An installation that does not fail leaves the payload of its package. -/
theorem installApp_decrypts {w : World} {st : State} {d : Dev} (done : ¬ IsError (installApp w st d).1) :
    ∃ a, admission w st d = some a ∧
      AppDecrypts (installApp w st d).2.2.disk st.volKey a.slot a.pkg.payload := by
  obtain ⟨-, reply, out, after, hresult, -, herror⟩ | ⟨a, out, hsome, hadmitted, houtcome⟩ :=
    @installApp_cases w st d
  · rw [hresult] at done
    exact absurd herror done
  obtain ⟨-, after, count, -, -, -, hresult⟩ | ⟨-, written, hmade, hresult⟩ := houtcome
  · rw [hresult] at done
    exact absurd (show IsError (ascii "err: app io") by decide) done
  · refine ⟨a, hsome, ?_⟩
    have hstored := @storedApp_install d.disk st.volKey st.pubkey a.slot a.lba a.pkg hadmitted.located
      hadmitted.admissible (installWrites st.volKey a.slot a.pkg a.lba).length
    rw [if_neg (by rw [length_installWrites]; omega), if_neg (Nat.lt_irrefl _), List.take_length,
      ← hmade.1] at hstored
    rw [hresult]
    have hlogged := @storedApp_wroteIn st.volKey st.pubkey _ _ (auditRaw_wroteIn w
      { st with workspace := out, apps := storedApps st a.slot a.pkg, cachedApp := none } written
      ((ascii "app-install " ++ a.pkg.label).take 38))
    have hfound := congrFun (hlogged.trans hstored) a.slot
    rw [Function.update_self, storedApp, Option.map_eq_some_iff] at hfound
    obtain ⟨⟨entry, payload⟩, hdisk, hpair⟩ := hfound
    rw [Prod.mk.injEq] at hpair
    rw [← hpair.2]
    exact appDecrypts_of_onDisk hdisk

/-- The cipher is its own inverse, a message may be cut at whole blocks, and the loading
loops return every payload that the host tools and installations have encrypted. -/
theorem streamed_decryption_exact :
    (∀ (key : Bytes 32) (counter : UInt32) (nonce : Bytes 12) (data : List UInt8),
      ChaCha20.xorStream key counter nonce (ChaCha20.xorStream key counter nonce data) = data) ∧
    (∀ (key : Bytes 32) (counter : UInt32) (nonce : Bytes 12) (pieces : List (List UInt8)),
      (∀ piece ∈ pieces.dropLast, piece.length % 64 = 0) →
      ChaCha20.xorPieces key counter nonce 0 pieces =
        ChaCha20.xorStream key counter nonce pieces.flatten) ∧
    (∀ (disk : Disk) (key : Bytes 32) (slot : SlotId) (gen : UInt64) (payload : List UInt8)
      (room : payload.length ≤ payloadCap) (sig : Bytes 64) (count : Nat),
      count = (1024 + payload.length + 511) / 512 →
      disk.sectors slot.hdrLba count = toSectors count (buildSlotImage gen payload room sig key) →
      SlotDecrypts disk key slot payload) ∧
    (∀ (vol written : Volume) (slot : SlotId) (gen : UInt64) (payload : List UInt8) (sig : Bytes 64)
      (key : Bytes 32), writeSlot vol slot gen payload sig key = some written →
      SlotDecrypts written.disk key slot payload) ∧
    ∀ (w : World) (st : State) (d : Dev), ¬ IsError (installApp w st d).1 →
      ∃ a, admission w st d = some a ∧
        AppDecrypts (installApp w st d).2.2.disk st.volKey a.slot a.pkg.payload := by
  refine ⟨fun key counter nonce data => ChaCha20.xorStream_xorStream counter data,
    fun key counter nonce pieces whole => ?_,
    fun disk key slot gen payload room sig count hcount stored =>
      (sealed_image hcount stored).decrypts, fun vol written slot gen payload sig key h => ?_,
    fun w st d done => installApp_decrypts done⟩
  · rw [ChaCha20.xorPieces_eq counter (Nat.zero_mod 64) whole, Nat.zero_div]
    exact congrArg (ChaCha20.xorStream key · nonce pieces.flatten) (UInt32.add_zero counter)
  · obtain ⟨room, hsealed⟩ := sealed_writeSlot h
    exact hsealed.decrypts

/-- Three pieces of which the last is no whole block. -/
theorem streamed_decryption_exact_pieces :
    ChaCha20.xorPieces (Bytes.zeros 32) 7 (Bytes.zeros 12) 0
      [(Bytes.zeros 64).val, (Bytes.zeros 128).val, [3]] =
      ChaCha20.xorStream (Bytes.zeros 32) 7 (Bytes.zeros 12)
        [(Bytes.zeros 64).val, (Bytes.zeros 128).val, [3]].flatten := by
  refine streamed_decryption_exact.2.1 _ 7 _ _ fun piece hpiece => ?_
  rw [List.dropLast_cons_cons, List.dropLast_cons_cons, List.dropLast_singleton, List.mem_cons,
    List.mem_singleton] at hpiece
  rcases hpiece with rfl | rfl
  · rw [Bytes.length_val]
  · rw [Bytes.length_val]

end Redoubt.Storage
