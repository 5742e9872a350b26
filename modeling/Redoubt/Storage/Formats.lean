import Redoubt.Storage.LayoutLaws

/-!
# The six on-disk formats

What a writer has put into a buffer is read back by its parser, also when more bytes
follow.  On arbitrary input a parser only returns fields that lie inside of it.
-/

namespace Redoubt.Storage

open Redoubt.Foundation Redoubt.Crypto

/-! ### Longer buffers -/

section Longer

variable (sec : Sector) (rest : List UInt8)

theorem parseSuperblock_longer : parseSuperblock (sec.val ++ rest) = parseSuperblock sec.val := by
  unfold parseSuperblock
  rw [firstSector?_append, firstSector?_val]

theorem parseConfig_longer : parseConfig (sec.val ++ rest) = parseConfig sec.val := by
  unfold parseConfig
  rw [firstSector?_append, firstSector?_val]

theorem parseSlotHeader_longer : parseSlotHeader (sec.val ++ rest) = parseSlotHeader sec.val := by
  unfold parseSlotHeader
  rw [firstSector?_append, firstSector?_val]

theorem parseAppHeader_longer : parseAppHeader (sec.val ++ rest) = parseAppHeader sec.val := by
  unfold parseAppHeader
  rw [firstSector?_append, firstSector?_val]

end Longer

/-! ### Tags -/

theorem slotMacOk_seal (key : Bytes 32) (hdr : Sector) (ct : List UInt8) :
    slotMacOk key (sealSlotHeader hdr (slotMac key hdr ct)) ct = true := by
  unfold slotMacOk
  rw [tag_sealSlotHeader, constantTimeEq_bytes, slotMac, slotMac, slice_sealSlotHeader]

theorem appHeaderMacOk_seal (key : Bytes 32) (hdr : Sector) (ct : List UInt8) :
    appHeaderMacOk key (hdr.splice 160 (appHeaderMac key hdr ct)) ct = true := by
  unfold appHeaderMacOk
  rw [Bytes.slice_splice_self, constantTimeEq_bytes, appHeaderMac, appHeaderMac,
    Bytes.slice_splice_before _ _ (by decide)]

/-! ### Arbitrary input -/

/-- These bytes stand in the input at this offset. -/
structure Within (bytes : List UInt8) (off : Nat) (field : List UInt8) : Prop where
  inside : off + field.length ≤ bytes.length
  read : field = (bytes.drop off).take field.length

theorem within_cut {bytes : List UInt8} {off len : Nat} (inside : off + len ≤ bytes.length) :
    Within bytes off (cut bytes off len inside).val := by
  refine ⟨by rw [Bytes.length_val]; exact inside, ?_⟩
  rw [Bytes.length_val, cut_val]

section Front

variable {bytes : List UInt8} {size : Nat} {front : Bytes size} {inside : 0 + size ≤ bytes.length}
  (cutout : cut bytes 0 size inside = front)

include cutout

/-- A field of the front part of an input. -/
theorem within_slice {off len : Nat} (fits : off + len ≤ size) :
    Within bytes off (front.slice off len fits).val := by
  have hroom : off + len ≤ bytes.length := by omega
  have hslice : front.slice off len fits = cut bytes off len hroom := by
    apply Subtype.ext
    rw [← cutout, Bytes.slice_val, cut_val, cut_val, List.drop_zero, List.drop_take, List.take_take,
      min_eq_left (by omega)]
  rw [hslice]
  exact within_cut hroom

theorem within_u64 {off : Nat} (fits : off + 8 ≤ size) :
    Within bytes off (Bytes.ofU64 (front.slice off 8 fits).toU64).val := by
  rw [Bytes.ofU64_toU64]
  exact within_slice cutout fits

theorem within_u32 {off : Nat} (fits : off + 4 ≤ size) :
    Within bytes off (Bytes.ofU32 (front.slice off 4 fits).toU32).val := by
  rw [Bytes.ofU32_toU32]
  exact within_slice cutout fits

theorem within_byte {off : Nat} (fits : off + 1 ≤ size) : Within bytes off [front.byte off fits] := by
  have hbyte : (front.slice off 1 fits).val = [front.byte off fits] := by
    unfold Bytes.byte
    have hlen := (front.slice off 1 fits).property
    generalize (front.slice off 1 fits).val = part at *
    match part, hlen with
    | [_], _ => rfl
  rw [← hbyte]
  exact within_slice cutout fits

end Front

theorem firstSector?_eq_some {bytes : List UInt8} {sec : Sector} (h : firstSector? bytes = some sec) :
    ∃ inside, cut bytes 0 512 inside = sec := by
  unfold firstSector? at h
  split_ifs at h with hlong
  exact ⟨_, Option.some.inj h⟩

section Inside

variable {bytes : List UInt8}

theorem parseSuperblock_inside {active : Option SlotId} {genA genB : UInt64}
    (h : parseSuperblock bytes = some (active, genA, genB)) :
    ∃ num : UInt32, active = SlotId.fromNum num ∧ Within bytes 16 (Bytes.ofU32 num).val ∧
      Within bytes 24 (Bytes.ofU64 genA).val ∧ Within bytes 32 (Bytes.ofU64 genB).val := by
  unfold parseSuperblock at h
  obtain ⟨sec, hsec, hrest⟩ := Option.bind_eq_some_iff.mp h
  obtain ⟨inside, hcut⟩ := firstSector?_eq_some hsec
  split_ifs at hrest
  cases hrest
  exact ⟨_, rfl, within_u32 hcut _, within_u64 hcut _, within_u64 hcut _⟩

theorem parseConfig_inside {mac : Bytes 32} {gen : UInt64} {text : ConfigText}
    (h : parseConfig bytes = some (mac, gen, text)) :
    Within bytes 448 mac.val ∧ Within bytes 8 (Bytes.ofU64 gen).val ∧ Within bytes 32 text.val := by
  unfold parseConfig at h
  obtain ⟨sec, hsec, hrest⟩ := Option.bind_eq_some_iff.mp h
  obtain ⟨inside, hcut⟩ := firstSector?_eq_some hsec
  dsimp only at hrest
  split_ifs at hrest with _ hlen
  cases hrest
  unfold cfgTextMax at hlen
  exact ⟨within_slice hcut _, within_u64 hcut _, within_slice hcut (by omega)⟩

theorem SlotId.num_of_fromNum {n : UInt32} {slot : SlotId}
    (h : SlotId.fromNum n = some slot) : slot.num = n := by
  unfold SlotId.fromNum at h
  split_ifs at h with hone htwo
  · cases h
    exact hone.symm
  · cases h
    exact htwo.symm

theorem parseSlotHeader_inside {hdr : SlotHeader} (h : parseSlotHeader bytes = some hdr) :
    Within bytes 8 [hdr.slot.num.toUInt8] ∧ Within bytes 9 [hdr.state] ∧
      Within bytes 16 (Bytes.ofU64 hdr.generation).val ∧
        Within bytes 24 (Bytes.ofU32 hdr.payloadLen).val ∧
      Within bytes 32 hdr.payloadSha.val ∧ Within bytes 0x40 hdr.signature.val := by
  unfold parseSlotHeader at h
  obtain ⟨sec, hsec, hrest⟩ := Option.bind_eq_some_iff.mp h
  obtain ⟨inside, hcut⟩ := firstSector?_eq_some hsec
  split_ifs at hrest
  obtain ⟨slot, hslot, hfields⟩ := Option.bind_eq_some_iff.mp hrest
  dsimp only at hfields
  split_ifs at hfields
  cases hfields
  have hnum : slot.num.toUInt8 = sec.byte 8 := by
    rw [SlotId.num_of_fromNum hslot]
    exact UInt8.toUInt8_toUInt32 _
  dsimp only
  rw [hnum]
  exact ⟨within_byte hcut _, within_byte hcut _, within_u64 hcut _, within_u32 hcut _,
    within_slice hcut _, within_slice hcut _⟩

theorem parseStagePackage_inside {img : List UInt8} {sig : Bytes 64}
    (h : parseStagePackage bytes = some (img, sig)) :
    Within bytes 0x80 img ∧ Within bytes 0x38 sig.val := by
  unfold parseStagePackage at h
  split_ifs at h with hlong
  dsimp only at h
  split_ifs at h
  cases h
  exact ⟨within_cut _, within_slice rfl _⟩

/-- The metadata of an application in an input. -/
structure MetaWithin (bytes : List UInt8) (lengthOff : Nat) (app : AppMeta) : Prop where
  name : Within bytes 32 app.name.val
  nameLen : Within bytes lengthOff [UInt8.ofNat app.nameLen]
  payloadLen : Within bytes 12 (Bytes.ofU32 (UInt32.ofNat app.payloadLen)).val
  version : Within bytes 16 (Bytes.ofU64 app.version).val
  payloadSha : Within bytes 64 app.payloadSha.val
  signature : Within bytes 96 app.signature.val

theorem parseAppHeader_inside {hdr : AppHeader} (h : parseAppHeader bytes = some hdr) :
    Within bytes 10 [hdr.slot] ∧ MetaWithin bytes 11 hdr.toAppMeta := by
  unfold parseAppHeader at h
  obtain ⟨sec, hsec, hrest⟩ := Option.bind_eq_some_iff.mp h
  obtain ⟨inside, hcut⟩ := firstSector?_eq_some hsec
  dsimp only at hrest
  split_ifs at hrest
  cases hrest
  refine ⟨within_byte hcut (by decide), within_slice hcut (by decide), ?_, ?_,
    within_u64 hcut (by decide), within_slice hcut (by decide), within_slice hcut (by decide)⟩
  · rw [UInt8.ofNat_toNat]
    exact within_byte hcut _
  · rw [UInt32.ofNat_toNat]
    exact within_u32 hcut _

theorem parseAppStagePackage_inside {pkg : AppPackage} (h : parseAppStagePackage bytes = some pkg) :
    Within bytes 192 pkg.payload ∧ MetaWithin bytes 9 pkg.toAppMeta := by
  unfold parseAppStagePackage at h
  split_ifs at h with hlong
  dsimp only at h
  split_ifs at h with _ _ hend
  cases h
  refine ⟨within_cut (Nat.le_of_not_lt hend), within_slice rfl (by decide), ?_, ?_,
    within_u64 rfl (by decide), within_slice rfl (by decide), within_slice rfl (by decide)⟩
  · rw [UInt8.ofNat_toNat]
    exact within_byte rfl _
  · rw [UInt32.ofNat_toNat]
    exact within_u32 rfl _

end Inside

/-! ### Round trips -/

/-- Each of the six formats is read back as it was written, whatever follows it, its tags
validate, and no parser returns a field from outside of its input. -/
theorem formats_round_trip (rest : List UInt8) :
    (∀ (active : Option SlotId) (genA genB : UInt64) (key : Bytes 32),
      parseSuperblock ((writeSuperblock active genA genB key).val ++ rest) = some (active, genA, genB) ∧
      superblockKey (writeSuperblock active genA genB key) = key ∧
      superblockValid key (writeSuperblock active genA genB key) = true) ∧
    (∀ (gen : UInt64) (text : ConfigText) (key : Bytes 32), ∃ mac,
      parseConfig ((writeConfig gen text key).val ++ rest) = some (mac, gen, text) ∧
      constantTimeEq (configMac key (writeConfig gen text key)).val mac.val = true) ∧
    (∀ (slot : SlotId) (state : UInt8) (gen : UInt64) (payload : List UInt8)
      (room : payload.length ≤ payloadCap) (sig : Bytes 64),
      state ∈ [slotStateEmpty, slotStateValid, slotStateBad] →
      parseSlotHeader ((writeSlotHeader slot state gen payload room sig).val ++ rest) = some
        { slot, state, generation := gen, payloadLen := UInt32.ofNat payload.length,
          payloadSha := sha256 payload, signature := sig } ∧
      (UInt32.ofNat payload.length).toNat = payload.length) ∧
    (∀ (hdr : Sector) (key : Bytes 32) (ct : List UInt8),
      parseSlotHeader ((sealSlotHeader hdr (slotMac key hdr ct)).val ++ rest) =
        parseSlotHeader (hdr.val ++ rest) ∧
      slotMacOk key (sealSlotHeader hdr (slotMac key hdr ct)) ct = true) ∧
    (∀ (img : List UInt8) (sig : Bytes 64), img ≠ [] → img.length ≤ slotImageMax →
      parseStagePackage (writeStagePackage img sig ++ rest) = some (img, sig)) ∧
    (∀ (slot : UInt8) (name : List UInt8) (version : UInt64) (payload : List UInt8) (sig : Bytes 64)
      (hdr : Sector), writeAppHeader slot name version payload sig = some hdr → payload ≠ [] →
      ∃ named, parseAppHeader (hdr.val ++ rest) =
        some { packedMeta name named version payload sig with slot } ∧
        (packedMeta name named version payload sig).label = name) ∧
    (∀ (hdr : Sector) (key : Bytes 32) (ct : List UInt8),
      parseAppHeader ((hdr.splice 160 (appHeaderMac key hdr ct)).val ++ rest) =
        parseAppHeader (hdr.val ++ rest) ∧
      appHeaderMacOk key (hdr.splice 160 (appHeaderMac key hdr ct)) ct = true) ∧
    (∀ (name : List UInt8) (version : UInt64) (payload : List UInt8) (sig : Bytes 64) (pkg : List UInt8),
      writeAppStagePackage name version payload sig = some pkg →
      ∃ named, parseAppStagePackage (pkg ++ rest) =
          some { packedMeta name named version payload sig with payload } ∧
        (packedMeta name named version payload sig).label = name) ∧
    ∀ bytes : List UInt8,
      (∀ active genA genB, parseSuperblock bytes = some (active, genA, genB) →
        ∃ num : UInt32, active = SlotId.fromNum num ∧ Within bytes 16 (Bytes.ofU32 num).val ∧
          Within bytes 24 (Bytes.ofU64 genA).val ∧ Within bytes 32 (Bytes.ofU64 genB).val) ∧
      (∀ mac gen text, parseConfig bytes = some (mac, gen, text) →
        Within bytes 448 mac.val ∧ Within bytes 8 (Bytes.ofU64 gen).val ∧ Within bytes 32 text.val) ∧
      (∀ hdr, parseSlotHeader bytes = some hdr →
        Within bytes 8 [hdr.slot.num.toUInt8] ∧ Within bytes 9 [hdr.state] ∧
          Within bytes 16 (Bytes.ofU64 hdr.generation).val ∧
            Within bytes 24 (Bytes.ofU32 hdr.payloadLen).val ∧
          Within bytes 32 hdr.payloadSha.val ∧ Within bytes 0x40 hdr.signature.val) ∧
      (∀ img sig, parseStagePackage bytes = some (img, sig) →
        Within bytes 0x80 img ∧ Within bytes 0x38 sig.val) ∧
      (∀ hdr, parseAppHeader bytes = some hdr →
        Within bytes 10 [hdr.slot] ∧ MetaWithin bytes 11 hdr.toAppMeta) ∧
      (∀ pkg, parseAppStagePackage bytes = some pkg →
        Within bytes 192 pkg.payload ∧ MetaWithin bytes 9 pkg.toAppMeta) := by
  refine ⟨fun active genA genB key => ⟨?_, superblockKey_write .., superblockValid_write ..⟩,
    fun gen text key => ⟨_, ?_, constantTimeEq_bytes.mpr rfl⟩,
    fun slot state gen payload room sig defined =>
      ⟨?_, UInt32.toNat_ofNat_of_lt' (room.trans_lt (by decide))⟩,
    fun hdr key ct => ⟨?_, slotMacOk_seal key hdr ct⟩, fun img sig nonempty fits => ?_,
    fun slot name version payload sig hdr written nonempty => ?_,
    fun hdr key ct => ⟨?_, appHeaderMacOk_seal key hdr ct⟩,
      fun name version payload sig pkg written => ?_,
    fun bytes => ⟨fun _ _ _ => parseSuperblock_inside, fun _ _ _ => parseConfig_inside,
      fun _ => parseSlotHeader_inside, fun _ _ => parseStagePackage_inside,
      fun _ => parseAppHeader_inside,
      fun _ => parseAppStagePackage_inside⟩⟩
  · rw [parseSuperblock_longer, parseSuperblock_write]
  · rw [parseConfig_longer, parseConfig_write]
  · have hdefined : state ≤ slotStateBad := by
      rcases List.mem_cons.mp defined with rfl | hlater
      · decide
      rcases List.mem_cons.mp hlater with rfl | hlast
      · decide
      rw [List.mem_singleton.mp hlast]
      exact UInt8.le_refl _
    rw [parseSlotHeader_longer, ← parseSlotHeader_front (slice_sealSlotHeader (Bytes.zeros 32) _)]
    exact parseSlotHeader_seal _ _ _ _ room _ _ hdefined
  · rw [parseSlotHeader_longer, parseSlotHeader_longer, parseSlotHeader_front (slice_sealSlotHeader _ _)]
  · exact parseStagePackage_write img sig rest nonempty fits
  · obtain ⟨named, hparsed⟩ := parseAppHeader_write written (List.length_pos_iff.mpr nonempty)
    refine ⟨named, ?_, packedMeta_label ..⟩
    rw [parseAppHeader_longer, hparsed]
    rfl
  · rw [parseAppHeader_longer, parseAppHeader_longer,
      parseAppHeader_front (Bytes.slice_splice_before _ _ (by decide))]
  · have hnamed : name.length ≤ 24 := by
      unfold writeAppStagePackage appNameMax at written
      split_ifs at written with hbad
      omega
    refine ⟨hnamed, ?_, packedMeta_label ..⟩
    rw [parseAppStagePackage_write hnamed written rest]
    rfl

/-- An image of one byte, with two bytes behind it. -/
theorem formats_round_trip_byte :
    parseStagePackage (writeStagePackage [7] (Bytes.zeros 64) ++ [1, 2]) = some ([7], Bytes.zeros 64) :=
  (formats_round_trip [1, 2]).2.2.2.2.1 [7] (Bytes.zeros 64) (by decide) (by decide)

end Redoubt.Storage
