import Redoubt.Storage.Layout

/-!
# Reading back what was written

Fields survive the fields written after them, tags are computed over the part in
front of them, and longer buffers change nothing.
-/

namespace Redoubt.Storage

open Redoubt.Foundation Redoubt.Crypto

theorem foldl_or_xor_eq_zero (pairs : List (UInt8 × UInt8)) (acc : UInt8) :
    pairs.foldl (fun acc pair => acc ||| (pair.1 ^^^ pair.2)) acc = 0 ↔
      acc = 0 ∧ ∀ pair ∈ pairs, pair.1 = pair.2 := by
  induction pairs generalizing acc with
  | nil => simp
  | cons _ _ ih =>
      rw [List.foldl_cons, ih, UInt8.or_eq_zero_iff, UInt8.xor_eq_zero_iff, and_assoc,
        List.forall_mem_cons]

theorem constantTimeEq_iff {a b : List UInt8} : constantTimeEq a b = true ↔ a = b := by
  unfold constantTimeEq
  by_cases hlen : a.length = b.length
  · rw [if_neg (not_not.mpr hlen), beq_iff_eq, foldl_or_xor_eq_zero]
    constructor
    · rintro ⟨-, hpairs⟩
      apply List.ext_getElem hlen
      intro index hleft hright
      have hmem : (a[index], b[index]) ∈ a.zip b := by
        rw [← List.getElem_zip (h := by simp; omega)]
        exact List.getElem_mem _
      exact hpairs _ hmem
    · rintro rfl
      refine ⟨rfl, fun pair hpair => ?_⟩
      obtain ⟨index, hindex, rfl⟩ := List.mem_iff_getElem.mp hpair
      simp
  · rw [if_pos hlen]
    constructor
    · intro h
      cases h
    · rintro rfl
      exact absurd rfl hlen

@[simp]
theorem constantTimeEq_bytes {size : Nat} {a b : Bytes size} :
    constantTimeEq a.val b.val = true ↔ a = b := by
  rw [constantTimeEq_iff, Subtype.ext_iff]

theorem firstSector?_append (sec : Sector) (rest : List UInt8) :
    firstSector? (sec.val ++ rest) = some sec := by
  have hlen := sec.property
  have hroom : sectorSize ≤ (sec.val ++ rest).length := by
    rw [List.length_append, hlen]
    exact Nat.le_add_right _ _
  rw [firstSector?, dif_pos hroom, cut_append_left (by omega)]
  exact congrArg some (Bytes.slice_all sec le_rfl)

@[simp]
theorem firstSector?_val (sec : Sector) : firstSector? sec.val = some sec := by
  have h := firstSector?_append sec []
  rwa [List.append_nil] at h

@[simp]
theorem SlotId.fromNum_num (slot : SlotId) : SlotId.fromNum slot.num = some slot := by
  cases slot <;> rfl

/-! ### Superblock -/

section Superblock

variable (active : Option SlotId) (genA genB : UInt64) (key : Bytes 32)

theorem fromNum_activeNum : SlotId.fromNum ((active.map SlotId.num).getD 0) = active := by
  cases active with
  | none => rfl
  | some slot => exact SlotId.fromNum_num slot

theorem parseSuperblock_write :
    parseSuperblock (writeSuperblock active genA genB key).val = some (active, genA, genB) := by
  unfold parseSuperblock
  rw [firstSector?_val]
  simp (disch := decide) [writeSuperblock, Bytes.slice_splice_before, fromNum_activeNum]

theorem superblockKey_write : superblockKey (writeSuperblock active genA genB key) = key := by
  simp (disch := decide) [superblockKey, writeSuperblock, Bytes.slice_splice_before]

theorem superblockValid_write : superblockValid key (writeSuperblock active genA genB key) = true := by
  simp (disch := decide) [superblockValid, superblockMac, writeSuperblock,
    Bytes.slice_splice_before]

end Superblock

/-! ### Runtime configuration -/

section Config

variable (gen : UInt64) (text : ConfigText) (key : Bytes 32)

theorem configMagic_write : (writeConfig gen text key).slice 0 8 = cfgMagic := by
  simp (disch := decide) [writeConfig, Bytes.slice_splice_before]

theorem configLength_write : ((writeConfig gen text key).slice 16 2).toU16.toNat = text.val.length := by
  have hroom := text.property
  unfold cfgTextMax at hroom
  simp (disch := decide) [writeConfig, Bytes.slice_splice_before]
  omega

theorem configTag_write :
    (writeConfig gen text key).slice 448 32 = configMac key (writeConfig gen text key) := by
  simp (disch := decide) [writeConfig, configMac, Bytes.slice_splice_before]

theorem configText_write (inside : 32 + text.val.length ≤ 512) :
    (writeConfig gen text key).slice 32 text.val.length inside = Bytes.ofList text.val := by
  have hroom := text.property
  unfold cfgTextMax at hroom
  rw [writeConfig, Bytes.slice_splice_before _ _ (by omega), Bytes.slice_splice_self]

theorem parseConfig_write : parseConfig (writeConfig gen text key).val =
    some (configMac key (writeConfig gen text key), gen, text) := by
  have hroom := text.property
  unfold cfgTextMax at hroom
  have hgen : ((writeConfig gen text key).slice 8 8).toU64 = gen := by
    simp (disch := decide) [writeConfig, Bytes.slice_splice_before]
  have hlen := configLength_write gen text key
  have htext := configText_write gen text key (by omega)
  have htag := configTag_write gen text key
  unfold parseConfig
  rw [firstSector?_val, Option.bind_eq_bind, Option.bind_some,
    if_neg (not_not.mpr (configMagic_write gen text key))]
  dsimp only
  rw [dif_pos (hlen.trans_le text.property), hgen, htag]
  congr 3
  refine Subtype.ext ?_
  dsimp only
  rw [Bytes.slice_val, hlen, ← Bytes.slice_val (by omega : 32 + text.val.length ≤ 512), htext]
  rfl

end Config

/-! ### Slots -/

section Slot

variable (slot : SlotId) (state : UInt8) (gen : UInt64) (payload : List UInt8)
  (room : payload.length ≤ payloadCap) (sig : Bytes 64) (mac : Bytes 32)

theorem fromNum_slotByte : SlotId.fromNum (slot.num % 256) = some slot := by
  cases slot <;> rfl

/-- The fields lie in front of the tag. -/
theorem parseSlotHeader_front {hdr other : Sector} (same : other.slice 0 0x80 = hdr.slice 0 0x80) :
    parseSlotHeader other.val = parseSlotHeader hdr.val := by
  unfold parseSlotHeader
  rw [firstSector?_val, firstSector?_val]
  simp (disch := decide) only [Option.bind_eq_bind, Option.bind_some, Bytes.slice_of_front same,
    Bytes.byte_of_front same]

/-- Storing the tag leaves the header fields. -/
theorem parseSlotHeader_seal (defined : state ≤ slotStateBad) :
    parseSlotHeader (sealSlotHeader (writeSlotHeader slot state gen payload room sig) mac).val =
      some
        { slot
          state
          generation := gen
          payloadLen := UInt32.ofNat payload.length
          payloadSha := sha256 payload
          signature := sig } := by
  unfold parseSlotHeader
  rw [firstSector?_val]
  simp (disch := decide) [sealSlotHeader, writeSlotHeader, Bytes.slice_splice_before,
    Bytes.byte_splice_self, Bytes.byte_splice_before, fromNum_slotByte, UInt8.not_lt.mpr defined]

/-- Storing the tag leaves the part it is computed over. -/
theorem slice_sealSlotHeader (hdr : Sector) :
    (sealSlotHeader hdr mac).slice 0 0x80 = hdr.slice 0 0x80 :=
  Bytes.slice_splice_before _ _ (by decide)

theorem tag_sealSlotHeader (hdr : Sector) : (sealSlotHeader hdr mac).slice 0x80 32 = mac :=
  Bytes.slice_splice_self _

theorem length_buildSlotImage (key : Bytes 32) :
    (buildSlotImage gen payload room sig key).length = 1024 + payload.length := by
  simp only [buildSlotImage, List.length_append, Bytes.length_val, ChaCha20.length_xorStream]

end Slot

/-! ### Update packages -/

/-- A header that announces the image behind it. -/
theorem parseStagePackage_append (hdr : Bytes 128) (img rest : List UInt8)
    (hmagic : hdr.slice 0 7 = pkgMagic) (hversion : hdr.byte 7 = 2)
    (hlen : (hdr.slice 0x10 8).toU64.toNat = img.length) (nonempty : img ≠ [])
    (fits : img.length ≤ slotImageMax) :
    parseStagePackage (hdr.val ++ img ++ rest) = some (img, hdr.slice 0x38 64) := by
  have hpos : 0 < img.length := List.length_pos_iff.mpr nonempty
  have htotal : (hdr.val ++ img ++ rest).length = 128 + img.length + rest.length := by
    rw [List.length_append, List.length_append, hdr.property]
  have hhdr : cut (hdr.val ++ img ++ rest) 0 128 (by omega) = hdr := by
    rw [cut_append_left (by simp), Bytes.cut_val_append]
  unfold parseStagePackage
  rw [dif_pos (by rw [htotal, pkgImageOff]; omega)]
  simp only [cut_val, hhdr, hmagic, hversion, hlen]
  have hoff : hdr.val.length = pkgImageOff := hdr.property
  rw [if_neg (by simp), dif_neg (by rw [htotal, pkgImageOff]; omega), List.append_assoc,
    List.drop_left' hoff, List.take_left]

theorem length_writeStagePackage (img : List UInt8) (sig : Bytes 64) :
    (writeStagePackage img sig).length = 128 + img.length := by
  simp [writeStagePackage]

/-- A staged image is read back from a buffer with any bytes behind it. -/
theorem parseStagePackage_write (img : List UInt8) (sig : Bytes 64) (rest : List UInt8)
    (nonempty : img ≠ []) (fits : img.length ≤ slotImageMax) :
    parseStagePackage (writeStagePackage img sig ++ rest) = some (img, sig) := by
  have hmagic : (stageHeader img sig).slice 0 7 = pkgMagic := by
    simp (disch := decide) [stageHeader, Bytes.slice_splice_before]
  have hversion : (stageHeader img sig).byte 7 = 2 := by
    simp (disch := decide) [stageHeader, Bytes.byte_splice_self, Bytes.byte_splice_before]
  have hlen : ((stageHeader img sig).slice 0x10 8).toU64 = UInt64.ofNat img.length := by
    simp (disch := decide) [stageHeader, Bytes.slice_splice_before]
  have hsig : (stageHeader img sig).slice 0x38 64 = sig := by
    simp [stageHeader]
  have hsmall : img.length < 2 ^ 64 := fits.trans_lt (by decide)
  rw [writeStagePackage, parseStagePackage_append _ _ _ hmagic hversion _ nonempty fits, hsig]
  rw [hlen, UInt64.toNat_ofNat_of_lt' hsmall]

/-! ### Application packages -/

/-- A field that starts with an overwritten part. -/
theorem slice_splice_start {size width len off : Nat} {bytes : Bytes size} {data : Bytes width}
    (inside : off + width ≤ size) (inside' : off + len ≤ size) (fits : 0 + width ≤ len) :
    (bytes.splice off data inside).slice off len inside' =
      (bytes.slice off len inside').splice 0 data fits := by
  apply Subtype.ext
  have hlen := bytes.property
  have hdata := data.property
  have htake : (bytes.val.take off).length = off := by simp; omega
  change ((bytes.val.take off ++ data.val ++ bytes.val.drop (off + width)).drop off).take len =
    ((bytes.val.drop off).take len).take 0 ++ data.val ++ ((bytes.val.drop off).take len).drop (0 + width)
  rw [List.append_assoc, List.drop_left' htake, List.take_append, List.take_of_length_le (by omega),
    List.take_zero, List.nil_append, Nat.zero_add, List.drop_take, List.drop_drop, hdata]

/-- The fields of the header of a package. -/
theorem appStageHeader_fields (name : List UInt8) (version : UInt64) (payload : List UInt8)
    (sig : Bytes 64) (named : name.length ≤ appNameMax) :
    let hdr := appStageHeader name version payload sig named
    hdr.slice 0 8 = appPkgMagic ∧ hdr.byte 8 = appFormatVersion ∧ hdr.byte 9 = UInt8.ofNat name.length ∧
      (hdr.slice 12 4).toU32 = UInt32.ofNat payload.length ∧ (hdr.slice 16 8).toU64 = version ∧
      hdr.slice 32 24 = (Bytes.zeros 24).splice 0 (Bytes.ofList name)
        (by simpa [appNameMax] using named) ∧
      hdr.slice 64 32 = sha256 payload ∧ hdr.slice 96 64 = sig := by
  have hnamed : name.length ≤ 24 := named
  have hblank : (Bytes.zeros 192).slice 32 24 = Bytes.zeros 24 := rfl
  dsimp only
  unfold appStageHeader
  dsimp only
  refine ⟨?_, ?_, ?_, ?_, ?_, ?_, ?_, ?_⟩
  · simp (disch := omega) only [Bytes.slice_splice_before, Bytes.slice_splice_self]
  · simp (disch := omega) only [Bytes.byte_splice_before, Bytes.byte_splice_self]
  · simp (disch := omega) only [Bytes.byte_splice_before, Bytes.byte_splice_self]
  · simp (disch := omega) only [Bytes.slice_splice_before, Bytes.slice_splice_self, Bytes.toU32_ofU32]
  · simp (disch := omega) only [Bytes.slice_splice_before, Bytes.slice_splice_self, Bytes.toU64_ofU64]
  · simp (disch := omega) only [Bytes.slice_splice_before, slice_splice_start,
      Bytes.slice_splice_after, hblank]
  · simp (disch := omega) only [Bytes.slice_splice_before, Bytes.slice_splice_self]
  · simp (disch := omega) only [Bytes.slice_splice_self]

/-- The same for the header of an application slot. -/
theorem appHeader_fields {slot : UInt8} {name : List UInt8} {version : UInt64} {payload : List UInt8}
    {sig : Bytes 64} {hdr : Sector} (written : writeAppHeader slot name version payload sig = some hdr) :
    ∃ named : name.length ≤ 24, hdr.slice 0 8 = appMagic ∧ hdr.byte 8 = appFormatVersion ∧
      hdr.byte 9 = appStateValid ∧ hdr.byte 10 = slot ∧ hdr.byte 11 = UInt8.ofNat name.length ∧
      (hdr.slice 12 4).toU32 = UInt32.ofNat payload.length ∧ (hdr.slice 16 8).toU64 = version ∧
      hdr.slice 32 24 = (Bytes.zeros 24).splice 0 (Bytes.ofList name) (by omega) ∧
      hdr.slice 64 32 = sha256 payload ∧ hdr.slice 96 64 = sig ∧
      slot.toNat < appSlots ∧ name ≠ [] ∧ payload.length ≤ appPayloadCap := by
  unfold writeAppHeader at written
  split_ifs at written with hbad
  push Not at hbad
  obtain ⟨hslot, hname, hnamed, hroom⟩ := hbad
  unfold appNameMax at hnamed
  have hblank : (Bytes.zeros 512).slice 32 24 = Bytes.zeros 24 := rfl
  rw [← Option.some.inj written]
  refine ⟨hnamed, ?_, ?_, ?_, ?_, ?_, ?_, ?_, ?_, ?_, ?_, hslot, hname, hroom⟩
  · simp (disch := omega) only [Bytes.slice_splice_before, Bytes.slice_splice_self]
  · simp (disch := omega) only [Bytes.byte_splice_before, Bytes.byte_splice_self]
  · simp (disch := omega) only [Bytes.byte_splice_before, Bytes.byte_splice_self]
  · simp (disch := omega) only [Bytes.byte_splice_before, Bytes.byte_splice_self]
  · simp (disch := omega) only [Bytes.byte_splice_before, Bytes.byte_splice_self]
  · simp (disch := omega) only [Bytes.slice_splice_before, Bytes.slice_splice_self, Bytes.toU32_ofU32]
  · simp (disch := omega) only [Bytes.slice_splice_before, Bytes.slice_splice_self, Bytes.toU64_ofU64]
  · simp (disch := omega) only [Bytes.slice_splice_before, slice_splice_start,
      Bytes.slice_splice_after, hblank]
  · simp (disch := omega) only [Bytes.slice_splice_before, Bytes.slice_splice_self]
  · simp (disch := omega) only [Bytes.slice_splice_self]

theorem parseAppHeader_front {hdr other : Sector} (same : other.slice 0 160 = hdr.slice 0 160) :
    parseAppHeader other.val = parseAppHeader hdr.val := by
  unfold parseAppHeader
  rw [firstSector?_val, firstSector?_val]
  simp (disch := decide) only [Option.bind_eq_bind, Option.bind_some, Bytes.slice_of_front same,
    Bytes.byte_of_front same]

/-- The header of an application slot is read back. -/
theorem parseAppHeader_write {slot : UInt8} {name : List UInt8} {version : UInt64} {payload : List UInt8}
    {sig : Bytes 64} {hdr : Sector} (written : writeAppHeader slot name version payload sig = some hdr)
    (carried : 0 < payload.length) :
    ∃ named : name.length ≤ 24, parseAppHeader hdr.val = some
      { slot
        name := (Bytes.zeros 24).splice 0 (Bytes.ofList name) (by omega)
        nameLen := name.length
        payloadLen := payload.length
        version
        payloadSha := sha256 payload
        signature := sig
        nameFits := named } := by
  obtain ⟨named, hmagic, hformat, hstate, hown, hnameLen, hpayloadLen, hversion, hname, hsha, hsig, hslot,
    hne, hroom⟩ := appHeader_fields written
  have hpos : 0 < name.length := List.length_pos_iff.mpr hne
  have hcount : (UInt8.ofNat name.length).toNat = name.length :=
    UInt8.toNat_ofNat_of_lt' (named.trans_lt (by decide))
  have hbytes : (UInt32.ofNat payload.length).toNat = payload.length :=
    UInt32.toNat_ofNat_of_lt' (hroom.trans_lt (by decide))
  have hgood : ¬ (name.length = 0 ∨ appNameMax < name.length ∨ payload.length = 0 ∨
      appPayloadCap < payload.length) := by
    unfold appNameMax
    omega
  refine ⟨named, ?_⟩
  unfold parseAppHeader
  rw [firstSector?_val]
  simp only [Option.bind_eq_bind, Option.bind_some, hmagic, hformat, hstate, hown, hnameLen, hpayloadLen,
    hversion, hname, hsha, hsig, hcount, hbytes]
  rw [if_neg (by simp), if_neg (by simpa using hslot), dif_neg hgood]

/-- A header that announces the name in it and the payload behind it. -/
theorem parseAppStagePackage_append (hdr : Bytes 192) {named : Nat} {payload : List UInt8}
    (rest : List UInt8) (hmagic : hdr.slice 0 8 = appPkgMagic) (hversion : hdr.byte 8 = appFormatVersion)
    (hname : (hdr.byte 9).toNat = named) (hlen : (hdr.slice 12 4).toU32.toNat = payload.length)
    (nonempty : 0 < named) (fits : named ≤ 24) (carried : 0 < payload.length)
    (capped : payload.length ≤ appStageCap) :
    parseAppStagePackage (hdr.val ++ payload ++ rest) = some
      { name := hdr.slice 32 24
        nameLen := named
        payloadLen := payload.length
        version := (hdr.slice 16 8).toU64
        payloadSha := hdr.slice 64 32
        signature := hdr.slice 96 64
        nameFits := fits
        payload } := by
  have htotal : (hdr.val ++ payload ++ rest).length = 192 + payload.length + rest.length := by
    rw [List.length_append, List.length_append, hdr.property]
  have hhdr : cut (hdr.val ++ payload ++ rest) 0 192 (by omega) = hdr := by
    rw [cut_append_left (by simp), Bytes.cut_val_append]
  have hoff : hdr.val.length = appPkgHeader := hdr.property
  unfold parseAppStagePackage
  rw [dif_pos (by rw [htotal, appPkgHeader]; omega)]
  simp only [cut_val, hhdr, hmagic, hversion, hname, hlen]
  have hbehind : ((hdr.val ++ payload ++ rest).drop appPkgHeader).take payload.length = payload := by
    rw [List.append_assoc, List.drop_left' hoff, List.take_left]
  have hnamed :
      ¬ (named = 0 ∨ appNameMax < named ∨ payload.length = 0 ∨ appStageCap < payload.length) := by
    unfold appNameMax
    omega
  have hroom : ¬ (hdr.val ++ payload ++ rest).length < appPkgHeader + payload.length := by
    rw [htotal, appPkgHeader]
    omega
  rw [if_neg (by simp), dif_neg hnamed, dif_neg hroom]
  simp only [hbehind]

/-- A package is read back from a staging area with any bytes behind it. -/
theorem parseAppStagePackage_write {name payload pkg : List UInt8} {version : UInt64} {sig : Bytes 64}
    (named : name.length ≤ 24) (written : writeAppStagePackage name version payload sig = some pkg)
    (rest : List UInt8) : parseAppStagePackage (pkg ++ rest) = some
      { name := (Bytes.zeros 24).splice 0 (Bytes.ofList name) (by omega)
        nameLen := name.length
        payloadLen := payload.length
        version
        payloadSha := sha256 payload
        signature := sig
        nameFits := named
        payload } := by
  unfold writeAppStagePackage at written
  split_ifs at written with hbounds
  simp only [not_or, ← List.length_pos_iff] at hbounds
  have hcap : payload.length < 2 ^ 32 := lt_of_le_of_lt (by omega : _ ≤ appStageCap) (by decide)
  obtain ⟨hmagic, hversion, hnameLen, hpayloadLen, hver, hname, hsha, hsig⟩ :=
    appStageHeader_fields name version payload sig named
  rw [← Option.some.inj written, parseAppStagePackage_append _ rest hmagic hversion
    (by rw [hnameLen, UInt8.toNat_ofNat_of_lt' (named.trans_lt (by decide))])
    (by rw [hpayloadLen, UInt32.toNat_ofNat_of_lt' hcap])
    hbounds.1 named hbounds.2.2.1 (by omega)]
  simp only [hver, hname, hsha, hsig]

/-! ### Named applications -/

/-- The metadata of an application with this name. -/
def packedMeta (name : List UInt8) (named : name.length ≤ 24) (version : UInt64) (payload : List UInt8)
    (signature : Bytes 64) : AppMeta where
  name := (Bytes.zeros 24).splice 0 (Bytes.ofList name) (by omega)
  nameLen := name.length
  payloadLen := payload.length
  version := version
  payloadSha := sha256 payload
  signature := signature
  nameFits := named

theorem packedMeta_label (name : List UInt8) (named : name.length ≤ 24) (version : UInt64)
    (payload : List UInt8) (signature : Bytes 64) :
    (packedMeta name named version payload signature).label = name := by
  unfold AppMeta.label packedMeta
  dsimp only
  rw [Bytes.slice_splice_self]
  rfl

end Redoubt.Storage
