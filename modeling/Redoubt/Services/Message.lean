import Redoubt.Storage.Text
import Mathlib.Data.List.OfFn
import Mathlib.Data.List.TakeWhile
import Mathlib.Data.Nat.Digits.Defs

/-!
# Messages between services

A call carries five words, which hold up to 40 bytes.  Text is packed with zeros behind it
and unpacked up to the first zero; binary data is unpacked whole.  Numbers in replies are
read the way the standard library of the services reads them.
-/

namespace Redoubt.Services

open Redoubt.Foundation Redoubt.Storage

/-- The payload of a call or of its reply. -/
abbrev Words := Fin 5 → UInt64

/-- Eight bytes, with zeros where the chunk is shorter. -/
def padWord (chunk : List UInt8) : Bytes 8 :=
  ⟨chunk.take 8 ++ List.replicate (8 - chunk.length) 0, by simp; omega⟩

namespace Msg

def pack (bytes : List UInt8) : Words := fun index => (padWord (bytes.drop (8 * index))).toU64

/-- The bytes of the words up to the first zero. -/
def unpackWords : List UInt64 → List UInt8
  | [] => []
  | word :: words =>
      let text := (Bytes.ofU64 word).val.takeWhile (· ≠ 0)
      if text.length < 8 then text else text ++ unpackWords words

def unpack (words : Words) : List UInt8 := unpackWords (List.ofFn words)

end Msg

namespace Raw

/-- All 40 bytes of a message. -/
def bytesOf (words : Words) : List UInt8 := (List.ofFn words).flatMap fun word => (Bytes.ofU64 word).val

/-- The bytes go through a buffer of 40 zeros. -/
def pack (bytes : List UInt8) : Words :=
  let tmp := (Bytes.zeros 40).splice 0 (Bytes.ofList (bytes.take (min bytes.length 40))) (by simp)
  fun index => (tmp.slice (8 * index) 8 (by omega)).toU64

/-- Overwrite a part of a buffer. -/
def copyInto (out : List UInt8) (off : Nat) (data : List UInt8) : List UInt8 :=
  out.take off ++ data ++ out.drop (off + data.length)

/-- The bytes of a word of a message. -/
def wordBytes (words : Words) (index : Nat) : List UInt8 :=
  (Bytes.ofU64 ((List.ofFn words).getD index 0)).val

/-- Fill a buffer from a message: whole words, then the bytes of the next one that fit. -/
def unpackAll (words : Words) (out : List UInt8) : List UInt8 :=
  let n := min out.length 40
  let filled :=
    (List.range (n / 8)).foldl (fun out index => copyInto out (8 * index) (wordBytes words index)) out
  if 0 < n % 8 then copyInto filled (8 * (n / 8)) ((wordBytes words (n / 8)).take (n % 8)) else filled

end Raw

/-! ### Round trips -/

/-- The bytes of a list of packed chunks. -/
theorem flatMap_padWord (count : Nat) (bytes : List UInt8) :
    ((List.range count).flatMap fun index => (padWord (bytes.drop (8 * index))).val) =
      bytes.take (8 * count) ++ List.replicate (8 * count - bytes.length) 0 := by
  induction count generalizing bytes with
  | zero => simp
  | succ count ih =>
      have hrest : ((List.range count).flatMap fun index =>
          (padWord (bytes.drop (8 * (index + 1)))).val) =
          (bytes.drop 8).take (8 * count) ++ List.replicate (8 * count - (bytes.drop 8).length) 0 := by
        rw [← ih (bytes.drop 8)]
        simp only [List.drop_drop, Nat.mul_add, Nat.mul_one, Nat.add_comm]
      have hword : (padWord bytes).val = bytes.take 8 ++ List.replicate (8 - bytes.length) 0 := rfl
      rw [List.range_succ_eq_map, List.flatMap_cons, List.flatMap_map, hrest, Nat.mul_zero,
        List.drop_zero, hword]
      by_cases hlong : 8 ≤ bytes.length
      · have hpad : 8 - bytes.length = 0 := by omega
        have hsize : 8 * (count + 1) = 8 + 8 * count := by omega
        have hzeros : 8 * count - (bytes.drop 8).length = 8 * (count + 1) - bytes.length := by
          rw [List.length_drop]
          omega
        rw [hpad, hzeros, List.replicate_zero, List.append_nil, ← List.append_assoc, hsize, List.take_add]
      · have hnil : bytes.drop 8 = [] := List.drop_eq_nil_of_le (by omega)
        rw [hnil, List.take_nil, List.nil_append, List.length_nil, Nat.sub_zero, List.append_assoc,
          List.replicate_append_replicate, List.take_of_length_le (by omega),
          List.take_of_length_le (by omega)]
        congr 2
        omega

theorem Raw.bytesOf_pack (bytes : List UInt8) :
    bytesOf (Msg.pack bytes) = bytes.take 40 ++ List.replicate (40 - bytes.length) 0 := by
  rw [← flatMap_padWord 5 bytes]
  simp [bytesOf, Msg.pack, List.ofFn, Fin.foldr, Fin.foldr.loop, List.range, List.range.loop]

namespace Raw

theorem length_flatMap_words (words : List UInt64) :
    (words.flatMap fun word => (Bytes.ofU64 word).val).length = 8 * words.length := by
  induction words with
  | nil => rfl
  | cons word rest ih =>
      rw [List.flatMap_cons, List.length_append, ih, Bytes.length_val, List.length_cons]
      omega

theorem length_bytesOf (words : Words) : (bytesOf words).length = 40 := by
  rw [bytesOf, length_flatMap_words, List.length_ofFn]

theorem wordBytes_eq (words : Words) {index : Nat} (h : index < 5) :
    wordBytes words index = ((bytesOf words).drop (8 * index)).take 8 := by
  have hall : ∀ (words : List UInt64) (index : Nat), index < words.length →
      (Bytes.ofU64 (words.getD index 0)).val =
        ((words.flatMap fun word => (Bytes.ofU64 word).val).drop (8 * index)).take 8 := by
    intro words
    induction words with
    | nil => exact fun _ hindex => absurd hindex (Nat.not_lt_zero _)
    | cons word rest ih =>
        intro index hindex
        rw [List.flatMap_cons]
        cases index with
        | zero =>
            rw [Nat.mul_zero, List.drop_zero, List.take_left' (Bytes.length_val _)]
            rfl
        | succ index =>
            have hoff : 8 * (index + 1) = 8 + 8 * index := by omega
            rw [hoff, ← List.drop_drop, List.drop_left' (Bytes.length_val _)]
            exact ih index (Nat.lt_of_succ_lt_succ hindex)
  exact hall _ _ (by rwa [List.length_ofFn])

/-- Bytes of a source that go behind those that are already in a buffer. -/
theorem copyInto_next {source out : List UInt8} {off count : Nat} (room : off + count ≤ source.length) :
    copyInto (source.take off ++ out.drop off) off ((source.drop off).take count) =
      source.take (off + count) ++ out.drop (off + count) := by
  have hfront : (source.take off).length = off := by
    rw [List.length_take]
    omega
  have hdata : ((source.drop off).take count).length = count := by
    rw [List.length_take, List.length_drop]
    omega
  rw [copyInto, List.take_left' hfront, hdata, ← List.drop_drop, List.drop_left' hfront, List.drop_drop,
    List.take_add]

/-- The first bytes of a buffer are those of the message. -/
theorem unpackAll_eq (words : Words) (out : List UInt8) :
    unpackAll words out = (bytesOf words).take (min out.length 40) ++ out.drop (min out.length 40) := by
  have hlen := length_bytesOf words
  have hfill : ∀ count, 8 * count ≤ min out.length 40 →
      (List.range count).foldl (fun out index => copyInto out (8 * index) (wordBytes words index)) out =
        (bytesOf words).take (8 * count) ++ out.drop (8 * count) := by
    intro count
    induction count with
    | zero => exact fun _ => rfl
    | succ count ih =>
        intro hroom
        rw [List.range_succ, List.foldl_append, ih (by omega), List.foldl_cons, List.foldl_nil,
          wordBytes_eq words (by omega), copyInto_next (by omega), Nat.mul_succ]
  unfold unpackAll
  dsimp only
  generalize hn : min out.length 40 = n at *
  rw [hfill _ (by omega)]
  have hsplit : 8 * (n / 8) + n % 8 = n := Nat.div_add_mod n 8
  split_ifs with hrem
  · rw [wordBytes_eq words (by omega), List.take_take, min_eq_left (by omega), copyInto_next (by omega),
      hsplit]
  · rw [show 8 * (n / 8) = n by omega]

/-- The two encoders agree. -/
theorem pack_eq (bytes : List UInt8) : pack bytes = Msg.pack bytes := by
  funext index
  have hindex := index.isLt
  refine congrArg Bytes.toU64 (Subtype.ext ?_)
  have hcut : (bytes.take (min bytes.length 40)).length = min bytes.length 40 := by
    rw [List.length_take]
    omega
  have hzeros : ((Bytes.zeros 40).val.drop (0 + (bytes.take (min bytes.length 40)).length)) =
      List.replicate (40 - bytes.length) 0 := by
    change (List.replicate 40 0).drop _ = _
    rw [List.drop_replicate, hcut]
    congr 1
    omega
  have hpad : (padWord (bytes.drop (8 * index))).val =
      ((bytes.take 40 ++ List.replicate (40 - bytes.length) 0).drop (8 * index)).take 8 := by
    change (bytes.drop (8 * index)).take 8 ++ List.replicate (8 - (bytes.drop (8 * index)).length) 0 = _
    rw [List.drop_append, List.take_append, List.drop_take, List.take_take, List.drop_replicate,
      List.take_replicate, List.length_drop, List.length_take, List.length_take, List.length_drop]
    congr 2
    · omega
    · omega
  rw [Bytes.slice_val, hpad]
  change ((((Bytes.zeros 40).val.take 0 ++ bytes.take (min bytes.length 40)) ++
    (Bytes.zeros 40).val.drop (0 + (bytes.take (min bytes.length 40)).length)).drop
      (8 * index)).take 8 = _
  rw [hzeros, List.take_zero, List.nil_append, min_comm, ← List.take_eq_take_min]

end Raw

namespace Msg

/-- Unpacking stops at the first zero of all the bytes. -/
theorem unpackWords_eq (words : List UInt64) :
    unpackWords words = (words.flatMap fun word => (Bytes.ofU64 word).val).takeWhile (· ≠ 0) := by
  induction words with
  | nil => rfl
  | cons word _ ih =>
      have hlen := (Bytes.ofU64 word).property
      rw [unpackWords, List.flatMap_cons]
      generalize (Bytes.ofU64 word).val = bytes at hlen ⊢
      by_cases hzero : (bytes.takeWhile (· ≠ 0)).length < 8
      · rw [if_pos hzero, List.takeWhile_append, if_neg (by omega)]
      · have hwhole : bytes.takeWhile (· ≠ 0) = bytes :=
          (List.takeWhile_prefix _).eq_of_length (by
            have hle := (List.takeWhile_prefix (l := bytes) (· ≠ 0)).length_le
            omega)
        rw [if_neg hzero, List.takeWhile_append, if_pos (by rw [hwhole]), hwhole, ih]

theorem unpack_eq (words : Words) : unpack words = (Raw.bytesOf words).takeWhile (· ≠ 0) :=
  unpackWords_eq _

/-- Text is cut to 40 bytes and at its first zero. -/
theorem unpack_pack (bytes : List UInt8) : unpack (pack bytes) = (bytes.take 40).takeWhile (· ≠ 0) := by
  rw [unpack_eq, Raw.bytesOf_pack, List.takeWhile_append]
  split_ifs with hwhole
  · have hzeros : (List.replicate (40 - bytes.length) (0 : UInt8)).takeWhile (· ≠ 0) = [] := by
      cases 40 - bytes.length <;> simp [List.replicate]
    rw [hzeros, List.append_nil]
    exact ((List.takeWhile_prefix _).eq_of_length hwhole).symm
  · rfl

/-- Short text without zeros arrives as it is. -/
theorem unpack_pack_text {bytes : List UInt8} (short : bytes.length ≤ 40) (nonzero : 0 ∉ bytes) :
    unpack (pack bytes) = bytes := by
  rw [unpack_pack, List.take_of_length_le short, List.takeWhile_eq_self_iff]
  intro byte hbyte
  exact decide_eq_true fun heq => nonzero (heq ▸ hbyte)

end Msg

/-- The longest part without a zero at the front. -/
theorem takeWhile_longest {bytes text : List UInt8} (front : text <+: bytes) (nonzero : 0 ∉ text) :
    text <+: bytes.takeWhile (· ≠ 0) := by
  obtain ⟨rest, rfl⟩ := front
  have hwhole : text.takeWhile (· ≠ 0) = text := by
    rw [List.takeWhile_eq_self_iff]
    intro byte hbyte
    exact decide_eq_true fun heq => nonzero (heq ▸ hbyte)
  rw [List.takeWhile_append, if_pos (by rw [hwhole])]
  exact List.prefix_append _ _

/-- Text comes back up to its first zero and to 40 bytes, both encoders agree, and a buffer
of any size receives the bytes that were packed. -/
theorem ipc_codecs_exact (bytes : List UInt8) :
    (Msg.unpack (Msg.pack bytes) <+: bytes.take 40 ∧ 0 ∉ Msg.unpack (Msg.pack bytes) ∧
      ∀ text, text <+: bytes.take 40 → 0 ∉ text → text <+: Msg.unpack (Msg.pack bytes)) ∧
    Raw.pack bytes = Msg.pack bytes ∧
    (∀ out : List UInt8, Raw.unpackAll (Msg.pack bytes) out =
      (bytes.take 40 ++ List.replicate (40 - bytes.length) 0).take (min out.length 40) ++
        out.drop (min out.length 40)) ∧
    ∀ out : List UInt8, bytes.length ≤ 40 → bytes.length ≤ out.length →
      (Raw.unpackAll (Msg.pack bytes) out).take bytes.length = bytes := by
  have hfill : ∀ out : List UInt8, Raw.unpackAll (Msg.pack bytes) out =
      (bytes.take 40 ++ List.replicate (40 - bytes.length) 0).take (min out.length 40) ++
        out.drop (min out.length 40) := by
    intro out
    rw [Raw.unpackAll_eq, Raw.bytesOf_pack]
  refine ⟨?_, Raw.pack_eq bytes, hfill, fun out short room => ?_⟩
  · rw [Msg.unpack_pack]
    refine ⟨List.takeWhile_prefix _, fun hzero => ?_, fun text => takeWhile_longest⟩
    have hnonzero := List.mem_takeWhile_imp hzero
    simp at hnonzero
  · rw [hfill, List.take_of_length_le short, List.take_append_of_le_length (by simp; omega),
      List.take_take, min_eq_left (by omega), List.take_left]

/-- Three bytes with a zero among them, into a buffer of five. -/
theorem ipc_codecs_exact_three :
    (Raw.unpackAll (Msg.pack [1, 0, 2]) [9, 9, 9, 9, 9]).take 3 = [1, 0, 2] :=
  (ipc_codecs_exact [1, 0, 2]).2.2.2 [9, 9, 9, 9, 9] (by decide) (by decide)

/-! ### Numbers in replies -/

/-- White space in the sense of the Unicode property. -/
def isWhite (char : Char) : Bool :=
  let code := char.toNat
  (9 ≤ code && code ≤ 13) || code == 32 || code == 0x85 || code == 0xA0 || code == 0x1680 ||
    (0x2000 ≤ code && code ≤ 0x200A) || code == 0x2028 || code == 0x2029 || code == 0x202F ||
    code == 0x205F || code == 0x3000

def trimWhite (text : List Char) : List Char :=
  ((text.dropWhile isWhite).reverse.dropWhile isWhite).reverse

def asciiByte (char : Char) : Option UInt8 :=
  if char.toNat < 128 then some (UInt8.ofNat char.toNat) else none

/-- A number with white space around it, in valid UTF-8. -/
def parseTrimmed (bytes : List UInt8) : Option UInt64 := do
  let text ← String.fromUTF8? ⟨bytes.toArray⟩
  let digits ← (trimWhite text.toList).mapM asciiByte
  parseNum digits

def digitByte (digit : Nat) : UInt8 := UInt8.ofNat (48 + digit)

theorem digitByte_toNat {digit : Nat} (h : digit < 10) : (digitByte digit).toNat = 48 + digit := by
  rw [digitByte, UInt8.toNat_ofNat', Nat.mod_eq_of_lt (by omega)]

theorem digitValue_digitByte {digit : Nat} (h : digit < 10) :
    digitValue (digitByte digit) = some digit := by
  have hbyte := digitByte_toNat h
  have hlow : (48 : UInt8) ≤ digitByte digit := by
    rw [UInt8.le_iff_toNat_le, hbyte]
    exact Nat.le_add_right 48 digit
  have hhigh : digitByte digit ≤ 57 := by
    rw [UInt8.le_iff_toNat_le, hbyte]
    exact Nat.add_le_add_left (Nat.le_of_lt_succ h) 48
  rw [digitValue, if_pos ⟨hlow, hhigh⟩, hbyte, Nat.add_sub_cancel_left]

theorem digitsLe_eq_digits {fuel value : Nat} (h : value < 10 ^ fuel) :
    digitsLe fuel value = (Nat.digits 10 value).map digitByte := by
  induction fuel generalizing value with
  | zero =>
      have hzero : value = 0 := by omega
      rw [hzero, Nat.digits_zero]
      rfl
  | succ _ ih =>
      rw [digitsLe]
      by_cases hzero : value = 0
      · rw [if_pos hzero, hzero, Nat.digits_zero]
        rfl
      · rw [if_neg hzero, Nat.digits_def' (by omega) (by omega), List.map_cons,
          ih (by rw [Nat.pow_succ] at h; omega)]
        rfl

/-- The digits of a number, the most significant one first. -/
def decimal (value : Nat) : List Nat := if value = 0 then [0] else (Nat.digits 10 value).reverse

theorem decimal_lt {value digit : Nat} (h : digit ∈ decimal value) : digit < 10 := by
  unfold decimal at h
  split_ifs at h
  · rw [List.mem_singleton.mp h]
    decide
  · exact Nat.digits_lt_base (by omega) (List.mem_reverse.mp h)

theorem decimal_ne_nil (value : Nat) : decimal value ≠ [] := by
  unfold decimal
  split_ifs with hzero
  · exact List.cons_ne_nil _ _
  · exact fun h => Nat.digits_ne_nil_iff_ne_zero.mpr hzero (List.reverse_eq_nil_iff.mp h)

theorem foldl_decimal (value : Nat) :
    (decimal value).foldl (fun acc digit => 10 * acc + digit) 0 = value := by
  unfold decimal
  split_ifs with hzero
  · rw [hzero]
    rfl
  · rw [List.foldl_reverse]
    have hdigits := Nat.ofDigits_digits 10 value
    rw [Nat.ofDigits_eq_foldr] at hdigits
    simpa [Nat.add_comm] using hdigits

theorem pushNum_eq (value : UInt64) : pushNum value = (decimal value.toNat).map digitByte := by
  unfold pushNum decimal
  by_cases hzero : value = 0
  · rw [if_pos hzero, hzero]
    rfl
  · have hne : value.toNat ≠ 0 := fun h => hzero (UInt64.toNat_inj.mp h)
    have hlt : value.toNat < 10 ^ 20 := Nat.lt_trans value.toNat_lt (by decide)
    rw [if_neg hzero, if_neg hne, digitsLe_eq_digits hlt, List.map_reverse]

theorem mapM_digitValue {digits : List Nat} (h : ∀ digit ∈ digits, digit < 10) :
    (digits.map digitByte).mapM digitValue = some digits := by
  induction digits with
  | nil => rfl
  | cons _ _ ih =>
      rw [List.forall_mem_cons] at h
      simp [List.mapM_cons, digitValue_digitByte h.1, ih h.2]

/-- Reading a number that was written. -/
theorem parseNum_pushNum (value : UInt64) : parseNum (pushNum value) = some value := by
  have hdigits : ∀ digit ∈ decimal value.toNat, digit < 10 := fun _ => decimal_lt
  have hplus : (pushNum value).head? ≠ some 43 := by
    rw [pushNum_eq, List.head?_map]
    intro h
    obtain ⟨digit, hdigit, hbyte⟩ := Option.map_eq_some_iff.mp h
    have hvalue := digitByte_toNat (hdigits digit (List.mem_of_mem_head? hdigit))
    rw [hbyte] at hvalue
    change 43 = 48 + digit at hvalue
    omega
  have hempty : (pushNum value).isEmpty = false := by
    rw [pushNum_eq, List.isEmpty_map]
    exact List.isEmpty_eq_false_iff.mpr (decimal_ne_nil _)
  have hlimit : value.toNat < wordLimit := value.toNat_lt
  unfold parseNum
  dsimp only
  rw [if_neg hplus, hempty, pushNum_eq, mapM_digitValue hdigits]
  dsimp only
  rw [foldl_decimal, if_neg Bool.false_ne_true, if_pos hlimit, UInt64.ofNat_toNat]

def byteChar (byte : UInt8) : Char := Char.ofNat byte.toNat

theorem byteChar_toNat {byte : UInt8} (h : byte.toNat < 128) : (byteChar byte).toNat = byte.toNat := by
  have hvalid : byte.toNat.isValidChar := Or.inl (Nat.lt_trans h (by decide))
  rw [byteChar, Char.ofNat, dif_pos hvalid]
  rfl

/-- Bytes of 7-bit characters are valid UTF-8. -/
theorem fromUTF8_ascii {bytes : List UInt8} (h : ∀ byte ∈ bytes, byte.toNat < 128) :
    String.fromUTF8? ⟨bytes.toArray⟩ = some (String.ofList (bytes.map byteChar)) := by
  have hencode : ∀ byte ∈ bytes, String.utf8EncodeChar (byteChar byte) = [byte] := by
    intro byte hbyte
    have hvalue : (byteChar byte).val.toNat = byte.toNat := byteChar_toNat (h byte hbyte)
    have hsmall := h byte hbyte
    unfold String.utf8EncodeChar
    dsimp only
    rw [hvalue, if_pos (by omega), UInt8.ofNat_toNat]
  have hflat : (bytes.map byteChar).flatMap String.utf8EncodeChar = bytes := by
    rw [List.flatMap_map, List.flatMap_def, List.map_congr_left hencode, ← List.flatMap_def,
      List.flatMap_singleton']
  have hbytes : (⟨bytes.toArray⟩ : ByteArray) = (bytes.map byteChar).utf8Encode := by
    apply ByteArray.ext
    rw [List.utf8Encode, hflat, List.data_toByteArray]
  unfold String.fromUTF8?
  rw [dif_pos ⟨_, hbytes⟩]
  refine congrArg some ?_
  simp only [String.fromUTF8, String.ofList, hbytes]

theorem trimWhite_eq_self {text : List Char} (h : ∀ char ∈ text, isWhite char = false) :
    trimWhite text = text := by
  have hdrop : ∀ {chars : List Char}, (∀ char ∈ chars, isWhite char = false) →
      chars.dropWhile isWhite = chars := by
    intro chars hchars
    cases chars with
    | nil => rfl
    | cons char => exact List.dropWhile_cons_of_neg (by simp [hchars char List.mem_cons_self])
  have hback : ∀ char ∈ text.reverse, isWhite char = false := fun char hchar =>
    h char (List.mem_reverse.mp hchar)
  rw [trimWhite, hdrop h, hdrop hback, List.reverse_reverse]

/-- In printable 7-bit text there is nothing to trim. -/
theorem parseTrimmed_printable {bytes : List UInt8}
    (h : ∀ byte ∈ bytes, 33 ≤ byte.toNat ∧ byte.toNat < 127) :
    parseTrimmed bytes = parseNum bytes := by
  have hascii : ∀ byte ∈ bytes, byte.toNat < 128 := fun byte hbyte => Nat.lt_succ_of_lt (h byte hbyte).2
  have hwhite : ∀ char ∈ bytes.map byteChar, isWhite char = false := by
    intro char hchar
    obtain ⟨byte, hbyte, rfl⟩ := List.mem_map.mp hchar
    have hvalue := byteChar_toNat (hascii byte hbyte)
    obtain ⟨hlow, hhigh⟩ := h byte hbyte
    unfold isWhite
    dsimp only
    rw [hvalue]
    simp only [Bool.or_eq_false_iff, Bool.and_eq_false_iff, decide_eq_false_iff_not, beq_eq_false_iff_ne]
    omega
  have hbytes : ∀ byte ∈ bytes, asciiByte (byteChar byte) = some byte := by
    intro byte hbyte
    rw [asciiByte, byteChar_toNat (hascii byte hbyte), if_pos (hascii byte hbyte), UInt8.ofNat_toNat]
  have hmap : (bytes.map byteChar).mapM asciiByte = some bytes := by
    clear h hascii hwhite
    induction bytes with
    | nil => rfl
    | cons _ _ ih =>
        rw [List.forall_mem_cons] at hbytes
        simp [List.mapM_cons, hbytes.1, ih hbytes.2]
  unfold parseTrimmed
  rw [fromUTF8_ascii hascii]
  simp only [Option.bind_eq_bind, Option.bind_some, String.toList_ofList, trimWhite_eq_self hwhite, hmap]

/-- A number that the other side wrote. -/
theorem parseTrimmed_pushNum (value : UInt64) : parseTrimmed (pushNum value) = some value := by
  have hdigit : ∀ byte ∈ pushNum value, 33 ≤ byte.toNat ∧ byte.toNat < 127 := by
    intro byte hbyte
    rw [pushNum_eq, List.mem_map] at hbyte
    obtain ⟨digit, hmem, rfl⟩ := hbyte
    have hlt := decimal_lt hmem
    rw [digitByte_toNat hlt]
    omega
  rw [parseTrimmed_printable hdigit, parseNum_pushNum]

end Redoubt.Services
