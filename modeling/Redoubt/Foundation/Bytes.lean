import Redoubt.Foundation.MachineWord
import Mathlib.Data.List.GetD
import Mathlib.Tactic.Ring

/-!
# Byte strings of fixed length and byte buffers

A fixed-length byte string carries its length, so a slice or an overwrite is only
written down together with the proof that it stays inside.  Buffers are memory
indexed by offset.  The lemmas read a field back after other fields were
overwritten, and an integer back from its little-endian bytes.
-/

namespace Redoubt.Foundation

/-- A byte string of this length. -/
abbrev Bytes (size : Nat) := { bytes : List UInt8 // bytes.length = size }

/-- The bytes of a text of 7-bit characters. -/
def ascii (text : String) : List UInt8 := text.toList.map fun char => UInt8.ofNat char.toNat

/-- Part of a byte string, as a slice expression takes it. -/
def cut (bytes : List UInt8) (off len : Nat) (inside : off + len ≤ bytes.length) : Bytes len :=
  ⟨(bytes.drop off).take len, by simp; omega⟩

theorem cut_val {bytes : List UInt8} {off len : Nat} (inside : off + len ≤ bytes.length) :
    (cut bytes off len inside).val = (bytes.drop off).take len := rfl

theorem cut_append_left {bytes rest : List UInt8} {off len : Nat} (inside : off + len ≤ bytes.length)
    (inside' : off + len ≤ (bytes ++ rest).length) :
    cut (bytes ++ rest) off len inside' = cut bytes off len inside := by
  apply Subtype.ext
  change ((bytes ++ rest).drop off).take len = (bytes.drop off).take len
  rw [List.drop_append_of_le_length (by omega), List.take_append_of_le_length (by simp; omega)]

namespace Bytes

variable {size len width : Nat}

def zeros (size : Nat) : Bytes size := ⟨List.replicate size 0, List.length_replicate⟩

def ofList (bytes : List UInt8) : Bytes bytes.length := ⟨bytes, rfl⟩

def one (byte : UInt8) : Bytes 1 := ⟨[byte], rfl⟩

def slice (bytes : Bytes size) (off len : Nat) (inside : off + len ≤ size := by decide) : Bytes len :=
  cut bytes.val off len (by rw [bytes.property]; exact inside)

/-- The single byte at an offset. -/
def byte (bytes : Bytes size) (off : Nat) (inside : off + 1 ≤ size := by decide) : UInt8 :=
  (bytes.slice off 1 inside).val.headD 0

/-- Overwrite part of a byte string. -/
def splice (bytes : Bytes size) (off : Nat) (data : Bytes width)
    (inside : off + width ≤ size := by decide) : Bytes size :=
  ⟨bytes.val.take off ++ data.val ++ bytes.val.drop (off + width), by
    have hlen := bytes.property
    have hdata := data.property
    simp; omega⟩

variable {bytes : Bytes size} {off off' : Nat} {data : Bytes width}

@[simp]
theorem length_val (bytes : Bytes size) : bytes.val.length = size := bytes.property

theorem slice_val (inside : off + len ≤ size) :
    (bytes.slice off len inside).val = (bytes.val.drop off).take len := rfl

@[simp]
theorem slice_splice_self (inside : off + width ≤ size) :
    (bytes.splice off data inside).slice off width inside = data := by
  apply Subtype.ext
  have hlen := bytes.property
  have hdata := data.property
  have htake : (bytes.val.take off).length = off := by simp; omega
  rw [slice_val]
  change ((bytes.val.take off ++ data.val ++ bytes.val.drop (off + width)).drop off).take width = _
  rw [List.append_assoc, List.drop_left' htake, List.take_left' hdata]

/-- An overwrite leaves every slice that ends before it. -/
theorem slice_splice_before (inside : off + width ≤ size) (inside' : off' + len ≤ size)
    (before : off' + len ≤ off) :
    (bytes.splice off data inside).slice off' len inside' = bytes.slice off' len inside' := by
  apply Subtype.ext
  have hlen := bytes.property
  rw [slice_val, slice_val]
  change ((bytes.val.take off ++ data.val ++ bytes.val.drop (off + width)).drop off').take len = _
  rw [List.append_assoc, List.drop_append_of_le_length (by simp; omega),
    List.take_append_of_le_length (by simp; omega), List.drop_take, List.take_take]
  congr 1
  omega

/-- An overwrite leaves every slice that starts after it. -/
theorem slice_splice_after (inside : off + width ≤ size) (inside' : off' + len ≤ size)
    (after : off + width ≤ off') :
    (bytes.splice off data inside).slice off' len inside' = bytes.slice off' len inside' := by
  apply Subtype.ext
  have hlen := bytes.property
  have hdata := data.property
  have hfront : (bytes.val.take off ++ data.val).length = off + width := by simp; omega
  rw [slice_val, slice_val]
  change ((bytes.val.take off ++ data.val ++ bytes.val.drop (off + width)).drop off').take len = _
  rw [List.drop_append, List.drop_eq_nil_of_le (by omega), List.nil_append, hfront, List.drop_drop]
  congr 2
  omega

/-- What lies in the front of two byte strings that agree there. -/
theorem slice_of_front {b other : Bytes size} {front : Nat} {fits : 0 + front ≤ size}
    (same : other.slice 0 front fits = b.slice 0 front fits) (inside : off + len ≤ size)
    (before : off + len ≤ front) : other.slice off len inside = b.slice off len inside := by
  have hinner := congrArg (fun c : Bytes front => (c.val.drop off).take len) same
  apply Subtype.ext
  simp only [slice_val, List.drop_zero, List.drop_take, List.take_take] at hinner ⊢
  rwa [min_eq_left (by omega)] at hinner

theorem byte_of_front {b other : Bytes size} {front : Nat} {fits : 0 + front ≤ size}
    (same : other.slice 0 front fits = b.slice 0 front fits) (inside : off + 1 ≤ size)
    (before : off + 1 ≤ front) : other.byte off inside = b.byte off inside := by
  unfold byte
  rw [slice_of_front same inside before]

@[simp]
theorem slice_all (b : Bytes size) (inside : 0 + size ≤ size) : b.slice 0 size inside = b := by
  apply Subtype.ext
  rw [slice_val, List.drop_zero, List.take_of_length_le b.property.le]

theorem byte_splice_self {value : UInt8} (inside : off + 1 ≤ size) :
    (bytes.splice off (one value) inside).byte off inside = value := by
  unfold byte
  rw [slice_splice_self]
  rfl

theorem byte_splice_before (inside : off + width ≤ size) (inside' : off' + 1 ≤ size)
    (before : off' + 1 ≤ off) :
    (bytes.splice off data inside).byte off' inside' = bytes.byte off' inside' := by
  unfold byte
  rw [slice_splice_before inside inside' before]

/-- The front of a concatenation. -/
theorem cut_val_append (b : Bytes size) (rest : List UInt8) (inside : 0 + size ≤ (b.val ++ rest).length) :
    cut (b.val ++ rest) 0 size inside = b := by
  apply Subtype.ext
  change ((b.val ++ rest).drop 0).take size = b.val
  rw [List.drop_zero, List.take_left' b.property]

end Bytes

/-! ### Little-endian integers -/

@[simp]
theorem length_toLeBytes (count value : Nat) : (toLeBytes count value).length = count := by
  induction count generalizing value with
  | zero => rfl
  | succ _ ih => simp [toLeBytes, ih]

theorem fromLeBytes_toLeBytes (count value : Nat) :
    fromLeBytes (toLeBytes count value) = value % 256 ^ count := by
  induction count generalizing value with
  | zero => simp [toLeBytes, fromLeBytes, Nat.mod_one]
  | succ count ih =>
      simp only [toLeBytes, fromLeBytes, ih, UInt8.toNat_ofNat']
      change value % 256 + 256 * (value / 256 % 256 ^ count) = value % 256 ^ (count + 1)
      rw [Nat.pow_succ', Nat.mod_mul]

theorem toLeBytes_fromLeBytes (bytes : List UInt8) :
    toLeBytes bytes.length (fromLeBytes bytes) = bytes := by
  induction bytes with
  | nil => rfl
  | cons byte rest ih =>
      have hbyte := byte.toNat_lt
      have hhead : UInt8.ofNat (byte.toNat + 256 * fromLeBytes rest) = byte := by
        apply UInt8.toNat_inj.mp
        rw [UInt8.toNat_ofNat']
        omega
      have htail : (byte.toNat + 256 * fromLeBytes rest) / 256 = fromLeBytes rest := by omega
      rw [List.length_cons, fromLeBytes, toLeBytes, hhead, htail, ih]

theorem fromLeBytes_lt (bytes : List UInt8) : fromLeBytes bytes < 256 ^ bytes.length := by
  induction bytes with
  | nil => simp [fromLeBytes]
  | cons byte =>
      have hbyte := byte.toNat_lt
      simp only [fromLeBytes, List.length_cons, Nat.pow_succ]
      omega

/-- Higher digits do not matter. -/
theorem toLeBytes_add_mul (count value more : Nat) :
    toLeBytes count (value + 256 ^ count * more) = toLeBytes count value := by
  induction count generalizing value with
  | zero => rfl
  | succ count ih =>
      have hpow : 256 ^ (count + 1) * more = 256 * (256 ^ count * more) := by ring
      have hdigit : UInt8.ofNat (value + 256 ^ (count + 1) * more) = UInt8.ofNat value := by
        apply UInt8.toNat_inj.mp
        rw [UInt8.toNat_ofNat', UInt8.toNat_ofNat', hpow]
        exact Nat.add_mul_mod_self_left value 256 _
      have hrest : (value + 256 ^ (count + 1) * more) / 256 = value / 256 + 256 ^ count * more := by
        rw [hpow]
        omega
      rw [toLeBytes, toLeBytes, hdigit, hrest, ih]

theorem toLeBytes_add (first second value : Nat) :
    toLeBytes (first + second) value =
      toLeBytes first value ++ toLeBytes second (value / 256 ^ first) := by
  induction first generalizing value with
  | zero => simp [toLeBytes]
  | succ _ ih =>
      rw [Nat.succ_add, toLeBytes, toLeBytes, ih, Nat.pow_succ', Nat.div_div_eq_div_mul]
      rfl

theorem fromLeBytes_append (front rest : List UInt8) :
    fromLeBytes (front ++ rest) = fromLeBytes front + 256 ^ front.length * fromLeBytes rest := by
  induction front with
  | nil => simp [fromLeBytes]
  | cons _ _ ih =>
      rw [List.cons_append, fromLeBytes, fromLeBytes, ih, List.length_cons, Nat.pow_succ]
      ring

namespace Bytes

/-- A slice holds the digits at its place. -/
theorem fromLeBytes_slice {size off len : Nat} (b : Bytes size) (inside : off + len ≤ size) :
    fromLeBytes (b.slice off len inside).val = fromLeBytes b.val / 256 ^ off % 256 ^ len := by
  have hlen := b.property
  have hfront : (b.val.take off).length = off := by
    rw [List.length_take]
    omega
  have hmid : ((b.val.drop off).take len).length = len := by
    rw [List.length_take, List.length_drop]
    omega
  have hlow := fromLeBytes_lt (b.val.take off)
  have hdigits := fromLeBytes_lt ((b.val.drop off).take len)
  rw [hfront] at hlow
  rw [hmid] at hdigits
  have hsplit : b.val = b.val.take off ++ ((b.val.drop off).take len ++ (b.val.drop off).drop len) := by
    rw [List.take_append_drop, List.take_append_drop]
  have htotal : fromLeBytes b.val = fromLeBytes (b.val.take off) + 256 ^ off *
      (fromLeBytes ((b.val.drop off).take len) +
        256 ^ len * fromLeBytes ((b.val.drop off).drop len)) := by
    conv_lhs => rw [hsplit]
    rw [fromLeBytes_append, fromLeBytes_append, hfront, hmid]
  rw [htotal, Nat.add_mul_div_left _ _ (Nat.pow_pos (by decide)), Nat.div_eq_of_lt hlow,
    Nat.zero_add, Nat.add_mul_mod_self_left, Nat.mod_eq_of_lt hdigits, slice_val]

def ofU16 (value : UInt16) : Bytes 2 := ⟨toLeBytes 2 value.toNat, length_toLeBytes 2 _⟩
def ofU32 (value : UInt32) : Bytes 4 := ⟨toLeBytes 4 value.toNat, length_toLeBytes 4 _⟩
def ofU64 (value : UInt64) : Bytes 8 := ⟨toLeBytes 8 value.toNat, length_toLeBytes 8 _⟩

def toU16 (bytes : Bytes 2) : UInt16 := UInt16.ofNat (fromLeBytes bytes.val)
def toU32 (bytes : Bytes 4) : UInt32 := UInt32.ofNat (fromLeBytes bytes.val)
def toU64 (bytes : Bytes 8) : UInt64 := UInt64.ofNat (fromLeBytes bytes.val)

@[simp]
theorem toU16_ofU16 (value : UInt16) : (ofU16 value).toU16 = value := by
  simp [toU16, ofU16, fromLeBytes_toLeBytes]

@[simp]
theorem toU32_ofU32 (value : UInt32) : (ofU32 value).toU32 = value := by
  simp [toU32, ofU32, fromLeBytes_toLeBytes]

@[simp]
theorem toU64_ofU64 (value : UInt64) : (ofU64 value).toU64 = value := by
  simp [toU64, ofU64, fromLeBytes_toLeBytes]

theorem ofU32_toU32 (bytes : Bytes 4) : ofU32 bytes.toU32 = bytes := by
  obtain ⟨bytes, hlen⟩ := bytes
  have hlt : fromLeBytes bytes < 2 ^ 32 := by
    have hbound := fromLeBytes_lt bytes
    rw [hlen] at hbound
    exact hbound
  apply Subtype.ext
  change toLeBytes 4 (UInt32.ofNat (fromLeBytes bytes)).toNat = bytes
  rw [UInt32.toNat_ofNat', Nat.mod_eq_of_lt hlt, ← hlen, toLeBytes_fromLeBytes]

@[simp]
theorem ofU64_toU64 (bytes : Bytes 8) : ofU64 bytes.toU64 = bytes := by
  obtain ⟨bytes, hlen⟩ := bytes
  have hlt : fromLeBytes bytes < 2 ^ 64 := by
    have hbound := fromLeBytes_lt bytes
    rw [hlen] at hbound
    exact hbound
  apply Subtype.ext
  change toLeBytes 8 (UInt64.ofNat (fromLeBytes bytes)).toNat = bytes
  rw [UInt64.toNat_ofNat', Nat.mod_eq_of_lt hlt, ← hlen, toLeBytes_fromLeBytes]

end Bytes

/-! ### Buffers -/

/-- Memory of a buffer, by offset. -/
abbrev Buffer := Nat → UInt8

namespace Buffer

def write (buffer : Buffer) (off : Nat) (data : List UInt8) : Buffer := fun index =>
  if off ≤ index then data.getD (index - off) (buffer index) else buffer index

def read (buffer : Buffer) (off len : Nat) : List UInt8 :=
  (List.range len).map fun index => buffer (off + index)

variable {buffer : Buffer} {off off' len : Nat} {data : List UInt8}

@[simp]
theorem length_read : (buffer.read off len).length = len := by simp [read]

theorem read_append (first second : Nat) :
    buffer.read off (first + second) = buffer.read off first ++ buffer.read (off + first) second := by
  simp only [read, List.range_add, List.map_append, List.map_map, Function.comp_def, Nat.add_assoc]

theorem write_apply_of_lt {index : Nat} (h : index < off) :
    buffer.write off data index = buffer index := by
  unfold write
  rw [if_neg (by omega)]

theorem write_apply_of_ge {index : Nat} (h : off + data.length ≤ index) :
    buffer.write off data index = buffer index := by
  unfold write
  rw [if_pos (by omega), List.getD_eq_getElem?_getD, List.getElem?_eq_none (by omega),
    Option.getD_none]

/-- Reads below a bound only depend on the bytes below it. -/
theorem read_congr {other : Buffer} {bound : Nat} (same : ∀ index < bound, buffer index = other index)
    (h : off + len ≤ bound) : buffer.read off len = other.read off len := by
  unfold read
  apply List.map_congr_left
  intro index hindex
  rw [List.mem_range] at hindex
  exact same _ (by omega)

theorem read_write_before (h : off' + len ≤ off) :
    (buffer.write off data).read off' len = buffer.read off' len :=
  read_congr (fun _ hindex => write_apply_of_lt hindex) h

theorem read_write_after (h : off + data.length ≤ off') :
    (buffer.write off data).read off' len = buffer.read off' len := by
  unfold read
  apply List.map_congr_left
  intro index _
  exact write_apply_of_ge (by omega)

/-- A shorter read is the front of a longer one. -/
theorem take_read {short : Nat} (h : short ≤ len) :
    (buffer.read off len).take short = buffer.read off short := by
  obtain ⟨rest, rfl⟩ := Nat.exists_eq_add_of_le h
  rw [read_append, List.take_left' length_read]

/-- A read inside the written range sees the new bytes. -/
theorem read_write_self (h : len ≤ data.length) :
    (buffer.write off data).read off len = data.take len := by
  apply List.ext_getElem
  · simp [h]
  · intro index hleft _
    rw [length_read] at hleft
    simp [read, write, List.getD_eq_getElem?_getD,
      List.getElem?_eq_getElem (by omega : index < data.length)]

end Buffer

end Redoubt.Foundation
