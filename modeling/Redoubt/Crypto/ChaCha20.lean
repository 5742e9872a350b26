import Redoubt.Foundation.Bytes

/-!
# The ChaCha20 stream cipher

The stream is described byte by byte: byte `i` of the output is byte `i` of the
input combined with byte `i % 64` of key block `i / 64`.  That encryption is its
own inverse and that a message may be processed in pieces of whole blocks both
follow from this reading.
-/

namespace Redoubt.Crypto.ChaCha20

open Redoubt.Foundation

def rotateLeft (x count : UInt32) : UInt32 := (x <<< count) ||| (x >>> (32 - count))

def quarterRound (s : List UInt32) (a b c d : Nat) : List UInt32 :=
  let word (s : List UInt32) (index : Nat) : UInt32 := s.getD index 0
  let s := s.set a (word s a + word s b)
  let s := s.set d (rotateLeft (word s d ^^^ word s a) 16)
  let s := s.set c (word s c + word s d)
  let s := s.set b (rotateLeft (word s b ^^^ word s c) 12)
  let s := s.set a (word s a + word s b)
  let s := s.set d (rotateLeft (word s d ^^^ word s a) 8)
  let s := s.set c (word s c + word s d)
  s.set b (rotateLeft (word s b ^^^ word s c) 7)

/-- A column round followed by a diagonal round. -/
def doubleRound (s : List UInt32) : List UInt32 :=
  let s := quarterRound s 0 4 8 12
  let s := quarterRound s 1 5 9 13
  let s := quarterRound s 2 6 10 14
  let s := quarterRound s 3 7 11 15
  let s := quarterRound s 0 5 10 15
  let s := quarterRound s 1 6 11 12
  let s := quarterRound s 2 7 8 13
  quarterRound s 3 4 9 14

def rounds : Nat → List UInt32 → List UInt32
  | 0, s => s
  | count + 1, s => rounds count (doubleRound s)

/-- Cut a byte string into little-endian words. -/
def leWords : Nat → List UInt8 → List UInt32
  | 0, _ => []
  | count + 1, bytes => UInt32.ofNat (fromLeBytes (bytes.take 4)) :: leWords count (bytes.drop 4)

/-- The state a block starts from: constants, key, counter and nonce. -/
def initialState (key : Bytes 32) (counter : UInt32) (nonce : Bytes 12) : List UInt32 :=
  [0x61707865, 0x3320646e, 0x79622d32, 0x6b206574] ++ leWords 8 key.val ++ [counter] ++
    leWords 3 nonce.val

@[simp]
theorem length_quarterRound (s : List UInt32) (a b c d : Nat) :
    (quarterRound s a b c d).length = s.length := by
  simp [quarterRound]

@[simp]
theorem length_rounds (count : Nat) (s : List UInt32) : (rounds count s).length = s.length := by
  induction count generalizing s with
  | zero => rfl
  | succ _ ih => simp [rounds, ih, doubleRound]

@[simp]
theorem length_leWords (count : Nat) (bytes : List UInt8) : (leWords count bytes).length = count := by
  induction count generalizing bytes with
  | zero => rfl
  | succ _ ih => simp [leWords, ih]

/-- The sum of the final and the initial state, as bytes. -/
def blockBytes (key : Bytes 32) (counter : UInt32) (nonce : Bytes 12) : List UInt8 :=
  let working := initialState key counter nonce
  (List.zipWith (· + ·) (rounds 10 working) working).flatMap fun word => toLeBytes 4 word.toNat

theorem length_blockBytes (key : Bytes 32) (counter : UInt32) (nonce : Bytes 12) :
    (blockBytes key counter nonce).length = 64 := by
  have hwords : ∀ words : List UInt32,
      (words.flatMap fun word => toLeBytes 4 word.toNat).length = 4 * words.length := by
    intro words
    induction words with
    | nil => rfl
    | cons _ _ ih =>
        rw [List.flatMap_cons, List.length_append, ih, length_toLeBytes, List.length_cons]
        omega
  rw [blockBytes, hwords]
  simp [initialState]

/-- The block function: 64 bytes of key stream. -/
def block (key : Bytes 32) (counter : UInt32) (nonce : Bytes 12) : Bytes 64 :=
  ⟨blockBytes key counter nonce, length_blockBytes key counter nonce⟩

def xorChunks (key : Bytes 32) (nonce : Bytes 12) : Nat → UInt32 → List UInt8 → List UInt8
  | 0, _, _ => []
  | fuel + 1, counter, data =>
      if data.isEmpty then []
      else
        List.zipWith (· ^^^ ·) (data.take 64) (block key counter nonce).val ++
          xorChunks key nonce fuel (counter + 1) (data.drop 64)

/-- Combine data with the key stream from block number `counter` on. -/
def xorStream (key : Bytes 32) (counter : UInt32) (nonce : Bytes 12) (data : List UInt8) :
    List UInt8 :=
  xorChunks key nonce data.length counter data

/-- The key stream, byte by byte. -/
def keyStream (key : Bytes 32) (counter : UInt32) (nonce : Bytes 12) (index : Nat) : UInt8 :=
  (block key (counter + UInt32.ofNat (index / 64)) nonce).val.getD (index % 64) 0

variable {key : Bytes 32} {nonce : Bytes 12}

theorem keyStream_add_block (counter : UInt32) (index : Nat) :
    keyStream key counter nonce (64 + index) = keyStream key (counter + 1) nonce index := by
  have hdiv : (64 + index) / 64 = 1 + index / 64 := by omega
  have hmod : (64 + index) % 64 = index % 64 := by omega
  rw [keyStream, keyStream, hdiv, hmod, UInt32.ofNat_add, ← UInt32.add_assoc]
  rfl

theorem keyStream_add (counter : UInt32) (count index : Nat) :
    keyStream key counter nonce (64 * count + index) =
      keyStream key (counter + UInt32.ofNat count) nonce index := by
  induction count generalizing counter with
  | zero => simp
  | succ count ih =>
      have hsplit : 64 * (count + 1) + index = 64 + (64 * count + index) := by ring
      rw [hsplit, keyStream_add_block, ih, UInt32.ofNat_add, UInt32.add_assoc,
        UInt32.add_comm (UInt32.ofNat count)]
      rfl

/-- The chunked loop combines every byte with its own byte of the key stream. -/
theorem xorChunks_getElem? (fuel : Nat) (counter : UInt32) (data : List UInt8)
    (enough : data.length ≤ fuel) (index : Nat) :
    (xorChunks key nonce fuel counter data)[index]? =
      data[index]?.map (· ^^^ keyStream key counter nonce index) := by
  induction fuel generalizing counter data index with
  | zero =>
      have hnil : data = [] := List.eq_nil_of_length_eq_zero (by omega)
      rw [hnil]
      rfl
  | succ _ ih =>
      by_cases hnil : data = []
      · rw [hnil]
        rfl
      have hempty : data.isEmpty = false := by simp [hnil]
      have hpos : 0 < data.length := List.length_pos_iff.mpr hnil
      have hblock := (block key counter nonce).property
      have hchunk : (List.zipWith (· ^^^ ·) (data.take 64) (block key counter nonce).val).length =
          min 64 data.length := by
        rw [List.length_zipWith, List.length_take, hblock]
        omega
      rw [xorChunks, hempty, if_neg (by decide), List.getElem?_append, hchunk]
      by_cases hindex : index < min 64 data.length
      · -- inside the first chunk
        have hsmall : index < 64 := by omega
        have hdata : index < data.length := by omega
        have hkey : index < (block key counter nonce).val.length := by omega
        rw [if_pos hindex, keyStream, Nat.mod_eq_of_lt hsmall, Nat.div_eq_of_lt hsmall]
        simp [List.getElem?_zipWith, List.getElem?_take_of_lt hsmall,
          List.getElem?_eq_getElem hdata, List.getElem?_eq_getElem hkey,
          List.getD_eq_getElem?_getD]
      · rw [if_neg hindex, ih _ _ (by rw [List.length_drop]; omega), List.getElem?_drop]
        by_cases hlong : 64 ≤ data.length
        · have hback : 64 + (index - 64) = index := by omega
          rw [min_eq_left hlong, hback, ← keyStream_add_block, hback]
        · rw [List.getElem?_eq_none (by omega), List.getElem?_eq_none (by omega),
            Option.map_none, Option.map_none]

theorem xorStream_getElem? (counter : UInt32) (data : List UInt8) (index : Nat) :
    (xorStream key counter nonce data)[index]? =
      data[index]?.map (· ^^^ keyStream key counter nonce index) :=
  xorChunks_getElem? _ _ _ le_rfl _

@[simp]
theorem length_xorStream (counter : UInt32) (data : List UInt8) :
    (xorStream key counter nonce data).length = data.length := by
  apply Nat.le_antisymm
  · rw [← List.getElem?_eq_none_iff, xorStream_getElem?, List.getElem?_eq_none le_rfl]
    rfl
  · rw [← List.getElem?_eq_none_iff]
    have hnone : (xorStream key counter nonce data)[(xorStream key counter nonce data).length]? =
        none := List.getElem?_eq_none le_rfl
    rw [xorStream_getElem?] at hnone
    exact Option.map_eq_none_iff.mp hnone

/-- Decryption is the same operation as encryption. -/
@[simp]
theorem xorStream_xorStream (counter : UInt32) (data : List UInt8) :
    xorStream key counter nonce (xorStream key counter nonce data) = data := by
  apply List.ext_getElem?
  intro index
  rw [xorStream_getElem?, xorStream_getElem?, Option.map_map]
  cases data[index]? with
  | none => rfl
  | some => simp only [Option.map_some, Function.comp_apply, UInt8.xor_assoc, UInt8.xor_self,
      UInt8.xor_zero]

/-- A message may be processed in two pieces when the first is made of whole blocks. -/
theorem xorStream_append (counter : UInt32) (first second : List UInt8) (count : Nat)
    (whole : first.length = 64 * count) :
    xorStream key counter nonce (first ++ second) =
      xorStream key counter nonce first ++
        xorStream key (counter + UInt32.ofNat count) nonce second := by
  apply List.ext_getElem?
  intro index
  rw [xorStream_getElem?, List.getElem?_append, List.getElem?_append, length_xorStream]
  by_cases hindex : index < first.length
  · rw [if_pos hindex, if_pos hindex, xorStream_getElem?]
  · have hback : 64 * count + (index - first.length) = index := by omega
    rw [if_neg hindex, if_neg hindex, xorStream_getElem?, ← keyStream_add, hback]

/-- Consecutive pieces, each with the counter of its first byte. -/
def xorPieces (key : Bytes 32) (counter : UInt32) (nonce : Bytes 12) :
    Nat → List (List UInt8) → List UInt8
  | _, [] => []
  | done, piece :: rest =>
      xorStream key (counter + UInt32.ofNat (done / 64)) nonce piece ++
        xorPieces key counter nonce (done + piece.length) rest

/-- Pieces of whole blocks, and any last one, are processed as the message is. -/
theorem xorPieces_eq (counter : UInt32) {done : Nat} {pieces : List (List UInt8)}
    (aligned : done % 64 = 0) (whole : ∀ piece ∈ pieces.dropLast, piece.length % 64 = 0) :
    xorPieces key counter nonce done pieces =
      xorStream key (counter + UInt32.ofNat (done / 64)) nonce pieces.flatten := by
  induction pieces generalizing done with
  | nil => rfl
  | cons piece rest ih =>
      rw [xorPieces, List.flatten_cons]
      cases rest with
      | nil => rw [xorPieces, List.flatten_nil, List.append_nil, List.append_nil]
      | cons next others =>
          rw [List.dropLast_cons_cons, List.forall_mem_cons] at whole
          have hpiece : piece.length = 64 * (piece.length / 64) := by omega
          have hcounter : (done + piece.length) / 64 = done / 64 + piece.length / 64 := by omega
          rw [ih (by omega) whole.2, xorStream_append _ _ _ _ hpiece, hcounter, UInt32.ofNat_add,
            UInt32.add_assoc]

end Redoubt.Crypto.ChaCha20
