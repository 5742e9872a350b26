import Redoubt.Crypto.Hmac

/-!
# Digests and tags of whole messages

The standards define a digest over the whole message: it is padded once and its blocks
are folded in turn.  Streams that are fed the message in pieces end in the same digest,
and the tag of a streamed message is the nested digest of its pads.
-/

namespace Redoubt.Crypto

open Redoubt.Foundation

namespace Sha256

/-- The message length in bits, as a big-endian word. -/
def lengthField (length : Nat) : List UInt8 := (toLeBytes 8 (8 * length)).reverse

/-- The digest of a whole message. -/
def digest (data : List UInt8) : Bytes 32 :=
  ⟨(hash.foldBlocks new.state (hash.pad data (lengthField data.length))).toBeBytes 4 UInt32.toNat,
    Sha2State.length_toBeBytes 4 _ _⟩

/-- The counter wraps where the length field does. -/
theorem toLeBytes_bitLen (length : Nat) :
    toLeBytes 8 ((0 + UInt64.ofNat length) * 8).toNat = toLeBytes 8 (8 * length) := by
  have hvalue : ((0 + UInt64.ofNat length) * 8).toNat = 8 * length % 256 ^ 8 := by
    rw [UInt64.zero_add, UInt64.toNat_mul, UInt64.toNat_ofNat', Nat.mod_mul_mod, Nat.mul_comm]
    rfl
  rw [hvalue, ← fromLeBytes_toLeBytes]
  have hback := toLeBytes_fromLeBytes (toLeBytes 8 (8 * length))
  rwa [length_toLeBytes] at hback

theorem finalize_update (data : List UInt8) : finalize (new.update data) = digest data := by
  apply Subtype.ext
  have hfield : (toLeBytes 8 ((new.update data).totalLen * 8).toNat).reverse = lengthField data.length :=
    congrArg List.reverse (toLeBytes_bitLen data.length)
  have hlength : (lengthField data.length).length = 8 := by
    rw [lengthField, List.length_reverse, length_toLeBytes]
  have hstate := BlockHash.Stream.finish_update hlength (by decide) (by decide) (rfl : new.buf = []) data
  change Sha2State.toBeBytes 4 UInt32.toNat ((new.update data).finish
    (toLeBytes 8 ((new.update data).totalLen * 8).toNat).reverse).state = _
  rw [hfield, hstate]
  rfl

end Sha256

namespace Sha512

/-- The message length in bits, on sixteen bytes. -/
def lengthField (length : Nat) : List UInt8 := (toLeBytes 16 (8 * length)).reverse

def digest (data : List UInt8) : Bytes 64 :=
  ⟨(hash.foldBlocks new.state (hash.pad data (lengthField data.length))).toBeBytes 8 UInt64.toNat,
    Sha2State.length_toBeBytes 8 _ _⟩

/-- The counter has eight bytes: the others of the length field are zero for a message that
it can count. -/
theorem finalize_update {data : List UInt8} (small : data.length < 2 ^ 61) :
    finalize (new.update data) = digest data := by
  apply Subtype.ext
  have hfield : List.replicate 8 0 ++ (toLeBytes 8 ((new.update data).totalLen * 8).toNat).reverse =
      lengthField data.length := by
    have hhigh : 8 * data.length / 256 ^ 8 = 0 := Nat.div_eq_of_lt (by omega)
    have hcounter : toLeBytes 8 ((new.update data).totalLen * 8).toNat = toLeBytes 8 (8 * data.length) :=
      Sha256.toLeBytes_bitLen data.length
    rw [lengthField, toLeBytes_add 8 8, hhigh, List.reverse_append, hcounter]
    rfl
  have hlength : (lengthField data.length).length = 16 := by
    rw [lengthField, List.length_reverse, length_toLeBytes]
  have hstate := BlockHash.Stream.finish_update hlength (by decide) (by decide) (rfl : new.buf = []) data
  change Sha2State.toBeBytes 8 UInt64.toNat ((new.update data).finish
    (List.replicate 8 0 ++ (toLeBytes 8 ((new.update data).totalLen * 8).toNat).reverse)).state = _
  rw [hfield, hstate]
  rfl

end Sha512

namespace HmacSha256

/-- The tag of a whole message: the digest of the outer pad and of the inner digest. -/
def tag (key data : List UInt8) : Bytes 32 :=
  let short := if 64 < key.length then (Sha256.digest key).val else key
  let block := short ++ List.replicate (64 - short.length) 0
  Sha256.digest (block.map (0x5c ^^^ ·) ++ (Sha256.digest (block.map (0x36 ^^^ ·) ++ data)).val)

theorem blockKey_eq (key : List UInt8) : blockKey key =
    (if 64 < key.length then (Sha256.digest key).val else key) ++
      List.replicate (64 - (if 64 < key.length then (Sha256.digest key).val else key).length) 0 := by
  unfold blockKey
  split_ifs
  · rw [sha256, Sha256.finalize_update, (Sha256.digest key).property]
  · rfl

theorem foldl_update (mac : HmacSha256) (chunks : List (List UInt8)) :
    chunks.foldl update mac = mac.update chunks.flatten := by
  induction chunks generalizing mac with
  | nil => rw [List.foldl_nil, List.flatten_nil, update_nil]
  | cons chunk rest ih => rw [List.foldl_cons, ih, update_update, List.flatten_cons]

theorem oneshot_eq (key data : List UInt8) : oneshot key data = tag key data := by
  have hinner : (Sha256.new.update ((blockKey key).map (0x36 ^^^ ·))).update data =
      Sha256.new.update ((blockKey key).map (0x36 ^^^ ·) ++ data) := BlockHash.Stream.update_update ..
  have houter :
      ∀ inner : Bytes 32, (Sha256.new.update ((blockKey key).map (0x5c ^^^ ·))).update inner.val =
      Sha256.new.update ((blockKey key).map (0x5c ^^^ ·) ++ inner.val) :=
        fun _ => BlockHash.Stream.update_update ..
  unfold oneshot finalize update new tag
  dsimp only
  rw [hinner, houter, Sha256.finalize_update, Sha256.finalize_update, ← blockKey_eq]

end HmacSha256

/-- However a message is cut, the streams end in the digests and the tag of the whole, and
their padding loops end with an empty buffer. -/
theorem streamed_hashes_exact (chunks : List (List UInt8)) (small : chunks.flatten.length < 2 ^ 60) :
    Sha256.finalize (chunks.foldl BlockHash.Stream.update Sha256.new) = Sha256.digest chunks.flatten ∧
    Sha512.finalize (chunks.foldl BlockHash.Stream.update Sha512.new) = Sha512.digest chunks.flatten ∧
    (∀ key, (chunks.foldl HmacSha256.update (HmacSha256.new key)).finalize =
      HmacSha256.tag key chunks.flatten) ∧
    (∀ (stream : Sha256.hash.Stream) (bitLen : UInt64),
      ∃ zeros, stream.PaddingEnds (toLeBytes 8 bitLen.toNat).reverse zeros) ∧
    ∀ (stream : Sha512.hash.Stream) (bitLen : UInt64),
      ∃ zeros, stream.PaddingEnds (List.replicate 8 0 ++ (toLeBytes 8 bitLen.toNat).reverse) zeros := by
  refine ⟨?_, ?_, fun key => ?_, fun stream bitLen => ?_, fun stream bitLen => ?_⟩
  · rw [BlockHash.Stream.foldl_update, Sha256.finalize_update]
  · rw [BlockHash.Stream.foldl_update, Sha512.finalize_update (small.trans (by decide))]
  · rw [HmacSha256.foldl_update]
    exact HmacSha256.oneshot_eq key chunks.flatten
  · have hlength : (toLeBytes 8 bitLen.toNat).reverse.length = 8 := by
      rw [List.length_reverse, length_toLeBytes]
    exact ⟨_, BlockHash.Stream.paddingEnds hlength (by decide) (by decide)⟩
  · have hlength : (List.replicate 8 0 ++ (toLeBytes 8 bitLen.toNat).reverse).length = 16 := by
      rw [List.length_append, List.length_replicate, List.length_reverse, length_toLeBytes]
    exact ⟨_, BlockHash.Stream.paddingEnds hlength (by decide) (by decide)⟩

example : (sha256 [0x61, 0x62, 0x63]).val =
    [0xba, 0x78, 0x16, 0xbf, 0x8f, 0x01, 0xcf, 0xea, 0x41, 0x41, 0x40, 0xde, 0x5d, 0xae, 0x22, 0x23,
      0xb0, 0x03, 0x61, 0xa3, 0x96, 0x17, 0x7a, 0x9c, 0xb4, 0x10, 0xff, 0x61, 0xf2, 0x00, 0x15, 0xad] := by
  decide +kernel

theorem streamed_hashes_exact_pieces :
    Sha256.finalize ([[0x61], [], [0x62, 0x63]].foldl BlockHash.Stream.update Sha256.new) =
      Sha256.digest [0x61, 0x62, 0x63] :=
  (streamed_hashes_exact [[0x61], [], [0x62, 0x63]] (by decide)).1

end Redoubt.Crypto
