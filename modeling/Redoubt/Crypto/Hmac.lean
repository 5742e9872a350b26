import Redoubt.Crypto.Sha2

/-!
# HMAC-SHA-256

A tag is computed over pieces; only their concatenation matters.
-/

namespace Redoubt.Crypto

open Redoubt.Foundation

structure HmacSha256 where
  inner : Sha256.hash.Stream
  outer : Sha256.hash.Stream

namespace HmacSha256

/-- The key brought to one block: a long key is hashed, the rest is zero. -/
def blockKey (key : List UInt8) : List UInt8 :=
  if 64 < key.length then (sha256 key).val ++ List.replicate 32 0
  else key ++ List.replicate (64 - key.length) 0

def new (key : List UInt8) : HmacSha256 where
  inner := Sha256.new.update ((blockKey key).map (0x36 ^^^ ·))
  outer := Sha256.new.update ((blockKey key).map (0x5c ^^^ ·))

def update (mac : HmacSha256) (data : List UInt8) : HmacSha256 :=
  { mac with inner := mac.inner.update data }

def finalize (mac : HmacSha256) : Bytes 32 :=
  let innerTag := Sha256.finalize mac.inner
  Sha256.finalize (mac.outer.update innerTag.val)

def oneshot (key data : List UInt8) : Bytes 32 := ((new key).update data).finalize

theorem update_update (mac : HmacSha256) (first second : List UInt8) :
    (mac.update first).update second = mac.update (first ++ second) := by
  simp only [update, BlockHash.Stream.update_update]

@[simp]
theorem update_nil (mac : HmacSha256) : mac.update [] = mac := by
  simp only [update, BlockHash.Stream.update_nil]

end HmacSha256

end Redoubt.Crypto
