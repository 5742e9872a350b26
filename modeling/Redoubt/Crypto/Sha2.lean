import Redoubt.Foundation.BlockHash
import Redoubt.Foundation.Bytes

/-!
# SHA-256 and SHA-512

The two hashes share their structure: a message schedule, a round function over
eight words, and length padding.  Word size, constants and rotations differ.
-/

namespace Redoubt.Crypto

open Redoubt.Foundation

/-- The eight chaining words. -/
structure Sha2State (ω : Type) where
  a : ω
  b : ω
  c : ω
  d : ω
  e : ω
  f : ω
  g : ω
  h : ω
  deriving DecidableEq

/-- What distinguishes the two hashes: round constants and the four mixing functions. -/
structure Sha2Variant (ω : Type) where
  k : List ω
  bigSigma0 : ω → ω
  bigSigma1 : ω → ω
  smallSigma0 : ω → ω
  smallSigma1 : ω → ω

namespace Sha2Variant

variable {ω : Type} [Add ω] [AndOp ω] [XorOp ω] [Complement ω] [Inhabited ω]

/-- Extend the message schedule; the newest word is in front. -/
def extendSchedule (variant : Sha2Variant ω) : Nat → List ω → List ω
  | 0, w => w
  | count + 1, w =>
      let s0 := variant.smallSigma0 (w.getD 14 default)
      let s1 := variant.smallSigma1 (w.getD 1 default)
      variant.extendSchedule count ((w.getD 15 default + s0 + w.getD 6 default + s1) :: w)

def round (variant : Sha2Variant ω) (s : Sha2State ω) (k w : ω) : Sha2State ω :=
  let s1 := variant.bigSigma1 s.e
  let ch := (s.e &&& s.f) ^^^ ((~~~ s.e) &&& s.g)
  let t1 := s.h + s1 + ch + k + w
  let s0 := variant.bigSigma0 s.a
  let maj := (s.a &&& s.b) ^^^ (s.a &&& s.c) ^^^ (s.b &&& s.c)
  let t2 := s0 + maj
  { a := t1 + t2, b := s.a, c := s.b, d := s.c, e := s.d + t1, f := s.e, g := s.f, h := s.g }

/-- One application of the compression function to the sixteen words of a block. -/
def compressWords (variant : Sha2Variant ω) (s : Sha2State ω) (block : List ω) : Sha2State ω :=
  let w := (variant.extendSchedule (variant.k.length - 16) block.reverse).reverse
  let r := (variant.k.zip w).foldl (fun s kw => variant.round s kw.1 kw.2) s
  { a := s.a + r.a, b := s.b + r.b, c := s.c + r.c, d := s.d + r.d
    e := s.e + r.e, f := s.f + r.f, g := s.g + r.g, h := s.h + r.h }

end Sha2Variant

/-- Cut a byte string into this many big-endian words of the given width. -/
def beWords (width : Nat) : Nat → List UInt8 → List Nat
  | 0, _ => []
  | count + 1, bytes =>
      fromLeBytes (bytes.take width).reverse :: beWords width count (bytes.drop width)

/-- Big-endian bytes of the chaining words. -/
def Sha2State.toBeBytes {ω : Type} (width : Nat) (toNat : ω → Nat) (s : Sha2State ω) : List UInt8 :=
  [s.a, s.b, s.c, s.d, s.e, s.f, s.g, s.h].flatMap fun word => (toLeBytes width (toNat word)).reverse

theorem Sha2State.length_toBeBytes {ω : Type} (width : Nat) (toNat : ω → Nat) (s : Sha2State ω) :
    (s.toBeBytes width toNat).length = 8 * width := by
  simp [toBeBytes]
  ring

namespace Sha256

def k : List UInt32 :=
  [0x428a2f98, 0x71374491, 0xb5c0fbcf, 0xe9b5dba5, 0x3956c25b, 0x59f111f1, 0x923f82a4, 0xab1c5ed5,
    0xd807aa98, 0x12835b01, 0x243185be, 0x550c7dc3, 0x72be5d74, 0x80deb1fe, 0x9bdc06a7, 0xc19bf174,
    0xe49b69c1, 0xefbe4786, 0x0fc19dc6, 0x240ca1cc, 0x2de92c6f, 0x4a7484aa, 0x5cb0a9dc, 0x76f988da,
    0x983e5152, 0xa831c66d, 0xb00327c8, 0xbf597fc7, 0xc6e00bf3, 0xd5a79147, 0x06ca6351, 0x14292967,
    0x27b70a85, 0x2e1b2138, 0x4d2c6dfc, 0x53380d13, 0x650a7354, 0x766a0abb, 0x81c2c92e, 0x92722c85,
    0xa2bfe8a1, 0xa81a664b, 0xc24b8b70, 0xc76c51a3, 0xd192e819, 0xd6990624, 0xf40e3585, 0x106aa070,
    0x19a4c116, 0x1e376c08, 0x2748774c, 0x34b0bcb5, 0x391c0cb3, 0x4ed8aa4a, 0x5b9cca4f, 0x682e6ff3,
    0x748f82ee, 0x78a5636f, 0x84c87814, 0x8cc70208, 0x90befffa, 0xa4506ceb, 0xbef9a3f7, 0xc67178f2]

def rotateRight (x count : UInt32) : UInt32 := (x >>> count) ||| (x <<< (32 - count))

def variant : Sha2Variant UInt32 where
  k := k
  bigSigma0 a := rotateRight a 2 ^^^ rotateRight a 13 ^^^ rotateRight a 22
  bigSigma1 e := rotateRight e 6 ^^^ rotateRight e 11 ^^^ rotateRight e 25
  smallSigma0 w := rotateRight w 7 ^^^ rotateRight w 18 ^^^ (w >>> 3)
  smallSigma1 w := rotateRight w 17 ^^^ rotateRight w 19 ^^^ (w >>> 10)

def compress (state : Sha2State UInt32) (block : List UInt8) : Sha2State UInt32 :=
  variant.compressWords state ((beWords 4 16 block).map UInt32.ofNat)

def hash : BlockHash (Sha2State UInt32) where
  blockLen := 64
  blockLen_pos := by decide
  compress := compress

def new : hash.Stream where
  state :=
    { a := 0x6a09e667, b := 0xbb67ae85, c := 0x3c6ef372, d := 0xa54ff53a
      e := 0x510e527f, f := 0x9b05688c, g := 0x1f83d9ab, h := 0x5be0cd19 }
  buf := []
  totalLen := 0
  short := by decide

def finalize (stream : hash.Stream) : Bytes 32 :=
  let bitLen := stream.totalLen * 8
  let done := stream.finish (toLeBytes 8 bitLen.toNat).reverse
  ⟨done.state.toBeBytes 4 UInt32.toNat, Sha2State.length_toBeBytes 4 _ _⟩

end Sha256

def sha256 (data : List UInt8) : Bytes 32 := Sha256.finalize (Sha256.new.update data)

namespace Sha512

def k : List UInt64 :=
  [0x428a2f98d728ae22, 0x7137449123ef65cd, 0xb5c0fbcfec4d3b2f, 0xe9b5dba58189dbbc,
    0x3956c25bf348b538, 0x59f111f1b605d019, 0x923f82a4af194f9b, 0xab1c5ed5da6d8118,
    0xd807aa98a3030242, 0x12835b0145706fbe, 0x243185be4ee4b28c, 0x550c7dc3d5ffb4e2,
    0x72be5d74f27b896f, 0x80deb1fe3b1696b1, 0x9bdc06a725c71235, 0xc19bf174cf692694,
    0xe49b69c19ef14ad2, 0xefbe4786384f25e3, 0x0fc19dc68b8cd5b5, 0x240ca1cc77ac9c65,
    0x2de92c6f592b0275, 0x4a7484aa6ea6e483, 0x5cb0a9dcbd41fbd4, 0x76f988da831153b5,
    0x983e5152ee66dfab, 0xa831c66d2db43210, 0xb00327c898fb213f, 0xbf597fc7beef0ee4,
    0xc6e00bf33da88fc2, 0xd5a79147930aa725, 0x06ca6351e003826f, 0x142929670a0e6e70,
    0x27b70a8546d22ffc, 0x2e1b21385c26c926, 0x4d2c6dfc5ac42aed, 0x53380d139d95b3df,
    0x650a73548baf63de, 0x766a0abb3c77b2a8, 0x81c2c92e47edaee6, 0x92722c851482353b,
    0xa2bfe8a14cf10364, 0xa81a664bbc423001, 0xc24b8b70d0f89791, 0xc76c51a30654be30,
    0xd192e819d6ef5218, 0xd69906245565a910, 0xf40e35855771202a, 0x106aa07032bbd1b8,
    0x19a4c116b8d2d0c8, 0x1e376c085141ab53, 0x2748774cdf8eeb99, 0x34b0bcb5e19b48a8,
    0x391c0cb3c5c95a63, 0x4ed8aa4ae3418acb, 0x5b9cca4f7763e373, 0x682e6ff3d6b2b8a3,
    0x748f82ee5defb2fc, 0x78a5636f43172f60, 0x84c87814a1f0ab72, 0x8cc702081a6439ec,
    0x90befffa23631e28, 0xa4506cebde82bde9, 0xbef9a3f7b2c67915, 0xc67178f2e372532b,
    0xca273eceea26619c, 0xd186b8c721c0c207, 0xeada7dd6cde0eb1e, 0xf57d4f7fee6ed178,
    0x06f067aa72176fba, 0x0a637dc5a2c898a6, 0x113f9804bef90dae, 0x1b710b35131c471b,
    0x28db77f523047d84, 0x32caab7b40c72493, 0x3c9ebe0a15c9bebc, 0x431d67c49c100d4c,
    0x4cc5d4becb3e42b6, 0x597f299cfc657e2a, 0x5fcb6fab3ad6faec, 0x6c44198c4a475817]

def rotateRight (x count : UInt64) : UInt64 := (x >>> count) ||| (x <<< (64 - count))

def variant : Sha2Variant UInt64 where
  k := k
  bigSigma0 a := rotateRight a 28 ^^^ rotateRight a 34 ^^^ rotateRight a 39
  bigSigma1 e := rotateRight e 14 ^^^ rotateRight e 18 ^^^ rotateRight e 41
  smallSigma0 w := rotateRight w 1 ^^^ rotateRight w 8 ^^^ (w >>> 7)
  smallSigma1 w := rotateRight w 19 ^^^ rotateRight w 61 ^^^ (w >>> 6)

def compress (state : Sha2State UInt64) (block : List UInt8) : Sha2State UInt64 :=
  variant.compressWords state ((beWords 8 16 block).map UInt64.ofNat)

def hash : BlockHash (Sha2State UInt64) where
  blockLen := 128
  blockLen_pos := by decide
  compress := compress

def new : hash.Stream where
  state :=
    { a := 0x6a09e667f3bcc908, b := 0xbb67ae8584caa73b, c := 0x3c6ef372fe94f82b
      d := 0xa54ff53a5f1d36f1, e := 0x510e527fade682d1, f := 0x9b05688c2b3e6c1f
      g := 0x1f83d9abfb41bd6b, h := 0x5be0cd19137e2179 }
  buf := []
  totalLen := 0
  short := by decide

/-- The length field has sixteen bytes, of which the counter fills the last eight. -/
def finalize (stream : hash.Stream) : Bytes 64 :=
  let bitLen := stream.totalLen * 8
  let done := stream.finish (List.replicate 8 0 ++ (toLeBytes 8 bitLen.toNat).reverse)
  ⟨done.state.toBeBytes 8 UInt64.toNat, Sha2State.length_toBeBytes 8 _ _⟩

end Sha512

def sha512 (data : List UInt8) : Bytes 64 := Sha512.finalize (Sha512.new.update data)

end Redoubt.Crypto
