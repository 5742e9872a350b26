import Redoubt.Crypto.Sha2

/-!
# Ed25519 signatures

Field elements are five limbs of 51 bits; limbs are 64-bit words that wrap, and the
products of a multiplication are 128-bit words.  Points are in extended coordinates
with one addition formula for sums and doublings.
-/

namespace Redoubt.Crypto.Ed25519

open Redoubt.Foundation

def u64 (value : Nat) : Nat := value % 2 ^ 64
def u128 (value : Nat) : Nat := value % 2 ^ 128
def mask51 : Nat := 2 ^ 51 - 1

/-- The bits of a little-endian byte string, most significant first. -/
def bitsMsbFirst (bytes : List UInt8) : List Bool :=
  bytes.reverse.flatMap fun byte =>
    [7, 6, 5, 4, 3, 2, 1, 0].map fun bit => byte.toNat.testBit bit

structure Fe where
  l0 : Nat
  l1 : Nat
  l2 : Nat
  l3 : Nat
  l4 : Nat
  deriving DecidableEq

namespace Fe

def zero : Fe := ⟨0, 0, 0, 0, 0⟩
def one : Fe := ⟨1, 0, 0, 0, 0⟩

def fromU64 (value : Nat) : Fe := ⟨value &&& mask51, value >>> 51, 0, 0, 0⟩

def fromBytes (b : Bytes 32) : Fe :=
  let le64 (off : Nat) (inside : off + 8 ≤ 32) : Nat := fromLeBytes (b.slice off 8 inside).val
  { l0 := le64 0 (by decide) &&& mask51
    l1 := (le64 6 (by decide) >>> 3) &&& mask51
    l2 := (le64 12 (by decide) >>> 6) &&& mask51
    l3 := (le64 19 (by decide) >>> 1) &&& mask51
    l4 := (le64 24 (by decide) >>> 12) &&& mask51 }

/-- One pass of carry folding, the top limb first. -/
def foldCarries (x : Fe) : Fe :=
  let l0 := u64 (x.l0 + u64 ((x.l4 >>> 51) * 19))
  let l1 := u64 (x.l1 + l0 >>> 51)
  let l2 := u64 (x.l2 + l1 >>> 51)
  let l3 := u64 (x.l3 + l2 >>> 51)
  { l0 := l0 &&& mask51
    l1 := l1 &&& mask51
    l2 := l2 &&& mask51
    l3 := l3 &&& mask51
    l4 := u64 ((x.l4 &&& mask51) + l3 >>> 51) }

def anyAbove (x : Fe) : Bool :=
  [x.l0, x.l1, x.l2, x.l3, x.l4].any fun limb => mask51 < limb

/-- Fold carries until every limb is below `2 ^ 51`. -/
def foldLoop : Nat → Fe → Fe
  | 0, x => x
  | fuel + 1, x => if x.anyAbove then foldLoop fuel x.foldCarries else x

/-- Four 64-bit words, least significant first. -/
def packWords (x : Fe) : List Nat :=
  [x.l0 ||| u64 (x.l1 <<< 51), (x.l1 >>> 13) ||| u64 (x.l2 <<< 38),
    (x.l2 >>> 26) ||| u64 (x.l3 <<< 25), (x.l3 >>> 39) ||| u64 (x.l4 <<< 12)]

def primeWords : List Nat :=
  [0xffffffffffffffed, 0xffffffffffffffff, 0xffffffffffffffff, 0x7fffffffffffffff]

/-- Lexicographic comparison of words given most significant first. -/
def wordsGe : List Nat → List Nat → Bool
  | left :: lefts, right :: rights => if left = right then wordsGe lefts rights else right < left
  | _, _ => true

/-- Word-wise subtraction with borrow, least significant first. -/
def wordsSub : List Nat → List Nat → Int → List Nat
  | left :: lefts, right :: rights, borrow =>
      let cur : Int := left - right - borrow
      if cur < 0 then (cur + 2 ^ 64).toNat :: wordsSub lefts rights 1
      else cur.toNat :: wordsSub lefts rights 0
  | _, _, _ => []

@[simp]
theorem length_wordsSub (left right : List Nat) (borrow : Int) :
    (wordsSub left right borrow).length = min left.length right.length := by
  induction left generalizing right borrow with
  | nil => simp [wordsSub]
  | cons _ _ ih =>
      cases right with
      | nil => simp [wordsSub]
      | cons =>
          rw [wordsSub]
          split <;> simp [ih, Nat.succ_min_succ]

/-- The words of the reduced value. -/
def reducedWords (x : Fe) : List Nat :=
  let ws := (foldLoop 16 x).packWords
  if wordsGe ws.reverse primeWords.reverse then wordsSub ws primeWords 0 else ws

theorem length_reducedWords (x : Fe) : x.reducedWords.length = 4 := by
  unfold reducedWords
  dsimp only
  split
  · rw [length_wordsSub]
    rfl
  · rfl

/-- Canonical little-endian encoding. -/
def toBytes (x : Fe) : Bytes 32 :=
  ⟨x.reducedWords.flatMap (toLeBytes 8), by
    have hlen := length_reducedWords x
    match hwords : x.reducedWords, hlen with
    | [w0, w1, w2, w3], _ => simp⟩

def weakReduce (x : Fe) : Fe :=
  let l1 := u64 (x.l1 + x.l0 >>> 51)
  let l2 := u64 (x.l2 + l1 >>> 51)
  let l3 := u64 (x.l3 + l2 >>> 51)
  let l4 := u64 (x.l4 + l3 >>> 51)
  { l0 := u64 ((x.l0 &&& mask51) + u64 ((l4 >>> 51) * 19))
    l1 := l1 &&& mask51
    l2 := l2 &&& mask51
    l3 := l3 &&& mask51
    l4 := l4 &&& mask51 }

def add (x y : Fe) : Fe :=
  weakReduce
    { l0 := u64 (x.l0 + y.l0)
      l1 := u64 (x.l1 + y.l1)
      l2 := u64 (x.l2 + y.l2)
      l3 := u64 (x.l3 + y.l3)
      l4 := u64 (x.l4 + y.l4) }

/-- A wrapping 64-bit difference. -/
def subWord (left right : Nat) : Nat := u64 (left + (2 ^ 64 - right))

/-- Twice the prime is added limb by limb before subtracting. -/
def sub (x y : Fe) : Fe :=
  let a := x.weakReduce
  let b := y.weakReduce
  weakReduce
    { l0 := subWord (u64 (a.l0 + 2 * (mask51 - 18))) b.l0
      l1 := subWord (u64 (a.l1 + 2 * mask51)) b.l1
      l2 := subWord (u64 (a.l2 + 2 * mask51)) b.l2
      l3 := subWord (u64 (a.l3 + 2 * mask51)) b.l3
      l4 := subWord (u64 (a.l4 + 2 * mask51)) b.l4 }

def neg (x : Fe) : Fe := zero.sub x

def mul (x y : Fe) : Fe :=
  let a := x.weakReduce
  let b := y.weakReduce
  let b1 := b.l1 * 19
  let b2 := b.l2 * 19
  let b3 := b.l3 * 19
  let b4 := b.l4 * 19
  let r0 := u128 (a.l0 * b.l0 + a.l1 * b4 + a.l2 * b3 + a.l3 * b2 + a.l4 * b1)
  let r1 := u128 (a.l0 * b.l1 + a.l1 * b.l0 + a.l2 * b4 + a.l3 * b3 + a.l4 * b2)
  let r2 := u128 (a.l0 * b.l2 + a.l1 * b.l1 + a.l2 * b.l0 + a.l3 * b4 + a.l4 * b3)
  let r3 := u128 (a.l0 * b.l3 + a.l1 * b.l2 + a.l2 * b.l1 + a.l3 * b.l0 + a.l4 * b4)
  let r4 := u128 (a.l0 * b.l4 + a.l1 * b.l3 + a.l2 * b.l2 + a.l3 * b.l1 + a.l4 * b.l0)
  let t1 := u128 (r1 + u64 (r0 >>> 51))
  let t2 := u128 (r2 + u64 (t1 >>> 51))
  let t3 := u128 (r3 + u64 (t2 >>> 51))
  let t4 := u128 (r4 + u64 (t3 >>> 51))
  let t0 := u128 ((r0 &&& mask51) + u64 (t4 >>> 51) * 19)
  { l0 := u64 (t0 &&& mask51)
    l1 := u64 (u128 ((t1 &&& mask51) + u64 (t0 >>> 51)))
    l2 := u64 (t2 &&& mask51)
    l3 := u64 (t3 &&& mask51)
    l4 := u64 (t4 &&& mask51) }

def square (x : Fe) : Fe := x.mul x

/-- Square-and-multiply from the most significant bit of the exponent. -/
def powBytesExp (x : Fe) (exp : Bytes 32) : Fe :=
  (bitsMsbFirst exp.val).foldl
    (fun result bit => if bit then result.square.mul x else result.square) one

end Fe

/-- Subtract a small number from a little-endian byte string. -/
def subSmall : List UInt8 → Nat → List UInt8
  | [], _ => []
  | byte :: rest, borrow =>
      let cur := byte.toNat
      let sub := borrow &&& 0xff
      let digit := if sub ≤ cur then cur - sub else cur + 256 - sub
      let borrow := if sub ≤ cur then borrow >>> 8 else (borrow >>> 8) + 1
      UInt8.ofNat digit :: if borrow = 0 then rest else subSmall rest borrow

theorem length_subSmall (bytes : List UInt8) (borrow : Nat) :
    (subSmall bytes borrow).length = bytes.length := by
  induction bytes generalizing borrow with
  | nil => rfl
  | cons _ _ ih =>
      rw [subSmall, List.length_cons, List.length_cons, apply_ite List.length, ih, ite_self]

/-- The prime minus a small number, little-endian. -/
def expPMinus (k : Nat) : Bytes 32 :=
  ⟨subSmall (0xed :: (List.replicate 30 0xff ++ [0x7f])) k, by rw [length_subSmall]; rfl⟩

/-- Shift right by a few bits, most significant byte first. -/
def shrBytes (bits : UInt8) : List UInt8 → UInt8 → List UInt8
  | [], _ => []
  | byte :: rest, carry =>
      ((byte >>> bits) ||| (carry <<< (8 - bits))) ::
        shrBytes bits rest (byte &&& ((1 <<< bits) - 1))

theorem length_shrBytes (bits : UInt8) (bytes : List UInt8) (carry : UInt8) :
    (shrBytes bits bytes carry).length = bytes.length := by
  induction bytes generalizing carry with
  | nil => rfl
  | cons _ _ ih => simp [shrBytes, ih]

def expShr (e : Bytes 32) (bits : UInt8) : Bytes 32 :=
  ⟨(shrBytes bits e.val.reverse 0).reverse, by
    rw [List.length_reverse, length_shrBytes, List.length_reverse]
    exact e.property⟩

namespace Fe

def invert (x : Fe) : Fe := x.powBytesExp (expPMinus 2)

def isNegative (x : Fe) : Bool := x.toBytes.val.headD 0 &&& 1 == 1

def isZero (x : Fe) : Bool := x.toBytes.val.foldl (· ||| ·) 0 == 0

protected def eq (x y : Fe) : Bool := (x.sub y).isZero

def conditionalNegate (x : Fe) (choice : Bool) : Fe := if choice then x.neg else x

end Fe

/-- The curve constant `-121665 / 121666`. -/
def dConstant : Fe := (Fe.fromU64 121666).invert.mul (Fe.fromU64 121665).neg

/-- A square root of minus one, `2 ^ ((p - 1) / 4)`. -/
def sqrtM1 : Fe := (Fe.fromU64 2).powBytesExp (expShr (expPMinus 1) 2)

structure Point where
  x : Fe
  y : Fe
  z : Fe
  t : Fe
  deriving DecidableEq

namespace Point

def identity : Point := ⟨Fe.zero, Fe.one, Fe.one, Fe.zero⟩

protected def eq (p q : Point) : Bool :=
  (p.x.mul q.z).eq (q.x.mul p.z) && (p.y.mul q.z).eq (q.y.mul p.z)

/-- Unified addition, also used for doubling. -/
def add (p q : Point) : Point :=
  let d := dConstant
  let a := (p.y.sub p.x).mul (q.y.sub q.x)
  let b := (p.y.add p.x).mul (q.y.add q.x)
  let c := ((p.t.add p.t).mul q.t).mul d
  let dd := (p.z.add p.z).mul q.z
  let e := b.sub a
  let f := dd.sub c
  let g := dd.add c
  let h := b.add a
  ⟨e.mul f, g.mul h, f.mul g, e.mul h⟩

/-- The byte with the sign bit. -/
theorem top_inside : 31 + 1 ≤ 32 := by decide

def compress (p : Point) : Bytes 32 :=
  let zinv := p.z.invert
  let x := p.x.mul zinv
  let y := p.y.mul zinv
  let out := y.toBytes
  if x.isNegative then
    out.splice 31 (Bytes.one (out.byte 31 ||| 0x80))
  else out

end Point

/-- Recover a point from its encoding. -/
def decompress (bytes : Bytes 32) : Option Point :=
  let top := bytes.byte 31
  let sign := top >>> 7 == 1
  let y := Fe.fromBytes (bytes.splice 31 (Bytes.one (top &&& 0x7f)))
  let yy := y.square
  let u := yy.sub Fe.one
  let v := (dConstant.mul yy).add Fe.one
  let v3 := v.square.mul v
  let v7 := v3.square.mul v
  let exp := expShr (expPMinus 5) 3
  let x := (u.mul v3).mul ((u.mul v7).powBytesExp exp)
  let check := x.square.mul v
  let root :=
    if check.eq u then some x
    else if check.eq u.neg then some (x.mul sqrtM1)
    else none
  match root with
  | none => none
  | some x =>
      -- negative zero is not a valid encoding
      if x.isZero && sign then none
      else
        let x := if x.isNegative != sign then x.conditionalNegate true else x
        some ⟨x, y, Fe.one, x.mul y⟩

/-- The base point: `y = 4 / 5` with the even root, which is on the curve. -/
def basepoint : Point :=
  (decompress ((Fe.fromU64 4).mul (Fe.fromU64 5).invert).toBytes).getD Point.identity

/-- Double-and-add from the first set bit on. -/
def scalarMulPoint (scalar : Bytes 32) (p : Point) : Point :=
  let step : Bool × Point → Bool → Bool × Point := fun (started, acc) bit =>
    if started then
      let acc := acc.add acc
      (true, if bit then acc.add p else acc)
    else if bit then (true, p)
    else (false, acc)
  ((bitsMsbFirst scalar.val).foldl step (false, Point.identity)).2

def scalarMulBase (scalar : Bytes 32) : Point := scalarMulPoint scalar basepoint

/-! ### Scalars modulo the group order -/

def lLimbs : List Nat := [0x5cf5d3ed, 0x5812631a, 0xa2f79cd6, 0x14def9de, 0, 0, 0, 0x10000000]

/-- Shift a bit into a number of 32-bit limbs, least significant first. -/
def shiftInBit : List Nat → Nat → List Nat
  | [], _ => []
  | limb :: rest, carry => ((limb <<< 1) % 2 ^ 32 ||| carry) :: shiftInBit rest (limb >>> 31)

/-- Compare the low eight limbs. -/
def limbsGeq (a b : List Nat) : Bool := Fe.wordsGe (a.take 8).reverse b.reverse

/-- Subtract from the low eight limbs with borrow. -/
def limbsSub : List Nat → List Nat → Nat → List Nat
  | limb :: rest, other :: others, borrow =>
      let sub := other + borrow
      (limb + (2 ^ 64 - sub)) % 2 ^ 32 :: limbsSub rest others (if limb < sub then 1 else 0)
  | limbs, _, _ => limbs

def modLStep (rem : List Nat) (bit : Bool) : List Nat :=
  let rem := shiftInBit rem bit.toNat
  if limbsGeq rem lLimbs then limbsSub rem lLimbs 0 else rem

@[simp]
theorem length_shiftInBit (limbs : List Nat) (carry : Nat) :
    (shiftInBit limbs carry).length = limbs.length := by
  induction limbs generalizing carry with
  | nil => rfl
  | cons _ _ ih => simp [shiftInBit, ih]

@[simp]
theorem length_limbsSub (limbs others : List Nat) (borrow : Nat) :
    (limbsSub limbs others borrow).length = limbs.length := by
  induction limbs generalizing others borrow with
  | nil => simp [limbsSub]
  | cons _ _ ih =>
      cases others with
      | nil => rfl
      | cons => simp [limbsSub, ih]

theorem length_modLStep (rem : List Nat) (bit : Bool) : (modLStep rem bit).length = rem.length := by
  unfold modLStep
  dsimp only
  split <;> simp

/-- The remainder after binary long division, in nine limbs. -/
def modLLimbs (input : List UInt8) : List Nat :=
  (bitsMsbFirst input).foldl modLStep (List.replicate 9 0)

theorem length_modLLimbs (input : List UInt8) : (modLLimbs input).length = 9 := by
  have hfold : ∀ (bits : List Bool) (rem : List Nat),
      (bits.foldl modLStep rem).length = rem.length := by
    intro bits
    induction bits with
    | nil => intro rem; rfl
    | cons _ _ ih =>
        intro rem
        rw [List.foldl_cons, ih, length_modLStep]
  rw [modLLimbs, hfold]
  rfl

/-- Reduce a little-endian number modulo the group order. -/
def modL (input : List UInt8) : Bytes 32 :=
  ⟨((modLLimbs input).take 8).flatMap (toLeBytes 4), by
    have hlen := length_modLLimbs input
    match hlimbs : modLLimbs input, hlen with
    | [a, b, c, d, e, f, g, h, i], _ => simp⟩

def bytesGeqL (bytes : Bytes 32) : Bool :=
  let lb := lLimbs.flatMap (toLeBytes 4)
  Fe.wordsGe (bytes.val.reverse.map UInt8.toNat) (lb.reverse.map UInt8.toNat)

/-- Add one row of a schoolbook product; the carry goes into the limb after the row. -/
def mulRow (a : Nat) : List Nat → List Nat → Nat → List Nat
  | p :: prod, b :: bs, carry =>
      let cur := u64 (p + a * b + carry)
      cur % 2 ^ 32 :: mulRow a prod bs (cur >>> 32)
  | p :: prod, [], carry => (p + carry % 2 ^ 32) % 2 ^ 32 :: prod
  | [], _, _ => []

def mulRows (bs : List Nat) : List Nat → List Nat → List Nat
  | [], prod => prod
  | a :: rest, prod =>
      match mulRow a prod bs 0 with
      | [] => []
      | low :: high => low :: mulRows bs rest high

/-- Byte-wise addition with carry. -/
def addBytes : List UInt8 → List UInt8 → Nat → List UInt8
  | w :: wide, c :: cs, carry =>
      let sum := w.toNat + c.toNat + carry
      UInt8.ofNat sum :: addBytes wide cs (sum >>> 8)
  | w :: wide, [], carry =>
      if 0 < carry then
        let sum := w.toNat + carry
        UInt8.ofNat sum :: addBytes wide [] (sum >>> 8)
      else w :: wide
  | [], _, _ => []

def leLimbs (bytes : Bytes 32) : List Nat :=
  (List.range 8).map fun index => fromLeBytes ((bytes.val.drop (4 * index)).take 4)

/-- `a * b + c` modulo the group order. -/
def mulAddModL (a b c : Bytes 32) : Bytes 32 :=
  let prod := mulRows (leLimbs b) (leLimbs a) (List.replicate 34 0)
  let wide := prod.flatMap (toLeBytes 4) ++ List.replicate 8 0
  modL (addBytes wide c.val 0)

/-! ### Signing and verification -/

/-- The clamped secret scalar and the nonce prefix of a seed. -/
def expandSeed (seed : Bytes 32) : Bytes 32 × Bytes 32 :=
  let h := sha512 seed.val
  let a := h.slice 0 32
  let a := a.splice 0 (Bytes.one (a.byte 0 &&& 248))
  let a := a.splice 31 (Bytes.one ((a.byte 31 &&& 127) ||| 64))
  (a, h.slice 32 32)

def publicFromSeed (seed : Bytes 32) : Bytes 32 := (scalarMulBase (expandSeed seed).1).compress

/-- The two halves of a signature. -/
def joinSignature (r s : Bytes 32) : Bytes 64 :=
  ⟨r.val ++ s.val, by rw [List.length_append, r.property, s.property]⟩

def sign (seed : Bytes 32) (msg : List UInt8) : Bytes 64 :=
  let (aScalar, pre) := expandSeed seed
  let aBytes := (scalarMulBase aScalar).compress
  let r := modL (Sha512.finalize ((Sha512.new.update pre.val).update msg)).val
  let rBytes := (scalarMulBase r).compress
  let k := modL
    (Sha512.finalize (((Sha512.new.update rBytes.val).update aBytes.val).update msg)).val
  joinSignature rBytes (mulAddModL k aScalar r)

inductive VerifyError where
  | malformed
  | invalid
  deriving DecidableEq

def verify (pub : Bytes 32) (msg : List UInt8) (sig : Bytes 64) : Except VerifyError Unit :=
  let rBytes := sig.slice 0 32
  let sBytes := sig.slice 32 32
  if bytesGeqL sBytes then .error .malformed
  else
    match decompress rBytes, decompress pub with
    | some bigR, some aPoint =>
        let k := modL
          (Sha512.finalize (((Sha512.new.update rBytes.val).update pub.val).update msg)).val
        let lhs := scalarMulBase sBytes
        let rhs := bigR.add (scalarMulPoint k aPoint)
        if lhs.eq rhs then .ok () else .error .invalid
    | _, _ => .error .malformed

/-- The check every caller makes. -/
def accepts (pub : Bytes 32) (msg : List UInt8) (sig : Bytes 64) : Bool :=
  match verify pub msg sig with
  | .ok () => true
  | .error _ => false

end Redoubt.Crypto.Ed25519
