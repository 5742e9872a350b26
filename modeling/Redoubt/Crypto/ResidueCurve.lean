import Redoubt.Crypto.FieldResidue

/-!
# Signature checks over residues

The functions of the signature check written over residues modulo the prime, with one
lemma for each that the limb version computes the same.  A check over residues is
evaluated much faster than one over limbs.
-/

namespace Redoubt.Crypto.Ed25519

open Redoubt.Foundation

/-- The field element is bounded and stands for this residue. -/
def Fe.Is (x : Fe) (n : Nat) : Prop := x.Bounded ∧ x.value % prime = n

namespace Residue

def add (m n : Nat) : Nat := (m + n) % prime
def sub (m n : Nat) : Nat := (m + (prime - n)) % prime
def mul (m n : Nat) : Nat := m * n % prime

def pow (m : Nat) (exp : Bytes 32) : Nat :=
  (bitsMsbFirst exp.val).foldl (fun r bit => if bit then mul (mul r r) m else mul r r) 1

def toBytes (n : Nat) : Bytes 32 := ⟨toLeBytes 32 n, length_toLeBytes 32 n⟩

def isNegative (n : Nat) : Bool := (toLeBytes 32 n).headD 0 &&& 1 == 1

def isZero (n : Nat) : Bool := (toLeBytes 32 n).foldl (· ||| ·) 0 == 0

protected def eq (m n : Nat) : Bool := isZero (sub m n)

end Residue

namespace Fe.Is

variable {x y : Fe} {m n : Nat}

theorem add (hx : x.Is m) (hy : y.Is n) : (x.add y).Is (Residue.add m n) := by
  obtain ⟨hbounded, hvalue⟩ := add_spec hx.1 hy.1
  refine ⟨hbounded, ?_⟩
  rw [hvalue, Nat.add_mod, hx.2, hy.2]
  rfl

theorem sub (hx : x.Is m) (hy : y.Is n) : (x.sub y).Is (Residue.sub m n) := by
  obtain ⟨hbounded, hvalue⟩ := sub_spec hx.1 hy.1
  refine ⟨hbounded, ?_⟩
  rw [hvalue, hx.2, hy.2]
  rfl

theorem mul (hx : x.Is m) (hy : y.Is n) : (x.mul y).Is (Residue.mul m n) := by
  obtain ⟨hbounded, hvalue⟩ := mul_spec hx.1 hy.1
  refine ⟨hbounded, ?_⟩
  rw [hvalue, Nat.mul_mod, hx.2, hy.2]
  rfl

theorem pow (hx : x.Is m) (exp : Bytes 32) : (x.powBytesExp exp).Is (Residue.pow m exp) := by
  have hfold : ∀ (bits : List Bool) {r : Fe} {k : Nat}, r.Is k →
      (bits.foldl (fun result bit => if bit then result.square.mul x else result.square) r).Is
        (bits.foldl (fun r bit => if bit then Residue.mul (Residue.mul r r) m else Residue.mul r r)
          k) := by
    intro bits
    induction bits with
    | nil => exact fun hr => hr
    | cons bit _ ih =>
        intro r k hr
        rw [List.foldl_cons, List.foldl_cons]
        apply ih
        cases bit with
        | false => exact hr.mul hr
        | true => exact (hr.mul hr).mul hx
  exact hfold _ ⟨⟨by decide, by decide, by decide, by decide, by decide⟩, by decide +kernel⟩

theorem toBytes (hx : x.Is m) : x.toBytes = Residue.toBytes m := by
  apply Subtype.ext
  rw [toBytes_spec hx.1, hx.2]
  rfl

theorem isNegative (hx : x.Is m) : x.isNegative = Residue.isNegative m := by
  unfold Fe.isNegative
  rw [hx.toBytes]
  rfl

theorem isZero (hx : x.Is m) : x.isZero = Residue.isZero m := by
  unfold Fe.isZero
  rw [hx.toBytes]
  rfl

theorem eq (hx : x.Is m) (hy : y.Is n) : x.eq y = Residue.eq m n := (hx.sub hy).isZero

theorem zero : Fe.zero.Is 0 := ⟨⟨by decide, by decide, by decide, by decide, by decide⟩, by decide⟩

theorem one : Fe.one.Is 1 := ⟨⟨by decide, by decide, by decide, by decide, by decide⟩, by decide +kernel⟩

theorem neg (hx : x.Is m) : x.neg.Is (Residue.sub 0 m) := zero.sub hx

theorem fromU64 {value : Nat} (h : value < 2 ^ 64) : (Fe.fromU64 value).Is value := by
  obtain ⟨hbounded, hvalue⟩ := fromU64_spec h
  refine ⟨hbounded, ?_⟩
  rw [hvalue, prime]
  omega

theorem fromBytes (b : Bytes 32) : (Fe.fromBytes b).Is (fromLeBytes b.val % 2 ^ 255 % prime) := by
  obtain ⟨hbounded, hvalue⟩ := fromBytes_spec b
  exact ⟨hbounded, by rw [hvalue]⟩

end Fe.Is

/-! ### Points -/

/-- Extended coordinates as residues. -/
structure ResiduePoint where
  x : Nat
  y : Nat
  z : Nat
  t : Nat
  deriving DecidableEq

structure Point.Is (p : Point) (q : ResiduePoint) : Prop where
  x : p.x.Is q.x
  y : p.y.Is q.y
  z : p.z.Is q.z
  t : p.t.Is q.t

namespace Residue

def dConstant : Nat :=
  37095705934669439343138083508754565189542113879843219016388785533085940283555

def sqrtM1 : Nat :=
  19681161376707505956807079304988542015446066515923890162744021073123829784752

def addPoints (p q : ResiduePoint) : ResiduePoint :=
  let a := mul (sub p.y p.x) (sub q.y q.x)
  let b := mul (add p.y p.x) (add q.y q.x)
  let c := mul (mul (add p.t p.t) q.t) dConstant
  let dd := mul (add p.z p.z) q.z
  let e := sub b a
  let f := sub dd c
  let g := add dd c
  let h := add b a
  ⟨mul e f, mul g h, mul f g, mul e h⟩

def eqPoints (p q : ResiduePoint) : Bool :=
  Residue.eq (mul p.x q.z) (mul q.x p.z) && Residue.eq (mul p.y q.z) (mul q.y p.z)

/-- The square root of `u / v` among the two that are tried. -/
def rootOf (u v x : Nat) : Option Nat :=
  if Residue.eq (mul (mul x x) v) u then some x
  else if Residue.eq (mul (mul x x) v) (sub 0 u) then some (mul x sqrtM1)
  else none

/-- The point with this root, with the sign asked for. -/
def signedPoint (sign : Bool) (y x : Nat) : Option ResiduePoint :=
  if isZero x && sign then none
  else
    let x := if isNegative x != sign then sub 0 x else x
    some ⟨x, y, 1, mul x y⟩

/-- A candidate for the root of `u / v`. -/
def candidate (u v : Nat) : Nat :=
  let v3 := mul (mul v v) v
  mul (mul u v3) (pow (mul u (mul (mul v3 v3) v)) (expShr (expPMinus 5) 3))

def decompress (bytes : Bytes 32) : Option ResiduePoint :=
  let y := fromLeBytes (bytes.splice 31 (Bytes.one (bytes.byte 31 Point.top_inside &&& 0x7f))
    Point.top_inside).val % 2 ^ 255 % prime
  let u := sub (mul y y) 1
  let v := add (mul dConstant (mul y y)) 1
  (rootOf u v (candidate u v)).bind (signedPoint (bytes.byte 31 Point.top_inside >>> 7 == 1) y)

def basepoint : ResiduePoint where
  x := 15112221349535400772501151409588531511454012693041857206046113283949847762202
  y := 46316835694926478169428394003475163141307993866256225615783033603165251855960
  z := 1
  t := 46827403850823179245072216630277197565144205554125654976674165829533817101731

def scalarMulPoint (scalar : Bytes 32) (p : ResiduePoint) : ResiduePoint :=
  let step : Bool × ResiduePoint → Bool → Bool × ResiduePoint := fun (started, acc) bit =>
    if started then
      let acc := addPoints acc acc
      (true, if bit then addPoints acc p else acc)
    else if bit then (true, p)
    else (false, acc)
  ((bitsMsbFirst scalar.val).foldl step (false, ⟨0, 1, 1, 0⟩)).2

end Residue

theorem dConstant_is : dConstant.Is Residue.dConstant := by
  have h := ((Fe.Is.fromU64 (by decide : 121666 < 2 ^ 64)).pow (expPMinus 2)).mul
    (Fe.Is.fromU64 (by decide : 121665 < 2 ^ 64)).neg
  have hvalue : Residue.mul (Residue.pow 121666 (expPMinus 2)) (Residue.sub 0 121665) =
      Residue.dConstant := by decide +kernel
  rwa [hvalue] at h

theorem sqrtM1_is : sqrtM1.Is Residue.sqrtM1 := by
  have h := (Fe.Is.fromU64 (by decide : 2 < 2 ^ 64)).pow (expShr (expPMinus 1) 2)
  have hvalue : Residue.pow 2 (expShr (expPMinus 1) 2) = Residue.sqrtM1 := by decide +kernel
  rwa [hvalue] at h

theorem Point.Is.add {p q : Point} {p' q' : ResiduePoint} (hp : p.Is p') (hq : q.Is q') :
    (p.add q).Is (Residue.addPoints p' q') := by
  have ha := (hp.y.sub hp.x).mul (hq.y.sub hq.x)
  have hb := (hp.y.add hp.x).mul (hq.y.add hq.x)
  have hc := ((hp.t.add hp.t).mul hq.t).mul dConstant_is
  have hd := (hp.z.add hp.z).mul hq.z
  have he := hb.sub ha
  have hf := hd.sub hc
  have hg := hd.add hc
  have hh := hb.add ha
  exact ⟨he.mul hf, hg.mul hh, hf.mul hg, he.mul hh⟩

theorem Point.Is.eq {p q : Point} {p' q' : ResiduePoint} (hp : p.Is p') (hq : q.Is q') :
    p.eq q = Residue.eqPoints p' q' := by
  unfold Point.eq Residue.eqPoints
  rw [(hp.x.mul hq.z).eq (hq.x.mul hp.z), (hp.y.mul hq.z).eq (hq.y.mul hp.z)]

/-! ### Decoding in stages

Comparing `decompress bytes` with its body makes the kernel look for the root of an
unknown number.  The body is therefore first stated for arbitrary field operations,
where nothing can be computed. -/

/-- The body of `decompress` over arbitrary operations. -/
def decodeWith (fromBytes : Bytes 32 → Fe) (mul sub add : Fe → Fe → Fe) (square neg : Fe → Fe)
    (pow : Fe → Bytes 32 → Fe) (eq : Fe → Fe → Bool) (isZero isNegative : Fe → Bool)
    (negate : Fe → Bool → Fe) (d root one : Fe) (exp : Bytes 32) (inside : 31 + 1 ≤ 32)
    (bytes : Bytes 32) : Option Point :=
  let top := bytes.byte 31 inside
  let sign := top >>> 7 == 1
  let y := fromBytes (bytes.splice 31 (Bytes.one (top &&& 0x7f)) inside)
  let yy := square y
  let u := sub yy one
  let v := add (mul d yy) one
  let v3 := mul (square v) v
  let v7 := mul (square v3) v
  let exp := exp
  let x := mul (mul u v3) (pow (mul u v7) exp)
  let check := mul (square x) v
  let root :=
    if eq check u then some x
    else if eq check (neg u) then some (mul x root)
    else none
  match root with
  | none => none
  | some x =>
      if isZero x && sign then none
      else
        let x := if isNegative x != sign then negate x true else x
        some ⟨x, y, one, mul x y⟩

theorem decompress_eq_decodeWith : ∃ inside, decompress =
    decodeWith Fe.fromBytes Fe.mul Fe.sub Fe.add Fe.square Fe.neg Fe.powBytesExp Fe.eq Fe.isZero
      Fe.isNegative Fe.conditionalNegate dConstant sqrtM1 Fe.one (expShr (expPMinus 5) 3) inside := by
  delta decompress decodeWith
  exact ⟨_, rfl⟩

theorem decodeWith_eq (fromBytes : Bytes 32 → Fe) (mul sub add : Fe → Fe → Fe) (square neg : Fe → Fe)
    (pow : Fe → Bytes 32 → Fe) (eq : Fe → Fe → Bool) (isZero isNegative : Fe → Bool)
    (negate : Fe → Bool → Fe) (d root one : Fe) (exp : Bytes 32) (inside : 31 + 1 ≤ 32)
    (bytes : Bytes 32) :
    decodeWith fromBytes mul sub add square neg pow eq isZero isNegative negate d root one exp inside
        bytes =
      let y := fromBytes (bytes.splice 31 (Bytes.one (bytes.byte 31 inside &&& 0x7f)) inside)
      let u := sub (square y) one
      let v := add (mul d (square y)) one
      let v3 := mul (square v) v
      let x := mul (mul u v3) (pow (mul u (mul (square v3) v)) exp)
      (if eq (mul (square x) v) u then some x
        else if eq (mul (square x) v) (neg u) then some (mul x root)
        else none).bind fun x =>
          if isZero x && (bytes.byte 31 inside >>> 7 == 1) then none
          else
            let x := if isNegative x != (bytes.byte 31 inside >>> 7 == 1) then negate x true else x
            some ⟨x, y, one, mul x y⟩ := by
  unfold decodeWith
  dsimp only
  split_ifs
  · rfl
  · rfl
  · rfl

theorem Fe.Is.rootOf {u v x : Fe} {nu nv nx : Nat} (hu : u.Is nu) (hv : v.Is nv) (hx : x.Is nx) :
    let found := if (x.square.mul v).eq u then some x
      else if (x.square.mul v).eq u.neg then some (x.mul sqrtM1) else none
    (found = none ∧ Residue.rootOf nu nv nx = none) ∨
      ∃ r n, found = some r ∧ Residue.rootOf nu nv nx = some n ∧ r.Is n := by
  dsimp only
  have hcheck := (hx.mul hx).mul hv
  unfold Residue.rootOf Fe.square
  rw [hcheck.eq hu, hcheck.eq hu.neg]
  split_ifs
  · exact .inr ⟨x, nx, rfl, rfl, hx⟩
  · exact .inr ⟨_, _, rfl, rfl, hx.mul sqrtM1_is⟩
  · exact .inl ⟨rfl, rfl⟩

theorem Fe.Is.signedPoint {x y : Fe} {nx ny : Nat} (hx : x.Is nx) (hy : y.Is ny) (sign : Bool) :
    let point := if x.isZero && sign then none
      else
        let x := if x.isNegative != sign then x.conditionalNegate true else x
        some (⟨x, y, Fe.one, x.mul y⟩ : Point)
    (point = none ∧ Residue.signedPoint sign ny nx = none) ∨
      ∃ p q, point = some p ∧ Residue.signedPoint sign ny nx = some q ∧ p.Is q := by
  dsimp only
  unfold Residue.signedPoint
  rw [hx.isZero, hx.isNegative]
  dsimp only
  split_ifs
  · exact .inl ⟨rfl, rfl⟩
  · exact .inr ⟨_, _, rfl, rfl, hx.neg, hy, Fe.Is.one, hx.neg.mul hy⟩
  · exact .inr ⟨_, _, rfl, rfl, hx, hy, Fe.Is.one, hx.mul hy⟩

theorem candidate_is {u v : Fe} {nu nv : Nat} (hu : u.Is nu) (hv : v.Is nv) :
    ((u.mul (v.square.mul v)).mul ((u.mul ((v.square.mul v).square.mul v)).powBytesExp
      (expShr (expPMinus 5) 3))).Is (Residue.candidate nu nv) := by
  have hv3 := (hv.mul hv).mul hv
  exact (hu.mul hv3).mul ((hu.mul ((hv3.mul hv3).mul hv)).pow (expShr (expPMinus 5) 3))

/-- Decoding over residues finds the same point or fails as well. -/
theorem decompress_residue (bytes : Bytes 32) :
    (decompress bytes = none ∧ Residue.decompress bytes = none) ∨
      ∃ p q, decompress bytes = some p ∧ Residue.decompress bytes = some q ∧ p.Is q := by
  obtain ⟨inside, hdecode⟩ := decompress_eq_decodeWith
  rw [hdecode, decodeWith_eq]
  unfold Residue.decompress
  dsimp only
  have hy := Fe.Is.fromBytes (bytes.splice 31 (Bytes.one (bytes.byte 31 &&& 0x7f)))
  generalize Fe.fromBytes (bytes.splice 31 (Bytes.one (bytes.byte 31 &&& 0x7f))) = y at hy ⊢
  generalize fromLeBytes (bytes.splice 31 (Bytes.one (bytes.byte 31 &&& 0x7f))).val % 2 ^ 255 % prime
    = ny at hy ⊢
  generalize (bytes.byte 31 >>> 7 == 1) = sign
  have hu := (hy.mul hy).sub Fe.Is.one
  have hv := (dConstant_is.mul (hy.mul hy)).add Fe.Is.one
  change y.square.sub Fe.one |>.Is _ at hu
  change ((dConstant.mul y.square).add Fe.one).Is _ at hv
  generalize y.square.sub Fe.one = u at hu ⊢
  generalize (dConstant.mul y.square).add Fe.one = v at hv ⊢
  generalize Residue.sub (Residue.mul ny ny) 1 = nu at hu ⊢
  generalize Residue.add (Residue.mul Residue.dConstant (Residue.mul ny ny)) 1 = nv at hv ⊢
  have hx := candidate_is hu hv
  generalize (u.mul (v.square.mul v)).mul _ = x at hx ⊢
  generalize Residue.candidate nu nv = nx at hx ⊢
  obtain ⟨hnone, hnone'⟩ | ⟨r, n, hsome, hsome', hr⟩ := hu.rootOf hv hx
  · rw [hnone, hnone']
    exact .inl ⟨rfl, rfl⟩
  · rw [hsome, hsome']
    exact hr.signedPoint hy sign

theorem basepoint_is : basepoint.Is Residue.basepoint := by
  have hy := (Fe.Is.fromU64 (by decide : 4 < 2 ^ 64)).mul
    ((Fe.Is.fromU64 (by decide : 5 < 2 ^ 64)).pow (expPMinus 2))
  have hpoint : Residue.decompress (Residue.toBytes (Residue.mul 4 (Residue.pow 5 (expPMinus 2)))) =
      some Residue.basepoint := by decide +kernel
  unfold basepoint
  have hbytes : ((Fe.fromU64 4).mul (Fe.fromU64 5).invert).toBytes =
      Residue.toBytes (Residue.mul 4 (Residue.pow 5 (expPMinus 2))) := hy.toBytes
  rw [hbytes]
  obtain ⟨-, hnone⟩ | ⟨p, q, hp, hq, his⟩ :=
    decompress_residue (Residue.toBytes (Residue.mul 4 (Residue.pow 5 (expPMinus 2))))
  · rw [hpoint] at hnone
    cases hnone
  · rw [hpoint] at hq
    cases hq
    rw [hp]
    exact his

theorem Point.Is.scalarMul {p : Point} {q : ResiduePoint} (h : p.Is q) (scalar : Bytes 32) :
    (scalarMulPoint scalar p).Is (Residue.scalarMulPoint scalar q) := by
  have hfold : ∀ (bits : List Bool) (started : Bool) {acc : Point} {acc' : ResiduePoint}, acc.Is acc' →
      ((bits.foldl (fun (state : Bool × Point) bit =>
          if state.1 then
            let acc := state.2.add state.2
            (true, if bit then acc.add p else acc)
          else if bit then (true, p) else (false, state.2)) (started, acc)).2).Is
        ((bits.foldl (fun (state : Bool × ResiduePoint) bit =>
          if state.1 then
            let acc := Residue.addPoints state.2 state.2
            (true, if bit then Residue.addPoints acc q else acc)
          else if bit then (true, q) else (false, state.2)) (started, acc')).2) := by
    intro bits
    induction bits with
    | nil => exact fun _ _ _ hacc => hacc
    | cons bit _ ih =>
        intro started acc acc' hacc
        rw [List.foldl_cons, List.foldl_cons]
        cases started with
        | false =>
            cases bit with
            | false => exact ih false hacc
            | true => exact ih true h
        | true =>
            cases bit with
            | false => exact ih true (hacc.add hacc)
            | true => exact ih true ((hacc.add hacc).add h)
  exact hfold _ false ⟨Fe.Is.zero, Fe.Is.one, Fe.Is.one, Fe.Is.zero⟩

/-! ### The check -/

/-- What an accepted signature has passed. -/
theorem verify_eq_ok_iff (pub : Bytes 32) (msg : List UInt8) (sig : Bytes 64) :
    verify pub msg sig = .ok () ↔ bytesGeqL (sig.slice 32 32) = false ∧ ∃ bigR aPoint,
      decompress (sig.slice 0 32) = some bigR ∧ decompress pub = some aPoint ∧
      (scalarMulBase (sig.slice 32 32)).eq (bigR.add (scalarMulPoint (modL (Sha512.finalize
        (((Sha512.new.update (sig.slice 0 32).val).update pub.val).update msg)).val) aPoint)) = true := by
  delta verify
  -- the operations must not be unfolded on the way
  generalize bytesGeqL = geqL
  generalize decompress = decode
  generalize Point.eq = eq
  generalize Sha512.finalize = finish
  cases hlarge : geqL (sig.slice 32 32) with
  | true =>
      rw [if_pos hlarge]
      simp
  | false =>
      rw [if_neg (by rw [hlarge]; exact Bool.false_ne_true)]
      cases decode (sig.slice 0 32) with
      | none => simp
      | some =>
          cases decode pub with
          | none => simp
          | some => simp

theorem accepts_iff (pub : Bytes 32) (msg : List UInt8) (sig : Bytes 64) :
    accepts pub msg sig = true ↔ verify pub msg sig = .ok () := by
  unfold accepts
  generalize verify pub msg sig = result
  cases result with
  | ok => simp
  | error => simp

/-! ### Signing -/

namespace Residue

def compress (p : ResiduePoint) : Bytes 32 :=
  let zinv := pow p.z (expPMinus 2)
  let out := toBytes (mul p.y zinv)
  if isNegative (mul p.x zinv) then
    out.splice 31 (Bytes.one (out.byte 31 Point.top_inside ||| 0x80)) Point.top_inside
  else out

end Residue

theorem Point.Is.compress {p : Point} {q : ResiduePoint} (h : p.Is q) :
    p.compress = Residue.compress q := by
  have hinv := h.z.pow (expPMinus 2)
  unfold Point.compress Residue.compress Fe.invert
  dsimp only
  rw [(h.x.mul hinv).isNegative, (h.y.mul hinv).toBytes]

end Redoubt.Crypto.Ed25519
