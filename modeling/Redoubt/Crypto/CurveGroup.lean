import Redoubt.Crypto.ResidueCurve
import Redoubt.Crypto.Scalars
import Redoubt.Foundation.Edwards
import Redoubt.Foundation.Primality
import Mathlib.FieldTheory.Finite.Basic

/-!
# The curve arithmetic as a group

Residues modulo the prime form a field, in which the constant of the curve is no square,
so the curve is complete.  A point in extended coordinates stands for an affine point;
the addition of the code is the group law on those, and the double-and-add loops give
multiples.
-/

namespace Redoubt.Crypto.Ed25519

open Redoubt.Foundation

/-! ### The prime -/

/-- The predecessors of the prime and of the order in factors, down to small ones. -/
def primeRows : List LucasRow :=
  [⟨569003, 2, [2, 7, 97, 419]⟩,
    ⟨2773320623, 5, [2, 2437, 569003]⟩,
    ⟨72106336199, 7, [2, 13, 2773320623]⟩,
    ⟨8574133, 2, [2, 2, 3, 7, 103, 991]⟩,
    ⟨1919519569386763, 2, [2, 3, 7, 19, 47, 47, 127, 8574133]⟩,
    ⟨75445702479781427272750846543864801, 7,
      [2, 2, 2, 2, 2, 3, 3, 5, 5, 75707, 72106336199, 1919519569386763]⟩,
    ⟨430751, 17, [2, 5, 5, 5, 1723]⟩,
    ⟨31757755568855353, 10, [2, 2, 2, 3, 31, 107, 223, 4153, 430751]⟩,
    ⟨1923133, 2, [2, 2, 3, 43, 3727]⟩,
    ⟨74058212732561358302231226437062788676166966415465897661863160754340907, 2,
      [2, 3, 353, 57467, 132049, 1923133, 31757755568855353, 75445702479781427272750846543864801]⟩,
    ⟨prime, 2, [2, 2, 3, 65147,
      74058212732561358302231226437062788676166966415465897661863160754340907]⟩]

def orderRows : List LucasRow :=
  [⟨14741173, 2, [2, 2, 3, 3, 409477]⟩,
    ⟨58964693, 2, [2, 2, 14741173]⟩,
    ⟨3044861653679985063343, 5, [2, 3, 11, 30703, 82163, 132667, 137849]⟩,
    ⟨198211423230930754013084525763697, 5, [2, 2, 2, 2, 3, 23, 58964693, 3044861653679985063343]⟩,
    ⟨531581, 2, [2, 2, 5, 7, 3797]⟩,
    ⟨1224481, 13, [2, 2, 2, 2, 2, 3, 5, 2551]⟩,
    ⟨1257559732178653, 2, [2, 2, 3, 7, 23, 531581, 1224481]⟩,
    ⟨4434155615661930479, 17, [2, 41, 43, 1257559732178653]⟩,
    ⟨172054593956031949258510691, 2, [2, 5, 1361, 2851, 4434155615661930479]⟩,
    ⟨292386187, 2, [2, 3, 3, 3, 3, 307, 5879]⟩,
    ⟨213441916511, 13, [2, 5, 73, 292386187]⟩,
    ⟨19757330305831588566944191468367130476339, 2,
      [2, 269, 213441916511, 172054593956031949258510691]⟩,
    ⟨276602624281642239937218680557139826668747, 2,
      [2, 7, 19757330305831588566944191468367130476339]⟩,
    ⟨orderL, 2, [2, 2, 3, 11, 198211423230930754013084525763697,
      276602624281642239937218680557139826668747]⟩]

theorem primeRows_certified : certified 255 700 primeRows [] = true := by decide +kernel

theorem orderRows_certified : certified 253 700 orderRows [] = true := by decide +kernel

theorem prime_prime : prime.Prime :=
  prime_of_certified (fun _ h => absurd h List.not_mem_nil) primeRows_certified
    (primeRows.getLast (by simp [primeRows])) (List.getLast_mem _)

theorem orderL_prime : orderL.Prime :=
  prime_of_certified (fun _ h => absurd h List.not_mem_nil) orderRows_certified
    (orderRows.getLast (by simp [orderRows])) (List.getLast_mem _)

instance : Fact prime.Prime := ⟨prime_prime⟩

/-! ### Residues as field elements -/

/-- The field element that the limbs stand for. -/
def Fe.residue (x : Fe) : ZMod prime := (x.value : Nat)

namespace Residue

variable {m n : Nat}

@[simp]
theorem cast_add : ((add m n : Nat) : ZMod prime) = m + n := by
  rw [add, ZMod.natCast_mod, Nat.cast_add]

@[simp]
theorem cast_mul : ((mul m n : Nat) : ZMod prime) = m * n := by
  rw [mul, ZMod.natCast_mod, Nat.cast_mul]

theorem cast_sub (h : n ≤ prime) : ((sub m n : Nat) : ZMod prime) = m - n := by
  rw [sub, ZMod.natCast_mod, Nat.cast_add, Nat.cast_sub h, ZMod.natCast_self, zero_sub, sub_eq_add_neg]

theorem mul_lt : mul m n < prime := Nat.mod_lt _ prime_prime.pos

theorem sub_lt : sub m n < prime := Nat.mod_lt _ prime_prime.pos

@[simp]
theorem cast_pow (m : Nat) (exp : Bytes 32) :
    ((pow m exp : Nat) : ZMod prime) = (m : ZMod prime) ^ fromLeBytes exp.val := by
  rw [← bitsFrom_bitsMsbFirst]
  refine foldl_bits (motive := fun value r => ((r : Nat) : ZMod prime) = (m : ZMod prime) ^ value)
    (fun value r bit hr => ?_) (by simp) (bitsMsbFirst exp.val)
  cases bit with
  | false => simp [hr, ← pow_add, two_mul]
  | true => simp [hr, pow_succ, ← pow_add, two_mul]

/-- Equal residues are equal field elements. -/
theorem cast_inj (hm : m < prime) (hn : n < prime) : (m : ZMod prime) = n ↔ m = n := by
  rw [ZMod.natCast_eq_natCast_iff', Nat.mod_eq_of_lt hm, Nat.mod_eq_of_lt hn]

end Residue

theorem Fe.Is.lt {x : Fe} {n : Nat} (h : x.Is n) : n < prime := by
  rw [← h.2]
  exact Nat.mod_lt _ prime_prime.pos

theorem Fe.Is.residue {x : Fe} {n : Nat} (h : x.Is n) : x.residue = n := by
  rw [Fe.residue, ← h.2, ZMod.natCast_mod]

/-! ### The curve -/

/-- The curve of the code. -/
def curve : Edwards (ZMod prime) where
  d := (Residue.dConstant : Nat)
  root := (Residue.sqrtM1 : Nat)
  two_ne := by
    have h : ((2 : Nat) : ZMod prime) ≠ ((0 : Nat) : ZMod prime) := by
      rw [Ne, Residue.cast_inj (by decide +kernel) prime_prime.pos]
      decide
    exact_mod_cast h
  root_sq := by
    have h : Residue.add (Residue.mul Residue.sqrtM1 Residue.sqrtM1) 1 = 0 := by decide +kernel
    have hcast := congrArg (Nat.cast : Nat → ZMod prime) h
    rw [Residue.cast_add, Residue.cast_mul, Nat.cast_one, Nat.cast_zero] at hcast
    linear_combination hcast
  nonsquare r hr := by
    -- a square has one as its power by half the order of the units
    have hhalf : powMod prime 255 Residue.dConstant ((prime - 1) / 2) = prime - 1 := by decide +kernel
    have hpow := cast_pow_eq_powMod prime Residue.dConstant
      (by decide +kernel : (prime - 1) / 2 < 2 ^ 255)
    rw [← hr, ← pow_mul, show 2 * ((prime - 1) / 2) = prime - 1 by decide +kernel, hhalf] at hpow
    have hne : r ≠ 0 := by
      rintro rfl
      have hzero : ((0 : Nat) : ZMod prime) = (Residue.dConstant : Nat) := by
        rw [← hr, Nat.cast_zero, zero_pow two_ne_zero]
      rw [Residue.cast_inj prime_prime.pos (by decide +kernel)] at hzero
      exact absurd hzero (by decide)
    rw [ZMod.pow_card_sub_one_eq_one hne, ← Nat.cast_one,
      Residue.cast_inj (by decide +kernel) (by decide +kernel)] at hpow
    exact absurd hpow (by decide +kernel)

theorem curve_d : curve.d = (Residue.dConstant : Nat) := rfl

/-! ### Points -/

/-- Extended coordinates of a point of the curve, in limbs that the arithmetic accepts. -/
structure Point.OnCurve (p : Point) : Prop where
  x_bounded : p.x.Bounded
  y_bounded : p.y.Bounded
  z_bounded : p.z.Bounded
  t_bounded : p.t.Bounded
  z_ne : p.z.residue ≠ 0
  on : (p.y.residue ^ 2 - p.x.residue ^ 2) * p.z.residue ^ 2 =
    p.z.residue ^ 4 + curve.d * p.x.residue ^ 2 * p.y.residue ^ 2
  t : p.x.residue * p.y.residue = p.z.residue * p.t.residue

/-- The coordinates stand for this point of the affine curve. -/
structure Point.Represents (p : Point) (a : curve.Point) : Prop where
  x_bounded : p.x.Bounded
  y_bounded : p.y.Bounded
  z_bounded : p.z.Bounded
  t_bounded : p.t.Bounded
  stands : Edwards.Stands a p.x.residue p.y.residue p.z.residue p.t.residue

theorem Fe.Bounded.is {x : Fe} (h : x.Bounded) : x.Is (x.value % prime) := ⟨h, rfl⟩

theorem Point.Is.represents {p : Point} {q : ResiduePoint} (h : p.Is q) {a : curve.Point}
    (stands : Edwards.Stands a (q.x : ZMod prime) q.y q.z q.t) : p.Represents a := by
  refine ⟨h.x.1, h.y.1, h.z.1, h.t.1, ?_⟩
  rw [h.x.residue, h.y.residue, h.z.residue, h.t.residue]
  exact stands

theorem Point.Represents.is {p : Point} {a : curve.Point} (h : p.Represents a) :
    ∃ q, p.Is q ∧ Edwards.Stands a (q.x : ZMod prime) q.y q.z q.t := by
  have his : p.Is ⟨_, _, _, _⟩ := ⟨h.x_bounded.is, h.y_bounded.is, h.z_bounded.is, h.t_bounded.is⟩
  refine ⟨_, his, ?_⟩
  rw [← his.x.residue, ← his.y.residue, ← his.z.residue, ← his.t.residue]
  exact h.stands

/-- Coordinates on the curve stand for a point, and only those do. -/
theorem Point.onCurve_iff {p : Point} : p.OnCurve ↔ ∃ a, p.Represents a := by
  constructor
  · intro h
    obtain ⟨a, ha⟩ := Edwards.exists_stands h.z_ne h.on h.t
    exact ⟨a, h.x_bounded, h.y_bounded, h.z_bounded, h.t_bounded, ha⟩
  · rintro ⟨a, h⟩
    exact ⟨h.x_bounded, h.y_bounded, h.z_bounded, h.t_bounded, h.stands.unit, h.stands.on, h.stands.t⟩

/-- The addition of the code is the group law. -/
theorem Point.Represents.add {p q : Point} {a b : curve.Point} (hp : p.Represents a)
    (hq : q.Represents b) : (p.add q).Represents (a + b) := by
  obtain ⟨p', hp', hstands⟩ := hp.is
  obtain ⟨q', hq', hstands'⟩ := hq.is
  refine (hp'.add hq').represents ?_
  have h := hstands.add hstands' rfl rfl rfl rfl
  have hpx := hp'.x.lt.le
  have hqx := hq'.x.lt.le
  simpa only [Residue.addPoints, Residue.cast_mul, Residue.cast_add, Residue.cast_sub hpx,
    Residue.cast_sub hqx, Residue.cast_sub Residue.mul_lt.le, curve_d] using h

theorem identity_represents : Point.identity.Represents 0 :=
  Point.Is.represents (q := ⟨0, 1, 1, 0⟩) ⟨Fe.Is.zero, Fe.Is.one, Fe.Is.one, Fe.Is.zero⟩
    ⟨by simp, by simp, by simp, by simp⟩

/-- The state of the loop: nothing is accumulated before the first set bit. -/
def Accumulated (a : curve.Point) (value : Nat) (state : Bool × Point) : Prop :=
  state.2.Represents (value • a) ∧ (state.1 = false → value = 0)

/-- Double-and-add gives the multiple. -/
theorem Point.Represents.scalarMul {p : Point} {a : curve.Point} (h : p.Represents a)
    (scalar : Bytes 32) : (scalarMulPoint scalar p).Represents (fromLeBytes scalar.val • a) := by
  rw [← bitsFrom_bitsMsbFirst]
  refine (foldl_bits (motive := Accumulated a) (fun value state bit hstate => ?_)
    ⟨by rw [zero_nsmul]; exact identity_represents, fun _ => rfl⟩ (bitsMsbFirst scalar.val)).1
  obtain ⟨started, acc⟩ := state
  obtain ⟨hacc, hnone⟩ := hstate
  have hdouble : (acc.add acc).Represents ((2 * value) • a) := by
    rw [two_mul, add_nsmul]
    exact hacc.add hacc
  cases started with
  | false =>
      obtain rfl := hnone rfl
      cases bit with
      | false => exact ⟨hacc, fun _ => rfl⟩
      | true => exact ⟨by simpa using h, fun hfalse => absurd hfalse (by simp)⟩
  | true =>
      cases bit with
      | false => exact ⟨hdouble, fun hfalse => absurd hfalse (by simp)⟩
      | true =>
          refine ⟨?_, fun hfalse => absurd hfalse (by simp)⟩
          rw [Bool.toNat_true, add_nsmul, one_nsmul]
          exact hdouble.add h

/-! ### The base point -/

/-- The base point: `y = 4 / 5` with the even root. -/
def base : curve.Point where
  x := (Residue.basepoint.x : Nat)
  y := (Residue.basepoint.y : Nat)
  on := by
    have h : Residue.mul Residue.basepoint.y Residue.basepoint.y =
        Residue.add (Residue.mul Residue.basepoint.x Residue.basepoint.x) (Residue.add 1 (Residue.mul
          (Residue.mul Residue.dConstant (Residue.mul Residue.basepoint.x Residue.basepoint.x))
          (Residue.mul Residue.basepoint.y Residue.basepoint.y))) := by decide +kernel
    have hcast := congrArg (Nat.cast : Nat → ZMod prime) h
    simp only [Residue.cast_mul, Residue.cast_add, Nat.cast_one] at hcast
    unfold Edwards.On
    rw [curve_d]
    linear_combination hcast

theorem base_y : base.y * 5 = 4 := by
  have h : Residue.mul Residue.basepoint.y 5 = 4 := by decide +kernel
  have hcast := congrArg (Nat.cast : Nat → ZMod prime) h
  rw [Residue.cast_mul] at hcast
  exact_mod_cast hcast

theorem base_x_even : base.x.val % 2 = 0 := by
  change ((Residue.basepoint.x : Nat) : ZMod prime).val % 2 = 0
  rw [ZMod.val_natCast_of_lt (by decide +kernel)]
  decide

theorem basepoint_represents : basepoint.Represents base := by
  refine basepoint_is.represents ⟨?_, ?_, ?_, ?_⟩
  · exact (Nat.cast_one (R := ZMod prime)) ▸ one_ne_zero
  · exact (mul_one _).symm.trans (congrArg _ Nat.cast_one.symm)
  · exact (mul_one _).symm.trans (congrArg _ Nat.cast_one.symm)
  · have h : Residue.mul Residue.basepoint.x Residue.basepoint.y =
        Residue.mul Residue.basepoint.z Residue.basepoint.t := by decide +kernel
    have hcast := congrArg (Nat.cast : Nat → ZMod prime) h
    rwa [Residue.cast_mul, Residue.cast_mul] at hcast

theorem scalarMulBase_represents (scalar : Bytes 32) :
    (scalarMulBase scalar).Represents (fromLeBytes scalar.val • base) :=
  basepoint_represents.scalarMul scalar

/-- The order as a scalar. -/
def orderBytes : Bytes 32 := ⟨toLeBytes 32 orderL, length_toLeBytes 32 orderL⟩

theorem order_nsmul_base : orderL • base = 0 := by
  have hvalue : fromLeBytes orderBytes.val = orderL := by
    change fromLeBytes (toLeBytes 32 orderL) = orderL
    rw [fromLeBytes_toLeBytes]
    exact Nat.mod_eq_of_lt (by decide +kernel)
  have hmul := scalarMulBase_represents orderBytes
  have his : (scalarMulBase orderBytes).Is _ := basepoint_is.scalarMul orderBytes
  have hx : (Residue.scalarMulPoint orderBytes Residue.basepoint).x = 0 := by decide +kernel
  have hy : (Residue.scalarMulPoint orderBytes Residue.basepoint).y =
      (Residue.scalarMulPoint orderBytes Residue.basepoint).z := by decide +kernel
  rw [hvalue] at hmul
  have hzero : Edwards.Stands (0 : curve.Point) 0 1 1 0 := ⟨one_ne_zero, by simp, by simp, by simp⟩
  apply (hmul.stands.eq_iff hzero).mpr
  rw [his.x.residue, his.y.residue, his.z.residue, hx, hy]
  exact ⟨by rw [Nat.cast_zero, zero_mul, zero_mul], by rw [mul_one, one_mul]⟩

theorem base_ne_zero : base ≠ 0 := by
  intro h
  have hy := base_y
  rw [h, Edwards.Point.zero_y, one_mul] at hy
  have hcast : ((5 : Nat) : ZMod prime) = ((4 : Nat) : ZMod prime) := by exact_mod_cast hy
  rw [Residue.cast_inj (by decide +kernel) (by decide +kernel)] at hcast
  cases hcast

instance : Fact orderL.Prime := ⟨orderL_prime⟩

theorem addOrderOf_base : addOrderOf base = orderL := addOrderOf_eq_prime order_nsmul_base base_ne_zero

/-! ### The group law -/

/-- The affine point of extended coordinates. -/
def Point.affine (p : Point) (h : p.OnCurve) : curve.Point where
  x := p.x.residue / p.z.residue
  y := p.y.residue / p.z.residue
  on := Edwards.On.of_fractions h.z_ne h.z_ne (by linear_combination h.on)

theorem Point.affine_represents {p : Point} (h : p.OnCurve) : p.Represents (p.affine h) :=
  ⟨h.x_bounded, h.y_bounded, h.z_bounded, h.t_bounded, h.z_ne, (div_mul_cancel₀ _ h.z_ne).symm,
    (div_mul_cancel₀ _ h.z_ne).symm, h.t⟩

theorem Point.Represents.affine_eq {p : Point} {a : curve.Point} (h : p.Represents a) :
    ∃ on : p.OnCurve, p.affine on = a := by
  refine ⟨Point.onCurve_iff.mpr ⟨a, h⟩, Edwards.Point.ext ?_ ?_⟩
  · exact (eq_div_of_mul_eq h.stands.unit h.stands.x.symm).symm
  · exact (eq_div_of_mul_eq h.stands.unit h.stands.y.symm).symm

/-- The point arithmetic of the code computes in the group of the curve: the unified addition
gives the affine sum, with no exception for equal or opposite points or the identity, and the
double-and-add loops give the multiples of a point and of the base point. -/
theorem pointArithmetic_groupLaw :
    (∀ (p q : Point) (hp : p.OnCurve) (hq : q.OnCurve), ∃ on : (p.add q).OnCurve,
      (p.add q).affine on = p.affine hp + q.affine hq) ∧
    (∀ (scalar : Bytes 32) (p : Point) (hp : p.OnCurve), ∃ on : (scalarMulPoint scalar p).OnCurve,
      (scalarMulPoint scalar p).affine on = fromLeBytes scalar.val • p.affine hp) ∧
    (base.y * 5 = 4 ∧ base.x.val % 2 = 0 ∧ ∀ scalar : Bytes 32, ∃ on : (scalarMulBase scalar).OnCurve,
      (scalarMulBase scalar).affine on = fromLeBytes scalar.val • base) := by
  refine ⟨fun p q hp hq => ?_, fun scalar p hp => ?_, base_y, base_x_even, fun scalar => ?_⟩
  · exact ((p.affine_represents hp).add (q.affine_represents hq)).affine_eq
  · exact ((p.affine_represents hp).scalarMul scalar).affine_eq
  · exact (scalarMulBase_represents scalar).affine_eq

theorem pointArithmetic_groupLaw_basepoint :
    ∃ (onBase : basepoint.OnCurve) (on : (basepoint.add basepoint).OnCurve),
      (basepoint.add basepoint).affine on = basepoint.affine onBase + basepoint.affine onBase :=
  have onBase : basepoint.OnCurve := Point.onCurve_iff.mpr ⟨base, basepoint_represents⟩
  ⟨onBase, pointArithmetic_groupLaw.1 basepoint basepoint onBase onBase⟩

end Redoubt.Crypto.Ed25519
