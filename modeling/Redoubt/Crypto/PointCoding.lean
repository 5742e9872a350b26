import Redoubt.Crypto.CurveGroup

/-!
# Encoding and decoding of points

An encoding holds the ordinate in its low 255 bits and the parity of the abscissa in the
top bit.  Decoding finds the abscissa with one exponentiation and at most one factor, a
root of minus one; it fails exactly when no point fits.  An ordinate is not compared with
the prime, so that a point may have a second encoding.
-/

namespace Redoubt.Crypto.Ed25519

open Redoubt.Foundation

/-- The encoded ordinate before its reduction. -/
def encodedY (bytes : Bytes 32) : Nat := fromLeBytes bytes.val % 2 ^ 255

/-- The encoded parity of the abscissa. -/
def encodedSign (bytes : Bytes 32) : Bool := decide (2 ^ 255 ≤ fromLeBytes bytes.val)

/-! ### The top byte -/

section TopByte

variable (bytes : Bytes 32)

theorem toNat_byte_top : (bytes.byte 31).toNat = fromLeBytes bytes.val / 256 ^ 31 := by
  have hslice := Bytes.fromLeBytes_slice bytes (by decide : 31 + 1 ≤ 32)
  have hone : ∀ b : Bytes 1, fromLeBytes b.val = (b.val.headD 0).toNat := by
    rintro ⟨_ | ⟨byte, _ | _⟩, hlength⟩
    · cases hlength
    · simp [fromLeBytes]
    · simp at hlength
  have hlt := fromLeBytes_lt bytes.val
  rw [bytes.property] at hlt
  rw [hone] at hslice
  change ((bytes.slice 31 1).val.headD 0).toNat = _
  rw [hslice]
  exact Nat.mod_eq_of_lt (by omega)

theorem fromLeBytes_splice_top (top : UInt8) : fromLeBytes (bytes.splice 31 (Bytes.one top)).val =
    fromLeBytes bytes.val % 256 ^ 31 + 256 ^ 31 * top.toNat := by
  have hlow := Bytes.fromLeBytes_slice bytes (by decide : 0 + 31 ≤ 32)
  have hval : (bytes.splice 31 (Bytes.one top)).val = bytes.val.take 31 ++ [top] := by
    change bytes.val.take 31 ++ [top] ++ bytes.val.drop (31 + 1) = _
    rw [List.drop_eq_nil_of_le (by rw [bytes.property]), List.append_nil]
  have hslice : (bytes.slice 0 31).val = bytes.val.take 31 := rfl
  rw [hslice, pow_zero, Nat.div_one] at hlow
  rw [hval, fromLeBytes_append, hlow, List.length_take, bytes.property]
  simp [fromLeBytes]

theorem encodedSign_eq : encodedSign bytes = (bytes.byte 31 >>> 7 == 1) := by
  have htop := toNat_byte_top bytes
  have hlt := (bytes.byte 31).toNat_lt
  have hshift : (bytes.byte 31 >>> 7).toNat = (bytes.byte 31).toNat / 128 := by
    rw [UInt8.toNat_shiftRight]
    simp [Nat.shiftRight_eq_div_pow]
  rw [Bool.eq_iff_iff, encodedSign, decide_eq_true_eq, beq_iff_eq, ← UInt8.toNat_inj, hshift, htop]
  have hone : (1 : UInt8).toNat = 1 := rfl
  rw [hone]
  omega

theorem encodedY_eq : encodedY bytes =
    fromLeBytes (bytes.splice 31 (Bytes.one (bytes.byte 31 &&& 0x7f))).val % 2 ^ 255 := by
  have htop := toNat_byte_top bytes
  have hmask : (bytes.byte 31 &&& 0x7f).toNat = (bytes.byte 31).toNat % 128 := by
    rw [UInt8.toNat_and]
    exact Nat.and_two_pow_sub_one_eq_mod _ 7
  rw [fromLeBytes_splice_top, hmask, htop, encodedY]
  omega

end TopByte

/-! ### Tests on residues -/

namespace Residue

variable {m n : Nat}

theorem isNegative_eq (n : Nat) : isNegative n = decide (n % 2 = 1) := by
  have hhead : (toLeBytes 32 n).headD 0 = UInt8.ofNat n := rfl
  rw [isNegative, hhead, Bool.eq_iff_iff, beq_iff_eq, decide_eq_true_eq, ← UInt8.toNat_inj,
    UInt8.toNat_and, UInt8.toNat_ofNat']
  have hbit : n % 2 ^ 8 &&& (1 : UInt8).toNat = n % 2 ^ 8 % 2 := Nat.and_two_pow_sub_one_eq_mod _ 1
  have hone : (1 : UInt8).toNat = 1 := rfl
  rw [hbit, hone]
  omega

theorem isZero_iff (h : n < prime) : isZero n = true ↔ n = 0 := by
  have hfold : ∀ (bytes : List UInt8) (acc : UInt8),
      bytes.foldl (· ||| ·) acc = 0 ↔ acc = 0 ∧ ∀ byte ∈ bytes, byte = 0 := by
    intro bytes
    induction bytes with
    | nil => simp
    | cons _ _ ih =>
        intro acc
        rw [List.foldl_cons, ih, UInt8.or_eq_zero_iff, List.forall_mem_cons, and_assoc]
  rw [isZero, beq_iff_eq, hfold]
  constructor
  · rintro ⟨-, hzero⟩
    have hbytes : toLeBytes 32 n = List.replicate 32 0 :=
      List.eq_replicate_iff.mpr ⟨length_toLeBytes 32 n, hzero⟩
    have hvalue := fromLeBytes_toLeBytes 32 n
    rw [hbytes, Nat.mod_eq_of_lt (h.trans (by decide +kernel))] at hvalue
    exact hvalue.symm.trans (by decide)
  · rintro rfl
    exact ⟨rfl, by decide +kernel⟩

theorem eq_iff (hn : n < prime) : Residue.eq m n = true ↔ (m : ZMod prime) = n := by
  rw [Residue.eq, isZero_iff sub_lt, ← cast_inj sub_lt prime_prime.pos, cast_sub hn.le, Nat.cast_zero,
    sub_eq_zero]

end Residue

/-! ### Roots -/

/-- The curve equation solved for the square of the abscissa. -/
theorem on_iff {x y : ZMod prime} : curve.On x y ↔ x ^ 2 * (curve.d * y ^ 2 + 1) = y ^ 2 - 1 := by
  unfold Edwards.On
  constructor
  · intro h
    linear_combination -h
  · intro h
    linear_combination -h

theorem denominator_ne (y : ZMod prime) : curve.d * y ^ 2 + 1 ≠ 0 := by
  intro h
  have hy : y = 0 := curve.eq_zero_of_sq (a := curve.root) (by linear_combination curve.root_sq - h)
  rw [hy] at h
  simp at h

section Candidate

variable (u v : ZMod prime)

/-- The candidate for a root of `u / v`, in the field. -/
def candidateRoot : ZMod prime := u * v ^ 3 * (u * v ^ 7) ^ ((prime - 5) / 8)

/-- What the candidate misses is a power of `u v ^ 7`. -/
theorem candidateRoot_sq : candidateRoot u v ^ 2 * v = u * (u * v ^ 7) ^ ((prime - 1) / 4) := by
  have hexp : (prime - 1) / 4 = (prime - 5) / 8 * 2 + 1 := by decide +kernel
  rw [candidateRoot, hexp, pow_succ (u * v ^ 7), pow_mul (u * v ^ 7)]
  ring

variable {u v}

/-- If there is a root, then the candidate is one up to a root of minus one. -/
theorem candidateRoot_cases {x : ZMod prime} (hv : v ≠ 0) (hx : x ^ 2 * v = u) :
    candidateRoot u v ^ 2 * v = u ∨ candidateRoot u v ^ 2 * v = -u := by
  by_cases hu : u = 0
  · left
    simp [candidateRoot, hu]
  · have hx0 : x ≠ 0 := by
      rintro rfl
      exact hu (by rw [← hx]; ring)
    have hsquare : u * v ^ 7 = (x * v ^ 4) ^ 2 := by
      rw [← hx]
      ring
    have hfermat : (x * v ^ 4) ^ (prime - 1) = 1 :=
      ZMod.pow_card_sub_one_eq_one (mul_ne_zero hx0 (pow_ne_zero 4 hv))
    have hsign : ((u * v ^ 7) ^ ((prime - 1) / 4)) ^ 2 = 1 := by
      rw [hsquare, ← pow_mul, ← pow_mul, show 2 * ((prime - 1) / 4 * 2) = prime - 1 by decide +kernel,
        hfermat]
    rw [pow_two] at hsign
    rw [candidateRoot_sq]
    rcases mul_self_eq_one_iff.mp hsign with hone | hminus
    · left
      rw [hone, mul_one]
    · right
      rw [hminus]
      ring

end Candidate

theorem fromLeBytes_rootExp : fromLeBytes (expShr (expPMinus 5) 3).val = (prime - 5) / 8 := by
  decide +kernel

theorem fromLeBytes_invertExp : fromLeBytes (expPMinus 2).val = prime - 2 := by decide +kernel

theorem Residue.cast_candidate (u v : Nat) :
    ((Residue.candidate u v : Nat) : ZMod prime) = candidateRoot u v := by
  simp only [Residue.candidate, Residue.cast_mul, Residue.cast_pow, fromLeBytes_rootExp, candidateRoot]
  ring

/-- A root that is found is one, and one is found if there is any. -/
theorem Residue.rootOf_spec {u v : Nat} (hu : u < prime) (hv : (v : ZMod prime) ≠ 0) :
    (∃ r, Residue.rootOf u v (Residue.candidate u v) = some r ∧ r < prime ∧
      (r : ZMod prime) ^ 2 * v = u) ∨
    (Residue.rootOf u v (Residue.candidate u v) = none ∧ ∀ x : ZMod prime, x ^ 2 * v ≠ u) := by
  have hcheck : ((Residue.mul (Residue.mul (Residue.candidate u v) (Residue.candidate u v)) v : Nat) :
      ZMod prime) = candidateRoot u v ^ 2 * v := by
    rw [Residue.cast_mul, Residue.cast_mul, Residue.cast_candidate, pow_two]
  have hplus := Residue.eq_iff (m := Residue.mul (Residue.mul (Residue.candidate u v)
    (Residue.candidate u v)) v) hu
  have hminus := Residue.eq_iff (m := Residue.mul (Residue.mul (Residue.candidate u v)
    (Residue.candidate u v)) v) (Residue.sub_lt (m := 0) (n := u))
  rw [hcheck] at hplus
  rw [hcheck, Residue.cast_sub hu.le, Nat.cast_zero, zero_sub] at hminus
  unfold Residue.rootOf
  split_ifs with hfirst hsecond
  · refine .inl ⟨_, rfl, Residue.mul_lt, ?_⟩
    rw [Residue.cast_candidate, hplus.mp hfirst]
  · refine .inl ⟨_, rfl, Residue.mul_lt, ?_⟩
    have hroot : ((Residue.sqrtM1 : Nat) : ZMod prime) ^ 2 = -1 := curve.root_sq
    rw [Residue.cast_mul, Residue.cast_candidate, mul_pow, hroot]
    linear_combination -(hminus.mp hsecond)
  · refine .inr ⟨rfl, fun x hx => ?_⟩
    rcases candidateRoot_cases hv hx with h | h
    · exact hfirst (hplus.mpr h)
    · exact hsecond (hminus.mpr h)

/-! ### Decoding -/

/-- An abscissa that an encoding asks for. -/
structure RootOf (bytes : Bytes 32) (x : Nat) : Prop where
  lt : x < prime
  parity : decide (x % 2 = 1) = encodedSign bytes
  on : curve.On (x : ZMod prime) (encodedY bytes : Nat)

/-- Two abscissas with the same square add up to zero or are equal. -/
theorem eq_or_add_of_sq {x r : Nat} (hx : x < prime) (hr : r < prime)
    (h : (x : ZMod prime) ^ 2 = (r : ZMod prime) ^ 2) : x = r ∨ x + r = prime ∨ x + r = 0 := by
  rcases sq_eq_sq_iff_eq_or_eq_neg.mp h with heq | hneg
  · exact .inl ((Residue.cast_inj hx hr).mp heq)
  · right
    have hsum : ((x + r : Nat) : ZMod prime) = 0 := by
      rw [Nat.cast_add, hneg]
      ring
    rw [ZMod.natCast_eq_zero_iff] at hsum
    obtain ⟨k, hk⟩ := hsum
    have hk2 : k < 2 := by
      by_contra hge
      have := Nat.mul_le_mul_left prime (not_lt.mp hge)
      omega
    interval_cases k
    · right
      rw [hk, Nat.mul_zero]
    · left
      rw [hk, Nat.mul_one]

/-- Two abscissas of one ordinate. -/
theorem sq_eq_of_on {x r y : ZMod prime} (hx : curve.On x y) (hr : curve.On r y) : x ^ 2 = r ^ 2 := by
  rw [on_iff] at hx hr
  exact mul_right_cancel₀ (denominator_ne y) (hx.trans hr.symm)

theorem prime_odd : prime % 2 = 1 := by decide +kernel

/-- The abscissa that an encoding asks for is unique. -/
theorem RootOf.unique {bytes : Bytes 32} {x x' : Nat} (h : RootOf bytes x) (h' : RootOf bytes x') :
    x = x' := by
  have hparity : x % 2 = 1 ↔ x' % 2 = 1 := by
    have := h.parity.trans h'.parity.symm
    rwa [decide_eq_decide] at this
  have hodd := prime_odd
  rcases eq_or_add_of_sq h.lt h'.lt (sq_eq_of_on h.on h'.on) with heq | hsum | hzero
  · exact heq
  · omega
  · omega

/-- The residue point of a decoded abscissa. -/
def decoded (bytes : Bytes 32) (x : Nat) : ResiduePoint :=
  ⟨x, encodedY bytes % prime, 1, Residue.mul x (encodedY bytes % prime)⟩

theorem Residue.sub_zero_of_pos {r : Nat} (hpos : 0 < r) : Residue.sub 0 r = prime - r := by
  rw [Residue.sub, Nat.zero_add]
  exact Nat.mod_eq_of_lt (Nat.sub_lt prime_prime.pos hpos)

/-- The sign picks the root with the parity asked for. -/
theorem Residue.signedPoint_spec {bytes : Bytes 32} {r : Nat} (hr : r < prime)
    (on : curve.On (r : ZMod prime) (encodedY bytes : Nat)) :
    (∃ x, RootOf bytes x ∧
      Residue.signedPoint (encodedSign bytes) (encodedY bytes % prime) r = some (decoded bytes x)) ∨
    ((∀ x, ¬ RootOf bytes x) ∧
      Residue.signedPoint (encodedSign bytes) (encodedY bytes % prime) r = none) := by
  have hodd := prime_odd
  unfold Residue.signedPoint
  dsimp only
  rw [Residue.isNegative_eq]
  split_ifs with hzero hflip
  · rw [Bool.and_eq_true, Residue.isZero_iff hr] at hzero
    obtain ⟨rfl, hsign⟩ := hzero
    refine .inr ⟨fun x hx => ?_, rfl⟩
    have hparity := hx.parity
    rw [hsign, decide_eq_true_eq] at hparity
    rcases eq_or_add_of_sq hx.lt hr (sq_eq_of_on hx.on on) with heq | hsum | hsum
    · omega
    · exact absurd hx.lt (by omega)
    · omega
  · rw [bne_iff_ne] at hflip
    rw [Bool.and_eq_true, Residue.isZero_iff hr] at hzero
    have hpos : 0 < r := by
      by_contra hnone
      obtain rfl : r = 0 := by omega
      exact hzero ⟨rfl, by simpa using hflip⟩
    refine .inl ⟨prime - r, ⟨Nat.sub_lt prime_prime.pos hpos, ?_, ?_⟩, ?_⟩
    · have hswap : (prime - r) % 2 = 1 ↔ ¬ r % 2 = 1 := by omega
      rw [decide_eq_decide.mpr hswap, decide_not]
      exact (Bool.eq_not_of_ne hflip.symm).symm
    · rw [on_iff] at on ⊢
      rw [Nat.cast_sub hr.le, ZMod.natCast_self, zero_sub, neg_pow_two, on]
    · rw [Residue.sub_zero_of_pos hpos]
      rfl
  · rw [bne_iff_ne, not_ne_iff] at hflip
    exact .inl ⟨r, ⟨hr, hflip, on⟩, rfl⟩

/-- Decoding finds the point that the encoding asks for, or there is none. -/
theorem Residue.decompress_spec (bytes : Bytes 32) :
    (∃ x, RootOf bytes x ∧ Residue.decompress bytes = some (decoded bytes x)) ∨
      ((∀ x, ¬ RootOf bytes x) ∧ Residue.decompress bytes = none) := by
  unfold Residue.decompress
  dsimp only
  rw [← encodedY_eq, ← encodedSign_eq]
  have hu : ((Residue.sub (Residue.mul (encodedY bytes % prime) (encodedY bytes % prime)) 1 : Nat) :
      ZMod prime) = (encodedY bytes : ZMod prime) ^ 2 - 1 := by
    rw [Residue.cast_sub prime_prime.one_lt.le, Residue.cast_mul, ZMod.natCast_mod, Nat.cast_one, pow_two]
  have hv : ((Residue.add (Residue.mul Residue.dConstant (Residue.mul (encodedY bytes % prime)
      (encodedY bytes % prime))) 1 : Nat) : ZMod prime) =
        curve.d * (encodedY bytes : ZMod prime) ^ 2 + 1 := by
    rw [Residue.cast_add, Residue.cast_mul, Residue.cast_mul, ZMod.natCast_mod, Nat.cast_one, pow_two,
      curve_d]
  have hne := denominator_ne (encodedY bytes : ZMod prime)
  rw [← hv] at hne
  obtain ⟨r, hroot, hlt, hr⟩ | ⟨hnone, hall⟩ := Residue.rootOf_spec Residue.sub_lt hne
  · rw [hroot]
    rw [hu, hv, ← on_iff] at hr
    exact Residue.signedPoint_spec hlt hr
  · rw [hnone]
    refine .inr ⟨fun x hx => ?_, rfl⟩
    have hon := hx.on
    rw [on_iff, ← hu, ← hv] at hon
    exact hall _ hon

theorem decompress_cases (bytes : Bytes 32) :
    (∃ x p, RootOf bytes x ∧ decompress bytes = some p ∧ p.Is (decoded bytes x)) ∨
      ((∀ x, ¬ RootOf bytes x) ∧ decompress bytes = none) := by
  obtain ⟨hnone, hnone'⟩ | ⟨p, q, hp, hq, his⟩ := decompress_residue bytes
  · obtain ⟨x, -, hsome⟩ | ⟨hall, -⟩ := Residue.decompress_spec bytes
    · rw [hnone'] at hsome
      cases hsome
    · exact .inr ⟨hall, hnone⟩
  · obtain ⟨x, hx, hsome⟩ | ⟨-, hnone⟩ := Residue.decompress_spec bytes
    · rw [hq] at hsome
      cases hsome
      exact .inl ⟨x, p, hx, hp, his⟩
    · rw [hq] at hnone
      cases hnone

/-! ### Encoding -/

/-- The encoding of an affine point. -/
theorem Residue.compress_spec (q : ResiduePoint) :
    encodedY (Residue.compress q) = Residue.mul q.y (Residue.pow q.z (expPMinus 2)) ∧
      encodedSign (Residue.compress q) =
        decide (Residue.mul q.x (Residue.pow q.z (expPMinus 2)) % 2 = 1) := by
  unfold Residue.compress
  dsimp only
  rw [Residue.isNegative_eq]
  have hlt : Residue.mul q.y (Residue.pow q.z (expPMinus 2)) < 2 ^ 255 :=
    Residue.mul_lt.trans (by decide +kernel)
  generalize Residue.mul q.y (Residue.pow q.z (expPMinus 2)) = y at hlt ⊢
  generalize Residue.mul q.x (Residue.pow q.z (expPMinus 2)) = x
  have hvalue : fromLeBytes (Residue.toBytes y).val = y := by
    change fromLeBytes (toLeBytes 32 y) = y
    rw [fromLeBytes_toLeBytes]
    exact Nat.mod_eq_of_lt (hlt.trans (by norm_num))
  have htop := toNat_byte_top (Residue.toBytes y)
  rw [hvalue] at htop
  unfold encodedY encodedSign
  split_ifs with hx
  · have hor : ((Residue.toBytes y).byte 31 ||| 0x80).toNat = y / 256 ^ 31 + 128 := by
      have hsmall : y / 256 ^ 31 < 2 ^ 7 := by omega
      rw [UInt8.toNat_or, htop, Nat.lor_comm, Nat.add_comm]
      exact (Nat.two_pow_add_eq_or_of_lt hsmall 1).symm
    rw [fromLeBytes_splice_top, hor, hvalue, hx, decide_eq_true_eq]
    omega
  · rw [hvalue, eq_false_of_ne_true hx, decide_eq_false_iff_not]
    omega

theorem pow_prime_sub_two {z : ZMod prime} (hz : z ≠ 0) : z ^ (prime - 2) = z⁻¹ := by
  have hfermat := ZMod.pow_card_sub_one_eq_one hz
  rw [show prime - 1 = prime - 2 + 1 by decide +kernel, pow_succ] at hfermat
  exact eq_inv_of_mul_eq_one_left hfermat

/-- An encoded point is found again. -/
theorem Point.Represents.rootOf_compress {p : Point} {a : curve.Point} (h : p.Represents a) :
    ∃ x, RootOf p.compress x ∧ (x : ZMod prime) = a.x ∧ (encodedY p.compress : ZMod prime) = a.y ∧
      encodedY p.compress < prime := by
  obtain ⟨q, hq, hstands⟩ := h.is
  rw [hq.compress]
  obtain ⟨hy, hsign⟩ := Residue.compress_spec q
  have hx' : ((Residue.mul q.x (Residue.pow q.z (expPMinus 2)) : Nat) : ZMod prime) = a.x := by
    rw [Residue.cast_mul, Residue.cast_pow, fromLeBytes_invertExp, pow_prime_sub_two hstands.unit,
      hstands.x, mul_inv_cancel_right₀ hstands.unit]
  have hy' : ((Residue.mul q.y (Residue.pow q.z (expPMinus 2)) : Nat) : ZMod prime) = a.y := by
    rw [Residue.cast_mul, Residue.cast_pow, fromLeBytes_invertExp, pow_prime_sub_two hstands.unit,
      hstands.y, mul_inv_cancel_right₀ hstands.unit]
  refine ⟨_, ⟨Residue.mul_lt, hsign.symm, ?_⟩, hx', ?_, ?_⟩
  · rw [hy, hx', hy']
    exact a.on
  · rw [hy, hy']
  · rw [hy]
    exact Residue.mul_lt

/-- A decoded point represents the affine point asked for. -/
theorem decoded_represents {bytes : Bytes 32} {x : Nat} (hx : RootOf bytes x) {p : Point}
    (his : p.Is (decoded bytes x)) :
    p.Represents ⟨(x : ZMod prime), (encodedY bytes : Nat), hx.on⟩ := by
  refine his.represents ⟨?_, ?_, ?_, ?_⟩
  · exact (Nat.cast_one (R := ZMod prime)) ▸ one_ne_zero
  · simp [decoded]
  · simp [decoded]
  · simp [decoded]

theorem Point.Represents.eq_iff {p q : Point} {a b : curve.Point} (hp : p.Represents a)
    (hq : q.Represents b) : p.eq q = true ↔ a = b := by
  obtain ⟨p', hp', hstands⟩ := hp.is
  obtain ⟨q', hq', hstands'⟩ := hq.is
  rw [hp'.eq hq', Residue.eqPoints, Bool.and_eq_true, Residue.eq_iff Residue.mul_lt,
    Residue.eq_iff Residue.mul_lt, hstands.eq_iff hstands']
  simp only [Residue.cast_mul]

/-- Decoding an encoded point gives it back. -/
theorem Point.Represents.decompress_compress {p : Point} {a : curve.Point} (h : p.Represents a) :
    ∃ q, decompress p.compress = some q ∧ q.Represents a := by
  obtain ⟨x, hx, hax, hay, -⟩ := h.rootOf_compress
  obtain ⟨x', q, hx', hq, his⟩ | ⟨hnone, -⟩ := decompress_cases p.compress
  · refine ⟨q, hq, ?_⟩
    have hpoint : (⟨(x' : ZMod prime), (encodedY p.compress : Nat), hx'.on⟩ : curve.Point) = a := by
      apply Edwards.Point.ext
      · rw [← hax, hx.unique hx']
      · exact hay
    rw [← hpoint]
    exact decoded_represents hx' his
  · exact absurd hx (hnone x)

/-- Decoding is sound and complete: it fails exactly when no abscissa has the parity asked
for, and otherwise gives the extended coordinates of that abscissa; an encoded point of the
curve is decoded to an equal one. -/
theorem decompress_exact :
    (∀ bytes : Bytes 32, (decompress bytes = none ↔ ¬ ∃ x, RootOf bytes x) ∧
      ∀ x, RootOf bytes x → ∃ p, decompress bytes = some p ∧
        p.Is ⟨x, encodedY bytes % prime, 1, x * (encodedY bytes % prime) % prime⟩) ∧
    (∀ p : Point, p.OnCurve → ∃ q, decompress p.compress = some q ∧ q.eq p = true) := by
  refine ⟨fun bytes => ⟨?_, fun x hx => ?_⟩, fun p hp => ?_⟩
  · rw [not_exists]
    obtain ⟨x, p, hx, hp, -⟩ | ⟨hnone, hp⟩ := decompress_cases bytes
    · exact ⟨fun h => absurd (hp.symm.trans h) (by simp), fun h => absurd hx (h x)⟩
    · exact ⟨fun _ => hnone, fun _ => hp⟩
  · obtain ⟨x', p, hx', hp, his⟩ | ⟨hnone, -⟩ := decompress_cases bytes
    · obtain rfl := hx.unique hx'
      exact ⟨p, hp, his⟩
    · exact absurd hx (hnone x)
  · obtain ⟨a, ha⟩ := Point.onCurve_iff.mp hp
    obtain ⟨q, hq, hqa⟩ := ha.decompress_compress
    exact ⟨q, hq, (hqa.eq_iff ha).mpr rfl⟩

theorem decompress_exact_basepoint :
    ∃ q, decompress basepoint.compress = some q ∧ q.eq basepoint = true :=
  decompress_exact.2 basepoint (Point.onCurve_iff.mpr ⟨base, basepoint_represents⟩)

/-! ### Canonical encodings -/

theorem encoding_ext {bytes bytes' : Bytes 32} (hy : encodedY bytes = encodedY bytes')
    (hsign : encodedSign bytes = encodedSign bytes') : bytes = bytes' := by
  have hlt : ∀ b : Bytes 32, fromLeBytes b.val < 2 ^ 256 := fun b => by
    have h := fromLeBytes_lt b.val
    rw [b.property] at h
    exact h.trans_le (by norm_num)
  have hvalue : fromLeBytes bytes.val = fromLeBytes bytes'.val := by
    have h := hlt bytes
    have h' := hlt bytes'
    unfold encodedSign at hsign
    unfold encodedY at hy
    rw [decide_eq_decide] at hsign
    omega
  apply Subtype.ext
  rw [← toLeBytes_fromLeBytes bytes.val, ← toLeBytes_fromLeBytes bytes'.val, bytes.property,
    bytes'.property, hvalue]

/-- A decoded point is encoded as the bytes it came from if they held a reduced ordinate. -/
theorem compress_decompress_iff {bytes : Bytes 32} {p : Point} (h : decompress bytes = some p) :
    p.compress = bytes ↔ encodedY bytes < prime := by
  obtain ⟨x, p', hx, hp, his⟩ | ⟨-, hnone⟩ := decompress_cases bytes
  · rw [h] at hp
    cases hp
    obtain ⟨x', hx', hxx', hyy', hlt⟩ := (decoded_represents hx his).rootOf_compress
    constructor
    · intro heq
      rwa [heq] at hlt
    · intro hreduced
      have hy : encodedY p.compress = encodedY bytes := (Residue.cast_inj hlt hreduced).mp hyy'
      have hxeq : x' = x := (Residue.cast_inj hx'.lt hx.lt).mp hxx'
      refine encoding_ext hy ?_
      rw [← hx'.parity, ← hx.parity, hxeq]
  · rw [h] at hnone
    cases hnone

/-- The encoding of the prime itself as an ordinate. -/
def unreducedZero : Bytes 32 := ⟨toLeBytes 32 prime, length_toLeBytes 32 prime⟩

theorem rootOf_unreducedZero : RootOf unreducedZero Residue.sqrtM1 := by
  have hy : encodedY unreducedZero = prime := by decide +kernel
  refine ⟨by decide +kernel, by decide +kernel, ?_⟩
  rw [hy, ZMod.natCast_self, on_iff]
  have hroot : ((Residue.sqrtM1 : Nat) : ZMod prime) ^ 2 = -1 := curve.root_sq
  rw [hroot]
  ring

/-- An ordinate of the prime itself is accepted, and the point has another encoding. -/
theorem decompress_unreducedZero :
    ∃ p, decompress unreducedZero = some p ∧ p.compress ≠ unreducedZero := by
  obtain ⟨x, p, -, hp, -⟩ | ⟨hnone, -⟩ := decompress_cases unreducedZero
  · refine ⟨p, hp, fun heq => ?_⟩
    have hlt := (compress_decompress_iff hp).mp heq
    exact absurd hlt (by decide +kernel)
  · exact absurd rootOf_unreducedZero (hnone _)

/-- An encoding that decodes is the encoding of its point exactly when its ordinate is below
the prime; two such encodings of equal points are equal. -/
theorem decompress_canonical_iff (bytes : Bytes 32) (p : Point) (hp : decompress bytes = some p) :
    (p.compress = bytes ↔ encodedY bytes < prime) ∧
    ∀ (bytes' : Bytes 32) (p' : Point), decompress bytes' = some p' → encodedY bytes < prime →
      encodedY bytes' < prime → p.eq p' = true → bytes = bytes' := by
  refine ⟨compress_decompress_iff hp, ?_⟩
  intro bytes' p' hp' hreduced hreduced' heq
  obtain ⟨x, q, hx, hq, his⟩ | ⟨-, hnone⟩ := decompress_cases bytes
  · obtain ⟨x', q', hx', hq', his'⟩ | ⟨-, hnone⟩ := decompress_cases bytes'
    · obtain rfl := Option.some.inj (hp.symm.trans hq)
      obtain rfl := Option.some.inj (hp'.symm.trans hq')
      have hpoint := ((decoded_represents hx his).eq_iff (decoded_represents hx' his')).mp heq
      have hxx' := congrArg Edwards.Point.x hpoint
      have hyy' := congrArg Edwards.Point.y hpoint
      have hxeq : x = x' := (Residue.cast_inj hx.lt hx'.lt).mp hxx'
      refine encoding_ext ((Residue.cast_inj hreduced hreduced').mp hyy') ?_
      rw [← hx.parity, ← hx'.parity, hxeq]
    · exact absurd (hp'.symm.trans hnone) (by simp)
  · exact absurd (hp.symm.trans hnone) (by simp)

theorem decompress_canonical_iff_unreducedZero :
    ∃ p, decompress unreducedZero = some p ∧ ¬ p.compress = unreducedZero := by
  obtain ⟨x, p, -, hp, -⟩ | ⟨hnone, -⟩ := decompress_cases unreducedZero
  · have hlarge : ¬ encodedY unreducedZero < prime := by decide +kernel
    exact ⟨p, hp, fun heq => hlarge ((decompress_canonical_iff unreducedZero p hp).1.mp heq)⟩
  · exact absurd rootOf_unreducedZero (hnone _)

end Redoubt.Crypto.Ed25519
