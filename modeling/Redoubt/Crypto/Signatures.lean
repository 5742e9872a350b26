import Redoubt.Crypto.PointCoding

/-!
# Signatures

Verification compares a multiple of the base point with a sum in the group of the curve.
What signing produces is accepted, since the reduction of a scalar modulo the order does
not change the multiple; and a scalar below the order is determined by its multiple.
-/

namespace Redoubt.Crypto.Ed25519

open Redoubt.Foundation

/-- The hash that binds a signature to the key and the message. -/
def challenge (rBytes pub : Bytes 32) (msg : List UInt8) : Bytes 32 :=
  modL (Sha512.finalize (((Sha512.new.update rBytes.val).update pub.val).update msg)).val

theorem slice_joinSignature (r s : Bytes 32) :
    (joinSignature r s).slice 0 32 = r ∧ (joinSignature r s).slice 32 32 = s := by
  have hr : r.val.length = 32 := r.property
  constructor
  · apply Subtype.ext
    change ((r.val ++ s.val).drop 0).take 32 = r.val
    rw [List.drop_zero, List.take_left' hr]
  · apply Subtype.ext
    change ((r.val ++ s.val).drop 32).take 32 = s.val
    rw [List.drop_left' hr, List.take_of_length_le (by rw [s.property])]

theorem decompress_represents {bytes : Bytes 32} {p : Point} (h : decompress bytes = some p) :
    ∃ a, p.Represents a := by
  obtain ⟨x, q, hx, hq, his⟩ | ⟨-, hnone⟩ := decompress_cases bytes
  · obtain rfl := Option.some.inj (h.symm.trans hq)
    exact ⟨_, decoded_represents hx his⟩
  · exact absurd (h.symm.trans hnone) (by simp)

theorem Point.Represents.unique {p : Point} {a b : curve.Point} (ha : p.Represents a)
    (hb : p.Represents b) : a = b :=
  (ha.stands.eq_iff hb.stands).mpr ⟨rfl, rfl⟩

/-- The conditions of an accepted signature, in the group. -/
structure Accepted (pub : Bytes 32) (msg : List UInt8) (r s : Bytes 32) (bigR a : curve.Point) :
    Prop where
  small : fromLeBytes s.val < orderL
  commitment : ∃ p, decompress r = some p ∧ p.Represents bigR
  key : ∃ p, decompress pub = some p ∧ p.Represents a
  equation : fromLeBytes s.val • base = bigR + fromLeBytes (challenge r pub msg).val • a

/-- Verification decides the equation. -/
theorem verify_ok_iff (pub : Bytes 32) (msg : List UInt8) (r s : Bytes 32) :
    verify pub msg (joinSignature r s) = .ok () ↔ ∃ bigR a, Accepted pub msg r s bigR a := by
  obtain ⟨hr, hs⟩ := slice_joinSignature r s
  rw [verify_eq_ok_iff, hr, hs, ← Bool.not_eq_true, bytesGeqL_iff, not_le]
  constructor
  · rintro ⟨hsmall, bigR, aPoint, hR, hA, hcheck⟩
    obtain ⟨r', hr'⟩ := decompress_represents hR
    obtain ⟨a, ha⟩ := decompress_represents hA
    rw [(scalarMulBase_represents s).eq_iff (hr'.add (ha.scalarMul _))] at hcheck
    exact ⟨r', a, hsmall, ⟨bigR, hR, hr'⟩, ⟨aPoint, hA, ha⟩, hcheck⟩
  · rintro ⟨r', a, hsmall, ⟨bigR, hR, hr'⟩, ⟨aPoint, hA, ha⟩, hequation⟩
    refine ⟨hsmall, bigR, aPoint, hR, hA, ?_⟩
    rw [(scalarMulBase_represents s).eq_iff (hr'.add (ha.scalarMul _))]
    exact hequation

/-- A scalar below the order is determined by its multiple of the base point. -/
theorem scalar_ext {s s' : Bytes 32} (hs : fromLeBytes s.val < orderL) (hs' : fromLeBytes s'.val < orderL)
    (h : fromLeBytes s.val • base = fromLeBytes s'.val • base) : s = s' := by
  rw [← addOrderOf_base] at hs hs'
  have hvalue := nsmul_injOn_Iio_addOrderOf hs hs' h
  apply Subtype.ext
  rw [← toLeBytes_fromLeBytes s.val, ← toLeBytes_fromLeBytes s'.val, s.property, s'.property, hvalue]

/-- At most one second half goes with a key, a message and a first half. -/
theorem verify_scalar_unique (pub : Bytes 32) (msg : List UInt8) (r s s' : Bytes 32)
    (h : verify pub msg (joinSignature r s) = .ok ())
    (h' : verify pub msg (joinSignature r s') = .ok ()) : s = s' := by
  rw [verify_ok_iff] at h h'
  obtain ⟨bigR, a, hsmall, ⟨p, hp, hbigR⟩, ⟨q, hq, ha⟩, hequation⟩ := h
  obtain ⟨bigR', a', hsmall', ⟨p', hp', hbigR'⟩, ⟨q', hq', ha'⟩, hequation'⟩ := h'
  obtain rfl := Option.some.inj (hp.symm.trans hp')
  obtain rfl := Option.some.inj (hq.symm.trans hq')
  obtain rfl := hbigR.unique hbigR'
  obtain rfl := ha.unique ha'
  exact scalar_ext hsmall hsmall' (hequation.trans hequation'.symm)

/-- A scalar of one byte. -/
def smallScalar (byte : UInt8) : Bytes 32 := ⟨byte :: List.replicate 31 0, rfl⟩

theorem verify_scalar_unique_identity :
    verify Point.identity.compress [] (joinSignature Point.identity.compress (smallScalar 0)) = .ok () ∧
      verify Point.identity.compress []
        (joinSignature Point.identity.compress (smallScalar 1)) ≠ .ok () := by
  have hvalue : fromLeBytes (smallScalar 0).val = 0 := by decide
  have haccepted : verify Point.identity.compress []
      (joinSignature Point.identity.compress (smallScalar 0)) = .ok () := by
    rw [verify_ok_iff]
    have hidentity := identity_represents.decompress_compress
    refine ⟨0, 0, ?_, hidentity, hidentity, ?_⟩
    · rw [hvalue]
      exact orderL_prime.pos
    · rw [hvalue, zero_nsmul, nsmul_zero, add_zero]
  refine ⟨haccepted, fun hone => ?_⟩
  have hsame := verify_scalar_unique _ _ _ _ _ haccepted hone
  exact absurd (congrArg Subtype.val hsame) (by decide)

/-! ### Signing -/

/-- A reduced scalar has the same multiple of the base point. -/
theorem mod_nsmul_base (n : Nat) : (n % orderL) • base = n • base := by
  rw [← addOrderOf_base, mod_addOrderOf_nsmul]

/-- The nonce of a signature. -/
def nonceScalar (seed : Bytes 32) (msg : List UInt8) : Bytes 32 :=
  modL (Sha512.finalize ((Sha512.new.update (expandSeed seed).2.val).update msg)).val

theorem sign_eq (seed : Bytes 32) (msg : List UInt8) : sign seed msg =
    joinSignature (scalarMulBase (nonceScalar seed msg)).compress
      (mulAddModL (challenge (scalarMulBase (nonceScalar seed msg)).compress (publicFromSeed seed) msg)
        (expandSeed seed).1 (nonceScalar seed msg)) := by
  unfold sign challenge publicFromSeed nonceScalar
  rfl

/-- What signing produces satisfies the equation. -/
theorem sign_accepted (seed : Bytes 32) (msg : List UInt8) : Accepted (publicFromSeed seed) msg
    (scalarMulBase (nonceScalar seed msg)).compress
    (mulAddModL (challenge (scalarMulBase (nonceScalar seed msg)).compress (publicFromSeed seed) msg)
      (expandSeed seed).1 (nonceScalar seed msg))
    (fromLeBytes (nonceScalar seed msg).val • base) (fromLeBytes (expandSeed seed).1.val • base) := by
  refine ⟨?_, ?_, ?_, ?_⟩
  · rw [fromLeBytes_mulAddModL]
    exact Nat.mod_lt _ orderL_prime.pos
  · exact (scalarMulBase_represents _).decompress_compress
  · exact (scalarMulBase_represents _).decompress_compress
  · rw [fromLeBytes_mulAddModL, mod_nsmul_base, add_nsmul, mul_nsmul', add_comm]

/-- Signing and checking agree. -/
theorem accepts_sign (seed : Bytes 32) (msg : List UInt8) :
    accepts (publicFromSeed seed) msg (sign seed msg) = true := by
  rw [accepts_iff, sign_eq, verify_ok_iff]
  exact ⟨_, _, sign_accepted seed msg⟩

/-- Every signature verifies under the key of its seed. -/
theorem verify_sign (seed : Bytes 32) (msg : List UInt8) :
    verify (publicFromSeed seed) msg (sign seed msg) = .ok () := by
  rw [sign_eq, verify_ok_iff]
  exact ⟨_, _, sign_accepted seed msg⟩

end Redoubt.Crypto.Ed25519
