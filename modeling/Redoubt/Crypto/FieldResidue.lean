import Redoubt.Crypto.Ed25519
import Mathlib.Data.Nat.Bitwise
import Mathlib.Tactic.Ring

/-!
# Field elements as residues

The value of five limbs is a number, and a field element stands for its residue modulo
the prime.  With limbs below `2 ^ 52` no operation on limbs wraps, each one computes the
operation on residues, and the encoding is the one of the residue.
-/

namespace Redoubt.Crypto.Ed25519

open Redoubt.Foundation

variable {x : Fe}

/-- The prime `2 ^ 255 - 19`. -/
def prime : Nat := 57896044618658097711785492504343953926634992332820282019728792003956564819949

namespace Fe

/-- The number that the limbs stand for. -/
def value (x : Fe) : Nat :=
  x.l0 + 2 ^ 51 * x.l1 + 2 ^ 102 * x.l2 + 2 ^ 153 * x.l3 + 2 ^ 204 * x.l4

/-- Every limb is below this number. -/
structure Below (bound : Nat) (x : Fe) : Prop where
  h0 : x.l0 < bound
  h1 : x.l1 < bound
  h2 : x.l2 < bound
  h3 : x.l3 < bound
  h4 : x.l4 < bound

/-- The limb bound of all results. -/
def Bounded (x : Fe) : Prop := x.Below (2 ^ 52)

theorem Below.mono {low high : Nat} (h : x.Below low) (le : low ≤ high) : x.Below high :=
  ⟨h.h0.trans_le le, h.h1.trans_le le, h.h2.trans_le le, h.h3.trans_le le, h.h4.trans_le le⟩

theorem and_mask51 (limb : Nat) : limb &&& mask51 = limb % 2 ^ 51 :=
  Nat.and_two_pow_sub_one_eq_mod limb 51

theorem u64_of_lt {limb : Nat} (h : limb < 2 ^ 64) : u64 limb = limb := Nat.mod_eq_of_lt h

theorem u128_of_lt {limb : Nat} (h : limb < 2 ^ 128) : u128 limb = limb := Nat.mod_eq_of_lt h

/-! ### Carries -/

/-- Carrying keeps the residue: what leaves the top limb comes back nineteen-fold. -/
theorem weakReduce_spec (h : x.Below (2 ^ 56)) :
    x.weakReduce.Below (2 ^ 51 + 2 ^ 10) ∧ ∃ carry, x.weakReduce.value + prime * carry = x.value := by
  obtain ⟨h0, h1, h2, h3, h4⟩ := h
  unfold weakReduce
  simp only [Nat.shiftRight_eq_div_pow, and_mask51]
  rw [u64_of_lt (by omega : x.l1 + x.l0 / 2 ^ 51 < 2 ^ 64)]
  generalize hc1 : x.l1 + x.l0 / 2 ^ 51 = c1
  rw [u64_of_lt (by omega : x.l2 + c1 / 2 ^ 51 < 2 ^ 64)]
  generalize hc2 : x.l2 + c1 / 2 ^ 51 = c2
  rw [u64_of_lt (by omega : x.l3 + c2 / 2 ^ 51 < 2 ^ 64)]
  generalize hc3 : x.l3 + c2 / 2 ^ 51 = c3
  rw [u64_of_lt (by omega : x.l4 + c3 / 2 ^ 51 < 2 ^ 64)]
  generalize hc4 : x.l4 + c3 / 2 ^ 51 = c4
  rw [u64_of_lt (by omega : c4 / 2 ^ 51 * 19 < 2 ^ 64),
    u64_of_lt (by omega : x.l0 % 2 ^ 51 + c4 / 2 ^ 51 * 19 < 2 ^ 64)]
  refine ⟨⟨?_, ?_, ?_, ?_, ?_⟩, c4 / 2 ^ 51, ?_⟩
  · dsimp only
    omega
  · dsimp only
    omega
  · dsimp only
    omega
  · dsimp only
    omega
  · dsimp only
    omega
  · unfold value prime
    dsimp only
    omega

/-! ### Sums and differences -/

theorem mod_eq_of_add_mul {a b k : Nat} (h : a + prime * k = b) : a % prime = b % prime := by
  rw [← h, Nat.add_mul_mod_self_left]

theorem weakReduce_value (h : x.Below (2 ^ 56)) :
    x.weakReduce.value % prime = x.value % prime := by
  obtain ⟨-, carry, hcarry⟩ := weakReduce_spec h
  exact mod_eq_of_add_mul hcarry

theorem Bounded.weakReduce (h : x.Bounded) : x.weakReduce.Below (2 ^ 51 + 2 ^ 10) :=
  (weakReduce_spec (h.mono (by decide))).1

theorem add_spec {x y : Fe} (hx : x.Bounded) (hy : y.Bounded) :
    (x.add y).Bounded ∧ (x.add y).value % prime = (x.value + y.value) % prime := by
  obtain ⟨hx0, hx1, hx2, hx3, hx4⟩ := hx
  obtain ⟨hy0, hy1, hy2, hy3, hy4⟩ := hy
  unfold add
  rw [u64_of_lt (by omega : x.l0 + y.l0 < 2 ^ 64), u64_of_lt (by omega : x.l1 + y.l1 < 2 ^ 64),
    u64_of_lt (by omega : x.l2 + y.l2 < 2 ^ 64), u64_of_lt (by omega : x.l3 + y.l3 < 2 ^ 64),
    u64_of_lt (by omega : x.l4 + y.l4 < 2 ^ 64)]
  have hsum : Below (2 ^ 56)
      ⟨x.l0 + y.l0, x.l1 + y.l1, x.l2 + y.l2, x.l3 + y.l3, x.l4 + y.l4⟩ :=
    ⟨by dsimp only; omega, by dsimp only; omega, by dsimp only; omega, by dsimp only; omega,
      by dsimp only; omega⟩
  refine ⟨(weakReduce_spec hsum).1.mono (by decide), ?_⟩
  rw [weakReduce_value hsum]
  congr 1
  unfold value
  dsimp only
  omega

/-- A difference that does not wrap. -/
theorem subWord_of_le {left right : Nat} (le : right ≤ left) (fits : left < 2 ^ 64) :
    subWord left right = left - right := by
  unfold subWord u64
  omega

theorem sub_spec {x y : Fe} (hx : x.Bounded) (hy : y.Bounded) :
    (x.sub y).Bounded ∧
      (x.sub y).value % prime = (x.value % prime + (prime - y.value % prime)) % prime := by
  have hxv := weakReduce_value (hx.mono (by decide : 2 ^ 52 ≤ 2 ^ 56))
  have hyv := weakReduce_value (hy.mono (by decide : 2 ^ 52 ≤ 2 ^ 56))
  obtain ⟨ha0, ha1, ha2, ha3, ha4⟩ := hx.weakReduce
  obtain ⟨hb0, hb1, hb2, hb3, hb4⟩ := hy.weakReduce
  unfold sub
  dsimp only
  generalize x.weakReduce = a at *
  generalize y.weakReduce = b at *
  unfold mask51
  rw [u64_of_lt (by omega : a.l0 + 2 * (2 ^ 51 - 1 - 18) < 2 ^ 64),
    u64_of_lt (by omega : a.l1 + 2 * (2 ^ 51 - 1) < 2 ^ 64),
    u64_of_lt (by omega : a.l2 + 2 * (2 ^ 51 - 1) < 2 ^ 64),
    u64_of_lt (by omega : a.l3 + 2 * (2 ^ 51 - 1) < 2 ^ 64),
    u64_of_lt (by omega : a.l4 + 2 * (2 ^ 51 - 1) < 2 ^ 64),
    subWord_of_le (by omega) (by omega), subWord_of_le (by omega) (by omega),
    subWord_of_le (by omega) (by omega), subWord_of_le (by omega) (by omega),
    subWord_of_le (by omega) (by omega)]
  generalize hd : (⟨a.l0 + 2 * (2 ^ 51 - 1 - 18) - b.l0, a.l1 + 2 * (2 ^ 51 - 1) - b.l1,
    a.l2 + 2 * (2 ^ 51 - 1) - b.l2, a.l3 + 2 * (2 ^ 51 - 1) - b.l3,
    a.l4 + 2 * (2 ^ 51 - 1) - b.l4⟩ : Fe) = difference
  have hbelow : difference.Below (2 ^ 56) := by
    subst hd
    exact ⟨by dsimp only; omega, by dsimp only; omega, by dsimp only; omega, by dsimp only; omega,
      by dsimp only; omega⟩
  have hvalue : difference.value + b.value = a.value + prime * 2 := by
    subst hd
    unfold value prime
    dsimp only
    omega
  refine ⟨(weakReduce_spec hbelow).1.mono (by decide), ?_⟩
  rw [weakReduce_value hbelow, ← hxv, ← hyv]
  unfold prime at hvalue ⊢
  omega

/-! ### Products -/

theorem mul_lt_of_lt {a b : Nat} (ha : a < 2 ^ 52) (hb : b < 2 ^ 52) : a * b < 2 ^ 109 :=
  calc a * b < 2 ^ 52 * 2 ^ 52 := Nat.mul_lt_mul'' ha hb
    _ ≤ 2 ^ 109 := by decide

theorem mul_nineteen_lt {a b : Nat} (ha : a < 2 ^ 52) (hb : b < 2 ^ 52) : a * (b * 19) < 2 ^ 109 :=
  calc a * (b * 19) = a * b * 19 := (Nat.mul_assoc ..).symm
    _ < 2 ^ 52 * 2 ^ 52 * 19 := Nat.mul_lt_mul_of_pos_right (Nat.mul_lt_mul'' ha hb) (by decide)
    _ ≤ 2 ^ 109 := by decide

/-- A column of the schoolbook product. -/
theorem column_lt {p0 p1 p2 p3 p4 : Nat} (h0 : p0 < 2 ^ 109) (h1 : p1 < 2 ^ 109) (h2 : p2 < 2 ^ 109)
    (h3 : p3 < 2 ^ 109) (h4 : p4 < 2 ^ 109) : p0 + p1 + p2 + p3 + p4 < 2 ^ 112 := by
  omega

/-- The carry chain of a product. -/
theorem mul_carries {r0 r1 r2 r3 r4 t0 t1 t2 t3 t4 : Nat} (h1 : r1 + r0 / 2 ^ 51 = t1)
    (h2 : r2 + t1 / 2 ^ 51 = t2) (h3 : r3 + t2 / 2 ^ 51 = t3) (h4 : r4 + t3 / 2 ^ 51 = t4)
    (h0 : r0 % 2 ^ 51 + t4 / 2 ^ 51 * 19 = t0) :
    t0 % 2 ^ 51 + 2 ^ 51 * (t1 % 2 ^ 51 + t0 / 2 ^ 51) + 2 ^ 102 * (t2 % 2 ^ 51) +
        2 ^ 153 * (t3 % 2 ^ 51) + 2 ^ 204 * (t4 % 2 ^ 51) + prime * (t4 / 2 ^ 51) =
      r0 + 2 ^ 51 * r1 + 2 ^ 102 * r2 + 2 ^ 153 * r3 + 2 ^ 204 * r4 := by
  unfold prime
  omega

theorem mul_spec {x y : Fe} (hx : x.Bounded) (hy : y.Bounded) :
    (x.mul y).Bounded ∧ (x.mul y).value % prime = x.value * y.value % prime := by
  have hxv := weakReduce_value (hx.mono (by decide : 2 ^ 52 ≤ 2 ^ 56))
  have hyv := weakReduce_value (hy.mono (by decide : 2 ^ 52 ≤ 2 ^ 56))
  obtain ⟨ha0, ha1, ha2, ha3, ha4⟩ := hx.weakReduce.mono (by decide : 2 ^ 51 + 2 ^ 10 ≤ 2 ^ 52)
  obtain ⟨hb0, hb1, hb2, hb3, hb4⟩ := hy.weakReduce.mono (by decide : 2 ^ 51 + 2 ^ 10 ≤ 2 ^ 52)
  rw [Nat.mul_mod, ← hxv, ← hyv, ← Nat.mul_mod]
  unfold mul
  dsimp only
  generalize x.weakReduce = a at *
  generalize y.weakReduce = b at *
  -- rows of the schoolbook product, the columns above the top folded back nineteen-fold
  generalize hr0 : a.l0 * b.l0 + a.l1 * (b.l4 * 19) + a.l2 * (b.l3 * 19) + a.l3 * (b.l2 * 19) +
    a.l4 * (b.l1 * 19) = r0
  generalize hr1 : a.l0 * b.l1 + a.l1 * b.l0 + a.l2 * (b.l4 * 19) + a.l3 * (b.l3 * 19) +
    a.l4 * (b.l2 * 19) = r1
  generalize hr2 : a.l0 * b.l2 + a.l1 * b.l1 + a.l2 * b.l0 + a.l3 * (b.l4 * 19) +
    a.l4 * (b.l3 * 19) = r2
  generalize hr3 : a.l0 * b.l3 + a.l1 * b.l2 + a.l2 * b.l1 + a.l3 * b.l0 + a.l4 * (b.l4 * 19) = r3
  generalize hr4 : a.l0 * b.l4 + a.l1 * b.l3 + a.l2 * b.l2 + a.l3 * b.l1 + a.l4 * b.l0 = r4
  have hproduct : a.value * b.value = r0 + 2 ^ 51 * r1 + 2 ^ 102 * r2 + 2 ^ 153 * r3 + 2 ^ 204 * r4 +
      prime * ((a.l1 * b.l4 + a.l2 * b.l3 + a.l3 * b.l2 + a.l4 * b.l1) +
        2 ^ 51 * (a.l2 * b.l4 + a.l3 * b.l3 + a.l4 * b.l2) +
        2 ^ 102 * (a.l3 * b.l4 + a.l4 * b.l3) + 2 ^ 153 * (a.l4 * b.l4)) := by
    subst hr0 hr1 hr2 hr3 hr4
    unfold value prime
    ring
  have hr0lt : r0 < 2 ^ 112 := hr0 ▸ column_lt (mul_lt_of_lt ha0 hb0) (mul_nineteen_lt ha1 hb4)
    (mul_nineteen_lt ha2 hb3) (mul_nineteen_lt ha3 hb2) (mul_nineteen_lt ha4 hb1)
  have hr1lt : r1 < 2 ^ 112 := hr1 ▸ column_lt (mul_lt_of_lt ha0 hb1) (mul_lt_of_lt ha1 hb0)
    (mul_nineteen_lt ha2 hb4) (mul_nineteen_lt ha3 hb3) (mul_nineteen_lt ha4 hb2)
  have hr2lt : r2 < 2 ^ 112 := hr2 ▸ column_lt (mul_lt_of_lt ha0 hb2) (mul_lt_of_lt ha1 hb1)
    (mul_lt_of_lt ha2 hb0) (mul_nineteen_lt ha3 hb4) (mul_nineteen_lt ha4 hb3)
  have hr3lt : r3 < 2 ^ 112 := hr3 ▸ column_lt (mul_lt_of_lt ha0 hb3) (mul_lt_of_lt ha1 hb2)
    (mul_lt_of_lt ha2 hb1) (mul_lt_of_lt ha3 hb0) (mul_nineteen_lt ha4 hb4)
  have hr4lt : r4 < 2 ^ 112 := hr4 ▸ column_lt (mul_lt_of_lt ha0 hb4) (mul_lt_of_lt ha1 hb3)
    (mul_lt_of_lt ha2 hb2) (mul_lt_of_lt ha3 hb1) (mul_lt_of_lt ha4 hb0)
  clear hr0 hr1 hr2 hr3 hr4 ha0 ha1 ha2 ha3 ha4 hb0 hb1 hb2 hb3 hb4 hx hy hxv hyv
  simp only [Nat.shiftRight_eq_div_pow, and_mask51]
  rw [u128_of_lt (by omega : r0 < 2 ^ 128), u128_of_lt (by omega : r1 < 2 ^ 128),
    u128_of_lt (by omega : r2 < 2 ^ 128), u128_of_lt (by omega : r3 < 2 ^ 128),
    u128_of_lt (by omega : r4 < 2 ^ 128), u64_of_lt (by omega : r0 / 2 ^ 51 < 2 ^ 64),
    u128_of_lt (by omega : r1 + r0 / 2 ^ 51 < 2 ^ 128)]
  generalize ht1 : r1 + r0 / 2 ^ 51 = t1
  rw [u64_of_lt (by omega : t1 / 2 ^ 51 < 2 ^ 64), u128_of_lt (by omega : r2 + t1 / 2 ^ 51 < 2 ^ 128)]
  generalize ht2 : r2 + t1 / 2 ^ 51 = t2
  rw [u64_of_lt (by omega : t2 / 2 ^ 51 < 2 ^ 64), u128_of_lt (by omega : r3 + t2 / 2 ^ 51 < 2 ^ 128)]
  generalize ht3 : r3 + t2 / 2 ^ 51 = t3
  rw [u64_of_lt (by omega : t3 / 2 ^ 51 < 2 ^ 64), u128_of_lt (by omega : r4 + t3 / 2 ^ 51 < 2 ^ 128)]
  generalize ht4 : r4 + t3 / 2 ^ 51 = t4
  rw [u64_of_lt (by omega : t4 / 2 ^ 51 < 2 ^ 64),
    u128_of_lt (by omega : r0 % 2 ^ 51 + t4 / 2 ^ 51 * 19 < 2 ^ 128)]
  generalize ht0 : r0 % 2 ^ 51 + t4 / 2 ^ 51 * 19 = t0
  rw [u64_of_lt (by omega : t0 / 2 ^ 51 < 2 ^ 64), u64_of_lt (by omega : t0 % 2 ^ 51 < 2 ^ 64),
    u128_of_lt (by omega : t1 % 2 ^ 51 + t0 / 2 ^ 51 < 2 ^ 128),
    u64_of_lt (by omega : t1 % 2 ^ 51 + t0 / 2 ^ 51 < 2 ^ 64),
    u64_of_lt (by omega : t2 % 2 ^ 51 < 2 ^ 64), u64_of_lt (by omega : t3 % 2 ^ 51 < 2 ^ 64),
    u64_of_lt (by omega : t4 % 2 ^ 51 < 2 ^ 64)]
  constructor
  · exact ⟨by dsimp only; omega, by dsimp only; omega, by dsimp only; omega, by dsimp only; omega,
      by dsimp only; omega⟩
  · rw [hproduct, ← mul_carries ht1 ht2 ht3 ht4 ht0, Nat.add_mul_mod_self_left,
      Nat.add_mul_mod_self_left]
    rfl

/-! ### Encoding -/

/-- One pass over limbs that are almost reduced. -/
theorem foldCarries_spec (h : x.Bounded) :
    x.foldCarries.l0 < 2 ^ 51 ∧ x.foldCarries.l1 < 2 ^ 51 ∧ x.foldCarries.l2 < 2 ^ 51 ∧
      x.foldCarries.l3 < 2 ^ 51 ∧ x.foldCarries.l4 < 2 ^ 51 + 2 ∧
      (x.l0 < 2 ^ 51 → x.l1 < 2 ^ 51 → x.l2 < 2 ^ 51 → x.l3 < 2 ^ 51 → 2 ^ 51 ≤ x.l4 →
        x.l4 < 2 ^ 51 + 2 → x.foldCarries.l4 < 2 ^ 51) ∧
      x.foldCarries.value % prime = x.value % prime := by
  obtain ⟨h0, h1, h2, h3, h4⟩ := h
  unfold foldCarries
  simp only [Nat.shiftRight_eq_div_pow, and_mask51]
  rw [u64_of_lt (by omega : x.l4 / 2 ^ 51 * 19 < 2 ^ 64),
    u64_of_lt (by omega : x.l0 + x.l4 / 2 ^ 51 * 19 < 2 ^ 64)]
  generalize hc0 : x.l0 + x.l4 / 2 ^ 51 * 19 = c0
  rw [u64_of_lt (by omega : x.l1 + c0 / 2 ^ 51 < 2 ^ 64)]
  generalize hc1 : x.l1 + c0 / 2 ^ 51 = c1
  rw [u64_of_lt (by omega : x.l2 + c1 / 2 ^ 51 < 2 ^ 64)]
  generalize hc2 : x.l2 + c1 / 2 ^ 51 = c2
  rw [u64_of_lt (by omega : x.l3 + c2 / 2 ^ 51 < 2 ^ 64)]
  generalize hc3 : x.l3 + c2 / 2 ^ 51 = c3
  rw [u64_of_lt (by omega : x.l4 % 2 ^ 51 + c3 / 2 ^ 51 < 2 ^ 64)]
  refine ⟨by omega, by omega, by omega, by omega, by omega, fun _ _ _ _ _ _ => by omega, ?_⟩
  refine mod_eq_of_add_mul (show _ + prime * (x.l4 / 2 ^ 51) = _ from ?_)
  unfold value prime
  dsimp only
  omega

theorem anyAbove_eq_false : x.anyAbove = false ↔ x.Below (2 ^ 51) := by
  unfold anyAbove mask51
  simp only [List.any_cons, List.any_nil, Bool.or_false, Bool.or_eq_false_iff, decide_eq_false_iff_not]
  constructor
  · rintro ⟨h0, h1, h2, h3, h4⟩
    exact ⟨by omega, by omega, by omega, by omega, by omega⟩
  · rintro ⟨h0, h1, h2, h3, h4⟩
    exact ⟨by omega, by omega, by omega, by omega, by omega⟩

/-- Two passes are enough. -/
theorem foldLoop_spec (fuel : Nat) (h : x.Bounded) :
    (foldLoop (fuel + 2) x).Below (2 ^ 51) ∧ (foldLoop (fuel + 2) x).value % prime = x.value % prime := by
  have hstop : ∀ (fuel : Nat) {y : Fe}, y.anyAbove = false → foldLoop fuel y = y := by
    intro fuel y hy
    cases fuel with
    | zero => rfl
    | succ => rw [foldLoop, if_neg (by rw [hy]; exact Bool.false_ne_true)]
  cases habove : x.anyAbove with
  | false =>
      rw [hstop _ habove]
      exact ⟨anyAbove_eq_false.mp habove, rfl⟩
  | true =>
      obtain ⟨h0, h1, h2, h3, h4, -, hvalue⟩ := foldCarries_spec h
      rw [foldLoop, if_pos habove, foldLoop]
      cases hagain : x.foldCarries.anyAbove with
      | false => exact ⟨anyAbove_eq_false.mp hagain, hvalue⟩
      | true =>
          have htop : 2 ^ 51 ≤ x.foldCarries.l4 := by
            by_contra hne
            have hbelow : x.foldCarries.anyAbove = false :=
              anyAbove_eq_false.mpr ⟨h0, h1, h2, h3, by omega⟩
            rw [hagain] at hbelow
            cases hbelow
          have hbounded : x.foldCarries.Bounded := ⟨by omega, by omega, by omega, by omega, by omega⟩
          obtain ⟨h0', h1', h2', h3', -, h4', hvalue'⟩ := foldCarries_spec hbounded
          have hlast : x.foldCarries.foldCarries.Below (2 ^ 51) :=
            ⟨h0', h1', h2', h3', h4' h0 h1 h2 h3 htop h4⟩
          rw [if_pos rfl, hstop _ (anyAbove_eq_false.mpr hlast)]
          exact ⟨hlast, hvalue'.trans hvalue⟩

/-- The number that 64-bit words stand for, least significant first. -/
def wordsValue : List Nat → Nat
  | [] => 0
  | word :: rest => word + 2 ^ 64 * wordsValue rest

theorem or_shifted {low high bits : Nat} (h : low < 2 ^ bits) :
    low ||| 2 ^ bits * high = low + 2 ^ bits * high := by
  rw [Nat.or_comm, ← Nat.two_pow_add_eq_or_of_lt h, Nat.add_comm]

theorem packWords_spec (h : x.Below (2 ^ 51)) :
    ∃ w0 w1 w2 w3, x.packWords = [w0, w1, w2, w3] ∧ w0 < 2 ^ 64 ∧ w1 < 2 ^ 64 ∧ w2 < 2 ^ 64 ∧
      w3 < 2 ^ 63 ∧ wordsValue [w0, w1, w2, w3] = x.value := by
  obtain ⟨h0, h1, h2, h3, h4⟩ := h
  have hword : ∀ {low high bits : Nat}, low < 2 ^ bits → bits ≤ 64 →
      low ||| u64 (high <<< bits) = low + 2 ^ bits * (high % 2 ^ (64 - bits)) := by
    intro low high bits hlow hbits
    have hpow : (2 : Nat) ^ 64 = 2 ^ bits * 2 ^ (64 - bits) := by
      rw [← pow_add]
      congr 1
      omega
    rw [u64, Nat.shiftLeft_eq, Nat.mul_comm high, hpow, Nat.mul_mod_mul_left, or_shifted hlow]
  refine ⟨_, _, _, _, rfl, ?_⟩
  simp only [Nat.shiftRight_eq_div_pow]
  rw [hword h0 (by decide), hword (by omega : x.l1 / 2 ^ 13 < 2 ^ 38) (by decide),
    hword (by omega : x.l2 / 2 ^ 26 < 2 ^ 25) (by decide),
    hword (by omega : x.l3 / 2 ^ 39 < 2 ^ 12) (by decide)]
  refine ⟨by omega, by omega, by omega, by omega, ?_⟩
  unfold value wordsValue wordsValue wordsValue wordsValue wordsValue
  omega

theorem wordsValue_lt {ws : List Nat} (h : ∀ word ∈ ws, word < 2 ^ 64) :
    wordsValue ws < (2 ^ 64) ^ ws.length := by
  induction ws with
  | nil => exact Nat.one_pos
  | cons _ _ ih =>
      rw [List.forall_mem_cons] at h
      have hrest := ih h.2
      rw [wordsValue, List.length_cons, Nat.pow_succ (n := 2 ^ 64)]
      omega

/-- Word-wise subtraction, with what is borrowed in the end. -/
theorem wordsSub_spec {left right : List Nat} (len : left.length = right.length)
    (hleft : ∀ word ∈ left, word < 2 ^ 64) (hright : ∀ word ∈ right, word < 2 ^ 64) {borrow : Int}
    (hborrow : borrow = 0 ∨ borrow = 1) :
    (∀ word ∈ wordsSub left right borrow, word < 2 ^ 64) ∧
      ∃ last : Int, (last = 0 ∨ last = 1) ∧
        (wordsValue (wordsSub left right borrow) : Int) =
          wordsValue left - wordsValue right - borrow + (2 ^ 64) ^ left.length * last := by
  induction left generalizing right borrow with
  | nil =>
      cases right with
      | nil =>
          refine ⟨fun _ h => absurd h List.not_mem_nil, borrow, hborrow, ?_⟩
          simp [wordsSub, wordsValue]
      | cons => cases len
  | cons _ rest ih =>
      cases right with
      | nil => cases len
      | cons _ others =>
          rw [List.forall_mem_cons] at hleft hright
          have hlen : rest.length = others.length := Nat.succ.inj len
          rw [wordsSub]
          split_ifs with hneg
          · obtain ⟨hwords, last, hlast, hvalue⟩ := ih hlen hleft.2 hright.2 (.inr rfl)
            refine ⟨List.forall_mem_cons.mpr ⟨by omega, hwords⟩, last, hlast, ?_⟩
            simp only [wordsValue, List.length_cons, pow_succ]
            push_cast
            rw [hvalue, Int.toNat_of_nonneg (by omega)]
            ring
          · obtain ⟨hwords, last, hlast, hvalue⟩ := ih hlen hleft.2 hright.2 (.inl rfl)
            refine ⟨List.forall_mem_cons.mpr ⟨by omega, hwords⟩, last, hlast, ?_⟩
            simp only [wordsValue, List.length_cons, pow_succ]
            push_cast
            rw [hvalue, Int.toNat_of_nonneg (by omega)]
            ring

/-- The canonical words. -/
theorem reducedWords_spec (h : x.Bounded) :
    (∀ word ∈ x.reducedWords, word < 2 ^ 64) ∧ wordsValue x.reducedWords = x.value % prime := by
  obtain ⟨hbelow, hvalue⟩ := foldLoop_spec 14 h
  obtain ⟨w0, w1, w2, w3, hpack, h0, h1, h2, h3, hwords⟩ := packWords_spec hbelow
  unfold reducedWords
  dsimp only
  rw [hpack, ← hvalue, ← hwords]
  have hge : wordsGe [w0, w1, w2, w3].reverse primeWords.reverse = true ↔
      prime ≤ wordsValue [w0, w1, w2, w3] := by
    simp only [List.reverse_cons, List.reverse_nil, List.nil_append, List.cons_append, primeWords,
      wordsGe, wordsValue]
    unfold prime
    split_ifs with htop hthird hsecond hlow
    · simp only [true_iff]
      omega
    · simp only [decide_eq_true_eq]
      omega
    · simp only [decide_eq_true_eq]
      omega
    · simp only [decide_eq_true_eq]
      omega
    · simp only [decide_eq_true_eq]
      omega
  have hsmall : ∀ word ∈ [w0, w1, w2, w3], word < 2 ^ 64 := by
    simp only [List.forall_mem_cons, List.not_mem_nil, false_implies, implies_true, and_true]
    omega
  have hbound : wordsValue [w0, w1, w2, w3] < 2 ^ 255 := by
    simp only [wordsValue]
    omega
  by_cases hbig : wordsGe [w0, w1, w2, w3].reverse primeWords.reverse = true
  · rw [if_pos hbig]
    have hprime : wordsValue primeWords = prime := by decide +kernel
    obtain ⟨hsub, last, hlast, hdiff⟩ := wordsSub_spec (by rfl : [w0, w1, w2, w3].length =
      primeWords.length) hsmall (by decide +kernel) (.inl rfl : (0 : Int) = 0 ∨ _)
    have hlt := wordsValue_lt hsub
    have hle := hge.mp hbig
    rw [length_wordsSub] at hlt
    rw [hprime] at hdiff
    generalize wordsValue [w0, w1, w2, w3] = total at *
    refine ⟨hsub, ?_⟩
    have hlen : min [w0, w1, w2, w3].length primeWords.length = 4 := rfl
    have hlen' : [w0, w1, w2, w3].length = 4 := rfl
    rw [hlen] at hlt
    rw [hlen'] at hdiff
    generalize wordsValue (wordsSub [w0, w1, w2, w3] primeWords 0) = reduced at *
    unfold prime at *
    omega
  · rw [if_neg hbig]
    refine ⟨hsmall, ?_⟩
    rw [Nat.mod_eq_of_lt (Nat.not_le.mp fun hle => hbig (hge.mpr hle))]

theorem flatMap_toLeBytes {ws : List Nat} (h : ∀ word ∈ ws, word < 2 ^ 64) :
    ws.flatMap (toLeBytes 8) = toLeBytes (8 * ws.length) (wordsValue ws) := by
  induction ws with
  | nil => rfl
  | cons word rest ih =>
      rw [List.forall_mem_cons] at h
      have hlen : 8 * (word :: rest).length = 8 + 8 * rest.length := by
        rw [List.length_cons]
        omega
      have hhigh : (word + 256 ^ 8 * wordsValue rest) / 256 ^ 8 = wordsValue rest := by omega
      rw [List.flatMap_cons, ih h.2, hlen, toLeBytes_add]
      change _ = toLeBytes 8 (word + 256 ^ 8 * wordsValue rest) ++
        toLeBytes _ ((word + 256 ^ 8 * wordsValue rest) / 256 ^ 8)
      rw [hhigh, toLeBytes_add_mul]

/-- The encoding is the one of the residue. -/
theorem toBytes_spec (h : x.Bounded) : x.toBytes.val = toLeBytes 32 (x.value % prime) := by
  obtain ⟨hwords, hvalue⟩ := reducedWords_spec h
  change x.reducedWords.flatMap (toLeBytes 8) = _
  rw [flatMap_toLeBytes hwords, hvalue, length_reducedWords]

theorem fromU64_spec {value : Nat} (h : value < 2 ^ 64) :
    (fromU64 value).Bounded ∧ (fromU64 value).value = value := by
  unfold fromU64
  rw [and_mask51, Nat.shiftRight_eq_div_pow]
  constructor
  · exact ⟨by dsimp only; omega, by dsimp only; omega, Nat.two_pow_pos 52, Nat.two_pow_pos 52,
      Nat.two_pow_pos 52⟩
  · unfold Fe.value
    dsimp only
    omega

theorem fromBytes_spec (b : Bytes 32) :
    (fromBytes b).Bounded ∧ (fromBytes b).value = fromLeBytes b.val % 2 ^ 255 := by
  have hlt := fromLeBytes_lt b.val
  rw [b.property] at hlt
  have hslice : ∀ (off : Nat) (inside : off + 8 ≤ 32),
      fromLeBytes (b.slice off 8 inside).val = fromLeBytes b.val / 256 ^ off % 256 ^ 8 :=
    fun off inside => Bytes.fromLeBytes_slice b inside
  unfold fromBytes
  simp only [hslice, Nat.shiftRight_eq_div_pow, and_mask51]
  generalize fromLeBytes b.val = total at *
  constructor
  · exact ⟨by dsimp only; omega, by dsimp only; omega, by dsimp only; omega, by dsimp only; omega,
      by dsimp only; omega⟩
  · unfold value
    dsimp only
    omega

end Fe

end Redoubt.Crypto.Ed25519
