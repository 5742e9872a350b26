import Redoubt.Crypto.FieldResidue
import Mathlib.Data.Nat.Digits.Lemmas

/-!
# Scalars as numbers

Bytes are read from the most significant bit on, by the reduction modulo the group order
and by the loops of the curve arithmetic.  The reduction, the product of two scalars and
the comparison with the order are computed in limbs of 32 bits; here each is the
operation on the numbers that the limbs stand for.
-/

namespace Redoubt.Crypto.Ed25519

open Redoubt.Foundation

/-! ### Bits -/

/-- The number that bits stand for, most significant first, after this one. -/
def bitsFrom (start : Nat) (bits : List Bool) : Nat :=
  bits.foldl (fun value bit => 2 * value + bit.toNat) start

theorem bitsFrom_append (start : Nat) (front rest : List Bool) :
    bitsFrom start (front ++ rest) = bitsFrom (bitsFrom start front) rest :=
  List.foldl_append

theorem bitsFrom_eq (start : Nat) (bits : List Bool) :
    bitsFrom start bits = 2 ^ bits.length * start + bitsFrom 0 bits := by
  induction bits generalizing start with
  | nil => simp [bitsFrom]
  | cons bit bits ih =>
      have hstep : ∀ value, bitsFrom value (bit :: bits) = bitsFrom (2 * value + bit.toNat) bits :=
        fun _ => rfl
      rw [hstep, hstep, ih, ih (2 * 0 + bit.toNat), List.length_cons, pow_succ]
      ring

theorem bitsFrom_byte (start : Nat) (byte : UInt8) :
    bitsFrom start ([7, 6, 5, 4, 3, 2, 1, 0].map fun bit => byte.toNat.testBit bit) =
      256 * start + byte.toNat := by
  have hall : ∀ value < 256,
      bitsFrom 0 ([7, 6, 5, 4, 3, 2, 1, 0].map fun bit => value.testBit bit) = value := by
    decide +kernel
  rw [bitsFrom_eq, hall byte.toNat byte.toNat_lt, List.length_map]
  norm_num

theorem bitsMsbFirst_cons (byte : UInt8) (rest : List UInt8) : bitsMsbFirst (byte :: rest) =
    bitsMsbFirst rest ++ [7, 6, 5, 4, 3, 2, 1, 0].map fun bit => byte.toNat.testBit bit := by
  simp [bitsMsbFirst]

/-- The bits of a byte string stand for its number. -/
theorem bitsFrom_bitsMsbFirst (bytes : List UInt8) :
    bitsFrom 0 (bitsMsbFirst bytes) = fromLeBytes bytes := by
  induction bytes with
  | nil => rfl
  | cons _ _ ih =>
      rw [bitsMsbFirst_cons, bitsFrom_append, ih, bitsFrom_byte, fromLeBytes, Nat.add_comm]

/-- A loop over the bits keeps what each step carries from a number to its double. -/
theorem foldl_bits {α : Type} {step : α → Bool → α} {motive : Nat → α → Prop}
    (keeps : ∀ value state bit, motive value state → motive (2 * value + bit.toNat) (step state bit))
    {start : Nat} {state : α} (initial : motive start state) (bits : List Bool) :
    motive (bitsFrom start bits) (bits.foldl step state) := by
  induction bits generalizing start state with
  | nil => exact initial
  | cons bit _ ih => exact ih (keeps start state bit initial)

/-! ### Limbs -/

/-- The number that limbs of 32 bits stand for, least significant first. -/
abbrev limbsValue (limbs : List Nat) : Nat := Nat.ofDigits (2 ^ 32) limbs

/-- Every limb fits in 32 bits. -/
def Limbs (limbs : List Nat) : Prop := ∀ limb ∈ limbs, limb < 2 ^ 32

theorem limbsValue_cons (limb : Nat) (rest : List Nat) :
    limbsValue (limb :: rest) = limb + 2 ^ 32 * limbsValue rest := by
  simp [limbsValue, Nat.ofDigits_cons]

theorem Limbs.cons {limb : Nat} {rest : List Nat} : Limbs (limb :: rest) ↔ limb < 2 ^ 32 ∧ Limbs rest :=
  List.forall_mem_cons

theorem Limbs.value_lt {limbs : List Nat} (h : Limbs limbs) :
    limbsValue limbs < (2 ^ 32) ^ limbs.length :=
  Nat.ofDigits_lt_base_pow_length (by norm_num) h

theorem shiftInBit_spec {limbs : List Nat} (h : Limbs limbs) {carry : Nat} (hcarry : carry < 2) :
    Limbs (shiftInBit limbs carry) ∧ ∃ last, limbsValue (shiftInBit limbs carry) +
      (2 ^ 32) ^ limbs.length * last = 2 * limbsValue limbs + carry := by
  induction limbs generalizing carry with
  | nil => exact ⟨h, carry, by simp [shiftInBit, limbsValue]⟩
  | cons limb rest ih =>
      rw [Limbs.cons] at h
      have hhigh : limb >>> 31 < 2 := by
        rw [Nat.shiftRight_eq_div_pow]
        omega
      obtain ⟨hrest, last, hvalue⟩ := ih h.2 hhigh
      have hlow : (limb <<< 1) % 2 ^ 32 ||| carry = (2 * limb) % 2 ^ 32 + carry := by
        have hmul : 2 ^ 1 * (limb % 2 ^ 31) = limb <<< 1 % 2 ^ 32 := by
          rw [Nat.shiftLeft_eq]
          omega
        rw [← hmul, Nat.lor_comm, Fe.or_shifted hcarry]
        omega
      rw [shiftInBit, hlow, Limbs.cons]
      refine ⟨⟨by omega, hrest⟩, last, ?_⟩
      rw [limbsValue_cons, limbsValue_cons, List.length_cons, pow_succ]
      rw [Nat.shiftRight_eq_div_pow] at hvalue
      have hsplit : (2 * limb) % 2 ^ 32 + 2 ^ 32 * (limb / 2 ^ 31) = 2 * limb := by omega
      calc (2 * limb) % 2 ^ 32 + carry + 2 ^ 32 * limbsValue (shiftInBit rest (limb >>> 31)) +
            (2 ^ 32) ^ rest.length * 2 ^ 32 * last
          = (2 * limb) % 2 ^ 32 + carry + 2 ^ 32 * (limbsValue (shiftInBit rest (limb >>> 31)) +
              (2 ^ 32) ^ rest.length * last) := by ring
        _ = (2 * limb) % 2 ^ 32 + 2 ^ 32 * (limb / 2 ^ 31) + carry + 2 ^ 32 * (2 * limbsValue rest) := by
            rw [Nat.shiftRight_eq_div_pow, hvalue]
            ring
        _ = 2 * (limb + 2 ^ 32 * limbsValue rest) + carry := by
            rw [hsplit]
            ring

theorem limbsValue_append (low high : List Nat) :
    limbsValue (low ++ high) = limbsValue low + (2 ^ 32) ^ low.length * limbsValue high :=
  Nat.ofDigits_append

theorem Limbs.append {low high : List Nat} : Limbs (low ++ high) ↔ Limbs low ∧ Limbs high :=
  List.forall_mem_append

/-- Subtraction from the low limbs leaves the others; a borrow from them is lost. -/
theorem limbsSub_spec {low others : List Nat} (len : low.length = others.length) (hlow : Limbs low)
    (hothers : Limbs others) {borrow : Nat} (hborrow : borrow < 2) (high : List Nat) :
    ∃ out last, limbsSub (low ++ high) others borrow = out ++ high ∧ out.length = low.length ∧ Limbs out ∧
      limbsValue out + limbsValue others + borrow = limbsValue low + (2 ^ 32) ^ low.length * last := by
  induction low generalizing others borrow with
  | nil =>
      obtain rfl : others = [] := List.length_eq_zero_iff.mp len.symm
      refine ⟨[], borrow, ?_, rfl, hlow, by simp [limbsValue]⟩
      rw [limbsSub]
      exact fun _ _ _ _ _ hnil => absurd hnil (by simp)
  | cons limb rest ih =>
      cases others with
      | nil => cases len
      | cons other others =>
          rw [Limbs.cons] at hlow hothers
          have hcarry : (if limb < other + borrow then 1 else 0) < 2 := by split <;> decide
          obtain ⟨out, last, hout, hlength, hlimbs, hvalue⟩ :=
            ih (Nat.succ.inj len) hlow.2 hothers.2 hcarry
          refine ⟨(limb + (2 ^ 64 - (other + borrow))) % 2 ^ 32 :: out, last, ?_, ?_, ?_, ?_⟩
          · rw [List.cons_append, limbsSub, hout]
            rfl
          · rw [List.length_cons, List.length_cons, hlength]
          · exact Limbs.cons.mpr ⟨Nat.mod_lt _ (by norm_num), hlimbs⟩
          have hdigit : (limb + (2 ^ 64 - (other + borrow))) % 2 ^ 32 + (other + borrow) =
              limb + 2 ^ 32 * (if limb < other + borrow then 1 else 0) := by
            split <;> omega
          rw [limbsValue_cons, limbsValue_cons, limbsValue_cons, List.length_cons, pow_succ]
          generalize (if limb < other + borrow then 1 else 0) = next at hdigit hvalue
          generalize (limb + (2 ^ 64 - (other + borrow))) % 2 ^ 32 = digit at hdigit ⊢
          calc digit + 2 ^ 32 * limbsValue out + (other + 2 ^ 32 * limbsValue others) + borrow
              = digit + (other + borrow) + 2 ^ 32 * (limbsValue out + limbsValue others) := by ring
            _ = limb + 2 ^ 32 * (limbsValue out + limbsValue others + next) := by
                rw [hdigit]
                ring
            _ = limb + 2 ^ 32 * limbsValue rest + (2 ^ 32) ^ rest.length * 2 ^ 32 * last := by
                rw [hvalue]
                ring

/-- The comparison from the most significant digit on. -/
theorem wordsGe_iff {base : Nat} (hbase : 1 < base) {left right : List Nat}
    (len : left.length = right.length) (hleft : ∀ digit ∈ left, digit < base)
    (hright : ∀ digit ∈ right, digit < base) :
    Fe.wordsGe left.reverse right.reverse = true ↔ Nat.ofDigits base right ≤ Nat.ofDigits base left := by
  induction left using List.reverseRecOn generalizing right with
  | nil =>
      obtain rfl : right = [] := List.length_eq_zero_iff.mp len.symm
      simp [Fe.wordsGe]
  | append_singleton left digit ih =>
      obtain ⟨right, other, rfl⟩ : ∃ front last, right = front ++ [last] := by
        refine ⟨right.dropLast, right.getLast ?_, (List.dropLast_append_getLast _).symm⟩
        rintro rfl
        simp at len
      have hlen : left.length = right.length := by simpa using len
      simp only [List.mem_append, List.mem_singleton] at hleft hright
      have hlow := Nat.ofDigits_lt_base_pow_length hbase fun d hd => hleft d (.inl hd)
      have hlow' := Nat.ofDigits_lt_base_pow_length hbase fun d hd => hright d (.inl hd)
      have ih := ih hlen (fun d hd => hleft d (.inl hd)) fun d hd => hright d (.inl hd)
      rw [List.reverse_append, List.reverse_append, List.reverse_singleton, List.reverse_singleton,
        List.singleton_append, List.singleton_append, Fe.wordsGe, Nat.ofDigits_append,
        Nat.ofDigits_append, Nat.ofDigits_singleton, Nat.ofDigits_singleton, ← hlen]
      rw [← hlen] at hlow'
      split_ifs with heq
      · rw [ih, heq, Nat.add_le_add_iff_right]
      · rw [decide_eq_true_eq]
        constructor
        · intro hlt
          have hmul := Nat.mul_le_mul_left (base ^ left.length) (Nat.succ_le_of_lt hlt)
          rw [Nat.mul_succ] at hmul
          omega
        · intro hle
          by_contra hge
          have hlt : digit < other := by omega
          have hmul := Nat.mul_le_mul_left (base ^ left.length) (Nat.succ_le_of_lt hlt)
          rw [Nat.mul_succ] at hmul
          omega

/-! ### The group order -/

/-- The order of the group that the base point generates. -/
def orderL : Nat := 2 ^ 252 + 27742317777372353535851937790883648493

theorem limbsValue_lLimbs : limbsValue lLimbs = orderL := by decide +kernel

theorem lLimbs_limbs : Limbs lLimbs := by
  unfold Limbs
  decide

/-- Nine limbs, the last of them zero, hold this number modulo the order. -/
structure Holds (value : Nat) (rem : List Nat) : Prop where
  length : rem.length = 9
  limbs : Limbs rem
  value : limbsValue rem = value % orderL

/-- A number of eight limbs leaves the ninth zero. -/
theorem limbs_split {rem : List Nat} (length : rem.length = 9) (h : Limbs rem)
    (small : limbsValue rem < (2 ^ 32) ^ 8) : ∃ low, rem = low ++ [0] ∧ low.length = 8 ∧ Limbs low := by
  obtain ⟨low, top, rfl⟩ : ∃ low top, rem = low ++ [top] := by
    refine ⟨rem.dropLast, rem.getLast ?_, (List.dropLast_append_getLast _).symm⟩
    rintro rfl
    cases length
  have hlow : low.length = 8 := by simpa using length
  rw [limbsValue_append, hlow, limbsValue, limbsValue, Nat.ofDigits_singleton] at small
  obtain rfl : top = 0 := by
    by_contra hpos
    have hmul := Nat.mul_le_mul_left ((2 ^ 32) ^ 8) (Nat.one_le_iff_ne_zero.mpr hpos)
    omega
  exact ⟨low, rfl, hlow, (Limbs.append.mp h).1⟩

theorem limbsValue_zero_last (low : List Nat) : limbsValue (low ++ [0]) = limbsValue low := by
  rw [limbsValue_append, limbsValue, limbsValue, Nat.ofDigits_singleton, Nat.mul_zero, Nat.add_zero]

theorem limbsGeq_iff {low : List Nat} (length : low.length = 8) (h : Limbs low) :
    limbsGeq (low ++ [0]) lLimbs = true ↔ orderL ≤ limbsValue low := by
  unfold limbsGeq
  rw [List.take_left' length, wordsGe_iff (by norm_num : 1 < 2 ^ 32) length h lLimbs_limbs,
    ← limbsValue_lLimbs]

/-- One step of the division doubles and adds a bit modulo the order. -/
theorem Holds.step {value : Nat} {rem : List Nat} (h : Holds value rem) (bit : Bool) :
    Holds (2 * value + bit.toNat) (modLStep rem bit) := by
  have hbit : bit.toNat < 2 := bit.toNat_lt
  obtain ⟨hlimbs, last, hshift⟩ := shiftInBit_spec h.limbs hbit
  have hlength : (shiftInBit rem bit.toNat).length = 9 := by rw [length_shiftInBit, h.length]
  have hbelow : value % orderL < orderL := Nat.mod_lt _ (by decide +kernel)
  have hmod : (2 * value + bit.toNat) % orderL = (2 * (value % orderL) + bit.toNat) % orderL := by
    rw [Nat.add_mod, Nat.mul_mod, Nat.add_mod (2 * (value % orderL)), Nat.mul_mod 2 (value % orderL),
      Nat.mod_mod]
  have horder : orderL = 2 ^ 252 + 27742317777372353535851937790883648493 := rfl
  rw [h.value, h.length] at hshift
  have hvalue : limbsValue (shiftInBit rem bit.toNat) = 2 * (value % orderL) + bit.toNat := by omega
  obtain ⟨low, hsplit, hlow, hlimbs'⟩ := limbs_split hlength hlimbs (by omega)
  unfold modLStep
  dsimp only
  rw [hsplit, limbsValue_zero_last] at hvalue
  rw [hsplit]
  rw [← hvalue] at hmod
  have hgeq := limbsGeq_iff hlow hlimbs'
  split_ifs with hlarge
  · rw [hgeq] at hlarge
    obtain ⟨out, last', hout, houtlen, houtlimbs, hdiff⟩ :=
      limbsSub_spec hlow hlimbs' lLimbs_limbs (by decide : 0 < 2) [0]
    have hbound := houtlimbs.value_lt
    rw [houtlen, hlow] at hbound
    rw [limbsValue_lLimbs, hlow] at hdiff
    rw [hout]
    refine ⟨by simp [houtlen, hlow], Limbs.append.mpr ⟨houtlimbs, by simp [Limbs]⟩, ?_⟩
    rw [limbsValue_zero_last, hmod, Nat.mod_eq_sub_mod hlarge, Nat.mod_eq_of_lt (by omega)]
    omega
  · rw [hgeq] at hlarge
    rw [hsplit] at hlength hlimbs
    exact ⟨hlength, hlimbs, by rw [limbsValue_zero_last, hmod, Nat.mod_eq_of_lt (by omega)]⟩

theorem modLLimbs_holds (input : List UInt8) : Holds (fromLeBytes input) (modLLimbs input) := by
  rw [← bitsFrom_bitsMsbFirst]
  refine foldl_bits (fun _ _ bit h => h.step bit) ⟨rfl, ?_, ?_⟩ (bitsMsbFirst input)
  · intro limb hlimb
    rw [List.eq_of_mem_replicate hlimb]
    norm_num
  · exact Nat.ofDigits_replicate_zero

theorem fromLeBytes_limbs {limbs : List Nat} (h : Limbs limbs) :
    fromLeBytes (limbs.flatMap (toLeBytes 4)) = limbsValue limbs := by
  induction limbs with
  | nil => rfl
  | cons _ _ ih =>
      rw [Limbs.cons] at h
      rw [List.flatMap_cons, fromLeBytes_append, fromLeBytes_toLeBytes, length_toLeBytes, ih h.2,
        limbsValue_cons, Nat.mod_eq_of_lt (by simpa using h.1)]
      norm_num

/-- The reduction is the remainder modulo the order. -/
theorem fromLeBytes_modL (input : List UInt8) :
    fromLeBytes (modL input).val = fromLeBytes input % orderL := by
  obtain ⟨hlength, hlimbs, hvalue⟩ := modLLimbs_holds input
  have hbelow : fromLeBytes input % orderL < orderL := Nat.mod_lt _ (by decide +kernel)
  have horder : orderL = 2 ^ 252 + 27742317777372353535851937790883648493 := rfl
  obtain ⟨low, hsplit, hlow, hlow'⟩ := limbs_split hlength hlimbs (by omega)
  rw [hsplit, limbsValue_zero_last] at hvalue
  change fromLeBytes (((modLLimbs input).take 8).flatMap (toLeBytes 4)) = _
  rw [hsplit, List.take_left' hlow, fromLeBytes_limbs hlow', hvalue]

/-- The comparison of the encoded scalar with the order. -/
theorem bytesGeqL_iff (bytes : Bytes 32) : bytesGeqL bytes = true ↔ orderL ≤ fromLeBytes bytes.val := by
  have hdigits : ∀ bytes : List UInt8, Nat.ofDigits 256 (bytes.map UInt8.toNat) = fromLeBytes bytes := by
    intro bytes
    induction bytes with
    | nil => rfl
    | cons _ _ ih => rw [List.map_cons, Nat.ofDigits_cons, ih, fromLeBytes]
  have hsmall : ∀ bytes : List UInt8, ∀ digit ∈ bytes.map UInt8.toNat, digit < 256 := by
    intro bytes digit hdigit
    obtain ⟨byte, -, rfl⟩ := List.mem_map.mp hdigit
    exact byte.toNat_lt
  have hlen : (bytes.val.map UInt8.toNat).length =
      ((lLimbs.flatMap (toLeBytes 4)).map UInt8.toNat).length := by
    rw [List.length_map, bytes.property]
    decide
  rw [bytesGeqL, List.map_reverse, List.map_reverse,
    wordsGe_iff (by norm_num : 1 < 256) hlen (hsmall _) (hsmall _), hdigits, hdigits,
    fromLeBytes_limbs lLimbs_limbs, limbsValue_lLimbs]

/-! ### Products -/

/-- One row of the product; the limb after the row takes the last carry. -/
theorem mulRow_spec {a : Nat} (ha : a < 2 ^ 32) {prod bs : List Nat} (len : prod.length = bs.length)
    (hprod : Limbs prod) (hbs : Limbs bs) {carry : Nat} (hcarry : carry < 2 ^ 32) (rest : List Nat) :
    ∃ out, mulRow a (prod ++ 0 :: rest) bs carry = out ++ rest ∧ out.length = prod.length + 1 ∧
      Limbs out ∧
      limbsValue out = limbsValue prod + a * limbsValue bs + carry := by
  induction prod generalizing bs carry with
  | nil =>
      obtain rfl : bs = [] := List.length_eq_zero_iff.mp len.symm
      refine ⟨[carry], ?_, rfl, ?_, ?_⟩
      · rw [List.nil_append, mulRow, Nat.zero_add, Nat.mod_mod, Nat.mod_eq_of_lt hcarry]
        rfl
      · exact Limbs.cons.mpr ⟨hcarry, hprod⟩
      · simp [limbsValue]
  | cons p prod ih =>
      cases bs with
      | nil => cases len
      | cons b bs =>
          rw [Limbs.cons] at hprod hbs
          have hab : a * b ≤ (2 ^ 32 - 1) * (2 ^ 32 - 1) :=
            Nat.mul_le_mul (Nat.le_sub_one_of_lt ha) (Nat.le_sub_one_of_lt hbs.1)
          have hcur : u64 (p + a * b + carry) = p + a * b + carry := Nat.mod_eq_of_lt (by omega)
          have hnext : (p + a * b + carry) / 2 ^ 32 < 2 ^ 32 := by omega
          obtain ⟨out, hout, hlength, hlimbs, hvalue⟩ := ih (Nat.succ.inj len) hprod.2 hbs.2 hnext
          refine ⟨(p + a * b + carry) % 2 ^ 32 :: out, ?_, ?_, ?_, ?_⟩
          · rw [List.cons_append, mulRow, hcur, Nat.shiftRight_eq_div_pow, hout]
            rfl
          · rw [List.length_cons, List.length_cons, hlength]
          · exact Limbs.cons.mpr ⟨Nat.mod_lt _ (by norm_num), hlimbs⟩
          · rw [limbsValue_cons, limbsValue_cons, limbsValue_cons, hvalue]
            have hdiv := Nat.mod_add_div (p + a * b + carry) (2 ^ 32)
            generalize (p + a * b + carry) / 2 ^ 32 = quot at hdiv ⊢
            generalize (p + a * b + carry) % 2 ^ 32 = digit at hdiv ⊢
            calc digit + 2 ^ 32 * (limbsValue prod + a * limbsValue bs + quot)
                = digit + 2 ^ 32 * quot + 2 ^ 32 * (limbsValue prod + a * limbsValue bs) := by ring
              _ = p + 2 ^ 32 * limbsValue prod + a * (b + 2 ^ 32 * limbsValue bs) + carry := by
                  rw [hdiv]
                  ring

/-- The rows add up to the product. -/
theorem mulRows_spec {bs : List Nat} (hbs : Limbs bs) {as : List Nat} (has : Limbs as) {prod : List Nat}
    (len : prod.length = bs.length) (hprod : Limbs prod) (room : Nat) :
    Limbs (mulRows bs as (prod ++ List.replicate (as.length + room) 0)) ∧
      (mulRows bs as (prod ++ List.replicate (as.length + room) 0)).length =
        prod.length + (as.length + room) ∧
      limbsValue (mulRows bs as (prod ++ List.replicate (as.length + room) 0)) =
        limbsValue prod + limbsValue as * limbsValue bs := by
  induction as generalizing prod with
  | nil =>
      rw [mulRows, List.length_append, List.length_replicate, limbsValue_append, limbsValue, limbsValue,
        Nat.ofDigits_replicate_zero]
      refine ⟨Limbs.append.mpr ⟨hprod, fun limb hlimb => ?_⟩, rfl, by simp⟩
      rw [List.eq_of_mem_replicate hlimb]
      norm_num
  | cons a as ih =>
      rw [Limbs.cons] at has
      have hzeros : List.replicate ((a :: as).length + room) 0 =
          0 :: List.replicate (as.length + room) 0 := by
        rw [List.length_cons, Nat.add_right_comm, List.replicate_succ]
      obtain ⟨out, hout, hlength, hlimbs, hvalue⟩ :=
        mulRow_spec has.1 len hprod hbs (by norm_num : 0 < 2 ^ 32) (List.replicate (as.length + room) 0)
      rw [hzeros, mulRows, hout]
      cases out with
      | nil => cases hlength
      | cons low high =>
          rw [Limbs.cons] at hlimbs
          have hhigh : high.length = prod.length := Nat.succ.inj hlength
          obtain ⟨hrows, hrowslen, hrowsvalue⟩ := ih has.2 (hhigh.trans len) hlimbs.2
          rw [List.cons_append]
          dsimp only
          refine ⟨Limbs.cons.mpr ⟨hlimbs.1, hrows⟩, ?_, ?_⟩
          · rw [List.length_cons, hrowslen, hhigh, List.length_cons]
            omega
          · rw [limbsValue_cons, hrowsvalue, limbsValue_cons]
            rw [limbsValue_cons] at hvalue
            calc low + 2 ^ 32 * (limbsValue high + limbsValue as * limbsValue bs)
                = low + 2 ^ 32 * limbsValue high + 2 ^ 32 * (limbsValue as * limbsValue bs) := by ring
              _ = limbsValue prod + (a + 2 ^ 32 * limbsValue as) * limbsValue bs := by
                  rw [hvalue]
                  ring

/-- A digit of a sum, with the carry taken by the digits after it. -/
theorem fromLeBytes_carry {sum value last count : Nat} {out : List UInt8}
    (h : fromLeBytes out + 256 ^ count * last = value + sum >>> 8) :
    fromLeBytes (UInt8.ofNat sum :: out) + 256 ^ (count + 1) * last = sum + 256 * value := by
  have hdigit : (UInt8.ofNat sum).toNat = sum % 256 := UInt8.toNat_ofNat'
  have hdiv := Nat.mod_add_div sum 256
  rw [Nat.shiftRight_eq_div_pow, show (2 : Nat) ^ 8 = 256 from rfl] at h
  rw [fromLeBytes, hdigit, pow_succ]
  calc sum % 256 + 256 * fromLeBytes out + 256 ^ count * 256 * last
      = sum % 256 + 256 * (fromLeBytes out + 256 ^ count * last) := by ring
    _ = sum % 256 + 256 * (sum / 256) + 256 * value := by
        rw [h]
        ring
    _ = sum + 256 * value := by rw [hdiv]

/-- Addition of bytes, with what is carried out of the last. -/
theorem addBytes_spec {wide cs : List UInt8} (len : cs.length ≤ wide.length) {carry : Nat}
    (hcarry : carry < 2) : ∃ last, fromLeBytes (addBytes wide cs carry) + 256 ^ wide.length * last =
      fromLeBytes wide + fromLeBytes cs + carry := by
  induction wide generalizing cs carry with
  | nil =>
      obtain rfl : cs = [] := List.length_eq_zero_iff.mp (Nat.le_zero.mp len)
      exact ⟨carry, by simp [addBytes, fromLeBytes]⟩
  | cons w _ ih =>
      have hw := w.toNat_lt
      cases cs with
      | nil =>
          rw [addBytes]
          split_ifs with hpos
          · have hnext : (w.toNat + carry) >>> 8 < 2 := by
              rw [Nat.shiftRight_eq_div_pow]
              omega
            obtain ⟨last, hvalue⟩ := @ih [] (Nat.zero_le _) _ hnext
            refine ⟨last, (fromLeBytes_carry hvalue).trans ?_⟩
            rw [fromLeBytes, fromLeBytes]
            ring
          · refine ⟨0, ?_⟩
            rw [Nat.mul_zero, Nat.add_zero, Nat.eq_zero_of_not_pos hpos]
            rfl
      | cons c =>
          have hc := c.toNat_lt
          have hnext : (w.toNat + c.toNat + carry) >>> 8 < 2 := by
            rw [Nat.shiftRight_eq_div_pow]
            omega
          obtain ⟨last, hvalue⟩ := ih (Nat.le_of_succ_le_succ len) hnext
          refine ⟨last, (fromLeBytes_carry hvalue).trans ?_⟩
          rw [fromLeBytes, fromLeBytes]
          ring

/-- The limbs of a byte string stand for its number. -/
theorem leLimbs_spec (bytes : Bytes 32) :
    Limbs (leLimbs bytes) ∧ limbsValue (leLimbs bytes) = fromLeBytes bytes.val := by
  have hfit : ∀ part : List UInt8, part.length ≤ 4 → fromLeBytes part < 2 ^ 32 := fun part hpart =>
    (fromLeBytes_lt part).trans_le (Nat.pow_le_pow_right (by norm_num) hpart)
  have hall : ∀ (count : Nat) (bytes : List UInt8), bytes.length = 4 * count →
      limbsValue ((List.range count).map fun index => fromLeBytes ((bytes.drop (4 * index)).take 4)) =
        fromLeBytes bytes := by
    intro count
    induction count with
    | zero =>
        intro bytes hlength
        obtain rfl : bytes = [] := List.length_eq_zero_iff.mp hlength
        rfl
    | succ count ih =>
        intro bytes hlength
        have hfour : (bytes.take 4).length = 4 := by rw [List.length_take]; omega
        have hrest : (bytes.drop 4).length = 4 * count := by rw [List.length_drop]; omega
        have hshift : ∀ index, (bytes.drop (4 * (index + 1))).take 4 =
            ((bytes.drop 4).drop (4 * index)).take 4 := by
          intro index
          rw [List.drop_drop]
          congr 2
          ring
        rw [List.range_succ_eq_map, List.map_cons, List.map_map, limbsValue_cons]
        simp only [Function.comp_def, Nat.succ_eq_add_one, hshift]
        rw [ih _ hrest, Nat.mul_zero, List.drop_zero]
        conv_rhs => rw [← List.take_append_drop 4 bytes, fromLeBytes_append, hfour]
        norm_num
  refine ⟨fun limb hlimb => ?_, hall 8 bytes.val bytes.property⟩
  obtain ⟨index, -, rfl⟩ := List.mem_map.mp hlimb
  exact hfit _ (List.length_take_le _ _)

theorem length_leLimbs (bytes : Bytes 32) : (leLimbs bytes).length = 8 := by simp [leLimbs]

/-- The product of two scalars in 34 limbs. -/
theorem mulRows_leLimbs (a b : Bytes 32) :
    Limbs (mulRows (leLimbs b) (leLimbs a) (List.replicate 34 0)) ∧
      (mulRows (leLimbs b) (leLimbs a) (List.replicate 34 0)).length = 34 ∧
      limbsValue (mulRows (leLimbs b) (leLimbs a) (List.replicate 34 0)) =
        fromLeBytes a.val * fromLeBytes b.val := by
  obtain ⟨ha, havalue⟩ := leLimbs_spec a
  obtain ⟨hb, hbvalue⟩ := leLimbs_spec b
  have hzeros : Limbs (List.replicate 8 0) := by
    intro limb hlimb
    rw [List.eq_of_mem_replicate hlimb]
    norm_num
  have hlen : (List.replicate 8 0).length = (leLimbs b).length := by
    rw [length_leLimbs, List.length_replicate]
  have h := mulRows_spec hb ha hlen hzeros 18
  rw [length_leLimbs, List.replicate_append_replicate, List.length_replicate, havalue, hbvalue,
    limbsValue, limbsValue, Nat.ofDigits_replicate_zero, Nat.zero_add] at h
  exact h

/-- The sum in 144 bytes, before the reduction. -/
theorem fromLeBytes_addBytes_product (a b c : Bytes 32) :
    fromLeBytes (addBytes
      ((mulRows (leLimbs b) (leLimbs a) (List.replicate 34 0)).flatMap (toLeBytes 4) ++
      List.replicate 8 0) c.val 0) = fromLeBytes a.val * fromLeBytes b.val + fromLeBytes c.val := by
  obtain ⟨hprod, hprodlen, hprodvalue⟩ := mulRows_leLimbs a b
  have hflat : ∀ limbs : List Nat, (limbs.flatMap (toLeBytes 4)).length = 4 * limbs.length := by
    intro limbs
    induction limbs with
    | nil => rfl
    | cons _ _ ih =>
        rw [List.flatMap_cons, List.length_append, length_toLeBytes, ih, List.length_cons]
        ring
  have hwide : fromLeBytes
      ((mulRows (leLimbs b) (leLimbs a) (List.replicate 34 0)).flatMap (toLeBytes 4) ++
      List.replicate 8 0) = fromLeBytes a.val * fromLeBytes b.val := by
    have hzeros : fromLeBytes (List.replicate 8 0) = 0 := by decide
    rw [fromLeBytes_append, hzeros, Nat.mul_zero, Nat.add_zero, fromLeBytes_limbs hprod, hprodvalue]
  have hwidelen : ((mulRows (leLimbs b) (leLimbs a) (List.replicate 34 0)).flatMap (toLeBytes 4) ++
      List.replicate 8 0).length = 144 := by
    rw [List.length_append, hflat, hprodlen, List.length_replicate]
  generalize (mulRows (leLimbs b) (leLimbs a) (List.replicate 34 0)).flatMap (toLeBytes 4) ++
    List.replicate 8 0 = wide at hwide hwidelen ⊢
  have hlen : c.val.length ≤ wide.length := by
    rw [hwidelen, c.property]
    norm_num
  obtain ⟨last, hvalue⟩ := addBytes_spec hlen (by norm_num : 0 < 2)
  rw [hwidelen, hwide, Nat.add_zero] at hvalue
  -- the sum of a product of 512 bits and a scalar leaves no carry
  have hfits : fromLeBytes a.val * fromLeBytes b.val + fromLeBytes c.val < 256 ^ 144 := by
    have hbound : ∀ scalar : Bytes 32, fromLeBytes scalar.val < 256 ^ 32 := fun scalar => by
      have h := fromLeBytes_lt scalar.val
      rwa [scalar.property] at h
    have hmul := Nat.mul_lt_mul'' (hbound a) (hbound b)
    have hc := hbound c
    calc fromLeBytes a.val * fromLeBytes b.val + fromLeBytes c.val
        < 256 ^ 32 * 256 ^ 32 + 256 ^ 32 := Nat.add_lt_add hmul hc
      _ ≤ 256 ^ 144 := by norm_num
  have hlast : last = 0 := by
    by_contra hpos
    have hmul := Nat.mul_le_mul_left (256 ^ 144) (Nat.one_le_iff_ne_zero.mpr hpos)
    omega
  rwa [hlast, Nat.mul_zero, Nat.add_zero] at hvalue

/-- The combined operation multiplies, adds and reduces. -/
theorem fromLeBytes_mulAddModL (a b c : Bytes 32) : fromLeBytes (mulAddModL a b c).val =
    (fromLeBytes a.val * fromLeBytes b.val + fromLeBytes c.val) % orderL := by
  rw [mulAddModL, fromLeBytes_modL, fromLeBytes_addBytes_product]

/-- Scalars are reduced, combined and compared as numbers; the product in limbs and the sum
in bytes are the exact ones. -/
theorem scalar_arithmetic_exact :
    (∀ input : List UInt8, (modL input).val = toLeBytes 32 (fromLeBytes input % orderL)) ∧
    (∀ a b c : Bytes 32,
      (mulAddModL a b c).val =
        toLeBytes 32 ((fromLeBytes a.val * fromLeBytes b.val + fromLeBytes c.val) % orderL) ∧
      limbsValue (mulRows (leLimbs b) (leLimbs a) (List.replicate 34 0)) =
        fromLeBytes a.val * fromLeBytes b.val ∧
      fromLeBytes (addBytes
        ((mulRows (leLimbs b) (leLimbs a) (List.replicate 34 0)).flatMap (toLeBytes 4) ++
        List.replicate 8 0) c.val 0) = fromLeBytes a.val * fromLeBytes b.val + fromLeBytes c.val) ∧
    ∀ s : Bytes 32, bytesGeqL s = true ↔ orderL ≤ fromLeBytes s.val := by
  have hencoded : ∀ (bytes : Bytes 32) {n : Nat}, fromLeBytes bytes.val = n →
      bytes.val = toLeBytes 32 n := by
    rintro bytes n rfl
    have hback := toLeBytes_fromLeBytes bytes.val
    rw [bytes.property] at hback
    exact hback.symm
  exact ⟨fun input => hencoded _ (fromLeBytes_modL input),
    fun a b c => ⟨hencoded _ (fromLeBytes_mulAddModL a b c), (mulRows_leLimbs a b).2.2,
      fromLeBytes_addBytes_product a b c⟩, bytesGeqL_iff⟩

end Redoubt.Crypto.Ed25519
