import Redoubt.Crypto.PointCoding

/-!
# Field arithmetic without wrapping

Here the field operations are written with checked words: a sum, a difference, a product
or a cast whose exact value does not fit its word has no result.  Within the limb bound
every checked operation has one, the result of the wrapping operation, and it stands for
the operation of the field.
-/

namespace Redoubt.Crypto.Ed25519

open Redoubt.Foundation

/-- A value in a word of this width. -/
def word (bits value : Nat) : Option Nat := if value < 2 ^ bits then some value else none

/-- A difference of words. -/
def difference (left right : Nat) : Option Nat := if right ≤ left then some (left - right) else none

def addProduct (sum : Nat) (factors : Nat × Nat) : Option Nat := do
  let product ← word 128 (factors.1 * factors.2)
  word 128 (sum + product)

/-- A sum of products, added from the left in 128-bit words. -/
def sumOfProducts (terms : List (Nat × Nat)) : Option Nat := terms.foldlM addProduct 0

theorem word_bind {bits value : Nat} {α : Type} (fits : value < 2 ^ bits) (next : Nat → Option α) :
    (word bits value >>= next) = next value := by
  rw [word, if_pos fits]
  rfl

theorem difference_bind {left right : Nat} {α : Type} (le : right ≤ left) (next : Nat → Option α) :
    (difference left right >>= next) = next (left - right) := by
  rw [difference, if_pos le]
  rfl

/-- A few small products are summed without a carry out. -/
theorem foldlM_addProduct {terms : List (Nat × Nat)} (small : ∀ term ∈ terms, term.1 * term.2 < 2 ^ 109)
    {sum : Nat} (room : sum + terms.length * 2 ^ 109 < 2 ^ 128) :
    terms.foldlM addProduct sum = some (sum + (terms.map fun term => term.1 * term.2).sum) := by
  induction terms generalizing sum with
  | nil => rfl
  | cons term rest ih =>
      rw [List.forall_mem_cons] at small
      rw [List.length_cons] at room
      have hproduct : term.1 * term.2 < 2 ^ 128 := small.1.trans (by decide)
      have hsum : sum + term.1 * term.2 < 2 ^ 128 := by omega
      have hadd : addProduct sum term = some (sum + term.1 * term.2) := by
        rw [addProduct, word_bind hproduct, word, if_pos hsum]
      have hrest : sum + term.1 * term.2 + rest.length * 2 ^ 109 < 2 ^ 128 := by omega
      rw [List.foldlM_cons, hadd]
      refine (ih small.2 hrest).trans ?_
      rw [List.map_cons, List.sum_cons, Nat.add_assoc]

/-- The five products of a column. -/
theorem column_bind {α : Type} {p0 p1 p2 p3 p4 : Nat × Nat} (h0 : p0.1 * p0.2 < 2 ^ 109)
    (h1 : p1.1 * p1.2 < 2 ^ 109) (h2 : p2.1 * p2.2 < 2 ^ 109) (h3 : p3.1 * p3.2 < 2 ^ 109)
    (h4 : p4.1 * p4.2 < 2 ^ 109) (next : Nat → Option α) :
    (sumOfProducts [p0, p1, p2, p3, p4] >>= next) =
      next (p0.1 * p0.2 + p1.1 * p1.2 + p2.1 * p2.2 + p3.1 * p3.2 + p4.1 * p4.2) := by
  have hsmall : ∀ term ∈ [p0, p1, p2, p3, p4], term.1 * term.2 < 2 ^ 109 := by
    simp only [List.forall_mem_cons]
    exact ⟨h0, h1, h2, h3, h4, nofun⟩
  rw [sumOfProducts, foldlM_addProduct hsmall (by decide : 0 + 5 * 2 ^ 109 < 2 ^ 128)]
  simp only [List.map_cons, List.map_nil, List.sum_cons, List.sum_nil, Nat.add_zero, Nat.zero_add,
    Nat.add_assoc]
  rfl

namespace Fe

def weakReduceChecked (x : Fe) : Option Fe := do
  let l1 ← word 64 (x.l1 + x.l0 >>> 51)
  let l2 ← word 64 (x.l2 + l1 >>> 51)
  let l3 ← word 64 (x.l3 + l2 >>> 51)
  let l4 ← word 64 (x.l4 + l3 >>> 51)
  let c ← word 64 ((l4 >>> 51) * 19)
  let l0 ← word 64 ((x.l0 &&& mask51) + c)
  return ⟨l0, l1 &&& mask51, l2 &&& mask51, l3 &&& mask51, l4 &&& mask51⟩

def addChecked (x y : Fe) : Option Fe := do
  let r0 ← word 64 (x.l0 + y.l0)
  let r1 ← word 64 (x.l1 + y.l1)
  let r2 ← word 64 (x.l2 + y.l2)
  let r3 ← word 64 (x.l3 + y.l3)
  let r4 ← word 64 (x.l4 + y.l4)
  weakReduceChecked ⟨r0, r1, r2, r3, r4⟩

/-- One limb of a difference, with twice the prime added first. -/
def subLimb (left twice right : Nat) : Option Nat := do
  let sum ← word 64 (left + twice)
  difference sum right

def subChecked (x y : Fe) : Option Fe := do
  let a ← x.weakReduceChecked
  let b ← y.weakReduceChecked
  let r0 ← subLimb a.l0 (2 * (mask51 - 18)) b.l0
  let r1 ← subLimb a.l1 (2 * mask51) b.l1
  let r2 ← subLimb a.l2 (2 * mask51) b.l2
  let r3 ← subLimb a.l3 (2 * mask51) b.l3
  let r4 ← subLimb a.l4 (2 * mask51) b.l4
  weakReduceChecked ⟨r0, r1, r2, r3, r4⟩

def negChecked (x : Fe) : Option Fe := zero.subChecked x

def mulChecked (x y : Fe) : Option Fe := do
  let a ← x.weakReduceChecked
  let b ← y.weakReduceChecked
  let b1 ← word 128 (b.l1 * 19)
  let b2 ← word 128 (b.l2 * 19)
  let b3 ← word 128 (b.l3 * 19)
  let b4 ← word 128 (b.l4 * 19)
  let r0 ← sumOfProducts [(a.l0, b.l0), (a.l1, b4), (a.l2, b3), (a.l3, b2), (a.l4, b1)]
  let r1 ← sumOfProducts [(a.l0, b.l1), (a.l1, b.l0), (a.l2, b4), (a.l3, b3), (a.l4, b2)]
  let r2 ← sumOfProducts [(a.l0, b.l2), (a.l1, b.l1), (a.l2, b.l0), (a.l3, b4), (a.l4, b3)]
  let r3 ← sumOfProducts [(a.l0, b.l3), (a.l1, b.l2), (a.l2, b.l1), (a.l3, b.l0), (a.l4, b4)]
  let r4 ← sumOfProducts [(a.l0, b.l4), (a.l1, b.l3), (a.l2, b.l2), (a.l3, b.l1), (a.l4, b.l0)]
  let c0 ← word 64 (r0 >>> 51)
  let t1 ← word 128 (r1 + c0)
  let c1 ← word 64 (t1 >>> 51)
  let t2 ← word 128 (r2 + c1)
  let c2 ← word 64 (t2 >>> 51)
  let t3 ← word 128 (r3 + c2)
  let c3 ← word 64 (t3 >>> 51)
  let t4 ← word 128 (r4 + c3)
  let c4 ← word 64 (t4 >>> 51)
  let back ← word 128 (c4 * 19)
  let t0 ← word 128 ((r0 &&& mask51) + back)
  let c ← word 64 (t0 >>> 51)
  let t1 ← word 128 ((t1 &&& mask51) + c)
  let l0 ← word 64 (t0 &&& mask51)
  let l1 ← word 64 t1
  let l2 ← word 64 (t2 &&& mask51)
  let l3 ← word 64 (t3 &&& mask51)
  let l4 ← word 64 (t4 &&& mask51)
  return ⟨l0, l1, l2, l3, l4⟩

def squareChecked (x : Fe) : Option Fe := x.mulChecked x

def powStepChecked (x result : Fe) (bit : Bool) : Option Fe := do
  let square ← result.squareChecked
  if bit then square.mulChecked x else some square

def powBytesExpChecked (x : Fe) (exp : Bytes 32) : Option Fe :=
  (bitsMsbFirst exp.val).foldlM x.powStepChecked one

def invertChecked (x : Fe) : Option Fe := x.powBytesExpChecked (expPMinus 2)

/-! ### Nothing wraps -/

theorem weakReduceChecked_eq {x : Fe} (h : x.Below (2 ^ 56)) :
    x.weakReduceChecked = some x.weakReduce := by
  obtain ⟨h0, h1, h2, h3, h4⟩ := h
  unfold weakReduceChecked weakReduce
  simp only [Nat.shiftRight_eq_div_pow, and_mask51]
  have hl1 : x.l1 + x.l0 / 2 ^ 51 < 2 ^ 64 := by omega
  rw [word_bind hl1, u64_of_lt hl1]
  generalize hc1 : x.l1 + x.l0 / 2 ^ 51 = c1
  have hl2 : x.l2 + c1 / 2 ^ 51 < 2 ^ 64 := by omega
  rw [word_bind hl2, u64_of_lt hl2]
  generalize hc2 : x.l2 + c1 / 2 ^ 51 = c2
  have hl3 : x.l3 + c2 / 2 ^ 51 < 2 ^ 64 := by omega
  rw [word_bind hl3, u64_of_lt hl3]
  generalize hc3 : x.l3 + c2 / 2 ^ 51 = c3
  have hl4 : x.l4 + c3 / 2 ^ 51 < 2 ^ 64 := by omega
  rw [word_bind hl4, u64_of_lt hl4]
  generalize hc4 : x.l4 + c3 / 2 ^ 51 = c4
  have hback : c4 / 2 ^ 51 * 19 < 2 ^ 64 := by omega
  have hl0 : x.l0 % 2 ^ 51 + c4 / 2 ^ 51 * 19 < 2 ^ 64 := by omega
  rw [word_bind hback, word_bind hl0, u64_of_lt hback, u64_of_lt hl0]
  rfl

theorem weakReduceChecked_bind {x : Fe} {α : Type} (h : x.Bounded) (next : Fe → Option α) :
    (x.weakReduceChecked >>= next) = next x.weakReduce := by
  rw [weakReduceChecked_eq (h.mono (by decide))]
  rfl

theorem addChecked_eq {x y : Fe} (hx : x.Bounded) (hy : y.Bounded) : x.addChecked y = some (x.add y) := by
  obtain ⟨hx0, hx1, hx2, hx3, hx4⟩ := hx
  obtain ⟨hy0, hy1, hy2, hy3, hy4⟩ := hy
  have h0 : x.l0 + y.l0 < 2 ^ 53 := by omega
  have h1 : x.l1 + y.l1 < 2 ^ 53 := by omega
  have h2 : x.l2 + y.l2 < 2 ^ 53 := by omega
  have h3 : x.l3 + y.l3 < 2 ^ 53 := by omega
  have h4 : x.l4 + y.l4 < 2 ^ 53 := by omega
  have hword : 2 ^ 53 ≤ 2 ^ 64 := by decide
  unfold addChecked add
  rw [word_bind (h0.trans_le hword), word_bind (h1.trans_le hword), word_bind (h2.trans_le hword),
    word_bind (h3.trans_le hword), word_bind (h4.trans_le hword), u64_of_lt (h0.trans_le hword),
    u64_of_lt (h1.trans_le hword), u64_of_lt (h2.trans_le hword), u64_of_lt (h3.trans_le hword),
    u64_of_lt (h4.trans_le hword)]
  have hsum : Below (2 ^ 53) ⟨x.l0 + y.l0, x.l1 + y.l1, x.l2 + y.l2, x.l3 + y.l3, x.l4 + y.l4⟩ :=
    ⟨h0, h1, h2, h3, h4⟩
  exact weakReduceChecked_eq (hsum.mono (by decide))

/-- Twice the prime covers what is subtracted. -/
theorem subLimb_bind {left twice right : Nat} {α : Type} (hleft : left < 2 ^ 52)
    (hright : right ≤ twice) (htwice : twice ≤ 2 * mask51) (next : Nat → Option α) :
    (subLimb left twice right >>= next) = next (subWord (u64 (left + twice)) right) := by
  have hfits : left + twice < 2 ^ 64 := by
    unfold mask51 at htwice
    omega
  have hle : right ≤ left + twice := by omega
  rw [subLimb, word_bind hfits, difference_bind hle, u64_of_lt hfits, subWord_of_le hle hfits]

theorem subWord_lt {left twice right : Nat} (hleft : left < 2 ^ 52) (hright : right ≤ twice)
    (htwice : twice ≤ 2 * mask51) : subWord (u64 (left + twice)) right < 2 ^ 56 := by
  unfold mask51 at htwice
  rw [u64_of_lt (by omega), subWord_of_le (by omega) (by omega)]
  omega

theorem subChecked_eq {x y : Fe} (hx : x.Bounded) (hy : y.Bounded) : x.subChecked y = some (x.sub y) := by
  have ha := hx.weakReduce
  have hb := hy.weakReduce
  unfold subChecked sub
  rw [weakReduceChecked_bind hx, weakReduceChecked_bind hy]
  dsimp only
  generalize x.weakReduce = a at *
  generalize y.weakReduce = b at *
  obtain ⟨ha0, ha1, ha2, ha3, ha4⟩ := ha
  obtain ⟨hb0, hb1, hb2, hb3, hb4⟩ := hb
  have hmask : mask51 = 2 ^ 51 - 1 := rfl
  rw [subLimb_bind (by omega) (by omega) (by omega), subLimb_bind (by omega) (by omega) (by omega),
    subLimb_bind (by omega) (by omega) (by omega), subLimb_bind (by omega) (by omega) (by omega),
    subLimb_bind (by omega) (by omega) (by omega)]
  exact weakReduceChecked_eq ⟨subWord_lt (by omega) (by omega) (by omega),
    subWord_lt (by omega) (by omega) (by omega), subWord_lt (by omega) (by omega) (by omega),
    subWord_lt (by omega) (by omega) (by omega), subWord_lt (by omega) (by omega) (by omega)⟩

theorem mulChecked_eq {x y : Fe} (hx : x.Bounded) (hy : y.Bounded) : x.mulChecked y = some (x.mul y) := by
  have ha := hx.weakReduce.mono (by decide : 2 ^ 51 + 2 ^ 10 ≤ 2 ^ 52)
  have hb := hy.weakReduce.mono (by decide : 2 ^ 51 + 2 ^ 10 ≤ 2 ^ 52)
  unfold mulChecked mul
  rw [weakReduceChecked_bind hx, weakReduceChecked_bind hy]
  dsimp only
  generalize x.weakReduce = a at *
  generalize y.weakReduce = b at *
  obtain ⟨ha0, ha1, ha2, ha3, ha4⟩ := ha
  obtain ⟨hb0, hb1, hb2, hb3, hb4⟩ := hb
  have hone := @mul_lt_of_lt
  have hback := @mul_nineteen_lt
  rw [word_bind (by omega), word_bind (by omega), word_bind (by omega), word_bind (by omega),
    column_bind (hone ha0 hb0) (hback ha1 hb4) (hback ha2 hb3) (hback ha3 hb2) (hback ha4 hb1),
    column_bind (hone ha0 hb1) (hone ha1 hb0) (hback ha2 hb4) (hback ha3 hb3) (hback ha4 hb2),
    column_bind (hone ha0 hb2) (hone ha1 hb1) (hone ha2 hb0) (hback ha3 hb4) (hback ha4 hb3),
    column_bind (hone ha0 hb3) (hone ha1 hb2) (hone ha2 hb1) (hone ha3 hb0) (hback ha4 hb4),
    column_bind (hone ha0 hb4) (hone ha1 hb3) (hone ha2 hb2) (hone ha3 hb1) (hone ha4 hb0)]
  have hr0 := column_lt (hone ha0 hb0) (hback ha1 hb4) (hback ha2 hb3) (hback ha3 hb2) (hback ha4 hb1)
  have hr1 := column_lt (hone ha0 hb1) (hone ha1 hb0) (hback ha2 hb4) (hback ha3 hb3) (hback ha4 hb2)
  have hr2 := column_lt (hone ha0 hb2) (hone ha1 hb1) (hone ha2 hb0) (hback ha3 hb4) (hback ha4 hb3)
  have hr3 := column_lt (hone ha0 hb3) (hone ha1 hb2) (hone ha2 hb1) (hone ha3 hb0) (hback ha4 hb4)
  have hr4 := column_lt (hone ha0 hb4) (hone ha1 hb3) (hone ha2 hb2) (hone ha3 hb1) (hone ha4 hb0)
  dsimp only
  generalize a.l0 * b.l0 + a.l1 * (b.l4 * 19) + a.l2 * (b.l3 * 19) + a.l3 * (b.l2 * 19) +
    a.l4 * (b.l1 * 19) = r0 at hr0 ⊢
  generalize a.l0 * b.l1 + a.l1 * b.l0 + a.l2 * (b.l4 * 19) + a.l3 * (b.l3 * 19) +
    a.l4 * (b.l2 * 19) = r1 at hr1 ⊢
  generalize a.l0 * b.l2 + a.l1 * b.l1 + a.l2 * b.l0 + a.l3 * (b.l4 * 19) + a.l4 * (b.l3 * 19) =
    r2 at hr2 ⊢
  generalize a.l0 * b.l3 + a.l1 * b.l2 + a.l2 * b.l1 + a.l3 * b.l0 + a.l4 * (b.l4 * 19) = r3 at hr3 ⊢
  generalize a.l0 * b.l4 + a.l1 * b.l3 + a.l2 * b.l2 + a.l3 * b.l1 + a.l4 * b.l0 = r4 at hr4 ⊢
  clear ha0 ha1 ha2 ha3 ha4 hb0 hb1 hb2 hb3 hb4 hone hback hx hy
  simp only [Nat.shiftRight_eq_div_pow, and_mask51]
  rw [u128_of_lt (hr0.trans (by decide)), u128_of_lt (hr1.trans (by decide)),
    u128_of_lt (hr2.trans (by decide)),
    u128_of_lt (hr3.trans (by decide)), u128_of_lt (hr4.trans (by decide))]
  have hc0 : r0 / 2 ^ 51 < 2 ^ 64 := by omega
  have hs1 : r1 + r0 / 2 ^ 51 < 2 ^ 113 := by omega
  rw [word_bind hc0, u64_of_lt hc0, word_bind (hs1.trans (by decide)), u128_of_lt (hs1.trans (by decide))]
  generalize r1 + r0 / 2 ^ 51 = t1 at hs1 ⊢
  have hc1 : t1 / 2 ^ 51 < 2 ^ 64 := by omega
  have hs2 : r2 + t1 / 2 ^ 51 < 2 ^ 113 := by omega
  rw [word_bind hc1, u64_of_lt hc1, word_bind (hs2.trans (by decide)), u128_of_lt (hs2.trans (by decide))]
  generalize r2 + t1 / 2 ^ 51 = t2 at hs2 ⊢
  have hc2 : t2 / 2 ^ 51 < 2 ^ 64 := by omega
  have hs3 : r3 + t2 / 2 ^ 51 < 2 ^ 113 := by omega
  rw [word_bind hc2, u64_of_lt hc2, word_bind (hs3.trans (by decide)), u128_of_lt (hs3.trans (by decide))]
  generalize r3 + t2 / 2 ^ 51 = t3 at hs3 ⊢
  have hc3 : t3 / 2 ^ 51 < 2 ^ 64 := by omega
  have hs4 : r4 + t3 / 2 ^ 51 < 2 ^ 113 := by omega
  rw [word_bind hc3, u64_of_lt hc3, word_bind (hs4.trans (by decide)), u128_of_lt (hs4.trans (by decide))]
  generalize r4 + t3 / 2 ^ 51 = t4 at hs4 ⊢
  have hc4 : t4 / 2 ^ 51 < 2 ^ 64 := by omega
  have hs0 : r0 % 2 ^ 51 + t4 / 2 ^ 51 * 19 < 2 ^ 68 := by omega
  rw [word_bind hc4, u64_of_lt hc4, word_bind (by omega), word_bind (hs0.trans (by decide)),
    u128_of_lt (hs0.trans (by decide))]
  generalize r0 % 2 ^ 51 + t4 / 2 ^ 51 * 19 = t0 at hs0 ⊢
  have hc : t0 / 2 ^ 51 < 2 ^ 64 := by omega
  have hl1 : t1 % 2 ^ 51 + t0 / 2 ^ 51 < 2 ^ 64 := by omega
  have hmask : ∀ limb : Nat, limb % 2 ^ 51 < 2 ^ 64 := fun limb =>
    (Nat.mod_lt limb (by decide)).trans (by decide)
  rw [word_bind hc, u64_of_lt hc, word_bind (hl1.trans (by decide)), u128_of_lt (hl1.trans (by decide)),
    word_bind (hmask t0), word_bind hl1, word_bind (hmask t2), word_bind (hmask t3), word_bind (hmask t4),
    u64_of_lt (hmask t0), u64_of_lt hl1, u64_of_lt (hmask t2), u64_of_lt (hmask t3), u64_of_lt (hmask t4)]
  rfl

theorem squareChecked_eq {x : Fe} (hx : x.Bounded) : x.squareChecked = some x.square :=
  mulChecked_eq hx hx

theorem powBytesExpChecked_eq {x : Fe} (hx : x.Bounded) (exp : Bytes 32) :
    x.powBytesExpChecked exp = some (x.powBytesExp exp) := by
  have hfold : ∀ (bits : List Bool) {result : Fe}, result.Bounded →
      bits.foldlM x.powStepChecked result = some (bits.foldl
        (fun result bit => if bit then result.square.mul x else result.square) result) := by
    intro bits
    induction bits with
    | nil => exact fun _ => rfl
    | cons bit rest ih =>
        intro result hresult
        have hsquare : result.square.Bounded := (mul_spec hresult hresult).1
        rw [List.foldlM_cons, List.foldl_cons, powStepChecked, squareChecked_eq hresult,
          Option.bind_eq_bind, Option.bind_some]
        cases bit with
        | false => exact ih hsquare
        | true =>
            rw [if_pos rfl, if_pos rfl, mulChecked_eq hsquare hx]
            exact ih (mul_spec hsquare hx).1
  exact hfold _ Is.one.1

theorem residue_mod (x : Fe) : ((x.value % prime : Nat) : ZMod prime) = x.residue := ZMod.natCast_mod _ _

theorem mod_prime_lt (n : Nat) : n % prime < prime := Nat.mod_lt _ prime_prime.pos

/-- A checked computation with its result: the wrapping operation gives the same element,
within the limb bound, and it stands for this residue. -/
structure Exact (run : Option Fe) (result : Fe) (residue : ZMod prime) : Prop where
  succeeds : run = some result
  bounded : result.Bounded
  value : result.residue = residue

theorem Is.exact {x : Fe} {n : Nat} {run : Option Fe} {residue : ZMod prime} (h : x.Is n)
    (succeeds : run = some x) (value : (n : ZMod prime) = residue) : Exact run x residue :=
  ⟨succeeds, h.1, h.residue.trans value⟩

section Operands

variable {x y : Fe}

theorem Bounded.exact_add (hx : x.Bounded) (hy : y.Bounded) :
    Exact (x.addChecked y) (x.add y) (x.residue + y.residue) := by
  refine (hx.is.add hy.is).exact (addChecked_eq hx hy) ?_
  rw [Residue.cast_add, residue_mod, residue_mod]

theorem Bounded.exact_sub (hx : x.Bounded) (hy : y.Bounded) :
    Exact (x.subChecked y) (x.sub y) (x.residue - y.residue) := by
  refine (hx.is.sub hy.is).exact (subChecked_eq hx hy) ?_
  rw [Residue.cast_sub (mod_prime_lt _).le, residue_mod, residue_mod]

theorem Bounded.exact_mul (hx : x.Bounded) (hy : y.Bounded) :
    Exact (x.mulChecked y) (x.mul y) (x.residue * y.residue) := by
  refine (hx.is.mul hy.is).exact (mulChecked_eq hx hy) ?_
  rw [Residue.cast_mul, residue_mod, residue_mod]

theorem Bounded.exact_pow (hx : x.Bounded) (exp : Bytes 32) :
    Exact (x.powBytesExpChecked exp) (x.powBytesExp exp) (x.residue ^ fromLeBytes exp.val) := by
  refine (hx.is.pow exp).exact (powBytesExpChecked_eq hx exp) ?_
  rw [Residue.cast_pow, residue_mod]

theorem Bounded.exact_weakReduce (hx : x.Bounded) : Exact x.weakReduceChecked x.weakReduce x.residue where
  succeeds := weakReduceChecked_eq (hx.mono (by decide))
  bounded := hx.weakReduce.mono (by decide)
  value := by
    rw [← residue_mod x.weakReduce, weakReduce_value (hx.mono (by decide)), residue_mod]

end Operands

/-- The limb bound holds for the constants and for every decoded element, and all
operations keep it; within it nothing overflows and each result is the one of the field. -/
theorem field_arithmetic_exact :
    (zero.Bounded ∧ zero.residue = 0) ∧ (one.Bounded ∧ one.residue = 1) ∧
    (∀ value < 2 ^ 64, (fromU64 value).Bounded ∧ (fromU64 value).residue = value) ∧
    (∀ b : Bytes 32, (fromBytes b).Bounded ∧
      (fromBytes b).residue = (fromLeBytes b.val % 2 ^ 255 : Nat)) ∧
    (∀ x y : Fe, x.Bounded → y.Bounded → Exact (x.addChecked y) (x.add y) (x.residue + y.residue) ∧
      Exact (x.subChecked y) (x.sub y) (x.residue - y.residue) ∧
      Exact (x.mulChecked y) (x.mul y) (x.residue * y.residue)) ∧
    ∀ x : Fe, x.Bounded → Exact x.weakReduceChecked x.weakReduce x.residue ∧
      Exact x.negChecked x.neg (-x.residue) ∧ Exact x.squareChecked x.square (x.residue ^ 2) ∧
      (∀ exp : Bytes 32,
        Exact (x.powBytesExpChecked exp) (x.powBytesExp exp) (x.residue ^ fromLeBytes exp.val)) ∧
      (x.residue ≠ 0 → Exact x.invertChecked x.invert x.residue⁻¹) := by
  have hzero : zero.residue = 0 := Is.zero.residue.trans Nat.cast_zero
  refine ⟨⟨Is.zero.1, hzero⟩, ⟨Is.one.1, Is.one.residue.trans Nat.cast_one⟩, fun value small => ?_,
    fun b => ?_, fun x y hx hy => ⟨hx.exact_add hy, hx.exact_sub hy, hx.exact_mul hy⟩,
    fun x hx => ⟨hx.exact_weakReduce, ?_, ?_, hx.exact_pow, fun hne => ?_⟩⟩
  · obtain ⟨hbounded, hvalue⟩ := fromU64_spec small
    exact ⟨hbounded, congrArg Nat.cast hvalue⟩
  · obtain ⟨hbounded, hvalue⟩ := fromBytes_spec b
    exact ⟨hbounded, congrArg Nat.cast hvalue⟩
  · have hsub := Is.zero.1.exact_sub hx
    rwa [hzero, zero_sub] at hsub
  · rw [pow_two]
    exact hx.exact_mul hx
  · -- the exponent is the one of Fermat's little theorem
    have hpow := hx.exact_pow (expPMinus 2)
    have hfermat : x.residue ^ (prime - 2) = x.residue⁻¹ := by
      apply eq_inv_of_mul_eq_one_left
      rw [← pow_succ]
      exact ZMod.pow_card_sub_one_eq_one hne
    rwa [fromLeBytes_invertExp, hfermat] at hpow

/-- The inverse of two, and minus two. -/
theorem field_arithmetic_exact_two :
    Exact (fromU64 2).invertChecked (fromU64 2).invert (2 : ZMod prime)⁻¹ ∧
      Exact (fromU64 2).negChecked (fromU64 2).neg (-2) := by
  obtain ⟨-, -, hsmall, -, -, hunary⟩ := field_arithmetic_exact
  obtain ⟨hbounded, hresidue⟩ := hsmall 2 (by decide)
  have htwo : (fromU64 2).residue = 2 := hresidue.trans Nat.cast_ofNat
  obtain ⟨-, hneg, -, -, hinvert⟩ := hunary (fromU64 2) hbounded
  rw [htwo] at hneg hinvert
  exact ⟨hinvert curve.two_ne, hneg⟩

/-! ### The encoding -/

def foldCarriesChecked (x : Fe) : Option Fe := do
  let c ← word 64 ((x.l4 >>> 51) * 19)
  let l0 ← word 64 (x.l0 + c)
  let l1 ← word 64 (x.l1 + l0 >>> 51)
  let l2 ← word 64 (x.l2 + l1 >>> 51)
  let l3 ← word 64 (x.l3 + l2 >>> 51)
  let l4 ← word 64 ((x.l4 &&& mask51) + l3 >>> 51)
  return ⟨l0 &&& mask51, l1 &&& mask51, l2 &&& mask51, l3 &&& mask51, l4⟩

/-- The loop of the encoding; without a result when it is not over after this many passes. -/
def foldLoopChecked : Nat → Fe → Option Fe
  | 0, x => if x.anyAbove then none else some x
  | passes + 1, x =>
      if x.anyAbove then do
        let next ← x.foldCarriesChecked
        foldLoopChecked passes next
      else some x

theorem foldCarriesChecked_eq {x : Fe} (h : x.Bounded) : x.foldCarriesChecked = some x.foldCarries := by
  obtain ⟨h0, h1, h2, h3, h4⟩ := h
  unfold foldCarriesChecked foldCarries
  simp only [Nat.shiftRight_eq_div_pow, and_mask51]
  have hback : x.l4 / 2 ^ 51 * 19 < 2 ^ 64 := by omega
  have hl0 : x.l0 + x.l4 / 2 ^ 51 * 19 < 2 ^ 64 := by omega
  rw [word_bind hback, u64_of_lt hback, word_bind hl0, u64_of_lt hl0]
  generalize hc0 : x.l0 + x.l4 / 2 ^ 51 * 19 = c0
  have hl1 : x.l1 + c0 / 2 ^ 51 < 2 ^ 64 := by omega
  rw [word_bind hl1, u64_of_lt hl1]
  generalize hc1 : x.l1 + c0 / 2 ^ 51 = c1
  have hl2 : x.l2 + c1 / 2 ^ 51 < 2 ^ 64 := by omega
  rw [word_bind hl2, u64_of_lt hl2]
  generalize hc2 : x.l2 + c1 / 2 ^ 51 = c2
  have hl3 : x.l3 + c2 / 2 ^ 51 < 2 ^ 64 := by omega
  rw [word_bind hl3, u64_of_lt hl3]
  generalize hc3 : x.l3 + c2 / 2 ^ 51 = c3
  have hl4 : x.l4 % 2 ^ 51 + c3 / 2 ^ 51 < 2 ^ 64 := by omega
  rw [word_bind hl4, u64_of_lt hl4]
  rfl

theorem Bounded.foldCarries {x : Fe} (h : x.Bounded) : x.foldCarries.Bounded := by
  obtain ⟨h0, h1, h2, h3, h4, -⟩ := foldCarries_spec h
  exact ⟨by omega, by omega, by omega, by omega, by omega⟩

theorem foldLoopChecked_eq {passes : Nat} {x : Fe} (h : x.Bounded)
    (settled : (foldLoop passes x).anyAbove = false) :
    foldLoopChecked passes x = some (foldLoop passes x) := by
  induction passes generalizing x with
  | zero =>
      rw [foldLoop] at settled
      rw [foldLoopChecked, foldLoop, if_neg (by rw [settled]; exact Bool.false_ne_true)]
  | succ passes ih =>
      rw [foldLoop] at settled ⊢
      rw [foldLoopChecked]
      split_ifs at settled ⊢ with habove
      · rw [foldCarriesChecked_eq h]
        exact ih h.foldCarries settled
      · rfl

/-- More passes change nothing when the loop is settled. -/
theorem foldLoop_add {passes : Nat} {x : Fe} (settled : (foldLoop passes x).anyAbove = false)
    (more : Nat) :
    foldLoop (passes + more) x = foldLoop passes x := by
  induction passes generalizing x with
  | zero =>
      rw [foldLoop] at settled ⊢
      cases more with
      | zero => rw [foldLoop]
      | succ => rw [Nat.zero_add, foldLoop, if_neg (by rw [settled]; exact Bool.false_ne_true)]
  | succ passes ih =>
      rw [Nat.add_right_comm, foldLoop]
      rw [foldLoop] at settled ⊢
      split_ifs at settled ⊢ with habove
      · exact ih settled
      · rfl

/-- The carry loop is over after two passes, without an overflow. -/
theorem foldLoopChecked_ends {x : Fe} (h : x.Bounded) (more : Nat) :
    foldLoopChecked (2 + more) x = some (foldLoop 16 x) := by
  have hover : (foldLoop 2 x).anyAbove = false := anyAbove_eq_false.mpr (foldLoop_spec 0 h).1
  have hmore := foldLoop_add hover more
  have hlast : foldLoop 16 x = foldLoop 2 x := foldLoop_add hover 14
  rw [foldLoopChecked_eq h (by rw [hmore, hover]), hmore, hlast]

theorem fromLeBytes_residue (n : Nat) : fromLeBytes (toLeBytes 32 (n % prime)) = n % prime := by
  have hfits : prime < 256 ^ 32 := by decide +kernel
  rw [fromLeBytes_toLeBytes, Nat.mod_eq_of_lt ((mod_prime_lt n).trans hfits)]

/-- Two elements have one encoding when they stand for one residue. -/
theorem toBytes_eq_iff {x y : Fe} (hx : x.Bounded) (hy : y.Bounded) :
    x.toBytes = y.toBytes ↔ x.residue = y.residue := by
  rw [Subtype.ext_iff, toBytes_spec hx, toBytes_spec hy, ← residue_mod x, ← residue_mod y,
    Residue.cast_inj (mod_prime_lt _) (mod_prime_lt _)]
  constructor
  · intro h
    have hvalue := congrArg fromLeBytes h
    rwa [fromLeBytes_residue, fromLeBytes_residue] at hvalue
  · exact congrArg (toLeBytes 32)

/-- The encoding of the limbs is the one of the residue in `0, …, p - 1`. -/
theorem canonical_field_encoding :
    (∀ x : Fe, x.Bounded →
      (∀ more, foldLoopChecked (2 + more) x = some (foldLoop 16 x)) ∧
      x.toBytes.val = toLeBytes 32 (x.value % prime) ∧ fromLeBytes x.toBytes.val = x.value % prime ∧
      (x.isZero = true ↔ x.residue = 0) ∧ (x.isNegative = true ↔ x.value % prime % 2 = 1) ∧
      ∀ y : Fe, y.Bounded → (x.toBytes = y.toBytes ↔ x.residue = y.residue) ∧
        (x.eq y = true ↔ x.residue = y.residue)) ∧
    ∀ b : Bytes 32, (fromBytes b).toBytes = b ↔ fromLeBytes b.val < prime := by
  refine ⟨fun x hx => ⟨foldLoopChecked_ends hx, toBytes_spec hx, ?_, ?_, ?_,
    fun y hy => ⟨toBytes_eq_iff hx hy, ?_⟩⟩, fun b => ?_⟩
  · rw [toBytes_spec hx, fromLeBytes_residue]
  · rw [hx.is.isZero, Residue.isZero_iff (mod_prime_lt _), ← residue_mod x,
      ← Residue.cast_inj (mod_prime_lt _) prime_prime.pos, Nat.cast_zero]
  · rw [hx.is.isNegative, Residue.isNegative_eq, decide_eq_true_eq]
  · rw [hx.is.eq hy.is, Residue.eq_iff (mod_prime_lt _), residue_mod, residue_mod]
  · obtain ⟨hbounded, hvalue⟩ := fromBytes_spec b
    rw [Subtype.ext_iff, toBytes_spec hbounded, hvalue]
    constructor
    · intro h
      have hback := congrArg fromLeBytes h
      rw [fromLeBytes_residue] at hback
      rw [← hback]
      exact mod_prime_lt _
    · intro h
      rw [Nat.mod_eq_of_lt (h.trans (by decide +kernel)), Nat.mod_eq_of_lt h]
      have hback := toLeBytes_fromLeBytes b.val
      rwa [b.property] at hback

/-- The prime itself decodes to zero and is not encoded again. -/
theorem canonical_field_encoding_prime :
    (fromBytes ⟨toLeBytes 32 prime, length_toLeBytes 32 prime⟩).isZero = true ∧
      (fromBytes ⟨toLeBytes 32 prime, length_toLeBytes 32 prime⟩).toBytes ≠
        ⟨toLeBytes 32 prime, length_toLeBytes 32 prime⟩ := by
  obtain ⟨hencode, hback⟩ := canonical_field_encoding
  have hprime : fromLeBytes (toLeBytes 32 prime) = prime := by decide +kernel
  obtain ⟨hbounded, hvalue⟩ := fromBytes_spec ⟨toLeBytes 32 prime, length_toLeBytes 32 prime⟩
  rw [hprime] at hvalue
  constructor
  · refine (hencode _ hbounded).2.2.2.1.mpr ?_
    rw [residue, hvalue, Nat.mod_eq_of_lt (by decide +kernel), ZMod.natCast_self]
  · rw [Ne, hback, hprime]
    exact Nat.lt_irrefl prime

end Fe

end Redoubt.Crypto.Ed25519
