import Mathlib.NumberTheory.LucasPrimality

/-!
# Certificates of primality

A number is prime when some base has order exactly `n - 1` modulo `n`.  A certificate
lists numbers with such a base and the prime factors of `n - 1`; a factor is an earlier
number of the list or small enough for trial division.  The check evaluates in the kernel.
-/

namespace Redoubt.Foundation

/-- The power `base ^ exp` modulo `n` for an exponent of at most this many bits. -/
def powMod (n : Nat) : Nat → Nat → Nat → Nat
  | 0, _, _ => 1 % n
  | bits + 1, base, exp =>
      if exp = 0 then 1 % n
      else
        let half := powMod n bits (base * base % n) (exp / 2)
        if exp % 2 = 1 then base * half % n else half

theorem powMod_eq (n : Nat) {bits exp : Nat} (base : Nat) (fits : exp < 2 ^ bits) :
    powMod n bits base exp = base ^ exp % n := by
  induction bits generalizing base exp with
  | zero =>
      obtain rfl : exp = 0 := by omega
      rfl
  | succ bits ih =>
      have hhalf : exp / 2 < 2 ^ bits := by omega
      have hsquare : (base * base % n) ^ (exp / 2) % n = base ^ (2 * (exp / 2)) % n := by
        rw [← Nat.pow_mod, pow_mul, pow_two]
      rw [powMod, ih _ hhalf, hsquare]
      split_ifs with hzero hodd
      · rw [hzero, pow_zero]
      · have hexp : 2 * (exp / 2) + 1 = exp := by omega
        rw [Nat.mul_mod_mod, ← pow_succ', hexp]
      · have hexp : 2 * (exp / 2) = exp := by omega
        rw [hexp]

/-- A power with a reduced result is known in the ring of residues. -/
theorem cast_pow_eq_powMod (n : Nat) {bits exp : Nat} (base : Nat) (fits : exp < 2 ^ bits) :
    (base : ZMod n) ^ exp = (powMod n bits base exp : Nat) := by
  rw [powMod_eq n base fits, ZMod.natCast_mod, Nat.cast_pow]

/-- No divisor from this number on up to the square root. -/
def noDivisor (n : Nat) : Nat → Nat → Bool
  | 0, _ => false
  | fuel + 1, k => n < k * k || (n % k != 0 && noDivisor n fuel (k + 1))

theorem lt_sq_of_noDivisor {n fuel k q : Nat} (h : noDivisor n fuel k = true) (hk : k ≤ q)
    (hdivides : q ∣ n) : n < q * q := by
  induction fuel generalizing k with
  | zero => cases h
  | succ _ ih =>
      rw [noDivisor, Bool.or_eq_true, Bool.and_eq_true, decide_eq_true_eq, bne_iff_ne] at h
      rcases h with hlarge | ⟨hrest, h⟩
      · exact hlarge.trans_le (Nat.mul_le_mul hk hk)
      · refine ih h (Nat.succ_le_of_lt (lt_of_le_of_ne hk ?_))
        rintro rfl
        exact hrest (Nat.mod_eq_zero_of_dvd hdivides)

/-- Primality by trial division. -/
def trialPrime (fuel n : Nat) : Bool := 2 ≤ n && noDivisor n fuel 2

theorem trialPrime_sound {fuel n : Nat} (h : trialPrime fuel n = true) : n.Prime := by
  rw [trialPrime, Bool.and_eq_true, decide_eq_true_eq] at h
  by_contra hcomposite
  have hfactor := Nat.minFac_prime (by omega : n ≠ 1)
  have hbelow := Nat.minFac_sq_le_self (by omega) hcomposite
  have habove := lt_sq_of_noDivisor h.2 hfactor.two_le (Nat.minFac_dvd n)
  rw [pow_two] at hbelow
  omega

/-- A number with a base and the prime factors of its predecessor. -/
structure LucasRow where
  n : Nat
  base : Nat
  factors : List Nat

/-- The check of a row against the numbers known to be prime. -/
def LucasRow.passes (row : LucasRow) (bits fuel : Nat) (known : List Nat) : Bool :=
  2 ≤ row.n && row.n ≤ 2 ^ bits && row.factors.prod == row.n - 1 &&
    powMod row.n bits row.base (row.n - 1) == 1 &&
    row.factors.all fun q => (known.contains q || trialPrime fuel q) &&
      powMod row.n bits row.base ((row.n - 1) / q) != 1

theorem LucasRow.prime {row : LucasRow} {bits fuel : Nat} {known : List Nat}
    (hknown : ∀ q ∈ known, q.Prime) (h : row.passes bits fuel known = true) : row.n.Prime := by
  simp only [passes, Bool.and_eq_true, decide_eq_true_eq, beq_iff_eq, List.all_eq_true,
    Bool.or_eq_true, List.contains_iff_mem, bne_iff_ne, ne_eq] at h
  obtain ⟨⟨⟨⟨htwo, hfits⟩, hproduct⟩, hfull⟩, hfactors⟩ := h
  have hprime : ∀ q ∈ row.factors, q.Prime := fun q hq =>
    (hfactors q hq).1.elim (hknown q) trialPrime_sound
  have hfits' : ∀ exp ≤ row.n - 1, exp < 2 ^ bits := fun exp hexp => by omega
  apply lucas_primality row.n (row.base : ZMod row.n)
  · rw [cast_pow_eq_powMod _ _ (hfits' _ le_rfl), hfull, Nat.cast_one]
  · intro q hq hdivides hone
    rw [← hproduct] at hdivides
    obtain ⟨r, hr, hqr⟩ := (Prime.dvd_prod_iff hq.prime).mp hdivides
    obtain rfl := (Nat.prime_dvd_prime_iff_eq hq (hprime r hr)).mp hqr
    have hexp : (row.n - 1) / q < 2 ^ bits := hfits' _ (Nat.div_le_self _ _)
    rw [cast_pow_eq_powMod _ _ hexp, powMod_eq _ _ hexp] at hone
    replace hone : ((row.base ^ ((row.n - 1) / q) % row.n : Nat) : ZMod row.n) = (1 : Nat) := by
      rw [hone, Nat.cast_one]
    rw [ZMod.natCast_eq_natCast_iff', Nat.mod_mod, Nat.one_mod_eq_one.mpr (by omega)] at hone
    exact (hfactors q hr).2 (by rw [powMod_eq _ _ hexp, hone])

/-- The rows are checked in order, each against those before it. -/
def certified (bits fuel : Nat) : List LucasRow → List Nat → Bool
  | [], _ => true
  | row :: rows, known => row.passes bits fuel known && certified bits fuel rows (row.n :: known)

theorem prime_of_certified {bits fuel : Nat} {rows : List LucasRow} {known : List Nat}
    (hknown : ∀ q ∈ known, q.Prime) (h : certified bits fuel rows known = true) :
    ∀ row ∈ rows, row.n.Prime := by
  induction rows generalizing known with
  | nil => exact fun row hrow => absurd hrow List.not_mem_nil
  | cons _ _ ih =>
      rw [certified, Bool.and_eq_true] at h
      have hfirst := LucasRow.prime hknown h.1
      intro row hrow
      rcases List.mem_cons.mp hrow with rfl | hrow
      · exact hfirst
      · refine ih (fun q hq => ?_) h.2 row hrow
        rcases List.mem_cons.mp hq with rfl | hq
        · exact hfirst
        · exact hknown q hq

end Redoubt.Foundation
