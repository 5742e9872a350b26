import Mathlib.Algebra.Field.Basic
import Mathlib.Tactic.FieldSimp
import Mathlib.Tactic.LinearCombination
import Mathlib.Tactic.Ring

/-!
# Twisted Edwards curves

The curve `y ^ 2 - x ^ 2 = 1 + d x ^ 2 y ^ 2` over a field in which minus one is a
square and `d` is not.  The denominators of the addition law never vanish, so the law
is one pair of fractions for all points, and the points form a commutative group.
A point in extended coordinates `(X : Y : Z : T)` stands for the affine point
`(X / Z, Y / Z)`; the unified formulas add such points without a division.
-/

namespace Redoubt.Foundation

/-- The constants of a complete curve. -/
structure Edwards (K : Type) [Field K] where
  d : K
  root : K
  two_ne : (2 : K) ≠ 0
  root_sq : root ^ 2 = -1
  nonsquare : ∀ r : K, r ^ 2 ≠ d

namespace Edwards

variable {K : Type} [Field K] (C : Edwards K)

/-- The curve equation. -/
def On (x y : K) : Prop := y ^ 2 - x ^ 2 = 1 + C.d * x ^ 2 * y ^ 2

variable {C} {x y x₁ y₁ x₂ y₂ x₃ y₃ : K}

/-! ### Denominators -/

/-- A multiple of `d` by a square is no square. -/
theorem eq_zero_of_sq (C : Edwards K) {a b : K} (h : a ^ 2 = C.d * b ^ 2) : b = 0 := by
  by_contra hb
  apply C.nonsquare (a / b)
  rw [div_pow, h]
  field_simp

/-- The product in the denominators is no root of one: it would make `d` times a square a
square in two ways, and both squares cannot vanish. -/
theorem On.product_sq_ne_one (h₁ : C.On x₁ y₁) (h₂ : C.On x₂ y₂) :
    (C.d * x₁ * x₂ * y₁ * y₂) ^ 2 ≠ 1 := by
  intro hsq
  unfold On at h₁ h₂
  have hi := C.root_sq
  have hplus : x₁ * y₁ * (C.root * x₂ + y₂) = 0 := by
    apply C.eq_zero_of_sq (a := C.root * x₁ + C.d * x₁ * x₂ * y₁ * y₂ * y₁)
    linear_combination (x₁ ^ 2 - C.d * x₁ ^ 2 * y₁ ^ 2 * x₂ ^ 2) * hi + (y₁ ^ 2 - 1) * hsq + h₁ -
      C.d * x₁ ^ 2 * y₁ ^ 2 * h₂
  have hminus : x₁ * y₁ * (C.root * x₂ - y₂) = 0 := by
    apply C.eq_zero_of_sq (a := C.root * x₁ - C.d * x₁ * x₂ * y₁ * y₂ * y₁)
    linear_combination (x₁ ^ 2 - C.d * x₁ ^ 2 * y₁ ^ 2 * x₂ ^ 2) * hi + (y₁ ^ 2 - 1) * hsq + h₁ -
      C.d * x₁ ^ 2 * y₁ ^ 2 * h₂
  have htwice : 2 * (x₁ * y₁ * y₂) = 0 := by linear_combination hplus - hminus
  have hzero : x₁ * y₁ * y₂ = 0 := (mul_eq_zero.mp htwice).resolve_left C.two_ne
  have hone : (0 : K) = 1 := by linear_combination hsq - (C.d * x₂) ^ 2 * (x₁ * y₁ * y₂) * hzero
  exact zero_ne_one hone

theorem On.add_ne (h₁ : C.On x₁ y₁) (h₂ : C.On x₂ y₂) : 1 + C.d * x₁ * x₂ * y₁ * y₂ ≠ 0 := by
  intro h
  apply h₁.product_sq_ne_one h₂
  linear_combination (C.d * x₁ * x₂ * y₁ * y₂ - 1) * h

theorem On.sub_ne (h₁ : C.On x₁ y₁) (h₂ : C.On x₂ y₂) : 1 - C.d * x₁ * x₂ * y₁ * y₂ ≠ 0 := by
  intro h
  apply h₁.product_sq_ne_one h₂
  linear_combination (-C.d * x₁ * x₂ * y₁ * y₂ - 1) * h

/-! ### The addition law -/

/-- Abscissa of a sum. -/
def sumX (C : Edwards K) (x₁ y₁ x₂ y₂ : K) : K :=
  (x₁ * y₂ + x₂ * y₁) / (1 + C.d * x₁ * x₂ * y₁ * y₂)

/-- Ordinate of a sum. -/
def sumY (C : Edwards K) (x₁ y₁ x₂ y₂ : K) : K :=
  (y₁ * y₂ + x₁ * x₂) / (1 - C.d * x₁ * x₂ * y₁ * y₂)

theorem On.of_fractions {a b p m : K} (hp : p ≠ 0) (hm : m ≠ 0)
    (h : b ^ 2 * p ^ 2 - a ^ 2 * m ^ 2 = m ^ 2 * p ^ 2 + C.d * a ^ 2 * b ^ 2) :
    C.On (a / p) (b / m) := by
  unfold On
  field_simp
  linear_combination h

/-- The sum of two points of the curve is a point of the curve. -/
theorem On.sum (h₁ : C.On x₁ y₁) (h₂ : C.On x₂ y₂) :
    C.On (C.sumX x₁ y₁ x₂ y₂) (C.sumY x₁ y₁ x₂ y₂) := by
  refine On.of_fractions (h₁.add_ne h₂) (h₁.sub_ne h₂) ?_
  unfold On at h₁ h₂
  linear_combination
    ((y₂ ^ 2 - x₂ ^ 2) * (1 + C.d * x₁ ^ 2 * y₁ ^ 2 * (C.d * x₂ ^ 2 * y₂ ^ 2)) -
      C.d * x₂ ^ 2 * y₂ ^ 2 * (y₁ ^ 2 - x₁ ^ 2 + 1 + C.d * x₁ ^ 2 * y₁ ^ 2)) * h₁ +
    ((1 + C.d * x₁ ^ 2 * y₁ ^ 2) * (1 + C.d * x₁ ^ 2 * y₁ ^ 2 * (C.d * x₂ ^ 2 * y₂ ^ 2)) -
      C.d * x₁ ^ 2 * y₁ ^ 2 * (y₂ ^ 2 - x₂ ^ 2 + 1 + C.d * x₂ ^ 2 * y₂ ^ 2)) * h₂

/-- The numbers of a sum with a third point before the division. -/
def joinX (C : Edwards K) (x₁ y₁ x₂ y₂ x₃ y₃ : K) : K :=
  (x₁ * y₂ + x₂ * y₁) * (1 - C.d * x₁ * x₂ * y₁ * y₂) * y₃ +
    (y₁ * y₂ + x₁ * x₂) * (1 + C.d * x₁ * x₂ * y₁ * y₂) * x₃

def joinY (C : Edwards K) (x₁ y₁ x₂ y₂ x₃ y₃ : K) : K :=
  (y₁ * y₂ + x₁ * x₂) * (1 + C.d * x₁ * x₂ * y₁ * y₂) * y₃ +
    (x₁ * y₂ + x₂ * y₁) * (1 - C.d * x₁ * x₂ * y₁ * y₂) * x₃

def underX (C : Edwards K) (x₁ y₁ x₂ y₂ x₃ y₃ : K) : K :=
  (1 + C.d * x₁ * x₂ * y₁ * y₂) * (1 - C.d * x₁ * x₂ * y₁ * y₂) +
    C.d * x₃ * y₃ * (x₁ * y₂ + x₂ * y₁) * (y₁ * y₂ + x₁ * x₂)

def underY (C : Edwards K) (x₁ y₁ x₂ y₂ x₃ y₃ : K) : K :=
  (1 + C.d * x₁ * x₂ * y₁ * y₂) * (1 - C.d * x₁ * x₂ * y₁ * y₂) -
    C.d * x₃ * y₃ * (x₁ * y₂ + x₂ * y₁) * (y₁ * y₂ + x₁ * x₂)

theorem On.sumX_sum (h₁ : C.On x₁ y₁) (h₂ : C.On x₂ y₂) (h₃ : C.On x₃ y₃) :
    C.underX x₁ y₁ x₂ y₂ x₃ y₃ ≠ 0 ∧ C.sumX (C.sumX x₁ y₁ x₂ y₂) (C.sumY x₁ y₁ x₂ y₂) x₃ y₃ =
      C.joinX x₁ y₁ x₂ y₂ x₃ y₃ / C.underX x₁ y₁ x₂ y₂ x₃ y₃ := by
  have hadd := h₁.add_ne h₂
  have hsub := h₁.sub_ne h₂
  have hne := (h₁.sum h₂).add_ne h₃
  unfold sumX sumY at hne
  unfold sumX sumY joinX underX
  generalize 1 + C.d * x₁ * x₂ * y₁ * y₂ = p at *
  generalize 1 - C.d * x₁ * x₂ * y₁ * y₂ = m at *
  generalize x₁ * y₂ + x₂ * y₁ = a at *
  generalize y₁ * y₂ + x₁ * x₂ = b at *
  have hnum : a / p * y₃ + x₃ * (b / m) = (a * m * y₃ + b * p * x₃) / (p * m) := by field_simp
  have hden : 1 + C.d * (a / p) * x₃ * (b / m) * y₃ = (p * m + C.d * x₃ * y₃ * a * b) / (p * m) := by
    field_simp
  rw [hden] at hne
  rw [hnum, hden, div_div_div_cancel_right₀ (mul_ne_zero hadd hsub)]
  exact ⟨(div_ne_zero_iff.mp hne).1, rfl⟩

theorem On.sumY_sum (h₁ : C.On x₁ y₁) (h₂ : C.On x₂ y₂) (h₃ : C.On x₃ y₃) :
    C.underY x₁ y₁ x₂ y₂ x₃ y₃ ≠ 0 ∧ C.sumY (C.sumX x₁ y₁ x₂ y₂) (C.sumY x₁ y₁ x₂ y₂) x₃ y₃ =
      C.joinY x₁ y₁ x₂ y₂ x₃ y₃ / C.underY x₁ y₁ x₂ y₂ x₃ y₃ := by
  have hadd := h₁.add_ne h₂
  have hsub := h₁.sub_ne h₂
  have hne := (h₁.sum h₂).sub_ne h₃
  unfold sumX sumY at hne
  unfold sumX sumY joinY underY
  generalize 1 + C.d * x₁ * x₂ * y₁ * y₂ = p at *
  generalize 1 - C.d * x₁ * x₂ * y₁ * y₂ = m at *
  generalize x₁ * y₂ + x₂ * y₁ = a at *
  generalize y₁ * y₂ + x₁ * x₂ = b at *
  have hnum : b / m * y₃ + a / p * x₃ = (b * p * y₃ + a * m * x₃) / (p * m) := by field_simp
  have hden : 1 - C.d * (a / p) * x₃ * (b / m) * y₃ = (p * m - C.d * x₃ * y₃ * a * b) / (p * m) := by
    field_simp
  rw [hden] at hne
  rw [hnum, hden, div_div_div_cancel_right₀ (mul_ne_zero hadd hsub)]
  exact ⟨(div_ne_zero_iff.mp hne).1, rfl⟩

theorem sumX_comm : C.sumX x₁ y₁ x₂ y₂ = C.sumX x₂ y₂ x₁ y₁ := by
  unfold sumX
  ring

theorem sumY_comm : C.sumY x₁ y₁ x₂ y₂ = C.sumY x₂ y₂ x₁ y₁ := by
  unfold sumY
  ring

/-- The cross products of the two ways to add three points agree modulo the curve
equations; the factors before the equations are what the reduction of the difference by
`d x ^ 2 y ^ 2 = y ^ 2 - x ^ 2 - 1` leaves. -/
theorem On.joinX_assoc (h₁ : C.On x₁ y₁) (h₂ : C.On x₂ y₂) (h₃ : C.On x₃ y₃) :
    C.joinX x₁ y₁ x₂ y₂ x₃ y₃ * C.underX x₂ y₂ x₃ y₃ x₁ y₁ =
      C.joinX x₂ y₂ x₃ y₃ x₁ y₁ * C.underX x₁ y₁ x₂ y₂ x₃ y₃ := by
  unfold On at h₁ h₂ h₃
  unfold joinX underX
  linear_combination
    C.d * x₂ * y₂ *
      (x₁ * (-(C.d * x₂ ^ 2 * y₂ ^ 2 * x₃ * y₃ * (y₂ * y₃ + x₂ * x₃)) +
          x₃ * y₃ * (y₂ ^ 3 * y₃ - x₂ ^ 3 * x₃) +
          x₂ * y₂ * (y₂ * y₃ * (y₃ ^ 2 - 1) - x₂ * x₃ * (x₃ ^ 2 + 1))) +
        y₁ * (C.d * x₂ ^ 2 * y₂ ^ 2 * x₃ * y₃ * (x₂ * y₃ + x₃ * y₂) +
          x₃ * y₃ * (x₂ ^ 3 * y₃ - y₂ ^ 3 * x₃) +
          x₂ * y₂ * (x₂ * y₃ * (y₃ ^ 2 - 1) - y₂ * x₃ * (x₃ ^ 2 + 1)))) * h₁ +
    C.d * x₂ * y₂ *
      (x₃ * y₃ * (x₁ * (x₁ ^ 2 + 1) * (y₂ * y₃ + x₂ * x₃) + y₁ * (y₁ ^ 2 - 1) * (x₂ * y₃ + x₃ * y₂)) -
        x₁ * y₁ * (x₁ * (x₂ * x₃ * (x₃ ^ 2 + 1) + y₂ * y₃ * (y₃ ^ 2 - 1)) +
          y₁ * (x₂ * y₃ * (y₃ ^ 2 - 1) + y₂ * x₃ * (x₃ ^ 2 + 1)))) * h₂ +
    C.d * x₂ * y₂ *
      (x₂ * y₂ * (x₁ * (x₁ ^ 2 + 1) * (y₂ * y₃ + x₂ * x₃) - y₁ * (y₁ ^ 2 - 1) * (x₂ * y₃ + x₃ * y₂)) +
        x₁ * (x₁ * y₁) * (C.d * x₂ ^ 2 * y₂ ^ 2 * (x₂ * x₃ - y₂ * y₃) + x₂ ^ 3 * x₃ + y₂ ^ 3 * y₃) -
        y₁ * (x₁ * y₁) * (C.d * x₂ ^ 2 * y₂ ^ 2 * (x₂ * y₃ - y₂ * x₃) + x₂ ^ 3 * y₃ + y₂ ^ 3 * x₃)) * h₃

theorem On.joinY_assoc (h₁ : C.On x₁ y₁) (h₂ : C.On x₂ y₂) (h₃ : C.On x₃ y₃) :
    C.joinY x₁ y₁ x₂ y₂ x₃ y₃ * C.underY x₂ y₂ x₃ y₃ x₁ y₁ =
      C.joinY x₂ y₂ x₃ y₃ x₁ y₁ * C.underY x₁ y₁ x₂ y₂ x₃ y₃ := by
  unfold On at h₁ h₂ h₃
  unfold joinY underY
  linear_combination
    C.d * x₂ * y₂ *
      (y₁ * (-(C.d * x₂ ^ 2 * y₂ ^ 2 * x₃ * y₃ * (y₂ * y₃ + x₂ * x₃)) +
          x₃ * y₃ * (y₂ ^ 3 * y₃ - x₂ ^ 3 * x₃) +
          x₂ * y₂ * (y₂ * y₃ * (y₃ ^ 2 - 1) - x₂ * x₃ * (x₃ ^ 2 + 1))) +
        x₁ * (C.d * x₂ ^ 2 * y₂ ^ 2 * x₃ * y₃ * (x₂ * y₃ + x₃ * y₂) +
          x₃ * y₃ * (x₂ ^ 3 * y₃ - y₂ ^ 3 * x₃) +
          x₂ * y₂ * (x₂ * y₃ * (y₃ ^ 2 - 1) - y₂ * x₃ * (x₃ ^ 2 + 1)))) * h₁ +
    C.d * x₂ * y₂ *
      (x₁ * y₁ * (x₁ * (x₂ * y₃ * (y₃ ^ 2 - 1) + y₂ * x₃ * (x₃ ^ 2 + 1)) +
          y₁ * (x₂ * x₃ * (x₃ ^ 2 + 1) + y₂ * y₃ * (y₃ ^ 2 - 1))) -
        x₃ * y₃ * (x₁ * (x₁ ^ 2 + 1) * (x₂ * y₃ + x₃ * y₂) +
          y₁ * (y₁ ^ 2 - 1) * (y₂ * y₃ + x₂ * x₃))) * h₂ +
    C.d * x₂ * y₂ *
      (x₂ * y₂ * (x₁ * (x₁ ^ 2 + 1) * (x₂ * y₃ + x₃ * y₂) - y₁ * (y₁ ^ 2 - 1) * (y₂ * y₃ + x₂ * x₃)) +
        x₁ * (x₁ * y₁) * (C.d * x₂ ^ 2 * y₂ ^ 2 * (x₂ * y₃ - y₂ * x₃) + x₂ ^ 3 * y₃ + y₂ ^ 3 * x₃) -
        y₁ * (x₁ * y₁) * (C.d * x₂ ^ 2 * y₂ ^ 2 * (x₂ * x₃ - y₂ * y₃) + x₂ ^ 3 * x₃ + y₂ ^ 3 * y₃)) * h₃

/-! ### The group -/

/-- A point of the curve. -/
@[ext]
structure Point (C : Edwards K) where
  x : K
  y : K
  on : C.On x y

namespace Point

instance : Zero C.Point := ⟨⟨0, 1, by unfold On; ring⟩⟩

instance : Neg C.Point := ⟨fun p => ⟨-p.x, p.y, by
  have h := p.on
  unfold On at h ⊢
  linear_combination h⟩⟩

instance : Add C.Point := ⟨fun p q => ⟨C.sumX p.x p.y q.x q.y, C.sumY p.x p.y q.x q.y, p.on.sum q.on⟩⟩

@[simp] theorem zero_x : (0 : C.Point).x = 0 := rfl
@[simp] theorem zero_y : (0 : C.Point).y = 1 := rfl
@[simp] theorem neg_x (p : C.Point) : (-p).x = -p.x := rfl
@[simp] theorem neg_y (p : C.Point) : (-p).y = p.y := rfl
@[simp] theorem add_x (p q : C.Point) : (p + q).x = C.sumX p.x p.y q.x q.y := rfl
@[simp] theorem add_y (p q : C.Point) : (p + q).y = C.sumY p.x p.y q.x q.y := rfl

protected theorem add_comm (p q : C.Point) : p + q = q + p := Point.ext sumX_comm sumY_comm

protected theorem zero_add (p : C.Point) : 0 + p = p := by
  apply Point.ext
  · simp [sumX]
  · simp [sumY]

protected theorem neg_add_cancel (p : C.Point) : -p + p = 0 := by
  have hsub := (-p).on.sub_ne p.on
  have h := p.on
  unfold On at h
  apply Point.ext
  · simp [sumX]
  · rw [add_y, sumY, zero_y, div_eq_one_iff_eq hsub]
    simp only [neg_x, neg_y]
    linear_combination h

/-- Both ways to add three points have the same abscissa and ordinate. -/
protected theorem add_assoc (p q r : C.Point) : p + q + r = p + (q + r) := by
  rw [Point.add_comm p (q + r)]
  apply Point.ext
  · obtain ⟨hleft, hsum⟩ := p.on.sumX_sum q.on r.on
    obtain ⟨hright, hsum'⟩ := q.on.sumX_sum r.on p.on
    simp only [add_x, add_y]
    rw [hsum, hsum', div_eq_div_iff hleft hright]
    exact p.on.joinX_assoc q.on r.on
  · obtain ⟨hleft, hsum⟩ := p.on.sumY_sum q.on r.on
    obtain ⟨hright, hsum'⟩ := q.on.sumY_sum r.on p.on
    simp only [add_x, add_y]
    rw [hsum, hsum', div_eq_div_iff hleft hright]
    exact p.on.joinY_assoc q.on r.on

instance : AddCommGroup C.Point where
  add_assoc := Point.add_assoc
  zero_add := Point.zero_add
  add_zero p := by rw [Point.add_comm, Point.zero_add]
  nsmul := nsmulRec
  zsmul := zsmulRec
  neg_add_cancel := Point.neg_add_cancel
  add_comm := Point.add_comm

end Point

/-! ### Extended coordinates -/

/-- Four coordinates that stand for a point. -/
structure Stands (p : C.Point) (X Y Z T : K) : Prop where
  unit : Z ≠ 0
  x : X = p.x * Z
  y : Y = p.y * Z
  t : X * Y = Z * T

/-- Coordinates on the homogeneous curve stand for a point. -/
theorem exists_stands {X Y Z T : K} (unit : Z ≠ 0)
    (on : (Y ^ 2 - X ^ 2) * Z ^ 2 = Z ^ 4 + C.d * X ^ 2 * Y ^ 2) (t : X * Y = Z * T) :
    ∃ p : C.Point, Stands p X Y Z T := by
  refine ⟨⟨X / Z, Y / Z, On.of_fractions unit unit ?_⟩, unit, ?_, ?_, t⟩
  · linear_combination on
  · exact (div_mul_cancel₀ X unit).symm
  · exact (div_mul_cancel₀ Y unit).symm

theorem Stands.on {p : C.Point} {X Y Z T : K} (h : Stands p X Y Z T) :
    (Y ^ 2 - X ^ 2) * Z ^ 2 = Z ^ 4 + C.d * X ^ 2 * Y ^ 2 := by
  have hon := p.on
  unfold On at hon
  rw [h.x, h.y]
  linear_combination Z ^ 4 * hon

/-- Two points with the same coordinates up to a factor are the same. -/
theorem Stands.eq_iff {p q : C.Point} {X Y Z T X' Y' Z' T' : K} (h : Stands p X Y Z T)
    (h' : Stands q X' Y' Z' T') : p = q ↔ X * Z' = X' * Z ∧ Y * Z' = Y' * Z := by
  have hunit := mul_ne_zero h.unit h'.unit
  rw [Point.ext_iff, h.x, h'.x, h.y, h'.y]
  constructor
  · rintro ⟨hx, hy⟩
    rw [hx, hy]
    exact ⟨by ring, by ring⟩
  · rintro ⟨hx, hy⟩
    refine ⟨mul_right_cancel₀ hunit ?_, mul_right_cancel₀ hunit ?_⟩
    · linear_combination hx
    · linear_combination hy

/-- The unified formulas add. -/
theorem Stands.add {p q : C.Point} {X Y Z T X' Y' Z' T' : K} (h : Stands p X Y Z T)
    (h' : Stands q X' Y' Z' T') {a b c e : K} (ha : a = (Y - X) * (Y' - X'))
    (hb : b = (Y + X) * (Y' + X')) (hc : c = (T + T) * T' * C.d) (he : e = (Z + Z) * Z') :
    Stands (p + q) ((b - a) * (e - c)) ((e + c) * (b + a)) ((e - c) * (e + c)) ((b - a) * (b + a)) := by
  have hunit := h.unit
  have hunit' := h'.unit
  have hadd := p.on.add_ne q.on
  have hsub := p.on.sub_ne q.on
  have ht : T = p.x * p.y * Z := mul_left_cancel₀ hunit (by rw [← h.t, h.x, h.y]; ring)
  have ht' : T' = q.x * q.y * Z' := mul_left_cancel₀ hunit' (by rw [← h'.t, h'.x, h'.y]; ring)
  have hminus : e - c = 2 * (Z * Z') * (1 - C.d * p.x * q.x * p.y * q.y) := by
    rw [he, hc, ht, ht']
    ring
  have hplus : e + c = 2 * (Z * Z') * (1 + C.d * p.x * q.x * p.y * q.y) := by
    rw [he, hc, ht, ht']
    ring
  have hleft : b - a = 2 * (Z * Z') * (p.x * q.y + q.x * p.y) := by
    rw [hb, ha, h.x, h.y, h'.x, h'.y]
    ring
  have hright : b + a = 2 * (Z * Z') * (p.y * q.y + p.x * q.x) := by
    rw [hb, ha, h.x, h.y, h'.x, h'.y]
    ring
  rw [hminus, hplus, hleft, hright]
  have hscale := mul_ne_zero C.two_ne (mul_ne_zero hunit hunit')
  refine ⟨mul_ne_zero (mul_ne_zero hscale hsub) (mul_ne_zero hscale hadd), ?_, ?_, by ring⟩
  · rw [Point.add_x, sumX]
    generalize 1 + C.d * p.x * q.x * p.y * q.y = above at hadd ⊢
    field_simp
  · rw [Point.add_y, sumY]
    generalize 1 - C.d * p.x * q.x * p.y * q.y = below at hsub ⊢
    field_simp

end Edwards

end Redoubt.Foundation
