import Mathlib.AlgebraicGeometry.EllipticCurve.Affine.Point
import Mathlib.Tactic.FieldSimp
import Mathlib.Tactic.LinearCombination

/-!
# Complete projective addition on `y² = x³ + b`

Straight-line formulas for the sum and the double of projective points, and the proof that they are
the group law of the curve whenever it has no point of order two (`hb`), for all pairs of points. A
point `P` represents an affine point or zero (`Represents`). Between two affine points there are three
cases: different `x` (the chord, where `Z₃` is the `y`-coordinate of the difference of the points
times a power of `x₁ - x₂`), equal points (the tangent, where `Z₃ = 8y³`) and opposite points.
-/

namespace SclRs.Lib.CompleteAddition

variable {F : Type*} [Field F]

def curve (b : F) : WeierstrassCurve.Affine F := ⟨0, 0, 0, 0, b⟩

@[ext] structure Proj (F : Type*) where
  x : F
  y : F
  z : F

/-- `P` lies on the curve and is a projective point. -/
def Proj.OnCurve (b : F) (P : Proj F) : Prop :=
  P.y ^ 2 * P.z = P.x ^ 3 + b * P.z ^ 3 ∧ ¬ (P.x = 0 ∧ P.y = 0 ∧ P.z = 0)

/-- The point of the curve that `P` stands for. -/
inductive Proj.Represents {b : F} : Proj F → (curve b).Point → Prop
  | zero {y : F} : y ≠ 0 → Represents ⟨0, y, 0⟩ .zero
  | some {x y z : F} (h : (curve b).Nonsingular x y) :
      z ≠ 0 → Represents ⟨x * z, y * z, z⟩ (.some x y h)

def Proj.add (b : F) (P Q : Proj F) : Proj F where
  x := (P.x * Q.y + P.y * Q.x) * (P.y * Q.y - 3 * b * (P.z * Q.z)) -
    3 * b * ((P.y * Q.z + P.z * Q.y) * (P.x * Q.z + P.z * Q.x))
  y := (P.y * Q.y + 3 * b * (P.z * Q.z)) * (P.y * Q.y - 3 * b * (P.z * Q.z)) +
    9 * b * (P.x * Q.x) * (P.x * Q.z + P.z * Q.x)
  z := (P.y * Q.z + P.z * Q.y) * (P.y * Q.y + 3 * b * (P.z * Q.z)) +
    3 * (P.x * Q.x) * (P.x * Q.y + P.y * Q.x)

def Proj.dbl (b : F) (P : Proj F) : Proj F where
  x := 2 * (P.y ^ 2 - 9 * b * P.z ^ 2) * (P.x * P.y)
  y := 24 * b * P.z ^ 2 * P.y ^ 2 + (P.y ^ 2 - 9 * b * P.z ^ 2) * (P.y ^ 2 + 3 * b * P.z ^ 2)
  z := 8 * P.y ^ 3 * P.z

def Proj.neg (P : Proj F) : Proj F := ⟨P.x, -P.y, P.z⟩

section Affine
variable {b : F}

theorem equation_iff {x y : F} : (curve b).Equation x y ↔ y ^ 2 = x ^ 3 + b := by
  simp [WeierstrassCurve.Affine.equation_iff, curve]

@[simp] theorem negY_eq (x y : F) : (curve b).negY x y = -y := by
  simp [WeierstrassCurve.Affine.negY, curve]

theorem addX_eq (x₁ x₂ ℓ : F) : (curve b).addX x₁ x₂ ℓ = ℓ ^ 2 - (x₁ + x₂) := by
  simp only [WeierstrassCurve.Affine.addX, curve]
  ring

theorem addY_eq (x₁ x₂ y₁ ℓ : F) :
    (curve b).addY x₁ x₂ y₁ ℓ = ℓ * (x₁ - (ℓ ^ 2 - (x₁ + x₂))) - y₁ := by
  rw [WeierstrassCurve.Affine.addY, WeierstrassCurve.Affine.negAddY, negY_eq, addX_eq]
  ring

theorem y_ne_zero (hb : ∀ x : F, x ^ 3 + b ≠ 0) {x y : F} (h : (curve b).Equation x y) : y ≠ 0 := by
  rintro rfl
  exact hb x (by rw [← equation_iff.mp h]; ring)

theorem nonsingular_of_equation (h2 : (2 : F) ≠ 0) (hb : ∀ x : F, x ^ 3 + b ≠ 0) {x y : F}
    (h : (curve b).Equation x y) : (curve b).Nonsingular x y := by
  refine (WeierstrassCurve.Affine.nonsingular_iff ..).mpr ⟨h, .inr ?_⟩
  have hy : 2 * y ≠ 0 := mul_ne_zero h2 (y_ne_zero hb h)
  intro heq
  refine hy ?_
  simp only [curve] at heq
  linear_combination heq

/-! ### The chord -/

variable {x₁ y₁ x₂ y₂ : F}

/-- The `z` of the sum of two affine points. -/
def chordZ (b x₁ y₁ x₂ y₂ : F) : F :=
  (y₁ + y₂) * (y₁ * y₂ + 3 * b) + 3 * (x₁ * x₂) * (x₁ * y₂ + y₁ * x₂)

theorem chord_x (h₁ : y₁ ^ 2 = x₁ ^ 3 + b) (h₂ : y₂ ^ 2 = x₂ ^ 3 + b) :
    ((x₁ * y₂ + y₁ * x₂) * (y₁ * y₂ - 3 * b) - 3 * b * ((y₁ + y₂) * (x₁ + x₂))) * (x₁ - x₂) ^ 2 =
      chordZ b x₁ y₁ x₂ y₂ * ((y₁ - y₂) ^ 2 - (x₁ + x₂) * (x₁ - x₂) ^ 2) := by
  unfold chordZ
  linear_combination
    (-3 * x₁ ^ 2 * x₂ * y₂ - 3 * x₁ * y₁ * x₂ ^ 2 + 3 * x₁ * x₂ ^ 2 * y₂ - y₁ ^ 2 * y₂ + y₁ * y₂ ^ 2 -
      3 * y₁ * b + 2 * x₂ ^ 3 * y₂ + y₂ ^ 3 + 2 * y₂ * b) * h₁ +
    (3 * x₁ ^ 3 * y₁ + x₁ ^ 3 * y₂ + 3 * x₁ ^ 2 * y₁ * x₂ - 3 * x₁ ^ 2 * x₂ * y₂ -
      3 * x₁ * y₁ * x₂ ^ 2 - y₁ * y₂ ^ 2 + 3 * y₁ * b - 2 * y₂ * b) * h₂

theorem chord_y (h₁ : y₁ ^ 2 = x₁ ^ 3 + b) (h₂ : y₂ ^ 2 = x₂ ^ 3 + b) :
    ((y₁ * y₂ + 3 * b) * (y₁ * y₂ - 3 * b) + 9 * b * (x₁ * x₂) * (x₁ + x₂)) * (x₁ - x₂) ^ 3 =
      chordZ b x₁ y₁ x₂ y₂ * ((y₁ - y₂) * (x₁ * (x₁ - x₂) ^ 2 - (y₁ - y₂) ^ 2 +
        (x₁ + x₂) * (x₁ - x₂) ^ 2) - y₁ * (x₁ - x₂) ^ 3) := by
  unfold chordZ
  linear_combination
    (3 * x₁ ^ 2 * y₁ * x₂ * y₂ + 9 * x₁ ^ 2 * x₂ ^ 4 - 15 * x₁ ^ 2 * x₂ * y₂ ^ 2 +
      3 * x₁ * y₁ ^ 2 * x₂ ^ 2 - 6 * x₁ * y₁ * x₂ ^ 2 * y₂ - 6 * x₁ * x₂ ^ 5 +
      15 * x₁ * x₂ ^ 2 * y₂ ^ 2 + 12 * x₁ * x₂ ^ 2 * b + y₁ ^ 3 * y₂ - 2 * y₁ ^ 2 * y₂ ^ 2 +
      3 * y₁ ^ 2 * b - 2 * y₁ * x₂ ^ 3 * y₂ - 5 * y₁ * y₂ * b - 2 * x₂ ^ 3 * y₂ ^ 2 - 6 * x₂ ^ 3 * b +
      2 * y₂ ^ 4 - 2 * y₂ ^ 2 * b + 3 * b ^ 2) * h₁ +
    (-9 * x₁ ^ 5 * x₂ + 6 * x₁ ^ 4 * x₂ ^ 2 + 2 * x₁ ^ 3 * y₁ * y₂ + 2 * x₁ ^ 3 * y₂ ^ 2 +
      6 * x₁ ^ 3 * b + 6 * x₁ ^ 2 * y₁ * x₂ * y₂ - 3 * x₁ ^ 2 * x₂ * y₂ ^ 2 - 27 * x₁ ^ 2 * x₂ * b -
      3 * x₁ * y₁ * x₂ ^ 2 * y₂ + 15 * x₁ * x₂ ^ 2 * b - y₁ * y₂ ^ 3 + 5 * y₁ * y₂ * b - y₂ ^ 2 * b -
      3 * b ^ 2) * h₂

/-- The chord through `(x₁, y₁)` and `(x₂, -y₂)` meets the curve at a point that `chordZ` knows. -/
theorem chordZ_eq (h₁ : y₁ ^ 2 = x₁ ^ 3 + b) (h₂ : y₂ ^ 2 = x₂ ^ 3 + b) :
    -chordZ b x₁ y₁ x₂ y₂ = (y₁ + y₂) * (x₁ * (x₁ - x₂) ^ 2 - (y₁ + y₂) ^ 2 +
      (x₁ + x₂) * (x₁ - x₂) ^ 2) - y₁ * (x₁ - x₂) ^ 3 := by
  unfold chordZ
  linear_combination (y₁ + 2 * y₂) * h₁ + (2 * y₁ + y₂) * h₂

/-- The third point of the chord of slope `ℓ`, scaled by `chordZ`. -/
theorem chord_eq {ℓ : F} (h₁ : y₁ ^ 2 = x₁ ^ 3 + b) (h₂ : y₂ ^ 2 = x₂ ^ 3 + b) (hx : x₁ ≠ x₂)
    (hℓ : ℓ * (x₁ - x₂) = y₁ - y₂) :
    (x₁ * y₂ + y₁ * x₂) * (y₁ * y₂ - 3 * b) - 3 * b * ((y₁ + y₂) * (x₁ + x₂)) =
        (ℓ ^ 2 - (x₁ + x₂)) * chordZ b x₁ y₁ x₂ y₂ ∧
      (y₁ * y₂ + 3 * b) * (y₁ * y₂ - 3 * b) + 9 * b * (x₁ * x₂) * (x₁ + x₂) =
        (ℓ * (x₁ - (ℓ ^ 2 - (x₁ + x₂))) - y₁) * chordZ b x₁ y₁ x₂ y₂ := by
  have hd : x₁ - x₂ ≠ 0 := sub_ne_zero.mpr hx
  constructor
  · refine mul_right_cancel₀ (pow_ne_zero 2 hd) ((chord_x h₁ h₂).trans ?_)
    rw [← hℓ]
    ring
  · refine mul_right_cancel₀ (pow_ne_zero 3 hd) ((chord_y h₁ h₂).trans ?_)
    rw [← hℓ]
    ring

/-! ### The tangent -/

variable {x y : F}

/-- The third point of the tangent of slope `ℓ`, scaled by `8y³`. -/
theorem tangent_eq {ℓ : F} (h : y ^ 2 = x ^ 3 + b) (hℓ : ℓ * (2 * y) = 3 * x ^ 2) :
    2 * (y ^ 2 - 9 * b) * (x * y) = (ℓ ^ 2 - (x + x)) * (8 * y ^ 3) ∧
      24 * b * y ^ 2 + (y ^ 2 - 9 * b) * (y ^ 2 + 3 * b) =
        (ℓ * (x - (ℓ ^ 2 - (x + x))) - y) * (8 * y ^ 3) := by
  constructor
  · linear_combination 18 * x * y * h - 2 * y * (ℓ * (2 * y) + 3 * x ^ 2) * hℓ
  · linear_combination (9 * y ^ 2 - 27 * x ^ 3 + 27 * b) * h +
      ((ℓ * (2 * y)) ^ 2 + ℓ * (2 * y) * (3 * x ^ 2) + 9 * x ^ 4 - 12 * x * y ^ 2) * hℓ

/-! ### The slopes -/

variable [DecidableEq F]

theorem chordZ_ne_zero (hb : ∀ x : F, x ^ 3 + b ≠ 0) (h₁ : (curve b).Equation x₁ y₁)
    (h₂ : (curve b).Equation x₂ y₂) (hx : x₁ ≠ x₂) : chordZ b x₁ y₁ x₂ y₂ ≠ 0 := by
  have hd : x₁ - x₂ ≠ 0 := sub_ne_zero.mpr hx
  have hneg : (curve b).Equation x₂ (-y₂) := by
    have := (WeierstrassCurve.Affine.equation_neg x₂ y₂).mpr h₂
    rwa [negY_eq] at this
  have hsum := y_ne_zero hb (WeierstrassCurve.Affine.equation_add h₁ hneg fun h => hx h.1)
  intro hz
  refine hsum ?_
  have hchord := chordZ_eq (equation_iff.mp h₁) (equation_iff.mp h₂)
  rw [hz, neg_zero] at hchord
  rw [addY_eq, WeierstrassCurve.Affine.slope_of_X_ne hx]
  field_simp
  linear_combination -hchord

theorem slope_self (h2 : (2 : F) ≠ 0) (hy : y ≠ 0) : (curve b).slope x x y y = 3 * x ^ 2 / (2 * y) := by
  have hne : y ≠ (curve b).negY x y := by
    rw [negY_eq]
    intro h
    exact mul_ne_zero h2 hy (by linear_combination h)
  rw [WeierstrassCurve.Affine.slope_of_Y_ne rfl hne, negY_eq]
  simp only [curve]
  ring

end Affine

/-! ### Representation -/

namespace Proj

variable {b : F} {P Q : Proj F}

theorem Represents.onCurve {A : (curve b).Point} (h : P.Represents A) : P.OnCurve b := by
  cases h with
  | zero hy => exact ⟨by ring, fun h => hy h.2.1⟩
  | @some x y z hns hz =>
    have heq := equation_iff.mp hns.1
    refine ⟨?_, fun h => hz h.2.2⟩
    simp only
    linear_combination z ^ 3 * heq

theorem OnCurve.y_ne_zero (hb : ∀ x : F, x ^ 3 + b ≠ 0) (h : P.OnCurve b) : P.y ≠ 0 := by
  obtain ⟨X, Y, Z⟩ := P
  obtain ⟨heq, hne⟩ := h
  simp only at heq hne
  rintro rfl
  by_cases hz : Z = 0
  · subst hz
    exact hne ⟨by simpa using heq.symm, rfl, rfl⟩
  · refine hb (X / Z) ?_
    field_simp
    linear_combination -heq

theorem OnCurve.exists_represents (h2 : (2 : F) ≠ 0) (hb : ∀ x : F, x ^ 3 + b ≠ 0)
    (h : P.OnCurve b) : ∃ A : (curve b).Point, P.Represents A := by
  obtain ⟨X, Y, Z⟩ := P
  obtain ⟨heq, hne⟩ := h
  simp only at heq hne
  by_cases hz : Z = 0
  · subst hz
    obtain rfl : X = 0 := by simpa using heq.symm
    exact ⟨.zero, .zero fun hy => hne ⟨rfl, hy, rfl⟩⟩
  · have hcurve : (curve b).Equation (X / Z) (Y / Z) := by
      rw [equation_iff]
      field_simp
      linear_combination heq
    have h := Represents.some (nonsingular_of_equation h2 hb hcurve) hz
    rw [div_mul_cancel₀ X hz, div_mul_cancel₀ Y hz] at h
    exact ⟨_, h⟩

theorem Represents.eq_iff {A B : (curve b).Point} (hP : P.Represents A) (hQ : Q.Represents B) :
    (P.x * Q.z = Q.x * P.z ∧ P.y * Q.z = Q.y * P.z) ↔ A = B := by
  cases hP with
  | zero hy₁ =>
    cases hQ with
    | zero => simp
    | some h₂ hz₂ => simp [hy₁, hz₂]
  | @some x₁ y₁ z₁ h₁ hz₁ =>
    cases hQ with
    | zero hy₂ => simp [hy₂, hz₁]
    | @some x₂ y₂ z₂ h₂ hz₂ =>
      have hz : z₁ * z₂ ≠ 0 := mul_ne_zero hz₁ hz₂
      rw [WeierstrassCurve.Affine.Point.some.injEq]
      refine and_congr ⟨fun h => mul_right_cancel₀ hz ?_, fun h => ?_⟩
        ⟨fun h => mul_right_cancel₀ hz ?_, fun h => ?_⟩
      · linear_combination h
      · simp only [h]; ring
      · linear_combination h
      · simp only [h]; ring

theorem Represents.unique {A B : (curve b).Point} (hA : P.Represents A) (hB : P.Represents B) :
    A = B :=
  (hA.eq_iff hB).mp ⟨rfl, rfl⟩

theorem Represents.of_eq {x y : F} (hns : (curve b).Nonsingular x y) (hx : P.x = x * P.z)
    (hy : P.y = y * P.z) (hz : P.z ≠ 0) : P.Represents (.some x y hns) := by
  obtain ⟨X, Y, Z⟩ := P
  simp only at hx hy
  subst hx hy
  exact .some hns hz

theorem Represents.of_zero (hx : P.x = 0) (hy : P.y ≠ 0) (hz : P.z = 0) :
    P.Represents (0 : (curve b).Point) := by
  obtain ⟨X, Y, Z⟩ := P
  simp only at hx hz
  subst hx hz
  exact .zero hy

def scale (c : F) (P : Proj F) : Proj F := ⟨c * P.x, c * P.y, c * P.z⟩

theorem Represents.scale {c : F} (hc : c ≠ 0) {A : (curve b).Point} (hP : P.Represents A) :
    (P.scale c).Represents A := by
  cases hP with
  | zero hy => exact .of_zero (mul_zero c) (mul_ne_zero hc hy) (mul_zero c)
  | @some x y z h hz =>
    exact .of_eq h (mul_left_comm c x z) (mul_left_comm c y z) (mul_ne_zero hc hz)

theorem Represents.neg {A : (curve b).Point} (hP : P.Represents A) : P.neg.Represents (-A) := by
  cases hP with
  | zero hy => exact .zero (neg_ne_zero.mpr hy)
  | @some x y z h hz =>
    rw [WeierstrassCurve.Affine.Point.neg_some h]
    refine .of_eq _ rfl ?_ hz
    rw [negY_eq]
    simp [Proj.neg]

theorem Represents.zero_add (hb : ∀ x : F, x ^ 3 + b ≠ 0) {A : (curve b).Point} {y : F} (hy : y ≠ 0)
    (hP : P.Represents A) : (Proj.add b ⟨0, y, 0⟩ P).Represents A := by
  cases hP with
  | @zero y' hy' =>
    refine .of_zero ?_ ?_ ?_
    · simp [Proj.add]
    · simpa [Proj.add] using ⟨hy, hy'⟩
    · simp [Proj.add]
  | @some x' y' z' h hz =>
    have hy' : y' ≠ 0 := y_ne_zero hb h.1
    refine .of_eq _ ?_ ?_ ?_
    · simp only [Proj.add]
      ring
    · simp only [Proj.add]
      ring
    · simpa [Proj.add] using ⟨⟨hy, hz⟩, hy, hy', hz⟩

theorem add_comm (P Q : Proj F) : P.add b Q = Q.add b P := by
  simp only [Proj.add, Proj.mk.injEq]
  refine ⟨?_, ?_, ?_⟩ <;> ring

variable [DecidableEq F]

/-- **The double is complete.** -/
theorem Represents.dbl (h2 : (2 : F) ≠ 0) (hb : ∀ x : F, x ^ 3 + b ≠ 0) {A : (curve b).Point}
    (hP : P.Represents A) : (P.dbl b).Represents (A + A) := by
  cases hP with
  | @zero y hy =>
    refine .of_zero ?_ ?_ ?_
    · simp [Proj.dbl]
    · simpa [Proj.dbl] using hy
    · simp [Proj.dbl]
  | @some x y z h hz =>
    have hy : y ≠ 0 := y_ne_zero hb h.1
    have hne : y ≠ (curve b).negY x y := by
      rw [negY_eq]
      intro hyy
      exact mul_ne_zero h2 hy (by linear_combination hyy)
    obtain ⟨hx3, hy3⟩ := tangent_eq (equation_iff.mp h.1)
      (div_mul_cancel₀ (3 * x ^ 2) (mul_ne_zero h2 hy))
    have h8 : (8 : F) ≠ 0 := by
      have : (8 : F) = 2 ^ 3 := by norm_num
      rw [this]
      exact pow_ne_zero 3 h2
    rw [WeierstrassCurve.Affine.Point.add_self_of_Y_ne hne]
    refine .of_eq _ ?_ ?_ ?_
    · rw [addX_eq, slope_self h2 hy]
      simp only [Proj.dbl]
      linear_combination z ^ 4 * hx3
    · rw [addY_eq, slope_self h2 hy]
      simp only [Proj.dbl]
      linear_combination z ^ 4 * hy3
    · exact mul_ne_zero (mul_ne_zero h8 (pow_ne_zero 3 (mul_ne_zero hy hz))) hz

/-- Opposite points add up to zero: there `Y₃ = 8y³` times the `y` of the double. -/
theorem Represents.add_opposite (h2 : (2 : F) ≠ 0) (hb : ∀ x : F, x ^ 3 + b ≠ 0) {x y z z' : F}
    (h : (curve b).Equation x y) (hz : z ≠ 0) (hz' : z' ≠ 0) :
    (Proj.add b ⟨x * z, y * z, z⟩ ⟨x * z', -y * z', z'⟩).Represents (0 : (curve b).Point) := by
  have hdbl := Represents.dbl h2 hb (.some (nonsingular_of_equation h2 hb h) one_ne_zero)
  have hy2 := hdbl.onCurve.y_ne_zero hb
  refine .of_zero ?_ ?_ ?_
  · simp only [Proj.add]
    ring
  · have hscale : (Proj.add b ⟨x * z, y * z, z⟩ ⟨x * z', -y * z', z'⟩).y =
        (z * z') ^ 2 * (Proj.dbl b ⟨x * 1, y * 1, 1⟩).y := by
      simp only [Proj.add, Proj.dbl]
      linear_combination -18 * b * (z * z') ^ 2 * equation_iff.mp h
    rw [hscale]
    exact mul_ne_zero (pow_ne_zero 2 (mul_ne_zero hz hz')) hy2
  · simp only [Proj.add]
    ring

/-- **The sum is complete.** -/
theorem Represents.add (h2 : (2 : F) ≠ 0) (hb : ∀ x : F, x ^ 3 + b ≠ 0) {A B : (curve b).Point}
    (hP : P.Represents A) (hQ : Q.Represents B) : (P.add b Q).Represents (A + B) := by
  cases hP with
  | zero hy =>
    change Represents _ (0 + B)
    rw [AddZeroClass.zero_add]
    exact hQ.zero_add hb hy
  | @some x₁ y₁ z₁ h₁ hz₁ =>
    cases hQ with
    | zero hy =>
      change Represents _ (WeierstrassCurve.Affine.Point.some x₁ y₁ h₁ + 0)
      rw [add_zero, add_comm]
      exact (Represents.some h₁ hz₁).zero_add hb hy
    | @some x₂ y₂ z₂ h₂ hz₂ =>
      by_cases hx : x₁ = x₂
      · subst hx
        by_cases hy : y₁ = -y₂
        · subst hy
          rw [WeierstrassCurve.Affine.Point.add_of_Y_eq rfl (negY_eq x₁ y₂).symm]
          have hopp := Represents.add_opposite h2 hb h₁.1 hz₁ hz₂
          rwa [neg_neg] at hopp
        · -- the two points are equal: the sum is the double, scaled
          have hyy : y₁ = y₂ := WeierstrassCurve.Affine.Y_eq_of_Y_ne h₁.1 h₂.1 rfl
            (by rwa [negY_eq])
          subst hyy
          have hdbl := (Represents.dbl h2 hb (.some h₁ one_ne_zero)).scale
            (pow_ne_zero 2 (mul_ne_zero hz₁ hz₂))
          have h := equation_iff.mp h₁.1
          convert hdbl using 1
          ext <;> simp only [Proj.add, Proj.dbl, Proj.scale]
          · ring
          · linear_combination -18 * b * (z₁ * z₂) ^ 2 * h
          · linear_combination -6 * y₁ * (z₁ * z₂) ^ 2 * h
      · have hℓ := div_mul_cancel₀ (y₁ - y₂) (sub_ne_zero.mpr hx)
        obtain ⟨hx3, hy3⟩ := chord_eq (equation_iff.mp h₁.1) (equation_iff.mp h₂.1) hx hℓ
        have hz3 := chordZ_ne_zero hb h₁.1 h₂.1 hx
        have hz : (z₁ * z₂) ^ 2 ≠ 0 := pow_ne_zero 2 (mul_ne_zero hz₁ hz₂)
        have hzadd : (Proj.add b ⟨x₁ * z₁, y₁ * z₁, z₁⟩ ⟨x₂ * z₂, y₂ * z₂, z₂⟩).z =
            (z₁ * z₂) ^ 2 * chordZ b x₁ y₁ x₂ y₂ := by
          simp only [Proj.add, chordZ]
          ring
        rw [WeierstrassCurve.Affine.Point.add_of_X_ne hx]
        refine .of_eq _ ?_ ?_ ?_
        · rw [addX_eq, WeierstrassCurve.Affine.slope_of_X_ne hx, hzadd]
          simp only [Proj.add]
          linear_combination (z₁ * z₂) ^ 2 * hx3
        · rw [addY_eq, WeierstrassCurve.Affine.slope_of_X_ne hx, hzadd]
          simp only [Proj.add]
          linear_combination (z₁ * z₂) ^ 2 * hy3
        · rw [hzadd]
          exact mul_ne_zero hz hz3

end Proj

end SclRs.Lib.CompleteAddition
