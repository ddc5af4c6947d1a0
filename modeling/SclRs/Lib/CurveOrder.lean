import Mathlib.GroupTheory.Perm.Cycle.Type
import SclRs.Lib.CompleteAddition

/-!
# The number of points of `y² = x³ + b`

Over a finite field each `x` has at most two points of the curve, so that there are at most `2q + 2`
points. When no point has order two, a point whose order is more than a third of this bound generates
the whole group: the number of points is a multiple of the order, below three times it, and odd.
-/

namespace SclRs.Lib.CompleteAddition

/-- In a group of fewer than `3n` elements, none of order two, an element of order `n` generates. -/
theorem card_eq_addOrderOf {G : Type*} [AddCommGroup G] [Finite G] {g : G}
    (htwo : ∀ a : G, a + a = 0 → a = 0) (hcard : Nat.card G < 3 * addOrderOf g) :
    Nat.card G = addOrderOf g := by
  obtain ⟨k, hk⟩ := addOrderOf_dvd_natCard g
  have hpos : 0 < Nat.card G := Nat.card_pos
  have hk3 : k < 3 := by
    rw [hk, mul_comm] at hcard
    exact lt_of_mul_lt_mul_right hcard (Nat.zero_le _)
  have hk0 : k ≠ 0 := by
    rintro rfl
    omega
  have hk2 : k ≠ 2 := by
    rintro rfl
    have : Fact (Nat.Prime 2) := ⟨Nat.prime_two⟩
    obtain ⟨a, ha⟩ := exists_prime_addOrderOf_dvd_card' (G := G) 2 (hk ▸ dvd_mul_left 2 _)
    have hzero : a = 0 := by
      apply htwo
      rw [← two_nsmul, ← ha]
      exact addOrderOf_nsmul_eq_zero a
    rw [hzero, addOrderOf_zero] at ha
    omega
  obtain rfl : k = 1 := by omega
  rw [hk, mul_one]

section
variable {F : Type*} [Field F] {b : F}

def coordinates? : (curve b).Point → Option (F × F)
  | .zero => none
  | .some x y _ => some (x, y)

theorem coordinates?_injective : Function.Injective (coordinates? (b := b)) := by
  intro A B h
  cases A with
  | zero =>
    cases B with
    | zero => rfl
    | some => cases h
  | some x y hA =>
    cases B with
    | zero => cases h
    | some x' y' hB =>
      obtain ⟨rfl, rfl⟩ := Prod.mk.inj (Option.some.inj h)
      rfl

instance [Finite F] : Finite (curve b).Point := .of_injective _ coordinates?_injective

theorem eq_or_eq_neg {A B : (curve b).Point}
    (h : (coordinates? A).map Prod.fst = (coordinates? B).map Prod.fst) : B = A ∨ B = -A := by
  cases A with
  | zero =>
    cases B with
    | zero => exact .inl rfl
    | some => cases h
  | some x y hA =>
    cases B with
    | zero => cases h
    | some x' y' hB =>
      obtain rfl : x = x' := Option.some.inj h
      rw [WeierstrassCurve.Affine.Point.neg_some hA]
      simp only [WeierstrassCurve.Affine.Point.some.injEq, true_and]
      exact WeierstrassCurve.Affine.Y_eq_of_X_eq hB.1 hA.1 rfl

/-- **At most two points for each `x`**, and one more. -/
theorem card_point_le [Finite F] : Nat.card (curve b).Point ≤ 2 * (Nat.card F + 1) := by
  classical
  have : Fintype F := Fintype.ofFinite F
  have : Fintype (curve b).Point := Fintype.ofFinite _
  let x : (curve b).Point → Option F := fun A => (coordinates? A).map Prod.fst
  have hfibre : ∀ a ∈ Finset.univ.image x, (Finset.univ.filter fun A => x A = a).card ≤ 2 := by
    intro a ha
    obtain ⟨A, -, rfl⟩ := Finset.mem_image.mp ha
    have hsub : (Finset.univ.filter fun B => x B = x A) ⊆ {A, -A} := by
      intro B hB
      rw [Finset.mem_insert, Finset.mem_singleton]
      exact eq_or_eq_neg (Finset.mem_filter.mp hB).2.symm
    exact (Finset.card_le_card hsub).trans Finset.card_le_two
  have hcount := Finset.card_le_mul_card_image Finset.univ 2 hfibre
  have himage : (Finset.univ.image x).card ≤ Fintype.card F + 1 := by
    rw [← Fintype.card_option]
    exact Finset.card_le_univ _
  rw [Nat.card_eq_fintype_card, Nat.card_eq_fintype_card, ← Finset.card_univ]
  exact hcount.trans (Nat.mul_le_mul_left 2 himage)

variable [DecidableEq F]

theorem eq_zero_of_add_self (h2 : (2 : F) ≠ 0) (hb : ∀ x : F, x ^ 3 + b ≠ 0) {A : (curve b).Point}
    (hA : A + A = 0) : A = 0 := by
  cases A with
  | zero => rfl
  | some x y h =>
    have hneg := eq_neg_of_add_eq_zero_left hA
    rw [WeierstrassCurve.Affine.Point.neg_some h] at hneg
    have hy : y = -y := by
      have hy := (WeierstrassCurve.Affine.Point.some.inj hneg).2
      rwa [negY_eq] at hy
    refine absurd ?_ (mul_ne_zero h2 (y_ne_zero hb h.1))
    linear_combination hy

/-- **A point of large order generates the curve.** -/
theorem card_point_eq [Finite F] (h2 : (2 : F) ≠ 0) (hb : ∀ x : F, x ^ 3 + b ≠ 0) {G : (curve b).Point}
    (hG : 2 * (Nat.card F + 1) < 3 * addOrderOf G) : Nat.card (curve b).Point = addOrderOf G :=
  card_eq_addOrderOf (fun _ => eq_zero_of_add_self h2 hb) (card_point_le.trans_lt hG)

end

end SclRs.Lib.CompleteAddition
