import Mathlib.FieldTheory.Finite.Basic
import SclRs.Lib.CompleteAddition
import SclRs.Math.Ec.Secp256k1

/-!
# The group law of secp256k1

The straight-line code of `add` and `dbl` computes the complete formulas of `Lib.CompleteAddition` in
`ℤ/p` (`add_rep`, `dbl_rep`). They are the group law because `-7` is not a cube modulo `p`, so that the
curve has no point of order two; the power-residue test of that is evaluated in the kernel.
-/

namespace SclRs

open Lib.CompleteAddition ModUint

/-! ### No point of order two -/

theorem two_ne_zero_primeModulus : (2 : ZMod primeModulus) ≠ 0 := by
  have h : ((2 : ℕ) : ZMod primeModulus) ≠ 0 := by
    rw [Ne, ZMod.natCast_eq_zero_iff]
    decide
  exact_mod_cast h

theorem cube_add_seven_ne_zero (x : ZMod primeModulus) : x ^ 3 + 7 ≠ 0 := by
  intro h
  have hx : x ≠ 0 := by
    rintro rfl
    have h7 : ((7 : ℕ) : ZMod primeModulus) = 0 := by
      rw [← h]
      push_cast
      ring
    rw [ZMod.natCast_eq_zero_iff] at h7
    revert h7
    decide
  have hcube : x ^ 3 = ((primeModulus - 7 : ℕ) : ZMod primeModulus) := by
    rw [Nat.cast_sub (by decide), ZMod.natCast_self]
    push_cast
    linear_combination h
  have hone : ((primeModulus - 7 : ℕ) : ZMod primeModulus) ^ ((primeModulus - 1) / 3) = 1 := by
    rw [← hcube, ← pow_mul, show 3 * ((primeModulus - 1) / 3) = primeModulus - 1 from by decide]
    exact ZMod.pow_card_sub_one_eq_one hx
  rw [Lib.Pratt.natCast_pow_eq_one (by decide),
    ← Lib.Pratt.powMod_eq _ 256 _ _ (by decide)] at hone
  revert hone
  decide +kernel

namespace Secp256k1

abbrev Point : Type := (curve (7 : ZMod primeModulus)).Point

def toProj (p : Secp256k1) : Proj (ZMod primeModulus) := ⟨p.x.toZMod, p.y.toZMod, p.z.toZMod⟩

def Equation (p : Secp256k1) : Prop :=
  p.y.toZMod ^ 2 * p.z.toZMod = p.x.toZMod ^ 3 + 7 * p.z.toZMod ^ 3

def Canonical (p : Secp256k1) : Prop := p.x.Canonical ∧ p.y.Canonical ∧ p.z.Canonical

/-- Canonical coordinates of a point of the curve, infinity included. -/
def Valid (p : Secp256k1) : Prop := p.Canonical ∧ p.toProj.OnCurve 7

/-- Canonical coordinates of the point `A`. -/
def Represents (p : Secp256k1) (A : Point) : Prop := p.Canonical ∧ p.toProj.Represents A

theorem Represents.valid {p : Secp256k1} {A : Point} (h : p.Represents A) : p.Valid :=
  ⟨h.1, h.2.onCurve⟩

theorem Valid.exists_represents {p : Secp256k1} (h : p.Valid) : ∃ A, p.Represents A := by
  obtain ⟨A, hA⟩ := h.2.exists_represents two_ne_zero_primeModulus cube_add_seven_ne_zero
  exact ⟨A, h.1, hA⟩

theorem Represents.unique {p : Secp256k1} {A B : Point} (hA : p.Represents A)
    (hB : p.Represents B) : A = B := hA.2.unique hB.2

theorem Represents.isPointAtInfinity {p : Secp256k1} {A : Point} (h : p.Represents A) :
    p.isPointAtInfinity = true ↔ A = 0 := by
  rw [Secp256k1.isPointAtInfinity, decide_eq_true_iff]
  have hz : p.z = zero ↔ p.z.toZMod = 0 := by
    rw [h.1.2.2.toZMod_eq_zero]
    exact ⟨fun he => congrArg ModUint.value he, fun he => congrArg ModUint.mk he⟩
  rw [hz]
  have hrep := h.2
  generalize hP : p.toProj = P at hrep
  have hPz : p.z.toZMod = P.z := congrArg Proj.z hP
  rw [hPz]
  cases hrep with
  | zero => exact iff_of_true rfl rfl
  | some hns hz0 => exact iff_of_false hz0 (WeierstrassCurve.Affine.Point.some_ne_zero hns)

theorem represents_pointAtInfinity : pointAtInfinity.Represents 0 :=
  ⟨⟨canonical_zero, canonical_one, canonical_zero⟩,
    .of_zero toZMod_zero (by simp [toProj, pointAtInfinity]) toZMod_zero⟩

theorem gen_valid : gen.Valid := by
  refine ⟨⟨by decide, by decide, canonical_one⟩, ?_, fun h => ?_⟩
  · have h : ((gen.y.value.toNat ^ 2 : ℕ) : ZMod primeModulus) =
        (gen.x.value.toNat ^ 3 + 7 : ℕ) := by
      rw [ZMod.natCast_eq_natCast_iff']
      decide
    rw [Nat.cast_add, Nat.cast_pow, Nat.cast_pow, Nat.cast_ofNat] at h
    have hz : gen.z.toZMod = 1 := toZMod_one
    change gen.y.toZMod ^ 2 * gen.z.toZMod = gen.x.toZMod ^ 3 + 7 * gen.z.toZMod ^ 3
    rw [hz, mul_one, one_pow, mul_one]
    exact h
  · have hz : gen.z.toZMod = 1 := toZMod_one
    exact one_ne_zero (hz.symm.trans h.2.2)

/-! ### The straight-line code -/

/-- The coordinates of `p` are the reduced representations of those of `P`. -/
def Rep (p : Secp256k1) (P : Proj (ZMod primeModulus)) : Prop :=
  p.x.Rep P.x ∧ p.y.Rep P.y ∧ p.z.Rep P.z

theorem Rep.represents {p : Secp256k1} {P : Proj (ZMod primeModulus)} {A : Point} (h : p.Rep P)
    (hP : P.Represents A) : p.Represents A := by
  refine ⟨⟨h.1.1, h.2.1.1, h.2.2.1⟩, ?_⟩
  have heq : p.toProj = P := Proj.ext h.1.2 h.2.1.2 h.2.2.2
  rwa [heq]

theorem rep_b3 : (fromU64 (3 * 7) : Secp256k1PrimeField).Rep 21 :=
  .congr (.fromU64 (by decide)) (by norm_num)

variable [CryptoBigint] {p q : Secp256k1}

/-- `dbl` computes the complete double. -/
theorem dbl_rep (hp : p.Canonical) : p.dbl.Rep (p.toProj.dbl 7) := by
  have x := ModUint.Rep.of_canonical hp.1
  have y := ModUint.Rep.of_canonical hp.2.1
  have z := ModUint.Rep.of_canonical hp.2.2
  have t0 := y.mul y
  have z3 := t0.add t0
  have z3 := z3.add z3
  have z3 := z3.add z3
  have t1 := y.mul z
  have t2 := rep_b3.mul (z.mul z)
  have x3 := t2.mul z3
  have y3 := t0.add t2
  have z3 := t1.mul z3
  have t1 := t2.add t2
  have t2 := t1.add t2
  have t0 := t0.sub t2
  have y3 := x3.add (t0.mul y3)
  have x3 := t0.mul (x.mul y)
  have x3 := x3.add x3
  simp only [Rep, Proj.dbl, toProj]
  exact ⟨x3.congr (by ring), y3.congr (by ring), z3.congr (by ring)⟩

/-- `add` computes the complete sum. -/
theorem add_rep (hp : p.Canonical) (hq : q.Canonical) : (p.add q).Rep (p.toProj.add 7 q.toProj) := by
  have x1 := ModUint.Rep.of_canonical hp.1
  have y1 := ModUint.Rep.of_canonical hp.2.1
  have z1 := ModUint.Rep.of_canonical hp.2.2
  have x2 := ModUint.Rep.of_canonical hq.1
  have y2 := ModUint.Rep.of_canonical hq.2.1
  have z2 := ModUint.Rep.of_canonical hq.2.2
  have t0 := x1.mul x2
  have t1 := y1.mul y2
  have t2 := z1.mul z2
  have t3 := ((x1.add y1).mul (x2.add y2)).sub (t0.add t1)
  have t4 := ((y1.add z1).mul (y2.add z2)).sub (t1.add t2)
  have y3 := ((x1.add z1).mul (x2.add z2)).sub (t0.add t2)
  have t0 := (t0.add t0).add t0
  have t2 := rep_b3.mul t2
  have z3 := t1.add t2
  have t1 := t1.sub t2
  have y3 := rep_b3.mul y3
  have x3 := (t3.mul t1).sub (t4.mul y3)
  have y3 := (t1.mul z3).add (y3.mul t0)
  have z3 := (z3.mul t4).add (t0.mul t3)
  simp only [Rep, Proj.add, toProj]
  exact ⟨x3.congr (by ring), y3.congr (by ring), z3.congr (by ring)⟩

namespace Represents

variable {A B : Point}

theorem dbl (hp : p.Represents A) : p.dbl.Represents (A + A) :=
  (dbl_rep hp.1).represents (hp.2.dbl two_ne_zero_primeModulus cube_add_seven_ne_zero)

theorem add (hp : p.Represents A) (hq : q.Represents B) : (p.add q).Represents (A + B) :=
  (add_rep hp.1 hq.1).represents (hp.2.add two_ne_zero_primeModulus cube_add_seven_ne_zero hq.2)

/-- No point of the curve takes the branch of `negate` for `y = 0`. -/
theorem negate (hp : p.Represents A) : p.negate.Represents (-A) := by
  have hy : p.y ≠ zero := by
    intro h
    refine hp.2.onCurve.y_ne_zero cube_add_seven_ne_zero ?_
    simp [toProj, h]
  rw [Secp256k1.negate, if_neg hy]
  have hneg := (ModUint.Rep.of_canonical hp.1.2.1).negate
  exact Rep.represents ⟨.of_canonical hp.1.1, hneg, .of_canonical hp.1.2.2⟩ hp.2.neg

theorem sub (hp : p.Represents A) (hq : q.Represents B) : (p.sub q).Represents (A - B) :=
  sub_eq_add_neg A B ▸ hp.add hq.negate

theorem eq_iff (hp : p.Represents A) (hq : q.Represents B) : p.eq q = true ↔ A = B := by
  have hmul : ∀ a b c d : Secp256k1PrimeField, a * b = c * d ↔
      a.toZMod * b.toZMod = c.toZMod * d.toZMod := by
    intro a b c d
    rw [← (mul_spec a b).2, ← (mul_spec c d).2]
    exact ⟨congrArg toZMod, (mul_spec a b).1.ext (mul_spec c d).1⟩
  rw [Secp256k1.eq, Bool.and_eq_true, decide_eq_true_iff, decide_eq_true_iff, hmul, hmul]
  exact hp.2.eq_iff hq.2

end Represents

/-- **Addition on secp256k1 is the complete group law.** The formulas agree with the chord-tangent
group of the curve for all points, and equality of points is equality in that group. -/
theorem complete_group_law {p q : Secp256k1} (hp : p.Valid) (hq : q.Valid) :
    ∃ A B : Point, p.Represents A ∧ q.Represents B ∧
      ((p.add q).Valid ∧ (p.add q).Represents (A + B)) ∧
      (p.dbl.Valid ∧ p.dbl.Represents (2 • A)) ∧
      (p.negate.Valid ∧ p.negate.Represents (-A)) ∧
      ((p.sub q).Valid ∧ (p.sub q).Represents (A - B)) ∧
      (p.eq q = true ↔ A = B) := by
  obtain ⟨A, hA⟩ := hp.exists_represents
  obtain ⟨B, hB⟩ := hq.exists_represents
  have hdbl := hA.dbl
  rw [← two_nsmul] at hdbl
  exact ⟨A, B, hA, hB, ⟨(hA.add hB).valid, hA.add hB⟩, ⟨hdbl.valid, hdbl⟩,
    ⟨hA.negate.valid, hA.negate⟩, ⟨(hA.sub hB).valid, hA.sub hB⟩, hA.eq_iff hB⟩

end Secp256k1

theorem Secp256k1.complete_group_law_gen :
    letI := CryptoBigint.reference
    ∃ A B : Point, gen.Represents A ∧ gen.negate.Represents B ∧
      ((gen.add gen.negate).Valid ∧ (gen.add gen.negate).Represents (A + B)) ∧
      (gen.dbl.Valid ∧ gen.dbl.Represents (2 • A)) ∧
      (gen.negate.Valid ∧ gen.negate.Represents (-A)) ∧
      ((gen.sub gen.negate).Valid ∧ (gen.sub gen.negate).Represents (A - B)) ∧
      (gen.eq gen.negate = true ↔ A = B) := by
  let := CryptoBigint.reference
  obtain ⟨A, hA⟩ := gen_valid.exists_represents
  exact complete_group_law gen_valid hA.negate.valid

end SclRs
