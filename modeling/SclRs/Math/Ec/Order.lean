import Mathlib.Algebra.Module.ZMod
import SclRs.Lib.CurveOrder
import SclRs.Math.Ec.ScalarMul

/-!
# The order of secp256k1

The generator has order `n`, which is more than a third of what a curve over `ℤ/p` can have, so the curve
has `n` points (`card_point`). Hence the points are a vector space over the scalars, of which the generator
is a basis: `scalar_mul` is its scalar multiplication on every valid point (`scalarMul_linear`), and every
valid point has one discrete logarithm (`existsUnique_log`).
-/

namespace SclRs

open Lib.CompleteAddition ModUint

namespace Secp256k1

/-- **The curve has `n` points.** -/
theorem card_point : Nat.card Point = scalarModulus := by
  have hlarge : 2 * (Nat.card (ZMod primeModulus) + 1) < 3 * addOrderOf genPoint := by
    rw [Nat.card_zmod, addOrderOf_gen]
    decide
  rw [card_point_eq two_ne_zero_primeModulus cube_add_seven_ne_zero hlarge, addOrderOf_gen]

theorem scalarModulus_nsmul (A : Point) : scalarModulus • A = 0 := by
  rw [← card_point]
  exact card_nsmul_eq_zero'

/-- Scalars modulo `n` act on the points. -/
noncomputable instance : Module (ZMod scalarModulus) Point := AddCommGroup.zmodModule scalarModulus_nsmul

theorem zero_smul_point (A : Point) : (0 : ZMod scalarModulus) • A = 0 := by
  rw [← Nat.cast_zero, Nat.cast_smul_eq_nsmul, zero_nsmul]

theorem smul_gen_injective : Function.Injective fun k : ZMod scalarModulus => k • genPoint :=
  smul_left_injective _ genPoint_ne_zero

theorem exists_smul_gen (A : Point) : ∃ k : ZMod scalarModulus, k • genPoint = A := by
  have hcard : Nat.card (ZMod scalarModulus) = Nat.card Point := by rw [Nat.card_zmod, card_point]
  have : Finite (ZMod scalarModulus) := Nat.finite_of_card_ne_zero (by rw [Nat.card_zmod]; decide)
  exact ((Nat.bijective_iff_injective_and_card _).mpr ⟨smul_gen_injective, hcard⟩).2 A

variable [CryptoBigint] {p q : Secp256k1} {A : Point} {k l : Secp256k1ScalarField}

theorem Represents.smul (hp : p.Represents A) (hk : k.Canonical) :
    ∃ r, p.scalarMul k = some r ∧ r.Represents (k.toZMod • A) := by
  rw [toZMod, Nat.cast_smul_eq_nsmul]
  exact hp.scalarMul (ne_scalarMax hk)

/-- **Scalar multiplication is linear** in the scalar and in the point. -/
theorem scalarMul_linear (hp : p.Valid) (hq : q.Valid) (hk : k.Canonical) (hl : l.Canonical) :
    ∃ kp lp kq, p.scalarMul k = some kp ∧ p.scalarMul l = some lp ∧ q.scalarMul k = some kq ∧
      (∃ r, p.scalarMul (k + l) = some r ∧ r.eq (kp.add lp) = true) ∧
      (∃ r, p.scalarMul (k - l) = some r ∧ r.eq (kp.sub lp) = true) ∧
      (∃ r, p.scalarMul k.negate = some r ∧ r.eq kp.negate = true) ∧
      (∃ r s, p.scalarMul (k * l) = some r ∧ lp.scalarMul k = some s ∧ r.eq s = true) ∧
      (∃ r, (p.add q).scalarMul k = some r ∧ r.eq (kp.add kq) = true) := by
  obtain ⟨A, hA⟩ := hp.exists_represents
  obtain ⟨B, hB⟩ := hq.exists_represents
  obtain ⟨kp, hkp, hkA⟩ := hA.smul hk
  obtain ⟨lp, hlp, hlA⟩ := hA.smul hl
  obtain ⟨kq, hkq, hkB⟩ := hB.smul hk
  refine ⟨kp, lp, kq, hkp, hlp, hkq, ?_, ?_, ?_, ?_, ?_⟩
  · obtain ⟨r, hr, hrep⟩ := hA.smul (add_spec hk hl).1
    refine ⟨r, hr, (hrep.eq_iff (hkA.add hlA)).mpr ?_⟩
    rw [(add_spec hk hl).2, add_smul]
  · obtain ⟨r, hr, hrep⟩ := hA.smul (sub_spec hk hl).1
    refine ⟨r, hr, (hrep.eq_iff (hkA.sub hlA)).mpr ?_⟩
    rw [(sub_spec hk hl).2, sub_smul]
  · obtain ⟨r, hr, hrep⟩ := hA.smul (negate_spec hk).1
    refine ⟨r, hr, (hrep.eq_iff hkA.negate).mpr ?_⟩
    rw [(negate_spec hk).2, neg_smul]
  · obtain ⟨r, hr, hrep⟩ := hA.smul (mul_spec k l).1
    obtain ⟨s, hs, hsrep⟩ := hlA.smul hk
    refine ⟨r, s, hr, hs, (hrep.eq_iff hsrep).mpr ?_⟩
    rw [(mul_spec k l).2, mul_smul]
  · obtain ⟨r, hr, hrep⟩ := (hA.add hB).smul hk
    refine ⟨r, hr, (hrep.eq_iff (hkA.add hkB)).mpr ?_⟩
    rw [smul_add]

/-- **Every valid point is one multiple of the generator.** -/
theorem existsUnique_log (hp : p.Valid) :
    ∃! k : Secp256k1ScalarField, k.Canonical ∧ ∃ r, gen.scalarMul k = some r ∧ r.eq p = true := by
  obtain ⟨A, hA⟩ := hp.exists_represents
  obtain ⟨v, rfl⟩ := exists_smul_gen A
  obtain ⟨k, hk, rfl⟩ := exists_rep v
  obtain ⟨r, hr, hrep⟩ := gen_represents.smul hk
  refine ⟨k, ⟨hk, r, hr, (hrep.eq_iff hA).mpr rfl⟩, ?_⟩
  rintro l ⟨hl, s, hs, heq⟩
  obtain ⟨s', hs', hsrep⟩ := gen_represents.smul hl
  obtain rfl := Option.some.inj (hs.symm.trans hs')
  exact hl.ext hk (smul_gen_injective ((hsrep.eq_iff hA).mp heq))

end Secp256k1

theorem Secp256k1.scalarMul_linear_gen :
    letI := CryptoBigint.reference
    ∃ kp lp kq, gen.scalarMul largest = some kp ∧ gen.scalarMul (largest + largest) = some lp ∧
      gen.dbl.scalarMul largest = some kq ∧
      (∃ r, gen.scalarMul (largest + (largest + largest)) = some r ∧ r.eq (kp.add lp) = true) ∧
      (∃ r, gen.scalarMul (largest - (largest + largest)) = some r ∧ r.eq (kp.sub lp) = true) ∧
      (∃ r, gen.scalarMul largest.negate = some r ∧ r.eq kp.negate = true) ∧
      (∃ r s, gen.scalarMul (largest * (largest + largest)) = some r ∧ lp.scalarMul largest = some s ∧
        r.eq s = true) ∧
      (∃ r, (gen.add gen.dbl).scalarMul largest = some r ∧ r.eq (kp.add kq) = true) := by
  let := CryptoBigint.reference
  exact scalarMul_linear gen_valid gen_represents.dbl.valid canonical_largest
    (add_spec canonical_largest canonical_largest).1

theorem Secp256k1.existsUnique_log_dbl :
    letI := CryptoBigint.reference
    ∃! k : Secp256k1ScalarField, k.Canonical ∧ ∃ r, gen.scalarMul k = some r ∧ r.eq gen.dbl = true := by
  let := CryptoBigint.reference
  exact existsUnique_log gen_represents.dbl.valid

end SclRs
