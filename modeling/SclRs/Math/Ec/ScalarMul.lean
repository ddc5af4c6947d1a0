import Mathlib.GroupTheory.OrderOfElement
import SclRs.Math.Ec.GroupLaw

/-!
# Scalar multiplication on secp256k1

The loop of `scalar_mul` keeps the multiple of the point by the number that the digits so far encode
(`foldr_mulDigit`), so that it computes the multiple by the scalar wherever `to_naf` returns, for every
reduced scalar among them (`scalarMul_exact`). That the generator has order `n` is one run of
`scalar_mul`, evaluated in the kernel with the reference arithmetic.
-/

namespace SclRs

open Lib.CompleteAddition ModUint

namespace Secp256k1

section
variable [CryptoBigint] {p : Secp256k1} {A : Point}

theorem Represents.mulDigit {r : Secp256k1} {B : Point} (hp : p.Represents A) (hr : r.Represents B)
    (digit : Nat) :
    (p.mulDigit digit r).Represents (2 • B + NafEncoding.digitValue digit • A) := by
  rw [Secp256k1.mulDigit, two_nsmul]
  rcases eq_or_ne digit 1 with rfl | h1
  · simpa [NafEncoding.digitValue] using hr.dbl.add hp
  rcases eq_or_ne digit 2 with rfl | h2
  · simpa [NafEncoding.digitValue, sub_eq_add_neg] using hr.dbl.sub hp
  · simpa [NafEncoding.digitValue, h1, h2] using hr.dbl

/-- The invariant of the loop of `scalar_mul`. -/
theorem Represents.foldr_mulDigit (hp : p.Represents A) (digits : List Nat) :
    (digits.foldr p.mulDigit pointAtInfinity).Represents (NafEncoding.value digits • A) := by
  induction digits with
  | nil => simpa [NafEncoding.value] using represents_pointAtInfinity
  | cons d digits ih =>
    have hstep := hp.mulDigit ih d
    rw [← natCast_zsmul, ← mul_zsmul', ← add_zsmul, Nat.cast_ofNat, mul_comm, add_comm] at hstep
    rwa [List.foldr_cons, NafEncoding.value]

/-- **`scalar_mul` is multiplication by the scalar**, for every scalar that `to_naf` recodes. -/
theorem Represents.scalarMul (hp : p.Represents A) {k : Secp256k1ScalarField} (hk : k ≠ scalarMax) :
    ∃ r, p.scalarMul k = some r ∧ r.Represents (k.value.toNat • A) := by
  rw [Secp256k1.scalarMul]
  split_ifs with hinf
  · obtain rfl := hp.isPointAtInfinity.mp hinf
    exact ⟨_, rfl, by rw [nsmul_zero]; exact represents_pointAtInfinity⟩
  · obtain ⟨naf, hnaf, hrecodes⟩ := toNaf_spec hk
    refine ⟨_, by rw [hnaf]; rfl, ?_⟩
    have hfold := hp.foldr_mulDigit naf.digits
    rwa [hrecodes.value, natCast_zsmul] at hfold

theorem scalarMul_eq_none {k : Secp256k1ScalarField} :
    p.scalarMul k = none ↔ p.isPointAtInfinity = false ∧ k = scalarMax := by
  rw [Secp256k1.scalarMul]
  split_ifs with hinf
  · simp [hinf]
  · by_cases hk : k = scalarMax
    · simp [hinf, hk, toNaf_scalarMax]
    · obtain ⟨naf, hnaf, -⟩ := toNaf_spec hk
      simp [hk, hnaf]

/-! ### Repeated addition -/

def repeatedAdd (p : Secp256k1) : Nat → Secp256k1
  | 0 => pointAtInfinity
  | k + 1 => (p.repeatedAdd k).add p

theorem Represents.repeatedAdd (hp : p.Represents A) (k : Nat) :
    (p.repeatedAdd k).Represents (k • A) := by
  induction k with
  | zero =>
    rw [zero_nsmul]
    exact represents_pointAtInfinity
  | succ k ih =>
    rw [succ_nsmul]
    exact ih.add hp

theorem nsmul_toNat_add {k l : Secp256k1ScalarField} (hk : k.Canonical) (hl : l.Canonical)
    (hA : scalarModulus • A = 0) :
    (RingOps.add k l).value.toNat • A = k.value.toNat • A + l.value.toNat • A := by
  have hsum : (RingOps.add k l).value.toNat ≡ k.value.toNat + l.value.toNat [MOD scalarModulus] := by
    rw [← ZMod.natCast_eq_natCast_iff, Nat.cast_add]
    exact (add_spec hk hl).2
  rw [← add_nsmul, nsmul_eq_nsmul_iff_modEq]
  exact hsum.of_dvd (addOrderOf_dvd_of_nsmul_eq_zero hA)

/-- **Scalar multiplication is exact.** For every valid point and every reduced scalar it is repeated
addition, and on the points of an order that divides `n` it turns sums of scalars modulo `n` into sums
of points. -/
theorem scalarMul_exact (hp : p.Valid) {k l : Secp256k1ScalarField} (hk : k.Canonical)
    (hl : l.Canonical) :
    ∃ A r, p.Represents A ∧ p.scalarMul k = some r ∧ r.Represents (k.value.toNat • A) ∧
      r.eq (p.repeatedAdd k.value.toNat) = true ∧
      (scalarModulus • A = 0 → ∃ s t, p.scalarMul l = some s ∧ p.scalarMul (RingOps.add k l) = some t ∧
        (r.add s).eq t = true) := by
  obtain ⟨A, hA⟩ := hp.exists_represents
  obtain ⟨r, hr, hrep⟩ := hA.scalarMul (ne_scalarMax hk)
  refine ⟨A, r, hA, hr, hrep, (hrep.eq_iff (hA.repeatedAdd _)).mpr rfl, fun horder => ?_⟩
  obtain ⟨s, hs, hsrep⟩ := hA.scalarMul (ne_scalarMax hl)
  obtain ⟨t, ht, htrep⟩ := hA.scalarMul (ne_scalarMax (add_spec hk hl).1)
  refine ⟨s, t, hs, ht, ?_⟩
  rw [(hrep.add hsrep).eq_iff htrep]
  exact (nsmul_toNat_add hk hl horder).symm

end

/-- The greatest reduced scalar. -/
def largest : Secp256k1ScalarField := .new (modulus scalarModulus - 1)

theorem canonical_largest : largest.Canonical := by decide

/-- The generator, by `n - 1` and by `n - 2`, whose sum is `n - 3`. -/
theorem scalarMul_exact_gen :
    letI := CryptoBigint.reference
    ∃ A r, gen.Represents A ∧ gen.scalarMul largest = some r ∧ r.Represents (largest.value.toNat • A) ∧
      r.eq (gen.repeatedAdd largest.value.toNat) = true ∧
      (scalarModulus • A = 0 → ∃ s t, gen.scalarMul (RingOps.add largest largest) = some s ∧
        gen.scalarMul (RingOps.add largest (RingOps.add largest largest)) = some t ∧
        (r.add s).eq t = true) := by
  let := CryptoBigint.reference
  exact scalarMul_exact gen_valid canonical_largest (add_spec canonical_largest canonical_largest).1

/-! ### The order of the generator -/

noncomputable def genPoint : Point := gen_valid.exists_represents.choose

theorem gen_represents : gen.Represents genPoint := gen_valid.exists_represents.choose_spec

theorem gen_isPointAtInfinity : gen.isPointAtInfinity = false := by decide

theorem genPoint_ne_zero : genPoint ≠ 0 := by
  rw [Ne, ← gen_represents.isPointAtInfinity, gen_isPointAtInfinity]
  exact Bool.false_ne_true

/-- The scalar `n`, which `new` does not reduce. -/
def order : Secp256k1ScalarField := .new (modulus scalarModulus)

theorem scalarMul_order :
    letI := CryptoBigint.reference
    (gen.scalarMul order).map isPointAtInfinity = some true := by
  decide +kernel

theorem scalarModulus_nsmul_gen : scalarModulus • genPoint = 0 := by
  let := CryptoBigint.reference
  obtain ⟨r, hr, hrep⟩ := gen_represents.scalarMul (k := order) (by decide)
  have hzero := scalarMul_order
  rw [hr, Option.map_some, Option.some.injEq, hrep.isPointAtInfinity] at hzero
  rwa [order, ModUint.new, toNat_modulus] at hzero

theorem addOrderOf_gen : addOrderOf genPoint = scalarModulus :=
  addOrderOf_eq_prime scalarModulus_nsmul_gen genPoint_ne_zero

theorem nsmul_gen_eq_iff {a b : Nat} :
    a • genPoint = b • genPoint ↔ (a : ZMod scalarModulus) = b := by
  rw [nsmul_eq_nsmul_iff_modEq, addOrderOf_gen, ZMod.natCast_eq_natCast_iff]

theorem nsmul_gen_eq_zero {a : Nat} : a • genPoint = 0 ↔ (a : ZMod scalarModulus) = 0 := by
  rw [← Nat.cast_zero, ← nsmul_gen_eq_iff, zero_nsmul]

end Secp256k1

end SclRs
