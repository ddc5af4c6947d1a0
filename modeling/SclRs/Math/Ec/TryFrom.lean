import SclRs.Math.Ec.GroupLaw

/-!
# Checked points

`try_from` checks the curve equation modulo `p` but compares `z` with zero as a representation, so it
lets one wrong `z` through, `p` itself (`tryFrom_z_zero`). On every other accepted point `to_affine`
and `is_on_curve` return (`isOnCurve_eq_some_true`).
-/

namespace SclRs

open ModUint

theorem toZMod_seven : (fromU64 7 : Secp256k1PrimeField).toZMod = 7 := by
  have h := toZMod_fromU64 (m := primeModulus) (n := 7) (by decide)
  rw [h, Nat.cast_ofNat]

/-- The representation `p` of zero. -/
def unreducedZero : Secp256k1PrimeField := ⟨modulus primeModulus⟩

theorem toZMod_eq_zero_iff {a : Secp256k1PrimeField} :
    a.toZMod = 0 ↔ a = zero ∨ a = unreducedZero := by
  rw [toZMod, ZMod.natCast_eq_zero_iff]
  constructor
  · rintro ⟨k, hk⟩
    have hlt := a.value.isLt
    have hbig : 2 ^ 256 < 2 * primeModulus := by decide
    obtain rfl | rfl | hk2 : k = 0 ∨ k = 1 ∨ 2 ≤ k := by omega
    · exact .inl (ext_toNat (by rw [hk, mul_zero]; rfl))
    · exact .inr (ext_toNat (by rw [hk, mul_one, unreducedZero, toNat_modulus]))
    · have hmul := Nat.mul_le_mul_left primeModulus hk2
      omega
  · rintro (rfl | rfl)
    · exact dvd_zero _
    · rw [unreducedZero, toNat_modulus]

namespace Secp256k1

variable [CryptoBigint] {p : Secp256k1}

theorem rep_cube (a : Secp256k1PrimeField) : (a * a * a).Rep (a.toZMod ^ 3) :=
  Rep.congr (mul_spec (a * a) a) (by rw [(mul_spec a a).2]; ring)

/-- `try_from` accepts the triples on the curve with another `z` than `ZERO`, and changes none. -/
theorem tryFrom_eq_ok {value : Secp256k1PrimeField × Secp256k1PrimeField × Secp256k1PrimeField} :
    tryFrom value = .ok p ↔ value = (p.x, p.y, p.z) ∧ p.z ≠ zero ∧ p.Equation := by
  obtain ⟨x, y, z⟩ := value
  have hlhs : (y * y * z).Rep (y.toZMod ^ 2 * z.toZMod) :=
    Rep.congr (mul_spec (y * y) z) (by rw [(mul_spec y y).2]; ring)
  have hz : (z * (z * z)).Rep (z.toZMod ^ 3) :=
    Rep.congr (mul_spec z (z * z)) (by rw [(mul_spec z z).2]; ring)
  have hseven : ((fromU64 7 : Secp256k1PrimeField) * (z * (z * z))).Rep (7 * z.toZMod ^ 3) :=
    Rep.congr (mul_spec _ _) (by rw [toZMod_seven, hz.2])
  have hrhs := (rep_cube x).add hseven
  have heq : y * y * z = x * x * x + fromU64 7 * (z * (z * z)) ↔
      y.toZMod ^ 2 * z.toZMod = x.toZMod ^ 3 + 7 * z.toZMod ^ 3 := hlhs.eq_iff hrhs
  simp only [tryFrom]
  split_ifs with hzero hcurve
  · simp only [Prod.mk.injEq, false_iff]
    rintro ⟨⟨-, -, rfl⟩, hne, -⟩
    exact hne hzero
  · constructor
    · intro h
      obtain rfl := Except.ok.inj h
      exact ⟨rfl, hzero, heq.mp hcurve⟩
    · rintro ⟨h, -, -⟩
      simp only [Prod.mk.injEq] at h
      obtain ⟨rfl, rfl, rfl⟩ := h
      rfl
  · simp only [Prod.mk.injEq, false_iff]
    rintro ⟨⟨rfl, rfl, rfl⟩, -, hequation⟩
    exact hcurve (heq.mpr hequation)

theorem affine_isValid {a : AffinePoint} :
    a.isValid = true ↔ a.y.toZMod ^ 2 = a.x.toZMod ^ 3 + 7 := by
  rw [AffinePoint.isValid, decide_eq_true_iff]
  have hlhs : (a.y * a.y).Rep (a.y.toZMod ^ 2) := Rep.congr (mul_spec a.y a.y) (sq _).symm
  have hseven : (fromU64 7 : Secp256k1PrimeField).Rep 7 :=
    ⟨canonical_fromU64 (by decide), toZMod_seven⟩
  exact hlhs.eq_iff ((rep_cube a.x).add hseven)

/-- `to_affine` fails its assertion at zero and its unwrap at the other representation of zero. -/
theorem toAffine_eq_none : p.toAffine = none ↔ p.z.toZMod = 0 := by
  rw [toAffine]
  split_ifs with hone hzero
  · simp [hone]
  · simp [hzero]
  · by_cases hz : p.z.toZMod = 0
    · have hne : p.z.value ≠ 0 := fun h => hzero (congrArg ModUint.mk h)
      simp [hz, inverse_none.mpr ⟨hne, hz⟩]
    · obtain ⟨r, hr, -⟩ := inverse_ok hz
      simp [hz, hr]

theorem toAffine_spec (hz : p.z.toZMod ≠ 0) : ∃ a, p.toAffine = some a ∧
    a.x.toZMod = p.x.toZMod * p.z.toZMod⁻¹ ∧ a.y.toZMod = p.y.toZMod * p.z.toZMod⁻¹ := by
  rw [toAffine]
  split_ifs with hone hzero
  · exact ⟨_, rfl, by simp [hone]⟩
  · simp [hzero] at hz
  · obtain ⟨r, hr, hcanonical, hinv⟩ := inverse_ok hz
    rw [hr]
    exact ⟨_, rfl, by rw [(mul_spec _ _).2, hinv], by rw [(mul_spec _ _).2, hinv]⟩

theorem isOnCurve_eq_some_true (hequation : p.Equation) (hz : p.z.toZMod ≠ 0) :
    p.isOnCurve = some true := by
  obtain ⟨a, ha, hx, hy⟩ := toAffine_spec hz
  have hinf : p.isPointAtInfinity = false := by
    rw [isPointAtInfinity, decide_eq_false_iff_not]
    rintro h
    exact hz (by rw [h, toZMod_zero])
  rw [isOnCurve, hinf, if_neg Bool.false_ne_true, ha, Option.map_some, affine_isValid.mpr]
  rw [hx, hy]
  unfold Equation at hequation
  field_simp
  linear_combination hequation

theorem isOnCurve_eq_none : p.isOnCurve = none ↔ p.z = unreducedZero := by
  rw [isOnCurve, isPointAtInfinity]
  split_ifs with hzero
  · rw [decide_eq_true_iff] at hzero
    simp only [hzero, false_iff]
    decide
  · rw [decide_eq_true_iff] at hzero
    rw [Option.map_eq_none_iff, toAffine_eq_none, toZMod_eq_zero_iff]
    simp [hzero]

theorem tryFrom_unreducedZero {x y : Secp256k1PrimeField} (hx : x.toZMod = 0) :
    tryFrom (x, y, unreducedZero) = .ok ⟨x, y, unreducedZero⟩ := by
  have hz := toZMod_eq_zero_iff.mpr (.inr (rfl : unreducedZero = unreducedZero))
  rw [tryFrom_eq_ok]
  have hne : unreducedZero ≠ zero := by decide
  exact ⟨rfl, hne, by simp [Equation, hx, hz]⟩

theorem Represents.isOnCurve {A : Point} (h : p.Represents A) : p.isOnCurve = some true := by
  by_cases hz : p.z.toZMod = 0
  · have hinf : p.z = zero := (toZMod_eq_zero_iff.mp hz).resolve_right fun he => by
      have hcanonical := h.1.2.2
      rw [he] at hcanonical
      revert hcanonical
      decide
    have hinf' : p.isPointAtInfinity = true := decide_eq_true hinf
    rw [Secp256k1.isOnCurve, if_pos hinf']
  · exact isOnCurve_eq_some_true h.2.onCurve.1 hz

end Secp256k1

end SclRs
