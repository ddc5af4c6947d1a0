import SclRs.Math.Field.Canonical

/-!
# Division

`Div` of the two fields of secp256k1 multiplies the dividend by the inverse of the divisor. `Div` of
`Mersenne61` has the two operands in each other's place: `a / b` is `b * a⁻¹`, and the error is that of
a dividend of zero. The two quotients are the same where the squares of the operands are
(`Mersenne61.divides_iff`), which leaves `b` and `-b` as the dividends of `b`.
-/

namespace SclRs

open FieldApi

section
variable {F Inner : Type} [FieldApi F Inner]

/-- `a / b` is an error for the divisor zero alone, and is otherwise what gives `a` times `b`. -/
structure FieldApi.Divides (checks : Bool) (a b : F) : Prop where
  error : div checks a b = some (.error .zeroInverse) ↔ b = zero
  ok : b ≠ zero → ∃ q, div checks a b = some (.ok q) ∧ mul checks q b = some a

end

/-! ### The fields of secp256k1 -/

theorem ModUint.divides [CryptoBigint] {m : Nat} [ModUint.IsModulus m] [Fact m.Prime] (checks : Bool)
    {a b : ModUint m} (ha : Reduced a) (hb : Reduced b) : Divides checks a b := by
  have ha : a.Canonical := ha
  have hb : b.Canonical := hb
  by_cases hzero : b = ModUint.zero
  · have hdiv : a.div b = some (.error .zeroInverse) := by
      subst hzero
      rfl
    exact ⟨iff_of_true hdiv hzero, fun hne => absurd hzero hne⟩
  · have hne : b.toZMod ≠ 0 := fun h =>
      hzero (hb.ext ModUint.canonical_zero (h.trans ModUint.toZMod_zero.symm))
    obtain ⟨r, hr, hcanonical, hval⟩ := ModUint.inverse_ok hne
    have hdiv : a.div b = some (.ok (a * r)) := by
      rw [ModUint.div, hr]
      rfl
    refine ⟨iff_of_false (fun h => ?_) hzero, fun _ => ⟨a * r, hdiv, ?_⟩⟩
    · cases hdiv.symm.trans h
    · have hprod := ModUint.mul_spec (a * r) b
      refine congrArg some (hprod.1.ext ha ?_)
      rw [hprod.2, (ModUint.mul_spec a r).2, hval, mul_assoc, inv_mul_cancel₀ hne, mul_one]

/-! ### `Mersenne61` -/

namespace Mersenne61

theorem div_zero_left (checks : Bool) (b : Mersenne61) :
    zero.div checks b = some (.error .zeroInverse) := rfl

theorem div_of_ne (checks : Bool) {a b : Mersenne61} (ha : a.Canonical) (hb : b.Canonical)
    (hne : a.toZMod ≠ 0) :
    ∃ q, a.div checks b = some (.ok q) ∧ q.Rep (b.toZMod * a.toZMod⁻¹) := by
  obtain ⟨r, hr, hinverse⟩ := Rep.inverse checks ⟨ha, rfl⟩ hne
  obtain ⟨q, hq, hrep⟩ := Rep.mul checks ⟨hb, rfl⟩ hinverse
  refine ⟨q, ?_, hrep⟩
  simp only [div, hr, hq, Option.bind_eq_bind, Option.bind_some, Option.pure_def]

theorem eq_or_negate_iff (checks : Bool) {a b : Mersenne61} (ha : a.Canonical) (hb : b.Canonical) :
    a = b ∨ b.negate checks = some a ↔ a.toZMod ^ 2 = b.toZMod ^ 2 := by
  obtain ⟨c, hc, hcanonical, hval⟩ := Rep.negate checks ⟨hb, rfl⟩
  rw [sq_eq_sq_iff_eq_or_eq_neg, ← hval, hc, Option.some.injEq]
  refine or_congr ⟨fun h => h ▸ rfl, ha.ext hb⟩ ⟨fun h => h ▸ rfl, fun h => (ha.ext hcanonical h).symm⟩

/-- **Where `Mersenne61` divides.** -/
theorem divides_iff (checks : Bool) {a b : Mersenne61} (ha : a.Canonical) (hb : b.Canonical) :
    Divides checks a b ↔ a = b ∨ b.negate checks = some a := by
  rw [eq_or_negate_iff checks ha hb]
  by_cases hzero : a = zero
  · subst hzero
    rw [toZMod_zero, zero_pow two_ne_zero, eq_comm, pow_eq_zero_iff two_ne_zero, hb.toZMod_eq_zero]
    refine ⟨fun h => h.error.mp (div_zero_left checks b), fun h => ?_⟩
    exact ⟨iff_of_true (div_zero_left checks b) h, fun hne => absurd h hne⟩
  · have hne : a.toZMod ≠ 0 := fun h => hzero (ha.toZMod_eq_zero.mp h)
    obtain ⟨q, hq, hrep⟩ := div_of_ne checks ha hb hne
    have herror : ¬ a.div checks b = some (.error .zeroInverse) := fun h => by cases hq.symm.trans h
    obtain ⟨c, hc, hcrep⟩ := Rep.mul checks hrep ⟨hb, rfl⟩
    have hprod : c = a ↔ a.toZMod ^ 2 = b.toZMod ^ 2 := by
      have hclass : c = a ↔ b.toZMod * a.toZMod⁻¹ * b.toZMod = a.toZMod :=
        ⟨fun h => by rw [← hcrep.2, h], fun h => hcrep.1.ext ha (hcrep.2.trans h)⟩
      rw [hclass, mul_right_comm, ← sq, mul_inv_eq_iff_eq_mul₀ hne, ← sq, eq_comm]
    constructor
    · intro h
      have hbne : b ≠ zero := fun hb0 => herror (h.error.mpr hb0)
      obtain ⟨q', hq', hmul⟩ := h.ok hbne
      obtain rfl := Except.ok.inj (Option.some.inj (hq.symm.trans hq'))
      exact hprod.mp (Option.some.inj (hc.symm.trans hmul))
    · intro h
      have hbne : b ≠ zero := by
        rintro rfl
        rw [toZMod_zero, zero_pow two_ne_zero, pow_eq_zero_iff two_ne_zero] at h
        exact hne h
      exact ⟨iff_of_false herror hbne, fun _ => ⟨q, hq, hc.trans (congrArg some (hprod.mpr h))⟩⟩

end Mersenne61

/-- **Where division is multiplication by the divisor's inverse.** -/
theorem division_iff [CryptoBigint] (checks : Bool) :
    (∀ a b : Secp256k1PrimeField, Reduced a → Reduced b → Divides checks a b) ∧
    (∀ a b : Secp256k1ScalarField, Reduced a → Reduced b → Divides checks a b) ∧
    ∀ a b : Mersenne61, Reduced a → Reduced b →
      (Divides checks a b ↔ a = b ∨ FieldApi.negate checks b = some a) :=
  ⟨fun _ _ ha hb => ModUint.divides checks ha hb, fun _ _ ha hb => ModUint.divides checks ha hb,
    fun _ _ ha hb => Mersenne61.divides_iff checks ha hb⟩

/-- Of 1 by 2 the answer is 2, of 1 by zero it is zero, and of zero by 1 it is the error. -/
theorem division_swapped :
    (∀ checks, Mersenne61.div checks ⟨1⟩ ⟨2⟩ = some (.ok ⟨2⟩) ∧ ¬ Divides checks (⟨1⟩ : Mersenne61) ⟨2⟩) ∧
    (∀ checks, Mersenne61.div checks ⟨1⟩ ⟨0⟩ = some (.ok ⟨0⟩) ∧ ¬ Divides checks (⟨1⟩ : Mersenne61) ⟨0⟩) ∧
    ∀ checks, Mersenne61.div checks ⟨0⟩ ⟨1⟩ = some (.error .zeroInverse) ∧
      ¬ Divides checks (⟨0⟩ : Mersenne61) ⟨1⟩ := by
  have hdivides : ∀ checks, ∀ a b : Mersenne61, a.Canonical → b.Canonical →
      ¬ (a = b ∨ b.negate checks = some a) → ¬ Divides checks a b := by
    intro checks a b ha hb h hdivides
    exact h ((Mersenne61.divides_iff checks ha hb).mp hdivides)
  refine ⟨fun checks => ⟨?_, hdivides _ _ _ (by decide) (by decide) ?_⟩,
    fun checks => ⟨?_, hdivides _ _ _ (by decide) (by decide) ?_⟩,
    fun checks => ⟨rfl, hdivides _ _ _ (by decide) (by decide) ?_⟩⟩
  all_goals cases checks <;> decide +kernel

theorem division_iff_one :
    letI := CryptoBigint.reference
    Divides true (ModUint.one : Secp256k1PrimeField) ModUint.one ∧
      Divides true (ModUint.one : Secp256k1ScalarField) ModUint.one ∧
      (Divides true (⟨1⟩ : Mersenne61) ⟨1⟩ ↔
        (⟨1⟩ : Mersenne61) = ⟨1⟩ ∨ FieldApi.negate true (⟨1⟩ : Mersenne61) = some ⟨1⟩) := by
  let := CryptoBigint.reference
  have hprime : Reduced (ModUint.one : Secp256k1PrimeField) := ModUint.canonical_one
  have hscalar : Reduced (ModUint.one : Secp256k1ScalarField) := ModUint.canonical_one
  have hmersenne : Reduced (⟨1⟩ : Mersenne61) := by
    unfold Reduced
    decide
  exact ⟨(division_iff true).1 _ _ hprime hprime, (division_iff true).2.1 _ _ hscalar hscalar,
    (division_iff true).2.2 _ _ hmersenne hmersenne⟩

end SclRs
