import SclRs.Math.Field.Mersenne61

/-!
# Exact arithmetic in `Mersenne61`

No operation on reduced elements overflows a machine integer, and the results are those of the integers
modulo `2^61 - 1`. The two loops are followed turn by turn: `FromLoop` counts the subtractions of
`From<u64>`, at most eight, and `InverseLoop` is the run of `inverse`.
-/

namespace SclRs.Mersenne61

open Lib.Checked

/-- A reduced representation of the integer's residue. -/
def IsResidue (c : Mersenne61) (z : ℤ) : Prop :=
  c.Canonical ∧ (c.value.toNat : ℤ) ≡ z [ZMOD mersenneModulus]

theorem Rep.isResidue {c : Mersenne61} {u : ZMod mersenneModulus} {z : ℤ} (h : c.Rep u)
    (hz : (z : ZMod mersenneModulus) = u) : c.IsResidue z := by
  refine ⟨h.1, (ZMod.intCast_eq_intCast_iff _ _ _).mp ?_⟩
  rw [hz, Int.cast_natCast]
  exact h.2

/-! ### `From<u64>` -/

/-- The loop of `From<u64>`: from `value`, so many subtractions that do not underflow lead to the last
value. -/
inductive FromLoop : (value : UInt64) → (turns : Nat) → (final : UInt64) → Prop
  | done {value : UInt64} : ¬ modulus ≤ value → FromLoop value 0 value
  | turn {value value' final : UInt64} {turns : Nat} : modulus ≤ value →
      u64Sub true value modulus = some value' → FromLoop value' turns final →
      FromLoop value (turns + 1) final

theorem exists_fromLoop (value : UInt64) :
    ∃ turns, turns * mersenneModulus ≤ value.toNat ∧ FromLoop value turns (fromU64 value).value := by
  induction h : value.toNat using Nat.strong_induction_on generalizing value with
  | h n ih =>
    subst h
    rw [fromU64]
    split_ifs with hle
    · have hle' : mersenneModulus ≤ value.toNat := UInt64.le_iff_toNat_le.mp hle
      have hpos : 0 < mersenneModulus := by decide
      obtain ⟨value', hsub, hval⟩ := u64Sub_of_le true (UInt64.le_iff_toNat_le.mp hle)
      obtain rfl : value - modulus = value' := eq_of_result hsub
      rw [toNat_modulus] at hval
      obtain ⟨turns, hturns, hloop⟩ := ih _ (by omega) (value - modulus) rfl
      refine ⟨turns + 1, ?_, .turn hle hsub hloop⟩
      rw [Nat.succ_mul]
      omega
    · exact ⟨0, by omega, .done hle⟩

/-! ### The operations -/

/-- **The arithmetic is that of the integers modulo `2^61 - 1`**, and no machine integer overflows on the
way. -/
theorem arithmetic_exact (checks : Bool) {a b : Mersenne61} (ha : a.Canonical) (hb : b.Canonical)
    (v : UInt64) :
    ((fromU64 v).IsResidue v.toNat ∧ ∃ turns ≤ 8, FromLoop v turns (fromU64 v).value) ∧
    (∃ c, a.add checks b = some c ∧ c.IsResidue (a.value.toNat + b.value.toNat)) ∧
    (∃ c, a.sub checks b = some c ∧ c.IsResidue (a.value.toNat - b.value.toNat)) ∧
    (∃ c, a.negate checks = some c ∧ c.IsResidue (-a.value.toNat)) ∧
    (∃ c, a.mul checks b = some c ∧ c.IsResidue (a.value.toNat * b.value.toNat)) ∧
    a.value.toNat * b.value.toNat < 2 ^ 128 ∧ (a.value.toNat * b.value.toNat) >>> bitSize < 2 ^ 64 := by
  have hprod : a.value.toNat * b.value.toNat < 2 ^ 122 := (Nat.mul_lt_mul'' ha hb).trans (by decide)
  refine ⟨⟨(Rep.fromU64 rfl).isResidue (by push_cast; rfl), ?_⟩, ?_, ?_, ?_, ?_, ?_, ?_⟩
  · obtain ⟨turns, hturns, hloop⟩ := exists_fromLoop v
    have hv := v.toNat_lt
    have hbound : 2 ^ 64 < 9 * mersenneModulus := by decide
    exact ⟨turns, by by_contra h; nlinarith, hloop⟩
  · obtain ⟨c, hc, hrep⟩ := Rep.add checks ⟨ha, rfl⟩ ⟨hb, rfl⟩
    exact ⟨c, hc, hrep.isResidue (by push_cast; rfl)⟩
  · obtain ⟨c, hc, hrep⟩ := Rep.sub checks ⟨ha, rfl⟩ ⟨hb, rfl⟩
    exact ⟨c, hc, hrep.isResidue (by push_cast; rfl)⟩
  · obtain ⟨c, hc, hrep⟩ := Rep.negate checks ⟨ha, rfl⟩
    exact ⟨c, hc, hrep.isResidue (by push_cast; rfl)⟩
  · obtain ⟨c, hc, hrep⟩ := Rep.mul checks ⟨ha, rfl⟩ ⟨hb, rfl⟩
    exact ⟨c, hc, hrep.isResidue (by push_cast; rfl)⟩
  · exact hprod.trans (by decide)
  · rw [Nat.shiftRight_eq_div_pow]
    exact (Nat.div_lt_iff_lt_mul (by decide)).mpr (hprod.trans (by decide))

/-- The greatest element with itself, and the greatest word. -/
theorem arithmetic_exact_greatest :
    ((fromU64 0xFFFFFFFFFFFFFFFF).IsResidue ((0xFFFFFFFFFFFFFFFF : UInt64).toNat : ℤ) ∧
      ∃ turns ≤ 8, FromLoop 0xFFFFFFFFFFFFFFFF turns (fromU64 0xFFFFFFFFFFFFFFFF).value) ∧
    (∃ c, add true ⟨modulus - 1⟩ ⟨modulus - 1⟩ = some c ∧
      c.IsResidue (((modulus - 1).toNat : ℤ) + (modulus - 1).toNat)) ∧
    (∃ c, sub true ⟨modulus - 1⟩ ⟨modulus - 1⟩ = some c ∧
      c.IsResidue (((modulus - 1).toNat : ℤ) - (modulus - 1).toNat)) ∧
    (∃ c, negate true ⟨modulus - 1⟩ = some c ∧ c.IsResidue (-((modulus - 1).toNat : ℤ))) ∧
    (∃ c, mul true ⟨modulus - 1⟩ ⟨modulus - 1⟩ = some c ∧
      c.IsResidue (((modulus - 1).toNat : ℤ) * (modulus - 1).toNat)) ∧
    (modulus - 1).toNat * (modulus - 1).toNat < 2 ^ 128 ∧
      ((modulus - 1).toNat * (modulus - 1).toNat) >>> bitSize < 2 ^ 64 := by
  have hcanonical : (⟨modulus - 1⟩ : Mersenne61).Canonical := by decide
  exact arithmetic_exact true hcanonical hcanonical 0xFFFFFFFFFFFFFFFF

/-! ### Inversion -/

/-- **Inversion ends with the inverse**, and every number on the way is an `i64`. -/
theorem inverse_exact (checks : Bool) {a : Mersenne61} (ha : a.Canonical) :
    (a.inverse checks = some (.error .zeroInverse) ↔ a = zero) ∧
    (a ≠ zero → ∃ turns final c, InverseLoop 0 1 mersenneModulus a.value.toNat turns final ∧
      FitsI64 (final + mersenneModulus) ∧ a.inverse checks = some (.ok c) ∧ c.IsResidue final ∧
      a.mul checks c = some one) := by
  constructor
  · constructor
    · intro h
      by_contra hne
      obtain ⟨-, -, c, -, -, -, hc, -⟩ := inverse_run checks ha hne
      cases hc.symm.trans h
    · exact fun h => if_pos h
  · intro hne
    obtain ⟨turns, final, c, hloop, hfits, hinverse, hc, hrep⟩ := inverse_run checks ha hne
    refine ⟨turns, final, c, hloop, hfits, hc, hrep.isResidue rfl, ?_⟩
    obtain ⟨product, hproduct, hcanonical, hval⟩ := Rep.mul checks ⟨ha, rfl⟩ hrep
    rw [mul_comm, hinverse, ← toZMod_one] at hval
    rw [hproduct, hcanonical.ext (by decide) hval]

theorem inverse_exact_greatest :
    (inverse true ⟨modulus - 1⟩ = some (.error .zeroInverse) ↔ (⟨modulus - 1⟩ : Mersenne61) = zero) ∧
    ((⟨modulus - 1⟩ : Mersenne61) ≠ zero → ∃ turns final c,
      InverseLoop 0 1 mersenneModulus (modulus - 1).toNat turns final ∧
      FitsI64 (final + mersenneModulus) ∧ inverse true ⟨modulus - 1⟩ = some (.ok c) ∧
      c.IsResidue final ∧ mul true ⟨modulus - 1⟩ c = some one) := by
  have hcanonical : (⟨modulus - 1⟩ : Mersenne61).Canonical := by decide
  exact inverse_exact true hcanonical

end SclRs.Mersenne61
