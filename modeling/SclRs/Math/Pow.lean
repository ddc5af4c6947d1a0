import SclRs.Math.Field.Mersenne61

/-!
# Exponents of 64 bits

`Ring::pow` as the source computes it, on the bits of a `u64`. The two loops are bounded by a number of
turns here and `none` says that it is not enough; 63 turns are, for every exponent (`pow64_eq`). The power
is the repeated product.
-/

namespace SclRs.RingOps

variable {R : Type} [RingOps R]

/-- The loop that squares while the last bit of the exponent is zero. -/
def powEven64 (base : R) (exp : UInt64) : (turns : Nat) → Option (R × UInt64)
  | 0 => if exp &&& 1 = 0 then none else some (base, exp)
  | turns + 1 =>
    if exp &&& 1 = 0 then powEven64 (mul base base) (exp >>> 1) turns else some (base, exp)

/-- The loop that accumulates. -/
def powOdd64 (acc base : R) (exp : UInt64) : (turns : Nat) → Option R
  | 0 => if 1 < exp then none else some acc
  | turns + 1 =>
    if 1 < exp then
      let exp := exp >>> 1
      let base := mul base base
      powOdd64 (if exp &&& 1 = 1 then mul acc base else acc) base exp turns
    else some acc

/-- `Ring::pow`. -/
def pow64 (a : R) (exp : UInt64) (turns : Nat) : Option R :=
  if exp = 0 then some one
  else do
    let (base, exp) ← powEven64 a exp turns
    if exp = 1 then some base else powOdd64 base base exp turns

def repeatedMul (b : R) : (e : Nat) → R
  | 0 => one
  | e + 1 => mul (repeatedMul b e) b

/-! ### Bits of the exponent -/

theorem toNat_and_one (exp : UInt64) : (exp &&& 1).toNat = exp.toNat % 2 := by
  rw [UInt64.toNat_and]
  exact Nat.and_one_is_mod _

theorem and_one_eq_zero (exp : UInt64) : exp &&& 1 = 0 ↔ exp.toNat % 2 = 0 := by
  rw [← UInt64.toNat_inj, toNat_and_one]
  rfl

theorem and_one_eq_one (exp : UInt64) : exp &&& 1 = 1 ↔ exp.toNat % 2 = 1 := by
  rw [← UInt64.toNat_inj, toNat_and_one]
  rfl

theorem one_lt_iff_toNat (exp : UInt64) : 1 < exp ↔ 1 < exp.toNat := UInt64.lt_iff_toNat_lt

theorem toNat_half (exp : UInt64) : (exp >>> 1).toNat = exp.toNat / 2 := by
  rw [UInt64.toNat_shiftRight]
  exact Nat.shiftRight_eq_div_pow _ 1

/-! ### The loops end -/

theorem powEven64_eq (base : R) {exp : UInt64} {turns : Nat} (hexp : exp ≠ 0)
    (hbits : exp.toNat < 2 ^ (turns + 1)) :
    ∃ q, powEven64 base exp turns = some q ∧ powEven base exp.toNat = (q.1, q.2.toNat) := by
  have hne : exp.toNat ≠ 0 := fun h => hexp (UInt64.toNat_inj.mp h)
  induction turns generalizing base exp with
  | zero =>
    have hodd : ¬exp &&& 1 = 0 := by
      rw [and_one_eq_zero]
      omega
    rw [powEven64, if_neg hodd, powEven, if_neg (by omega)]
    exact ⟨(base, exp), rfl, rfl⟩
  | succ turns ih =>
    rw [powEven64, powEven]
    by_cases heven : exp.toNat % 2 = 0
    · rw [if_pos ((and_one_eq_zero exp).mpr heven), if_pos ⟨hne, heven⟩, ← toNat_half]
      have hhalf := toNat_half exp
      have hne' : (exp >>> 1).toNat ≠ 0 := by omega
      apply ih
      · intro h
        exact hne' (by rw [h]; rfl)
      · rw [pow_succ] at hbits
        omega
      · exact hne'
    · rw [if_neg (mt (and_one_eq_zero exp).mp heven), if_neg (by omega)]
      exact ⟨(base, exp), rfl, rfl⟩

theorem powOdd64_eq (acc base : R) {exp : UInt64} {turns : Nat} (hbits : exp.toNat < 2 ^ (turns + 1)) :
    powOdd64 acc base exp turns = some (powOdd acc base exp.toNat) := by
  induction turns generalizing acc base exp with
  | zero =>
    have hle : ¬1 < exp.toNat := by omega
    rw [powOdd64, if_neg (mt (one_lt_iff_toNat exp).mp hle), powOdd, if_neg hle]
  | succ turns ih =>
    rw [powOdd64, powOdd]
    by_cases hlt : 1 < exp.toNat
    · have hhalf := toNat_half exp
      have hbits' : (exp >>> 1).toNat < 2 ^ (turns + 1) := by
        rw [pow_succ] at hbits
        omega
      rw [if_pos ((one_lt_iff_toNat exp).mpr hlt), if_pos hlt]
      simp only [ih _ _ hbits', and_one_eq_one, hhalf]
    · rw [if_neg (mt (one_lt_iff_toNat exp).mp hlt), if_neg hlt]

/-- **As many turns of each loop as there are bits but one** end the computation, with the power by the
exponent as a number. -/
theorem pow64_eq (a : R) (exp : UInt64) {turns : Nat} (hturns : 63 ≤ turns) :
    pow64 a exp turns = some (pow a exp.toNat) := by
  have hbits (exp : UInt64) : exp.toNat < 2 ^ (turns + 1) :=
    exp.toNat_lt.trans_le (Nat.pow_le_pow_right (by decide) (by omega))
  rw [pow64, pow]
  by_cases hzero : exp = 0
  · subst hzero
    rfl
  have hne : exp.toNat ≠ 0 := fun h => hzero (UInt64.toNat_inj.mp h)
  obtain ⟨⟨base, exp'⟩, heven, heven'⟩ := powEven64_eq a hzero (hbits exp)
  rw [if_neg hzero, if_neg hne, heven, heven']
  simp only [Option.bind_eq_bind, Option.bind_some]
  have hone : exp' = 1 ↔ exp'.toNat = 1 := UInt64.toNat_inj.symm
  by_cases h : exp' = 1
  · rw [if_pos h, if_pos (hone.mp h)]
  · rw [if_neg h, if_neg (mt hone.mpr h)]
    exact powOdd64_eq base base (hbits exp')

/-! ### Repeated multiplication -/

variable {K : Type} [CommRing K] [LawfulRing R K]

theorem repeatedMul_spec {b : R} (hb : LawfulRing.Valid b) (e : Nat) :
    LawfulRing.Valid (repeatedMul b e) ∧ LawfulRing.val (repeatedMul b e) = LawfulRing.val b ^ e := by
  induction e with
  | zero => exact ⟨LawfulRing.valid_one, by rw [pow_zero]; exact LawfulRing.val_one⟩
  | succ e ih =>
    refine ⟨LawfulRing.valid_mul ih.1 hb, ?_⟩
    rw [repeatedMul, LawfulRing.val_mul ih.1 hb, ih.2, pow_succ]

theorem pow_eq_repeatedMul {b : R} (hb : LawfulRing.Valid b) (e : Nat) : pow b e = repeatedMul b e := by
  obtain ⟨hpow, hpowVal⟩ := pow_spec hb e
  obtain ⟨hrep, hrepVal⟩ := repeatedMul_spec hb e
  exact LawfulRing.val_inj hpow hrep (hpowVal.trans hrepVal.symm)

theorem repeatedMul_add {b : R} (hb : LawfulRing.Valid b) (e f : Nat) :
    repeatedMul b (e + f) = mul (repeatedMul b e) (repeatedMul b f) := by
  obtain ⟨he, heVal⟩ := repeatedMul_spec hb e
  obtain ⟨hf, hfVal⟩ := repeatedMul_spec hb f
  obtain ⟨hsum, hsumVal⟩ := repeatedMul_spec hb (e + f)
  apply LawfulRing.val_inj hsum (LawfulRing.valid_mul he hf)
  rw [LawfulRing.val_mul he hf, hsumVal, heVal, hfVal, pow_add]

/-- **Fast exponentiation is repeated multiplication**: it ends, for every exponent, and takes sums that
fit to products. -/
theorem pow64_repeatedMul {b : R} (hb : LawfulRing.Valid b) :
    (∀ (exp : UInt64) (turns : Nat), 63 ≤ turns →
      pow64 b exp turns = some (repeatedMul b exp.toNat)) ∧
    ∀ (e f : UInt64) (turns : Nat), e.toNat + f.toNat < 2 ^ 64 → 63 ≤ turns →
      ∃ x y, pow64 b e turns = some x ∧ pow64 b f turns = some y ∧
        pow64 b (e + f) turns = some (mul x y) := by
  have hpow (exp : UInt64) (turns : Nat) (hturns : 63 ≤ turns) :
      pow64 b exp turns = some (repeatedMul b exp.toNat) := by
    rw [pow64_eq b exp hturns, pow_eq_repeatedMul hb]
  refine ⟨hpow, ?_⟩
  intro e f turns hfits hturns
  refine ⟨_, _, hpow e turns hturns, hpow f turns hturns, ?_⟩
  rw [hpow _ turns hturns, UInt64.toNat_add, Nat.mod_eq_of_lt hfits, repeatedMul_add hb]

/-- Of 3 in the field of the Mersenne prime, by the exponent with all its bits set. -/
theorem pow64_three :
    pow64 (Mersenne61.fromU64 3) 0xFFFFFFFFFFFFFFFF 63 =
        some (repeatedMul (Mersenne61.fromU64 3) 0xFFFFFFFFFFFFFFFF) ∧
      ∃ x y, pow64 (Mersenne61.fromU64 3) 0xFFFFFFFFFFFFFFFE 63 = some x ∧
        pow64 (Mersenne61.fromU64 3) 1 63 = some y ∧
        pow64 (Mersenne61.fromU64 3) (0xFFFFFFFFFFFFFFFE + 1) 63 = some (mul x y) := by
  have hvalid : LawfulRing.Valid (Mersenne61.fromU64 3) := (Mersenne61.Rep.fromU64 rfl).1
  obtain ⟨hpow, hadd⟩ := pow64_repeatedMul hvalid
  exact ⟨hpow 0xFFFFFFFFFFFFFFFF 63 le_rfl, hadd 0xFFFFFFFFFFFFFFFE 1 63 (by decide) le_rfl⟩

end SclRs.RingOps
