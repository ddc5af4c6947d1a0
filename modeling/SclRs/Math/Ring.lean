import Mathlib.Algebra.Field.Basic
import Mathlib.Algebra.Ring.Commute
import Mathlib.Tactic.Ring

/-!
# The traits `Ring` and `FiniteField`

`RingOps` and `FieldOps` are the operations of the traits. A type that implements them is lawful over a
commutative ring `K` when, on its valid representations, the operations are those of `K` under a
bijective `val` (`LawfulRing`, `LawfulField`). A fallible operation answers `Except`; `none` stands
for a Rust panic.
-/

namespace SclRs

inductive FieldError
  | zeroInverse
deriving DecidableEq

/-- The arithmetic of the trait `Ring`. -/
class RingOps (R : Type) where
  zero : R
  one : R
  add : R → R → R
  sub : R → R → R
  mul : R → R → R
  negate : R → R

/-- The arithmetic of the trait `FiniteField`. -/
class FieldOps (R : Type) extends RingOps R where
  inverse : R → Option (Except FieldError R)

/-- `From<u64>`. -/
class FromU64 (F : Type) where
  fromU64 : Nat → F

namespace RingOps

variable {R : Type} [RingOps R]

/-- The loop of `Ring::pow` that squares until the exponent is odd. -/
def powEven (base : R) (exp : Nat) : R × Nat :=
  if exp ≠ 0 ∧ exp % 2 = 0 then powEven (mul base base) (exp / 2) else (base, exp)
termination_by exp
decreasing_by omega

/-- The loop of `Ring::pow` that accumulates. -/
def powOdd (acc base : R) (exp : Nat) : R :=
  if 1 < exp then
    let exp' := exp / 2
    let base := mul base base
    powOdd (if exp' % 2 = 1 then mul acc base else acc) base exp'
  else acc
termination_by exp
decreasing_by omega

/-- `Ring::pow`, for an exponent of type `u64`. -/
def pow (a : R) (exp : Nat) : R :=
  if exp = 0 then one
  else
    let (base, exp) := powEven a exp
    if exp = 1 then base else powOdd base base exp

protected theorem pow_zero (a : R) : pow a 0 = one := rfl

protected theorem pow_one (a : R) : pow a 1 = a := by
  rw [pow, powEven]
  simp

theorem powOdd_eq_mul (acc base : R) {exp : Nat} (h : 1 < exp) :
    ∃ a b, powOdd acc base exp = mul a b := by
  induction exp using Nat.strong_induction_on generalizing acc base with
  | h exp ih =>
    rw [powOdd, if_pos h]
    by_cases hnext : 1 < exp / 2
    · exact ih (exp / 2) (by omega) _ _ hnext
    · have hone : exp / 2 = 1 := by omega
      rw [powOdd, if_neg hnext, hone]
      exact ⟨_, _, rfl⟩

theorem powEven_eq (a : R) {exp : Nat} (h : exp ≠ 0) :
    powEven a exp = (a, exp) ∨ ∃ b c, (powEven a exp).1 = mul b c := by
  induction exp using Nat.strong_induction_on generalizing a with
  | h exp ih =>
    rw [powEven]
    split_ifs with heven
    · rcases ih (exp / 2) (by omega) (mul a a) (by omega) with hsame | hmul
      · exact .inr ⟨a, a, by rw [hsame]⟩
      · exact .inr hmul
    · exact .inl rfl

theorem powEven_snd_pos (a : R) {exp : Nat} (h : exp ≠ 0) : 0 < (powEven a exp).2 := by
  induction exp using Nat.strong_induction_on generalizing a with
  | h exp ih =>
    rw [powEven]
    split_ifs with heven
    · exact ih (exp / 2) (by omega) (mul a a) (by omega)
    · omega

theorem pow_eq_mul (a : R) {exp : Nat} (h : 2 ≤ exp) : ∃ b c, pow a exp = mul b c := by
  rw [pow, if_neg (by omega)]
  have hne : exp ≠ 0 := by omega
  have hcases := powEven_eq a hne
  have hpos := powEven_snd_pos a hne
  generalize powEven a exp = q at hcases hpos
  obtain ⟨base, e⟩ := q
  simp only at hcases hpos ⊢
  split_ifs with hone
  · rcases hcases with hsame | hmul
    · have := congrArg Prod.snd hsame
      simp only at this
      omega
    · exact hmul
  · exact powOdd_eq_mul _ _ (by omega)

end RingOps

/-- `R`'s operations are those of `K` on valid representations. -/
class LawfulRing (R : Type) (K : outParam Type) [RingOps R] [CommRing K] where
  Valid : R → Prop
  val : R → K
  val_inj {a b : R} : Valid a → Valid b → val a = val b → a = b
  val_surj (v : K) : ∃ a : R, Valid a ∧ val a = v
  valid_zero : Valid RingOps.zero
  valid_one : Valid RingOps.one
  valid_add {a b : R} : Valid a → Valid b → Valid (RingOps.add a b)
  valid_sub {a b : R} : Valid a → Valid b → Valid (RingOps.sub a b)
  valid_mul {a b : R} : Valid a → Valid b → Valid (RingOps.mul a b)
  valid_negate {a : R} : Valid a → Valid (RingOps.negate a)
  val_zero : val RingOps.zero = 0
  val_one : val RingOps.one = 1
  val_add {a b : R} : Valid a → Valid b → val (RingOps.add a b) = val a + val b
  val_sub {a b : R} : Valid a → Valid b → val (RingOps.sub a b) = val a - val b
  val_mul {a b : R} : Valid a → Valid b → val (RingOps.mul a b) = val a * val b
  val_negate {a : R} : Valid a → val (RingOps.negate a) = -val a

/-- Valid representations are as many as the elements of `K`. -/
noncomputable def LawfulRing.validEquiv {R K : Type} [RingOps R] [CommRing K] [LawfulRing R K] :
    {x : R // Valid x} ≃ K :=
  Equiv.ofBijective (fun x => val x.1)
    ⟨fun x y h => Subtype.ext (val_inj x.2 y.2 h),
      fun v => (val_surj (R := R) v).elim fun a ha => ⟨⟨a, ha.1⟩, ha.2⟩⟩

class LawfulField (R : Type) (K : outParam Type) [FieldOps R] [Field K] extends LawfulRing R K where
  inverse_zero {a : R} : Valid a → val a = 0 → FieldOps.inverse a = some (.error .zeroInverse)
  inverse_ne_zero {a : R} : Valid a → val a ≠ 0 →
    ∃ r, FieldOps.inverse a = some (.ok r) ∧ Valid r ∧ val r = (val a)⁻¹

class LawfulFromU64 (F : Type) {K : outParam Type} [RingOps F] [CommRing K] [LawfulRing F K]
    [FromU64 F] : Prop where
  valid_fromU64 : ∀ n < 2 ^ 64, LawfulRing.Valid (FromU64.fromU64 n : F)

namespace RingOps

/-! ### Fast exponentiation -/

section
variable {R K : Type} [RingOps R] [CommMonoid K] {P : R → Prop} {f : R → K}

theorem powEven_spec (hmul : ∀ {a b}, P a → P b → P (mul a b) ∧ f (mul a b) = f a * f b) {a : R}
    (ha : P a) {exp : Nat} (hexp : exp ≠ 0) :
    P (powEven a exp).1 ∧ (powEven a exp).2 % 2 = 1 ∧
      f (powEven a exp).1 ^ (powEven a exp).2 = f a ^ exp := by
  induction exp using Nat.strong_induction_on generalizing a with
  | h exp ih =>
    unfold powEven
    split_ifs with heven
    · obtain ⟨hbase, hval⟩ := hmul ha ha
      obtain ⟨hvalid, hodd, hpow⟩ := ih (exp / 2) (by omega) hbase (by omega)
      refine ⟨hvalid, hodd, hpow.trans ?_⟩
      rw [hval, ← sq, ← pow_mul]
      congr 1
      omega
    · exact ⟨ha, by omega, rfl⟩

/-- The invariant of the accumulating loop: `acc` times the rest of the power is the whole. -/
theorem powOdd_spec (hmul : ∀ {a b}, P a → P b → P (mul a b) ∧ f (mul a b) = f a * f b) {acc base : R}
    (hacc : P acc) (hbase : P base) {exp : Nat} (hexp : exp ≠ 0) :
    P (powOdd acc base exp) ∧ f (powOdd acc base exp) = f acc * f base ^ (exp - exp % 2) := by
  induction exp using Nat.strong_induction_on generalizing acc base with
  | h exp ih =>
    rw [powOdd]
    by_cases hlt : 1 < exp
    · obtain ⟨hsquare, hsquareVal⟩ := hmul hbase hbase
      by_cases hodd : exp / 2 % 2 = 1
      · obtain ⟨hacc', haccVal⟩ := hmul hacc hsquare
        obtain ⟨hvalid, hval⟩ := ih (exp / 2) (by omega) hacc' hsquare (by omega)
        simp only [hlt, hodd, if_true]
        refine ⟨hvalid, hval.trans ?_⟩
        rw [haccVal, hsquareVal, mul_assoc, ← sq, ← pow_mul, ← pow_add]
        congr 2
        omega
      · obtain ⟨hvalid, hval⟩ := ih (exp / 2) (by omega) hacc hsquare (by omega)
        simp only [hlt, hodd, if_true, if_false]
        refine ⟨hvalid, hval.trans ?_⟩
        rw [hsquareVal, ← sq, ← pow_mul]
        congr 2
        omega
    · obtain rfl : exp = 1 := by omega
      simp only [lt_irrefl, if_false]
      exact ⟨hacc, by simp⟩

/-- **Fast exponentiation is exponentiation** under every map that takes the products of a closed set of
representations to products. -/
theorem pow_of_mul (hone : P one ∧ f one = 1)
    (hmul : ∀ {a b}, P a → P b → P (mul a b) ∧ f (mul a b) = f a * f b) {a : R} (ha : P a) (exp : Nat) :
    P (pow a exp) ∧ f (pow a exp) = f a ^ exp := by
  unfold pow
  split_ifs with hzero
  · subst hzero
    exact ⟨hone.1, by rw [hone.2, pow_zero]⟩
  · obtain ⟨hvalid, hodd, hpow⟩ := powEven_spec hmul ha hzero
    generalize powEven a exp = p at hvalid hodd hpow ⊢
    obtain ⟨base, e⟩ := p
    simp only at hvalid hodd hpow ⊢
    split_ifs with hone
    · subst hone
      exact ⟨hvalid, by rw [← hpow, pow_one]⟩
    · obtain ⟨hvalid', hval⟩ := powOdd_spec hmul hvalid hvalid (show e ≠ 0 by omega)
      refine ⟨hvalid', ?_⟩
      rw [hval, ← hpow, ← pow_succ']
      congr 1
      omega

end

theorem pow_spec {R K : Type} [RingOps R] [CommRing K] [LawfulRing R K] {a : R}
    (ha : LawfulRing.Valid a) (exp : Nat) :
    LawfulRing.Valid (pow a exp) ∧ LawfulRing.val (pow a exp) = LawfulRing.val a ^ exp :=
  pow_of_mul ⟨LawfulRing.valid_one, LawfulRing.val_one⟩
    (fun ha hb => ⟨LawfulRing.valid_mul ha hb, LawfulRing.val_mul ha hb⟩) ha exp

end RingOps

end SclRs
