import Mathlib.Algebra.Order.Ring.Int
import Mathlib.Tactic.Ring

/-!
# Machine integers with checks

Arithmetic of 64-bit integers in a build that panics on overflow (`checks`) or wraps around. Where the
exact result fits, both builds have it.
-/

namespace SclRs.Lib.Checked

/-- A result that wraps around unless it fits. -/
def result {α : Type} (checks fits : Bool) (wrapped : α) : Option α :=
  if checks && !fits then none else some wrapped

theorem result_of_fits {α : Type} {checks fits : Bool} (h : fits = true) (wrapped : α) :
    result checks fits wrapped = some wrapped := by
  rw [result, h, Bool.not_true, Bool.and_false]
  rfl

theorem eq_of_result {α : Type} {checks fits : Bool} {wrapped r : α}
    (h : result checks fits wrapped = some r) : wrapped = r := by
  unfold result at h
  split_ifs at h
  exact Option.some.inj h

/-! ### `u64` -/

def u64Add (checks : Bool) (a b : UInt64) : Option UInt64 :=
  result checks (a.toNat + b.toNat < 2 ^ 64) (a + b)

def u64Sub (checks : Bool) (a b : UInt64) : Option UInt64 := result checks (b ≤ a) (a - b)

theorem u64Add_of_lt (checks : Bool) {a b : UInt64} (h : a.toNat + b.toNat < 2 ^ 64) :
    ∃ c, u64Add checks a b = some c ∧ c.toNat = a.toNat + b.toNat :=
  ⟨a + b, result_of_fits (decide_eq_true h) _, by rw [UInt64.toNat_add, Nat.mod_eq_of_lt h]⟩

theorem u64Sub_of_le (checks : Bool) {a b : UInt64} (h : b.toNat ≤ a.toNat) :
    ∃ c, u64Sub checks a b = some c ∧ c.toNat = a.toNat - b.toNat := by
  have hle : b ≤ a := UInt64.le_iff_toNat_le.mpr h
  exact ⟨a - b, result_of_fits (decide_eq_true hle) _, UInt64.toNat_sub_of_le a b hle⟩

theorem u64Add_of_not_lt {a b : UInt64} (h : ¬ a.toNat + b.toNat < 2 ^ 64) : u64Add true a b = none := by
  rw [u64Add, result, decide_eq_false h]
  rfl

theorem u64Sub_of_not_le {a b : UInt64} (h : ¬ b.toNat ≤ a.toNat) : u64Sub true a b = none := by
  rw [u64Sub, result, decide_eq_false (mt UInt64.le_iff_toNat_le.mp h)]
  rfl

/-! ### `i64` -/

/-- The number is one of an `i64`. -/
def FitsI64 (x : Int) : Prop := -2 ^ 63 ≤ x ∧ x < 2 ^ 63

instance (x : Int) : Decidable (FitsI64 x) := inferInstanceAs (Decidable (_ ∧ _))

theorem fitsI64_toInt (a : Int64) : FitsI64 a.toInt := ⟨a.le_toInt, a.toInt_lt⟩

theorem bmod_of_fits {x : Int} (h : FitsI64 x) : x.bmod (2 ^ 64) = x :=
  Int.bmod_eq_of_le_mul_two (by have := h.1; omega) (by have := h.2; omega)

theorem toInt_toInt64 {v : UInt64} (h : v.toNat < 2 ^ 63) : v.toInt64.toInt = v.toNat := by
  have hbits : v.toInt64.toInt = v.toBitVec.toInt := rfl
  rw [hbits, BitVec.toInt_eq_toNat_of_lt (by rw [UInt64.toNat_toBitVec]; omega), UInt64.toNat_toBitVec]

theorem toNat_toUInt64 {k : Int64} (h : 0 ≤ k.toInt) : (k.toUInt64.toNat : Int) = k.toInt := by
  have hbits : k.toInt = k.toBitVec.toInt := rfl
  have hnat : k.toUInt64.toNat = k.toBitVec.toNat := rfl
  rw [hbits, BitVec.toInt_eq_toNat_cond] at h ⊢
  rw [hnat]
  split_ifs at h ⊢ with hlt
  · rfl
  · have := k.toBitVec.isLt
    omega

def i64Add (checks : Bool) (a b : Int64) : Option Int64 :=
  result checks (FitsI64 (a.toInt + b.toInt)) (a + b)

def i64Sub (checks : Bool) (a b : Int64) : Option Int64 :=
  result checks (FitsI64 (a.toInt - b.toInt)) (a - b)

def i64Mul (checks : Bool) (a b : Int64) : Option Int64 :=
  result checks (FitsI64 (a.toInt * b.toInt)) (a * b)

/-- The quotient, towards zero: a panic in every build where there is none. -/
def i64Div (a b : Int64) : Option Int64 :=
  if b = 0 ∨ (a = Int64.minValue ∧ b = -1) then none else some (a / b)

theorem i64Add_of_fits (checks : Bool) {a b : Int64} (h : FitsI64 (a.toInt + b.toInt)) :
    ∃ c, i64Add checks a b = some c ∧ c.toInt = a.toInt + b.toInt :=
  ⟨a + b, result_of_fits (decide_eq_true h) _, by rw [Int64.toInt_add, bmod_of_fits h]⟩

theorem i64Sub_of_fits (checks : Bool) {a b : Int64} (h : FitsI64 (a.toInt - b.toInt)) :
    ∃ c, i64Sub checks a b = some c ∧ c.toInt = a.toInt - b.toInt :=
  ⟨a - b, result_of_fits (decide_eq_true h) _, by rw [Int64.toInt_sub, bmod_of_fits h]⟩

theorem i64Mul_of_fits (checks : Bool) {a b : Int64} (h : FitsI64 (a.toInt * b.toInt)) :
    ∃ c, i64Mul checks a b = some c ∧ c.toInt = a.toInt * b.toInt :=
  ⟨a * b, result_of_fits (decide_eq_true h) _, by rw [Int64.toInt_mul, bmod_of_fits h]⟩

theorem i64Div_eq_some {a b q : Int64} (h : i64Div a b = some q) :
    b.toInt ≠ 0 ∧ q.toInt = a.toInt.tdiv b.toInt := by
  unfold i64Div at h
  split_ifs at h with hpanic
  obtain rfl := Option.some.inj h
  obtain ⟨hb, hmin⟩ := not_or.mp hpanic
  have hb0 : b.toInt ≠ 0 := fun h0 => hb (Int64.toInt_inj.mp h0)
  refine ⟨hb0, ?_⟩
  by_cases ha : a = Int64.minValue
  · exact Int64.toInt_div_of_ne_right _ _ fun hb1 => hmin ⟨ha, hb1⟩
  · exact Int64.toInt_div_of_ne_left _ _ ha

theorem i64Div_of_fits {a b : Int64} (hb : b.toInt ≠ 0) (h : FitsI64 (a.toInt.tdiv b.toInt)) :
    ∃ q, i64Div a b = some q ∧ q.toInt = a.toInt.tdiv b.toInt := by
  have hpanic : ¬ (b = 0 ∨ (a = Int64.minValue ∧ b = -1)) := by
    rintro (rfl | ⟨rfl, rfl⟩)
    · exact hb rfl
    · exact absurd h (by decide)
  have hsome : i64Div a b = some (a / b) := if_neg hpanic
  exact ⟨a / b, hsome, (i64Div_eq_some hsome).2⟩

theorem tmod_bounds (a b : Int) : (0 ≤ a → 0 ≤ a.tmod b) ∧ (a ≤ 0 → a.tmod b ≤ 0) ∧
    (a.tmod b).natAbs ≤ a.natAbs := by
  refine ⟨fun ha => Int.tmod_nonneg b ha, fun ha => ?_, ?_⟩
  · have := Int.tmod_nonneg b (show 0 ≤ -a by omega)
    rw [Int.neg_tmod] at this
    omega
  · rw [Int.natAbs_tmod]
    exact Nat.mod_le _ _

theorem i64Rem (checks : Bool) {a b q : Int64} (h : i64Div a b = some q) :
    ∃ p r, i64Mul checks q b = some p ∧ i64Sub checks a p = some r ∧ r.toInt = a.toInt.tmod b.toInt := by
  obtain ⟨-, hq⟩ := i64Div_eq_some h
  have hsplit : a.toInt = q.toInt * b.toInt + a.toInt.tmod b.toInt := by
    rw [hq, mul_comm, Int.mul_tdiv_add_tmod]
  obtain ⟨hnonneg, hnonpos, hle⟩ := tmod_bounds a.toInt b.toInt
  have ha := fitsI64_toInt a
  have hprod : FitsI64 (q.toInt * b.toInt) := by
    unfold FitsI64 at ha ⊢
    omega
  obtain ⟨p, hp, hpval⟩ := i64Mul_of_fits checks hprod
  have hdiff : FitsI64 (a.toInt - p.toInt) := by
    unfold FitsI64 at ha ⊢
    omega
  obtain ⟨r, hr, hrval⟩ := i64Sub_of_fits checks hdiff
  exact ⟨p, r, hp, hr, by omega⟩

end SclRs.Lib.Checked
