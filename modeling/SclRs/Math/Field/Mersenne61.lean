import Mathlib.Data.ZMod.Basic
import SclRs.Lib.Checked
import SclRs.Lib.Euclid
import SclRs.Math.Field.Moduli
import SclRs.Math.Ring
import SclRs.Lib.Codec

/-!
# The field of integers modulo the Mersenne prime 2^61 - 1

`Mersenne61` wraps a `u64`. `From<u64>` subtracts the modulus until the value is reduced, and every
operation ends in it; but the sums and differences before it are those of machine integers, and only of
reduced operands are they the right ones in every build (`Rep.add` and its like). Inversion is Euclid's
extended algorithm. `InverseLoop` is its run on integers of which every number is an `i64`: the loop on
`i64`s follows such a run (`InverseLoop.inverseLoop`), and the invariant of the coefficients, which
bounds them by the modulus, gives one (`exists_inverseLoop`).
-/

namespace SclRs

open Lib.Checked

structure Mersenne61 where
  value : UInt64
deriving DecidableEq

namespace Mersenne61

def modulus : UInt64 := 0x1FFFFFFFFFFFFFFF

theorem toNat_modulus : modulus.toNat = mersenneModulus := rfl

def bitSize : Nat := 61

def zero : Mersenne61 := ⟨0⟩

def one : Mersenne61 := ⟨1⟩

/-- `From<u64>`. -/
def fromU64 (value : UInt64) : Mersenne61 :=
  if modulus ≤ value then fromU64 (value - modulus) else ⟨value⟩
termination_by value.toNat
decreasing_by
  rename_i h
  have hpos : 0 < modulus.toNat := by decide
  have hle := UInt64.le_iff_toNat_le.mp h
  rw [UInt64.toNat_sub_of_le _ _ h]
  omega

/-- `random`, with the `u64`s that the generator gives; `none` when it needs more of them. -/
def random : (draws : List UInt64) → Option Mersenne61
  | [] => none
  | value :: draws => if modulus < value then random draws else some (fromU64 value)

def randomNonZero : (draws : List UInt64) → Option Mersenne61
  | [] => none
  | value :: draws =>
    if value = 0 ∨ modulus < value then randomNonZero draws else some (fromU64 value)

/-- `Add<&Self>`. -/
def add (checks : Bool) (a b : Mersenne61) : Option Mersenne61 := do
  let addResult ← u64Add checks a.value b.value
  return fromU64 addResult

/-- `Sub<&Self>`. -/
def sub (checks : Bool) (a b : Mersenne61) : Option Mersenne61 :=
  if b.value > a.value then do
    return fromU64 (← u64Sub checks (← u64Add checks a.value modulus) b.value)
  else do
    return fromU64 (← u64Sub checks a.value b.value)

def negate (checks : Bool) (a : Mersenne61) : Option Mersenne61 :=
  if a ≠ zero then do
    return fromU64 (← u64Sub checks modulus a.value)
  else some zero

/-- `Mul<&Self>`: the product of type `u128` is folded at bit 61. -/
def mul (checks : Bool) (a b : Mersenne61) : Option Mersenne61 :=
  let nonReducedMult := a.value.toNat * b.value.toNat
  let mostSigBits := UInt64.ofNat (nonReducedMult >>> bitSize)
  let leastSigBits := UInt64.ofNat nonReducedMult
  let mostSigBits := mostSigBits ||| leastSigBits >>> UInt64.ofNat bitSize
  let leastSigBits := leastSigBits &&& modulus
  add checks (fromU64 mostSigBits) (fromU64 leastSigBits)

/-- `assign`: the new values of `v1` and `v2`. -/
def assign (checks : Bool) (v1 v2 q : Int64) : Option (Int64 × Int64) := do
  let temp := v2
  let v2 ← i64Sub checks v1 (← i64Mul checks q temp)
  return (temp, v2)

theorem assign_i64Div (checks : Bool) {r newR q : Int64} (h : i64Div r newR = some q) :
    ∃ m, assign checks r newR q = some (newR, m) ∧ m.toInt = r.toInt.tmod newR.toInt := by
  obtain ⟨p, m, hp, hm, hval⟩ := i64Rem checks h
  exact ⟨m, by simp only [assign, hp, hm, Option.bind_eq_bind, Option.bind_some, Option.pure_def], hval⟩

theorem natAbs_lt_of_assign {checks : Bool} {r newR q r' newR' : Int64} (hq : i64Div r newR = some q)
    (h : assign checks r newR q = some (r', newR')) : newR'.toInt.natAbs < newR.toInt.natAbs := by
  obtain ⟨m, hm, hval⟩ := assign_i64Div checks hq
  have hnewR := (i64Div_eq_some hq).1
  obtain ⟨-, rfl⟩ := Prod.mk.inj (Option.some.inj (hm.symm.trans h))
  rw [hval, Int.natAbs_tmod]
  exact Nat.mod_lt _ (by omega)

/-- The loop of `inverse`. -/
def inverseLoop (checks : Bool) (k newK r newR : Int64) : Option Int64 :=
  if newR = 0 then some k
  else
    match _hq : i64Div r newR with
    | none => none
    | some q =>
      match assign checks k newK q with
      | none => none
      | some (k, newK) =>
        match _hr : assign checks r newR q with
        | none => none
        | some (r', newR') => inverseLoop checks k newK r' newR'
termination_by newR.toInt.natAbs
decreasing_by exact natAbs_lt_of_assign _hq _hr

def inverse (checks : Bool) (a : Mersenne61) : Option (Except FieldError Mersenne61) :=
  if a = zero then some (.error .zeroInverse)
  else do
    let k ← inverseLoop checks 0 1 modulus.toInt64 a.value.toInt64
    let k ← (if k < 0 then i64Add checks k modulus.toInt64 else some k)
    return .ok (fromU64 k.toUInt64)

/-- `Div<&Self>`, which inverts `self`. -/
def div (checks : Bool) (a rhs : Mersenne61) : Option (Except FieldError Mersenne61) := do
  match ← a.inverse checks with
  | .error e => return .error e
  | .ok inverse => return .ok (← rhs.mul checks inverse)

/-! ### Reduced representations -/

/-- The representation is reduced. -/
def Canonical (a : Mersenne61) : Prop := a.value.toNat < mersenneModulus

instance (a : Mersenne61) : Decidable a.Canonical := inferInstanceAs (Decidable (_ < _))

def toZMod (a : Mersenne61) : ZMod mersenneModulus := a.value.toNat

/-- `a` is the reduced representation of `v`. -/
def Rep (a : Mersenne61) (v : ZMod mersenneModulus) : Prop := a.Canonical ∧ a.toZMod = v

@[simp] theorem toZMod_zero : zero.toZMod = 0 := by
  simp [toZMod, zero]

@[simp] theorem toZMod_one : one.toZMod = 1 := by
  simp [toZMod, one]

theorem Canonical.ext {a b : Mersenne61} (ha : a.Canonical) (hb : b.Canonical)
    (h : a.toZMod = b.toZMod) : a = b := by
  rw [toZMod, toZMod, ZMod.natCast_eq_natCast_iff', Nat.mod_eq_of_lt ha, Nat.mod_eq_of_lt hb] at h
  obtain ⟨a⟩ := a
  obtain ⟨b⟩ := b
  exact congrArg Mersenne61.mk (UInt64.toNat_inj.mp h)

theorem Canonical.toZMod_eq_zero {a : Mersenne61} (ha : a.Canonical) : a.toZMod = 0 ↔ a = zero := by
  constructor
  · exact fun h => ha.ext (by decide) (h.trans toZMod_zero.symm)
  · rintro rfl
    exact toZMod_zero

theorem toNat_fromU64 (value : UInt64) :
    (fromU64 value).value.toNat = value.toNat % mersenneModulus := by
  induction h : value.toNat using Nat.strong_induction_on generalizing value with
  | h n ih =>
    subst h
    rw [fromU64]
    split_ifs with hle
    · have hle' := UInt64.le_iff_toNat_le.mp hle
      have hpos : 0 < modulus.toNat := by decide
      have hsub := UInt64.toNat_sub_of_le _ _ hle
      rw [ih _ (by omega) _ rfl, hsub, ← toNat_modulus, ← Nat.mod_eq_sub_mod hle']
    · exact (Nat.mod_eq_of_lt (not_le.mp fun h => hle (UInt64.le_iff_toNat_le.mpr h))).symm

theorem Rep.fromU64 {value : UInt64} {v : ZMod mersenneModulus} (h : (value.toNat : ZMod _) = v) :
    (Mersenne61.fromU64 value).Rep v := by
  refine ⟨?_, ?_⟩
  · rw [Canonical, toNat_fromU64]
    exact Nat.mod_lt _ (by decide)
  · rw [toZMod, toNat_fromU64, ZMod.natCast_mod, h]

theorem exists_rep (v : ZMod mersenneModulus) : ∃ a : Mersenne61, a.Rep v := by
  have hval : (UInt64.ofNat v.val).toNat = v.val := by
    rw [UInt64.toNat_ofNat', Nat.mod_eq_of_lt (v.val_lt.trans (by decide))]
  exact ⟨_, Rep.fromU64 (by rw [hval, ZMod.natCast_zmod_val])⟩

theorem Rep.random {draws : List UInt64} {a : Mersenne61} (h : Mersenne61.random draws = some a) :
    a.Canonical := by
  induction draws with
  | nil => cases h
  | cons value draws ih =>
    rw [Mersenne61.random] at h
    split_ifs at h
    · exact ih h
    · exact Option.some.inj h ▸ (Rep.fromU64 rfl).1

theorem Rep.randomNonZero {draws : List UInt64} {a : Mersenne61}
    (h : Mersenne61.randomNonZero draws = some a) : a.Canonical := by
  induction draws with
  | nil => cases h
  | cons value draws ih =>
    rw [Mersenne61.randomNonZero] at h
    split_ifs at h
    · exact ih h
    · exact Option.some.inj h ▸ (Rep.fromU64 rfl).1

/-! ### Operations on reduced operands -/

section
variable (checks : Bool) {a b : Mersenne61} {u v : ZMod mersenneModulus}

theorem Rep.add (ha : a.Rep u) (hb : b.Rep v) : ∃ c, a.add checks b = some c ∧ c.Rep (u + v) := by
  obtain ⟨ha, rfl⟩ := ha
  obtain ⟨hb, rfl⟩ := hb
  have hbound : mersenneModulus + mersenneModulus < 2 ^ 64 := by decide
  unfold Canonical at ha hb
  obtain ⟨c, hc, hval⟩ := u64Add_of_lt checks (show a.value.toNat + b.value.toNat < 2 ^ 64 by omega)
  refine ⟨_, by rw [Mersenne61.add, hc]; rfl, Rep.fromU64 ?_⟩
  rw [hval, Nat.cast_add]
  rfl

theorem Rep.sub (ha : a.Rep u) (hb : b.Rep v) : ∃ c, a.sub checks b = some c ∧ c.Rep (u - v) := by
  obtain ⟨ha, rfl⟩ := ha
  obtain ⟨hb, rfl⟩ := hb
  have hbound : mersenneModulus + mersenneModulus < 2 ^ 64 := by decide
  unfold Canonical at ha hb
  rw [Mersenne61.sub]
  split_ifs with hlt
  · have hmodulus := toNat_modulus
    obtain ⟨c, hc, hcval⟩ := u64Add_of_lt checks
      (show a.value.toNat + modulus.toNat < 2 ^ 64 by omega)
    obtain ⟨d, hd, hdval⟩ := u64Sub_of_le checks (show b.value.toNat ≤ c.toNat by omega)
    refine ⟨_, by simp only [hc, hd, Option.bind_eq_bind, Option.bind_some, Option.pure_def]; rfl,
      Rep.fromU64 ?_⟩
    rw [hdval, hcval, Nat.cast_sub (by omega), Nat.cast_add, hmodulus, ZMod.natCast_self, add_zero]
    rfl
  · have hle : b.value.toNat ≤ a.value.toNat := not_lt.mp fun h => hlt (UInt64.lt_iff_toNat_lt.mpr h)
    obtain ⟨d, hd, hdval⟩ := u64Sub_of_le checks hle
    refine ⟨_, by rw [hd]; rfl, Rep.fromU64 ?_⟩
    rw [hdval, Nat.cast_sub hle]
    rfl

theorem Rep.negate (ha : a.Rep u) : ∃ c, a.negate checks = some c ∧ c.Rep (-u) := by
  obtain ⟨ha, rfl⟩ := ha
  rw [Mersenne61.negate]
  split_ifs with hzero
  · have hmodulus := toNat_modulus
    have hle : a.value.toNat ≤ modulus.toNat := by
      unfold Canonical at ha
      omega
    obtain ⟨d, hd, hdval⟩ := u64Sub_of_le checks hle
    refine ⟨_, by rw [hd]; rfl, Rep.fromU64 ?_⟩
    rw [hdval, Nat.cast_sub hle, hmodulus, ZMod.natCast_self, zero_sub]
    rfl
  · rw [not_not] at hzero
    exact ⟨_, rfl, by decide, by rw [ha.toZMod_eq_zero.mpr hzero, neg_zero, toZMod_zero]⟩

/-- The product in its high and its low bits. The high ones lose what does not fit into a `u64`. -/
theorem toNat_fold (product : Nat) :
    (UInt64.ofNat (product >>> 61) ||| UInt64.ofNat product >>> UInt64.ofNat 61).toNat =
        product % 2 ^ 125 / 2 ^ 61 ∧
      (UInt64.ofNat product &&& modulus).toNat = product % 2 ^ 125 % 2 ^ 61 := by
  constructor
  · have hhigh : product >>> 61 % 2 ^ 64 = product % 2 ^ 125 / 2 ^ 61 := by
      rw [Nat.shiftRight_eq_div_pow]
      omega
    -- the three bits that the low word shares with the high one
    have hoverlap : (product % 2 ^ 64) >>> ((UInt64.ofNat 61).toNat % 64) =
        product % 2 ^ 125 / 2 ^ 61 % 2 ^ 3 := by
      change (product % 2 ^ 64) >>> 61 = _
      rw [Nat.shiftRight_eq_div_pow]
      omega
    rw [UInt64.toNat_or, UInt64.toNat_shiftRight, UInt64.toNat_ofNat', UInt64.toNat_ofNat', hhigh,
      hoverlap]
    refine Nat.eq_of_testBit_eq fun i => ?_
    rw [Nat.testBit_or, Nat.testBit_mod_two_pow]
    cases Nat.testBit (product % 2 ^ 125 / 2 ^ 61) i <;> simp
  · have hmask : modulus.toNat = 2 ^ 61 - 1 := rfl
    rw [UInt64.toNat_and, UInt64.toNat_ofNat', hmask, Nat.and_two_pow_sub_one_eq_mod]
    omega

theorem natCast_fold (product : Nat) :
    ((product / 2 ^ 61 : ℕ) : ZMod mersenneModulus) + ((product % 2 ^ 61 : ℕ) : ZMod mersenneModulus) =
      product := by
  have hone : ((2 ^ 61 : ℕ) : ZMod mersenneModulus) = 1 := by
    rw [← Nat.cast_one, ZMod.natCast_eq_natCast_iff']
    rfl
  conv_rhs => rw [← Nat.div_add_mod product (2 ^ 61), Nat.cast_add, Nat.cast_mul, hone, one_mul]

/-- **Every product is reduced**, and right up to the bits that the `u128` has from the 125th on. -/
theorem mul_rep (a b : Mersenne61) :
    ∃ c, a.mul checks b = some c ∧ c.Rep ((a.value.toNat * b.value.toNat % 2 ^ 125 : ℕ) : ZMod mersenneModulus) := by
  obtain ⟨hhigh, hlow⟩ := toNat_fold (a.value.toNat * b.value.toNat)
  obtain ⟨c, hc, hrep⟩ := Rep.add checks (Rep.fromU64 (congrArg Nat.cast hhigh))
    (Rep.fromU64 (congrArg Nat.cast hlow))
  rw [natCast_fold] at hrep
  exact ⟨c, hc, hrep⟩

theorem Rep.mul (ha : a.Rep u) (hb : b.Rep v) : ∃ c, a.mul checks b = some c ∧ c.Rep (u * v) := by
  obtain ⟨ha, rfl⟩ := ha
  obtain ⟨hb, rfl⟩ := hb
  have hlt : a.value.toNat * b.value.toNat < 2 ^ 125 :=
    (Nat.mul_lt_mul'' ha hb).trans (by decide)
  obtain ⟨c, hc, hrep⟩ := mul_rep checks a b
  rw [Nat.mod_eq_of_lt hlt, Nat.cast_mul] at hrep
  exact ⟨c, hc, hrep⟩

end

/-! ### Inversion -/

theorem fits_of_le_modulus {x : Int} (h : -mersenneModulus ≤ x ∧ x ≤ mersenneModulus) : FitsI64 x := by
  have hbound : (mersenneModulus : Int) < 2 ^ 63 := by decide
  unfold FitsI64
  omega

/-- The loop of `inverse` on integers: from these variables on it takes so many turns and leaves `final`,
and every number that it computes is an `i64`. -/
inductive InverseLoop : (k newK r newR : ℤ) → (turns : Nat) → (final : ℤ) → Prop
  | done {k newK r : ℤ} : InverseLoop k newK r 0 0 k
  | turn {k newK r newR final q : ℤ} {turns : Nat} : newR ≠ 0 → q = r.tdiv newR → FitsI64 q →
      FitsI64 (q * newK) → FitsI64 (k - q * newK) → FitsI64 (q * newR) → FitsI64 (r - q * newR) →
      InverseLoop newK (k - q * newK) newR (r - q * newR) turns final →
      InverseLoop k newK r newR (turns + 1) final

theorem assign_of_fits (checks : Bool) {v1 v2 q : Int64} (hprod : FitsI64 (q.toInt * v2.toInt))
    (hdiff : FitsI64 (v1.toInt - q.toInt * v2.toInt)) :
    ∃ r, assign checks v1 v2 q = some (v2, r) ∧ r.toInt = v1.toInt - q.toInt * v2.toInt := by
  obtain ⟨p, hp, hpval⟩ := i64Mul_of_fits checks hprod
  obtain ⟨r, hr, hrval⟩ := i64Sub_of_fits checks (hpval ▸ hdiff)
  exact ⟨r, by simp only [assign, hp, hr, Option.bind_eq_bind, Option.bind_some, Option.pure_def],
    by rw [hrval, hpval]⟩

theorem inverseLoop_of_ne {checks : Bool} {k newK r newR q k' newK' r' newR' : Int64}
    (hne : newR ≠ 0) (hq : i64Div r newR = some q) (hk : assign checks k newK q = some (k', newK'))
    (hr : assign checks r newR q = some (r', newR')) :
    inverseLoop checks k newK r newR = inverseLoop checks k' newK' r' newR' := by
  rw [inverseLoop, if_neg hne]
  split
  · simp_all
  · rename_i q' hq'
    obtain rfl := Option.some.inj (hq.symm.trans hq')
    rw [hk]
    simp only
    split
    · simp_all
    · rename_i hr'
      obtain ⟨rfl, rfl⟩ := Prod.mk.inj (Option.some.inj (hr.symm.trans hr'))
      rfl

/-- **The loop of `inverse` follows the run on integers.** -/
theorem InverseLoop.inverseLoop (checks : Bool) {k newK r newR : Int64} {turns : Nat} {final : ℤ}
    (h : InverseLoop k.toInt newK.toInt r.toInt newR.toInt turns final) :
    ∃ c, Mersenne61.inverseLoop checks k newK r newR = some c ∧ c.toInt = final := by
  generalize hk : k.toInt = k' at h
  generalize hnewK : newK.toInt = newK' at h
  generalize hr : r.toInt = r' at h
  generalize hnewR : newR.toInt = newR' at h
  induction h generalizing k newK r newR with
  | done =>
    obtain rfl : newR = 0 := Int64.toInt_inj.mp hnewR
    exact ⟨k, by rw [Mersenne61.inverseLoop, if_pos rfl], hk⟩
  | turn hne hq hfits hprodK hdiffK hprodR hdiffR _ ih =>
    subst hk hnewK hr hnewR
    obtain ⟨q, hdiv, hqval⟩ := i64Div_of_fits hne (hq ▸ hfits)
    rw [← hq] at hqval
    subst hqval
    obtain ⟨newK', hassignK, hnewK'⟩ := assign_of_fits checks hprodK hdiffK
    obtain ⟨newR', hassignR, hnewR'⟩ := assign_of_fits checks hprodR hdiffR
    have hne' : newR ≠ 0 := by
      rintro rfl
      exact hne rfl
    rw [inverseLoop_of_ne hne' hdiv hassignK hassignR]
    exact ih rfl hnewK' rfl hnewR'

/-- The run from variables that satisfy the invariant of Euclid's algorithm. -/
theorem exists_inverseLoop {a : ZMod mersenneModulus} {k newK r newR : ℤ}
    (h : Lib.Euclid.Invariant mersenneModulus a k newK r newR) (hr : r ≤ mersenneModulus)
    (hnewR : newR ≤ mersenneModulus) :
    ∃ turns final, InverseLoop k newK r newR turns final ∧
      (final : ZMod mersenneModulus) * a = 1 ∧ -mersenneModulus ≤ final ∧ final ≤ mersenneModulus := by
  induction hn : newR.toNat using Nat.strong_induction_on generalizing k newK r newR with
  | h n ih =>
    rcases h.nonneg.eq_or_lt with rfl | hpos
    · exact ⟨0, k, .done, h.done, h.bound⟩
    · have hquotient : r.tdiv newR = r / newR := Int.tdiv_eq_ediv_of_nonneg h.pos.le
      have hremainder : r - r / newR * newR = r % newR := by
        rw [Int.emod_def, mul_comm]
      have hmod := Int.emod_nonneg r hpos.ne'
      have hlt := Int.emod_lt_of_pos r hpos
      have hq : 0 ≤ r / newR := Int.ediv_nonneg h.pos.le h.nonneg
      have hqle : r / newR ≤ r := Int.ediv_le_self _ h.pos.le
      have hrpos := h.pos
      obtain ⟨-, hprodK, hdiffK⟩ := h.bounds hpos
      obtain ⟨turns, final, hloop, hinverse, hbound⟩ :=
        ih (r % newR).toNat (by omega) (h.step hpos) hnewR (by omega) rfl
      rw [← hremainder] at hloop hmod hlt
      refine ⟨turns + 1, final, ?_, hinverse, hbound⟩
      exact .turn hpos.ne' hquotient.symm (fits_of_le_modulus (by omega)) (fits_of_le_modulus hprodK)
        (fits_of_le_modulus hdiffK) (fits_of_le_modulus (by omega)) (fits_of_le_modulus (by omega)) hloop

theorem inverse_of_loop (checks : Bool) {a : Mersenne61} (hne : a ≠ zero) {k : Int64}
    (hk : inverseLoop checks 0 1 modulus.toInt64 a.value.toInt64 = some k)
    (hbound : -mersenneModulus ≤ k.toInt ∧ k.toInt ≤ mersenneModulus) :
    ∃ c, a.inverse checks = some (.ok c) ∧ c.Rep (k.toInt : ZMod mersenneModulus) := by
  have hmodulus : modulus.toInt64.toInt = mersenneModulus := rfl
  have hfinal : ∃ k' : Int64, (if k < 0 then i64Add checks k modulus.toInt64 else some k) = some k' ∧
      0 ≤ k'.toInt ∧ (k'.toInt : ZMod mersenneModulus) = k.toInt := by
    split_ifs with hneg
    · have hneg' : k.toInt < 0 := Int64.lt_iff_toInt_lt.mp hneg
      obtain ⟨k', hk', hval⟩ := i64Add_of_fits checks
        (show FitsI64 (k.toInt + modulus.toInt64.toInt) by
          rw [hmodulus]
          exact fits_of_le_modulus (by omega))
      refine ⟨k', hk', by rw [hval, hmodulus]; omega, ?_⟩
      rw [hval, hmodulus, Int.cast_add, Int.cast_natCast, ZMod.natCast_self, add_zero]
    · have hnonneg : ¬ k.toInt < 0 := fun h => hneg (Int64.lt_iff_toInt_lt.mpr h)
      exact ⟨k, rfl, by omega, rfl⟩
  obtain ⟨k', hk', hnonneg, hval⟩ := hfinal
  refine ⟨Mersenne61.fromU64 k'.toUInt64, ?_, Rep.fromU64 ?_⟩
  · rw [Mersenne61.inverse, if_neg hne]
    simp only [hk, hk', Option.bind_eq_bind, Option.bind_some, Option.pure_def]
  · rw [← Int.cast_natCast, toNat_toUInt64 hnonneg, hval]

theorem inverse_run (checks : Bool) {a : Mersenne61} (ha : a.Canonical) (hne : a ≠ zero) :
    ∃ turns final c, InverseLoop 0 1 mersenneModulus a.value.toNat turns final ∧
      FitsI64 (final + mersenneModulus) ∧ (final : ZMod mersenneModulus) * a.toZMod = 1 ∧
      a.inverse checks = some (.ok c) ∧ c.Rep (final : ZMod mersenneModulus) := by
  have hcoprime : a.value.toNat.Coprime mersenneModulus :=
    ((Nat.Prime.coprime_iff_not_dvd prime_mersenneModulus).mpr fun hdvd =>
      hne (ha.toZMod_eq_zero.mp ((ZMod.natCast_eq_zero_iff _ _).mpr hdvd))).symm
  have hmodulus : modulus.toInt64.toInt = mersenneModulus := rfl
  have hvalue : a.value.toInt64.toInt = a.value.toNat := toInt_toInt64 (ha.trans (by decide))
  have hinit := Lib.Euclid.Invariant.init (m := mersenneModulus) (by decide) hcoprime
  obtain ⟨turns, final, hloop, hinverse, hbound⟩ :=
    exists_inverseLoop hinit le_rfl (by exact_mod_cast ha.le)
  have hrun := hloop
  rw [← hvalue, ← hmodulus] at hrun
  obtain ⟨k, hk, rfl⟩ := @InverseLoop.inverseLoop checks 0 1 _ _ _ _ hrun
  obtain ⟨c, hc, hrep⟩ := inverse_of_loop checks hne hk hbound
  refine ⟨turns, k.toInt, c, hloop, ?_, hinverse, hc, hrep⟩
  have htwice : (mersenneModulus : Int) + mersenneModulus < 2 ^ 63 := by decide
  unfold FitsI64
  omega

theorem Rep.inverse (checks : Bool) {a : Mersenne61} {u : ZMod mersenneModulus} (ha : a.Rep u)
    (hu : u ≠ 0) : ∃ c, a.inverse checks = some (.ok c) ∧ c.Rep u⁻¹ := by
  obtain ⟨ha, rfl⟩ := ha
  have hne : a ≠ zero := fun h => hu (ha.toZMod_eq_zero.mpr h)
  obtain ⟨-, final, c, -, -, hinverse, hc, hrep⟩ := inverse_run checks ha hne
  exact ⟨c, hc, eq_inv_of_mul_eq_one_left hinverse ▸ hrep⟩

/-! ### The traits -/

theorem isSome_add (a b : Mersenne61) : (a.add false b).isSome := rfl

theorem isSome_sub (a b : Mersenne61) : (a.sub false b).isSome := by
  rw [sub]
  split_ifs <;> rfl

theorem isSome_mul (a b : Mersenne61) : (a.mul false b).isSome := isSome_add _ _

theorem isSome_negate (a : Mersenne61) : (a.negate false).isSome := by
  rw [negate]
  split_ifs <;> rfl

/-- The operations, in a build without overflow checks. -/
instance : FieldOps Mersenne61 where
  zero := zero
  one := one
  add a b := (a.add false b).get (isSome_add a b)
  sub a b := (a.sub false b).get (isSome_sub a b)
  mul a b := (a.mul false b).get (isSome_mul a b)
  negate a := (a.negate false).get (isSome_negate a)
  inverse := inverse false

instance : FromU64 Mersenne61 := ⟨fun n => fromU64 (UInt64.ofNat n)⟩

theorem rep_get {o : Option Mersenne61} {u : ZMod mersenneModulus}
    (h : ∃ c, o = some c ∧ c.Rep u) (hsome : o.isSome) : (o.get hsome).Rep u := by
  obtain ⟨c, rfl, hc⟩ := h
  exact hc

/-- On reduced representations the field is `ℤ/(2^61 - 1)`. -/
instance : LawfulField Mersenne61 (ZMod mersenneModulus) where
  Valid := Canonical
  val := toZMod
  val_inj := Canonical.ext
  val_surj := exists_rep
  valid_zero := by decide
  valid_one := by decide
  valid_add ha hb := (rep_get (Rep.add false ⟨ha, rfl⟩ ⟨hb, rfl⟩) _).1
  valid_sub ha hb := (rep_get (Rep.sub false ⟨ha, rfl⟩ ⟨hb, rfl⟩) _).1
  valid_mul ha hb := (rep_get (Rep.mul false ⟨ha, rfl⟩ ⟨hb, rfl⟩) _).1
  valid_negate ha := (rep_get (Rep.negate false ⟨ha, rfl⟩) _).1
  val_zero := toZMod_zero
  val_one := toZMod_one
  val_add ha hb := (rep_get (Rep.add false ⟨ha, rfl⟩ ⟨hb, rfl⟩) _).2
  val_sub ha hb := (rep_get (Rep.sub false ⟨ha, rfl⟩ ⟨hb, rfl⟩) _).2
  val_mul ha hb := (rep_get (Rep.mul false ⟨ha, rfl⟩ ⟨hb, rfl⟩) _).2
  val_negate ha := (rep_get (Rep.negate false ⟨ha, rfl⟩) _).2
  inverse_zero ha hzero := if_pos (ha.toZMod_eq_zero.mp hzero)
  inverse_ne_zero ha hne := by
    obtain ⟨c, hc, hcanonical, hval⟩ := Rep.inverse false ⟨ha, rfl⟩ hne
    exact ⟨c, hc, hcanonical, hval⟩

/-- `postcard`'s encoding of the derived `Serialize`. -/
def codec : Lib.Codec Mersenne61 := Lib.Codec.varint64.map Mersenne61.value Mersenne61.mk fun _ => rfl

instance : LawfulFromU64 Mersenne61 := ⟨fun _ _ => (Rep.fromU64 rfl).1⟩

end Mersenne61

end SclRs
