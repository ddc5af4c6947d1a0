import SclRs.Math.Field.Canonical

/-!
# Operations on any representation

A decoded field element is any integer of its inner type. `Wide` says what is left of the arithmetic then: a
product is reduced whatever its factors are, and right when the second is reduced. The other operations need
more. A sum in `Mersenne61` overflows from `2 ^ 64` on (`add_of_not_lt`), and a difference that wraps around is 8
too large (`wrappedSub`), which is a panic where overflows are checked (`isSome_sub_true`). The differences of
`crypto-bigint` are documented for integers up to the modulus, but for the modulus itself less zero
(`ModUint.sub_of_range`). On reduced elements every build computes what `FieldOps` says.
-/

namespace SclRs

open RingOps

namespace FieldApi

section
variable {F Inner : Type} [FieldApi F Inner]

def residue (a : F) : ZMod (modulus F) := toNat a

/-- `a` is the reduced representation of `v`. -/
def Represents (a : F) (v : ZMod (modulus F)) : Prop := Reduced a ∧ residue a = v

end

class Wide (F : Type) {Inner : Type} [FieldApi F Inner] [FieldOps F] : Prop where
  zero_eq : (zero : F) = RingOps.zero
  one_eq : (one : F) = RingOps.one
  toNat_zero : toNat (zero : F) = 0
  toNat_one : toNat (one : F) = 1
  add_eq (checks : Bool) {a b : F} : Reduced a → Reduced b → add checks a b = some (RingOps.add a b)
  sub_eq (checks : Bool) {a b : F} : Reduced a → Reduced b → sub checks a b = some (RingOps.sub a b)
  sub_of_le (checks : Bool) {a b : F} : toNat a ≤ modulus F → toNat b ≤ modulus F →
    ¬ (toNat a = modulus F ∧ toNat b = 0) →
    ∃ c, sub checks a b = some c ∧ Represents c (residue a - residue b)
  mul_eq (checks : Bool) (a b : F) : mul checks a b = some (RingOps.mul a b)
  inverse_eq (checks : Bool) {a : F} : Reduced a → inverse checks a = FieldOps.inverse a
  reduced_mul (a b : F) : Reduced (RingOps.mul a b)
  modEq_mul {a b : F} : Reduced b → toNat (RingOps.mul a b) ≡ toNat a * toNat b [MOD modulus F]

section
variable {F Inner : Type} [FieldApi F Inner]

section
variable [FieldOps F] [Wide F]

theorem residue_zero : residue (zero : F) = 0 := by
  rw [residue, Wide.toNat_zero, Nat.cast_zero]

theorem residue_one : residue (one : F) = 1 := by
  rw [residue, Wide.toNat_one, Nat.cast_one]

theorem exists_mul (checks : Bool) (a : F) {b : F} (hb : Reduced b) :
    ∃ c, mul checks a b = some c ∧ Represents c (residue a * residue b) := by
  refine ⟨_, Wide.mul_eq checks a b, Wide.reduced_mul a b, ?_⟩
  rw [residue, residue, residue, ← Nat.cast_mul, ZMod.natCast_eq_natCast_iff]
  exact Wide.modEq_mul hb

theorem Represents.zero [Lawful F] : Represents (zero : F) 0 := ⟨Lawful.zero, residue_zero⟩

theorem Represents.one [Lawful F] : Represents (one : F) 1 := ⟨Lawful.one, residue_one⟩

theorem reduced_add [Lawful F] {a b : F} (ha : Reduced a) (hb : Reduced b) : Reduced (RingOps.add a b) := by
  obtain ⟨c, hc, hreduced, -⟩ := Lawful.add true ha hb
  rw [Wide.add_eq true ha hb] at hc
  exact Option.some.inj hc ▸ hreduced

theorem reduced_sub [Lawful F] {a b : F} (ha : Reduced a) (hb : Reduced b) : Reduced (RingOps.sub a b) := by
  obtain ⟨c, hc, hreduced, -⟩ := Lawful.sub true ha hb
  rw [Wide.sub_eq true ha hb] at hc
  exact Option.some.inj hc ▸ hreduced

end

section
variable [Lawful F] {a b : F} {u v : ZMod (modulus F)}

theorem Represents.add (checks : Bool) (ha : Represents a u) (hb : Represents b v) :
    ∃ c, add checks a b = some c ∧ Represents c (u + v) := by
  obtain ⟨c, hc, hreduced, hmod⟩ := Lawful.add checks ha.1 hb.1
  refine ⟨c, hc, hreduced, ?_⟩
  rw [← ha.2, ← hb.2, residue, residue, residue, ← Nat.cast_add, ZMod.natCast_eq_natCast_iff]
  exact hmod

variable [Fact (modulus F).Prime]

theorem Represents.inverse_zero (checks : Bool) (ha : Represents a 0) :
    inverse checks a = some (.error .zeroInverse) := by
  obtain ⟨h, -⟩ | ⟨c, -, -, hmod⟩ := Lawful.inverse checks ha.1
  · exact h
  · have hone := (ZMod.natCast_eq_natCast_iff _ _ _).mpr hmod
    have hzero : (toNat a : ZMod (modulus F)) = 0 := ha.2
    rw [Nat.cast_mul, hzero, mul_zero, Nat.cast_one] at hone
    exact absurd hone zero_ne_one

theorem Represents.inverse (checks : Bool) (ha : Represents a u) (hu : u ≠ 0) :
    ∃ c, inverse checks a = some (.ok c) ∧ Represents c u⁻¹ := by
  obtain ⟨-, hmod⟩ | ⟨c, hc, hreduced, hmod⟩ := Lawful.inverse checks ha.1
  · exact absurd (ha.2.symm.trans ((ZMod.natCast_eq_natCast_iff _ _ _).mpr hmod)) (by rwa [Nat.cast_zero])
  · refine ⟨c, hc, hreduced, eq_inv_of_mul_eq_one_left ?_⟩
    have hone := (ZMod.natCast_eq_natCast_iff _ _ _).mpr hmod
    rw [Nat.cast_mul, Nat.cast_one] at hone
    rw [← ha.2]
    exact hone

end

end

end FieldApi

/-! ### `Mersenne61` -/

namespace Mersenne61

open Lib.Checked FieldApi

/-- What a product is congruent to. -/
def product (a b : Nat) : Nat := a * b % 2 ^ 125 % mersenneModulus

theorem product_lt (a b : Nat) : product a b < mersenneModulus := Nat.mod_lt _ (by decide)

theorem get_eq {o o' : Option Mersenne61} {u : ZMod mersenneModulus} (h : ∃ c, o = some c ∧ c.Rep u)
    (h' : ∃ c, o' = some c ∧ c.Rep u) (hsome : o'.isSome) : o = some (o'.get hsome) := by
  obtain ⟨c, rfl, hc⟩ := h
  obtain ⟨c', rfl, hc'⟩ := h'
  exact congrArg some (hc.1.ext hc'.1 (hc.2.trans hc'.2.symm))

theorem mul_eq (checks : Bool) (a b : Mersenne61) : a.mul checks b = some (RingOps.mul a b) :=
  get_eq (mul_rep checks a b) (mul_rep false a b) _

theorem toNat_mul (a b : Mersenne61) :
    (RingOps.mul a b).value.toNat = product a.value.toNat b.value.toNat := by
  obtain ⟨hcanonical, hval⟩ := rep_get (mul_rep false a b) (isSome_mul a b)
  rw [toZMod, ZMod.natCast_eq_natCast_iff', Nat.mod_eq_of_lt hcanonical] at hval
  exact hval

theorem inverse_eq (checks : Bool) {a : Mersenne61} (ha : a.Canonical) : a.inverse checks = a.inverse false := by
  by_cases hzero : a.toZMod = 0
  · have hzero' := ha.toZMod_eq_zero.mp hzero
    rw [inverse, inverse, if_pos hzero', if_pos hzero']
  · obtain ⟨c, hc, hrep⟩ := Rep.inverse checks ⟨ha, rfl⟩ hzero
    obtain ⟨c', hc', hrep'⟩ := Rep.inverse false ⟨ha, rfl⟩ hzero
    rw [hc, hc', hrep.1.ext hrep'.1 (hrep.2.trans hrep'.2.symm)]

instance : Fact (FieldApi.modulus Mersenne61).Prime := inferInstanceAs (Fact mersenneModulus.Prime)

theorem add_of_lt (checks : Bool) {a b : Mersenne61} (h : a.value.toNat + b.value.toNat < 2 ^ 64) :
    ∃ c, a.add checks b = some c ∧ c.value.toNat = (a.value.toNat + b.value.toNat) % mersenneModulus := by
  obtain ⟨c, hc, hval⟩ := u64Add_of_lt checks h
  exact ⟨fromU64 c, by rw [add, hc]; rfl, by rw [toNat_fromU64, hval]⟩

theorem add_of_not_lt {a b : Mersenne61} (h : ¬ a.value.toNat + b.value.toNat < 2 ^ 64) :
    a.add true b = none := by
  rw [add, u64Add_of_not_lt h]
  rfl

/-- A difference as a build without overflow checks has it: it is 8 too large where it wraps around. -/
def wrappedSub (a b : Mersenne61) : ZMod mersenneModulus :=
  a.toZMod - b.toZMod + (if a.value.toNat + mersenneModulus < b.value.toNat then 8 else 0 : ℕ)

theorem natCast_two_pow : ((2 ^ 64 : ℕ) : ZMod mersenneModulus) = (8 : ℕ) := by
  rw [ZMod.natCast_eq_natCast_iff']
  rfl

theorem sub_rep {checks : Bool} {a b c : Mersenne61} (h : a.sub checks b = some c) : c.Rep (wrappedSub a b) := by
  have ha := a.value.toNat_lt
  have hb := b.value.toNat_lt
  have hmodulus : modulus.toNat = 2 ^ 61 - 1 := rfl
  have hmersenne : mersenneModulus = 2 ^ 61 - 1 := rfl
  rw [sub] at h
  split_ifs at h with hlt
  · have hlt' : a.value.toNat < b.value.toNat := UInt64.lt_iff_toNat_lt.mp hlt
    obtain ⟨d, hd, h⟩ := Option.bind_eq_some_iff.mp h
    obtain ⟨e, he, h⟩ := Option.bind_eq_some_iff.mp h
    obtain rfl := eq_of_result hd
    obtain rfl := eq_of_result he
    obtain rfl := Option.some.inj h
    refine Rep.fromU64 ?_
    rw [UInt64.toNat_sub, UInt64.toNat_add, wrappedSub]
    split_ifs with hwraps
    · have hval : (2 ^ 64 - b.value.toNat + (a.value.toNat + modulus.toNat) % 2 ^ 64) % 2 ^ 64 =
          a.value.toNat + mersenneModulus + 2 ^ 64 - b.value.toNat := by omega
      rw [hval, Nat.cast_sub (by omega), Nat.cast_add, Nat.cast_add, natCast_two_pow, ZMod.natCast_self, add_zero,
        add_sub_right_comm]
      rfl
    · have hval : (2 ^ 64 - b.value.toNat + (a.value.toNat + modulus.toNat) % 2 ^ 64) % 2 ^ 64 =
          a.value.toNat + mersenneModulus - b.value.toNat := by omega
      rw [hval, Nat.cast_sub (by omega), Nat.cast_add, ZMod.natCast_self, Nat.cast_zero, add_zero, add_zero]
      rfl
  · have hle : b.value.toNat ≤ a.value.toNat := not_lt.mp fun h => hlt (UInt64.lt_iff_toNat_lt.mpr h)
    obtain ⟨d, hd, h⟩ := Option.bind_eq_some_iff.mp h
    obtain rfl := eq_of_result hd
    obtain rfl := Option.some.inj h
    refine Rep.fromU64 ?_
    rw [UInt64.toNat_sub_of_le _ _ (UInt64.le_iff_toNat_le.mpr hle), Nat.cast_sub hle, wrappedSub, if_neg (by omega),
      Nat.cast_zero, add_zero]
    rfl

/-- Where overflows are checked, a difference that wraps around panics. -/
theorem isSome_sub_true {a b : Mersenne61} : (a.sub true b).isSome ↔
    (a.value.toNat < b.value.toNat → a.value.toNat + mersenneModulus < 2 ^ 64 ∧
      b.value.toNat ≤ a.value.toNat + mersenneModulus) := by
  have hmodulus := toNat_modulus
  rw [sub]
  split_ifs with hlt
  · have hlt' : a.value.toNat < b.value.toNat := UInt64.lt_iff_toNat_lt.mp hlt
    rw [forall_prop_of_true hlt', ← hmodulus]
    by_cases hfits : a.value.toNat + modulus.toNat < 2 ^ 64
    · obtain ⟨c, hc, hval⟩ := u64Add_of_lt true hfits
      rw [hc, ← hval]
      by_cases hle : b.value.toNat ≤ c.toNat
      · obtain ⟨d, hd, -⟩ := u64Sub_of_le true hle
        simp [hd, hle, c.toNat_lt]
      · simp [u64Sub_of_not_le hle, hle]
    · simp only [u64Add_of_not_lt hfits, hfits, false_and, iff_false]
      exact Bool.false_ne_true
  · have hlt' : ¬ a.value.toNat < b.value.toNat := fun h => hlt (UInt64.lt_iff_toNat_lt.mpr h)
    obtain ⟨c, hc, -⟩ := u64Sub_of_le true (not_lt.mp hlt')
    simp [hc, hlt']

theorem wrappedSub_of_le {a b : Mersenne61} (h : b.value.toNat ≤ a.value.toNat + mersenneModulus) :
    wrappedSub a b = a.toZMod - b.toZMod := by
  rw [wrappedSub, if_neg (not_lt.mpr h), Nat.cast_zero, add_zero]

theorem sub_of_le (checks : Bool) {a b : Mersenne61} (ha : a.value.toNat ≤ mersenneModulus)
    (hb : b.value.toNat ≤ mersenneModulus) :
    ∃ c, a.sub checks b = some c ∧ c.Rep (a.toZMod - b.toZMod) := by
  have hle : b.value.toNat ≤ a.value.toNat + mersenneModulus := by omega
  have hfits : mersenneModulus + mersenneModulus < 2 ^ 64 := by decide
  have hsome : (a.sub checks b).isSome := by
    cases checks with
    | true => exact isSome_sub_true.mpr fun _ => ⟨by omega, hle⟩
    | false => exact isSome_sub a b
  obtain ⟨c, hc⟩ := Option.isSome_iff_exists.mp hsome
  exact ⟨c, hc, wrappedSub_of_le hle ▸ sub_rep hc⟩

instance : Wide Mersenne61 where
  zero_eq := rfl
  one_eq := rfl
  toNat_zero := rfl
  toNat_one := rfl
  add_eq checks _ _ ha hb := get_eq (Rep.add checks ⟨ha, rfl⟩ ⟨hb, rfl⟩) (Rep.add false ⟨ha, rfl⟩ ⟨hb, rfl⟩) _
  sub_eq checks _ _ ha hb := get_eq (Rep.sub checks ⟨ha, rfl⟩ ⟨hb, rfl⟩) (Rep.sub false ⟨ha, rfl⟩ ⟨hb, rfl⟩) _
  sub_of_le checks _ _ ha hb _ := sub_of_le checks ha hb
  mul_eq := mul_eq
  inverse_eq checks _ ha := inverse_eq checks ha
  reduced_mul a b := by
    change (RingOps.mul a b).value.toNat < mersenneModulus
    rw [toNat_mul]
    exact product_lt _ _
  modEq_mul {a b} hb := by
    have hlt : a.value.toNat * b.value.toNat < 2 ^ 125 :=
      (Nat.mul_lt_mul'' a.value.toNat_lt hb).trans (by decide)
    change (RingOps.mul a b).value.toNat ≡ _ [MOD mersenneModulus]
    rw [toNat_mul, product, Nat.mod_eq_of_lt hlt]
    exact Nat.mod_modEq _ _

end Mersenne61

/-! ### The fields of `crypto-bigint` -/

namespace ModUint

open FieldApi

variable [CryptoBigint] {m : Nat} [IsModulus m]

instance : Wide (ModUint m) where
  zero_eq := rfl
  one_eq := rfl
  toNat_zero := rfl
  toNat_one := rfl
  add_eq _ _ _ _ _ := rfl
  sub_eq _ _ _ _ _ := rfl
  sub_of_le _ _ _ ha hb hne := ⟨_, rfl, sub_of_le ha hb hne⟩
  mul_eq _ _ _ := rfl
  inverse_eq _ _ _ := rfl
  reduced_mul a b := (mul_spec a b).1
  modEq_mul {a b} _ := modEq_of_mul (mul_spec a b).2

instance [Fact m.Prime] : Fact (FieldApi.modulus (ModUint m)).Prime := ‹Fact m.Prime›

end ModUint

end SclRs
