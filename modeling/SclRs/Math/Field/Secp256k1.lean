import Mathlib.Data.Int.GCD
import Mathlib.Data.ZMod.Basic
import Mathlib.Tactic.Zify
import SclRs.Math.Field.Moduli
import SclRs.Math.Ring

/-!
# The fields of secp256k1

`Secp256k1PrimeField` and `Secp256k1ScalarField` wrap a `Uint<4>` of the third-party crate
`crypto_bigint` and call its modular arithmetic with their modulus. The two files differ in the modulus
alone, so both are `ModUint` at theirs. `new` does not reduce: `Canonical` says that a value is below
the modulus, and only then do sums, differences and opposites have documented results.
-/

namespace SclRs

/-- `Uint<4>`. -/
abbrev Uint := BitVec 256

/-- The modular arithmetic of `Uint<4>`, with what its documentation promises. The assumptions are
those it states; `invertMod` answers `none` where there is no inverse. -/
class CryptoBigint where
  addMod : Uint → Uint → Uint → Uint
  subMod : Uint → Uint → Uint → Uint
  negMod : Uint → Uint → Uint
  mulMod : Uint → Uint → Uint → Uint
  invertMod : Uint → Uint → Option Uint
  addMod_spec : ∀ a b p, a.toNat + b.toNat < 2 * p.toNat →
    (addMod a b p).toNat = (a.toNat + b.toNat) % p.toNat
  subMod_spec : ∀ a b p, a.toNat < b.toNat + p.toNat → b.toNat ≤ a.toNat + p.toNat →
    (subMod a b p).toNat = (a.toNat + p.toNat - b.toNat) % p.toNat
  negMod_spec : ∀ a p, a.toNat < p.toNat → (negMod a p).toNat = (p.toNat - a.toNat) % p.toNat
  mulMod_spec : ∀ a b p, 0 < p.toNat → (mulMod a b p).toNat = a.toNat * b.toNat % p.toNat
  invertMod_some : ∀ a p, a.toNat.Coprime p.toNat → 1 < p.toNat →
    ∃ r, invertMod a p = some r ∧ r.toNat < p.toNat ∧ r.toNat * a.toNat % p.toNat = 1
  invertMod_none : ∀ a p, ¬ a.toNat.Coprime p.toNat → invertMod a p = none

theorem toNat_ofNat_mod (x : Nat) {p : Uint} (hp : 0 < p.toNat) :
    (BitVec.ofNat 256 (x % p.toNat)).toNat = x % p.toNat := by
  rw [BitVec.toNat_ofNat, Nat.mod_eq_of_lt ((Nat.mod_lt _ hp).trans p.isLt)]

/-- The crate's operations computed with natural numbers. -/
@[reducible] def CryptoBigint.reference : CryptoBigint where
  addMod a b p := BitVec.ofNat 256 ((a.toNat + b.toNat) % p.toNat)
  subMod a b p := BitVec.ofNat 256 ((a.toNat + p.toNat - b.toNat) % p.toNat)
  negMod a p := BitVec.ofNat 256 ((p.toNat - a.toNat) % p.toNat)
  mulMod a b p := BitVec.ofNat 256 (a.toNat * b.toNat % p.toNat)
  invertMod a p :=
    if a.toNat.gcd p.toNat = 1 then
      some (BitVec.ofNat 256 ((a.toNat.gcdA p.toNat % p.toNat).toNat % p.toNat))
    else none
  addMod_spec _ _ _ h := toNat_ofNat_mod _ (by omega)
  subMod_spec _ _ _ h _ := toNat_ofNat_mod _ (by omega)
  negMod_spec _ _ h := toNat_ofNat_mod _ (by omega)
  mulMod_spec _ _ _ h := toNat_ofNat_mod _ h
  invertMod_some a p h hp := by
    refine ⟨_, if_pos h, ?_, ?_⟩
    · rw [toNat_ofNat_mod _ (by omega)]
      exact Nat.mod_lt _ (by omega)
    · rw [toNat_ofNat_mod _ (by omega), Nat.mod_mul_mod]
      have hne : (p.toNat : ℤ) ≠ 0 := by omega
      have hbezout := Nat.gcd_eq_gcd_ab a.toNat p.toNat
      rw [Nat.Coprime.gcd_eq_one h, Nat.cast_one] at hbezout
      zify
      rw [Int.toNat_of_nonneg (Int.emod_nonneg _ hne), Int.mul_emod, Int.emod_emod_of_dvd _ dvd_rfl, ← Int.mul_emod]
      have hprod : a.toNat.gcdA p.toNat * a.toNat =
          1 + p.toNat * -a.toNat.gcdB p.toNat := by
        rw [hbezout]
        ring
      rw [hprod, Int.add_mul_emod_self_left]
      exact Int.emod_eq_of_lt (by omega) (by omega)
  invertMod_none _ _ h := if_neg h

/-- The crate's operations, where the differences that its documentation leaves open are zero. -/
@[reducible] def CryptoBigint.zeroDifferences : CryptoBigint :=
  { reference with
    subMod := fun a b p =>
      if a.toNat < b.toNat + p.toNat ∧ b.toNat ≤ a.toNat + p.toNat then reference.subMod a b p else 0
    subMod_spec := fun a b p h h' => by
      rw [if_pos ⟨h, h'⟩]
      exact reference.subMod_spec a b p h h' }

/-- A field of integers modulo `m`, as a wrapped `Uint<4>`. -/
structure ModUint (m : Nat) where
  value : Uint
deriving DecidableEq

abbrev Secp256k1PrimeField := ModUint primeModulus

abbrev Secp256k1ScalarField := ModUint scalarModulus

namespace ModUint

variable {m : Nat}

def modulus (m : Nat) : Uint := BitVec.ofNat 256 m

/-- `new`: wraps any value. -/
def new (value : Uint) : ModUint m := ⟨value⟩

/-- `From<u64>`. -/
def fromU64 (value : Nat) : ModUint m := ⟨BitVec.ofNat 256 value⟩

/-- `random`, where `value` is what `random_mod_vartime` gives. -/
def random (value : Uint) : ModUint m := ⟨value⟩

/-- `random_non_zero`, with the numbers that `random_mod_vartime` gives. -/
def randomNonZero : (values : List Uint) → Option (ModUint m)
  | [] => none
  | value :: values => if value = 0 then randomNonZero values else some ⟨value⟩

section
variable [CryptoBigint]

/-- `inverse`: the unwrap of `invert_mod` panics where there is no inverse. -/
def inverse (a : ModUint m) : Option (Except FieldError (ModUint m)) :=
  if a.value = 0 then some (.error .zeroInverse)
  else
    match CryptoBigint.invertMod a.value (modulus m) with
    | some inverse => some (.ok ⟨inverse⟩)
    | none => none

def negate (a : ModUint m) : ModUint m := ⟨CryptoBigint.negMod a.value (modulus m)⟩

instance : Add (ModUint m) := ⟨fun a b => ⟨CryptoBigint.addMod a.value b.value (modulus m)⟩⟩

instance : Sub (ModUint m) := ⟨fun a b => ⟨CryptoBigint.subMod a.value b.value (modulus m)⟩⟩

instance : Mul (ModUint m) := ⟨fun a b => ⟨CryptoBigint.mulMod a.value b.value (modulus m)⟩⟩

/-- `Div<&Self>`. -/
def div (a rhs : ModUint m) : Option (Except FieldError (ModUint m)) := do
  match ← rhs.inverse with
  | .error e => return .error e
  | .ok inverse => return .ok (a * inverse)

end

def zero : ModUint m := ⟨0⟩

def one : ModUint m := ⟨1⟩

instance [CryptoBigint] : FieldOps (ModUint m) where
  zero := zero
  one := one
  add a b := a + b
  sub a b := a - b
  mul a b := a * b
  negate := negate
  inverse := inverse

instance : FromU64 (ModUint m) := ⟨fromU64⟩

/-- The representation is reduced. -/
def Canonical (a : ModUint m) : Prop := a.value.toNat < m

instance (a : ModUint m) : Decidable a.Canonical := inferInstanceAs (Decidable (_ < _))

def toZMod (a : ModUint m) : ZMod m := a.value.toNat

@[simp] theorem toZMod_zero : (zero : ModUint m).toZMod = 0 := by
  simp [toZMod, zero]

@[simp] theorem toZMod_one : (one : ModUint m).toZMod = 1 := by
  simp [toZMod, one]

theorem ext_toNat {a b : ModUint m} (h : a.value.toNat = b.value.toNat) : a = b := by
  obtain ⟨a⟩ := a
  obtain ⟨b⟩ := b
  exact congrArg ModUint.mk (BitVec.eq_of_toNat_eq h)

theorem toZMod_eq_iff {a b : ModUint m} :
    a.toZMod = b.toZMod ↔ a.value.toNat % m = b.value.toNat % m :=
  ZMod.natCast_eq_natCast_iff' _ _ _

theorem Canonical.ext {a b : ModUint m} (ha : a.Canonical) (hb : b.Canonical)
    (h : a.toZMod = b.toZMod) : a = b := by
  rw [toZMod_eq_iff, Nat.mod_eq_of_lt ha, Nat.mod_eq_of_lt hb] at h
  exact ext_toNat h

theorem Canonical.toZMod_eq_zero {a : ModUint m} (ha : a.Canonical) :
    a.toZMod = 0 ↔ a.value = 0 := by
  rw [toZMod, ZMod.natCast_eq_zero_iff]
  constructor
  · intro h
    have hzero : a.value.toNat = 0 := Nat.eq_zero_of_dvd_of_lt h ha
    exact BitVec.eq_of_toNat_eq (by simpa using hzero)
  · intro h
    simp [h]

theorem canonical_fromU64 {n : Nat} (h : n < m) : (fromU64 n : ModUint m).Canonical := by
  rw [Canonical, fromU64, BitVec.toNat_ofNat]
  exact (Nat.mod_le _ _).trans_lt h

/-- `a` is the reduced representation of `v`. -/
def Rep (a : ModUint m) (v : ZMod m) : Prop := a.Canonical ∧ a.toZMod = v

theorem Rep.of_canonical {a : ModUint m} (ha : a.Canonical) : a.Rep a.toZMod := ⟨ha, rfl⟩

theorem Rep.congr {a : ModUint m} {u v : ZMod m} (ha : a.Rep u) (h : u = v) : a.Rep v := h ▸ ha

theorem Rep.eq_iff {a b : ModUint m} {u v : ZMod m} (ha : a.Rep u) (hb : b.Rep v) :
    a = b ↔ u = v := by
  rw [← ha.2, ← hb.2]
  exact ⟨congrArg toZMod, ha.1.ext hb.1⟩

/-- A modulus of 256 bits. -/
class IsModulus (m : Nat) : Prop where
  one_lt : 1 < m
  lt_pow : m < 2 ^ 256

instance : IsModulus primeModulus := ⟨by decide, by decide⟩

instance : IsModulus scalarModulus := ⟨by decide, by decide⟩

section
variable [IsModulus m]

@[simp] theorem toNat_modulus : (modulus m).toNat = m := by
  rw [modulus, BitVec.toNat_ofNat, Nat.mod_eq_of_lt (IsModulus.lt_pow)]

theorem pos_of_isModulus : 0 < m := Nat.lt_of_succ_lt IsModulus.one_lt

theorem canonical_zero : (zero : ModUint m).Canonical := by
  simpa [Canonical, zero] using pos_of_isModulus

theorem canonical_one : (one : ModUint m).Canonical := by
  simpa [Canonical, one] using IsModulus.one_lt

theorem toZMod_fromU64 {n : Nat} (h : n < m) : (fromU64 n : ModUint m).toZMod = n := by
  have hlt : n < 2 ^ 256 := h.trans IsModulus.lt_pow
  rw [toZMod, fromU64, BitVec.toNat_ofNat, Nat.mod_eq_of_lt hlt]

theorem Rep.zero : (ModUint.zero : ModUint m).Rep 0 := ⟨canonical_zero, toZMod_zero⟩

theorem Rep.one : (ModUint.one : ModUint m).Rep 1 := ⟨canonical_one, toZMod_one⟩

theorem Rep.fromU64 {n : Nat} (h : n < m) : (ModUint.fromU64 n : ModUint m).Rep n :=
  ⟨canonical_fromU64 h, toZMod_fromU64 h⟩

theorem exists_rep (v : ZMod m) : ∃ a : ModUint m, a.Rep v := by
  have : NeZero m := ⟨pos_of_isModulus.ne'⟩
  have hval : (BitVec.ofNat 256 v.val).toNat = v.val := by
    rw [BitVec.toNat_ofNat, Nat.mod_eq_of_lt (v.val_lt.trans IsModulus.lt_pow)]
  refine ⟨⟨BitVec.ofNat 256 v.val⟩, hval.trans_lt v.val_lt, ?_⟩
  rw [toZMod, hval, ZMod.natCast_zmod_val]

variable [CryptoBigint]

/-- The product is reduced and right whatever the factors. -/
theorem mul_spec (a b : ModUint m) :
    (a * b).Canonical ∧ (a * b).toZMod = a.toZMod * b.toZMod := by
  have h := CryptoBigint.mulMod_spec a.value b.value (modulus m) (by simpa using pos_of_isModulus)
  rw [toNat_modulus] at h
  constructor
  · change (CryptoBigint.mulMod a.value b.value (modulus m)).toNat < m
    rw [h]
    exact Nat.mod_lt _ pos_of_isModulus
  · change ((CryptoBigint.mulMod a.value b.value (modulus m)).toNat : ZMod m) = _
    rw [h, ZMod.natCast_mod, Nat.cast_mul]
    rfl

/-- The reduced representation of the class of `a`. -/
def reduce (a : ModUint m) : ModUint m := ⟨BitVec.ofNat 256 (a.value.toNat % m)⟩

omit [CryptoBigint] in
theorem reduce_spec (a : ModUint m) : a.reduce.Rep a.toZMod := by
  have hlt := Nat.mod_lt a.value.toNat (pos_of_isModulus (m := m))
  have hval : a.reduce.value.toNat = a.value.toNat % m := by
    rw [reduce, BitVec.toNat_ofNat, Nat.mod_eq_of_lt (hlt.trans IsModulus.lt_pow)]
  refine ⟨hval.trans_lt hlt, ?_⟩
  rw [toZMod, hval, ZMod.natCast_mod]
  rfl

theorem reduce_mul (a b : ModUint m) : a.reduce * b = a * b :=
  (Rep.eq_iff (mul_spec a.reduce b) (mul_spec a b)).mpr (by rw [(reduce_spec a).2])

variable {a b : ModUint m}

theorem add_spec (ha : a.Canonical) (hb : b.Canonical) :
    (a + b).Canonical ∧ (a + b).toZMod = a.toZMod + b.toZMod := by
  have h := CryptoBigint.addMod_spec a.value b.value (modulus m) (by
    unfold Canonical at ha hb
    rw [toNat_modulus]
    omega)
  rw [toNat_modulus] at h
  constructor
  · change (CryptoBigint.addMod a.value b.value (modulus m)).toNat < m
    rw [h]
    exact Nat.mod_lt _ pos_of_isModulus
  · change ((CryptoBigint.addMod a.value b.value (modulus m)).toNat : ZMod m) = _
    rw [h, ZMod.natCast_mod, Nat.cast_add]
    rfl

/-- The differences that are documented. -/
theorem sub_of_range (hlt : a.value.toNat < b.value.toNat + m) (hle : b.value.toNat ≤ a.value.toNat + m) :
    (a - b).Rep (a.toZMod - b.toZMod) := by
  have h := CryptoBigint.subMod_spec a.value b.value (modulus m) (by rwa [toNat_modulus])
    (by rwa [toNat_modulus])
  rw [toNat_modulus] at h
  constructor
  · change (CryptoBigint.subMod a.value b.value (modulus m)).toNat < m
    rw [h]
    exact Nat.mod_lt _ pos_of_isModulus
  · change ((CryptoBigint.subMod a.value b.value (modulus m)).toNat : ZMod m) = _
    rw [h, ZMod.natCast_mod, Nat.cast_sub hle, Nat.cast_add, ZMod.natCast_self, add_zero]
    rfl

theorem sub_of_le (ha : a.value.toNat ≤ m) (hb : b.value.toNat ≤ m)
    (hne : ¬ (a.value.toNat = m ∧ b.value.toNat = 0)) : (a - b).Rep (a.toZMod - b.toZMod) :=
  sub_of_range (by omega) (by omega)

theorem sub_spec (ha : a.Canonical) (hb : b.Canonical) :
    (a - b).Canonical ∧ (a - b).toZMod = a.toZMod - b.toZMod :=
  sub_of_le ha.le hb.le fun h => ha.ne h.1

theorem negate_spec (ha : a.Canonical) :
    a.negate.Canonical ∧ a.negate.toZMod = -a.toZMod := by
  unfold Canonical at ha
  have h := CryptoBigint.negMod_spec a.value (modulus m) (by rwa [toNat_modulus])
  rw [toNat_modulus] at h
  constructor
  · change (CryptoBigint.negMod a.value (modulus m)).toNat < m
    rw [h]
    exact Nat.mod_lt _ pos_of_isModulus
  · change ((CryptoBigint.negMod a.value (modulus m)).toNat : ZMod m) = _
    rw [h, ZMod.natCast_mod, Nat.cast_sub ha.le, ZMod.natCast_self, zero_sub]
    rfl

namespace Rep

variable {u v : ZMod m}

theorem add (ha : a.Rep u) (hb : b.Rep v) : (a + b).Rep (u + v) :=
  ⟨(add_spec ha.1 hb.1).1, by rw [(add_spec ha.1 hb.1).2, ha.2, hb.2]⟩

theorem sub (ha : a.Rep u) (hb : b.Rep v) : (a - b).Rep (u - v) :=
  ⟨(sub_spec ha.1 hb.1).1, by rw [(sub_spec ha.1 hb.1).2, ha.2, hb.2]⟩

theorem mul (ha : a.Rep u) (hb : b.Rep v) : (a * b).Rep (u * v) :=
  ⟨(mul_spec a b).1, by rw [(mul_spec a b).2, ha.2, hb.2]⟩

theorem negate (ha : a.Rep u) : a.negate.Rep (-u) :=
  ⟨(negate_spec ha.1).1, by rw [(negate_spec ha.1).2, ha.2]⟩

end Rep

theorem inverse_none [Fact m.Prime] : a.inverse = none ↔ a.value ≠ 0 ∧ a.toZMod = 0 := by
  unfold inverse
  rw [toZMod, ZMod.natCast_eq_zero_iff]
  split_ifs with hzero
  · simp [hzero]
  · by_cases hdvd : m ∣ a.value.toNat
    · have hcop : ¬ a.value.toNat.Coprime m := fun h =>
        (Fact.out : m.Prime).one_lt.ne' (Nat.eq_one_of_dvd_coprimes h hdvd dvd_rfl)
      rw [CryptoBigint.invertMod_none _ _ (by rwa [toNat_modulus])]
      exact iff_of_true rfl ⟨hzero, hdvd⟩
    · have hcop : a.value.toNat.Coprime m :=
        ((Nat.Prime.coprime_iff_not_dvd Fact.out).mpr hdvd).symm
      obtain ⟨r, hr, -⟩ := CryptoBigint.invertMod_some a.value (modulus m)
        (by rwa [toNat_modulus]) (by rw [toNat_modulus]; exact IsModulus.one_lt)
      simp [hr, hdvd]

theorem inverse_ok [Fact m.Prime] (ha : a.toZMod ≠ 0) :
    ∃ r : ModUint m, a.inverse = some (.ok r) ∧ r.Canonical ∧ r.toZMod = a.toZMod⁻¹ := by
  have hdvd : ¬ m ∣ a.value.toNat := fun h => ha ((ZMod.natCast_eq_zero_iff _ _).mpr h)
  have hcop : a.value.toNat.Coprime m := ((Nat.Prime.coprime_iff_not_dvd Fact.out).mpr hdvd).symm
  obtain ⟨r, hr, hlt, hinv⟩ := CryptoBigint.invertMod_some a.value (modulus m)
    (by rwa [toNat_modulus]) (by rw [toNat_modulus]; exact IsModulus.one_lt)
  rw [toNat_modulus] at hlt hinv
  have hzero : a.value ≠ 0 := by
    intro h
    rw [h] at hdvd
    exact hdvd (dvd_zero m)
  refine ⟨⟨r⟩, ?_, hlt, ?_⟩
  · simp only [inverse, hzero, if_false, hr]
  · refine eq_inv_of_mul_eq_one_left ?_
    have hone : ((r.toNat * a.value.toNat : ℕ) : ZMod m) = (1 : ℕ) := by
      rw [ZMod.natCast_eq_natCast_iff', hinv, Nat.mod_eq_of_lt IsModulus.one_lt]
    rw [Nat.cast_mul, Nat.cast_one] at hone
    exact hone

/-- On reduced representations both fields are `ℤ/m`. -/
instance [Fact m.Prime] : LawfulField (ModUint m) (ZMod m) where
  Valid := Canonical
  val := toZMod
  val_inj := Canonical.ext
  val_surj := exists_rep
  valid_zero := canonical_zero
  valid_one := canonical_one
  valid_add ha hb := (add_spec ha hb).1
  valid_sub ha hb := (sub_spec ha hb).1
  valid_mul _ _ := (mul_spec _ _).1
  valid_negate ha := (negate_spec ha).1
  val_zero := toZMod_zero
  val_one := toZMod_one
  val_add ha hb := (add_spec ha hb).2
  val_sub ha hb := (sub_spec ha hb).2
  val_mul _ _ := (mul_spec _ _).2
  val_negate ha := (negate_spec ha).2
  inverse_zero ha hzero := if_pos (ha.toZMod_eq_zero.mp hzero)
  inverse_ne_zero _ hne := inverse_ok hne

instance : LawfulFromU64 Secp256k1PrimeField :=
  ⟨fun _ h => canonical_fromU64 (h.trans (by decide))⟩

instance : LawfulFromU64 Secp256k1ScalarField :=
  ⟨fun _ h => canonical_fromU64 (h.trans (by decide))⟩

end

end ModUint

end SclRs
