import SclRs.Math.Field.Mersenne61
import SclRs.Math.Field.Secp256k1
import SclRs.Net.Packet

/-!
# Where field elements are reduced

A field element enters a program by `From<u64>`, by sampling, by a constant, by `new`, or by the derived
`Deserialize`, and leaves an operation. All but two of these doors reduce: `new` and `Deserialize` wrap
any integer. `Obtained` collects what comes out of them, and `Sound` says that it is reduced and that the
operations on it do what they should; it holds of what a program obtains just when the integers that
it gives to the two doors are below the modulus (`sound_iff`).
-/

namespace SclRs

/-- The public functions of a field whose elements wrap an `Inner`. -/
class FieldApi (F : Type) (Inner : outParam Type) where
  modulus : Nat
  wrap : Inner → F
  toNat : F → Nat
  /-- The type has the constructor `new`. -/
  hasNew : Bool
  zero : F
  one : F
  fromU64 : Nat → F
  /-- The elements that `random` can give. -/
  Random : F → Prop
  RandomNonZero : F → Prop
  add (checks : Bool) (a b : F) : Option F
  sub (checks : Bool) (a b : F) : Option F
  mul (checks : Bool) (a b : F) : Option F
  negate (checks : Bool) (a : F) : Option F
  inverse (checks : Bool) (a : F) : Option (Except FieldError F)
  div (checks : Bool) (a b : F) : Option (Except FieldError F)
  pow (a : F) (exp : Nat) : F

namespace FieldApi

/-- What a program gives to `new`, and the bytes that it decodes. -/
structure Inputs (Inner : Type) where
  constructed : Inner → Prop
  received : List UInt8 → Prop

section
variable (F : Type) {Inner : Type} [FieldApi F Inner] (codec : Postcard Inner)

/-- The elements that a program obtains. -/
inductive Obtained (checks : Bool) (inputs : Inputs Inner) : F → Prop
  | zero : Obtained checks inputs zero
  | one : Obtained checks inputs one
  | fromU64 {n : Nat} : n < 2 ^ 64 → Obtained checks inputs (fromU64 n)
  | random {a : F} : Random a → Obtained checks inputs a
  | randomNonZero {a : F} : RandomNonZero a → Obtained checks inputs a
  | new {i : Inner} : hasNew F = true → inputs.constructed i → Obtained checks inputs (wrap i)
  | decode {bytes : List UInt8} {i : Inner} : inputs.received bytes →
      codec.fromBytes bytes = some i → Obtained checks inputs (wrap i)
  | add {a b c : F} : Obtained checks inputs a → Obtained checks inputs b →
      add checks a b = some c → Obtained checks inputs c
  | sub {a b c : F} : Obtained checks inputs a → Obtained checks inputs b →
      sub checks a b = some c → Obtained checks inputs c
  | mul {a b c : F} : Obtained checks inputs a → Obtained checks inputs b →
      mul checks a b = some c → Obtained checks inputs c
  | negate {a c : F} : Obtained checks inputs a → negate checks a = some c →
      Obtained checks inputs c
  | inverse {a c : F} : Obtained checks inputs a → inverse checks a = some (.ok c) →
      Obtained checks inputs c
  | div {a b c : F} : Obtained checks inputs a → Obtained checks inputs b →
      div checks a b = some (.ok c) → Obtained checks inputs c
  | pow {a : F} {exp : Nat} : Obtained checks inputs a → Obtained checks inputs (pow a exp)

/-- What a program gives to `new` and decodes is below the modulus. -/
structure Below (inputs : Inputs Inner) : Prop where
  constructed : hasNew F = true → ∀ i, inputs.constructed i → toNat (wrap i : F) < modulus F
  received : ∀ bytes i, inputs.received bytes → codec.fromBytes bytes = some i →
    toNat (wrap i : F) < modulus F

end

section
variable {F Inner : Type} [FieldApi F Inner]

/-- The representation is below the modulus. -/
def Reduced (a : F) : Prop := toNat a < modulus F

/-- The operations on two elements do not panic, and their results are the right ones. -/
structure Computes (checks : Bool) (a b : F) : Prop where
  add : ∃ c, add checks a b = some c ∧ toNat c ≡ toNat a + toNat b [MOD modulus F]
  sub : ∃ c, sub checks a b = some c ∧ toNat c + toNat b ≡ toNat a [MOD modulus F]
  mul : ∃ c, mul checks a b = some c ∧ toNat c ≡ toNat a * toNat b [MOD modulus F]
  negate : ∃ c, negate checks a = some c ∧ toNat c + toNat a ≡ 0 [MOD modulus F]
  inverse : inverse checks a = some (.error .zeroInverse) ∧ toNat a ≡ 0 [MOD modulus F] ∨
    ∃ c, inverse checks a = some (.ok c) ∧ toNat c * toNat a ≡ 1 [MOD modulus F]

/-- Elements are reduced, equality is congruence (the hash is that of the integer), and the operations
compute. -/
structure Sound (checks : Bool) (elements : F → Prop) : Prop where
  reduced : ∀ a, elements a → Reduced a
  eq_iff : ∀ a b, elements a → elements b → (a = b ↔ toNat a ≡ toNat b [MOD modulus F])
  computes : ∀ a b, elements a → elements b → Computes checks a b

end

/-- Every door but `new` and `Deserialize` reduces, and every operation on reduced elements. -/
class Lawful (F : Type) {Inner : Type} [FieldApi F Inner] : Prop where
  ext {a b : F} : toNat a = toNat b → a = b
  zero : Reduced (zero : F)
  one : Reduced (one : F)
  fromU64 {n : Nat} : n < 2 ^ 64 → Reduced (fromU64 n : F)
  random {a : F} : Random a → Reduced a
  randomNonZero {a : F} : RandomNonZero a → Reduced a
  add (checks : Bool) {a b : F} : Reduced a → Reduced b →
    ∃ c, add checks a b = some c ∧ Reduced c ∧ toNat c ≡ toNat a + toNat b [MOD modulus F]
  sub (checks : Bool) {a b : F} : Reduced a → Reduced b →
    ∃ c, sub checks a b = some c ∧ Reduced c ∧ toNat c + toNat b ≡ toNat a [MOD modulus F]
  mul (checks : Bool) {a b : F} : Reduced a → Reduced b →
    ∃ c, mul checks a b = some c ∧ Reduced c ∧ toNat c ≡ toNat a * toNat b [MOD modulus F]
  negate (checks : Bool) {a : F} : Reduced a →
    ∃ c, negate checks a = some c ∧ Reduced c ∧ toNat c + toNat a ≡ 0 [MOD modulus F]
  inverse (checks : Bool) {a : F} : Reduced a →
    inverse checks a = some (.error .zeroInverse) ∧ toNat a ≡ 0 [MOD modulus F] ∨
    ∃ c, inverse checks a = some (.ok c) ∧ Reduced c ∧ toNat c * toNat a ≡ 1 [MOD modulus F]
  div {checks : Bool} {a b c : F} : Reduced a → Reduced b → div checks a b = some (.ok c) → Reduced c
  pow {a : F} (exp : Nat) : Reduced a → Reduced (pow a exp)

section
variable {F Inner : Type} [FieldApi F Inner] {codec : Postcard Inner} {checks : Bool}
  {inputs : Inputs Inner}

/-- **What is obtained from integers below the modulus is reduced.** -/
theorem Obtained.reduced [Lawful F] (h : Below F codec inputs) {a : F}
    (ha : Obtained F codec checks inputs a) : Reduced a := by
  induction ha with
  | zero => exact Lawful.zero
  | one => exact Lawful.one
  | fromU64 hn => exact Lawful.fromU64 hn
  | random ha => exact Lawful.random ha
  | randomNonZero ha => exact Lawful.randomNonZero ha
  | new hnew hi => exact h.constructed hnew _ hi
  | decode hbytes hi => exact h.received _ _ hbytes hi
  | add _ _ hc iha ihb =>
    obtain ⟨_, hc', hreduced, -⟩ := Lawful.add checks iha ihb
    exact Option.some.inj (hc'.symm.trans hc) ▸ hreduced
  | sub _ _ hc iha ihb =>
    obtain ⟨_, hc', hreduced, -⟩ := Lawful.sub checks iha ihb
    exact Option.some.inj (hc'.symm.trans hc) ▸ hreduced
  | mul _ _ hc iha ihb =>
    obtain ⟨_, hc', hreduced, -⟩ := Lawful.mul checks iha ihb
    exact Option.some.inj (hc'.symm.trans hc) ▸ hreduced
  | negate _ hc iha =>
    obtain ⟨_, hc', hreduced, -⟩ := Lawful.negate checks iha
    exact Option.some.inj (hc'.symm.trans hc) ▸ hreduced
  | inverse _ hc iha =>
    obtain ⟨hc', -⟩ | ⟨_, hc', hreduced, -⟩ := Lawful.inverse checks iha
    · cases hc'.symm.trans hc
    · exact Except.ok.inj (Option.some.inj (hc'.symm.trans hc)) ▸ hreduced
  | div _ _ hc iha ihb => exact Lawful.div iha ihb hc
  | pow _ iha => exact Lawful.pow _ iha

theorem Reduced.computes [Lawful F] {a b : F} (ha : Reduced a) (hb : Reduced b) :
    Computes checks a b where
  add := (Lawful.add checks ha hb).imp fun _ h => ⟨h.1, h.2.2⟩
  sub := (Lawful.sub checks ha hb).imp fun _ h => ⟨h.1, h.2.2⟩
  mul := (Lawful.mul checks ha hb).imp fun _ h => ⟨h.1, h.2.2⟩
  negate := (Lawful.negate checks ha).imp fun _ h => ⟨h.1, h.2.2⟩
  inverse := (Lawful.inverse checks ha).imp_right fun h => h.imp fun _ h => ⟨h.1, h.2.2⟩

/-- **Elements are reduced just when the integers that are wrapped are.** -/
theorem sound_iff [Lawful F] :
    Sound checks (Obtained F codec checks inputs) ↔ Below F codec inputs := by
  constructor
  · exact fun h => ⟨fun hnew _ hi => h.reduced _ (.new hnew hi),
      fun _ _ hbytes hi => h.reduced _ (.decode hbytes hi)⟩
  · intro h
    refine ⟨fun a ha => ha.reduced h, fun a b ha hb => ⟨fun hab => hab ▸ rfl, fun hab => ?_⟩,
      fun a b ha hb => (ha.reduced h).computes (hb.reduced h)⟩
    exact Lawful.ext (hab.eq_of_lt_of_lt (ha.reduced h) (hb.reduced h))

end

/-! ### Residues -/

section
variable {m a b c : Nat}

theorem modEq_of_add (h : (c : ZMod m) = a + b) : c ≡ a + b [MOD m] := by
  rw [← ZMod.natCast_eq_natCast_iff, Nat.cast_add, h]

theorem modEq_of_sub (h : (c : ZMod m) = a - b) : c + b ≡ a [MOD m] := by
  rw [← ZMod.natCast_eq_natCast_iff, Nat.cast_add, h, sub_add_cancel]

theorem modEq_of_mul (h : (c : ZMod m) = a * b) : c ≡ a * b [MOD m] := by
  rw [← ZMod.natCast_eq_natCast_iff, Nat.cast_mul, h]

theorem modEq_of_neg (h : (c : ZMod m) = -a) : c + a ≡ 0 [MOD m] := by
  rw [← ZMod.natCast_eq_natCast_iff, Nat.cast_add, h, neg_add_cancel, Nat.cast_zero]

theorem modEq_of_inv [Fact m.Prime] (ha : (a : ZMod m) ≠ 0) (h : (c : ZMod m) = (a : ZMod m)⁻¹) :
    c * a ≡ 1 [MOD m] := by
  rw [← ZMod.natCast_eq_natCast_iff, Nat.cast_mul, h, inv_mul_cancel₀ ha, Nat.cast_one]

theorem modEq_zero (h : (a : ZMod m) = 0) : a ≡ 0 [MOD m] := by
  rwa [← ZMod.natCast_eq_natCast_iff, Nat.cast_zero]

end

end FieldApi

/-! ### The three fields -/

open FieldApi LawfulRing

instance : FieldApi Mersenne61 UInt64 where
  modulus := mersenneModulus
  wrap := Mersenne61.mk
  toNat a := a.value.toNat
  hasNew := false
  zero := Mersenne61.zero
  one := Mersenne61.one
  fromU64 n := Mersenne61.fromU64 (UInt64.ofNat n)
  Random a := ∃ draws, Mersenne61.random draws = some a
  RandomNonZero a := ∃ draws, Mersenne61.randomNonZero draws = some a
  add := Mersenne61.add
  sub := Mersenne61.sub
  mul := Mersenne61.mul
  negate := Mersenne61.negate
  inverse := Mersenne61.inverse
  div := Mersenne61.div
  pow := RingOps.pow

theorem Mersenne61.canonical_div {checks : Bool} {a b c : Mersenne61} (ha : a.Canonical)
    (hb : b.Canonical) (h : a.div checks b = some (.ok c)) : c.Canonical := by
  obtain ⟨r, hr, h⟩ := Option.bind_eq_some_iff.mp h
  cases r with
  | error e => cases h
  | ok inverse =>
    obtain ⟨product, hproduct, h⟩ := Option.bind_eq_some_iff.mp h
    obtain rfl := Except.ok.inj (Option.some.inj h)
    have hne : a.toZMod ≠ 0 := by
      intro hzero
      rw [Mersenne61.inverse, if_pos (ha.toZMod_eq_zero.mp hzero)] at hr
      cases hr
    obtain ⟨r, hr', hinverse⟩ := Mersenne61.Rep.inverse checks ⟨ha, rfl⟩ hne
    obtain rfl := Except.ok.inj (Option.some.inj (hr'.symm.trans hr))
    obtain ⟨r, hr, hrep⟩ := Mersenne61.Rep.mul checks ⟨hb, rfl⟩ hinverse
    exact Option.some.inj (hr.symm.trans hproduct) ▸ hrep.1

instance : Lawful Mersenne61 where
  ext h := congrArg Mersenne61.mk (UInt64.toNat_inj.mp h)
  zero := valid_zero (R := Mersenne61)
  one := valid_one (R := Mersenne61)
  fromU64 _ := (Mersenne61.Rep.fromU64 rfl).1
  random := fun ⟨_, h⟩ => Mersenne61.Rep.random h
  randomNonZero := fun ⟨_, h⟩ => Mersenne61.Rep.randomNonZero h
  add checks _ _ ha hb :=
    (Mersenne61.Rep.add checks ⟨ha, rfl⟩ ⟨hb, rfl⟩).imp fun _ h => ⟨h.1, h.2.1, modEq_of_add h.2.2⟩
  sub checks _ _ ha hb :=
    (Mersenne61.Rep.sub checks ⟨ha, rfl⟩ ⟨hb, rfl⟩).imp fun _ h => ⟨h.1, h.2.1, modEq_of_sub h.2.2⟩
  mul checks _ _ ha hb :=
    (Mersenne61.Rep.mul checks ⟨ha, rfl⟩ ⟨hb, rfl⟩).imp fun _ h => ⟨h.1, h.2.1, modEq_of_mul h.2.2⟩
  negate checks _ ha :=
    (Mersenne61.Rep.negate checks ⟨ha, rfl⟩).imp fun _ h => ⟨h.1, h.2.1, modEq_of_neg h.2.2⟩
  inverse checks a ha := by
    by_cases hzero : a.toZMod = 0
    · exact .inl ⟨if_pos (Mersenne61.Canonical.toZMod_eq_zero ha |>.mp hzero), modEq_zero hzero⟩
    · exact .inr ((Mersenne61.Rep.inverse checks ⟨ha, rfl⟩ hzero).imp fun _ h =>
        ⟨h.1, h.2.1, modEq_of_inv (m := mersenneModulus) hzero h.2.2⟩)
  div := Mersenne61.canonical_div
  pow exp ha := (RingOps.pow_spec (R := Mersenne61) ha exp).1

section
variable [CryptoBigint] {m : Nat}

instance : FieldApi (ModUint m) Uint where
  modulus := m
  wrap := ModUint.new
  toNat a := a.value.toNat
  hasNew := true
  zero := ModUint.zero
  one := ModUint.one
  fromU64 := ModUint.fromU64
  -- `random_mod_vartime` gives numbers below the modulus
  Random a := ∃ value, value.toNat < (ModUint.modulus m).toNat ∧ ModUint.random value = a
  RandomNonZero a := ∃ values, (∀ v ∈ values, v.toNat < (ModUint.modulus m).toNat) ∧
    ModUint.randomNonZero values = some a
  add _ a b := some (a + b)
  sub _ a b := some (a - b)
  mul _ a b := some (a * b)
  negate _ a := some a.negate
  inverse _ := ModUint.inverse
  div _ := ModUint.div
  pow := RingOps.pow

namespace ModUint

variable [IsModulus m]

omit [CryptoBigint] in
theorem canonical_randomNonZero {values : List Uint} {a : ModUint m}
    (hvalues : ∀ v ∈ values, v.toNat < (modulus m).toNat) (h : randomNonZero values = some a) :
    a.Canonical := by
  induction values with
  | nil => cases h
  | cons value values ih =>
    obtain ⟨hvalue, hvalues⟩ := List.forall_mem_cons.mp hvalues
    rw [randomNonZero] at h
    split_ifs at h
    · exact ih hvalues h
    · rw [toNat_modulus] at hvalue
      exact Option.some.inj h ▸ hvalue

theorem canonical_div {a b c : ModUint m} (h : a.div b = some (.ok c)) : c.Canonical := by
  obtain ⟨r, -, h⟩ := Option.bind_eq_some_iff.mp h
  cases r with
  | error e => cases h
  | ok inverse => exact Except.ok.inj (Option.some.inj h) ▸ (mul_spec a inverse).1

end ModUint

instance [ModUint.IsModulus m] [Fact m.Prime] [LawfulFromU64 (ModUint m)] : Lawful (ModUint m) where
  ext := ModUint.ext_toNat
  zero := ModUint.canonical_zero
  one := ModUint.canonical_one
  fromU64 := LawfulFromU64.valid_fromU64 (F := ModUint m) _
  random := by
    rintro _ ⟨value, hvalue, rfl⟩
    rwa [ModUint.toNat_modulus] at hvalue
  randomNonZero := fun ⟨_, hvalues, h⟩ => ModUint.canonical_randomNonZero hvalues h
  add _ _ _ ha hb := ⟨_, rfl, (ModUint.add_spec ha hb).1, modEq_of_add (ModUint.add_spec ha hb).2⟩
  sub _ _ _ ha hb := ⟨_, rfl, (ModUint.sub_spec ha hb).1, modEq_of_sub (ModUint.sub_spec ha hb).2⟩
  mul _ a b _ _ := ⟨_, rfl, (ModUint.mul_spec a b).1, modEq_of_mul (ModUint.mul_spec a b).2⟩
  negate _ _ ha := ⟨_, rfl, (ModUint.negate_spec ha).1, modEq_of_neg (ModUint.negate_spec ha).2⟩
  inverse _ a ha := by
    by_cases hzero : a.toZMod = 0
    · exact .inl ⟨if_pos ((ModUint.Canonical.toZMod_eq_zero ha).mp hzero), modEq_zero hzero⟩
    · exact .inr ((ModUint.inverse_ok hzero).imp fun _ h =>
        ⟨h.1, h.2.1, modEq_of_inv (m := m) hzero h.2.2⟩)
  div _ _ h := ModUint.canonical_div h
  pow exp ha := (RingOps.pow_spec (R := ModUint m) ha exp).1

end

namespace FieldApi

/-- **In each of the three fields, elements are reduced and their operations compute just when every
integer given to `new` and every integer decoded is below the modulus.** -/
theorem fields_sound_iff [CryptoBigint] (checks : Bool) (codec64 : Postcard UInt64)
    (codec256 : Postcard Uint) (inputs64 : Inputs UInt64) (inputs256 : Inputs Uint) :
    (Sound checks (Obtained Mersenne61 codec64 checks inputs64) ↔ Below Mersenne61 codec64 inputs64) ∧
    (Sound checks (Obtained Secp256k1PrimeField codec256 checks inputs256) ↔
      Below Secp256k1PrimeField codec256 inputs256) ∧
    (Sound checks (Obtained Secp256k1ScalarField codec256 checks inputs256) ↔
      Below Secp256k1ScalarField codec256 inputs256) :=
  ⟨sound_iff, sound_iff, sound_iff⟩

/-- The bytes of one integer are received. -/
def hostile {Inner : Type} (codec : Postcard Inner) (i : Inner) : Inputs Inner where
  constructed _ := False
  received bytes := bytes = codec.toAllocvec i

theorem obtained_hostile (F : Type) {Inner : Type} [FieldApi F Inner] (codec : Postcard Inner)
    (checks : Bool) (i : Inner) : Obtained F codec checks (hostile codec i) (wrap i) :=
  .decode rfl (codec.fromBytes_toAllocvec i)

/-- `postcard`'s encoding of a `u64`. -/
def u64Codec : Postcard UInt64 := .ofCodec Lib.Codec.varint64

/-- `postcard`'s encoding of a `Uint<4>`: its 32 bytes, behind their number. -/
def uintCodec : Postcard Uint := .ofCodec (Lib.Codec.sized 32)

attribute [local instance] CryptoBigint.reference in
/-- Received bytes give a `Mersenne61` that overflows in a sum, and elements of the other fields that are
zero modulo the prime, without being zero, and panic when they are inverted. -/
theorem hostile_bytes :
    (¬ Sound true (Obtained Mersenne61 u64Codec true (hostile u64Codec 0xFFFFFFFFFFFFFFFF)) ∧
      Mersenne61.add true ⟨0xFFFFFFFFFFFFFFFF⟩ ⟨0xFFFFFFFFFFFFFFFF⟩ = none) ∧
    (¬ Sound true (Obtained Secp256k1PrimeField uintCodec true
        (hostile uintCodec (ModUint.modulus primeModulus))) ∧
      ModUint.inverse (m := primeModulus) ⟨ModUint.modulus primeModulus⟩ = none) ∧
    (¬ Sound true (Obtained Secp256k1ScalarField uintCodec true
        (hostile uintCodec (ModUint.modulus scalarModulus))) ∧
      ModUint.inverse (m := scalarModulus) ⟨ModUint.modulus scalarModulus⟩ = none) := by
  have hprime : ∀ m [ModUint.IsModulus m] [Fact m.Prime], m ≠ 0 →
      ModUint.inverse (m := m) ⟨ModUint.modulus m⟩ = none := by
    intro m _ _ hm
    have hval : (ModUint.modulus m).toNat = m := ModUint.toNat_modulus
    refine ModUint.inverse_none.mpr ⟨fun h => hm ?_, ?_⟩
    · rw [← hval, show ModUint.modulus m = 0 from h]
      rfl
    · rw [ModUint.toZMod, hval, ZMod.natCast_self]
  refine ⟨⟨fun h => ?_, by decide⟩, ⟨fun h => ?_, hprime _ (by decide)⟩, fun h => ?_,
    hprime _ (by decide)⟩
  · exact absurd (h.reduced _ (obtained_hostile _ _ _ _)) (by unfold Reduced; decide)
  · exact absurd (h.reduced _ (obtained_hostile _ _ _ _)) (by unfold Reduced; decide)
  · exact absurd (h.reduced _ (obtained_hostile _ _ _ _)) (by unfold Reduced; decide)

end FieldApi

/-- A field element as its 32 bytes, behind their number. -/
def fieldCodec (m : Nat) : Lib.Codec (ModUint m) :=
  (Lib.Codec.sized 32).map ModUint.value ModUint.mk fun _ => rfl

end SclRs
