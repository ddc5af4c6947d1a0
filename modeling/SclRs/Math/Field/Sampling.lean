import SclRs.Lib.Rejection
import SclRs.Math.Field.Mersenne61

/-!
# Sampling in `Mersenne61`

`random` and `random_non_zero` reject the words above the modulus and reduce the others. The modulus
itself is not rejected, and reduces to zero: of the words it is the second one for zero, and the one for
zero in `random_non_zero`. Without it both samplers are rejection samplers with one word for each answer
(`sampling_iff`).
-/

namespace SclRs.Mersenne61

open Lib.Rejection

/-- What `random` accepts. -/
def accepts (value : UInt64) : Bool := !decide (modulus < value)

/-- What `random_non_zero` accepts. -/
def acceptsNonZero (value : UInt64) : Bool := !decide (value = 0 ∨ modulus < value)

theorem random_eq (draws : List UInt64) : random draws = (draws.find? accepts).map fromU64 := by
  induction draws with
  | nil => rfl
  | cons value draws ih =>
    rw [random, List.find?_cons, accepts]
    split_ifs with h
    · simpa [h] using ih
    · simp [h]

theorem randomNonZero_eq (draws : List UInt64) :
    randomNonZero draws = (draws.find? acceptsNonZero).map fromU64 := by
  induction draws with
  | nil => rfl
  | cons value draws ih =>
    rw [randomNonZero, List.find?_cons, acceptsNonZero]
    split_ifs with h
    · simpa [h] using ih
    · simp [h]

theorem fromU64_of_lt {value : UInt64} (h : value < modulus) : fromU64 value = ⟨value⟩ := by
  rw [fromU64, if_neg (UInt64.not_le.mpr h)]

theorem fromU64_modulus : fromU64 modulus = zero := by
  rw [fromU64, if_pos (UInt64.le_refl _), UInt64.sub_self]
  exact fromU64_of_lt (by decide)

theorem fromU64_eq_zero {value : UInt64} (hzero : value ≠ 0) (hle : ¬ modulus < value) :
    fromU64 value = zero ↔ value = modulus := by
  constructor
  · intro h
    by_contra hne
    have hlt : value < modulus := UInt64.lt_of_le_of_ne (UInt64.not_lt.mp hle) hne
    rw [fromU64_of_lt hlt] at h
    exact hzero (Mersenne61.mk.inj h)
  · rintro rfl
    exact fromU64_modulus

/-! ### Without the modulus -/

section
variable {words : Set UInt64}

theorem lt_modulus_of_mem (hmodulus : modulus ∉ words) {value : UInt64} (hmem : value ∈ words)
    (hle : ¬ modulus < value) : value < modulus :=
  UInt64.lt_of_le_of_ne (UInt64.not_lt.mp hle) fun h => hmodulus (h ▸ hmem)

theorem injOn_fromU64 (hmodulus : modulus ∉ words) {test : UInt64 → Bool}
    (htest : ∀ v, test v = true → ¬ modulus < v) :
    Set.InjOn fromU64 {v | v ∈ words ∧ test v = true} := by
  intro u hu v hv huv
  rw [fromU64_of_lt (lt_modulus_of_mem hmodulus hu.1 (htest u hu.2)),
    fromU64_of_lt (lt_modulus_of_mem hmodulus hv.1 (htest v hv.2))] at huv
  exact Mersenne61.mk.inj huv

theorem image_accepts (hwords : ∀ v, v < modulus → v ∈ words) :
    fromU64 '' {v | v ∈ words ∧ accepts v = true} = {a | a.Canonical} := by
  ext a
  constructor
  · rintro ⟨v, -, rfl⟩
    exact (Rep.fromU64 rfl).1
  · intro ha
    have hlt : a.value < modulus := UInt64.lt_iff_toNat_lt.mpr ha
    refine ⟨a.value, ⟨hwords _ hlt, ?_⟩, fromU64_of_lt hlt⟩
    simpa [accepts] using UInt64.le_of_lt hlt

theorem image_acceptsNonZero (hwords : ∀ v, v < modulus → v ∈ words) (hmodulus : modulus ∉ words) :
    fromU64 '' {v | v ∈ words ∧ acceptsNonZero v = true} = {a | a.Canonical ∧ a ≠ zero} := by
  ext a
  constructor
  · rintro ⟨v, ⟨hmem, hv⟩, rfl⟩
    obtain ⟨hzero, hle⟩ : v ≠ 0 ∧ ¬ modulus < v := by simpa [acceptsNonZero] using hv
    refine ⟨(Rep.fromU64 rfl).1, fun h => hmodulus ?_⟩
    rwa [← (fromU64_eq_zero hzero hle).mp h]
  · rintro ⟨ha, hzero⟩
    have hlt : a.value < modulus := UInt64.lt_iff_toNat_lt.mpr ha
    have hne : a.value ≠ 0 := fun h => hzero (congrArg Mersenne61.mk h)
    refine ⟨a.value, ⟨hwords _ hlt, ?_⟩, fromU64_of_lt hlt⟩
    simpa [acceptsNonZero, hne] using UInt64.le_of_lt hlt

theorem unbiased_random (hwords : ∀ v, v < modulus → v ∈ words) (hmodulus : modulus ∉ words) :
    Unbiased words random {a | a.Canonical} := by
  rw [← image_accepts hwords]
  refine unbiased_of_find? (injOn_fromU64 hmodulus fun v hv => ?_) fun draws _ => random_eq draws
  simpa [accepts] using hv

theorem unbiased_randomNonZero (hwords : ∀ v, v < modulus → v ∈ words) (hmodulus : modulus ∉ words) :
    Unbiased words randomNonZero {a | a.Canonical ∧ a ≠ zero} := by
  rw [← image_acceptsNonZero hwords hmodulus]
  refine unbiased_of_find? (injOn_fromU64 hmodulus fun v hv => ?_) fun draws _ => randomNonZero_eq draws
  obtain ⟨-, hle⟩ : v ≠ 0 ∧ ¬ modulus < v := by simpa [acceptsNonZero] using hv
  exact hle

/-! ### With the modulus -/

theorem random_singleton {value : UInt64} {a : Mersenne61} :
    random [value] = some a ↔ ¬ modulus < value ∧ fromU64 value = a := by
  rw [random]
  split_ifs with h
  · simp [random, h]
  · simp [h]

theorem random_singleton_zero {value : UInt64} :
    random [value] = some zero ↔ value = 0 ∨ value = modulus := by
  rw [random_singleton]
  constructor
  · rintro ⟨hle, h⟩
    by_cases hzero : value = 0
    · exact .inl hzero
    · exact .inr ((fromU64_eq_zero hzero hle).mp h)
  · rintro (rfl | rfl)
    · exact ⟨by decide, fromU64_of_lt (by decide)⟩
    · exact ⟨by decide, fromU64_modulus⟩

theorem random_singleton_of_ne {value : UInt64} {a : Mersenne61} (ha : a.Canonical) (hne : a ≠ zero) :
    random [value] = some a ↔ value = a.value := by
  have hlt : a.value < modulus := UInt64.lt_iff_toNat_lt.mpr ha
  rw [random_singleton]
  constructor
  · rintro ⟨hle, h⟩
    have hvalue : value ≠ modulus := by
      rintro rfl
      exact hne (h.symm.trans fromU64_modulus)
    rw [fromU64_of_lt (UInt64.lt_of_le_of_ne (UInt64.not_lt.mp hle) hvalue)] at h
    exact congrArg Mersenne61.value h
  · rintro rfl
    exact ⟨UInt64.not_lt.mpr (UInt64.le_of_lt hlt), fromU64_of_lt hlt⟩

theorem not_unbiased_random (hwords : ∀ v, v < modulus → v ∈ words) (hmodulus : modulus ∈ words) :
    ¬ Unbiased words random {a | a.Canonical} := by
  intro h
  have hcount := h.uniform 1 zero (by decide) one (by decide)
  have hzero : {v | v ∈ words ∧ random [v] = some zero} = {0, modulus} := by
    ext v
    rw [Set.mem_ofPred_eq, random_singleton_zero, and_iff_right_of_imp]
    · rfl
    · rintro (rfl | rfl)
      · exact hwords 0 (by decide)
      · exact hmodulus
  have hone : {v | v ∈ words ∧ random [v] = some one} = {1} := by
    ext v
    rw [Set.mem_ofPred_eq, random_singleton_of_ne (by decide) (by decide), and_iff_right_of_imp]
    · rfl
    · rintro rfl
      exact hwords 1 (by decide)
  rw [ncard_streams_one, ncard_streams_one, hzero, hone, Set.ncard_pair (by decide),
    Set.ncard_singleton] at hcount
  omega

theorem randomNonZero_modulus : randomNonZero [modulus] = some zero := by
  rw [randomNonZero, if_neg (by decide), fromU64_modulus]

theorem not_unbiased_randomNonZero (hmodulus : modulus ∈ words) :
    ¬ Unbiased words randomNonZero {a | a.Canonical ∧ a ≠ zero} := by
  intro h
  exact (h.range [modulus] zero (by simpa using hmodulus) randomNonZero_modulus).2 rfl

/-- **Where sampling is unbiased and in range.** The answer of `random_non_zero` is zero just when the
first word that it accepts is the modulus, and both samplers are unbiased just when the source never
gives the modulus. -/
theorem sampling_iff (hwords : ∀ v, v < modulus → v ∈ words) :
    (∀ draws a, randomNonZero draws = some a →
      (a ≠ zero ↔ draws.find? acceptsNonZero ≠ some modulus)) ∧
    (Unbiased words random {a | a.Canonical} ↔ modulus ∉ words) ∧
    (Unbiased words randomNonZero {a | a.Canonical ∧ a ≠ zero} ↔ modulus ∉ words) := by
  refine ⟨fun draws a h => not_congr ?_, ⟨fun h hmodulus => not_unbiased_random hwords hmodulus h,
    unbiased_random hwords⟩, ⟨fun h hmodulus => not_unbiased_randomNonZero hmodulus h,
    unbiased_randomNonZero hwords⟩⟩
  rw [randomNonZero_eq, Option.map_eq_some_iff] at h
  obtain ⟨value, hvalue, rfl⟩ := h
  obtain ⟨hzero, hle⟩ : value ≠ 0 ∧ ¬ modulus < value := by
    simpa [acceptsNonZero] using List.find?_some hvalue
  rw [fromU64_eq_zero hzero hle, hvalue, Option.some.injEq]

end

/-- The modulus is accepted by both, as zero. -/
theorem sampling_modulus :
    randomNonZero [modulus] = some zero ∧ random [0] = some zero ∧ random [modulus] = some zero ∧
      ¬ Unbiased Set.univ random {a | a.Canonical} ∧
      ¬ Unbiased Set.univ randomNonZero {a | a.Canonical ∧ a ≠ zero} :=
  ⟨randomNonZero_modulus, random_singleton_zero.mpr (.inl rfl), random_singleton_zero.mpr (.inr rfl),
    not_unbiased_random (fun _ _ => trivial) trivial, not_unbiased_randomNonZero trivial⟩

theorem sampling_iff_compl :
    (∀ draws a, randomNonZero draws = some a →
      (a ≠ zero ↔ draws.find? acceptsNonZero ≠ some modulus)) ∧
    (Unbiased {modulus}ᶜ random {a | a.Canonical} ↔ modulus ∉ ({modulus}ᶜ : Set UInt64)) ∧
    (Unbiased {modulus}ᶜ randomNonZero {a | a.Canonical ∧ a ≠ zero} ↔
      modulus ∉ ({modulus}ᶜ : Set UInt64)) :=
  sampling_iff fun _ h => UInt64.ne_of_lt h

end SclRs.Mersenne61
