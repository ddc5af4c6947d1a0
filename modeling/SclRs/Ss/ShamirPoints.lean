import SclRs.Math.Field.Moduli
import SclRs.Math.Field.Sampling
import SclRs.Math.Field.Secp256k1
import SclRs.Ss.ShamirSharing

/-!
# The points of parties

`encode_party` adds one to the id and converts. Below the modulus and the end of the type the sum stays
what it is (`soundPoints_of_lt`): the points are distinct and not zero. One id is left: `2 ^ 61 - 2` in
`Mersenne61`, whose point reduces to zero, and `2 ^ 64 - 1` in the larger fields, where the sum overflows
(`soundPoints_iff`). A party whose point is zero gets the secret (`sharesFromSecret_of_zero`).
-/

open Polynomial

namespace SclRs

open RingOps LawfulRing Lib.Interpolation

namespace ShamirSS

section
variable {F K : Type} [DecidableEq F] [FieldOps F] [FromU64 F] [Field K] [LawfulField F K]

/-- The points of the parties exist, without an overflow, and are distinct and not zero; for every
positive degree, secret and party some draws give a share other than the secret. -/
structure SoundPoints (F : Type) {K : Type} [DecidableEq F] [FieldOps F] [FromU64 F] [Field K]
    [LawfulField F K] (checks : Bool) (parties : List PartyId) : Prop where
  fits : ∀ p ∈ parties, p + 1 < 2 ^ 64
  points : ∃ points : List F, parties.mapM (encodeParty checks) = some points ∧ points.Nodup ∧
    ∀ a ∈ points, a ≠ zero
  masked : ∀ (secret : F) (degree : Nat), Valid secret → 0 < degree → degree < parties.length →
    ∀ i < parties.length, ∃ rng : Nat → F, (∀ j, Valid (rng j)) ∧ ∃ (shares : List (ShamirSS F)) (s : ShamirSS F),
      LinearShare.sharesFromSecret checks secret parties degree rng = some (.ok shares) ∧
        shares[i]? = some s ∧ s.share ≠ secret

theorem succ_lt_of_ne {p n : Nat} (h : p < n) (hne : p ≠ n - 1) : p + 1 < n := by omega

omit [DecidableEq F] [FromU64 F] in
theorem eval_dealt_linear (secret x : F) (d : Nat) :
    (dealt secret (d + 1) fun i => if i = 1 then one else zero).eval (val x) = val secret + val x := by
  have hrest : ∀ n, (ofCoefficients (List.replicate n (0 : K))).eval (val x) = 0 := by
    intro n
    induction n with
    | zero => simp [ofCoefficients]
    | succ n ih => rw [List.replicate_succ, eval_ofCoefficients_cons, ih, mul_zero, add_zero]
  have hcoefficients : ((List.range (d + 1)).map fun i =>
      val (if i + 1 = 1 then one else zero : F)) = 1 :: List.replicate d (0 : K) := by
    rw [List.range_succ_eq_map, List.map_cons, List.map_map]
    refine congrArg₂ _ val_one (List.eq_replicate_iff.mpr ⟨by simp, List.forall_mem_map.mpr fun i _ => ?_⟩)
    exact val_zero
  rw [dealt, hcoefficients, eval_ofCoefficients_cons, eval_ofCoefficients_cons, hrest]
  ring

variable [LawfulFromU64 F] {checks : Bool} {parties : List PartyId} {secret : F} {degree : Nat}
  {point : PartyId → F}

theorem exists_share_ne_secret (hpoint : ∀ p ∈ parties, encodeParty checks p = some (point p))
    (hsecret : Valid secret) (hpos : 0 < degree) (hdegree : degree < parties.length)
    (hsize : degree + 1 < 2 ^ 64) {i : Nat} (hi : i < parties.length) (hne : point parties[i] ≠ zero) :
    ∃ rng : Nat → F, (∀ j, Valid (rng j)) ∧ ∃ (shares : List (ShamirSS F)) (s : ShamirSS F),
      LinearShare.sharesFromSecret checks secret parties degree rng = some (.ok shares) ∧
        shares[i]? = some s ∧ s.share ≠ secret := by
  obtain ⟨d, rfl⟩ := Nat.exists_eq_add_of_le' hpos
  have hrng : ∀ j, Valid (if j = 1 then one else zero : F) := by
    intro j
    split_ifs
    · exact valid_one
    · exact valid_zero
  obtain ⟨shares, hdeal, hlies⟩ := linearShare_sharesFromSecret hsecret hrng hpoint
    hdegree hsize
  have hi' : i < shares.length := hlies.length_eq ▸ hi
  have hlie := hlies.get hi hi'
  refine ⟨_, hrng, shares, shares[i], hdeal, List.getElem?_eq_getElem hi', fun heq => hne ?_⟩
  have heval := hlie.eval
  rw [List.get_eq_getElem, List.get_eq_getElem, heq, eval_dealt_linear] at heval
  apply val_inj (valid_encodeParty (hpoint _ (List.getElem_mem hi))) valid_zero
  rw [val_zero]
  exact left_eq_add.mp heval

/-- **A party whose point is zero** gets the secret, whatever the draws are. -/
theorem sharesFromSecret_of_zero (hpoint : ∀ p ∈ parties, encodeParty checks p = some (point p))
    (hsecret : Valid secret) {rng : Nat → F} (hrng : ∀ j, Valid (rng j)) (hdegree : degree < parties.length)
    (hsize : degree + 1 < 2 ^ 64) {i : Nat} (hi : i < parties.length) (hzero : point parties[i] = zero) :
    ∃ shares : List (ShamirSS F), LinearShare.sharesFromSecret checks secret parties degree rng =
      some (.ok shares) ∧ shares.length = parties.length ∧ shares[i]? = some ⟨secret, degree⟩ := by
  obtain ⟨shares, hdeal, hlies⟩ := linearShare_sharesFromSecret hsecret hrng hpoint hdegree hsize
  have hi' : i < shares.length := hlies.length_eq ▸ hi
  obtain ⟨hlieDegree, hvalid, heval⟩ := hlies.get hi hi'
  refine ⟨shares, hdeal, hlies.length_eq.symm, ?_⟩
  rw [List.getElem?_eq_getElem hi']
  rw [List.get_eq_getElem, List.get_eq_getElem, hzero, val_zero, eval_dealt_zero] at heval
  exact congrArg some (congrArg₂ ShamirSS.mk (val_inj hvalid hsecret heval) hlieDegree)

end

section
variable {F : Type} {m : Nat} [Fact m.Prime] [DecidableEq F] [FieldOps F] [FromU64 F]
  [LawfulField F (ZMod m)] [LawfulFromU64 F] {checks : Bool} {parties : List PartyId}

/-- **Parties below the modulus and the end of the type** have sound points. -/
theorem soundPoints_of_lt (hval : ∀ n < 2 ^ 64, n < m → val (FromU64.fromU64 n : F) = n)
    (hnodup : parties.Nodup) (hparties : ∀ p ∈ parties, p + 1 < 2 ^ 64 ∧ p + 1 < m) :
    SoundPoints F checks parties := by
  have hpoint : ∀ p ∈ parties, encodeParty checks p = some (FromU64.fromU64 (p + 1) : F) := fun p hp => by
    rw [encodeParty, usizeAdd_of_lt (hparties p hp).1]
    rfl
  have hvalue : ∀ p ∈ parties, val (FromU64.fromU64 (p + 1) : F) = (p + 1 : Nat) :=
    fun p hp => hval _ (hparties p hp).1 (hparties p hp).2
  have hne : ∀ p ∈ parties, (FromU64.fromU64 (p + 1) : F) ≠ zero := by
    intro p hp heq
    have hcast : ((p + 1 : Nat) : ZMod m) = 0 := by rw [← hvalue p hp, heq, val_zero]
    have hle := Nat.le_of_dvd p.succ_pos ((ZMod.natCast_eq_zero_iff _ _).mp hcast)
    exact absurd (hparties p hp).2 (not_lt.mpr hle)
  refine ⟨fun p hp => (hparties p hp).1, ⟨_, mapM_encodeParty hpoint, hnodup.map_on fun p hp q hq heq => ?_,
    List.forall_mem_map.mpr hne⟩, fun secret degree hsecret hpos hdegree i hi => ?_⟩
  · have hcast : ((p + 1 : Nat) : ZMod m) = (q + 1 : Nat) := by rw [← hvalue p hp, ← hvalue q hq, heq]
    have hmod := (ZMod.natCast_eq_natCast_iff' _ _ _).mp hcast
    rw [Nat.mod_eq_of_lt (hparties p hp).2, Nat.mod_eq_of_lt (hparties q hq).2] at hmod
    exact Nat.succ.inj hmod
  · have hsubset : parties ⊆ List.range (2 ^ 64 - 1) := fun p hp =>
      List.mem_range.mpr (Nat.lt_sub_of_add_lt (hparties p hp).1)
    have hlength := (List.subperm_of_subset hnodup hsubset).length_le
    rw [List.length_range] at hlength
    exact exists_share_ne_secret hpoint hsecret hpos hdegree (by omega) hi (hne _ (List.getElem_mem hi))

end

section
variable [CryptoBigint] {checks : Bool} {parties : List PartyId}

theorem soundPoints_modUint_iff {m : Nat} [ModUint.IsModulus m] [Fact m.Prime]
    [LawfulFromU64 (ModUint m)] (hm : 2 ^ 64 ≤ m) (hnodup : parties.Nodup)
    (hparties : ∀ p ∈ parties, p < 2 ^ 64) :
    SoundPoints (ModUint m) checks parties ↔ 2 ^ 64 - 1 ∉ parties := by
  refine ⟨fun h htop => absurd (h.fits _ htop) (by decide), fun htop => soundPoints_of_lt
    (fun n _ hn => ModUint.toZMod_fromU64 hn) hnodup fun p hp => ?_⟩
  have hlt := succ_lt_of_ne (hparties p hp) fun heq => htop (heq ▸ hp)
  exact ⟨hlt, hlt.trans_le hm⟩

omit [CryptoBigint] in
theorem encodeParty_mersenne_top :
    encodeParty checks (mersenneModulus - 1) = some (zero : Mersenne61) := by
  have hadd : usizeAdd checks (mersenneModulus - 1) 1 = some mersenneModulus :=
    usizeAdd_of_lt (by decide)
  rw [encodeParty, hadd]
  exact congrArg some Mersenne61.fromU64_modulus

/-- **All ids but one have sound points**: the last id below the modulus of Mersenne61 has the point zero,
and the last `usize` overflows in the larger fields. -/
theorem soundPoints_iff (hnodup : parties.Nodup) :
    ((∀ p ∈ parties, p < mersenneModulus) →
      (SoundPoints Mersenne61 checks parties ↔ mersenneModulus - 1 ∉ parties)) ∧
    ((∀ p ∈ parties, p < 2 ^ 64) →
      (SoundPoints Secp256k1PrimeField checks parties ↔ 2 ^ 64 - 1 ∉ parties)) ∧
    ((∀ p ∈ parties, p < 2 ^ 64) →
      (SoundPoints Secp256k1ScalarField checks parties ↔ 2 ^ 64 - 1 ∉ parties)) := by
  refine ⟨fun hparties => ⟨fun h htop => ?_, fun htop => ?_⟩,
    soundPoints_modUint_iff (by decide) hnodup, soundPoints_modUint_iff (by decide) hnodup⟩
  · obtain ⟨points, hpoints, -, hne⟩ := h.points
    obtain ⟨a, ha, hencode⟩ := exists_of_forall₂ (forall₂_of_mapM hpoints).flip htop
    exact hne a ha (Option.some.inj (hencode.symm.trans encodeParty_mersenne_top))
  · refine soundPoints_of_lt (fun n hn _ => ?_) hnodup fun p hp => ?_
    · refine (Mersenne61.Rep.fromU64 ?_).2
      rw [UInt64.toNat_ofNat', Nat.mod_eq_of_lt hn]
    · have hlt := succ_lt_of_ne (hparties p hp) fun heq => htop (heq ▸ hp)
      exact ⟨hlt.trans (by decide), hlt⟩

end

/-- The last id below the modulus of Mersenne61 gets the secret as its share, whatever the draws are; the
last `usize` panics in the larger fields, and has the point zero where overflows are not checked. -/
theorem secret_dealt_to_top :
    [0, mersenneModulus - 1].Nodup ∧ (∀ p ∈ [0, mersenneModulus - 1], p < mersenneModulus) ∧
    encodeParty true (mersenneModulus - 1) = some (zero : Mersenne61) ∧
    (∀ rng : Nat → Mersenne61, (∀ j, (rng j).Canonical) → ∃ s : ShamirSS Mersenne61,
      LinearShare.sharesFromSecret true (⟨5⟩ : Mersenne61) [0, mersenneModulus - 1] 1 rng =
        some (.ok [s, ⟨⟨5⟩, 1⟩])) ∧
    encodeParty (F := Secp256k1ScalarField) true (2 ^ 64 - 1) = none ∧
    encodeParty (F := Secp256k1PrimeField) true (2 ^ 64 - 1) = none ∧
    encodeParty false (2 ^ 64 - 1) = some (ModUint.zero : Secp256k1ScalarField) ∧
    encodeParty false (2 ^ 64 - 1) = some (ModUint.zero : Secp256k1PrimeField) := by
  refine ⟨by decide, by decide, encodeParty_mersenne_top, fun rng hrng => ?_, by decide, by decide,
    by decide, by decide⟩
  have hpoint : ∀ p ∈ [0, mersenneModulus - 1], encodeParty true p =
      some (if p = 0 then FromU64.fromU64 1 else zero : Mersenne61) := by
    intro p hp
    rcases List.mem_pair.mp hp with rfl | rfl
    · rfl
    · exact encodeParty_mersenne_top
  obtain ⟨shares, hdeal, hlength, htop⟩ := sharesFromSecret_of_zero hpoint
    (show Mersenne61.Canonical ⟨5⟩ by decide) hrng (i := 1) (show 1 < 2 by decide) (by decide) (by decide) rfl
  obtain ⟨s, s', rfl⟩ := List.length_eq_two.mp hlength
  obtain rfl := Option.some.inj htop
  exact ⟨s, hdeal⟩

attribute [local instance] CryptoBigint.reference in
theorem soundPoints_iff_three :
    (SoundPoints Mersenne61 true [4, 0, 2] ↔ mersenneModulus - 1 ∉ [4, 0, 2]) ∧
    (SoundPoints Secp256k1PrimeField true [4, 0, 2] ↔ 2 ^ 64 - 1 ∉ [4, 0, 2]) ∧
    (SoundPoints Secp256k1ScalarField true [4, 0, 2] ↔ 2 ^ 64 - 1 ∉ [4, 0, 2]) := by
  have h := @soundPoints_iff _ true [4, 0, 2] (by decide)
  exact ⟨h.1 (by decide), h.2.1 (by decide), h.2.2 (by decide)⟩

end ShamirSS

end SclRs
