import SclRs.Ss.FeldmanPanics
import SclRs.Ss.ShamirThreshold

/-!
# The threshold on arbitrary shares

`is_valid` compares the number of commitments with `degree + 1`, which is computed in a `usize`. It panics or
accepts a share with too few commitments just where a `usize` or a scalar is at its greatest
(`isValid_guarded_iff`). With it `threshold_enforced_iff` says where both checks on received shares hold.
-/

namespace SclRs

open RingOps

/-! ### Verification -/

namespace FeldmanSS

open ModUint Secp256k1

/-- The answer is no panic, and accepts no share with a count of commitments that is not its degree plus
one. -/
def Guarded {C S : Type} (share : FeldmanSS C S) (answer : Option Bool) : Prop :=
  answer ≠ none ∧ (answer = some true → share.commitments.length = share.shamirShare.degree + 1)

section
variable [CryptoBigint] {checks : Bool} {share : FeldmanSS Secp256k1 Secp256k1ScalarField}
  {owner : Secp256k1ScalarField}

/-- No commitments at all, as `degree + 1` wrapped around to zero wants it. -/
theorem isValid_nil_usizeMax {share : ShamirSS Secp256k1ScalarField} (hdegree : share.degree = usizeMax) :
    isValid false ⟨share, ([] : List Secp256k1)⟩ owner ≠ some false ↔
      share.share = scalarMax ∨ share.share.toZMod = 0 := by
  have hlen : usizeAdd false share.degree 1 = some 0 := by rw [hdegree, usizeAdd_usizeMax]; rfl
  have hanswer : isValid false ⟨share, ([] : List Secp256k1)⟩ owner =
      (gen.scalarMul share.share).map pointAtInfinity.eq := by
    rw [isValid_of_usizeAdd hlen]
    rfl
  rw [hanswer]
  by_cases hmax : share.share = scalarMax
  · rw [scalarMul_eq_none.mpr ⟨gen_isPointAtInfinity, hmax⟩]
    exact iff_of_true (by simp) (.inl hmax)
  · obtain ⟨r, hr, hrep⟩ := gen_represents.scalarMul hmax
    have heq : pointAtInfinity.eq r = true ↔ share.share.toZMod = 0 :=
      (represents_pointAtInfinity.eq_iff hrep).trans (eq_comm.trans nsmul_gen_eq_zero)
    rw [hr, Option.map_some, Ne, Option.some.injEq, Bool.not_eq_false, heq, or_iff_right hmax]

/-- **Where verification guards the count of commitments.** -/
theorem isValid_guarded_iff (hdegree : share.shamirShare.degree < 2 ^ 64)
    (hsize : share.commitments.length < 2 ^ 64) :
    Guarded share (share.isValid checks owner) ↔
      (share.shamirShare.degree = usizeMax → checks = false ∧ (share.commitments = [] →
        share.shamirShare.share ≠ scalarMax ∧ share.shamirShare.share.toZMod ≠ 0)) ∧
      (share.commitments.length = share.shamirShare.degree + 1 → allOnCurve share.commitments ≠ none ∧
        (allOnCurve share.commitments = some true → share.shamirShare.share ≠ scalarMax ∧
          ∀ c, share.commitments[1]? = some c → c.isPointAtInfinity = false → owner ≠ scalarMax)) := by
  by_cases hmax : share.shamirShare.degree = usizeMax
  · have hshort : share.commitments.length ≠ share.shamirShare.degree + 1 := by
      rw [hmax]
      unfold usizeMax
      omega
    have hguarded : Guarded share (share.isValid checks owner) ↔
        share.isValid checks owner = some false := by
      unfold Guarded
      rcases share.isValid checks owner with _ | _ | _ <;> simp [hshort]
    rw [hguarded, and_iff_left fun h => absurd h hshort, forall_prop_of_true hmax]
    cases checks with
    | true =>
      have hpanics : share.isValid true owner = none := by
        rw [isValid, hmax]
        rfl
      simp [hpanics]
    | false =>
      rw [and_iff_right rfl]
      by_cases hnil : share.commitments = []
      · obtain ⟨shamirShare, commitments⟩ := share
        obtain rfl : commitments = [] := hnil
        rw [forall_prop_of_true rfl, ← not_or, ← isValid_nil_usizeMax hmax, not_not]
      · have hlen : usizeAdd false share.shamirShare.degree 1 = some 0 := by rw [hmax]; rfl
        rw [isValid_of_usizeAdd hlen, if_pos (by simpa using hnil)]
        exact iff_of_true rfl fun h => absurd h hnil
  · have hlen := @usizeAdd_of_lt checks _ _ (lt_of_ne_usizeMax hdegree hmax)
    rw [and_iff_right fun h => absurd h hmax]
    by_cases hcount : share.commitments.length = share.shamirShare.degree + 1
    · rw [forall_prop_of_true hcount, ← not_iff_not, ← isValid_eq_none_of_length (hcount ▸ hlen)]
      simp [Guarded, hcount]
    · rw [isValid_of_usizeAdd hlen, if_pos hcount]
      exact iff_of_true (by simp [Guarded]) fun h => absurd h hcount

end

end FeldmanSS

/-! ### Both checks -/

open ShamirSS in
/-- **Where the threshold is enforced.** Reconstruction does it on lists of one length with a degree below the
greatest one, at indexes that interpolate; verification does it unless the degree is the greatest one, a
commitment panics in `is_on_curve`, or the one scalar that is not recoded is reached. -/
theorem threshold_enforced_iff (checks : Bool) :
    (∀ (shares : List (ShamirSS Mersenne61)) (indexes : List Mersenne61), Sized (shares.map degree) →
      ((∀ checks, Enforces shares indexes (checkedSecretFromShares checks shares indexes)) ↔
        Shape (shares.map degree) indexes ∧ (Reaches (shares.map degree) indexes →
          UpTo mersenneModulus (indexes.map fun a => a.value.toNat))) ∧
      (Enforces shares indexes (checkedSecretFromShares checks shares indexes) ↔
        Shape (shares.map degree) indexes ∧
          (Reaches (shares.map degree) indexes → Interpolable checks shares indexes))) ∧
    (∀ (degrees : List Nat) (indexes : List Secp256k1PrimeField), Sized degrees →
      ((∀ [CryptoBigint] (checks : Bool) (shares : List (ShamirSS Secp256k1PrimeField)),
          shares.map degree = degrees →
          Enforces shares indexes (checkedSecretFromShares checks shares indexes)) ↔
        Shape degrees indexes ∧
          (Reaches degrees indexes → UpTo primeModulus (indexes.map fun a => a.value.toNat))) ∧
      ∀ [CryptoBigint] (checks : Bool) (shares : List (ShamirSS Secp256k1PrimeField)),
        shares.map degree = degrees →
        Enforces shares indexes (checkedSecretFromShares checks shares indexes) → Shape degrees indexes) ∧
    (∀ (degrees : List Nat) (indexes : List Secp256k1ScalarField), Sized degrees →
      ((∀ [CryptoBigint] (checks : Bool) (shares : List (ShamirSS Secp256k1ScalarField)),
          shares.map degree = degrees →
          Enforces shares indexes (checkedSecretFromShares checks shares indexes)) ↔
        Shape degrees indexes ∧
          (Reaches degrees indexes → UpTo scalarModulus (indexes.map fun a => a.value.toNat))) ∧
      ∀ [CryptoBigint] (checks : Bool) (shares : List (ShamirSS Secp256k1ScalarField)),
        shares.map degree = degrees →
        Enforces shares indexes (checkedSecretFromShares checks shares indexes) → Shape degrees indexes) ∧
    ∀ [CryptoBigint] (share : FeldmanSS Secp256k1 Secp256k1ScalarField) (owner : Secp256k1ScalarField),
      share.shamirShare.degree < 2 ^ 64 → share.commitments.length < 2 ^ 64 →
      (FeldmanSS.Guarded share (share.isValid checks owner) ↔
        (share.shamirShare.degree = usizeMax → checks = false ∧ (share.commitments = [] →
          share.shamirShare.share ≠ ModUint.scalarMax ∧ share.shamirShare.share.toZMod ≠ 0)) ∧
        (share.commitments.length = share.shamirShare.degree + 1 →
          FeldmanSS.allOnCurve share.commitments ≠ none ∧
          (FeldmanSS.allOnCurve share.commitments = some true →
            share.shamirShare.share ≠ ModUint.scalarMax ∧
            ∀ c, share.commitments[1]? = some c → c.isPointAtInfinity = false →
              owner ≠ ModUint.scalarMax))) :=
  ⟨fun _ _ hsize => ⟨forall_enforces_mersenne61_iff hsize, enforces_mersenne61_iff hsize⟩,
    fun _ _ hsize => enforces_modUint_iff (show 2 ^ 256 < 2 * primeModulus by decide) hsize,
    fun _ _ hsize => enforces_modUint_iff (show 2 ^ 256 < 2 * scalarModulus by decide) hsize,
    fun _ _ hdegree hsize => FeldmanSS.isValid_guarded_iff hdegree hsize⟩

/-- A share of zero, of the greatest degree, that commits to nothing. -/
def uncommitted : FeldmanSS Secp256k1 Secp256k1ScalarField := ⟨⟨ModUint.zero, usizeMax⟩, []⟩

/-- One share of the greatest degree is enough to reconstruct, or panics; two numbers of an error are
swapped; two indexes that are both one panic; and a share without commitments is accepted, or panics. -/
theorem threshold_bypassed :
    letI := CryptoBigint.reference
    (∀ checks, ShamirSS.checkedSecretFromShares checks [⟨⟨5⟩, usizeMax⟩] [(⟨1⟩ : Mersenne61)] =
        if checks then none else some (.ok ⟨5⟩)) ∧
      (∀ checks, ¬ ShamirSS.Enforces [⟨⟨5⟩, usizeMax⟩] [⟨1⟩]
        (ShamirSS.checkedSecretFromShares checks [⟨⟨5⟩, usizeMax⟩] [(⟨1⟩ : Mersenne61)])) ∧
      (∀ checks, ¬ ShamirSS.Enforces [⟨⟨5⟩, 0⟩] []
        (ShamirSS.checkedSecretFromShares checks [⟨⟨5⟩, 0⟩] ([] : List Mersenne61))) ∧
      (∀ checks, ShamirSS.checkedSecretFromShares checks [⟨⟨5⟩, 1⟩, ⟨⟨5⟩, 1⟩]
        [(⟨1⟩ : Mersenne61), ⟨0x2000000000000000⟩] = none) ∧
      (∀ checks, ¬ ShamirSS.Enforces [⟨⟨5⟩, 1⟩, ⟨⟨5⟩, 1⟩] [⟨1⟩, ⟨0x2000000000000000⟩]
        (ShamirSS.checkedSecretFromShares checks [⟨⟨5⟩, 1⟩, ⟨⟨5⟩, 1⟩]
          [(⟨1⟩ : Mersenne61), ⟨0x2000000000000000⟩])) ∧
      ∀ checks, ¬ FeldmanSS.Guarded uncommitted (uncommitted.isValid checks ModUint.one) := by
  let := CryptoBigint.reference
  have hpanics : ∀ checks, ShamirSS.checkedSecretFromShares checks [⟨⟨5⟩, 1⟩, ⟨⟨5⟩, 1⟩]
      [(⟨1⟩ : Mersenne61), ⟨0x2000000000000000⟩] = none := by decide +kernel
  have hcollide : ¬ ([(⟨1⟩ : Mersenne61), ⟨0x2000000000000000⟩].map FieldApi.residue).Nodup := by
    have hsame : (1 : ℕ) ≡ 0x2000000000000000 [MOD mersenneModulus] := by decide
    have heq := (ZMod.natCast_eq_natCast_iff _ _ _).mpr hsame
    exact fun hnodup => (List.nodup_cons.mp hnodup).1 (List.mem_singleton.mpr heq)
  refine ⟨by decide +kernel, fun checks h => ?_, fun checks h => ?_, hpanics, fun checks h => ?_, fun checks => ?_⟩
  · exact absurd (h.shape ⟨by decide, by decide⟩) (by decide)
  · exact absurd (h.shape ⟨by decide, by decide⟩) (by decide)
  · have herror := h.collide 1 (by decide) rfl (by decide) (by decide) hcollide
    rw [hpanics] at herror
    cases herror
  · rw [FeldmanSS.isValid_guarded_iff (by decide) (by decide)]
    rintro ⟨h, -⟩
    exact ((h rfl).2 rfl).2 ModUint.toZMod_zero

theorem threshold_enforced_iff_line :
    (∀ checks, ShamirSS.Enforces [⟨⟨3⟩, 1⟩, ⟨⟨5⟩, 1⟩] [⟨1⟩, ⟨2⟩]
        (ShamirSS.checkedSecretFromShares checks [⟨⟨3⟩, 1⟩, ⟨⟨5⟩, 1⟩] [(⟨1⟩ : Mersenne61), ⟨2⟩])) ↔
      ShamirSS.Shape [1, 1] [(⟨1⟩ : Mersenne61), ⟨2⟩] ∧
        (ShamirSS.Reaches [1, 1] [(⟨1⟩ : Mersenne61), ⟨2⟩] → ShamirSS.UpTo mersenneModulus [1, 2]) :=
  ((threshold_enforced_iff true).1 [⟨⟨3⟩, 1⟩, ⟨⟨5⟩, 1⟩] [⟨1⟩, ⟨2⟩] ⟨by decide, by decide⟩).1

end SclRs
