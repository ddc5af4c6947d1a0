import SclRs.Protocol.PassiveShamir.Masking
import SclRs.Ss.Draws

/-!
# Random is random to any `t` parties

The values that `PassiveRandShr` shares are the power sums of the dealers' secrets, as many as there are
dealers outside a coalition of `t` parties. By changing these secrets the values can be moved to any others
(`exists_powerSums`). A dealer whose secret becomes larger by `δ` adds to its polynomial a multiple of the
one that is zero at the points of the coalition (`redeal`), which then sees the same
(`PassiveRandShr.outputs_uniform`).
-/

open Polynomial

namespace SclRs

open RingOps LawfulRing NetState Lib.Interpolation

namespace PassiveRandShr

/-! ### The draws of a dealer -/

section
variable {F K : Type} [RingOps F] [Field K] [LawfulRing F K] {t : Nat}

/-- What is added to the draws: the first is the secret, the second is not used, and the others are the
coefficients above the constant one. -/
noncomputable def moved (δ : K) (v : K[X]) (t : Nat) (i : Fin (t + 2)) : K :=
  if i.val = 0 then δ else if i.val = 1 then 0 else δ * v.coeff (i - 1)

/-- The draws for a secret larger by `δ`. -/
noncomputable def redeal (δ : K) (v : K[X]) (t : Nat) : Equiv.Perm (Fin (t + 2) → {x : F // Valid x}) :=
  ((Equiv.refl _).arrowCongr validEquiv).trans
    ((Equiv.addRight (moved δ v t)).trans ((Equiv.refl _).arrowCongr validEquiv).symm)

theorem val_redeal (δ : K) (v : K[X]) (c : Fin (t + 2) → {x : F // Valid x}) (i : Fin (t + 2)) :
    val (redeal δ v t c i).1 = val (c i).1 + moved δ v t i :=
  (validEquiv (R := F)).apply_symm_apply (val (c i).1 + moved δ v t i)

theorem redeal_zero (v : K[X]) (c : Fin (t + 2) → {x : F // Valid x}) : redeal 0 v t c = c := by
  funext i
  refine Subtype.ext (val_inj (redeal 0 v t c i).2 (c i).2 ?_)
  rw [val_redeal, moved]
  split_ifs <;> simp

noncomputable def redealAll (parties : List PartyId) (δ : PartyId → K) (v : K[X]) (t : Nat) :
    Equiv.Perm (Draws F parties (t + 2)) :=
  Equiv.piCongrRight fun p => redeal (δ p.1) v t

variable {parties : List PartyId}

theorem val_draws_redealAll (δ : PartyId → K) (v : K[X]) (c : Draws F parties (t + 2)) {p : PartyId}
    (hp : p ∈ parties) {i : Nat} (hi : i < t + 2) :
    val (draws (redealAll parties δ v t c) p i) = val (draws c p i) + moved (δ p) v t ⟨i, hi⟩ := by
  rw [draws_lt _ hp hi, draws_lt _ hp hi]
  exact val_redeal (δ p) v (c ⟨p, hp⟩) ⟨i, hi⟩

/-- The polynomial that a party deals. -/
noncomputable def dealtWith (t : Nat) (rng : Nat → F) : K[X] :=
  ShamirSS.dealt (rng 0) t fun i => rng (i + 1)

theorem dealtWith_redealAll {v : K[X]} (hv : v.natDegree ≤ t) (hzero : v.eval 0 = 1) (δ : PartyId → K)
    (c : Draws F parties (t + 2)) {p : PartyId} (hp : p ∈ parties) :
    dealtWith t (draws (redealAll parties δ v t c) p) = dealtWith t (draws c p) + C (δ p) * v := by
  ext i
  rw [coeff_add, coeff_C_mul, dealtWith, dealtWith, ShamirSS.dealt, ShamirSS.dealt, coeff_ofCoefficients,
    coeff_ofCoefficients]
  obtain _ | i := i
  · rw [List.getD_cons_zero, List.getD_cons_zero, coeff_zero_eq_eval_zero, hzero, mul_one,
      val_draws_redealAll δ v c hp (Nat.succ_pos _)]
    rfl
  · rw [List.getD_cons_succ, List.getD_cons_succ]
    by_cases hi : i < t
    · have hlt : i + 1 + 1 < t + 2 := by omega
      rw [List.getD_eq_getElem _ _ (by simpa using hi), List.getD_eq_getElem _ _ (by simpa using hi)]
      simp only [List.getElem_map, List.getElem_range]
      rw [val_draws_redealAll δ v c hp hlt, moved, if_neg (Nat.succ_ne_zero _), if_neg (by simp)]
      rfl
    · have hcoeff : v.coeff (i + 1) = 0 := coeff_eq_zero_of_natDegree_lt (hv.trans_lt (by omega))
      rw [List.getD_eq_default _ _ (by simpa using hi), List.getD_eq_default _ _ (by simpa using hi), hcoeff]
      ring

end

/-! ### The secrets of the others -/

section
variable {F K : Type} [RingOps F] [Field K] [LawfulRing F K] {parties coalition : List PartyId}
  {point : PartyId → F} {t : Nat}

/-- **The power sums can be moved to any values** by the dealers outside the coalition. -/
theorem exists_powerSums (hnodup : parties.Nodup)
    (hinj : ∀ p ∈ parties, ∀ q ∈ parties, val (point p) = val (point q) → p = q) (hlen : coalition.length ≤ t)
    (Δ : Nat → K) :
    ∃ δ : PartyId → K, (∀ p ∈ coalition, δ p = 0) ∧
      ∀ k < parties.length - t, (parties.map fun p => val (point p) ^ k * δ p).sum = Δ k := by
  obtain ⟨honest, hhonest⟩ : ∃ honest, honest = parties.toFinset \ coalition.toFinset := ⟨_, rfl⟩
  have hmem : ∀ {p}, p ∈ honest ↔ p ∈ parties ∧ p ∉ coalition := by simp [hhonest]
  have hcard : parties.length - t ≤ Fintype.card honest := by
    have hle := Finset.le_card_sdiff coalition.toFinset parties.toFinset
    have hsmall := coalition.toFinset_card_le
    rw [List.toFinset_card_of_nodup hnodup, ← hhonest] at hle
    rw [Fintype.card_coe]
    omega
  obtain ⟨x, hx, -⟩ := Lib.Vandermonde.existsUnique_powerSums
    (α := fun p : honest => val (point p)) (fun p q hpq => Subtype.ext
      (hinj _ (hmem.mp p.2).1 _ (hmem.mp q.2).1 hpq)) Δ
  obtain ⟨δ, hδ⟩ : ∃ δ : PartyId → K, ∀ p, δ p = if hp : p ∈ honest then x ⟨p, hp⟩ else 0 := ⟨_, fun _ => rfl⟩
  have hout : ∀ p, p ∉ honest → δ p = 0 := fun p hp => (hδ p).trans (dif_neg hp)
  refine ⟨δ, fun p hp => hout p fun hp' => (hmem.mp hp').2 hp, fun k hk => ?_⟩
  have hsub : honest ⊆ parties.toFinset := fun p hp => List.mem_toFinset.mpr (hmem.mp hp).1
  rw [← hx k (hk.trans_le hcard), ← List.sum_toFinset _ hnodup,
    ← Finset.sum_subset hsub fun p _ hp => by rw [hout p hp, mul_zero], ← Finset.sum_coe_sort honest]
  refine Finset.sum_congr rfl fun p _ => ?_
  rw [hδ, dif_pos p.2, mul_comm]

end

/-! ### The protocol -/

section
variable {F K : Type} [DecidableEq F] [FieldOps F] [FromU64 F] [Field K] [LawfulField F K] [LawfulFromU64 F]
  {codec : Postcard (ShamirSS F)} {checks : Bool} {parties coalition : List PartyId}
  {lists : PartyId → List PartyId} {point : PartyId → F} {t : Nat}

variable (codec checks lists) in
theorem exists_carries (hnodup : parties.Nodup) (hlists : ∀ p ∈ parties, (lists p).Perm parties)
    (hpoint : ∀ p ∈ parties, ShamirSS.encodeParty checks p = some (point p)) (ht : t < parties.length)
    (hsize : parties.length * (parties.length - t) < 2 ^ 64) :
    ∃ m : Matrix F, ∀ rng : PartyId → Nat → F, (∀ p ∈ parties, ∀ i, Valid (rng p i)) →
      ∃ (dealt : PartyId → PartyId → ShamirSS F) (z : Nat → PartyId → ShamirSS F),
        (∀ p ∈ parties, ∀ q ∈ parties, (dealt p q).LiesOn t (dealtWith t (rng p)) (point q)) ∧
        (∀ q ∈ parties, m.mulShares checks ((parties.insertionSort (· ≤ ·)).map fun p => dealt p q) =
          some (.ok ((List.range (parties.length - t)).map fun k => z k q))) ∧
        (∀ k < parties.length - t, ShamirSS.SharedBy checks parties t (z k)
          (parties.map fun p => val (point p) ^ k * val (rng p 0)).sum) ∧
        (net codec checks t lists rng).Carries parties
          (fun p => .ok ((List.range (parties.length - t)).map fun k => z k p))
          (dealScript codec parties [dealt]).packets := by
  have hsorted := List.perm_insertionSort (· ≤ ·) parties
  have hmem : ∀ {p}, p ∈ parties.insertionSort (· ≤ ·) ↔ p ∈ parties := hsorted.mem_iff
  have hpoint' : ∀ p ∈ parties.insertionSort (· ≤ ·), ShamirSS.encodeParty checks p = some (point p) :=
    fun p hp => hpoint p (hmem.mp hp)
  obtain ⟨m, hm, his⟩ := exists_extractionMatrix hpoint ht hsize
  refine ⟨m, fun rng hrng => ?_⟩
  obtain ⟨dealt, hdeal, hlies⟩ := exists_dealings (hsorted.nodup_iff.mpr hnodup) hpoint'
    (hsorted.length_eq ▸ ht) ((Nat.succ_le_of_lt ht).trans_lt (length_lt_of_mul_lt ht hsize))
    (fun p hp => hrng p (hmem.mp hp) 0) fun p hp i => hrng p (hmem.mp hp) (i + 1)
  obtain ⟨z, hz, hshared⟩ := mulShares_sharedBy his (List.ne_nil_of_length_pos (by rw [hsorted.length_eq]; omega))
    hpoint' (fun p _ => ShamirSS.natDegree_dealt_le _ t _) hlies
  refine ⟨dealt, z, fun p hp q hq => hlies p (hmem.mpr hp) q (hmem.mpr hq), fun q hq => hz q (hmem.mpr hq),
    fun k hk => ?_, ?_⟩
  · obtain ⟨f, hf, hzero, hlie⟩ := hshared k hk
    refine ⟨f, hf, ?_, fun p hp => hlie p (hmem.mpr hp)⟩
    rw [hzero, ← (hsorted.map _).sum_eq]
    simp only [ShamirSS.eval_dealt_zero]
  · exact carries_of_dealings codec [dealt] fun p hp =>
      party_leads hnodup hp (hlists p hp) ht hm (hdeal p (hmem.mpr hp)) (hz p (hmem.mpr hp))

/-- **Random is uniform to a coalition of at most `t` parties**: every schedule ends with sharings of some
values, and a permutation of the draws that the coalition does not notice moves them by any amounts. -/
theorem outputs_uniform (hpoint : ∀ p ∈ parties, ShamirSS.encodeParty checks p = some (point p))
    (hdistinct : (parties.map point).Nodup) (hlists : ∀ p ∈ parties, (lists p).Perm parties)
    (ht : t < parties.length) (hsize : parties.length * (parties.length - t) < 2 ^ 64)
    (hcoalition : ∀ p ∈ coalition, p ∈ parties) (hlen : coalition.length ≤ t)
    (hzero : ∀ p ∈ coalition, val (point p) ≠ 0) :
    ∃ (z : Draws F parties (t + 2) → Nat → PartyId → ShamirSS F) (secret : Draws F parties (t + 2) → Nat → K),
      (∀ c, (net codec checks t lists (draws c)).Completes parties
          (fun p => .ok ((List.range (parties.length - t)).map fun k => z c k p)) ∧
        ∀ k < parties.length - t, ShamirSS.SharedBy checks parties t (z c k) (secret c k)) ∧
      ∀ Δ : Nat → K, ∃ φ, LooksAlike parties coalition (fun p c => draws c p)
          (fun c => net codec checks t lists (draws c)) (fun c => net codec checks t lists (draws c)) φ ∧
        ∀ c, ∀ k < parties.length - t, secret (φ c) k = secret c k + Δ k := by
  have hnodup : parties.Nodup := hdistinct.of_map point
  obtain ⟨m, hm⟩ := exists_carries codec checks lists hnodup hlists hpoint ht hsize
  choose dealt z hlies hmul hshared hcarries using
    fun c : Draws F parties (t + 2) => hm (draws c) fun p _ => valid_draws c p
  refine ⟨z, fun c k => (parties.map fun p => val (point p) ^ k * val (draws c p 0)).sum,
    fun c => ⟨(hcarries c).toCompletes, hshared c⟩, fun Δ => ?_⟩
  have hvalid : ∀ p ∈ parties, Valid (point p) := fun p hp => ShamirSS.valid_encodeParty (hpoint p hp)
  obtain ⟨δ, hkept, hsums⟩ := exists_powerSums hnodup (fun p hp q hq hpq =>
    List.inj_on_of_nodup_map hdistinct hp hq (val_inj (hvalid p hp) (hvalid q hq) hpq)) hlen Δ
  have hdegree : (blind point coalition : K[X]).natDegree ≤ t := natDegree_blind_le.trans hlen
  let φ : Equiv.Perm (Draws F parties (t + 2)) := redealAll parties δ (blind point coalition) t
  have hdealt : ∀ c, ∀ p ∈ parties, ∀ q ∈ coalition, dealt c p q = dealt (φ c) p q := by
    intro c p hp q hq
    refine (hlies c p hp q (hcoalition q hq)).eq_of_eval (hlies (φ c) p hp q (hcoalition q hq)) ?_
    rw [dealtWith_redealAll hdegree eval_blind_zero δ c hp, eval_add, eval_mul, eval_blind hq (hzero q hq),
      mul_zero, add_zero]
  have hdealt' : ∀ c, ∀ p ∈ coalition, ∀ q ∈ parties, dealt c p q = dealt (φ c) p q := by
    intro c p hp q hq
    refine (hlies c p (hcoalition p hp) q hq).eq_of_eval (hlies (φ c) p (hcoalition p hp) q hq) ?_
    rw [dealtWith_redealAll hdegree eval_blind_zero δ c (hcoalition p hp), hkept p hp, C_0, zero_mul, add_zero]
  refine ⟨φ, looksAlike_of_carries hcoalition (fun c p hp => draws_congr fun hp' => ?_) fun c =>
    ⟨_, _, _, _, hcarries c, hcarries (φ c), fun q hq => ⟨?_, fun p => ⟨?_, ?_⟩⟩⟩, fun c k hk => ?_⟩
  · change redeal (δ p) _ t (c ⟨p, hp'⟩) = _
    rw [hkept p hp, redeal_zero]
  · have hreceived : (parties.insertionSort (· ≤ ·)).map (fun p => dealt c p q) =
        (parties.insertionSort (· ≤ ·)).map fun p => dealt (φ c) p q := List.map_congr_left fun p hp =>
      hdealt c p ((List.perm_insertionSort _ parties).mem_iff.mp hp) q hq
    have houtput := hmul c q (hcoalition q hq)
    rw [hreceived, hmul (φ c) q (hcoalition q hq)] at houtput
    exact congrArg Except.ok (Except.ok.inj (Option.some.inj houtput)).symm
  · by_cases hp : p ∈ parties
    · simp only [dealScript_packets hp (hcoalition q hq), List.map_cons, List.map_nil, hdealt c p hp q hq]
    · simp only [dealScript, hp, false_and, if_false]
  · by_cases hp : p ∈ parties
    · simp only [dealScript_packets (hcoalition q hq) hp, List.map_cons, List.map_nil, hdealt' c q hq p hp]
    · simp only [dealScript, hp, and_false, if_false]
  · rw [← hsums k hk, ← List.sum_map_add]
    refine congrArg List.sum (List.map_congr_left fun p hp => ?_)
    rw [val_draws_redealAll δ _ c hp (Nat.succ_pos _), ← mul_add]
    rfl

end

theorem outputs_uniform_three :
    ∃ (z : Draws Mersenne61 [0, 1, 2] 3 → Nat → PartyId → ShamirSS Mersenne61)
      (secret : Draws Mersenne61 [0, 1, 2] 3 → Nat → ZMod mersenneModulus),
      (∀ c, (net (.ofCodec (ShamirSS.codec Mersenne61.codec)) true 1 (fun _ => [2, 0, 1]) (draws c)).Completes
          [0, 1, 2] (fun p => .ok ((List.range 2).map fun k => z c k p)) ∧
        ∀ k < 2, ShamirSS.SharedBy true [0, 1, 2] 1 (z c k) (secret c k)) ∧
      ∀ Δ : Nat → ZMod mersenneModulus, ∃ φ, LooksAlike [0, 1, 2] [0] (fun p c => draws c p)
          (fun c => net (.ofCodec (ShamirSS.codec Mersenne61.codec)) true 1 (fun _ => [2, 0, 1]) (draws c))
          (fun c => net (.ofCodec (ShamirSS.codec Mersenne61.codec)) true 1 (fun _ => [2, 0, 1]) (draws c)) φ ∧
        ∀ c, ∀ k < 2, secret (φ c) k = secret c k + Δ k :=
  outputs_uniform Mersenne61.encodeParty_pointOf (by decide) (by decide) (by decide) (by decide) (by decide)
    (by decide) Mersenne61.val_pointOf_ne_zero

end PassiveRandShr

end SclRs
