import SclRs.Math.Ec.ScalarMul
import SclRs.Math.Ec.TryFrom
import SclRs.Ss.Feldman

/-!
# Where `is_valid` panics

On commitments that `try_from` accepts, `is_valid` panics in `degree + 1`, in the `to_affine` of a
commitment with `p` for its `z`, and in the `to_naf` of the one scalar that it does not recode: the
share, or the owner, whose first power is the owner itself (`isValid_eq_none`).
-/

namespace SclRs

open ModUint Secp256k1

section
variable [CryptoBigint]

/-- Only the first power can be the scalar that is not recoded. -/
theorem pow_eq_scalarMax {owner : Secp256k1ScalarField} {exp : Nat} :
    RingOps.pow owner exp = scalarMax ↔ exp = 1 ∧ owner = scalarMax := by
  obtain rfl | rfl | hexp : exp = 0 ∨ exp = 1 ∨ 2 ≤ exp := by omega
  · rw [RingOps.pow_zero]
    simp [show (RingOps.one : Secp256k1ScalarField) ≠ scalarMax from ne_scalarMax canonical_one]
  · simp [RingOps.pow_one]
  · obtain ⟨a, b, hmul⟩ := RingOps.pow_eq_mul owner hexp
    rw [hmul]
    simp [show RingOps.mul a b ≠ scalarMax from ne_scalarMax (mul_spec a b).1,
      show exp ≠ 1 by omega]

namespace FeldmanSS

variable {commitments : List Secp256k1}

/-- Every commitment passed `try_from`. -/
def Accepted (commitments : List Secp256k1) : Prop := ∀ c ∈ commitments, ∃ v, tryFrom v = .ok c

theorem Accepted.of_mem (h : Accepted commitments) {c : Secp256k1} (hc : c ∈ commitments) :
    c.z ≠ zero ∧ c.Equation := by
  obtain ⟨v, hv⟩ := h c hc
  exact (tryFrom_eq_ok.mp hv).2

theorem Accepted.allOnCurve (h : Accepted commitments) :
    (allOnCurve commitments = none ↔ ∃ c ∈ commitments, c.z = unreducedZero) ∧
      allOnCurve commitments ≠ some false := by
  induction commitments with
  | nil => simp [FeldmanSS.allOnCurve]
  | cons c commitments ih =>
    obtain ⟨hne, hequation⟩ := h.of_mem List.mem_cons_self
    have ih := ih fun c hc => h c (List.mem_cons_of_mem _ hc)
    have hcurve : EllipticCurve.isOnCurve c = c.isOnCurve := rfl
    rw [FeldmanSS.allOnCurve, hcurve]
    by_cases hbad : c.z = unreducedZero
    · simp [isOnCurve_eq_none.mpr hbad, hbad]
    · have hz : c.z.toZMod ≠ 0 := fun h0 => (toZMod_eq_zero_iff.mp h0).elim hne hbad
      simpa [isOnCurve_eq_some_true hequation hz, hbad] using ih

theorem foldlM_accumulate_eq_none {owner : Secp256k1ScalarField} (l : List (Secp256k1 × Nat))
    (innerProd : Secp256k1) :
    l.foldlM (accumulate owner) innerProd = none ↔
      ∃ q ∈ l, q.1.scalarMul (RingOps.pow owner q.2) = none := by
  induction l generalizing innerProd with
  | nil => simp
  | cons q l ih =>
    obtain ⟨c, exp⟩ := q
    have hmul : EllipticCurve.scalarMul c (RingOps.pow owner exp) =
        c.scalarMul (RingOps.pow owner exp) := rfl
    rw [List.foldlM_cons, accumulate, hmul]
    cases hcase : c.scalarMul (RingOps.pow owner exp) with
    | none => simp [hcase]
    | some r => simp [hcase, ih]

section
variable {checks : Bool} {share : FeldmanSS Secp256k1 Secp256k1ScalarField} {owner : Secp256k1ScalarField}

theorem isValid_of_usizeAdd {len : Nat} (hlen : usizeAdd checks share.shamirShare.degree 1 = some len) :
    share.isValid checks owner =
      if share.commitments.length ≠ len then some false
      else (allOnCurve share.commitments).bind fun onCurve =>
        if !onCurve then some false
        else (share.commitments.zipIdx.foldlM (accumulate owner) (EllipticCurve.zero : Secp256k1)).bind
          fun innerProd =>
            (EllipticCurve.scalarMul (EllipticCurve.gen : Secp256k1) share.shamirShare.share).map
              (EllipticCurve.eq innerProd) := by
  rw [isValid, hlen]
  simp only [Option.bind_eq_bind, Option.bind_some]
  split_ifs
  · rfl
  · cases allOnCurve share.commitments with
    | none => rfl
    | some onCurve =>
      cases onCurve with
      | false => rfl
      | true =>
        cases share.commitments.zipIdx.foldlM (accumulate owner) EllipticCurve.zero with
        | none => rfl
        | some innerProd =>
          cases EllipticCurve.scalarMul (EllipticCurve.gen : Secp256k1) share.shamirShare.share <;> rfl

/-- The loop of `is_valid` panics at the second commitment or not at all. -/
theorem foldlM_accumulate_eq_none_iff {commitments : List Secp256k1} (innerProd : Secp256k1) :
    commitments.zipIdx.foldlM (accumulate owner) innerProd = none ↔
      ∃ c, commitments[1]? = some c ∧ c.isPointAtInfinity = false ∧ owner = scalarMax := by
  rw [foldlM_accumulate_eq_none]
  constructor
  · rintro ⟨⟨c, exp⟩, hmem, hnone⟩
    obtain ⟨hfinite, hmax⟩ := scalarMul_eq_none.mp hnone
    obtain ⟨rfl, howner⟩ := pow_eq_scalarMax.mp hmax
    exact ⟨c, List.mem_zipIdx_iff_getElem?.mp hmem, hfinite, howner⟩
  · rintro ⟨c, hc, hfinite, howner⟩
    refine ⟨(c, 1), List.mem_zipIdx_iff_getElem?.mpr hc, ?_⟩
    exact scalarMul_eq_none.mpr ⟨hfinite, pow_eq_scalarMax.mpr ⟨rfl, howner⟩⟩

theorem isValid_eq_none_of_length
    (hlen : usizeAdd checks share.shamirShare.degree 1 = some share.commitments.length) :
    share.isValid checks owner = none ↔ ¬ (allOnCurve share.commitments ≠ none ∧
      (allOnCurve share.commitments = some true → share.shamirShare.share ≠ scalarMax ∧
        ∀ c, share.commitments[1]? = some c → c.isPointAtInfinity = false → owner ≠ scalarMax)) := by
  rw [isValid_of_usizeAdd hlen, if_neg (not_not_intro rfl)]
  have hgen : EllipticCurve.scalarMul (EllipticCurve.gen : Secp256k1) share.shamirShare.share = none ↔
      share.shamirShare.share = scalarMax :=
    scalarMul_eq_none.trans (and_iff_right gen_isPointAtInfinity)
  have hloop := @foldlM_accumulate_eq_none_iff _ owner share.commitments EllipticCurve.zero
  cases allOnCurve share.commitments with
  | none => simp
  | some onCurve =>
    cases onCurve with
    | false => simp
    | true =>
      cases hfold : share.commitments.zipIdx.foldlM (accumulate owner) EllipticCurve.zero with
      | none =>
        obtain ⟨c, hc, hfinite, howner⟩ := hloop.mp hfold
        simp only [Option.bind_some, Bool.not_true, Bool.false_eq_true, if_false, Option.bind_none, true_iff]
        intro h
        exact (h.2 trivial).2 c hc hfinite howner
      | some innerProd =>
        have hnone : ¬ ∃ c, share.commitments[1]? = some c ∧ c.isPointAtInfinity = false ∧
            owner = scalarMax := fun h => by rw [hloop.mpr h] at hfold; cases hfold
        push Not at hnone
        simp only [Option.bind_some, Bool.not_true, Bool.false_eq_true, if_false, Option.map_eq_none_iff,
          hgen]
        constructor
        · exact fun hmax h => (h.2 trivial).1 hmax
        · intro h
          by_contra hmax
          exact h ⟨by simp, fun _ => ⟨hmax, hnone⟩⟩

/-- **Where `is_valid` panics.** -/
theorem isValid_eq_none (h : Accepted share.commitments) :
    share.isValid checks owner = none ↔
      usizeAdd checks share.shamirShare.degree 1 = none ∨
        usizeAdd checks share.shamirShare.degree 1 = some share.commitments.length ∧
          ((∃ c ∈ share.commitments, c.z = unreducedZero) ∨
            (1 < share.commitments.length ∧ owner = scalarMax) ∨
            share.shamirShare.share = scalarMax) := by
  cases hlen : usizeAdd checks share.shamirShare.degree 1 with
  | none => simp [isValid, hlen]
  | some len =>
    by_cases hne : share.commitments.length = len
    · subst hne
      obtain ⟨hnone, hfalse⟩ := h.allOnCurve
      have hsecond : (∀ c, share.commitments[1]? = some c → c.isPointAtInfinity = false →
          owner ≠ scalarMax) ↔ ¬ (1 < share.commitments.length ∧ owner = scalarMax) := by
        constructor
        · rintro hall ⟨hlt, howner⟩
          have hfinite := (h.of_mem (List.getElem_mem hlt)).1
          exact hall _ (List.getElem?_eq_getElem hlt) (decide_eq_false hfinite) howner
        · intro hnot c hc _ howner
          exact hnot ⟨(List.getElem?_eq_some_iff.mp hc).1, howner⟩
      rw [isValid_eq_none_of_length hlen, hsecond, ← hnone]
      cases hcurve : FeldmanSS.allOnCurve share.commitments with
      | none => simp
      | some onCurve =>
        cases onCurve with
        | true =>
          simp only [ne_eq, reduceCtorEq, not_false_eq_true, forall_const, true_and, false_or]
          rw [not_and_or, not_not, not_not, or_comm]
        | false => exact absurd hcurve hfalse
    · rw [isValid_of_usizeAdd hlen, if_pos hne]
      simp [Ne.symm hne]

end

end FeldmanSS

/-- **Checked construction is sound but for `p` as a `z`.** Of an accepted point and a share with accepted
commitments, the `z` is invertible and nothing panics, unless the `z` is the unreduced zero,
`degree + 1` overflows, or the checks of the share reach a commitment of that kind or the scalar that
is not recoded. -/
theorem checked_construction_iff (checks : Bool)
    {value : Secp256k1PrimeField × Secp256k1PrimeField × Secp256k1PrimeField} {p : Secp256k1}
    (hvalue : tryFrom value = .ok p) {share : FeldmanSS Secp256k1 Secp256k1ScalarField}
    (hshare : FeldmanSS.Accepted share.commitments) (owner : Secp256k1ScalarField) :
    (p.z.toZMod ≠ 0 ∧ p.Equation ∧ p.isOnCurve ≠ none ∧ p.toAffine ≠ none ∧
        share.isValid checks owner ≠ none) ↔
      p.z ≠ unreducedZero ∧ usizeAdd checks share.shamirShare.degree 1 ≠ none ∧
        (usizeAdd checks share.shamirShare.degree 1 = some share.commitments.length →
          (∀ c ∈ share.commitments, c.z ≠ unreducedZero) ∧
          (1 < share.commitments.length → owner ≠ scalarMax) ∧
          share.shamirShare.share ≠ scalarMax) := by
  obtain ⟨-, hne, hequation⟩ := tryFrom_eq_ok.mp hvalue
  have hz : p.z.toZMod ≠ 0 ↔ p.z ≠ unreducedZero := by
    rw [Ne, toZMod_eq_zero_iff]
    simp [hne]
  have hpanics : share.isValid checks owner ≠ none ↔
      usizeAdd checks share.shamirShare.degree 1 ≠ none ∧
        (usizeAdd checks share.shamirShare.degree 1 = some share.commitments.length →
          (∀ c ∈ share.commitments, c.z ≠ unreducedZero) ∧
          (1 < share.commitments.length → owner ≠ scalarMax) ∧
          share.shamirShare.share ≠ scalarMax) := by
    rw [Ne, FeldmanSS.isValid_eq_none hshare]
    push Not
    rfl
  have hcurve : p.isOnCurve ≠ none ↔ p.z ≠ unreducedZero := not_congr isOnCurve_eq_none
  have haffine : p.toAffine ≠ none ↔ p.z.toZMod ≠ 0 := not_congr toAffine_eq_none
  rw [hpanics, hcurve, haffine, hz]
  constructor
  · rintro ⟨hp, -, -, -, hrest⟩
    exact ⟨hp, hrest⟩
  · rintro ⟨hp, hrest⟩
    exact ⟨hp, hequation, hp, hp, hrest⟩

end

/-- The share that carries the point `(0 : 1 : p)`. -/
def unreducedShare : FeldmanSS Secp256k1 Secp256k1ScalarField :=
  ⟨⟨zero, 0⟩, [⟨zero, one, unreducedZero⟩]⟩

/-- `try_from` accepts `(0, 1, p)`, of which the `z` is zero, and everything after it panics. -/
theorem checked_construction_unreducedZero :
    letI := CryptoBigint.reference
    tryFrom (zero, one, unreducedZero) = .ok ⟨zero, one, unreducedZero⟩ ∧
      unreducedZero.toZMod = 0 ∧ (⟨zero, one, unreducedZero⟩ : Secp256k1).isOnCurve = none ∧
      (⟨zero, one, unreducedZero⟩ : Secp256k1).toAffine = none ∧
      unreducedShare.isValid true one = none := by
  let := CryptoBigint.reference
  have hz := toZMod_eq_zero_iff.mpr (.inr (rfl : unreducedZero = unreducedZero))
  refine ⟨tryFrom_unreducedZero toZMod_zero, hz, isOnCurve_eq_none.mpr rfl, toAffine_eq_none.mpr hz, ?_⟩
  refine (FeldmanSS.isValid_eq_none ?_).mpr (.inr ⟨rfl, .inl ⟨_, List.mem_cons_self, rfl⟩⟩)
  exact fun c hc => ⟨_, List.mem_singleton.mp hc ▸ tryFrom_unreducedZero toZMod_zero⟩

theorem checked_construction_iff_gen :
    letI := CryptoBigint.reference
    (gen.z.toZMod ≠ 0 ∧ gen.Equation ∧ gen.isOnCurve ≠ none ∧ gen.toAffine ≠ none ∧
        FeldmanSS.isValid true ⟨⟨one, 0⟩, [gen]⟩ one ≠ none) ↔
      gen.z ≠ unreducedZero ∧ usizeAdd true 0 1 ≠ none ∧
        (usizeAdd true 0 1 = some 1 →
          (∀ c ∈ [gen], c.z ≠ unreducedZero) ∧ (1 < 1 → (one : Secp256k1ScalarField) ≠ scalarMax) ∧
          (one : Secp256k1ScalarField) ≠ scalarMax) := by
  let := CryptoBigint.reference
  have hgen : tryFrom (gen.x, gen.y, gen.z) = .ok gen :=
    tryFrom_eq_ok.mpr ⟨rfl, by decide, gen_valid.2.1⟩
  exact checked_construction_iff true hgen
    (fun c hc => ⟨_, List.mem_singleton.mp hc ▸ hgen⟩) one

end SclRs
