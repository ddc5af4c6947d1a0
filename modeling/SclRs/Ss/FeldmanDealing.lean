import SclRs.Ss.FeldmanPanics
import SclRs.Ss.ShamirSharing

/-!
# Verified reconstruction

A dealing commits to the coefficients of its polynomial, and `is_valid` against these commitments is
membership in the polynomial (`isValid_iff`), because the generator has order `n`. But
`secret_from_shares` checks each share against the commitments that it came with. What it returns is
the dealt secret exactly when every share also passes against those of the dealing
(`verified_reconstruction_iff`).
-/

open Polynomial

namespace SclRs

open ModUint Secp256k1 Lib.Interpolation LawfulRing

/-! ### Dealing -/

namespace FeldmanSS

section
variable {C S : Type} [EllipticCurve C S]

theorem sharesFromSecret_eq_some [RingOps S] {checks : Bool} {secret : S} {degree : Nat}
    {indexes : List S} {rng : Nat → S} {shares : List (FeldmanSS C S)}
    (h : sharesFromSecret checks secret degree indexes rng = some shares) :
    ∃ shamirShares polynomial commitments,
      ShamirSS.sharesFromSecret checks secret degree indexes rng = some (shamirShares, polynomial) ∧
      List.Forall₂ (fun c P => EllipticCurve.scalarMul (EllipticCurve.gen : C) c = some P)
        polynomial.coefficients commitments ∧
      shares = shamirShares.map fun ss => ⟨ss, commitments⟩ := by
  simp only [sharesFromSecret, Option.bind_eq_bind, Option.bind_eq_some_iff, Option.pure_def,
    Option.some.injEq] at h
  obtain ⟨⟨shamirShares, polynomial⟩, hshamir, commitments, hcommitments, rfl⟩ := h
  exact ⟨_, _, _, hshamir, forall₂_of_mapM hcommitments, rfl⟩

variable [FieldOps S]

theorem validateShares_eq_ok {checks : Bool} {l : List (FeldmanSS C S × S)}
    (h : validateShares checks l = some (.ok ())) :
    ∀ q ∈ l, q.1.isValid checks q.2 = some true := by
  induction l with
  | nil => simp
  | cons q l ih =>
    obtain ⟨share, idx⟩ := q
    simp only [validateShares, Option.bind_eq_bind, Option.bind_eq_some_iff] at h
    obtain ⟨valid, hvalid, h⟩ := h
    cases valid with
    | false => simp at h
    | true =>
      rw [List.forall_mem_cons]
      exact ⟨hvalid, ih h⟩

theorem validateShares_of_isValid {checks : Bool} {l : List (FeldmanSS C S × S)}
    (h : ∀ q ∈ l, q.1.isValid checks q.2 = some true) : validateShares checks l = some (.ok ()) := by
  induction l with
  | nil => rfl
  | cons q l ih =>
    obtain ⟨hq, hl⟩ := List.forall_mem_cons.mp h
    simp [validateShares, hq, ih hl]

variable [DecidableEq S]

theorem secretFromShares_of_isValid {checks : Bool} {shares : List (FeldmanSS C S)}
    {indexes : List S} (hlen : shares.length = indexes.length)
    (hvalid : ∀ q ∈ shares.zip indexes, q.1.isValid checks q.2 = some true) :
    secretFromShares checks shares indexes =
      ShamirSS.secretFromShares checks (shares.map shamirShare) indexes := by
  rw [secretFromShares, if_neg (by simpa using hlen), validateShares_of_isValid hvalid]
  rfl

theorem secretFromShares_eq_ok {checks : Bool} {shares : List (FeldmanSS C S)} {indexes : List S}
    {secret : S} (h : secretFromShares checks shares indexes = some (.ok secret)) :
    shares.length = indexes.length ∧ (∀ q ∈ shares.zip indexes, q.1.isValid checks q.2 = some true) ∧
      ShamirSS.secretFromShares checks (shares.map shamirShare) indexes = some (.ok secret) := by
  rw [secretFromShares] at h
  split_ifs at h with hlen
  · cases h
  simp only [Option.bind_eq_bind, Option.bind_eq_some_iff] at h
  obtain ⟨result, hresult, h⟩ := h
  cases result with
  | error e => simp at h
  | ok u => exact ⟨not_not.mp hlen, validateShares_eq_ok hresult, h⟩

end

end FeldmanSS

theorem ShamirSS.secretFromShares_eq_ok {F : Type} [DecidableEq F] [FieldOps F] {checks : Bool}
    {shares : List (ShamirSS F)} {indexes : List F} {secret : F}
    (h : secretFromShares checks shares indexes = some (.ok secret)) :
    ∃ degree needed, shares ≠ [] ∧ (∀ s ∈ shares, s.degree = degree) ∧
      usizeAdd checks degree 1 = some needed ∧ needed ≤ shares.length := by
  unfold secretFromShares secretFromSharesBy at h
  split at h
  · cases h
  rename_i first rest
  split_ifs at h with hlen hall
  · cases h
  · cases h
  simp only [Option.bind_eq_bind, Option.bind_eq_some_iff] at h
  obtain ⟨needed, hneeded, h⟩ := h
  split_ifs at h with henough
  · simp at h
  refine ⟨first.degree, needed, by simp, fun s hs => ?_, hneeded, ?_⟩
  · rw [Bool.not_eq_true', Bool.not_eq_false] at hall
    exact beq_iff_eq.mp (List.all_eq_true.mp hall s hs)
  · simp only [Bool.or_eq_true, decide_eq_true_eq, not_or] at henough
    omega

theorem ShamirSS.secretFromShares_congr {F : Type} [DecidableEq F] [FieldOps F] {checks : Bool}
    {shares shares' : List (ShamirSS F)} {indexes : List F}
    (hdegree : shares.map degree = shares'.map degree)
    (heval : interpolatePolynomialAt (shares.map share) indexes RingOps.zero =
      interpolatePolynomialAt (shares'.map share) indexes RingOps.zero) :
    secretFromShares checks shares indexes = secretFromShares checks shares' indexes := by
  have hlen : shares.length = shares'.length := by simpa using congrArg List.length hdegree
  have hall : ∀ d, shares.all (fun s => s.degree == d) = shares'.all (fun s => s.degree == d) := by
    intro d
    have hmap : ∀ l : List (ShamirSS F), l.all (fun s => s.degree == d) = (l.map degree).all (· == d) :=
      fun l => by rw [List.all_map]; rfl
    rw [hmap, hmap, hdegree]
  cases shares with
  | nil =>
    obtain rfl := List.length_eq_zero_iff.mp hlen.symm
    rfl
  | cons first rest =>
    obtain ⟨first', rest', rfl⟩ := List.exists_cons_of_length_eq_add_one hlen.symm
    have hfirst : first.degree = first'.degree := (List.cons_eq_cons.mp hdegree).1
    rw [secretFromShares, secretFromShares, secretFromSharesBy, secretFromSharesBy, hlen, hfirst, hall, heval]

/-! ### Verification on secp256k1 -/

section
variable [CryptoBigint]

theorem ShamirSS.secretFromShares_reduce (checks : Bool)
    (shares : List (ShamirSS Secp256k1ScalarField)) (indexes : List Secp256k1ScalarField) :
    secretFromShares checks (shares.map fun s => ⟨s.share.reduce, s.degree⟩) indexes =
      secretFromShares checks shares indexes := by
  refine secretFromShares_congr (by simp) ?_
  have hmul : ∀ e b : Secp256k1ScalarField, RingOps.mul e.reduce b = RingOps.mul e b := reduce_mul
  have hmap : (shares.map fun s => (⟨s.share.reduce, s.degree⟩ : ShamirSS _)).map share =
      (shares.map share).map reduce := by simp
  rw [hmap]
  simp only [interpolatePolynomialAt, List.length_map, List.isEmpty_iff, List.zip_map_left,
    List.foldl_map, Prod.map_fst, Prod.map_snd, id, hmul]

namespace FeldmanSS

/-- `commitments` are the multiples of the generator by the coefficients. -/
def CommitsTo (coefficients : List Secp256k1ScalarField) (commitments : List Secp256k1) : Prop :=
  List.Forall₂ (fun c P => P.Represents (c.value.toNat • genPoint)) coefficients commitments

theorem commitsTo_of_scalarMul {coefficients : List Secp256k1ScalarField}
    {commitments : List Secp256k1}
    (h : List.Forall₂ (fun c P => EllipticCurve.scalarMul (EllipticCurve.gen : Secp256k1) c = some P)
      coefficients commitments) : CommitsTo coefficients commitments := by
  refine h.imp fun c P hP => ?_
  have hP : gen.scalarMul c = some P := hP
  have hc : c ≠ scalarMax := by
    rintro rfl
    rw [scalarMul_eq_none.mpr ⟨gen_isPointAtInfinity, rfl⟩] at hP
    cases hP
  obtain ⟨r, hr, hrep⟩ := gen_represents.scalarMul hc
  exact Option.some.inj (hr.symm.trans hP) ▸ hrep

variable {coefficients : List Secp256k1ScalarField} {commitments : List Secp256k1}
  {owner : Secp256k1ScalarField}

theorem CommitsTo.allOnCurve (h : CommitsTo coefficients commitments) :
    allOnCurve commitments = some true := by
  induction h with
  | nil => rfl
  | @cons _ P _ _ hP _ ih =>
    have hcurve : EllipticCurve.isOnCurve P = some true := hP.isOnCurve
    rw [FeldmanSS.allOnCurve, hcurve]
    exact ih

/-- Products are reduced whatever the operands are, and so are the powers after the first. -/
theorem toZMod_pow (a : Secp256k1ScalarField) (exp : Nat) :
    (RingOps.pow a exp).toZMod = a.toZMod ^ exp :=
  (RingOps.pow_of_mul (P := fun _ => True) ⟨trivial, toZMod_one⟩
    (fun _ _ => ⟨trivial, (mul_spec _ _).2⟩) trivial exp).2

theorem CommitsTo.accumulate (h : CommitsTo coefficients commitments) (howner : owner ≠ scalarMax)
    (exp : Nat) {innerProd : Secp256k1} {k : Nat} (hinner : innerProd.Represents (k • genPoint)) :
    ∃ r, ∃ l : Nat, (commitments.zipIdx exp).foldlM (accumulate owner) innerProd = some r ∧
      r.Represents (l • genPoint) ∧
      (l : ZMod scalarModulus) =
        k + owner.toZMod ^ exp * (ofCoefficients (coefficients.map toZMod)).eval owner.toZMod := by
  induction h generalizing exp innerProd k with
  | nil => exact ⟨innerProd, k, rfl, hinner, by simp [ofCoefficients]⟩
  | @cons c P coefficients commitments hP _ ih =>
    have hpow := toZMod_pow owner exp
    obtain ⟨m, hm, hmrep⟩ := hP.scalarMul (k := RingOps.pow owner exp) fun h =>
      howner (pow_eq_scalarMax.mp h).2
    have hadd := hinner.add hmrep
    rw [← mul_nsmul, ← add_nsmul] at hadd
    obtain ⟨r, l, hr, hrep, hl⟩ := ih (exp + 1) hadd
    have hm' : EllipticCurve.scalarMul P (RingOps.pow owner exp) = some m := hm
    refine ⟨r, l, ?_, hrep, ?_⟩
    · rw [List.zipIdx_cons, List.foldlM_cons, FeldmanSS.accumulate, hm']
      exact hr
    · have hpow' : ((RingOps.pow owner exp).value.toNat : ZMod scalarModulus) = owner.toZMod ^ exp :=
        hpow
      rw [hl, List.map_cons, eval_ofCoefficients_cons, Nat.cast_add, Nat.cast_mul, hpow', pow_succ]
      change _ + c.toZMod * _ + _ = _
      ring

theorem exists_isValid {checks : Bool} (h : CommitsTo coefficients commitments)
    (howner : owner ≠ scalarMax) {share : ShamirSS Secp256k1ScalarField}
    (hlen : usizeAdd checks share.degree 1 = some commitments.length) (hshare : share.share ≠ scalarMax) :
    ∃ valid, isValid checks ⟨share, commitments⟩ owner = some valid ∧ (valid = true ↔
      share.share.toZMod = (ofCoefficients (coefficients.map toZMod)).eval owner.toZMod) := by
  obtain ⟨r, l, hr, hrep, hl⟩ := CommitsTo.accumulate h howner 0 (k := 0)
    (by rw [zero_nsmul]; exact represents_pointAtInfinity)
  have hr' : commitments.zipIdx.foldlM (FeldmanSS.accumulate owner) EllipticCurve.zero = some r := hr
  rw [Nat.cast_zero, pow_zero, one_mul, zero_add] at hl
  obtain ⟨g, hg, hgrep⟩ := gen_represents.scalarMul hshare
  have hg' : EllipticCurve.scalarMul (EllipticCurve.gen : Secp256k1) share.share = some g := hg
  refine ⟨r.eq g, ?_, ?_⟩
  · simp only [isValid, hlen, h.allOnCurve, hr', hg', Option.bind_eq_bind, Option.bind_some, ne_eq,
      not_true_eq_false, if_false, Bool.not_true, Bool.false_eq_true]
    rfl
  · rw [hrep.eq_iff hgrep, nsmul_gen_eq_iff, hl]
    exact eq_comm

theorem of_isValid {checks : Bool} {share : FeldmanSS Secp256k1 Secp256k1ScalarField}
    (h : share.isValid checks owner = some true) :
    usizeAdd checks share.shamirShare.degree 1 = some share.commitments.length ∧
      share.shamirShare.share ≠ scalarMax := by
  simp only [isValid, Option.bind_eq_bind, Option.bind_eq_some_iff] at h
  obtain ⟨len, hlen, h⟩ := h
  split_ifs at h with hne
  · simp at h
  rw [not_not] at hne
  refine ⟨hne ▸ hlen, fun hmax => ?_⟩
  have hnone : EllipticCurve.scalarMul (EllipticCurve.gen : Secp256k1) scalarMax = none :=
    scalarMul_eq_none.mpr ⟨gen_isPointAtInfinity, rfl⟩
  obtain ⟨onCurve, -, h⟩ := Option.bind_eq_some_iff.mp h
  split_ifs at h
  · simp at h
  · obtain ⟨innerProd, -, h⟩ := Option.bind_eq_some_iff.mp h
    rw [hmax, hnone] at h
    cases h

/-- **Verification is membership in the polynomial** that is committed to. -/
theorem isValid_iff (checks : Bool) (h : CommitsTo coefficients commitments)
    (howner : owner ≠ scalarMax) (share : ShamirSS Secp256k1ScalarField) :
    isValid checks ⟨share, commitments⟩ owner = some true ↔
      usizeAdd checks share.degree 1 = some commitments.length ∧ share.share ≠ scalarMax ∧
        share.share.toZMod = (ofCoefficients (coefficients.map toZMod)).eval owner.toZMod := by
  constructor
  · intro hvalid
    obtain ⟨hlen, hshare⟩ := of_isValid hvalid
    obtain ⟨valid, hanswer, hiff⟩ := exists_isValid h howner hlen hshare
    exact ⟨hlen, hshare, hiff.mp (Option.some.inj (hanswer.symm.trans hvalid))⟩
  · rintro ⟨hlen, hshare, heval⟩
    obtain ⟨valid, hanswer, hiff⟩ := exists_isValid h howner hlen hshare
    rw [hanswer, hiff.mpr heval]

theorem exists_dealing {checks : Bool} {secret : Secp256k1ScalarField} {degree : Nat}
    {indexes : List Secp256k1ScalarField} {rng : Nat → Secp256k1ScalarField}
    {shamirShares : List (ShamirSS Secp256k1ScalarField)}
    {polynomial : Polynomial Secp256k1ScalarField}
    (h : ShamirSS.sharesFromSecret checks secret degree indexes rng = some (shamirShares, polynomial))
    (hmax : ∀ c ∈ polynomial.coefficients, c ≠ scalarMax) :
    ∃ commitments, CommitsTo polynomial.coefficients commitments ∧
      sharesFromSecret checks secret degree indexes rng =
        some (shamirShares.map fun ss => ⟨ss, commitments⟩) := by
  obtain ⟨commitments, hcommitments, hspec⟩ := mapM_forall₂
    (f := EllipticCurve.scalarMul (EllipticCurve.gen : Secp256k1)) (l := polynomial.coefficients)
    fun c hc => gen_represents.scalarMul (hmax c hc)
  refine ⟨commitments, hspec, ?_⟩
  rw [sharesFromSecret, h]
  simp only [Option.bind_eq_bind, Option.bind_some, hcommitments]
  rfl

/-- **The shares of an honest dealing pass** at their indexes. -/
theorem dealt_isValid {checks : Bool} {secret : Secp256k1ScalarField} (hsecret : secret.Canonical)
    {degree : Nat} {indexes : List Secp256k1ScalarField} (hindexes : ∀ a ∈ indexes, a.Canonical)
    {rng : Nat → Secp256k1ScalarField} (hrng : ∀ i, (rng i).Canonical)
    {dealt : List (FeldmanSS Secp256k1 Secp256k1ScalarField)}
    (hdeal : sharesFromSecret checks secret degree indexes rng = some dealt) :
    List.Forall₂ (fun idx σ => σ.isValid checks idx = some true) indexes dealt := by
  obtain ⟨shamirShares, polynomial, commitments, hshamir, hcommitments, rfl⟩ :=
    sharesFromSecret_eq_some hdeal
  obtain ⟨len, hlen, hcoefficients, hshares⟩ := ShamirSS.sharesFromSecret_eq_some hshamir
  have hcount : commitments.length = len + 1 := by
    rw [← hcommitments.length_eq, hcoefficients]
    simp
  have hcanonical : ∀ c ∈ polynomial.coefficients, c.Canonical := by
    rw [hcoefficients, List.forall_mem_cons, List.forall_mem_map]
    exact ⟨hsecret, fun i _ => hrng (i + 1)⟩
  rw [List.forall₂_map_right_iff]
  refine ((List.forall₂_and_left _ _).mpr ⟨hindexes, hshares⟩).imp ?_
  rintro idx ss ⟨hidx, hdegree, heval⟩
  rw [isValid_iff checks (commitsTo_of_scalarMul hcommitments) (ne_scalarMax hidx), hdegree, hlen, hcount]
  obtain ⟨r, hr, hvalid, hval⟩ := Polynomial.evaluate_spec (p := polynomial) (x := idx)
    (by simp [hcoefficients]) hcanonical hidx
  obtain rfl := Option.some.inj (hr.symm.trans heval)
  exact ⟨rfl, ne_scalarMax hvalid, hval⟩

/-- **Feldman verification is complete and sound.** The shares of a dealing pass at their indexes, and a
share passes against commitments to coefficients exactly when it is the value of their polynomial at the
owner, modulo `n`. -/
theorem verification_complete_sound (checks : Bool) {secret : Secp256k1ScalarField}
    (hsecret : secret.Canonical) {degree : Nat} {indexes : List Secp256k1ScalarField}
    (hindexes : ∀ a ∈ indexes, a.Canonical) {rng : Nat → Secp256k1ScalarField}
    (hrng : ∀ i, (rng i).Canonical) {share : ShamirSS Secp256k1ScalarField}
    (hcommits : CommitsTo coefficients commitments) (hcount : commitments.length = share.degree + 1)
    (hsize : commitments.length < 2 ^ 64) (howner : owner ≠ scalarMax) (hshare : share.share ≠ scalarMax) :
    (∀ dealt, sharesFromSecret checks secret degree indexes rng = some dealt →
        List.Forall₂ (fun idx (σ : FeldmanSS Secp256k1 Secp256k1ScalarField) =>
          σ.isValid checks idx = some true) indexes dealt) ∧
      (degree + 1 < 2 ^ 64 → ∃ dealt : List (FeldmanSS Secp256k1 Secp256k1ScalarField),
        sharesFromSecret checks secret degree indexes rng = some dealt) ∧
      ∃ valid, isValid checks ⟨share, commitments⟩ owner = some valid ∧ (valid = true ↔
        share.share.toZMod =
          ∑ j : Fin coefficients.length, coefficients[j].toZMod * owner.toZMod ^ (j : Nat)) := by
  refine ⟨fun dealt hdeal => dealt_isValid hsecret hindexes hrng hdeal, fun hdegree => ?_, ?_⟩
  · obtain ⟨shamirShares, polynomial, hshamir, -⟩ :=
      ShamirSS.sharesFromSecret_liesOn checks hsecret hrng hindexes hdegree
    obtain ⟨len, -, hcoefficients, -⟩ := ShamirSS.sharesFromSecret_eq_some hshamir
    obtain ⟨committed, -, hdealt⟩ := exists_dealing hshamir fun c hc => by
      rw [hcoefficients, List.mem_cons, List.mem_map] at hc
      rcases hc with rfl | ⟨i, -, rfl⟩
      · exact ne_scalarMax hsecret
      · exact ne_scalarMax (hrng _)
    exact ⟨_, hdealt⟩
  · have hlen : usizeAdd checks share.degree 1 = some commitments.length := by
      rw [usizeAdd_of_lt (hcount ▸ hsize), hcount]
    obtain ⟨valid, hvalid, hiff⟩ := exists_isValid hcommits howner hlen hshare
    exact ⟨valid, hvalid, by rw [hiff, eval_ofCoefficients_map]⟩

end FeldmanSS

/-- **What a verified reconstruction returns.** The result is the dealt secret, and the shares lie on
the dealer's polynomial, exactly when every share also passes against the commitments of the
dealing. -/
theorem verified_reconstruction_iff (checks : Bool) {secret : Secp256k1ScalarField}
    (hsecret : secret.Canonical) {degree : Nat} {indexes : List Secp256k1ScalarField}
    {rng : Nat → Secp256k1ScalarField} {dealt : List (FeldmanSS Secp256k1 Secp256k1ScalarField)}
    (hdeal : FeldmanSS.sharesFromSecret checks secret degree indexes rng = some dealt)
    {shares : List (FeldmanSS Secp256k1 Secp256k1ScalarField)} {owners : List Secp256k1ScalarField}
    (howners : ∀ o ∈ owners, o.Canonical) (hnodup : owners.Nodup)
    {honest : FeldmanSS Secp256k1 Secp256k1ScalarField} (hdealt : honest ∈ dealt)
    (hsubmitted : honest ∈ shares) {s : Secp256k1ScalarField}
    (hok : FeldmanSS.secretFromShares checks shares owners = some (.ok s)) :
    ∃ shamirShares polynomial,
      ShamirSS.sharesFromSecret checks secret degree indexes rng = some (shamirShares, polynomial) ∧
      ((s = secret ∧ ∀ q ∈ shares.zip owners,
          q.1.shamirShare.share.toZMod = polynomial.toPoly.eval q.2.toZMod) ↔
        ∀ q ∈ shares.zip owners,
          FeldmanSS.isValid checks ⟨q.1.shamirShare, honest.commitments⟩ q.2 = some true) := by
  obtain ⟨shamirShares, polynomial, commitments, hshamir, hcommitments, rfl⟩ :=
    FeldmanSS.sharesFromSecret_eq_some hdeal
  obtain ⟨len, hlen, hcoefficients, hdealtShares⟩ := ShamirSS.sharesFromSecret_eq_some hshamir
  obtain ⟨hlength, hvalid, hreconstruct⟩ := FeldmanSS.secretFromShares_eq_ok hok
  obtain ⟨d, needed, hne, hdegree, hneeded, henough⟩ := ShamirSS.secretFromShares_eq_ok hreconstruct
  refine ⟨shamirShares, polynomial, hshamir, ?_⟩
  obtain ⟨ss, hss, rfl⟩ := List.mem_map.mp hdealt
  have hcommit := FeldmanSS.commitsTo_of_scalarMul hcommitments
  have hcount : commitments.length = len + 1 := by
    rw [← hcommitments.length_eq, hcoefficients]
    simp
  obtain rfl : d = degree := by
    have hdealtDegree := ((List.forall₂_and_left _ _).mp hdealtShares.flip).1 ss hss
    exact (hdegree ss (List.mem_map.mpr ⟨_, hsubmitted, rfl⟩)).symm.trans hdealtDegree
  obtain rfl : needed = len + 1 := Option.some.inj (hneeded.symm.trans hlen)
  have hmember : ∀ q ∈ shares.zip owners,
      FeldmanSS.isValid checks ⟨q.1.shamirShare, commitments⟩ q.2 = some true ↔
        q.1.shamirShare.share.toZMod = polynomial.toPoly.eval q.2.toZMod := by
    intro q hq
    rw [FeldmanSS.isValid_iff checks hcommit (ne_scalarMax (howners q.2 (List.of_mem_zip hq).2))]
    have hmem : q.1.shamirShare ∈ shares.map FeldmanSS.shamirShare :=
      List.mem_map.mpr ⟨q.1, (List.of_mem_zip hq).1, rfl⟩
    rw [hdegree _ hmem, hlen, hcount]
    simp only [(FeldmanSS.of_isValid (hvalid q hq)).2, true_and, ne_eq, not_false_eq_true]
    rfl
  constructor
  · rintro ⟨-, hlie⟩ q hq
    exact (hmember q hq).mpr (hlie q hq)
  · intro hall
    have hlie : ∀ q ∈ shares.zip owners,
        q.1.shamirShare.share.toZMod = polynomial.toPoly.eval q.2.toZMod :=
      fun q hq => (hmember q hq).mp (hall q hq)
    refine ⟨?_, hlie⟩
    have hpolynomial : polynomial.toPoly.degree < (len + 1 : ℕ) := by
      have h := degree_ofCoefficients_lt (polynomial.coefficients.map toZMod)
      rwa [List.length_map, hcommitments.length_eq, hcount] at h
    obtain ⟨r, hr, hcanonical, hval⟩ := ShamirSS.secretFromShares_eval checks
      (show ∀ s ∈ (shares.map FeldmanSS.shamirShare).map fun s =>
        (⟨s.share.reduce, s.degree⟩ : ShamirSS Secp256k1ScalarField), s.degree = _ from
        List.forall_mem_map.mpr hdegree) hneeded hpolynomial (by simpa using henough) (by simpa using hne)
      (List.forall_mem_map.mpr fun s _ => (reduce_spec s.share).1) howners hnodup (by
        refine List.ext_getElem (by simpa using hlength) fun i h1 h2 => ?_
        simp only [List.length_map] at h1 h2
        have hzip : (shares[i], owners[i]) ∈ shares.zip owners :=
          List.mem_iff_getElem.mpr ⟨i, by simpa using ⟨h1, h2⟩, List.getElem_zip⟩
        have hi := hlie _ hzip
        simp only [List.getElem_map]
        exact (reduce_spec _).2.trans hi)
    rw [ShamirSS.secretFromShares_reduce, hreconstruct] at hr
    obtain rfl : s = r := Except.ok.inj (Option.some.inj hr)
    refine hcanonical.ext hsecret (hval.trans ?_)
    rw [Polynomial.toPoly, hcoefficients, List.map_cons, eval_ofCoefficients_zero]
    rfl

end

theorem FeldmanSS.verification_complete_sound_gen :
    letI := CryptoBigint.reference
    (∀ dealt, sharesFromSecret true (fromU64 5) 1 [fromU64 1, fromU64 2] (fun _ => fromU64 3) = some dealt →
        List.Forall₂ (fun idx (σ : FeldmanSS Secp256k1 Secp256k1ScalarField) =>
          σ.isValid true idx = some true) [fromU64 1, fromU64 2] dealt) ∧
      (1 + 1 < 2 ^ 64 → ∃ dealt : List (FeldmanSS Secp256k1 Secp256k1ScalarField),
        sharesFromSecret true (fromU64 5) 1 [fromU64 1, fromU64 2] (fun _ => fromU64 3) = some dealt) ∧
      ∃ valid, isValid true ⟨⟨one, 0⟩, [gen]⟩ (fromU64 2) = some valid ∧ (valid = true ↔
        (one : Secp256k1ScalarField).toZMod =
          ∑ j : Fin 1, [(one : Secp256k1ScalarField)][j].toZMod *
            (fromU64 2 : Secp256k1ScalarField).toZMod ^ (j : Nat)) := by
  let := CryptoBigint.reference
  have hcommits : CommitsTo [one] [gen] := .cons (by
    have hone : (one : Secp256k1ScalarField).value.toNat = 1 := by decide
    rw [hone, one_nsmul]
    exact gen_represents) .nil
  have hshare : (⟨one, 0⟩ : ShamirSS Secp256k1ScalarField).share ≠ scalarMax := ne_scalarMax canonical_one
  have hindexes : ∀ a ∈ ([fromU64 1, fromU64 2] : List Secp256k1ScalarField), a.Canonical := by
    decide
  have hrng : ∀ _ : Nat, (fromU64 3 : Secp256k1ScalarField).Canonical := fun _ => by decide
  exact verification_complete_sound true (by decide) hindexes hrng hcommits rfl (by decide)
    (by decide) hshare

/-! ### Two dealings in one reconstruction -/

section
attribute [local instance] CryptoBigint.reference

/-- The dealing of `secret` by `secret + slope * x` to the parties 1 and 2. -/
def dealPair (secret slope : Nat) : Option (List (FeldmanSS Secp256k1 Secp256k1ScalarField)) :=
  FeldmanSS.sharesFromSecret true (fromU64 secret) 1 [fromU64 1, fromU64 2] fun _ => fromU64 slope

theorem exists_dealPair (secret slope : Nat) (hsecret : secret < scalarModulus)
    (hslope : slope < scalarModulus) {a b : Secp256k1ScalarField}
    (h : ShamirSS.sharesFromSecret true (fromU64 secret) 1 [fromU64 1, fromU64 2]
      (fun _ => fromU64 slope) = some ([⟨a, 1⟩, ⟨b, 1⟩], ⟨[fromU64 secret, fromU64 slope]⟩)) :
    ∃ commitments, dealPair secret slope = some [⟨⟨a, 1⟩, commitments⟩, ⟨⟨b, 1⟩, commitments⟩] ∧
      FeldmanSS.isValid true ⟨⟨a, 1⟩, commitments⟩ (fromU64 1) = some true ∧
      FeldmanSS.isValid true ⟨⟨b, 1⟩, commitments⟩ (fromU64 2) = some true := by
  have hsecret' : (fromU64 secret : Secp256k1ScalarField).Canonical := canonical_fromU64 hsecret
  have hslope' : (fromU64 slope : Secp256k1ScalarField).Canonical := canonical_fromU64 hslope
  obtain ⟨commitments, -, hdeal⟩ := FeldmanSS.exists_dealing h fun c hc => by
    rcases List.mem_pair.mp hc with rfl | rfl
    · exact ne_scalarMax hsecret'
    · exact ne_scalarMax hslope'
  have hvalid := FeldmanSS.dealt_isValid hsecret' (by decide) (fun _ => hslope') hdeal
  simp only [List.map_cons, List.map_nil, List.forall₂_cons, List.Forall₂.nil, and_true] at hvalid
  exact ⟨commitments, hdeal, hvalid⟩

/-- The first share of a dealing of 5 and the second of one of 100 are accepted together. -/
theorem verified_reconstruction_mixed :
    ∃ dealt shares s, dealPair 5 3 = some dealt ∧ (∃ honest ∈ dealt, honest ∈ shares) ∧
      FeldmanSS.secretFromShares true shares [fromU64 1, fromU64 2] = some (.ok s) ∧
      s ≠ fromU64 5 := by
  obtain ⟨commitments, hdeal, hfirst, -⟩ := exists_dealPair 5 3 (a := fromU64 8) (b := fromU64 11)
    (by decide) (by decide) (by decide)
  obtain ⟨forged, -, -, hsecond⟩ := exists_dealPair 100 7 (a := fromU64 107) (b := fromU64 114)
    (by decide) (by decide) (by decide)
  refine ⟨_, [⟨⟨fromU64 8, 1⟩, commitments⟩, ⟨⟨fromU64 114, 1⟩, forged⟩],
    ⟨BitVec.ofNat 256 (scalarModulus - 98)⟩, hdeal, ⟨_, List.mem_cons_self, List.mem_cons_self⟩, ?_,
    by decide⟩
  rw [FeldmanSS.secretFromShares_of_isValid rfl (by simp [hfirst, hsecond])]
  change ShamirSS.secretFromShares true [⟨fromU64 8, 1⟩, ⟨fromU64 114, 1⟩] _ = _
  decide +kernel

theorem verified_reconstruction_iff_dealPair :
    ∃ dealt, dealPair 5 3 = some dealt ∧ ∃ honest ∈ dealt,
      ∃ shamirShares, ∃ polynomial : Polynomial Secp256k1ScalarField,
      ShamirSS.sharesFromSecret true (fromU64 5) 1 [fromU64 1, fromU64 2] (fun _ => fromU64 3) =
        some (shamirShares, polynomial) ∧
      (((fromU64 5 : Secp256k1ScalarField) = fromU64 5 ∧
          ∀ q ∈ dealt.zip [fromU64 1, fromU64 2],
            q.1.shamirShare.share.toZMod = polynomial.toPoly.eval q.2.toZMod) ↔
        ∀ q ∈ dealt.zip [fromU64 1, fromU64 2],
          FeldmanSS.isValid true ⟨q.1.shamirShare, honest.commitments⟩ q.2 = some true) := by
  obtain ⟨commitments, hdeal, hfirst, hsecond⟩ := exists_dealPair 5 3 (a := fromU64 8)
    (b := fromU64 11) (by decide) (by decide) (by decide)
  refine ⟨_, hdeal, _, List.mem_cons_self, ?_⟩
  refine verified_reconstruction_iff true (by decide) hdeal (by decide)
    (by decide) List.mem_cons_self List.mem_cons_self ?_
  rw [FeldmanSS.secretFromShares_of_isValid rfl (by simp [hfirst, hsecond])]
  change ShamirSS.secretFromShares true [⟨fromU64 8, 1⟩, ⟨fromU64 11, 1⟩] _ = _
  decide +kernel

end

end SclRs
