import SclRs.Math.Field.Mersenne61
import SclRs.Ss.Shamir

/-!
# Shares on a polynomial

`LiesOn t f point s`: the share `s` has degree `t` and is the value of `f` at `point`. Dealing gives
shares on one polynomial whose value at zero is the secret, and shares on a polynomial of their degree
give that value back (`secretFromShares_liesOn`), from any of them that are enough and in any order
(`shamir_roundtrip`).
-/

open Polynomial

namespace SclRs

open RingOps LawfulRing Lib.Interpolation

namespace ShamirSS

variable {F K : Type}

section
variable [RingOps F] [CommRing K] [LawfulRing F K]

/-- The share is the value of `f` at `point`, with degree `t`. -/
structure LiesOn (t : Nat) (f : K[X]) (point : F) (s : ShamirSS F) : Prop where
  degree : s.degree = t
  valid : Valid s.share
  eval : val s.share = f.eval (val point)

theorem usizeAdd_lt {checks : Bool} {a b c : Nat} (h : usizeAdd checks a b = some c) : c < 2 ^ 64 := by
  unfold usizeAdd at h
  split_ifs at h with hlt
  · exact Option.some.inj h ▸ hlt
  · rw [← Option.some.inj h]
    exact Nat.mod_lt _ (by norm_num)

theorem valid_encodeParty [FromU64 F] [LawfulFromU64 F] {checks : Bool} {party : PartyId} {point : F}
    (h : encodeParty checks party = some point) : Valid point := by
  obtain ⟨n, hn, rfl⟩ := Option.map_eq_some_iff.mp h
  exact LawfulFromU64.valid_fromU64 n (usizeAdd_lt hn)

end

/-! ### Dealing -/

section
variable [RingOps F] [CommRing K] [LawfulRing F K]

/-- The polynomial of a dealing. -/
noncomputable def dealt (secret : F) (degree : Nat) (rng : Nat → F) : K[X] :=
  ofCoefficients (val secret :: (List.range degree).map fun i => val (rng (i + 1)))

theorem natDegree_dealt_le (secret : F) (degree : Nat) (rng : Nat → F) :
    (dealt secret degree rng).natDegree ≤ degree := by
  have h := degree_ofCoefficients_lt (val secret :: (List.range degree).map fun i => val (rng (i + 1)))
  rw [List.length_cons, List.length_map, List.length_range] at h
  exact natDegree_le_iff_degree_lt.mpr h

theorem eval_dealt_zero (secret : F) (degree : Nat) (rng : Nat → F) :
    (dealt secret degree rng).eval 0 = val secret := eval_ofCoefficients_zero _ _

theorem sharesFromSecret_liesOn (checks : Bool) {secret : F} {degree : Nat} {indexes : List F}
    {rng : Nat → F} (hsecret : Valid secret) (hrng : ∀ i, Valid (rng i))
    (hindexes : ∀ a ∈ indexes, Valid a) (hdegree : degree + 1 < 2 ^ 64) :
    ∃ shares polynomial, sharesFromSecret checks secret degree indexes rng = some (shares, polynomial) ∧
      List.Forall₂ (fun a s => s.LiesOn degree (dealt secret degree rng) a) indexes shares := by
  let polynomial : Polynomial F := ⟨secret :: (List.range degree).map fun i => rng (i + 1)⟩
  have hpoly : polynomial.toPoly = dealt secret degree rng := by
    rw [dealt, Polynomial.toPoly, List.map_cons, List.map_map]
    rfl
  have hcoefficients : ∀ c ∈ polynomial.coefficients, Valid c := by
    refine List.forall_mem_cons.mpr ⟨hsecret, fun c hc => ?_⟩
    obtain ⟨i, -, rfl⟩ := List.mem_map.mp hc
    exact hrng (i + 1)
  have hshare : ∀ a ∈ indexes, ∃ s : ShamirSS F,
      (do return (⟨← polynomial.evaluate a, degree⟩ : ShamirSS F)) = some s ∧
        s.LiesOn degree (dealt secret degree rng) a := by
    intro a ha
    obtain ⟨r, hr, hvalid, hval⟩ := Polynomial.evaluate_spec (p := polynomial) (List.cons_ne_nil _ _)
      hcoefficients (hindexes a ha)
    exact ⟨⟨r, degree⟩, by rw [hr]; rfl, rfl, hvalid, hpoly ▸ hval⟩
  obtain ⟨shares, hshares, hlies⟩ := mapM_forall₂ hshare
  refine ⟨shares, polynomial, ?_, hlies⟩
  have hrandom : Polynomial.random checks degree rng = some ⟨(List.range (degree + 1)).map rng⟩ := by
    rw [Polynomial.random, usizeAdd_of_lt hdegree]
    rfl
  have hset : (⟨(List.range (degree + 1)).map rng⟩ : Polynomial F).setConstantCoeff secret =
      some polynomial := by
    rw [Polynomial.setConstantCoeff, List.range_succ_eq_map, List.map_cons, List.map_map]
    rfl
  rw [sharesFromSecret, hrandom]
  simp only [Option.bind_eq_bind, Option.bind_some, hset]
  exact congrArg (fun r => Option.bind r _) hshares

end

/-! ### Points and reconstruction -/

section
variable [FromU64 F]

theorem mapM_encodeParty {checks : Bool} {parties : List PartyId} {point : PartyId → F}
    (h : ∀ p ∈ parties, encodeParty checks p = some (point p)) :
    parties.mapM (encodeParty checks) = some (parties.map point) := by
  induction parties with
  | nil => rfl
  | cons p parties ih =>
    obtain ⟨hp, hparties⟩ := List.forall_mem_cons.mp h
    rw [List.mapM_cons, hp, ih hparties]
    rfl

variable [DecidableEq F] [FieldOps F] [Field K] [LawfulField F K]

/-- **Enough shares on a polynomial** give its value at zero. -/
theorem secretFromShares_liesOn {checks : Bool} {f : K[X]} {t : Nat} {parties : List PartyId}
    {point : PartyId → F} [LawfulFromU64 F] {shares : List (ShamirSS F)}
    (hpoint : ∀ p ∈ parties, encodeParty checks p = some (point p))
    (hnodup : (parties.map point).Nodup) (hf : f.natDegree ≤ t)
    (hlies : List.Forall₂ (fun p s => s.LiesOn t f (point p)) parties shares)
    (henough : t < parties.length) (ht : t + 1 < 2 ^ 64) :
    ∃ r, LinearShare.secretFromShares checks shares parties = some (.ok r) ∧ Valid r ∧
      val r = f.eval 0 := by
  have hlen := hlies.length_eq
  have hpoints : ∀ a ∈ parties.map point, Valid a := by
    intro a ha
    obtain ⟨p, hp, rfl⟩ := List.mem_map.mp ha
    exact valid_encodeParty (hpoint p hp)
  have hshares : ∀ s ∈ shares, s.degree = t ∧ Valid s.share := by
    intro s hs
    obtain ⟨p, -, hlies⟩ := exists_of_forall₂ hlies hs
    exact ⟨hlies.degree, hlies.valid⟩
  have heval : shares.map (fun s => val s.share) =
      (parties.map point).map fun a => f.eval (val a) := by
    rw [List.map_map]
    exact map_eq_of_forall₂ hlies fun _ _ hlies => hlies.eval
  obtain ⟨r, hr, hvalid, hval⟩ := secretFromShares_eval checks (fun s hs => (hshares s hs).1)
    (usizeAdd_of_lt ht) (natDegree_le_iff_degree_lt.mp hf) (by omega)
    (List.ne_nil_of_length_pos (by omega)) (fun s hs => (hshares s hs).2) hpoints hnodup heval
  refine ⟨r, ?_, hvalid, hval⟩
  change (parties.mapM (encodeParty checks)).bind _ = _
  rw [mapM_encodeParty hpoint]
  exact hr

theorem linearShare_sharesFromSecret [LawfulFromU64 F] {checks : Bool} {secret : F}
    {parties : List PartyId} {point : PartyId → F} {degree : Nat} {rng : Nat → F}
    (hsecret : Valid secret) (hrng : ∀ i, Valid (rng i))
    (hpoint : ∀ p ∈ parties, encodeParty checks p = some (point p)) (hdegree : degree < parties.length)
    (hsize : degree + 1 < 2 ^ 64) :
    ∃ shares : List (ShamirSS F),
      LinearShare.sharesFromSecret checks secret parties degree rng = some (.ok shares) ∧
        List.Forall₂ (fun p s => s.LiesOn degree (dealt secret degree rng) (point p)) parties shares := by
  have hpoints : ∀ a ∈ parties.map point, Valid a := by
    intro a ha
    obtain ⟨p, hp, rfl⟩ := List.mem_map.mp ha
    exact valid_encodeParty (hpoint p hp)
  obtain ⟨shares, polynomial, hdeal, hlies⟩ := sharesFromSecret_liesOn checks hsecret hrng hpoints hsize
  refine ⟨shares, ?_, (List.forall₂_map_left_iff).mp hlies⟩
  change (if degree ≥ parties.length then _ else (parties.mapM (encodeParty checks)).bind _) = _
  rw [if_neg (not_le.mpr hdegree), mapM_encodeParty hpoint]
  simp only [Option.bind_some, Option.bind_eq_bind, hdeal]
  rfl

omit [Field K] [LawfulField F K] in
theorem secretFromShares_ne_ok {checks : Bool} {shares : List (ShamirSS F)} {parties : List PartyId}
    {points : List F} (hpoints : parties.mapM (encodeParty checks) = some points)
    (hcollide : ¬ points.Nodup) (r : F) :
    LinearShare.secretFromShares checks shares parties ≠ some (.ok r) := by
  change (parties.mapM (encodeParty checks)).bind _ ≠ _
  rw [hpoints, Option.bind_some]
  intro hr
  obtain _ | ⟨first, rest⟩ := shares
  · cases hr
  rw [secretFromShares, secretFromSharesBy] at hr
  split_ifs at hr
  · cases hr
  · cases hr
  obtain ⟨needed, -, hr⟩ := Option.bind_eq_some_iff.mp hr
  split_ifs at hr
  · cases hr
  obtain ⟨outcome, houtcome, hr⟩ := Option.bind_eq_some_iff.mp hr
  cases outcome with
  | error e => cases hr
  | ok secret => exact interpolatePolynomialAt_ne_ok hcollide houtcome

theorem secretFromShares_notEnough {checks : Bool} {t : Nat} {shares : List (ShamirSS F)}
    {parties : List PartyId} {point : PartyId → F}
    (hpoint : ∀ p ∈ parties, encodeParty checks p = some (point p))
    (hlen : shares.length = parties.length) (hdegree : ∀ s ∈ shares, s.degree = t)
    (hfew : shares.length ≤ t) (ht : t + 1 < 2 ^ 64) :
    LinearShare.secretFromShares checks shares parties = some (.error .notEnoughShares) := by
  change (parties.mapM (encodeParty checks)).bind _ = _
  rw [mapM_encodeParty hpoint, Option.bind_some]
  rcases eq_or_ne shares [] with rfl | hne
  · rfl
  rw [secretFromShares_of_degree hne (by simpa using hlen) hdegree, usizeAdd_of_lt ht, Option.bind_some,
    if_pos (Nat.lt_succ_of_le hfew)]

omit [Field K] [LawfulField F K] in
theorem secretFromShares_collide {checks : Bool} {t : Nat} {shares : List (ShamirSS F)}
    {parties : List PartyId} {points : List F} (hpoints : parties.mapM (encodeParty checks) = some points)
    (hcollide : ¬ points.Nodup) (hlen : shares.length = parties.length)
    (hdegree : ∀ s ∈ shares, s.degree = t) (henough : t < shares.length) (ht : t + 1 < 2 ^ 64) :
    LinearShare.secretFromShares checks shares parties =
      some (.error (.reconstructionError (.notAllDifferentInterpolation points))) := by
  have hlen' : points.length = parties.length := (forall₂_of_mapM hpoints).length_eq.symm
  change (parties.mapM (encodeParty checks)).bind _ = _
  rw [hpoints, Option.bind_some]
  have hne : shares ≠ [] := List.ne_nil_of_length_pos (Nat.zero_lt_of_lt henough)
  rw [secretFromShares_of_degree hne (hlen.trans hlen'.symm) hdegree, usizeAdd_of_lt ht,
    Option.bind_some, if_neg (Nat.not_lt.mpr henough),
    interpolatePolynomialAt_collide hcollide (by rw [List.length_map, hlen, hlen'])]
  rfl

theorem forall₂_of_subperm {α β : Type} {R : α → β → Prop} {l : List α} {l' : List β}
    (h : List.Forall₂ R l l') {picked : List (α × β)} (hpicked : picked.Subperm (l.zip l')) :
    List.Forall₂ R (picked.map Prod.fst) (picked.map Prod.snd) := by
  rw [List.forall₂_map_left_iff, List.forall₂_map_right_iff, List.forall₂_same]
  exact fun x hx => (List.forall₂_iff_zip.mp h).2 (hpicked.subset hx)

theorem nodup_map_of_subperm {α β : Type} {l picked : List α} {f : α → β} (h : (l.map f).Nodup)
    (hpicked : picked.Subperm l) : (picked.map f).Nodup := by
  obtain ⟨sorted, hperm, hsub⟩ := hpicked
  exact (hperm.map f).nodup_iff.mp (h.sublist (hsub.map f))

theorem map_fst_subperm {α β : Type} {l : List α} {l' : List β} (hlen : l.length = l'.length)
    {picked : List (α × β)} (hpicked : picked.Subperm (l.zip l')) :
    (picked.map Prod.fst).Subperm l := by
  obtain ⟨sorted, hperm, hsub⟩ := hpicked
  refine ⟨sorted.map Prod.fst, hperm.map _, ?_⟩
  conv_rhs => rw [← List.map_fst_zip hlen.le]
  exact hsub.map Prod.fst

omit [DecidableEq F] in
theorem exists_point {checks : Bool} {parties : List PartyId} {points : List F}
    (h : parties.mapM (encodeParty checks) = some points) :
    ∃ point : PartyId → F, (∀ p ∈ parties, encodeParty checks p = some (point p)) ∧
      points = parties.map point := by
  refine ⟨fun p => (encodeParty checks p).getD zero, fun p hp => ?_, ?_⟩
  · obtain ⟨a, -, ha⟩ := exists_of_forall₂ (forall₂_of_mapM h).flip hp
    simp only [ha, Option.getD_some]
  · refine (List.map_id points).symm.trans (map_eq_of_forall₂ (forall₂_of_mapM h) fun p a ha => ?_)
    rw [ha]
    rfl

/-- **Shamir sharing round-trips on every qualified subset.** -/
theorem shamir_roundtrip [LawfulFromU64 F] {checks : Bool} {secret : F} {parties : List PartyId}
    {points : List F} {degree : Nat} {rng : Nat → F} (hsecret : Valid secret)
    (hrng : ∀ i, Valid (rng i)) (hpoints : parties.mapM (encodeParty checks) = some points)
    (hnodup : points.Nodup) (hdegree : degree < parties.length) (hsize : parties.length < 2 ^ 64) :
    ∃ shares : List (ShamirSS F),
      LinearShare.sharesFromSecret checks secret parties degree rng = some (.ok shares) ∧
      shares.length = parties.length ∧
      ∀ picked : List (PartyId × ShamirSS F), picked.Subperm (parties.zip shares) →
        LinearShare.secretFromShares checks (picked.map Prod.snd) (picked.map Prod.fst) =
          if degree < picked.length then some (.ok secret) else some (.error .notEnoughShares) := by
  obtain ⟨point, hpoint, rfl⟩ := exists_point hpoints
  obtain ⟨shares, hdeal, hlies⟩ := linearShare_sharesFromSecret hsecret hrng hpoint
    hdegree (by omega)
  refine ⟨shares, hdeal, hlies.length_eq.symm, fun picked hpicked => ?_⟩
  have hpickedLies := forall₂_of_subperm hlies hpicked
  have hpickedPoint : ∀ p ∈ picked.map Prod.fst, encodeParty checks p = some (point p) := by
    intro p hp
    obtain ⟨pair, hpair, rfl⟩ := List.mem_map.mp hp
    exact hpoint _ (List.of_mem_zip (hpicked.subset hpair)).1
  split_ifs with henough
  · obtain ⟨r, hr, hvalid, hval⟩ := secretFromShares_liesOn hpickedPoint
      (nodup_map_of_subperm hnodup (map_fst_subperm hlies.length_eq hpicked)) (natDegree_dealt_le secret degree rng)
      hpickedLies (by rwa [List.length_map]) (by omega)
    rw [hr, val_inj hvalid hsecret (hval.trans (eval_dealt_zero secret degree rng))]
  · refine secretFromShares_notEnough (t := degree) hpickedPoint
      (by rw [List.length_map, List.length_map]) (fun s hs => ?_) (by rw [List.length_map]; omega)
      (by omega)
    obtain ⟨p, -, hlie⟩ := exists_of_forall₂ hpickedLies hs
    exact hlie.degree

end

theorem shamir_roundtrip_three : ∃ shares : List (ShamirSS Mersenne61),
    LinearShare.sharesFromSecret true (⟨5⟩ : Mersenne61) [0, 1, 2] 1 (fun _ => ⟨7⟩) =
        some (.ok shares) ∧
      shares.length = 3 ∧
      ∀ picked : List (PartyId × ShamirSS Mersenne61), picked.Subperm ([0, 1, 2].zip shares) →
        LinearShare.secretFromShares true (picked.map Prod.snd) (picked.map Prod.fst) =
          if 1 < picked.length then some (.ok ⟨5⟩) else some (.error .notEnoughShares) :=
  shamir_roundtrip
    (show Mersenne61.Canonical ⟨5⟩ by decide) (fun _ => (show Mersenne61.Canonical ⟨7⟩ by decide)) rfl
    (by decide +kernel) (by decide) (by decide)

end ShamirSS

end SclRs
