import SclRs.Math.Matrix.Algebra
import SclRs.Ss.LinearExpr

/-!
# Matrices applied to shares

What `mul_shares` computes in row `i` is a linear expression in the shares (`mulSharesRow_eq`), so that the
parties' outputs are sharings of its value on the secrets, and this is the `i`-th entry that `Mul<&Vector>`
computes on them (`mulShares_isSharing`): the seed of the one sum and the zero of the other make no
difference.
-/

namespace SclRs

open RingOps LawfulRing

namespace LinearExpr

/-- The first `n + 1` terms of a linear combination, added up from the first one on. -/
def combination {V : Type} (a : Nat → V) : Nat → LinearExpr V
  | 0 => .mulConst (.var 0) (a 0)
  | n + 1 => .add (combination a n) (.mulConst (.var (n + 1)) (a (n + 1)))

theorem foldlM_combination {S V Threshold : Type} [LinearShare S V Threshold] {checks : Bool}
    {shares : Nat → Option S} {entries : Nat → Option V} {x : Nat → S} {a : Nat → V} (n : Nat)
    (hshares : ∀ j ≤ n, shares j = some (x j)) (hentries : ∀ j ≤ n, entries j = some (a j)) :
    (List.range' 1 n).foldlM (fun sum j => do
        LinearShare.add checks sum (LinearShare.mulConst (← shares j) (← entries j)))
      (LinearShare.mulConst (x 0) (a 0)) = (combination a n).evalShare checks x := by
  induction n with
  | zero => rfl
  | succ n ih =>
    rw [List.range'_1_concat, List.foldlM_append,
      ih (fun j hj => hshares j (by omega)) fun j hj => hentries j (by omega)]
    simp only [List.foldlM_cons, List.foldlM_nil, Nat.add_comm 1 n, hshares (n + 1) le_rfl,
      hentries (n + 1) le_rfl, Option.bind_eq_bind, Option.bind_some, combination, evalShare,
      Option.pure_def, Option.bind_fun_some]

section
variable {V K : Type} [RingOps V] [CommRing K] [LawfulRing V K] {a secrets : Nat → V} {n : Nat}

theorem validConstants_combination (ha : ∀ j ≤ n, Valid (a j)) : (combination a n).ValidConstants := by
  induction n with
  | zero => exact ⟨trivial, ha 0 le_rfl⟩
  | succ n ih => exact ⟨ih fun j hj => ha j (by omega), trivial, ha _ le_rfl⟩

theorem evalSecret_combination (ha : ∀ j ≤ n, Valid (a j)) (hsecrets : ∀ j ≤ n, Valid (secrets j)) :
    Valid ((combination a n).evalSecret secrets) ∧ val ((combination a n).evalSecret secrets) =
      ∑ j ∈ Finset.range (n + 1), val (a j) * val (secrets j) := by
  induction n with
  | zero =>
    refine ⟨valid_mul (hsecrets 0 le_rfl) (ha 0 le_rfl), ?_⟩
    rw [Finset.sum_range_one, mul_comm]
    exact val_mul (hsecrets 0 le_rfl) (ha 0 le_rfl)
  | succ n ih =>
    obtain ⟨hvalid, hval⟩ := ih (fun j hj => ha j (by omega)) fun j hj => hsecrets j (by omega)
    have hterm := valid_mul (hsecrets (n + 1) le_rfl) (ha (n + 1) le_rfl)
    refine ⟨valid_add hvalid hterm, ?_⟩
    rw [Finset.sum_range_succ, ← hval, mul_comm (val (a (n + 1))),
      ← val_mul (hsecrets (n + 1) le_rfl) (ha (n + 1) le_rfl)]
    exact val_add hvalid hterm

end

end LinearExpr

namespace Matrix

/-- Sharings of the secrets can be dealt; the parties apply the matrix to their shares, and the `i`-th
outputs of the parties `picked` give the `i`-th entry of the product with the secrets. -/
def CommutesWith (S : Type) {T Threshold : Type} [LinearShare S T Threshold] [RingOps T] (checks : Bool)
    (parties : List PartyId) (threshold : Threshold) (Qualified : List PartyId → Prop) (m : Matrix T)
    (secrets : Nat → T) (rng : Nat → Nat → T) : Prop :=
  ∃ (dealt result : Nat → PartyId → S) (product : Nat → T),
    (∀ j, LinearShare.sharesFromSecret checks (secrets j) parties threshold (rng j) =
      some (.ok (parties.map (dealt j)))) ∧
    (∀ p ∈ parties, m.mulShares checks ((List.range m.columns).map fun j => dealt j p) =
      some (.ok ((List.range m.rows).map fun i => result i p))) ∧
    m.mulVector ((List.range m.columns).map secrets) = some (.ok ((List.range m.rows).map product)) ∧
    ∀ i < m.rows, ∀ picked, Qualified picked →
      LinearShare.secretFromShares checks (picked.map (result i)) picked = some (.ok (product i))

section
variable {S T Threshold : Type} [LinearShare S T Threshold] {checks : Bool} {m : Matrix T} {r c : Nat}
  {f : Nat → Nat → T} {x : Nat → S}

theorem mulShares_notCompatible_iff {shares : List S} :
    m.mulShares checks shares = some (.error .notCompatible) ↔ m.columns ≠ shares.length := by
  refine ⟨fun h hcompatible => ?_, fun h => if_pos h⟩
  rw [mulShares, if_neg (not_not_intro hcompatible)] at h
  obtain ⟨result, -, h⟩ := Option.bind_eq_some_iff.mp h
  cases h

/-- A row of `mul_shares` is a linear expression. -/
theorem mulSharesRow_eq (h : m.Is r c f) (hc : 0 < c) {i : Nat} (hi : i < r) :
    mulSharesRow checks m ((List.range c).map x) i = (LinearExpr.combination (f i) (c - 1)).evalShare checks x := by
  have hshares : ∀ j ≤ c - 1, ((List.range c).map x)[j]? = some (x j) := by
    intro j hj
    rw [List.getElem?_map, List.getElem?_range (by omega)]
    rfl
  have hentries : ∀ j ≤ c - 1, m.elements[c * i + j]? = some (f i j) :=
    fun j hj => h.entry i hi j (by omega)
  rw [← LinearExpr.foldlM_combination (c - 1) hshares hentries, mulSharesRow, h.columns,
    hshares 0 (Nat.zero_le _), show m.elements[c * i]? = some (f i 0) from hentries 0 (Nat.zero_le _)]
  rfl

variable {K : Type} [RingOps T] [CommRing K] [LawfulRing T K] [LawfulLinearShare S]
  {parties : List PartyId} {threshold : Threshold} {dealt : Nat → PartyId → S} {secrets : Nat → T}

/-- **The parties' outputs are sharings of the product with the secrets.** -/
theorem mulShares_isSharing (hm : m.WellFormed) (hvalid : ∀ a ∈ m.elements, Valid a)
    (hsecrets : ∀ j, Valid (secrets j))
    (hdealt : ∀ j, LawfulLinearShare.IsSharing checks parties threshold (dealt j) (secrets j)) :
    ∃ (result : Nat → PartyId → S) (product : Nat → T),
      (∀ p ∈ parties, m.mulShares checks ((List.range m.columns).map fun j => dealt j p) =
        some (.ok ((List.range m.rows).map fun i => result i p))) ∧
      m.mulVector ((List.range m.columns).map secrets) =
        some (.ok ((List.range m.rows).map product)) ∧
      ∀ i < m.rows, LawfulLinearShare.IsSharing checks parties threshold (result i) (product i) ∧
        Valid (product i) := by
  have his := Is.of_length hm.length zero
  generalize hf : (fun i j => m.elements.getD (m.columns * i + j) zero) = f at his
  have hentry : ∀ i < m.rows, ∀ j < m.columns, Valid (f i j) :=
    fun i hi j hj => hvalid _ (List.mem_of_getElem? (his.entry i hi j hj))
  obtain ⟨y, hy, hspec⟩ := his.mulVector hentry
    (show ((List.range m.columns).map secrets).length = m.columns by rw [List.length_map, List.length_range])
    (List.forall_mem_map.mpr fun j _ => hsecrets j)
  have hrow : ∀ i, ∃ z : PartyId → S, i < m.rows →
      (∀ p ∈ parties, mulSharesRow checks m ((List.range m.columns).map fun j => dealt j p) i =
        some (z p)) ∧ LawfulLinearShare.IsSharing checks parties threshold z (y i) := by
    intro i
    by_cases hi : i < m.rows
    · have hrow : ∀ j ≤ m.columns - 1, Valid (f i j) :=
        fun j hj => hentry i hi j (by have := hm.columns; omega)
      obtain ⟨z, hz, hsharing⟩ :=
        LinearExpr.evalShare_isSharing hdealt (LinearExpr.validConstants_combination hrow)
      obtain ⟨hvalidSum, hsum⟩ := LinearExpr.evalSecret_combination hrow fun j _ => hsecrets j
      have hproduct : (LinearExpr.combination (f i) (m.columns - 1)).evalSecret secrets = y i := by
        refine val_inj hvalidSum (hspec i hi).1 ?_
        rw [hsum, (hspec i hi).2, Nat.sub_add_cancel hm.columns]
        refine Finset.sum_congr rfl fun j hj => ?_
        rw [Finset.mem_range] at hj
        simp [List.getD_eq_getElem?_getD, hj]
      exact ⟨z, fun _ => ⟨fun p hp => (mulSharesRow_eq his hm.columns hi).trans (hz p hp), hproduct ▸ hsharing⟩⟩
    · exact ⟨dealt 0, fun h => absurd h hi⟩
  choose result hresult using hrow
  refine ⟨result, y, fun p hp => ?_, hy, fun i hi => ⟨(hresult i hi).2, (hspec i hi).1⟩⟩
  rw [mulShares, if_neg (by simp), mapM_eq_map fun i hi => (hresult i (List.mem_range.mp hi)).1 p hp]
  rfl

end

/-- **A public matrix commutes with reconstruction** in both schemes. -/
theorem mulShares_commutes {T K : Type} [RingOps T] [CommRing K] [LawfulRing T K] {F L : Type}
    [DecidableEq F] [FieldOps F] [FromU64 F] [Field L] [LawfulField F L] [LawfulFromU64 F]
    {checks : Bool} {parties : List PartyId} (hne : parties ≠ []) (hnodup : parties.Nodup) :
    (∀ (m : Matrix T) (shares : List (AdditiveSS T)),
      m.mulShares checks shares = some (.error .notCompatible) ↔ m.columns ≠ shares.length) ∧
    (∀ (m : Matrix F) (shares : List (ShamirSS F)),
      m.mulShares checks shares = some (.error .notCompatible) ↔ m.columns ≠ shares.length) ∧
    (∀ (m : Matrix T) (secrets : Nat → T) (rng : Nat → Nat → T), m.WellFormed →
      (∀ a ∈ m.elements, Valid a) → (∀ j, Valid (secrets j)) → (∀ j k, Valid (rng j k)) →
      m.CommutesWith (AdditiveSS T) checks parties () (·.Perm parties) secrets rng) ∧
    ∀ (m : Matrix F) (secrets : Nat → F) (rng : Nat → Nat → F) (degree : Nat), m.WellFormed →
      (∀ a ∈ m.elements, Valid a) → (∀ j, Valid (secrets j)) → (∀ j k, Valid (rng j k)) →
      degree < parties.length → parties.length < 2 ^ 64 → ShamirSS.DistinctPoints F checks parties →
      m.CommutesWith (ShamirSS F) checks parties degree
        (fun picked => picked.Subperm parties ∧ degree < picked.length) secrets rng := by
  refine ⟨fun m shares => mulShares_notCompatible_iff, fun m shares => mulShares_notCompatible_iff,
    fun m secrets rng hm hvalid hsecrets hrng => ?_,
    fun m secrets rng degree hm hvalid hsecrets hrng hdegree hlength hpoints => ?_⟩
  · have hadmits : LawfulLinearShare.Admits (S := AdditiveSS T) checks parties () := ⟨hne, hnodup⟩
    choose dealt hdeal hdealt using fun j => LawfulLinearShare.deal hadmits (hsecrets j) (hrng j)
    obtain ⟨result, product, hresult, hproduct, hsharing⟩ := mulShares_isSharing hm hvalid hsecrets hdealt
    exact ⟨dealt, result, product, hdeal, hresult, hproduct,
      fun i hi picked hpicked => LawfulLinearShare.secretFromShares_perm (hsharing i hi).1 hpicked⟩
  · have hadmits : LawfulLinearShare.Admits (S := ShamirSS F) checks parties degree :=
      ⟨hdegree, hlength, hpoints⟩
    choose dealt hdeal hdealt using fun j => LawfulLinearShare.deal hadmits (hsecrets j) (hrng j)
    obtain ⟨result, product, hresult, hproduct, hsharing⟩ := mulShares_isSharing hm hvalid hsecrets hdealt
    refine ⟨dealt, result, product, hdeal, hresult, hproduct, fun i hi picked ⟨hpicked, henough⟩ => ?_⟩
    have hsharing' : ShamirSS.IsSharing checks parties degree (result i) (product i) := (hsharing i hi).1
    obtain ⟨s, hs, hvalid', hval⟩ := hsharing'.shared.secretFromShares hpoints hpicked henough (by omega)
    rw [hs, val_inj hvalid' hsharing'.valid hval]

theorem mulShares_commutes_onesOf :
    (onesOf 1 2).CommutesWith (AdditiveSS Mersenne61) true [4, 0, 2] () (·.Perm [4, 0, 2]) (fun _ => ⟨5⟩)
        (fun _ _ => ⟨7⟩) ∧
      (onesOf 1 2).CommutesWith (ShamirSS Mersenne61) true [4, 0, 2] 1
        (fun picked => picked.Subperm [4, 0, 2] ∧ 1 < picked.length) (fun _ => ⟨5⟩) (fun _ _ => ⟨7⟩) := by
  have hm : (onesOf 1 2).WellFormed := ⟨by decide, by decide, rfl⟩
  have hsecret : Mersenne61.Canonical ⟨5⟩ := by decide
  have hrng : Mersenne61.Canonical ⟨7⟩ := by decide
  have h := @mulShares_commutes Mersenne61 _ _ _ _ Mersenne61 _ _ _ _ _ _ _ true [4, 0, 2] (by decide) (by decide)
  exact ⟨h.2.2.1 _ _ _ hm (canonical_onesOf 1 2) (fun _ => hsecret) fun _ _ => hrng,
    h.2.2.2 _ _ _ 1 hm (canonical_onesOf 1 2) (fun _ => hsecret) (fun _ _ => hrng) (by decide) (by decide)
      ⟨[4, 0, 2].map fun p => FromU64.fromU64 (p + 1), rfl, by decide +kernel⟩⟩

/-- Two parties whose numbers differ by the modulus have one point, and do not give the product back. -/
theorem mulShares_colliding :
    [0, mersenneModulus].Nodup ∧ (onesOf 1 1).WellFormed ∧
      ¬ (onesOf 1 1).CommutesWith (ShamirSS Mersenne61) true [0, mersenneModulus] 1
        (· = [0, mersenneModulus]) (fun _ => ⟨5⟩) (fun _ _ => ⟨7⟩) := by
  refine ⟨by decide, ⟨by decide, by decide, rfl⟩, ?_⟩
  rintro ⟨-, result, product, -, -, -, hopen⟩
  exact ShamirSS.secretFromShares_ne_ok rfl (by decide +kernel) _ (hopen 0 (by decide) _ rfl)

end Matrix

end SclRs
