import SclRs.Math.Field.Mersenne61
import SclRs.Ss.Additive
import SclRs.Ss.ShamirLinear

/-!
# Linear expressions over shares

Expressions in the local operations of `LinearShare`, evaluated on the shares of one party and on the
secrets. Induction on the expression with the laws of the scheme shows that the parties' values are a
sharing of the value on the secrets (`evalShare_isSharing`).
-/

namespace SclRs

open LawfulRing (Valid)

inductive LinearExpr (V : Type)
  | var (i : Nat)
  | add (e f : LinearExpr V)
  | sub (e f : LinearExpr V)
  | neg (e : LinearExpr V)
  | addConst (e : LinearExpr V) (c : V)
  | subConst (e : LinearExpr V) (c : V)
  | mulConst (e : LinearExpr V) (c : V)

namespace LinearExpr

def evalShare {S V Threshold : Type} [LinearShare S V Threshold] (checks : Bool) (shares : Nat → S) :
    LinearExpr V → Option S
  | var i => some (shares i)
  | add e f => do LinearShare.add checks (← e.evalShare checks shares) (← f.evalShare checks shares)
  | sub e f => do LinearShare.sub checks (← e.evalShare checks shares) (← f.evalShare checks shares)
  | neg e => do return LinearShare.neg (← e.evalShare checks shares)
  | addConst e c => do return LinearShare.addConst (← e.evalShare checks shares) c
  | subConst e c => do return LinearShare.subConst (← e.evalShare checks shares) c
  | mulConst e c => do return LinearShare.mulConst (← e.evalShare checks shares) c

def evalSecret {V : Type} [RingOps V] (secrets : Nat → V) : LinearExpr V → V
  | var i => secrets i
  | add e f => RingOps.add (e.evalSecret secrets) (f.evalSecret secrets)
  | sub e f => RingOps.sub (e.evalSecret secrets) (f.evalSecret secrets)
  | neg e => RingOps.negate (e.evalSecret secrets)
  | addConst e c => RingOps.add (e.evalSecret secrets) c
  | subConst e c => RingOps.sub (e.evalSecret secrets) c
  | mulConst e c => RingOps.mul (e.evalSecret secrets) c

section
variable {V K : Type} [RingOps V] [CommRing K] [LawfulRing V K]

def ValidConstants : LinearExpr V → Prop
  | var _ => True
  | add e f | sub e f => e.ValidConstants ∧ f.ValidConstants
  | neg e => e.ValidConstants
  | addConst e c | subConst e c | mulConst e c => e.ValidConstants ∧ Valid c

/-- **The values of an expression at the parties are a sharing of its value on the secrets.** -/
theorem evalShare_isSharing {S Threshold : Type} [LinearShare S V Threshold] [LawfulLinearShare S]
    {checks : Bool} {parties : List PartyId} {threshold : Threshold} {shares : Nat → PartyId → S}
    {secrets : Nat → V}
    (h : ∀ i, LawfulLinearShare.IsSharing checks parties threshold (shares i) (secrets i))
    {e : LinearExpr V} (he : e.ValidConstants) :
    ∃ z : PartyId → S, (∀ p ∈ parties, e.evalShare checks (fun i => shares i p) = some (z p)) ∧
      LawfulLinearShare.IsSharing checks parties threshold z (e.evalSecret secrets) := by
  induction e with
  | var i => exact ⟨shares i, fun p _ => rfl, h i⟩
  | add e f ihe ihf =>
    obtain ⟨x, hx, hxs⟩ := ihe he.1
    obtain ⟨y, hy, hys⟩ := ihf he.2
    obtain ⟨z, hz, hzs⟩ := LawfulLinearShare.add hxs hys
    exact ⟨z, fun p hp => by rw [evalShare, hx p hp, hy p hp]; exact hz p hp, hzs⟩
  | sub e f ihe ihf =>
    obtain ⟨x, hx, hxs⟩ := ihe he.1
    obtain ⟨y, hy, hys⟩ := ihf he.2
    obtain ⟨z, hz, hzs⟩ := LawfulLinearShare.sub hxs hys
    exact ⟨z, fun p hp => by rw [evalShare, hx p hp, hy p hp]; exact hz p hp, hzs⟩
  | neg e ih =>
    obtain ⟨x, hx, hxs⟩ := ih he
    exact ⟨_, fun p hp => by rw [evalShare, hx p hp]; rfl, LawfulLinearShare.neg hxs⟩
  | addConst e c ih =>
    obtain ⟨x, hx, hxs⟩ := ih he.1
    exact ⟨_, fun p hp => by rw [evalShare, hx p hp]; rfl, LawfulLinearShare.addConst hxs he.2⟩
  | subConst e c ih =>
    obtain ⟨x, hx, hxs⟩ := ih he.1
    exact ⟨_, fun p hp => by rw [evalShare, hx p hp]; rfl, LawfulLinearShare.subConst hxs he.2⟩
  | mulConst e c ih =>
    obtain ⟨x, hx, hxs⟩ := ih he.1
    exact ⟨_, fun p hp => by rw [evalShare, hx p hp]; rfl, LawfulLinearShare.mulConst hxs he.2⟩

end

/-- Additive sharings of the secrets can be dealt; the values of `e` at the parties keep the party and
the leader flag, and together give its value on the secrets. -/
def HomomorphicAdditive {T : Type} [RingOps T] (checks : Bool) (parties : List PartyId)
    (e : LinearExpr T) (secrets : Nat → T) (rng : Nat → Nat → T) : Prop :=
  ∃ (dealt : Nat → PartyId → AdditiveSS T) (result : PartyId → AdditiveSS T),
    (∀ i, LinearShare.sharesFromSecret checks (secrets i) parties () (rng i) =
      some (.ok (parties.map (dealt i)))) ∧
    (∀ p ∈ parties, e.evalShare checks (fun i => dealt i p) = some (result p) ∧
      ∀ i, (result p).party = (dealt i p).party ∧ (result p).isLeader = (dealt i p).isLeader) ∧
    LinearShare.secretFromShares checks (parties.map result) parties =
      some (.ok (e.evalSecret secrets))

/-- Shamir sharings of the secrets can be dealt; the values of `e` at the parties keep the degree, and
any `degree + 1` of them give its value on the secrets. -/
def HomomorphicShamir {F : Type} [DecidableEq F] [FieldOps F] [FromU64 F] (checks : Bool)
    (parties : List PartyId) (degree : Nat) (e : LinearExpr F) (secrets : Nat → F)
    (rng : Nat → Nat → F) : Prop :=
  ∃ (dealt : Nat → PartyId → ShamirSS F) (result : PartyId → ShamirSS F),
    (∀ i, LinearShare.sharesFromSecret checks (secrets i) parties degree (rng i) =
      some (.ok (parties.map (dealt i)))) ∧
    (∀ p ∈ parties, e.evalShare checks (fun i => dealt i p) = some (result p) ∧
      (result p).degree = degree ∧ ∀ i, (dealt i p).degree = degree) ∧
    ∀ picked : List PartyId, picked.Subperm parties → degree < picked.length →
      LinearShare.secretFromShares checks (picked.map result) picked =
        some (.ok (e.evalSecret secrets))

/-- **Local linear operations are homomorphic** in both schemes. -/
theorem evalShare_homomorphic {T K : Type} [RingOps T] [CommRing K] [LawfulRing T K] {F L : Type}
    [DecidableEq F] [FieldOps F] [FromU64 F] [Field L] [LawfulField F L] [LawfulFromU64 F]
    {checks : Bool} {parties : List PartyId} (hne : parties ≠ []) (hnodup : parties.Nodup) :
    (∀ (e : LinearExpr T) (secrets : Nat → T) (rng : Nat → Nat → T), e.ValidConstants →
      (∀ i, Valid (secrets i)) → (∀ i j, Valid (rng i j)) →
      HomomorphicAdditive checks parties e secrets rng) ∧
    ∀ (e : LinearExpr F) (secrets : Nat → F) (rng : Nat → Nat → F) (degree : Nat),
      e.ValidConstants → (∀ i, Valid (secrets i)) → (∀ i j, Valid (rng i j)) →
      degree < parties.length → parties.length < 2 ^ 64 → ShamirSS.DistinctPoints F checks parties →
      HomomorphicShamir checks parties degree e secrets rng := by
  constructor
  · intro e secrets rng he hsecrets hrng
    have hadmits : LawfulLinearShare.Admits (S := AdditiveSS T) checks parties () := ⟨hne, hnodup⟩
    choose dealt hdeal hdealt using fun i => LawfulLinearShare.deal hadmits (hsecrets i) (hrng i)
    obtain ⟨result, hresult, hsharing⟩ := evalShare_isSharing hdealt he
    refine ⟨dealt, result, hdeal, fun p hp => ⟨hresult p hp, fun i => ?_⟩,
      LawfulLinearShare.secretFromShares_perm hsharing (.refl _)⟩
    have hbelongs := AdditiveSS.IsSharing.belongs hsharing p hp
    have hdealt := AdditiveSS.IsSharing.belongs (hdealt i) p hp
    exact ⟨hbelongs.party.trans hdealt.party.symm, hbelongs.isLeader.trans hdealt.isLeader.symm⟩
  · intro e secrets rng degree he hsecrets hrng hdegree hlength hpoints
    have hadmits : LawfulLinearShare.Admits (S := ShamirSS F) checks parties degree :=
      ⟨hdegree, hlength, hpoints⟩
    choose dealt hdeal hdealt using fun i => LawfulLinearShare.deal hadmits (hsecrets i) (hrng i)
    obtain ⟨result, hresult, hsharing⟩ := evalShare_isSharing hdealt he
    have hsharing' : ShamirSS.IsSharing checks parties degree result (e.evalSecret secrets) := hsharing
    refine ⟨dealt, result, hdeal, fun p hp => ⟨hresult p hp, hsharing'.shared.degree hp,
      fun i => (ShamirSS.IsSharing.shared (hdealt i)).degree hp⟩, fun picked hpicked henough => ?_⟩
    obtain ⟨r, hr, hvalid, hval⟩ := hsharing'.shared.secretFromShares hpoints hpicked henough (by omega)
    rw [hr, LawfulRing.val_inj hvalid hsharing'.valid hval]

theorem evalShare_homomorphic_three :
    HomomorphicAdditive true [4, 0, 2]
        (.mulConst (.sub (.addConst (.var 0) ⟨9⟩) (.neg (.var 1))) (⟨3⟩ : Mersenne61))
        (fun _ => ⟨5⟩) (fun _ _ => ⟨7⟩) ∧
      HomomorphicShamir true [4, 0, 2] 1
        (.mulConst (.sub (.addConst (.var 0) ⟨9⟩) (.neg (.var 1))) (⟨3⟩ : Mersenne61))
        (fun _ => ⟨5⟩) (fun _ _ => ⟨7⟩) := by
  have hvalid : ∀ n < mersenneModulus, n < 2 ^ 64 → Valid (⟨UInt64.ofNat n⟩ : Mersenne61) := by
    intro n hn hn'
    change (UInt64.ofNat n).toNat < _
    rwa [UInt64.toNat_ofNat', Nat.mod_eq_of_lt hn']
  have hsecrets : ∀ _ : Nat, Valid (⟨5⟩ : Mersenne61) := fun _ => hvalid 5 (by decide) (by decide)
  have hrng : ∀ _ _ : Nat, Valid (⟨7⟩ : Mersenne61) := fun _ _ => hvalid 7 (by decide) (by decide)
  have hthree := hvalid 3 (by decide) (by decide)
  have hnine := hvalid 9 (by decide) (by decide)
  constructor
  · exact (evalShare_homomorphic (T := Mersenne61) (F := Mersenne61) (by decide) (by decide)).1 _ _ _
      ⟨⟨⟨trivial, hnine⟩, trivial⟩, hthree⟩ hsecrets hrng
  · exact (evalShare_homomorphic (T := Mersenne61) (F := Mersenne61) (by decide) (by decide)).2 _ _ _ 1
      ⟨⟨⟨trivial, hnine⟩, trivial⟩, hthree⟩ hsecrets hrng (by decide) (by decide)
      ⟨[4, 0, 2].map fun p => FromU64.fromU64 (p + 1), rfl, by decide +kernel⟩

/-- Two parties whose numbers differ by the modulus have one point, and cannot reconstruct. -/
theorem colliding_points :
    [0, mersenneModulus].Nodup ∧ ¬ HomomorphicShamir true [0, mersenneModulus] 1
      (.var 0 : LinearExpr Mersenne61) (fun _ => ⟨5⟩) (fun _ _ => ⟨7⟩) := by
  refine ⟨by decide, ?_⟩
  rintro ⟨-, result, -, -, hopen⟩
  exact ShamirSS.secretFromShares_ne_ok rfl (by decide +kernel) _ (hopen _ (.refl _) (by decide))

end LinearExpr

end SclRs
