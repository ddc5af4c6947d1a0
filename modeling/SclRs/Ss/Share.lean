import SclRs.Math.Poly
import SclRs.Net.Packet

/-!
# Shares

`ShareError` and the trait `LinearShare`. `checks` says whether the build has overflow checks and debug
assertions, and `rng i` is the `i`-th random element that the generator gives.
-/

namespace SclRs

open LawfulRing (Valid)

/-- The `ShareError`s that the modelled functions return. -/
inductive ShareError (T : Type)
  | notEnoughShares
  | sharesWithDifferentDegree
  | reconstructionError (error : PolyError T)
  | evalAndShareLenMismatch (nEvalPoints nShares : Nat)
  | lengthMismatch (partiesIdxLen sharesLen : Nat)
  | invalidShare (partyIdx : T)
  | invalidThreshold (threshold nParties : Nat)
deriving DecidableEq

def debugAssert (checks condition : Bool) : Option Unit := if checks && !condition then none else some ()

/-- `LinearShare`: `none` stands for a panic. -/
class LinearShare (S : Type) (V Threshold : outParam Type) where
  add (checks : Bool) (x y : S) : Option S
  sub (checks : Bool) (x y : S) : Option S
  neg (x : S) : S
  addConst (x : S) (c : V) : S
  subConst (x : S) (c : V) : S
  mulConst (x : S) (c : V) : S
  encodeParty (checks : Bool) (party : PartyId) : Option V
  sharesFromSecret (checks : Bool) (secret : V) (parties : List PartyId) (threshold : Threshold)
    (rng : Nat → V) : Option (Except (ShareError V) (List S))
  secretFromShares (checks : Bool) (shares : List S) (parties : List PartyId) :
    Option (Except (ShareError V) V)

/-- A scheme whose dealings are sharings, whose local operations are those of the secrets, and whose
shares give the secret back in any order. `IsSharing checks parties threshold shares secret` says that
`shares` are the shares of `secret` that `parties` hold. -/
class LawfulLinearShare (S : Type) {V Threshold K : outParam Type} [LinearShare S V Threshold]
    [RingOps V] [CommRing K] [LawfulRing V K] where
  Admits (checks : Bool) (parties : List PartyId) (threshold : Threshold) : Prop
  IsSharing (checks : Bool) (parties : List PartyId) (threshold : Threshold) (shares : PartyId → S)
    (secret : V) : Prop
  deal {checks : Bool} {parties : List PartyId} {threshold : Threshold} {secret : V}
    {rng : Nat → V} : Admits checks parties threshold → Valid secret → (∀ i, Valid (rng i)) →
    ∃ shares : PartyId → S, LinearShare.sharesFromSecret checks secret parties threshold rng =
      some (.ok (parties.map shares)) ∧ IsSharing checks parties threshold shares secret
  add {checks : Bool} {parties : List PartyId} {threshold : Threshold} {x y : PartyId → S} {a b : V} :
    IsSharing checks parties threshold x a → IsSharing checks parties threshold y b →
    ∃ z : PartyId → S, (∀ p ∈ parties, LinearShare.add checks (x p) (y p) = some (z p)) ∧
      IsSharing checks parties threshold z (RingOps.add a b)
  sub {checks : Bool} {parties : List PartyId} {threshold : Threshold} {x y : PartyId → S} {a b : V} :
    IsSharing checks parties threshold x a → IsSharing checks parties threshold y b →
    ∃ z : PartyId → S, (∀ p ∈ parties, LinearShare.sub checks (x p) (y p) = some (z p)) ∧
      IsSharing checks parties threshold z (RingOps.sub a b)
  neg {checks : Bool} {parties : List PartyId} {threshold : Threshold} {x : PartyId → S} {a : V} :
    IsSharing checks parties threshold x a →
    IsSharing checks parties threshold (fun p => LinearShare.neg (x p)) (RingOps.negate a)
  addConst {checks : Bool} {parties : List PartyId} {threshold : Threshold} {x : PartyId → S}
    {a c : V} : IsSharing checks parties threshold x a → Valid c →
    IsSharing checks parties threshold (fun p => LinearShare.addConst (x p) c) (RingOps.add a c)
  subConst {checks : Bool} {parties : List PartyId} {threshold : Threshold} {x : PartyId → S}
    {a c : V} : IsSharing checks parties threshold x a → Valid c →
    IsSharing checks parties threshold (fun p => LinearShare.subConst (x p) c) (RingOps.sub a c)
  mulConst {checks : Bool} {parties : List PartyId} {threshold : Threshold} {x : PartyId → S}
    {a c : V} : IsSharing checks parties threshold x a → Valid c →
    IsSharing checks parties threshold (fun p => LinearShare.mulConst (x p) c) (RingOps.mul a c)
  secretFromShares_perm {checks : Bool} {parties senders : List PartyId} {threshold : Threshold}
    {shares : PartyId → S} {secret : V} : IsSharing checks parties threshold shares secret →
    senders.Perm parties →
    LinearShare.secretFromShares checks (senders.map shares) senders = some (.ok secret)

theorem zip_map_self {α β : Type} (l : List α) (f : α → β) :
    l.zip (l.map f) = l.map fun a => (a, f a) := by
  conv_lhs => rw [← List.map_id l, List.map_map]
  exact List.zip_map'

theorem exists_eq_map {α β : Type} {l : List α} (hnodup : l.Nodup) {bs : List β}
    (hlen : l.length = bs.length) (b : β) : ∃ f : α → β, bs = l.map f := by
  classical
  refine ⟨fun a => bs.getD (l.idxOf a) b, List.ext_getElem (by simp [hlen]) fun i hi hi' => ?_⟩
  rw [List.getElem_map, List.getD_eq_getElem _ _ (by rw [hnodup.idxOf_getElem]; exact hi)]
  simp only [hnodup.idxOf_getElem]

/-! ### Sums of shares -/

/-- `reduce` with `+` over shares, and its `expect`. -/
def sumShares {S V Threshold : Type} [LinearShare S V Threshold] (checks : Bool) : List S → Option S
  | [] => none
  | share :: shares => shares.foldlM (LinearShare.add checks) share

end SclRs
