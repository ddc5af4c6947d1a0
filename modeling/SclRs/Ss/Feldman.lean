import SclRs.Math.Ec
import SclRs.Ss.Shamir

/-!
# Feldman secret sharing

`ss/feldman.rs`, over any curve: a Shamir share travels with its dealer's commitments to the
coefficients, and `is_valid` checks it against them.
-/

namespace SclRs

open RingOps

structure FeldmanSS (C S : Type) where
  shamirShare : ShamirSS S
  commitments : List C
deriving DecidableEq

namespace FeldmanSS

variable {C S : Type} [EllipticCurve C S]

/-- `commitments.iter().all(|c| c.is_on_curve())`. -/
def allOnCurve : List C → Option Bool
  | [] => some true
  | c :: commitments => do if ← EllipticCurve.isOnCurve c then allOnCurve commitments else some false

/-- One turn of the loop of `is_valid`, for the commitment at `exp`. -/
def accumulate [RingOps S] (owner : S) (innerProd : C) : C × Nat → Option C
  | (commitment, exp) => do
    return EllipticCurve.add innerProd (← EllipticCurve.scalarMul commitment (pow owner exp))

def isValid [RingOps S] (checks : Bool) (share : FeldmanSS C S) (owner : S) : Option Bool := do
  let len ← usizeAdd checks share.shamirShare.degree 1
  if share.commitments.length ≠ len then return false
  else
    if !(← allOnCurve share.commitments) then return false
    else
      let innerProd ← share.commitments.zipIdx.foldlM (accumulate owner) EllipticCurve.zero
      return EllipticCurve.eq innerProd
        (← EllipticCurve.scalarMul EllipticCurve.gen share.shamirShare.share)

/-- `shares_from_secret`; `rng i` is the `i`-th random element. -/
def sharesFromSecret [RingOps S] (checks : Bool) (secret : S) (degree : Nat)
    (partyIndexes : List S) (rng : Nat → S) : Option (List (FeldmanSS C S)) := do
  let (shamirShares, polynomial) ←
    ShamirSS.sharesFromSecret checks secret degree partyIndexes rng
  let commitments ← polynomial.coefficients.mapM fun coeff =>
    EllipticCurve.scalarMul EllipticCurve.gen coeff
  return shamirShares.map fun ss => ⟨ss, commitments⟩

section
variable [DecidableEq S] [FieldOps S]

/-- The loop of `secret_from_shares` that validates the shares. -/
def validateShares (checks : Bool) : List (FeldmanSS C S × S) → Option (Except (ShareError S) Unit)
  | [] => some (.ok ())
  | (share, partyIdx) :: rest => do
    if !(← share.isValid checks partyIdx) then return .error (.invalidShare partyIdx)
    else validateShares checks rest

def secretFromShares (checks : Bool) (shares : List (FeldmanSS C S)) (partyIndexes : List S) :
    Option (Except (ShareError S) S) :=
  if shares.length ≠ partyIndexes.length then
    some (.error (.lengthMismatch partyIndexes.length shares.length))
  else do
    match ← validateShares checks (shares.zip partyIndexes) with
    | .error e => return .error e
    | .ok () => ShamirSS.secretFromShares checks (shares.map shamirShare) partyIndexes

end

end FeldmanSS

end SclRs
