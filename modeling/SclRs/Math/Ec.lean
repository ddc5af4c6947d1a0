import SclRs.Math.Ec.Secp256k1

/-!
# The trait `EllipticCurve`
-/

namespace SclRs

/-- `EllipticCurve`: curves with points `C` and scalars `S`; `eq` is `PartialEq`. -/
class EllipticCurve (C : Type) (S : outParam Type) where
  zero : C
  gen : C
  add : C → C → C
  sub : C → C → C
  scalarMul : C → S → Option C
  negate : C → C
  isOnCurve : C → Option Bool
  eq : C → C → Bool

instance [CryptoBigint] : EllipticCurve Secp256k1 Secp256k1ScalarField where
  zero := Secp256k1.pointAtInfinity
  gen := Secp256k1.gen
  add := Secp256k1.add
  sub := Secp256k1.sub
  scalarMul := Secp256k1.scalarMul
  negate := Secp256k1.negate
  isOnCurve := Secp256k1.isOnCurve
  eq := Secp256k1.eq

end SclRs
