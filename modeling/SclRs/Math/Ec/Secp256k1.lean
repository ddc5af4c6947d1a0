import SclRs.Math.Field.Naf

/-!
# secp256k1

Points in projective coordinates, as `math/ec/secp256k1.rs` computes with them. `none` stands for a
panic: of the assertion and the unwrap in `to_affine`, and of an overflow in `to_naf`.
-/

namespace SclRs

open ModUint

/-- `Secp256k1`: a point in projective coordinates. -/
structure Secp256k1 where
  x : Secp256k1PrimeField
  y : Secp256k1PrimeField
  z : Secp256k1PrimeField
deriving DecidableEq

inductive Secp256k1Error
  | invalidPoint (x y z : Secp256k1PrimeField)
  | zeroZCoordinate
deriving DecidableEq

structure AffinePoint where
  x : Secp256k1PrimeField
  y : Secp256k1PrimeField

def AffinePoint.isValid [CryptoBigint] (p : AffinePoint) : Bool :=
  let b : Secp256k1PrimeField := .fromU64 7
  let lhs := p.y * p.y
  let rhs := p.x * p.x * p.x + b
  decide (lhs = rhs)

namespace Secp256k1

def pointAtInfinity : Secp256k1 := ⟨zero, one, zero⟩

def gen : Secp256k1 where
  x := .new 0x79be667ef9dcbbac55a06295ce870b07029bfcdb2dce28d959f2815b16f81798
  y := .new 0x483ada7726a3c4655da4fbfc0e1108a8fd17b448a68554199c47d08ffb10d4b8
  z := one

variable [CryptoBigint] (p q : Secp256k1)

/-- `TryFrom`, the path of deserialization. -/
def tryFrom (value : Secp256k1PrimeField × Secp256k1PrimeField × Secp256k1PrimeField) :
    Except Secp256k1Error Secp256k1 :=
  let (x, y, z) := value
  if z = zero then .error .zeroZCoordinate
  else
    let b : Secp256k1PrimeField := .fromU64 7
    let lhs := y * y * z
    let rhs := x * x * x + b * (z * (z * z))
    if lhs = rhs then .ok ⟨x, y, z⟩ else .error (.invalidPoint x y z)

def isPointAtInfinity : Bool := decide (p.z = zero)

def toAffine : Option AffinePoint :=
  if p.z = one then some ⟨p.x, p.y⟩
  else if p.z = zero then none
  else
    match p.z.inverse with
    | some (.ok z) => some ⟨p.x * z, p.y * z⟩
    | some (.error _) => none
    | none => none

def isOnCurve : Option Bool :=
  if p.isPointAtInfinity then some true
  else p.toAffine.map AffinePoint.isValid

def dbl : Secp256k1 :=
  let b3 : Secp256k1PrimeField := .fromU64 (3 * 7)
  let t0 := p.y * p.y
  let z3 := t0 + t0
  let z3 := z3 + z3
  let z3 := z3 + z3
  let t1 := p.y * p.z
  let t2 := p.z * p.z
  let t2 := b3 * t2
  let x3 := t2 * z3
  let y3 := t0 + t2
  let z3 := t1 * z3
  let t1 := t2 + t2
  let t2 := t1 + t2
  let t0 := t0 - t2
  let y3 := t0 * y3
  let y3 := x3 + y3
  let t1 := p.x * p.y
  let x3 := t0 * t1
  let x3 := x3 + x3
  ⟨x3, y3, z3⟩

def add : Secp256k1 :=
  let b3 : Secp256k1PrimeField := .fromU64 (3 * 7)
  let x1 := p.x
  let y1 := p.y
  let z1 := p.z
  let x2 := q.x
  let y2 := q.y
  let z2 := q.z
  let t0 := x1 * x2
  let t1 := y1 * y2
  let t2 := z1 * z2
  let t3 := x1 + y1
  let t4 := x2 + y2
  let t3 := t3 * t4
  let t4 := t0 + t1
  let t3 := t3 - t4
  let t4 := y1 + z1
  let x3 := y2 + z2
  let t4 := t4 * x3
  let x3 := t1 + t2
  let t4 := t4 - x3
  let x3 := x1 + z1
  let y3 := x2 + z2
  let x3 := x3 * y3
  let y3 := t0 + t2
  let y3 := x3 - y3
  let x3 := t0 + t0
  let t0 := x3 + t0
  let t2 := b3 * t2
  let z3 := t1 + t2
  let t1 := t1 - t2
  let y3 := b3 * y3
  let x3 := t4 * y3
  let t2 := t3 * t1
  let x3 := t2 - x3
  let y3 := y3 * t0
  let t1 := t1 * z3
  let y3 := t1 + y3
  let t0 := t0 * t3
  let z3 := z3 * t4
  let z3 := z3 + t0
  ⟨x3, y3, z3⟩

def negate : Secp256k1 :=
  if p.y = zero then pointAtInfinity else ⟨p.x, p.y.negate, p.z⟩

def sub : Secp256k1 := p.add q.negate

/-- `PartialEq`. -/
def eq : Bool := decide (p.x * q.z = q.x * p.z) && decide (p.y * q.z = q.y * p.z)

/-- What the loop of `scalar_mul` makes of one digit. -/
def mulDigit (digit : Nat) (result : Secp256k1) : Secp256k1 :=
  let result := result.dbl
  if digit = 1 then result.add p else if digit = 2 then result.sub p else result

/-- `scalar_mul`, over the digits from the last to the first. -/
def scalarMul (scalar : Secp256k1ScalarField) : Option Secp256k1 :=
  if p.isPointAtInfinity then some pointAtInfinity
  else scalar.toNaf.map fun naf => naf.digits.foldr p.mulDigit pointAtInfinity

end Secp256k1

end SclRs
