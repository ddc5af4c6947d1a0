import SclRs.Math.Field.Unreduced
import SclRs.Math.Matrix.Algebra

/-!
# Products of matrices over any representation

The products of `math/matrix.rs` with the operations that a build has. They add up products, which are reduced
whatever the elements are, so that no sum panics and the results are those of `mulVector`, `mulMatrix` and
`mulScalar` on all elements.
-/

namespace SclRs.Matrix

open FieldApi

variable {T Inner : Type} [FieldApi T Inner]

section
variable (checks : Bool)

/-- The loop of `Mul<&Vector>` for row `i`. -/
def checkedMulVectorRow (m : Matrix T) (rhs : List T) (i : Nat) : Option T :=
  (List.range m.columns).foldlM (fun sum j => do
    add checks sum (← mul checks (← m.elements[m.columns * i + j]?) (← rhs[j]?))) zero

/-- `Mul<&Vector>`. -/
def checkedMulVector (m : Matrix T) (rhs : List T) : Option (Except MatrixError (List T)) :=
  if m.columns ≠ rhs.length then some (.error .notCompatible)
  else do return .ok (← (List.range m.rows).mapM (m.checkedMulVectorRow checks rhs))

/-- The loop of `Mul` over `k`, for the entry in row `i` and column `j`. -/
def checkedProductEntry (m rhs : Matrix T) (i j : Nat) : Option T :=
  (List.range m.columns).foldlM (fun sum k => do
    add checks sum (← mul checks (← m.elements[m.columns * i + k]?) (← rhs.elements[rhs.columns * k + j]?))) zero

/-- `Mul`. -/
def checkedMulMatrix (m rhs : Matrix T) : Option (Except MatrixError (Matrix T)) :=
  if m.columns ≠ rhs.rows then some (.error .notCompatible)
  else do
    match ← allocate (T := T) checks m.rows rhs.columns with
    | .error e => return .error e
    | .ok matrix =>
      let elements ← (List.range m.rows).mapM fun i =>
        (List.range rhs.columns).mapM (m.checkedProductEntry checks rhs i)
      return .ok { matrix with elements := elements.flatten }

/-- One turn of the loops of `Mul<&T>`. -/
def checkedMulEntry (rhs : T) (i : Nat) (m : Matrix T) (j : Nat) : Option (Matrix T) := do
  let product ← mul checks (← m.get i j) rhs
  return { m with elements := m.elements.set (← m.getMut i j) product }

/-- `Mul<&T>`. -/
def checkedMulScalar (m : Matrix T) (rhs : T) : Option (Matrix T) :=
  (List.range m.rows).foldlM (fun m' i => (List.range m.rows).foldlM (checkedMulEntry checks rhs i) m') m

end

variable [FieldOps T] [Lawful T] [Wide T] {checks : Bool}

theorem foldlM_checked_sum_products {a b : Nat → Option T} (l : List Nat) {acc : T} (hacc : Reduced acc) :
    l.foldlM (fun sum k => do add checks sum (← mul checks (← a k) (← b k))) acc =
      l.foldlM (fun sum k => do return RingOps.add sum (RingOps.mul (← a k) (← b k))) acc := by
  induction l generalizing acc with
  | nil => rfl
  | cons k l ih =>
    rw [List.foldlM_cons, List.foldlM_cons]
    cases a k with
    | none => rfl
    | some x =>
      cases b k with
      | none => rfl
      | some y =>
        have hmul : Reduced (RingOps.mul x y) := Wide.reduced_mul x y
        have hsum : (mul checks x y).bind (add checks acc) = some (RingOps.add acc (RingOps.mul x y)) := by
          rw [Wide.mul_eq, Option.bind_some, Wide.add_eq checks hacc hmul]
        exact (congrArg (Option.bind · _) hsum).trans (ih (reduced_add hacc hmul))

theorem checkedMulVector_eq (m : Matrix T) (rhs : List T) :
    m.checkedMulVector checks rhs = m.mulVector rhs := by
  have hzero : (zero : T) = RingOps.zero := Wide.zero_eq
  have hrow : m.checkedMulVectorRow checks rhs = m.mulVectorRow rhs := by
    funext i
    rw [checkedMulVectorRow, mulVectorRow, ← hzero]
    exact foldlM_checked_sum_products _ Lawful.zero
  rw [checkedMulVector, mulVector, hrow]

theorem checkedMulMatrix_eq (m rhs : Matrix T) :
    m.checkedMulMatrix checks rhs = m.mulMatrix checks rhs := by
  have hzero : (zero : T) = RingOps.zero := Wide.zero_eq
  have hentry : m.checkedProductEntry checks rhs = m.productEntry rhs := by
    funext i j
    rw [checkedProductEntry, productEntry, ← hzero]
    exact foldlM_checked_sum_products _ Lawful.zero
  rw [checkedMulMatrix, hentry]
  rfl

omit [Lawful T] in
theorem checkedMulScalar_eq (m : Matrix T) (rhs : T) : m.checkedMulScalar checks rhs = m.mulScalar rhs := by
  have hentry : ∀ i, checkedMulEntry checks rhs i = mulEntry rhs i := by
    intro i
    funext m j
    rw [checkedMulEntry, mulEntry]
    cases m.get i j with
    | none => rfl
    | some x => simp only [Option.bind_eq_bind, Option.bind_some, Wide.mul_eq]
  simp only [checkedMulScalar, mulScalar, hentry]

end SclRs.Matrix
