import SclRs.Math.Field.Canonical
import SclRs.Ss.FeldmanDealing

/-!
# Points and Feldman shares on the wire

Encoding is derived and writes the coordinates of any point; decoding goes through `try_from`. Every
point that the curve's operations produce represents a point of the group, so that it decodes exactly
if it is not the point at infinity; a dealing has such a commitment for every coefficient that is zero
modulo `n` (`wire_roundtrip_iff`).
-/

namespace SclRs

open ModUint Secp256k1

abbrev Coordinates := Secp256k1PrimeField × Secp256k1PrimeField × Secp256k1PrimeField

/-- What a Feldman share is on the wire: share, degree and commitments. -/
abbrev FeldmanFields := Secp256k1ScalarField × Nat × List Coordinates

namespace Secp256k1

def coordinates (p : Secp256k1) : Coordinates := (p.x, p.y, p.z)

/-- The derived `Serialize`. -/
def serialize (codec : Postcard Coordinates) (p : Secp256k1) : List UInt8 :=
  codec.toAllocvec p.coordinates

/-- The derived `Deserialize`, with its `try_from`. -/
def deserialize [CryptoBigint] (codec : Postcard Coordinates) (bytes : List UInt8) :
    Option Secp256k1 := do
  let value ← codec.fromBytes bytes
  (tryFrom value).toOption

/-- The results of the operations of the curve, from its constants and from reduced coordinates that
`try_from` accepts. -/
inductive Produced [CryptoBigint] : Secp256k1 → Prop
  | pointAtInfinity : Produced pointAtInfinity
  | gen : Produced gen
  | tryFrom {p : Secp256k1} : p.Canonical → tryFrom p.coordinates = .ok p → Produced p
  | dbl {p : Secp256k1} : Produced p → Produced p.dbl
  | add {p q : Secp256k1} : Produced p → Produced q → Produced (p.add q)
  | sub {p q : Secp256k1} : Produced p → Produced q → Produced (p.sub q)
  | negate {p : Secp256k1} : Produced p → Produced p.negate
  | scalarMul {p r : Secp256k1} {k : Secp256k1ScalarField} :
      Produced p → p.scalarMul k = some r → Produced r

end Secp256k1

namespace FeldmanSS

/-- The derived `PartialEq`. -/
def eq {C S : Type} [EllipticCurve C S] [DecidableEq S] (a b : FeldmanSS C S) : Bool :=
  decide (a.shamirShare = b.shamirShare) && a.commitments.length == b.commitments.length &&
    (a.commitments.zip b.commitments).all fun (p, q) => EllipticCurve.eq p q

def serialize (codec : Postcard FeldmanFields) (share : FeldmanSS Secp256k1 Secp256k1ScalarField) :
    List UInt8 :=
  codec.toAllocvec (share.shamirShare.share, share.shamirShare.degree,
    share.commitments.map coordinates)

def deserialize [CryptoBigint] (codec : Postcard FeldmanFields) (bytes : List UInt8) :
    Option (FeldmanSS Secp256k1 Secp256k1ScalarField) := do
  let (share, degree, values) ← codec.fromBytes bytes
  let commitments ← values.mapM fun value => (tryFrom value).toOption
  return ⟨⟨share, degree⟩, commitments⟩

end FeldmanSS

section
variable [CryptoBigint] {p : Secp256k1} {A : Point}

theorem Secp256k1.Produced.represents (h : Produced p) : ∃ A, p.Represents A := by
  induction h with
  | pointAtInfinity => exact ⟨0, represents_pointAtInfinity⟩
  | gen => exact ⟨genPoint, gen_represents⟩
  | tryFrom hcanonical hok =>
    obtain ⟨-, hne, hequation⟩ := tryFrom_eq_ok.mp hok
    refine Valid.exists_represents ⟨hcanonical, hequation, fun h0 => hne ?_⟩
    exact congrArg ModUint.mk (hcanonical.2.2.toZMod_eq_zero.mp h0.2.2)
  | dbl _ ih =>
    obtain ⟨A, hA⟩ := ih
    exact ⟨_, hA.dbl⟩
  | add _ _ ihp ihq =>
    obtain ⟨A, hA⟩ := ihp
    obtain ⟨B, hB⟩ := ihq
    exact ⟨_, hA.add hB⟩
  | sub _ _ ihp ihq =>
    obtain ⟨A, hA⟩ := ihp
    obtain ⟨B, hB⟩ := ihq
    exact ⟨_, hA.sub hB⟩
  | negate _ ih =>
    obtain ⟨A, hA⟩ := ih
    exact ⟨_, hA.negate⟩
  | @scalarMul p r k _ hr ih =>
    obtain ⟨A, hA⟩ := ih
    by_cases hk : k = scalarMax
    · by_cases hinf : p.isPointAtInfinity = true
      · rw [Secp256k1.scalarMul, if_pos hinf] at hr
        exact Option.some.inj hr ▸ ⟨0, represents_pointAtInfinity⟩
      · rw [scalarMul_eq_none.mpr ⟨by simpa using hinf, hk⟩] at hr
        cases hr
    · obtain ⟨r', hr', hrep⟩ := hA.scalarMul hk
      exact Option.some.inj (hr'.symm.trans hr) ▸ ⟨_, hrep⟩

theorem Secp256k1.Represents.tryFrom (h : p.Represents A) :
    (tryFrom p.coordinates).toOption = if p.isPointAtInfinity = false then some p else none := by
  split_ifs with hinf
  · have hz : p.z ≠ zero := of_decide_eq_false hinf
    have hok : Secp256k1.tryFrom p.coordinates = .ok p :=
      tryFrom_eq_ok.mpr ⟨rfl, hz, h.2.onCurve.1⟩
    rw [hok]
    rfl
  · have hz : p.z = zero := of_decide_eq_true (Bool.not_eq_false _ ▸ hinf)
    have herror : Secp256k1.tryFrom p.coordinates = .error .zeroZCoordinate := if_pos hz
    rw [herror]
    rfl

theorem mapM_tryFrom {points : List Secp256k1} (h : ∀ p ∈ points, ∃ A, p.Represents A) :
    (points.map coordinates).mapM (fun value => (tryFrom value).toOption) =
      if ∀ p ∈ points, p.isPointAtInfinity = false then some points else none := by
  induction points with
  | nil => rfl
  | cons p points ih =>
    obtain ⟨⟨A, hA⟩, hrest⟩ := List.forall_mem_cons.mp h
    rw [List.map_cons, List.mapM_cons, hA.tryFrom, ih hrest]
    simp only [List.forall_mem_cons, ite_and]
    split_ifs <;> rfl

theorem Secp256k1.eq_self (p : Secp256k1) : p.eq p = true := by simp [Secp256k1.eq]

theorem FeldmanSS.eq_self (share : FeldmanSS Secp256k1 Secp256k1ScalarField) :
    share.eq share = true := by
  have hpoints : ∀ points : List Secp256k1,
      (points.zip points).all (fun (p, q) => EllipticCurve.eq p q) = true := by
    intro points
    induction points with
    | nil => rfl
    | cons p points ih =>
      rw [List.zip_cons_cons, List.all_cons, ih, Bool.and_true]
      exact p.eq_self
  simp [FeldmanSS.eq, hpoints]

omit [CryptoBigint] in
theorem FeldmanSS.CommitsTo.isPointAtInfinity {coefficients : List Secp256k1ScalarField}
    {commitments : List Secp256k1} (h : CommitsTo coefficients commitments) :
    (∀ p ∈ commitments, p.isPointAtInfinity = false) ↔ ∀ c ∈ coefficients, c.toZMod ≠ 0 := by
  induction h with
  | nil => simp
  | @cons c P _ _ hP _ ih =>
    rw [List.forall_mem_cons, List.forall_mem_cons, ih, ← Bool.not_eq_true, hP.isPointAtInfinity,
      nsmul_gen_eq_zero]
    rfl

/-- **What survives the wire.** A point that the curve's operations produce decodes from its encoding,
equal, exactly when it is not infinity; the shares of a dealing do exactly when there are none or no
coefficient is zero modulo `n`. -/
theorem wire_roundtrip_iff (pointCodec : Postcard Coordinates) (shareCodec : Postcard FeldmanFields) :
    (∀ p : Secp256k1, Produced p →
      ((∃ q, deserialize pointCodec (p.serialize pointCodec) = some q ∧ q.eq p = true) ↔
        p.isPointAtInfinity = false)) ∧
    ∀ checks secret degree indexes rng (dealt : List (FeldmanSS Secp256k1 Secp256k1ScalarField)),
      FeldmanSS.sharesFromSecret checks secret degree indexes rng = some dealt →
      ∃ shamirShares, ∃ polynomial : Polynomial Secp256k1ScalarField,
        ShamirSS.sharesFromSecret checks secret degree indexes rng =
          some (shamirShares, polynomial) ∧
        ((∀ share ∈ dealt, ∃ share', FeldmanSS.deserialize shareCodec (share.serialize shareCodec) =
            some share' ∧ share'.eq share = true) ↔
          indexes = [] ∨ ∀ c ∈ polynomial.coefficients, c.toZMod ≠ 0) := by
  constructor
  · intro p hp
    obtain ⟨A, hA⟩ := hp.represents
    rw [serialize, deserialize, pointCodec.fromBytes_toAllocvec, Option.bind_eq_bind,
      Option.bind_some, hA.tryFrom]
    by_cases hinf : p.isPointAtInfinity = false
    · exact iff_of_true ⟨p, if_pos hinf, p.eq_self⟩ hinf
    · refine iff_of_false ?_ hinf
      rintro ⟨q, hq, -⟩
      rw [if_neg hinf] at hq
      cases hq
  · intro checks secret degree indexes rng dealt hdeal
    obtain ⟨shamirShares, polynomial, commitments, hshamir, hcommitments, rfl⟩ :=
      FeldmanSS.sharesFromSecret_eq_some hdeal
    obtain ⟨-, -, -, hshares⟩ := ShamirSS.sharesFromSecret_eq_some hshamir
    refine ⟨shamirShares, polynomial, hshamir, ?_⟩
    have hcommit := FeldmanSS.commitsTo_of_scalarMul hcommitments
    have hrepresents : ∀ P ∈ commitments, ∃ A, P.Represents A := by
      have hflip : List.Forall₂ (fun P c => (∃ A, P.Represents A) ∧ True) commitments
          polynomial.coefficients := (hcommit.imp fun c P hP => ⟨⟨_, hP⟩, trivial⟩).flip
      exact ((List.forall₂_and_left _ _).mp hflip).1
    have hdecode : ∀ ss, FeldmanSS.deserialize shareCodec
        (FeldmanSS.serialize shareCodec ⟨ss, commitments⟩) =
          if ∀ c ∈ polynomial.coefficients, c.toZMod ≠ 0 then some ⟨ss, commitments⟩ else none := by
      intro ss
      rw [FeldmanSS.serialize, FeldmanSS.deserialize, shareCodec.fromBytes_toAllocvec]
      simp only [Option.bind_eq_bind, Option.bind_some, mapM_tryFrom hrepresents,
        hcommit.isPointAtInfinity]
      split_ifs <;> rfl
    have hnil : indexes = [] ↔ shamirShares = [] := by
      rw [← List.length_eq_zero_iff, ← List.length_eq_zero_iff, hshares.length_eq]
    rw [List.forall_mem_map, hnil]
    by_cases hzero : ∀ c ∈ polynomial.coefficients, c.toZMod ≠ 0
    · refine iff_of_true (fun ss _ => ⟨_, (hdecode ss).trans (if_pos hzero), ?_⟩) (.inr hzero)
      exact FeldmanSS.eq_self _
    · rw [or_iff_left hzero]
      constructor
      · intro hall
        rw [List.eq_nil_iff_forall_not_mem]
        intro ss hss
        obtain ⟨share', hshare', -⟩ := hall ss hss
        rw [hdecode, if_neg hzero] at hshare'
        cases hshare'
      · rintro rfl
        simp

end

def coordinatesCodec : Lib.Codec Coordinates :=
  (fieldCodec _).prod ((fieldCodec _).prod (fieldCodec _))

def feldmanCodec : Lib.Codec FeldmanFields :=
  (fieldCodec _).prod (Lib.Codec.varint.prod coordinatesCodec.list)

section
attribute [local instance] CryptoBigint.reference

theorem dealt_zero :
    FeldmanSS.sharesFromSecret true (zero : Secp256k1ScalarField) 0 [one] (fun _ => one) =
      some [⟨⟨zero, 0⟩, [pointAtInfinity]⟩] := by
  decide +kernel

/-- The point at infinity does not decode, nor does a share of the secret zero. -/
theorem wire_roundtrip_infinity :
    deserialize (.ofCodec coordinatesCodec) (pointAtInfinity.serialize (.ofCodec coordinatesCodec)) =
        none ∧
      ∃ share, FeldmanSS.sharesFromSecret true zero 0 [one] (fun _ => one) = some [share] ∧
        FeldmanSS.deserialize (.ofCodec feldmanCodec) (share.serialize (.ofCodec feldmanCodec)) =
          none := by
  refine ⟨?_, _, dealt_zero, ?_⟩
  · rw [serialize, deserialize, Postcard.fromBytes_toAllocvec]
    decide
  · rw [FeldmanSS.serialize, FeldmanSS.deserialize, Postcard.fromBytes_toAllocvec]
    decide

/-- At the generator and at the dealing of zero, with the bytes that `postcard` writes. -/
theorem wire_roundtrip_iff_gen :
    ((∃ q, deserialize (.ofCodec coordinatesCodec) (gen.serialize (.ofCodec coordinatesCodec)) =
        some q ∧ q.eq gen = true) ↔ gen.isPointAtInfinity = false) ∧
      ∃ shamirShares, ∃ polynomial : Polynomial Secp256k1ScalarField,
        ShamirSS.sharesFromSecret true zero 0 [one] (fun _ => one) =
          some (shamirShares, polynomial) ∧
        ((∀ share ∈ [(⟨⟨zero, 0⟩, [pointAtInfinity]⟩ : FeldmanSS Secp256k1 Secp256k1ScalarField)],
          ∃ share', FeldmanSS.deserialize (.ofCodec feldmanCodec)
            (share.serialize (.ofCodec feldmanCodec)) = some share' ∧ share'.eq share = true) ↔
          [(one : Secp256k1ScalarField)] = [] ∨ ∀ c ∈ polynomial.coefficients, c.toZMod ≠ 0) := by
  obtain ⟨hpoints, hdealings⟩ :=
    wire_roundtrip_iff (.ofCodec coordinatesCodec) (.ofCodec feldmanCodec)
  exact ⟨hpoints gen .gen, hdealings _ _ _ _ _ _ dealt_zero⟩

end

end SclRs
