import SclRs.Math.Field.Unreduced
import SclRs.Math.Poly

/-!
# Polynomials over any representation

`evaluate` and the interpolation of `math/poly.rs` with the operations that a build has, each of which can
panic on elements that are not reduced. On reduced elements they are those of `Poly` (`checkedEvaluate_eq`,
`checkedInterpolatePolynomialAt_eq`). On any others an interpolation at distinct nodes panics, or gives the
Lagrange formula with the differences that its subtractions compute
(`checkedInterpolatePolynomialAt_of_divides`): only they are at fault, as every product is reduced.
-/

open Polynomial

namespace SclRs

open FieldApi Lib.Interpolation

section
variable {F Inner : Type} [FieldApi F Inner] (checks : Bool)

/-- `evaluate`. -/
def Polynomial.checkedEvaluate (p : Polynomial F) (value : F) : Option F :=
  match p.coefficients.reverse with
  | [] => none
  | last :: coeffs =>
    coeffs.foldlM (fun result coeff => do add checks coeff (← mul checks result value)) last

/-- What node `x_m` gives to the basis of node `x_j`. -/
def checkedTerm (x x_j x_m : F) : Option F := do
  let numerator ← sub checks x x_m
  let denominator ← sub checks x_j x_m
  match ← inverse checks denominator with
  | .error _ => none
  | .ok inv => mul checks numerator inv

/-- The `j`-th value of `compute_lagrange_basis`. -/
def checkedLagrangeBasisAt (nodes : List F) (x : F) (j : Nat) (x_j : F) : Option F :=
  nodes.zipIdx.foldlM (fun basis (x_m, m) =>
    if m ≠ j then do mul checks basis (← checkedTerm checks x x_j x_m)
    else some basis) one

variable [DecidableEq F]

/-- `compute_lagrange_basis`. -/
def checkedComputeLagrangeBasis (nodes : List F) (x : F) : Option (Except (PolyError F) (List F)) :=
  if allDifferent nodes = false then some (.error (.notAllDifferentInterpolation nodes))
  else do
    let basis ← nodes.zipIdx.mapM fun (x_j, j) => checkedLagrangeBasisAt checks nodes x j x_j
    return .ok basis

/-- `interpolate_polynomial_at`. -/
def checkedInterpolatePolynomialAt (evaluations alphas : List F) (x : F) :
    Option (Except (PolyError F) F) :=
  if alphas.isEmpty then some (.error .emptyInterpolation)
  else if alphas.length ≠ evaluations.length then
    some (.error (.lengthMismatch alphas.length evaluations.length))
  else do
    match ← checkedComputeLagrangeBasis checks alphas x with
    | .error e => return .error e
    | .ok basis =>
      let interpolation ← (evaluations.zip basis).foldlM (fun acc (eval, basis) => do
        add checks acc (← mul checks eval basis)) zero
      return .ok interpolation

end

/-! ### On reduced elements -/

section
variable {F Inner : Type} [FieldApi F Inner] [FieldOps F] [Lawful F] [Wide F] (checks : Bool)

omit [Lawful F] in
theorem Polynomial.checkedEvaluate_eq {p : Polynomial F} (hp : ∀ c ∈ p.coefficients, Reduced c) (x : F) :
    p.checkedEvaluate checks x = p.evaluate x := by
  have hp : ∀ c ∈ p.coefficients.reverse, Reduced c := fun c hc => hp c (List.mem_reverse.mp hc)
  rw [Polynomial.checkedEvaluate, Polynomial.evaluate]
  generalize p.coefficients.reverse = coefficients at hp
  cases coefficients with
  | nil => rfl
  | cons last coeffs =>
    have hcoeffs := (List.forall_mem_cons.mp hp).2
    clear hp
    induction coeffs generalizing last with
    | nil => rfl
    | cons c coeffs ih =>
      obtain ⟨hc, hcoeffs⟩ := List.forall_mem_cons.mp hcoeffs
      have hturn : (do add checks c (← mul checks last x)) = some (RingOps.add c (RingOps.mul last x)) := by
        simp only [Wide.mul_eq, Option.bind_eq_bind, Option.bind_some,
          Wide.add_eq checks hc (Wide.reduced_mul last x)]
      simp only [List.foldlM_cons, hturn]
      exact ih _ hcoeffs

variable {nodes : List F} {x : F}

theorem checkedLagrangeBasisAt_eq (hnodes : ∀ a ∈ nodes, Reduced a) (hx : Reduced x) (j : Nat) {x_j : F}
    (hx_j : Reduced x_j) : checkedLagrangeBasisAt checks nodes x j x_j = lagrangeBasisAt nodes x j x_j := by
  rw [checkedLagrangeBasisAt, lagrangeBasisAt, Wide.one_eq]
  refine foldlM_congr_left (fun q hq basis => ?_) _
  obtain ⟨x_m, m⟩ := q
  have hx_m := hnodes x_m (List.fst_mem_of_mem_zipIdx hq)
  simp only
  split_ifs
  · rw [checkedTerm, Wide.sub_eq checks hx hx_m, Wide.sub_eq checks hx_j hx_m]
    simp only [Option.bind_eq_bind, Option.bind_some, Wide.inverse_eq checks (reduced_sub hx_j hx_m)]
    rcases FieldOps.inverse (RingOps.sub x_j x_m) with _ | _ | inv
    · rfl
    · rfl
    · simp only [Option.bind_some, Wide.mul_eq]
  · rfl

theorem foldlM_checked_add_mul {l : List (F × F)} {acc : F} (hacc : Reduced acc) :
    l.foldlM (fun acc (eval, basis) => do add checks acc (← mul checks eval basis)) acc =
      some (l.foldl (fun acc (eval, basis) => RingOps.add acc (RingOps.mul eval basis)) acc) := by
  induction l generalizing acc with
  | nil => rfl
  | cons q l ih =>
    obtain ⟨eval, basis⟩ := q
    have hmul : Reduced (RingOps.mul eval basis) := Wide.reduced_mul eval basis
    have hturn : (do add checks acc (← mul checks eval basis)) =
        some (RingOps.add acc (RingOps.mul eval basis)) := by
      simp only [Wide.mul_eq, Option.bind_eq_bind, Option.bind_some, Wide.add_eq checks hacc hmul]
    simp only [List.foldlM_cons, hturn]
    exact ih (reduced_add hacc hmul)

variable [DecidableEq F]

theorem checkedComputeLagrangeBasis_eq (hnodes : ∀ a ∈ nodes, Reduced a) (hx : Reduced x) :
    checkedComputeLagrangeBasis checks nodes x = computeLagrangeBasis nodes x := by
  have hbasis : nodes.zipIdx.mapM (fun (x_j, j) => checkedLagrangeBasisAt checks nodes x j x_j) =
      nodes.zipIdx.mapM fun (x_j, j) => lagrangeBasisAt nodes x j x_j :=
    mapM_congr_left fun q hq =>
      checkedLagrangeBasisAt_eq checks hnodes hx q.2 (hnodes q.1 (List.fst_mem_of_mem_zipIdx hq))
  rw [checkedComputeLagrangeBasis, computeLagrangeBasis, hbasis]

theorem checkedInterpolatePolynomialAt_eq (evaluations : List F) (hnodes : ∀ a ∈ nodes, Reduced a)
    (hx : Reduced x) :
    checkedInterpolatePolynomialAt checks evaluations nodes x = interpolatePolynomialAt evaluations nodes x := by
  rw [checkedInterpolatePolynomialAt, interpolatePolynomialAt, checkedComputeLagrangeBasis_eq checks hnodes hx]
  rcases computeLagrangeBasis nodes x with _ | _ | basis
  · rfl
  · rfl
  · have hloop := foldlM_checked_add_mul checks (l := evaluations.zip basis) (Lawful.zero (F := F))
    rw [Wide.zero_eq] at hloop ⊢
    simp only [Option.bind_eq_bind, Option.bind_some, Option.pure_def] at hloop ⊢
    rw [hloop]
    rfl

end

/-! ### On any elements -/

section
variable {F Inner : Type} [FieldApi F Inner] {checks : Bool} {diff : F → F → ZMod (modulus F)}

/-- A difference, where there is one, is reduced and that of `diff`. -/
def Differs (checks : Bool) (diff : F → F → ZMod (modulus F)) (a b : F) : Prop :=
  ∀ c, sub checks a b = some c → Represents c (diff a b)

theorem Differs.of_exists {a b : F} (h : ∃ c, sub checks a b = some c ∧ Represents c (diff a b)) :
    Differs checks diff a b := by
  obtain ⟨c, hc, hrep⟩ := h
  intro c' hc'
  exact Option.some.inj (hc.symm.trans hc') ▸ hrep

/-- Both differences are there, and the second has an inverse. -/
structure Divides (checks : Bool) (diff : F → F → ZMod (modulus F)) (x x_j x_m : F) : Prop where
  numerator : (sub checks x x_m).isSome
  denominator : (sub checks x_j x_m).isSome
  ne_zero : diff x_j x_m ≠ 0

variable [FieldOps F] [Lawful F] [Wide F] [Fact (modulus F).Prime] {nodes : List F} {x x_j x_m : F}

theorem checkedTerm_of_divides (hnumerator : Differs checks diff x x_m)
    (hdenominator : Differs checks diff x_j x_m) (h : Divides checks diff x x_j x_m) :
    ∃ r, checkedTerm checks x x_j x_m = some r ∧ Represents r (diff x x_m * (diff x_j x_m)⁻¹) := by
  obtain ⟨a, ha⟩ := Option.isSome_iff_exists.mp h.numerator
  obtain ⟨b, hb⟩ := Option.isSome_iff_exists.mp h.denominator
  obtain ⟨inv, hinv, hrep⟩ := (hdenominator b hb).inverse checks h.ne_zero
  obtain ⟨r, hr, hrep'⟩ := exists_mul checks a hrep.1
  rw [(hnumerator a ha).2, hrep.2] at hrep'
  exact ⟨r, by simp only [checkedTerm, ha, hb, hinv, hr, Option.bind_eq_bind, Option.bind_some], hrep'⟩

omit [FieldOps F] [Wide F] in
theorem checkedTerm_of_not_divides (hdenominator : Differs checks diff x_j x_m)
    (h : ¬ Divides checks diff x x_j x_m) : checkedTerm checks x x_j x_m = none := by
  rw [checkedTerm]
  cases ha : sub checks x x_m with
  | none => rfl
  | some a =>
    cases hb : sub checks x_j x_m with
    | none => rfl
    | some b =>
      have hzero : diff x_j x_m = 0 := by
        by_contra hne
        exact h ⟨by rw [ha]; rfl, by rw [hb]; rfl, hne⟩
      have hrep := hdenominator b hb
      rw [hzero] at hrep
      simp only [Option.bind_eq_bind, Option.bind_some, hrep.inverse_zero checks]

theorem checkedLagrangeBasisAt_loop {j : Nat} (l : List (F × Nat))
    (hl : ∀ q ∈ l, q.2 ≠ j →
      Differs checks diff x q.1 ∧ Differs checks diff x_j q.1 ∧ Divides checks diff x x_j q.1)
    {basis : F} {u : ZMod (modulus F)} (hbasis : Represents basis u) :
    ∃ r, l.foldlM (fun basis (x_m, m) =>
        if m ≠ j then do mul checks basis (← checkedTerm checks x x_j x_m) else some basis) basis = some r ∧
      Represents r (u * (l.map fun (x_m, m) =>
        if m = j then 1 else diff x x_m * (diff x_j x_m)⁻¹).prod) := by
  induction l generalizing basis u with
  | nil => exact ⟨basis, rfl, by rwa [List.map_nil, List.prod_nil, mul_one]⟩
  | cons q l ih =>
    obtain ⟨x_m, m⟩ := q
    obtain ⟨hq, hl⟩ := List.forall_mem_cons.mp hl
    by_cases hm : m = j
    · obtain ⟨r, hr, hrep⟩ := ih hl hbasis
      exact ⟨r, by simpa [hm] using hr, by simpa [hm] using hrep⟩
    · obtain ⟨hnumerator, hdenominator, hdivides⟩ := hq hm
      obtain ⟨term, hterm, hrep⟩ := checkedTerm_of_divides hnumerator hdenominator hdivides
      obtain ⟨product, hproduct, hrep'⟩ := exists_mul checks basis hrep.1
      obtain ⟨r, hr, hrep''⟩ := ih hl hrep'
      refine ⟨r, by simpa [hm, hterm, hproduct] using hr, ?_⟩
      rw [List.map_cons, List.prod_cons, ← mul_assoc, ← hbasis.2]
      simpa [hm, hrep.2] using hrep''

variable (checks) in
theorem foldlM_checked_sum (l : List (F × F)) (hl : ∀ q ∈ l, Reduced q.2) {acc : F} {u : ZMod (modulus F)}
    (hacc : Represents acc u) :
    ∃ r, l.foldlM (fun acc (eval, basis) => do add checks acc (← mul checks eval basis)) acc = some r ∧
      Represents r (u + (l.map fun q => residue q.1 * residue q.2).sum) := by
  induction l generalizing acc u with
  | nil => exact ⟨acc, rfl, by rwa [List.map_nil, List.sum_nil, add_zero]⟩
  | cons q l ih =>
    obtain ⟨eval, basis⟩ := q
    obtain ⟨hq, hl⟩ := List.forall_mem_cons.mp hl
    obtain ⟨product, hproduct, hrep⟩ := exists_mul checks eval hq
    obtain ⟨sum, hsum, hrep'⟩ := hacc.add checks hrep
    obtain ⟨r, hr, hrep''⟩ := ih hl hrep'
    refine ⟨r, ?_, by rwa [List.map_cons, List.sum_cons, ← add_assoc]⟩
    simp only [List.foldlM_cons, hproduct, hsum, Option.bind_eq_bind, Option.bind_some]
    exact hr

variable [DecidableEq F] {evaluations : List F}

/-- **Interpolation without a panic** is the Lagrange formula with the differences that are computed. -/
theorem checkedInterpolatePolynomialAt_of_divides (hne : nodes ≠ []) (hlen : evaluations.length = nodes.length)
    (hnodup : nodes.Nodup)
    (h : ∀ a ∈ nodes, ∀ b ∈ nodes, a ≠ b →
      Differs checks diff x b ∧ Differs checks diff a b ∧ Divides checks diff x a b) :
    ∃ r, checkedInterpolatePolynomialAt checks evaluations nodes x = some (.ok r) ∧
      Represents r (interpolateBy diff nodes (evaluations.map residue) x) := by
  have hentry : ∀ q ∈ nodes.zipIdx, ∃ b, checkedLagrangeBasisAt checks nodes x q.2 q.1 = some b ∧
      Represents b (weightAt diff nodes x q.2 q.1) := by
    rintro ⟨x_j, j⟩ hj
    obtain ⟨b, hb, hrep⟩ := checkedLagrangeBasisAt_loop nodes.zipIdx (fun q hq hqj =>
      h x_j (List.fst_mem_of_mem_zipIdx hj) q.1 (List.fst_mem_of_mem_zipIdx hq)
        ((ne_of_mem_zipIdx hnodup hj hq).mp (Ne.symm hqj))) Represents.one
    rw [one_mul] at hrep
    exact ⟨b, hb, hrep⟩
  obtain ⟨basis, hbasis, hspec⟩ := mapM_forall₂ hentry
  have hreduced : ∀ b ∈ basis, Reduced b := fun b hb =>
    (exists_of_forall₂ hspec hb).elim fun _ hq => hq.2.1
  obtain ⟨r, hr, hrep⟩ := foldlM_checked_sum checks (evaluations.zip basis)
    (fun q hq => hreduced q.2 (List.of_mem_zip hq).2) Represents.zero
  refine ⟨r, ?_, ?_⟩
  · rw [checkedInterpolatePolynomialAt, if_neg (by simpa using hne), if_neg (not_not_intro hlen.symm),
      checkedComputeLagrangeBasis, if_neg (by simp [allDifferent_eq_true.mpr hnodup]), hbasis]
    simp only [Option.bind_eq_bind, Option.bind_some, Option.pure_def] at hr ⊢
    rw [hr]
    rfl
  · rw [zero_add] at hrep
    have hsum : ((evaluations.zip basis).map fun q => residue q.1 * residue q.2) =
        ((evaluations.map residue).zip nodes.zipIdx).map fun q => q.1 * weightAt diff nodes x q.2.2 q.2.1 := by
      rw [List.zip_map_left, List.map_map]
      exact map_zip_forall₂ hspec (fun e q b hb => congrArg (residue e * ·) hb.2) _
    rwa [hsum] at hrep

omit [FieldOps F] [Lawful F] [Wide F] [Fact (modulus F).Prime] in
theorem checkedInterpolatePolynomialAt_collide (hlen : evaluations.length = nodes.length) (h : ¬ nodes.Nodup) :
    checkedInterpolatePolynomialAt checks evaluations nodes x =
      some (.error (.notAllDifferentInterpolation nodes)) := by
  have hne : nodes ≠ [] := fun hnil => h (hnil ▸ List.nodup_nil)
  have hbasis : checkedComputeLagrangeBasis checks nodes x =
      some (.error (.notAllDifferentInterpolation nodes)) := by
    rw [checkedComputeLagrangeBasis, if_pos]
    rw [← Bool.not_eq_true, allDifferent_eq_true]
    exact h
  rw [checkedInterpolatePolynomialAt, if_neg (by simpa using hne), if_neg (not_not_intro hlen.symm), hbasis]
  rfl

omit [FieldOps F] [Lawful F] [Wide F] [Fact (modulus F).Prime] in
theorem checkedInterpolatePolynomialAt_ne_error (hne : nodes ≠ []) (hlen : evaluations.length = nodes.length)
    (hnodup : nodes.Nodup) (e : PolyError F) :
    checkedInterpolatePolynomialAt checks evaluations nodes x ≠ some (.error e) := by
  rw [checkedInterpolatePolynomialAt, if_neg (by simpa using hne), if_neg (not_not_intro hlen.symm),
    checkedComputeLagrangeBasis, if_neg (by simp [allDifferent_eq_true.mpr hnodup])]
  intro h
  obtain ⟨outcome, houtcome, h⟩ := Option.bind_eq_some_iff.mp h
  obtain ⟨basis, -, hbasis⟩ := Option.bind_eq_some_iff.mp houtcome
  obtain rfl := Option.some.inj hbasis
  obtain ⟨value, -, h⟩ := Option.bind_eq_some_iff.mp h
  cases h

omit [FieldOps F] [Wide F] in
theorem checkedInterpolatePolynomialAt_of_not_divides (hlen : evaluations.length = nodes.length)
    (hnodup : nodes.Nodup) {a b : F} (ha : a ∈ nodes) (hb : b ∈ nodes) (hab : a ≠ b)
    (hdiffers : Differs checks diff a b) (h : ¬ Divides checks diff x a b) :
    checkedInterpolatePolynomialAt checks evaluations nodes x = none := by
  obtain ⟨j, hj⟩ := List.mem_iff_getElem?.mp ha
  obtain ⟨m, hm⟩ := List.mem_iff_getElem?.mp hb
  have hj : (a, j) ∈ nodes.zipIdx := List.mem_zipIdx_iff_getElem?.mpr hj
  have hm : (b, m) ∈ nodes.zipIdx := List.mem_zipIdx_iff_getElem?.mpr hm
  have hmj := (ne_of_mem_zipIdx hnodup hm hj).mpr hab.symm
  have hentry : checkedLagrangeBasisAt checks nodes x j a = none := by
    refine foldlM_eq_none (P := fun _ => True) (fun _ _ _ _ _ => trivial) (fun basis _ => ?_) trivial hm
    simp only [if_pos hmj, checkedTerm_of_not_divides hdiffers h]
    rfl
  have hbasis : nodes.zipIdx.mapM (fun (x_j, j) => checkedLagrangeBasisAt checks nodes x j x_j) = none :=
    mapM_eq_none hj hentry
  rw [checkedInterpolatePolynomialAt, if_neg (by simpa using List.ne_nil_of_mem ha),
    if_neg (not_not_intro hlen.symm), checkedComputeLagrangeBasis,
    if_neg (by simp [allDifferent_eq_true.mpr hnodup]), hbasis]
  rfl

end

/-! ### Horner's rule -/

namespace Polynomial

section
variable {F Inner : Type} [FieldApi F Inner] {checks : Bool}

theorem checkedEvaluate_cons (c c' : F) (cs : List F) (x : F) :
    (⟨c :: c' :: cs⟩ : Polynomial F).checkedEvaluate checks x =
      ((⟨c' :: cs⟩ : Polynomial F).checkedEvaluate checks x).bind fun r =>
        (mul checks r x).bind (add checks c) := by
  obtain ⟨last, coeffs, hreverse⟩ := List.exists_cons_of_ne_nil
    (List.reverse_ne_nil_iff.mpr (List.cons_ne_nil c' cs))
  rw [checkedEvaluate, checkedEvaluate, List.reverse_cons, hreverse, List.cons_append]
  simp only [List.foldlM_append, List.foldlM_cons, List.foldlM_nil, Option.bind_eq_bind, Option.pure_def,
    Option.bind_fun_some]

theorem isSome_checkedEvaluate [FieldOps F] [Wide F] (hadd : ∀ a b : F, (add checks a b).isSome)
    {p : Polynomial F} (hne : p.coefficients ≠ []) (x : F) : (p.checkedEvaluate checks x).isSome := by
  obtain ⟨cs⟩ := p
  obtain ⟨c, cs, rfl⟩ := List.exists_cons_of_ne_nil hne
  induction cs generalizing c with
  | nil => rfl
  | cons c' cs ih =>
    obtain ⟨r, hr⟩ := Option.isSome_iff_exists.mp (ih c' (List.cons_ne_nil c' cs))
    rw [checkedEvaluate_cons, hr, Option.bind_some, Wide.mul_eq]
    exact hadd c _

end

/-- The value at `x`, of coefficients that may be any integers. -/
def horner (x : Mersenne61) : List Mersenne61 → Nat
  | [] => 0
  | [c] => c.value.toNat
  | c :: c' :: cs => (c.value.toNat + Mersenne61.product (horner x (c' :: cs)) x.value.toNat) % mersenneModulus

/-- No sum on the way to it overflows. -/
def HornerFits (x : Mersenne61) : List Mersenne61 → Prop
  | [] => True
  | [_] => True
  | c :: c' :: cs => HornerFits x (c' :: cs) ∧
      c.value.toNat + Mersenne61.product (horner x (c' :: cs)) x.value.toNat < 2 ^ 64

/-- A coefficient can be as large as leaves room for a reduced product. -/
theorem hornerFits_of_le {cs : List Mersenne61} (h : ∀ c ∈ cs.dropLast, c.value.toNat + mersenneModulus ≤ 2 ^ 64)
    (x : Mersenne61) : HornerFits x cs := by
  induction cs with
  | nil => trivial
  | cons c cs ih =>
    cases cs with
    | nil => trivial
    | cons c' cs =>
      obtain ⟨hc, hcs⟩ := List.forall_mem_cons.mp h
      have hproduct := Mersenne61.product_lt (horner x (c' :: cs)) x.value.toNat
      exact ⟨ih hcs, by omega⟩

/-- **Where overflows are checked**, an evaluation panics at the first sum that does not fit. -/
theorem checkedEvaluate_mersenne61 (x c : Mersenne61) (cs : List Mersenne61) :
    (HornerFits x (c :: cs) → ∃ r, (⟨c :: cs⟩ : Polynomial Mersenne61).checkedEvaluate true x = some r ∧
      r.value.toNat = horner x (c :: cs)) ∧
    (¬ HornerFits x (c :: cs) → (⟨c :: cs⟩ : Polynomial Mersenne61).checkedEvaluate true x = none) := by
  induction cs generalizing c with
  | nil => exact ⟨fun _ => ⟨c, rfl, rfl⟩, fun h => absurd trivial h⟩
  | cons c' cs ih =>
    obtain ⟨ihfits, ihpanics⟩ := ih c'
    rw [checkedEvaluate_cons, HornerFits, horner]
    by_cases hfits : HornerFits x (c' :: cs)
    · obtain ⟨r, hr, hval⟩ := ihfits hfits
      have hproduct := Mersenne61.toNat_mul r x
      rw [hr, Option.bind_some, Wide.mul_eq, Option.bind_some, ← hval, ← hproduct, and_iff_right hfits]
      exact ⟨Mersenne61.add_of_lt true, Mersenne61.add_of_not_lt⟩
    · rw [ihpanics hfits]
      exact ⟨fun h => absurd h.1 hfits, fun _ => rfl⟩

end Polynomial

end SclRs
