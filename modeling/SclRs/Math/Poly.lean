import SclRs.Lib.Interpolation
import SclRs.Math.Field.Mersenne61

/-!
# Polynomials and Lagrange interpolation

`Polynomial`, `compute_lagrange_basis` and `interpolate_polynomial_at` of `math/poly.rs`. Over a lawful
field the loops compute Mathlib's `Lagrange.basis` and `Lagrange.interpolate`, so that the values of a
polynomial at as many nodes as it has coefficients give it back anywhere (`interpolate_eval`).
-/

open Polynomial

namespace SclRs

open RingOps FieldOps

/-- A sum of type `usize`: an overflow panics where it is checked, and wraps where it is not. -/
def usizeAdd (checks : Bool) (a b : Nat) : Option Nat :=
  if a + b < 2 ^ 64 then some (a + b)
  else if checks then none
  else some ((a + b) % 2 ^ 64)

theorem usizeAdd_of_lt {checks : Bool} {a b : Nat} (h : a + b < 2 ^ 64) :
    usizeAdd checks a b = some (a + b) := if_pos h

def usizeMul (checks : Bool) (a b : Nat) : Option Nat :=
  if a * b < 2 ^ 64 then some (a * b)
  else if checks then none
  else some ((a * b) % 2 ^ 64)

def usizeSub (checks : Bool) (a b : Nat) : Option Nat :=
  if b ≤ a then some (a - b)
  else if checks then none
  else some ((2 ^ 64 + a - b) % 2 ^ 64)

theorem usizeMul_of_lt {checks : Bool} {a b : Nat} (h : a * b < 2 ^ 64) :
    usizeMul checks a b = some (a * b) := if_pos h

theorem usizeSub_of_le {checks : Bool} {a b : Nat} (h : b ≤ a) :
    usizeSub checks a b = some (a - b) := if_pos h

/-- `Error` of `math/poly.rs`. -/
inductive PolyError (T : Type)
  | notAllDifferentInterpolation (nodes : List T)
  | emptyCoefficients
  | emptyInterpolation
  | lengthMismatch (nodes evaluations : Nat)
deriving DecidableEq

/-- `Polynomial`: the coefficients, the constant one first. -/
structure Polynomial (T : Type) where
  coefficients : List T
deriving DecidableEq

namespace Polynomial

variable {T : Type}

def degree (p : Polynomial T) : Nat := p.coefficients.length - 1

def new (coef : List T) : Except (PolyError T) (Polynomial T) :=
  if coef.isEmpty then .error .emptyCoefficients else .ok ⟨coef⟩

/-- `random`, where `rng i` is the `i`-th element that the generator gives. -/
def random (checks : Bool) (degree : Nat) (rng : Nat → T) : Option (Polynomial T) := do
  let len ← usizeAdd checks degree 1
  return ⟨(List.range len).map rng⟩

/-- `set_constant_coeff`, which indexes the first coefficient. -/
def setConstantCoeff (p : Polynomial T) (value : T) : Option (Polynomial T) :=
  match p.coefficients with
  | [] => none
  | _ :: coefficients => some ⟨value :: coefficients⟩

/-- `evaluate`, by Horner's rule, on elements of which no sum panics; `checkedEvaluate` is for any. -/
def evaluate [RingOps T] (p : Polynomial T) (value : T) : Option T :=
  match p.coefficients.reverse with
  | [] => none
  | last :: coeffs =>
    some (coeffs.foldl (fun result coeff => add coeff (mul result value)) last)

end Polynomial

section
variable {T : Type} [DecidableEq T]

/-- The loop of `all_different`, with the set of the elements so far. -/
def allDifferentFrom (set : List T) : List T → Bool
  | [] => true
  | element :: list => if element ∈ set then false else allDifferentFrom (element :: set) list

def allDifferent (list : List T) : Bool := allDifferentFrom [] list

variable [FieldOps T]

/-- The `j`-th value of `compute_lagrange_basis`: the product over the other nodes. -/
def lagrangeBasisAt (nodes : List T) (x : T) (j : Nat) (x_j : T) : Option T :=
  nodes.zipIdx.foldlM (fun basis (x_m, m) =>
    if m ≠ j then
      let numerator := sub x x_m
      let denominator := sub x_j x_m
      match inverse denominator with
      | some (.ok inv) => some (mul basis (mul numerator inv))
      | _ => none
    else some basis) one

def computeLagrangeBasis (nodes : List T) (x : T) : Option (Except (PolyError T) (List T)) :=
  if allDifferent nodes = false then some (.error (.notAllDifferentInterpolation nodes))
  else do
    let basis ← nodes.zipIdx.mapM fun (x_j, j) => lagrangeBasisAt nodes x j x_j
    return .ok basis

def interpolatePolynomialAt (evaluations alphas : List T) (x : T) :
    Option (Except (PolyError T) T) :=
  if alphas.isEmpty then some (.error .emptyInterpolation)
  else if alphas.length ≠ evaluations.length then
    some (.error (.lengthMismatch alphas.length evaluations.length))
  else do
    match ← computeLagrangeBasis alphas x with
    | .error e => return .error e
    | .ok basis =>
      return .ok ((evaluations.zip basis).foldl (fun acc (eval, basis) => add acc (mul eval basis))
        zero)

end

theorem allDifferentFrom_eq_true {T : Type} [DecidableEq T] (set list : List T) :
    allDifferentFrom set list = true ↔ list.Nodup ∧ ∀ a ∈ list, a ∉ set := by
  induction list generalizing set with
  | nil => simp [allDifferentFrom]
  | cons a list ih =>
    rw [allDifferentFrom]
    split_ifs with ha
    · simp [ha]
    · simp only [ih, List.nodup_cons, List.mem_cons, not_or, forall_eq_or_imp]
      constructor
      · rintro ⟨hnodup, hout⟩
        exact ⟨⟨fun hmem => (hout a hmem).1 rfl, hnodup⟩, ha, fun b hb => (hout b hb).2⟩
      · rintro ⟨⟨hmem, hnodup⟩, -, hout⟩
        exact ⟨hnodup, fun b hb => ⟨fun hba => hmem (hba ▸ hb), hout b hb⟩⟩

theorem allDifferent_eq_true {T : Type} [DecidableEq T] {list : List T} :
    allDifferent list = true ↔ list.Nodup := by
  simp [allDifferent, allDifferentFrom_eq_true]

theorem computeLagrangeBasis_collide {T : Type} [DecidableEq T] [FieldOps T] {alphas : List T} {x : T}
    (h : ¬ alphas.Nodup) :
    computeLagrangeBasis alphas x = some (.error (.notAllDifferentInterpolation alphas)) := by
  rw [computeLagrangeBasis, if_pos]
  rw [← Bool.not_eq_true, allDifferent_eq_true]
  exact h

theorem interpolatePolynomialAt_ne_ok {T : Type} [DecidableEq T] [FieldOps T]
    {evaluations alphas : List T} {x r : T} (h : ¬ alphas.Nodup) :
    interpolatePolynomialAt evaluations alphas x ≠ some (.ok r) := by
  intro hr
  rw [interpolatePolynomialAt] at hr
  split_ifs at hr
  · cases hr
  · cases hr
  · rw [computeLagrangeBasis_collide h] at hr
    cases hr

theorem interpolatePolynomialAt_collide {T : Type} [DecidableEq T] [FieldOps T]
    {evaluations alphas : List T} {x : T} (h : ¬ alphas.Nodup)
    (hlen : evaluations.length = alphas.length) :
    interpolatePolynomialAt evaluations alphas x =
      some (.error (.notAllDifferentInterpolation alphas)) := by
  have hne : alphas ≠ [] := fun hnil => h (hnil ▸ List.nodup_nil)
  rw [interpolatePolynomialAt, if_neg (by simpa using hne), if_neg (not_not_intro hlen.symm),
    computeLagrangeBasis_collide h]
  rfl

/-! ### Loops over lists -/

section
variable {α β γ δ : Type}

theorem mapM_forall₂ {f : α → Option β} {R : α → β → Prop} {l : List α}
    (h : ∀ a ∈ l, ∃ b, f a = some b ∧ R a b) :
    ∃ bs, l.mapM f = some bs ∧ List.Forall₂ R l bs := by
  induction l with
  | nil => exact ⟨[], rfl, .nil⟩
  | cons a l ih =>
    obtain ⟨b, hb, hR⟩ := h a List.mem_cons_self
    obtain ⟨bs, hbs, hRs⟩ := ih fun a ha => h a (List.mem_cons_of_mem _ ha)
    exact ⟨b :: bs, by simp [hb, hbs], .cons hR hRs⟩

theorem forall₂_of_mapM {f : α → Option β} {l : List α} {bs : List β} (h : l.mapM f = some bs) :
    List.Forall₂ (fun a b => f a = some b) l bs := by
  induction l generalizing bs with
  | nil =>
    obtain rfl : bs = [] := by simpa [eq_comm] using h
    exact .nil
  | cons a l ih =>
    simp only [List.mapM_cons, Option.bind_eq_bind, Option.bind_eq_some_iff, Option.pure_def,
      Option.some.injEq] at h
    obtain ⟨b, hb, bs', hbs', rfl⟩ := h
    exact .cons hb (ih hbs')

theorem mapM_congr_left {f g : α → Option β} {l : List α} (h : ∀ a ∈ l, f a = g a) : l.mapM f = l.mapM g := by
  induction l with
  | nil => rfl
  | cons a l ih =>
    obtain ⟨ha, hl⟩ := List.forall_mem_cons.mp h
    rw [List.mapM_cons, List.mapM_cons, ha, ih hl]

theorem mapM_eq_none {f : α → Option β} {l : List α} {a : α} (ha : a ∈ l) (h : f a = none) :
    l.mapM f = none := by
  induction l with
  | nil => cases ha
  | cons a' l ih =>
    rw [List.mapM_cons]
    rcases List.mem_cons.mp ha with rfl | ha
    · rw [h]
      rfl
    · cases f a' with
      | none => rfl
      | some b =>
        rw [ih ha]
        rfl

theorem foldlM_congr_left {f g : β → α → Option β} {l : List α} (h : ∀ a ∈ l, ∀ b, f b a = g b a) (b : β) :
    l.foldlM f b = l.foldlM g b := by
  induction l generalizing b with
  | nil => rfl
  | cons a l ih =>
    obtain ⟨ha, hl⟩ := List.forall_mem_cons.mp h
    rw [List.foldlM_cons, List.foldlM_cons, ha b]
    exact congrArg (g b a).bind (funext (ih hl))

theorem foldlM_eq_none {step : β → α → Option β} {P : β → Prop} {l : List α} {a : α} {b : β}
    (hstep : ∀ b a b', P b → step b a = some b' → P b') (hpanic : ∀ b, P b → step b a = none) (hb : P b)
    (ha : a ∈ l) : l.foldlM step b = none := by
  induction l generalizing b with
  | nil => cases ha
  | cons a' l ih =>
    rw [List.foldlM_cons]
    cases hcase : step b a' with
    | none => rfl
    | some b' =>
      rcases List.mem_cons.mp ha with rfl | ha
      · cases (hpanic b hb).symm.trans hcase
      · exact ih (hstep b a' b' hb hcase) ha

theorem exists_of_forall₂ {R : α → β → Prop} {l : List α} {bs : List β} (h : List.Forall₂ R l bs)
    {b : β} (hb : b ∈ bs) : ∃ a ∈ l, R a b := by
  induction h with
  | nil => cases hb
  | cons hR _ ih =>
    rcases List.mem_cons.mp hb with rfl | hb
    · exact ⟨_, List.mem_cons_self, hR⟩
    · obtain ⟨a, ha, hab⟩ := ih hb
      exact ⟨a, List.mem_cons_of_mem _ ha, hab⟩

theorem map_eq_of_forall₂ {R : α → β → Prop} {l : List α} {bs : List β} (h : List.Forall₂ R l bs)
    {f : β → γ} {g : α → γ} (hfg : ∀ a b, R a b → f b = g a) : bs.map f = l.map g := by
  induction h with
  | nil => rfl
  | cons hR _ ih => rw [List.map_cons, List.map_cons, hfg _ _ hR, ih]

theorem map_zip_forall₂ {R : α → β → Prop} {l : List α} {bs : List β} (h : List.Forall₂ R l bs)
    {f : γ × β → δ} {g : γ × α → δ} (hfg : ∀ c a b, R a b → f (c, b) = g (c, a)) (cs : List γ) :
    (cs.zip bs).map f = (cs.zip l).map g := by
  induction h generalizing cs with
  | nil => simp
  | cons hR _ ih =>
    cases cs with
    | nil => rfl
    | cons c cs => simp [hfg c _ _ hR, ih cs]

end

/-! ### Evaluation -/

section
variable {T K : Type} [RingOps T] [CommRing K] [LawfulRing T K]

open LawfulRing Lib.Interpolation

/-- The polynomial over `K` that `p` stands for. -/
noncomputable def Polynomial.toPoly (p : Polynomial T) : K[X] :=
  ofCoefficients (p.coefficients.map val)

/-- **Horner's rule evaluates the polynomial.** -/
theorem Polynomial.evaluate_spec {p : Polynomial T} {x : T} (hne : p.coefficients ≠ [])
    (hp : ∀ c ∈ p.coefficients, Valid c) (hx : Valid x) :
    ∃ r, p.evaluate x = some r ∧ Valid r ∧ val r = p.toPoly.eval (val x) := by
  obtain ⟨cs⟩ := p
  simp only [Polynomial.evaluate, Polynomial.toPoly] at hp hne ⊢
  -- from the last coefficient on: the value of the polynomial above the loop's position
  induction cs with
  | nil => exact absurd rfl hne
  | cons c cs ih =>
    have hc : Valid c := hp c List.mem_cons_self
    obtain rfl | hcs := eq_or_ne cs []
    · exact ⟨c, rfl, hc, by simp [ofCoefficients]⟩
    obtain ⟨r, hr, hvalid, hval⟩ := ih hcs fun a ha => hp a (List.mem_cons_of_mem _ ha)
    obtain ⟨last, init, hrev⟩ := List.exists_cons_of_ne_nil (mt List.reverse_eq_nil_iff.mp hcs)
    rw [hrev] at hr
    obtain rfl := Option.some.inj hr
    rw [List.reverse_cons, hrev, List.map_cons, eval_ofCoefficients_cons, ← hval]
    refine ⟨_, rfl, ?_⟩
    rw [List.append_eq, List.foldl_append, List.foldl_cons, List.foldl_nil]
    have hmul := valid_mul hvalid hx
    exact ⟨valid_add hc hmul, by rw [val_add hc hmul, val_mul hvalid hx, mul_comm (val x)]⟩

theorem Polynomial.mapM_evaluate {p : Polynomial T} (hne : p.coefficients ≠ [])
    (hp : ∀ c ∈ p.coefficients, Valid c) {alphas evaluations : List T}
    (halphas : ∀ a ∈ alphas, Valid a) (h : alphas.mapM p.evaluate = some evaluations) :
    evaluations.map val = alphas.map fun a => p.toPoly.eval (val a) := by
  have hspec : ∀ a ∈ alphas, ∃ r, p.evaluate a = some r ∧ val r = p.toPoly.eval (val a) := by
    intro a ha
    obtain ⟨r, hr, -, hval⟩ := p.evaluate_spec hne hp (halphas a ha)
    exact ⟨r, hr, hval⟩
  obtain ⟨rs, hrs, hvals⟩ := mapM_forall₂ hspec
  obtain rfl := Option.some.inj (hrs.symm.trans h)
  exact map_eq_of_forall₂ hvals fun _ _ hval => hval

end

/-! ### Interpolation -/

section
variable {T K : Type} [FieldOps T] [Field K] [LawfulField T K]

open LawfulRing LawfulField Lib.Interpolation

theorem lagrangeBasisAt_loop {x x_j : T} {j : Nat} (hx : Valid x) (hx_j : Valid x_j)
    (nodes : List (T × Nat)) (hnodes : ∀ q ∈ nodes, Valid q.1 ∧ (q.2 ≠ j → val q.1 ≠ val x_j))
    {basis : T} (hbasis : Valid basis) :
    ∃ r, nodes.foldlM (fun basis (x_m, m) =>
        if m ≠ j then
          match inverse (sub x_j x_m) with
          | some (.ok inv) => some (mul basis (mul (sub x x_m) inv))
          | _ => none
        else some basis) basis = some r ∧ Valid r ∧
      val r = val basis * (nodes.map fun (x_m, m) =>
        if m = j then 1 else (val x - val x_m) * (val x_j - val x_m)⁻¹).prod := by
  induction nodes generalizing basis with
  | nil => exact ⟨basis, rfl, hbasis, by simp⟩
  | cons q nodes ih =>
    obtain ⟨x_m, m⟩ := q
    have hnodes' := fun q hq => hnodes q (List.mem_cons_of_mem _ hq)
    obtain ⟨hx_m, hne⟩ := hnodes _ List.mem_cons_self
    rw [List.foldlM_cons, List.map_cons, List.prod_cons]
    by_cases hm : m = j
    · obtain ⟨r, hr, hvalid, hval⟩ := ih hnodes' hbasis
      exact ⟨r, by simpa [hm] using hr, hvalid, by simpa [hm] using hval⟩
    have hsub := valid_sub hx_j hx_m
    have hdiff : val (sub x_j x_m) ≠ 0 := by
      rw [val_sub hx_j hx_m, sub_ne_zero]
      exact (hne hm).symm
    obtain ⟨inv, hinv, hvinv, hvalinv⟩ := inverse_ne_zero hsub hdiff
    have hnum := valid_sub hx hx_m
    have hterm := valid_mul hnum hvinv
    obtain ⟨r, hr, hvalid, hval⟩ := ih hnodes' (valid_mul hbasis hterm)
    refine ⟨r, by simpa [hm, hinv] using hr, hvalid, ?_⟩
    rw [hval, val_mul hbasis hterm, val_mul hnum hvinv, hvalinv, val_sub hx hx_m, val_sub hx_j hx_m]
    simp only [hm, if_false, mul_assoc]

theorem lagrangeBasisAt_spec {nodes : List T} {x : T} (hnodes : ∀ a ∈ nodes, Valid a)
    (hnodup : nodes.Nodup) (hx : Valid x) {j : Nat} {x_j : T} (hj : (x_j, j) ∈ nodes.zipIdx) :
    ∃ r, lagrangeBasisAt nodes x j x_j = some r ∧ Valid r ∧
      val r = basisAt (nodes.map val) (val x) j (val x_j) := by
  have hget := List.mem_zipIdx_iff_getElem?.mp hj
  have hx_j := hnodes _ (List.mem_of_getElem? hget)
  have hothers : ∀ q ∈ nodes.zipIdx, Valid q.1 ∧ (q.2 ≠ j → val q.1 ≠ val x_j) := by
    rintro ⟨x_m, m⟩ hm
    have hget' := List.mem_zipIdx_iff_getElem?.mp hm
    have hx_m := hnodes _ (List.mem_of_getElem? hget')
    refine ⟨hx_m, fun hne heq => hne ?_⟩
    obtain rfl := val_inj hx_m hx_j heq
    obtain ⟨hm', hgetm⟩ := List.getElem?_eq_some_iff.mp hget'
    obtain ⟨hj', hgetj⟩ := List.getElem?_eq_some_iff.mp hget
    exact hnodup.getElem_inj_iff.mp (hgetm.trans hgetj.symm)
  obtain ⟨r, hr, hvalid, hval⟩ := lagrangeBasisAt_loop hx hx_j nodes.zipIdx hothers valid_one
  refine ⟨r, hr, hvalid, ?_⟩
  rw [hval, val_one, one_mul, basisAt, List.zipIdx_map, List.map_map]
  rfl

theorem foldl_add_mul (l : List (T × T)) (hl : ∀ q ∈ l, Valid q.1 ∧ Valid q.2) {acc : T}
    (hacc : Valid acc) :
    Valid (l.foldl (fun acc (eval, basis) => add acc (mul eval basis)) acc) ∧
      val (l.foldl (fun acc (eval, basis) => add acc (mul eval basis)) acc) =
        val acc + (l.map fun (eval, basis) => val eval * val basis).sum := by
  induction l generalizing acc with
  | nil => exact ⟨hacc, by simp⟩
  | cons q l ih =>
    obtain ⟨he, hb⟩ := hl q List.mem_cons_self
    have hmul := valid_mul he hb
    obtain ⟨hvalid, hval⟩ := ih (fun q hq => hl q (List.mem_cons_of_mem _ hq)) (valid_add hacc hmul)
    refine ⟨hvalid, hval.trans ?_⟩
    rw [val_add hacc hmul, val_mul he hb, List.map_cons, List.sum_cons, add_assoc]

variable [DecidableEq T]

theorem computeLagrangeBasis_spec {nodes : List T} {x : T} (hnodes : ∀ a ∈ nodes, Valid a)
    (hnodup : nodes.Nodup) (hx : Valid x) :
    ∃ basis, computeLagrangeBasis nodes x = some (.ok basis) ∧
      List.Forall₂ (fun q b => Valid b ∧ val b = basisAt (nodes.map val) (val x) q.2 (val q.1))
        nodes.zipIdx basis := by
  obtain ⟨basis, hbasis, hspec⟩ := mapM_forall₂ (l := nodes.zipIdx)
    fun q hq => lagrangeBasisAt_spec hnodes hnodup hx (j := q.2) hq
  refine ⟨basis, ?_, hspec⟩
  rw [computeLagrangeBasis, if_neg (by simp [allDifferent_eq_true.mpr hnodup]), hbasis]
  rfl

/-- **Interpolation gives a polynomial back** from its values at more distinct nodes than its
degree. -/
theorem interpolatePolynomialAt_eval {f : K[X]} {evaluations alphas : List T} {x : T}
    (hevals : ∀ e ∈ evaluations, Valid e) (halphas : ∀ a ∈ alphas, Valid a) (hx : Valid x)
    (hnodup : alphas.Nodup) (hdegree : f.degree < alphas.length) (hne : alphas ≠ [])
    (heval : evaluations.map val = alphas.map fun a => f.eval (val a)) :
    ∃ r, interpolatePolynomialAt evaluations alphas x = some (.ok r) ∧ Valid r ∧
      val r = f.eval (val x) := by
  have hlen : alphas.length = evaluations.length := by simpa using (congrArg List.length heval).symm
  obtain ⟨basis, hbasis, hspec⟩ := computeLagrangeBasis_spec halphas hnodup hx
  have hvalid_basis : ∀ b ∈ basis, Valid b := ((List.forall₂_and_left _ _).mp hspec.flip).1
  have hpairs : ∀ q ∈ evaluations.zip basis, Valid q.1 ∧ Valid q.2 := fun q hq =>
    ⟨hevals _ (List.of_mem_zip hq).1, hvalid_basis _ (List.of_mem_zip hq).2⟩
  obtain ⟨hvalid, hval⟩ := foldl_add_mul _ hpairs valid_zero
  refine ⟨_, ?_, hvalid, hval.trans ?_⟩
  · rw [interpolatePolynomialAt, if_neg (by simpa using hne), if_neg (by simpa using hlen), hbasis]
    rfl
  · have hnodup' : (alphas.map val).Nodup :=
      hnodup.map_on fun a ha b hb h => val_inj (halphas a ha) (halphas b hb) h
    have hevals : evaluations.map val = (alphas.map val).map fun a => f.eval a := by
      rw [heval, List.map_map]
      rfl
    have hformula := interpolate_eq hnodup' (by simpa using hdegree) hevals (val x)
    rw [val_zero, zero_add, ← hformula, List.zipIdx_map, List.zip_map, List.map_map]
    refine congrArg List.sum (map_zip_forall₂ hspec (fun e q b hb => ?_) _)
    exact congrArg (val e * ·) hb.2

/-- **Interpolation is evaluation of the one polynomial through the points**, and fails just where it
is not given as many values as distinct nodes. -/
theorem interpolation_unique {evaluations alphas : List T} {x : T}
    (hevals : ∀ e ∈ evaluations, Valid e) (halphas : ∀ a ∈ alphas, Valid a) (hx : Valid x) :
    (alphas = [] →
      interpolatePolynomialAt evaluations alphas x = some (.error .emptyInterpolation)) ∧
    (alphas ≠ [] → alphas.length ≠ evaluations.length →
      interpolatePolynomialAt evaluations alphas x =
        some (.error (.lengthMismatch alphas.length evaluations.length))) ∧
    (alphas ≠ [] → alphas.length = evaluations.length → ¬ alphas.Nodup →
      interpolatePolynomialAt evaluations alphas x =
        some (.error (.notAllDifferentInterpolation alphas))) ∧
    (alphas ≠ [] → alphas.length = evaluations.length → alphas.Nodup →
      ∃ f : K[X], (∀ g, Through (alphas.map val) (evaluations.map val) g ↔ g = f) ∧
        ∃ r, interpolatePolynomialAt evaluations alphas x = some (.ok r) ∧ Valid r ∧
          val r = f.eval (val x)) ∧
    ∀ p : Polynomial T, p.coefficients ≠ [] → (∀ c ∈ p.coefficients, Valid c) →
      p.coefficients.length ≤ alphas.length → alphas.Nodup →
      alphas.mapM p.evaluate = some evaluations →
      ∃ r, p.evaluate x = some r ∧ interpolatePolynomialAt evaluations alphas x = some (.ok r) := by
  refine ⟨?_, ?_, ?_, ?_, ?_⟩
  · intro hnil
    rw [interpolatePolynomialAt, if_pos (List.isEmpty_iff.mpr hnil)]
  · intro hne hlen
    rw [interpolatePolynomialAt, if_neg (by simpa using hne), if_pos hlen]
  · intro _ hlen hcollide
    exact interpolatePolynomialAt_collide hcollide hlen.symm
  · intro hne hlen hnodup
    have hnodup' : (alphas.map val).Nodup :=
      hnodup.map_on fun a ha b hb h => val_inj (halphas a ha) (halphas b hb) h
    have hlen' : (evaluations.map val).length = (alphas.map val).length := by simp [hlen]
    obtain ⟨f, ⟨hdegree, heval⟩, hunique⟩ := existsUnique_through hnodup' hlen'
    refine ⟨f, fun g => ⟨hunique g, fun h => h ▸ ⟨hdegree, heval⟩⟩, ?_⟩
    rw [List.length_map] at hdegree
    rw [List.map_map] at heval
    exact interpolatePolynomialAt_eval hevals halphas hx hnodup hdegree hne heval
  · intro p hcoefficients hp hlen hnodup hvalues
    obtain ⟨r, hr, hvalid, hval⟩ := p.evaluate_spec hcoefficients hp hx
    have hdegree : p.toPoly.degree < alphas.length := by
      refine (degree_ofCoefficients_lt _).trans_le ?_
      rw [List.length_map]
      exact_mod_cast hlen
    have hne : alphas ≠ [] := by
      rintro rfl
      exact hcoefficients (List.length_eq_zero_iff.mp (Nat.le_zero.mp hlen))
    obtain ⟨r', hr', hvalid', hval'⟩ := interpolatePolynomialAt_eval hevals halphas hx hnodup hdegree hne
      (Polynomial.mapM_evaluate hcoefficients hp halphas hvalues)
    obtain rfl := val_inj hvalid' hvalid (hval'.trans hval.symm)
    exact ⟨r', hr, hr'⟩

end

open LawfulRing Lib.Interpolation in
theorem interpolation_unique_line :
    ∃ f : (ZMod mersenneModulus)[X],
      (∀ g, Through ([⟨1⟩, ⟨2⟩].map (val (R := Mersenne61))) ([⟨3⟩, ⟨5⟩].map (val (R := Mersenne61))) g ↔
        g = f) ∧
      ∃ r : Mersenne61, interpolatePolynomialAt [⟨3⟩, ⟨5⟩] [⟨1⟩, ⟨2⟩] ⟨0⟩ = some (.ok r) ∧ Valid r ∧
        val r = f.eval (val (⟨0⟩ : Mersenne61)) := by
  have hevals : ∀ e ∈ ([⟨3⟩, ⟨5⟩] : List Mersenne61), e.Canonical := by decide
  have halphas : ∀ a ∈ ([⟨1⟩, ⟨2⟩] : List Mersenne61), a.Canonical := by decide
  have hx : (⟨0⟩ : Mersenne61).Canonical := by decide
  exact (interpolation_unique hevals halphas hx).2.2.2.1 (by decide) rfl (by decide)

end SclRs
