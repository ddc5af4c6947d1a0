import Mathlib.Data.List.GetD
import Mathlib.LinearAlgebra.Lagrange

/-!
# Interpolation over lists

Polynomials given by the list of their coefficients, and the Lagrange formula with its sum and its
products taken over lists, as a program computes them (`interpolate_eq`).
-/

open Polynomial

namespace SclRs.Lib.Interpolation

variable {α β M : Type*} {K : Type*}

/-! ### Lists as families -/

theorem prod_map_zipIdx [CommMonoid M] (l : List α) (k : Nat) (f : α × Nat → M) (d : α) :
    ((l.zipIdx k).map f).prod = ∏ i ∈ Finset.range l.length, f (l.getD i d, k + i) := by
  induction l generalizing k with
  | nil => simp
  | cons a l ih =>
    rw [List.zipIdx_cons, List.map_cons, List.prod_cons, ih, List.length_cons,
      Finset.prod_range_succ', mul_comm]
    simp [Nat.add_assoc, Nat.add_comm 1]

theorem sum_map_zip_zipIdx [AddCommMonoid M] (a : List α) (l : List β) (hlen : l.length = a.length)
    (k : Nat) (f : α × β × Nat → M) (d : α) (e : β) :
    ((a.zip (l.zipIdx k)).map f).sum =
      ∑ i ∈ Finset.range l.length, f (a.getD i d, l.getD i e, k + i) := by
  induction l generalizing a k with
  | nil => simp
  | cons b l ih =>
    obtain _ | ⟨c, a⟩ := a
    · simp at hlen
    rw [List.zipIdx_cons, List.zip_cons_cons, List.map_cons, List.sum_cons,
      ih a (by simpa using hlen), List.length_cons, Finset.sum_range_succ', add_comm]
    simp [Nat.add_assoc, Nat.add_comm 1]

/-! ### Coefficients -/

section
variable [CommRing K]

/-- The polynomial with the coefficients of a list, the constant one first. -/
noncomputable def ofCoefficients : List K → K[X]
  | [] => 0
  | c :: cs => C c + X * ofCoefficients cs

theorem eval_ofCoefficients_cons (c : K) (cs : List K) (x : K) :
    (ofCoefficients (c :: cs)).eval x = c + x * (ofCoefficients cs).eval x := by
  simp [ofCoefficients]

theorem eval_ofCoefficients_map {α : Type*} (f : α → K) (as : List α) (x : K) :
    (ofCoefficients (as.map f)).eval x = ∑ i : Fin as.length, f as[i] * x ^ (i : Nat) := by
  induction as with
  | nil => simp [ofCoefficients]
  | cons a as ih =>
    have hsum := Fin.sum_univ_succ fun i : Fin (as.length + 1) => f (a :: as)[i] * x ^ (i : Nat)
    refine Eq.trans ?_ hsum.symm
    rw [List.map_cons, eval_ofCoefficients_cons, ih, Finset.mul_sum]
    congr 1
    · simp
    · refine Finset.sum_congr rfl fun i _ => ?_
      simp only [Fin.val_succ, Fin.getElem_fin, List.getElem_cons_succ, pow_succ]
      ring

theorem eval_ofCoefficients_zero (c : K) (cs : List K) : (ofCoefficients (c :: cs)).eval 0 = c := by
  simp [ofCoefficients]

theorem degree_ofCoefficients_lt (cs : List K) : (ofCoefficients cs).degree < cs.length := by
  rw [degree_lt_iff_coeff_zero]
  induction cs with
  | nil => simp [ofCoefficients]
  | cons c cs ih =>
    intro m hm
    obtain _ | m := m
    · simp at hm
    rw [ofCoefficients, coeff_add, coeff_C_succ, coeff_X_mul, zero_add]
    exact ih m (by simpa using hm)

theorem coeff_ofCoefficients (cs : List K) (i : Nat) : (ofCoefficients cs).coeff i = cs.getD i 0 := by
  induction cs generalizing i with
  | nil => simp [ofCoefficients]
  | cons c cs ih =>
    obtain _ | i := i
    · simp [ofCoefficients]
    · rw [ofCoefficients, coeff_add, coeff_C_succ, coeff_X_mul, zero_add, ih, List.getD_cons_succ]

theorem natDegree_le_iff_degree_lt {f : K[X]} {t : Nat} :
    f.natDegree ≤ t ↔ f.degree < (t + 1 : ℕ) := by
  rw [degree_lt_iff_coeff_zero, natDegree_le_iff_coeff_eq_zero]
  exact Iff.rfl

end

/-! ### A polynomial with given roots -/

section
variable [Field K]

/-- The product of `1 - X / a` over the nodes. -/
noncomputable def vanishing : List K → K[X]
  | [] => 1
  | a :: nodes => (1 - C a⁻¹ * X) * vanishing nodes

theorem natDegree_vanishing_le (nodes : List K) : (vanishing nodes).natDegree ≤ nodes.length := by
  induction nodes with
  | nil => simp [vanishing]
  | cons a nodes ih =>
    have hfactor : (1 - C a⁻¹ * X : K[X]).natDegree ≤ 1 :=
      natDegree_sub_le_of_le (natDegree_one.trans_le zero_le_one)
        ((natDegree_C_mul_le _ _).trans natDegree_X_le)
    refine natDegree_mul_le.trans ?_
    rw [List.length_cons]
    omega

theorem eval_vanishing_zero (nodes : List K) : (vanishing nodes).eval 0 = 1 := by
  induction nodes with
  | nil => simp [vanishing]
  | cons a nodes ih => simp [vanishing, ih]

theorem eval_vanishing_of_mem {nodes : List K} {a : K} (h : a ∈ nodes) (ha : a ≠ 0) :
    (vanishing nodes).eval a = 0 := by
  induction nodes with
  | nil => cases h
  | cons b nodes ih =>
    rw [vanishing, eval_mul]
    rcases List.mem_cons.mp h with rfl | h
    · simp [ha]
    · rw [ih h, mul_zero]

end

/-! ### The Lagrange formula -/

section
variable [Field K]

/-- The `j`-th Lagrange basis polynomial at `x`, as a product over the list of nodes. -/
def basisAt (nodes : List K) (x : K) (j : Nat) (xj : K) : K :=
  (nodes.zipIdx.map fun (xm, m) => if m = j then 1 else (x - xm) * (xj - xm)⁻¹).prod

theorem basisAt_eq (nodes : List K) (x : K) (j : Nat) :
    basisAt nodes x j (nodes.getD j 0) =
      (Lagrange.basis (Finset.range nodes.length) (fun i => nodes.getD i 0) j).eval x := by
  rw [basisAt, prod_map_zipIdx nodes 0 _ 0, Lagrange.basis, eval_prod]
  simp only [zero_add]
  rw [← Finset.prod_erase (Finset.range nodes.length)
    (show (if j = j then (1 : K) else _) = 1 from if_pos rfl)]
  refine Finset.prod_congr rfl fun m hm => ?_
  rw [if_neg (Finset.ne_of_mem_erase hm), Lagrange.basisDivisor, eval_mul, eval_C, eval_sub, eval_X,
    eval_C, mul_comm]

theorem injOn_getD {nodes : List K} (hnodup : nodes.Nodup) :
    Set.InjOn (fun i => nodes.getD i 0) (Finset.range nodes.length) := by
  intro i hi j hj hij
  rw [Finset.coe_range, Set.mem_Iio] at hi hj
  simp only [List.getD_eq_getElem _ _ hi, List.getD_eq_getElem _ _ hj] at hij
  exact (hnodup.getElem_inj_iff).mp hij

/-- **The Lagrange formula gives a polynomial back** from its values at more distinct nodes than its
degree. -/
theorem interpolate_eq {f : K[X]} {nodes evals : List K} (hnodup : nodes.Nodup)
    (hdegree : f.degree < nodes.length) (hevals : evals = nodes.map fun a => f.eval a) (x : K) :
    ((evals.zip nodes.zipIdx).map fun (e, xj, j) => e * basisAt nodes x j xj).sum = f.eval x := by
  have hlen : nodes.length = evals.length := by simp [hevals]
  have hf := Lagrange.eq_interpolate (injOn_getD hnodup) (by rwa [Finset.card_range])
  conv_rhs => rw [hf, Lagrange.interpolate_apply, eval_finsetSum]
  rw [sum_map_zip_zipIdx evals nodes hlen 0 _ 0 0]
  refine Finset.sum_congr rfl fun j hj => ?_
  have hj := Finset.mem_range.mp hj
  rw [eval_mul, eval_C, zero_add, ← basisAt_eq nodes x j, hevals,
    List.getD_eq_getElem _ _ (by simpa using hj), List.getElem_map, List.getD_eq_getElem _ _ hj]

/-- `f` has degree below the number of nodes and takes the given values at them. -/
def Through (nodes evals : List K) (f : K[X]) : Prop :=
  f.degree < nodes.length ∧ evals = nodes.map fun a => f.eval a

/-- **There is one polynomial through points with distinct nodes.** -/
theorem existsUnique_through {nodes evals : List K} (hnodup : nodes.Nodup)
    (hlen : evals.length = nodes.length) : ∃! f, Through nodes evals f := by
  have hinj := injOn_getD hnodup
  refine ⟨Lagrange.interpolate (Finset.range nodes.length) (fun i => nodes.getD i 0)
    fun i => evals.getD i 0, ⟨?_, ?_⟩, fun g hg => ?_⟩
  · have hdegree := Lagrange.degree_interpolate_lt (fun i => evals.getD i 0) hinj
    rwa [Finset.card_range] at hdegree
  · refine List.ext_getElem (by rw [hlen, List.length_map]) fun i hi hi' => ?_
    rw [hlen] at hi
    have heval := Lagrange.eval_interpolate_at_node (fun i => evals.getD i 0) hinj
      (Finset.mem_range.mpr hi)
    rw [List.getD_eq_getElem _ _ hi, List.getD_eq_getElem _ _ (hlen ▸ hi)] at heval
    rw [List.getElem_map, heval]
  · refine Lagrange.eq_interpolate_of_eval_eq _ hinj (by rw [Finset.card_range]; exact hg.1) ?_
    intro i hi
    have hi := Finset.mem_range.mp hi
    rw [List.getD_eq_getElem _ _ hi, hg.2, List.getD_eq_getElem _ _ (by rwa [List.length_map]),
      List.getElem_map]

end

/-! ### Other differences -/

section
variable [Field K]

/-- The weight of the `j`-th node in the value at `x`, with the differences that `diff` gives. -/
def weightAt (diff : α → α → K) (nodes : List α) (x : α) (j : Nat) (xj : α) : K :=
  (nodes.zipIdx.map fun (xm, m) => if m = j then 1 else diff x xm * (diff xj xm)⁻¹).prod

/-- The value at `x` that the Lagrange formula gives with these differences. -/
def interpolateBy (diff : α → α → K) (nodes : List α) (evals : List K) (x : α) : K :=
  ((evals.zip nodes.zipIdx).map fun q => q.1 * weightAt diff nodes x q.2.2 q.2.1).sum

variable {diff : α → α → K} {nodes : List α} {x : α}

theorem ne_of_mem_zipIdx (hnodup : nodes.Nodup) {a b : α} {i j : Nat} (ha : (a, i) ∈ nodes.zipIdx)
    (hb : (b, j) ∈ nodes.zipIdx) : i ≠ j ↔ a ≠ b := by
  obtain ⟨hi, ha⟩ := List.mem_zipIdx' ha
  obtain ⟨hj, hb⟩ := List.mem_zipIdx' hb
  rw [ha, hb]
  exact not_congr hnodup.getElem_inj_iff.symm

/-- **With the right differences it is the right value.** -/
theorem interpolateBy_sub {val : α → K} {f : K[X]} {evals : List K} (hnodup : (nodes.map val).Nodup)
    (hdegree : f.degree < nodes.length) (hevals : evals = nodes.map fun a => f.eval (val a)) :
    interpolateBy (fun a b => val a - val b) nodes evals x = f.eval (val x) := by
  have hevals' : evals = (nodes.map val).map fun a => f.eval a := by
    rw [hevals, List.map_map]
    rfl
  rw [← interpolate_eq hnodup (by rwa [List.length_map]) hevals', interpolateBy, List.zipIdx_map,
    List.zip_map_right, List.map_map]
  refine congrArg List.sum (List.map_congr_left fun q _ => congrArg (q.1 * ·) ?_)
  rw [weightAt, basisAt, List.zipIdx_map, List.map_map]
  rfl

theorem interpolateBy_eq_zero (g : α → K) {b : α} (hb : b ∈ nodes) (hzero : diff x b = 0) (hg : g b = 0) :
    interpolateBy diff nodes (nodes.map g) x = 0 := by
  obtain ⟨m, hm⟩ := List.mem_iff_getElem?.mp hb
  have hm : (b, m) ∈ nodes.zipIdx := List.mem_zipIdx_iff_getElem?.mpr hm
  have hzip : (nodes.map g).zip nodes.zipIdx = nodes.zipIdx.map fun q => (g q.1, q) := by
    have h := @List.zip_map' _ _ _ (g ∘ Prod.fst) id nodes.zipIdx
    rwa [List.map_id, ← List.map_map, List.zipIdx_map_fst] at h
  rw [interpolateBy, hzip, List.map_map]
  refine List.sum_eq_zero fun term hterm => ?_
  obtain ⟨⟨xj, j⟩, hj, rfl⟩ := List.mem_map.mp hterm
  by_cases hjm : m = j
  · subst hjm
    have hxj : xj = b := (List.mem_zipIdx' hj).2.trans (List.mem_zipIdx' hm).2.symm
    simp only [Function.comp_apply, hxj, hg, zero_mul]
  · have hweight : weightAt diff nodes x j xj = 0 := by
      refine List.prod_eq_zero (List.mem_map.mpr ⟨(b, m), hm, ?_⟩)
      simp only [if_neg hjm, hzero, zero_mul]
    simp only [Function.comp_apply, hweight, mul_zero]

end

end SclRs.Lib.Interpolation
