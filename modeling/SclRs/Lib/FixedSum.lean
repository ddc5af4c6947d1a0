import Mathlib.Algebra.BigOperators.Fin
import Mathlib.Data.Fintype.BigOperators

/-!
# Vectors with a fixed sum

A vector with a given sum is determined by all its components but one, whichever that is, and these are
arbitrary. So two ways to leave out a component are related by a bijection, whatever the sum is.
-/

namespace SclRs.Lib.FixedSum

variable {ι K : Type*} [Fintype ι] [AddCommGroup K]

abbrev Vectors (ι : Type*) [Fintype ι] (s : K) := {z : ι → K // ∑ j, z j = s}

/-- The components but the one at `i`. -/
def others {s : K} (i : ι) (z : Vectors ι s) (j : {j // j ≠ i}) : K := z.1 j

variable [DecidableEq ι] (s : K) (i : ι)

/-- The vector with these components and the sum `s`. -/
def complete (y : {j // j ≠ i} → K) (j : ι) : K := if h : j = i then s - ∑ j, y j else y ⟨j, h⟩

theorem complete_of_ne (y : {j // j ≠ i} → K) (j : {j // j ≠ i}) : complete s i y j = y j := dif_neg j.2

theorem sum_complete (y : {j // j ≠ i} → K) : ∑ j, complete s i y j = s := by
  rw [Fintype.sum_eq_add_sum_subtype_ne _ i]
  simp only [complete_of_ne]
  rw [complete, dif_pos rfl, sub_add_cancel]

/-- **All components but one** are arbitrary, and determine the vector. -/
def othersEquiv : Vectors ι s ≃ ({j // j ≠ i} → K) where
  toFun := others i
  invFun y := ⟨complete s i y, sum_complete s i y⟩
  left_inv z := by
    refine Subtype.ext (funext fun j => ?_)
    by_cases h : j = i
    · subst h
      have hsum := Fintype.sum_eq_add_sum_subtype_ne z.1 j
      rw [z.2] at hsum
      simp only [complete, dif_pos, others, hsum, add_sub_cancel_right]
    · exact complete_of_ne s i _ ⟨j, h⟩
  right_inv y := funext (complete_of_ne s i y)

/-- The first components, and the last one that completes the sum. -/
def snocEquiv {k : Nat} (s : K) : (Fin k → K) ≃ Vectors (Fin (k + 1)) s where
  toFun d := ⟨Fin.snoc d (s - ∑ j, d j), by rw [Fin.sum_snoc, add_sub_cancel]⟩
  invFun z j := z.1 j.castSucc
  left_inv d := funext fun j => Fin.snoc_castSucc (α := fun _ => K) ..
  right_inv z := by
    refine Subtype.ext (funext fun j => ?_)
    induction j using Fin.lastCases with
    | last => simp only [Fin.snoc_last, ← z.2, Fin.sum_univ_castSucc, add_sub_cancel_left]
    | cast j => simp only [Fin.snoc_castSucc]

variable {k : Nat} (s s' : K) (i : Fin (k + 1))

/-- The first components of the vector with the sum `s'` that differs at `i` only. -/
def moveEquiv : (Fin k → K) ≃ (Fin k → K) :=
  (snocEquiv s).trans <| (othersEquiv s i).trans <| (othersEquiv s' i).symm.trans (snocEquiv s').symm

theorem snocEquiv_moveEquiv (d : Fin k → K) {j : Fin (k + 1)} (hj : j ≠ i) :
    (snocEquiv s' (moveEquiv s s' i d)).1 j = (snocEquiv s d).1 j := by
  rw [moveEquiv, Equiv.trans_apply, Equiv.trans_apply, Equiv.trans_apply, Equiv.apply_symm_apply]
  exact complete_of_ne s' i _ ⟨j, hj⟩

theorem moveEquiv_self (d : Fin k → K) : moveEquiv s s i d = d := by
  rw [moveEquiv, Equiv.trans_apply, Equiv.trans_apply, Equiv.trans_apply, Equiv.symm_apply_apply,
    Equiv.symm_apply_apply]

end SclRs.Lib.FixedSum
