import Mathlib.LinearAlgebra.FiniteDimensional.Basic
import Mathlib.LinearAlgebra.Vandermonde

/-!
# Transposed Vandermonde systems

The power sums `∑ i, α i ^ k * x i`, as many as there are distinct nodes, determine the `x i`, and can
be prescribed.
-/

namespace SclRs.Lib.Vandermonde

variable {K : Type*} [Field K]

def powerSums {m : Nat} (α : Fin m → K) : (Fin m → K) →ₗ[K] (Fin m → K) where
  toFun x k := ∑ i, x i * α i ^ (k : ℕ)
  map_add' x y := by
    ext k
    simp only [Pi.add_apply, add_mul, Finset.sum_add_distrib]
  map_smul' c x := by
    ext k
    simp only [Pi.smul_apply, smul_eq_mul, RingHom.id_apply, Finset.mul_sum, mul_assoc]

theorem powerSums_bijective {m : Nat} {α : Fin m → K} (hα : Function.Injective α) :
    Function.Bijective (powerSums α) := by
  have hinj : Function.Injective (powerSums α) := by
    refine (injective_iff_map_eq_zero _).mpr fun x hx => ?_
    exact Matrix.eq_zero_of_forall_pow_sum_mul_pow_eq_zero hα fun k => congrFun hx k
  exact ⟨hinj, LinearMap.injective_iff_surjective.mp hinj⟩

/-- **The weights of distinct nodes with given power sums** are unique. -/
theorem existsUnique_powerSums {ι : Type*} [Fintype ι] {α : ι → K} (hα : Function.Injective α)
    (y : Nat → K) :
    ∃! x : ι → K, ∀ k < Fintype.card ι, ∑ i, x i * α i ^ k = y k := by
  let e := Fintype.equivFin ι
  have hsum : ∀ (x : ι → K) (k : Nat),
      ∑ i, x i * α i ^ k = ∑ j, (x ∘ e.symm) j * (α ∘ e.symm) j ^ k :=
    fun x k => (e.symm.sum_comp fun i => x i * α i ^ k).symm
  obtain ⟨x, hx, hunique⟩ := (powerSums_bijective (hα.comp e.symm.injective)).existsUnique
    fun k => y k
  refine ⟨x ∘ e, fun k hk => ?_, fun z hz => ?_⟩
  · rw [hsum, Function.comp_assoc, Equiv.self_comp_symm, Function.comp_id]
    exact congrFun hx ⟨k, hk⟩
  · have hz' := hunique (z ∘ e.symm) (funext fun k => (hsum z k).symm.trans (hz k k.isLt))
    rw [← hz', Function.comp_assoc, Equiv.symm_comp_self, Function.comp_id]

end SclRs.Lib.Vandermonde
