import Mathlib.SetTheory.Cardinal.Finite
import SclRs.Ss.ShamirSharing

/-!
# Shamir dealing is private

Let `vanishing` be the polynomial with value one at zero that is zero at the points of at most `t`
parties. Adding a multiple of it to a dealing of degree `t` moves the secret and leaves the shares of
these parties as they are. So the coefficient vectors that give them certain shares are as many for one
secret as for the other (`shamir_privacy`).
-/

open Polynomial

namespace SclRs

open RingOps LawfulRing Lib.Interpolation

namespace ShamirSS

variable {F K : Type} [RingOps F]

/-- The shares of a dealing have these values. -/
def GivesValues (checks : Bool) (secret : F) (degree : Nat) (indexes : List F) (rng : Nat → F)
    (values : List F) : Prop :=
  (sharesFromSecret checks secret degree indexes rng).map (fun r => r.1.map share) = some values

section
variable [CommRing K] [LawfulRing F K]

/-- The generator that draws the coefficients `c`. -/
def drawn {t : Nat} (c : Fin (t + 1) → {x : F // Valid x}) (i : Nat) : F :=
  if h : i < t + 1 then (c ⟨i, h⟩).1 else zero

theorem valid_drawn {t : Nat} (c : Fin (t + 1) → {x : F // Valid x}) (i : Nat) : Valid (drawn c i) := by
  rw [drawn]
  split_ifs with hi
  · exact (c ⟨i, hi⟩).2
  · exact valid_zero

theorem givesValues_iff {checks : Bool} {secret : F} {degree : Nat} {indexes : List F}
    {rng : Nat → F} {values : List F} (hsecret : Valid secret) (hrng : ∀ i, Valid (rng i))
    (hindexes : ∀ a ∈ indexes, Valid a) (hdegree : degree + 1 < 2 ^ 64) :
    GivesValues checks secret degree indexes rng values ↔
      List.Forall₂ (fun a v => Valid v ∧ val v = (dealt secret degree rng).eval (val a)) indexes
        values := by
  obtain ⟨shares, polynomial, hdeal, hlies⟩ := sharesFromSecret_liesOn checks hsecret hrng
    hindexes hdegree
  have hshares : List.Forall₂ (fun a v => Valid v ∧ val v = (dealt secret degree rng).eval (val a))
      indexes (shares.map share) :=
    List.forall₂_map_right_iff.mpr (hlies.imp fun a s h => ⟨h.valid, h.eval⟩)
  rw [GivesValues, hdeal, Option.map_some, Option.some.injEq]
  constructor
  · rintro rfl
    exact hshares
  · intro hvalues
    clear hlies hdeal
    generalize shares.map share = shares at hshares
    induction hshares generalizing values with
    | nil => exact (List.forall₂_nil_left_iff.mp hvalues).symm
    | cons hv _ ih =>
      obtain ⟨w, rest, hw, hrest, rfl⟩ := List.forall₂_cons_left_iff.mp hvalues
      rw [ih (fun a ha => hindexes a (List.mem_cons_of_mem _ ha)) hrest,
        val_inj hv.1 hw.1 (hv.2.trans hw.2.symm)]

theorem not_givesValues {checks : Bool} {secret : F} {indexes : List F} {rng : Nat → F}
    {values : List F} {degree : Nat} (hdegree : degree + 1 = 2 ^ 64) :
    ¬ GivesValues checks secret degree indexes rng values := by
  have hnone : sharesFromSecret checks secret degree indexes rng = none := by
    rw [sharesFromSecret, Polynomial.random, usizeAdd, hdegree, if_neg (lt_irrefl _)]
    cases checks <;> rfl
  rw [GivesValues, hnone, Option.map_none]
  exact (Option.some_ne_none values).symm

end

variable [Field K] [LawfulRing F K]

/-- What is added to the coefficients above the constant one. -/
noncomputable def shift (δ : K) (nodes : List K) (t : Nat) (i : Fin (t + 1)) : K :=
  if i.val = 0 then 0 else δ * (vanishing nodes).coeff i

noncomputable def shiftEquiv (δ : K) (nodes : List K) (t : Nat) :
    (Fin (t + 1) → {x : F // Valid x}) ≃ (Fin (t + 1) → {x : F // Valid x}) :=
  ((Equiv.refl _).arrowCongr validEquiv).trans
    ((Equiv.addRight (shift δ nodes t)).trans ((Equiv.refl _).arrowCongr validEquiv).symm)

theorem val_shiftEquiv (δ : K) (nodes : List K) (t : Nat) (c : Fin (t + 1) → {x : F // Valid x})
    (i : Fin (t + 1)) :
    val (shiftEquiv δ nodes t c i).1 = val (c i).1 + shift δ nodes t i :=
  validEquiv.apply_symm_apply (val (c i).1 + shift δ nodes t i)

/-- **The dealing of the other secret** differs in a multiple of `vanishing`. -/
theorem dealt_shiftEquiv {s s' : F} {nodes : List K} {t : Nat} (hlen : nodes.length ≤ t)
    (c : Fin (t + 1) → {x : F // Valid x}) :
    dealt s' t (drawn (shiftEquiv (val s' - val s) nodes t c)) =
      dealt s t (drawn c) + C (val s' - val s) * vanishing nodes := by
  ext i
  rw [coeff_add, coeff_C_mul, dealt, dealt, coeff_ofCoefficients, coeff_ofCoefficients]
  obtain _ | i := i
  · rw [List.getD_cons_zero, List.getD_cons_zero, coeff_zero_eq_eval_zero, eval_vanishing_zero]
    ring
  · rw [List.getD_cons_succ, List.getD_cons_succ]
    by_cases hi : i < t
    · have hlt : i + 1 < t + 1 := by omega
      rw [List.getD_eq_getElem _ _ (by simpa using hi), List.getD_eq_getElem _ _ (by simpa using hi)]
      simp only [List.getElem_map, List.getElem_range]
      rw [drawn, drawn, dif_pos hlt, dif_pos hlt, val_shiftEquiv, shift, if_neg (Nat.succ_ne_zero i)]
    · have hcoeff : (vanishing nodes).coeff (i + 1) = 0 :=
        coeff_eq_zero_of_natDegree_lt ((natDegree_vanishing_le nodes).trans_lt (by omega))
      rw [List.getD_eq_default _ _ (by simpa using hi), List.getD_eq_default _ _ (by simpa using hi),
        hcoeff]
      ring

/-- **Dealing is perfectly private**: the coefficient vectors that give certain shares at no more than
`t` points are as many for one secret as for any other. -/
theorem shamir_privacy {checks : Bool} {t : Nat} {indexes values : List F} {s s' : F}
    (ht : t < 2 ^ 64) (hs : Valid s) (hs' : Valid s') (hindexes : ∀ a ∈ indexes, Valid a ∧ a ≠ zero)
    (hlen : indexes.length ≤ t) :
    Nat.card {c : Fin (t + 1) → {x : F // Valid x} // GivesValues checks s t indexes (drawn c) values} =
      Nat.card {c : Fin (t + 1) → {x : F // Valid x} //
        GivesValues checks s' t indexes (drawn c) values} := by
  refine Nat.card_congr (Equiv.subtypeEquiv (shiftEquiv (val s' - val s) (indexes.map val) t) fun c => ?_)
  by_cases hsize : t + 1 = 2 ^ 64
  · exact iff_of_false (not_givesValues hsize) (not_givesValues hsize)
  have hvalid : ∀ a ∈ indexes, Valid a := fun a ha => (hindexes a ha).1
  rw [givesValues_iff hs (valid_drawn c) hvalid (by omega),
    givesValues_iff hs' (valid_drawn _) hvalid (by omega), dealt_shiftEquiv (by rwa [List.length_map])]
  have heval : ∀ a ∈ indexes, (dealt s t (drawn c) + C (val s' - val s) *
      vanishing (indexes.map val)).eval (val a) = (dealt s t (drawn c)).eval (val a) := by
    intro a ha
    have hne : val a ≠ 0 := fun h0 =>
      (hindexes a ha).2 (val_inj (hvalid a ha) valid_zero (h0.trans val_zero.symm))
    rw [eval_add, eval_mul, eval_vanishing_of_mem (List.mem_map_of_mem ha) hne, mul_zero, add_zero]
  rw [List.forall₂_iff_zip, List.forall₂_iff_zip]
  refine and_congr_right fun _ => ⟨fun h a v hav => ?_, fun h a v hav => ?_⟩
  · rw [heval a (List.of_mem_zip hav).1]
    exact h hav
  · rw [← heval a (List.of_mem_zip hav).1]
    exact h hav

theorem shamir_privacy_two :
    Nat.card {c : Fin 3 → {x : Mersenne61 // Valid x} //
        GivesValues true ⟨5⟩ 2 [⟨1⟩, ⟨3⟩] (drawn c) [⟨8⟩, ⟨9⟩]} =
      Nat.card {c : Fin 3 → {x : Mersenne61 // Valid x} //
        GivesValues true ⟨6⟩ 2 [⟨1⟩, ⟨3⟩] (drawn c) [⟨8⟩, ⟨9⟩]} :=
  shamir_privacy (F := Mersenne61) (by norm_num) (show Mersenne61.Canonical ⟨5⟩ by decide)
    (show Mersenne61.Canonical ⟨6⟩ by decide)
    (show ∀ a ∈ [(⟨1⟩ : Mersenne61), ⟨3⟩], a.Canonical ∧ a ≠ Mersenne61.zero by decide) le_rfl

end ShamirSS

end SclRs
