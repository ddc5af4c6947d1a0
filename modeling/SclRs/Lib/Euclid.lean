import Mathlib.Data.ZMod.Basic
import Mathlib.Tactic.Linarith
import Mathlib.Tactic.LinearCombination
import Mathlib.Tactic.Ring

/-!
# Inversion by Euclid's extended algorithm

The loop that replaces `(k, newK, r, newR)` by `(newK, k - q * newK, newR, r - q * newR)`, where `q` is
the quotient of `r` by `newR`, started from `(0, 1, m, a)`. The remainders are the coefficients' multiples
of `a` modulo `m`. The coefficients alternate in sign, so that the sum which `Invariant.signs` states
does not change, and none of them ever exceeds `m`.
-/

namespace SclRs.Lib.Euclid

structure Invariant (m : Nat) (a : ZMod m) (k newK r newR : Int) : Prop where
  r_eq : (r : ZMod m) = k * a
  newR_eq : (newR : ZMod m) = newK * a
  coprime : r.gcd newR = 1
  pos : 0 < r
  nonneg : 0 ≤ newR
  bound : -m ≤ k ∧ k ≤ m
  signs : (k ≤ 0 ∧ 0 ≤ newK ∧ newK * r - k * newR = m) ∨
    (0 ≤ k ∧ newK ≤ 0 ∧ k * newR - newK * r = m)

variable {m : Nat} {a : ZMod m} {k newK r newR : Int}

theorem Invariant.init {n : Nat} (hm : 0 < m) (hcoprime : n.Coprime m) :
    Invariant m n 0 1 m n where
  r_eq := by simp
  newR_eq := by simp
  coprime := by rw [Int.gcd_natCast_natCast, Nat.gcd_comm, hcoprime]
  pos := by omega
  nonneg := by omega
  bound := by omega
  signs := .inl ⟨le_rfl, zero_le_one, by ring⟩

/-- The coefficients after a step, and the product that it subtracts, are at most `m`. -/
theorem Invariant.bounds (h : Invariant m a k newK r newR) (hnewR : 0 < newR) :
    (-m ≤ newK ∧ newK ≤ m) ∧ (-m ≤ r / newR * newK ∧ r / newR * newK ≤ m) ∧
      -m ≤ k - r / newR * newK ∧ k - r / newR * newK ≤ m := by
  have hr := h.pos
  have hq : 0 ≤ r / newR := Int.ediv_nonneg h.pos.le h.nonneg
  have hqr : r / newR * newR ≤ r := Int.ediv_mul_le r hnewR.ne'
  generalize r / newR = q at hq hqr ⊢
  rcases h.signs with ⟨hk, hnewK, hsum⟩ | ⟨hk, hnewK, hsum⟩
  · have hprod : 0 ≤ q * newK := mul_nonneg hq hnewK
    have hcoefficient : newK ≤ m := by nlinarith
    have hnext : -(k - q * newK) ≤ m := by nlinarith
    omega
  · have hprod : q * newK ≤ 0 := mul_nonpos_of_nonneg_of_nonpos hq hnewK
    have hcoefficient : -newK ≤ m := by nlinarith
    have hnext : k - q * newK ≤ m := by nlinarith
    omega

/-- **A step keeps the invariant.** -/
theorem Invariant.step (h : Invariant m a k newK r newR) (hnewR : 0 < newR) :
    Invariant m a newK (k - r / newR * newK) newR (r % newR) where
  r_eq := h.newR_eq
  newR_eq := by
    have hrem : r % newR = r - newR * (r / newR) := by rw [Int.emod_def]
    rw [hrem]
    push_cast
    rw [h.r_eq, h.newR_eq]
    ring
  coprime := by rw [Int.gcd_comm, Int.gcd_emod, h.coprime]
  pos := hnewR
  nonneg := Int.emod_nonneg _ hnewR.ne'
  bound := (h.bounds hnewR).1
  signs := by
    have hq : 0 ≤ r / newR := Int.ediv_nonneg h.pos.le h.nonneg
    have hsplit := Int.mul_ediv_add_emod r newR
    rcases h.signs with ⟨hk, hnewK, hsum⟩ | ⟨hk, hnewK, hsum⟩
    · have hprod : 0 ≤ r / newR * newK := mul_nonneg hq hnewK
      exact .inr ⟨hnewK, by omega, by linear_combination hsum + newK * hsplit⟩
    · have hprod : r / newR * newK ≤ 0 := mul_nonpos_of_nonneg_of_nonpos hq hnewK
      exact .inl ⟨hnewK, by omega, by linear_combination hsum - newK * hsplit⟩

/-- **When the remainder is zero, the coefficient is an inverse.** -/
theorem Invariant.done (h : Invariant m a k newK r 0) : (k : ZMod m) * a = 1 := by
  have hr : r = 1 := by
    have hgcd := h.coprime
    have hpos := h.pos
    rw [Int.gcd_zero_right] at hgcd
    omega
  rw [← h.r_eq, hr, Int.cast_one]

end SclRs.Lib.Euclid
