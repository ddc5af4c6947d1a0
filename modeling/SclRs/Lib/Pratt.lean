import Mathlib.NumberTheory.LucasPrimality
import Mathlib.Data.List.Prime

/-!
# Primality by Lucas's test, evaluated in the kernel

`powMod` raises to a power modulo `m` by squaring, so that the kernel can evaluate it at numbers of
some hundred bits. `prime_of_lucas` turns a factorization of `p - 1` into primes and a number `a` of
order `p - 1` into a proof that `p` is prime; a list of such data certifies all its numbers when their
factors are known or certified before (`prime_of_checkAll`).
-/

namespace SclRs.Lib.Pratt

/-- `a ^ e % m`, for an exponent of at most `bits` bits. -/
def powMod (m : ℕ) : (bits a e : ℕ) → ℕ
  | 0, _, _ => 1 % m
  | bits + 1, a, e =>
    if e % 2 = 1 then a * powMod m bits (a * a % m) (e / 2) % m
    else powMod m bits (a * a % m) (e / 2)

theorem powMod_eq (m bits a e : ℕ) (he : e < 2 ^ bits) : powMod m bits a e = a ^ e % m := by
  induction bits generalizing a e with
  | zero =>
    obtain rfl : e = 0 := by simpa using he
    rfl
  | succ bits ih =>
    have hhalf : e / 2 < 2 ^ bits := by
      rw [pow_succ] at he
      omega
    have hsquare : (a * a % m) ^ (e / 2) % m = a ^ (2 * (e / 2)) % m := by
      rw [← Nat.pow_mod, pow_mul, sq]
    rw [powMod, ih _ _ hhalf, hsquare]
    split_ifs with hodd
    · have hsplit : e = 2 * (e / 2) + 1 := by omega
      rw [Nat.mul_mod, Nat.mod_mod, ← Nat.mul_mod, ← pow_succ', ← hsplit]
    · have hsplit : e = 2 * (e / 2) := by omega
      rw [← hsplit]

/-- `a` has order `p - 1` modulo `p`, where `qs` are the prime factors of `p - 1`. -/
def lucasCheck (p a bits : ℕ) (qs : List ℕ) : Bool :=
  decide (1 < p) && decide (p ≤ 2 ^ bits) && (qs.prod == p - 1) && (powMod p bits a (p - 1) == 1) &&
    qs.all fun q => powMod p bits a ((p - 1) / q) != 1

theorem natCast_pow_eq_one {p : ℕ} (hp : 1 < p) (a e : ℕ) : (a : ZMod p) ^ e = 1 ↔ a ^ e % p = 1 := by
  have hone : 1 % p = 1 := Nat.mod_eq_of_lt hp
  rw [← Nat.cast_pow, ← Nat.cast_one, ZMod.natCast_eq_natCast_iff', hone]

/-- A number that passes Lucas's test with prime factors is prime. -/
theorem prime_of_lucas {p : ℕ} (a bits : ℕ) (qs : List ℕ) (hprime : ∀ q ∈ qs, q.Prime)
    (hcheck : lucasCheck p a bits qs = true) : p.Prime := by
  simp only [lucasCheck, Bool.and_eq_true, decide_eq_true_eq, beq_iff_eq, List.all_eq_true,
    bne_iff_ne] at hcheck
  obtain ⟨⟨⟨⟨hp, hbits⟩, hprod⟩, hone⟩, hne⟩ := hcheck
  have hpow : ∀ e ≤ p - 1, powMod p bits a e = a ^ e % p := fun e he =>
    powMod_eq p bits a e (by omega)
  refine lucas_primality p a ?_ fun q hq hdvd => ?_
  · rw [natCast_pow_eq_one hp, ← hpow _ le_rfl, hone]
  · obtain ⟨r, hr, hqr⟩ := (Prime.dvd_prod_iff hq.prime).mp (hprod ▸ hdvd)
    obtain rfl := (Nat.prime_dvd_prime_iff_eq hq (hprime r hr)).mp hqr
    rw [Ne, natCast_pow_eq_one hp, ← hpow _ (Nat.div_le_self _ _)]
    exact hne q hr

/-! ### Certificates -/

/-- The data of Lucas's test for `p`. -/
structure Certificate where
  p : ℕ
  a : ℕ
  bits : ℕ
  factors : List ℕ

/-- Every number passes the test, with factors that are in `known` or have passed before. -/
def checkAll (known : List ℕ) : List Certificate → Bool
  | [] => true
  | c :: certificates =>
    lucasCheck c.p c.a c.bits c.factors && c.factors.all (known.contains ·) &&
      checkAll (c.p :: known) certificates

/-- **Certified numbers are prime.** -/
theorem prime_of_checkAll {known : List ℕ} {certificates : List Certificate}
    (hknown : ∀ q ∈ known, q.Prime) (hcheck : checkAll known certificates = true) :
    ∀ c ∈ certificates, c.p.Prime := by
  induction certificates generalizing known with
  | nil => exact fun _ hmem => absurd hmem List.not_mem_nil
  | cons c certificates ih =>
    simp only [checkAll, Bool.and_eq_true, List.all_eq_true, List.contains_iff_mem] at hcheck
    obtain ⟨⟨hlucas, hfactors⟩, hrest⟩ := hcheck
    have hprime := prime_of_lucas c.a c.bits c.factors (fun q hq => hknown q (hfactors q hq)) hlucas
    exact List.forall_mem_cons.mpr ⟨hprime, ih (List.forall_mem_cons.mpr ⟨hprime, hknown⟩) hrest⟩

end SclRs.Lib.Pratt
