import Mathlib.Tactic.NormNum.Prime
import SclRs.Lib.Pratt

/-!
# The moduli of the fields

The moduli of the three fields and the proofs that they are prime. A factor of some `p - 1` that is too
large for trial division has a certificate of its own.
-/

namespace SclRs

open Lib.Pratt

/-- The number with the given 64-bit words, least significant first. -/
def fromWords (w₀ w₁ w₂ w₃ : Nat) : Nat := w₀ + 2 ^ 64 * (w₁ + 2 ^ 64 * (w₂ + 2 ^ 64 * w₃))

/-- `Secp256k1PrimeField::MODULUS`. -/
def primeModulus : Nat :=
  fromWords 0xFFFFFFFEFFFFFC2F 0xFFFFFFFFFFFFFFFF 0xFFFFFFFFFFFFFFFF 0xFFFFFFFFFFFFFFFF

/-- `Secp256k1ScalarField::MODULUS`. -/
def scalarModulus : Nat :=
  fromWords 0xBFD25E8CD0364141 0xBAAEDCE6AF48A03B 0xFFFFFFFFFFFFFFFE 0xFFFFFFFFFFFFFFFF

/-- `Mersenne61::MODULUS`. -/
def mersenneModulus : Nat := 0x1FFFFFFFFFFFFFFF

/-! ### Certificates -/

/-- The factors that trial division shows to be prime. -/
def smallPrimes : List Nat :=
  [2, 3, 5, 7, 11, 13, 17, 29, 31, 41, 53, 59, 61, 97, 109, 149, 151, 293, 331, 461, 631, 797,
    971, 1321, 1373, 1627, 2011, 2621, 2657, 4051, 4423, 5323, 7723, 9349, 13441, 16699, 24809,
    28181, 41201, 85831, 96557, 120233, 305873, 1206781, 1627771]

theorem prime_smallPrimes : ∀ q ∈ smallPrimes, q.Prime := by
  simp only [smallPrimes, List.forall_mem_cons]
  norm_num

/-- The large factors, each before the numbers that it is a factor for, and the moduli. -/
def certificates : List Certificate :=
  [⟨107590001, 3, 27, [2, 2, 2, 2, 5, 5, 5, 5, 7, 29, 53]⟩,
    ⟨7240687, 3, 23, [2, 3, 1206781]⟩,
    ⟨255515944373312847190720520512484175977, 3, 128,
      [2, 2, 2, 7, 7, 11, 1627, 2657, 4423, 41201, 96557, 7240687, 107590001]⟩,
    ⟨13331831, 13, 24, [2, 5, 971, 1373]⟩,
    ⟨173378833005251801, 6, 58, [2, 2, 2, 5, 5, 2621, 24809, 13331831]⟩,
    ⟨22149492674086928081353, 5, 75, [2, 2, 2, 3, 5323, 173378833005251801]⟩,
    ⟨132896956044521568488119, 6, 77, [2, 3, 22149492674086928081353]⟩,
    ⟨205115282021455665897114700593932402728804164701536103180137503955397371, 10, 237,
      [2, 3, 5, 29, 29, 31, 7723, 132896956044521568488119,
        255515944373312847190720520512484175977]⟩,
    ⟨primeModulus, 3, 256,
      [2, 3, 7, 13441, 205115282021455665897114700593932402728804164701536103180137503955397371]⟩,
    ⟨44706919, 6, 26, [2, 3, 797, 9349]⟩,
    ⟨174723607534414371449, 3, 68, [2, 2, 2, 17, 59, 4051, 120233, 44706919]⟩,
    ⟨4681609, 23, 23, [2, 2, 2, 3, 97, 2011]⟩,
    ⟨107361793816595537, 3, 57, [2, 2, 2, 2, 16699, 85831, 4681609]⟩,
    ⟨545358713, 5, 30, [2, 2, 2, 41, 59, 28181]⟩,
    ⟨297159362677, 2, 39, [2, 2, 3, 3, 11, 461, 1627771]⟩,
    ⟨29047611873442575647497758179, 2, 95, [2, 293, 305873, 545358713, 297159362677]⟩,
    ⟨341948486974166000522343609283189, 2, 109, [2, 2, 3, 3, 3, 109, 29047611873442575647497758179]⟩,
    ⟨scalarModulus, 7, 256,
      [2, 2, 2, 2, 2, 2, 3, 149, 631, 107361793816595537, 174723607534414371449,
        341948486974166000522343609283189]⟩,
    ⟨mersenneModulus, 37, 61, [2, 3, 3, 5, 5, 7, 11, 13, 31, 41, 61, 151, 331, 1321]⟩]

theorem prime_certificates : ∀ c ∈ certificates, c.p.Prime :=
  prime_of_checkAll prime_smallPrimes (by decide +kernel)

theorem prime_primeModulus : primeModulus.Prime :=
  prime_certificates _ (List.mem_of_getElem? (i := 8) rfl)

theorem prime_scalarModulus : scalarModulus.Prime :=
  prime_certificates _ (List.mem_of_getElem? (i := 17) rfl)

theorem prime_mersenneModulus : mersenneModulus.Prime :=
  prime_certificates _ (List.mem_of_getElem? (i := 18) rfl)

instance : Fact primeModulus.Prime := ⟨prime_primeModulus⟩

instance : Fact scalarModulus.Prime := ⟨prime_scalarModulus⟩

instance : Fact mersenneModulus.Prime := ⟨prime_mersenneModulus⟩

end SclRs
