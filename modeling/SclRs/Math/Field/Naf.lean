import Mathlib.Algebra.BigOperators.Ring.Finset
import Mathlib.Data.List.GetD
import SclRs.Math.Field.Secp256k1

/-!
# Non-adjacent form

`NafEncoding` and `Secp256k1ScalarField::to_naf`, which recodes a 256-bit scalar into 257 digits -1, 0
and 1. A scalar is a natural number here; the addition that overflows 256 bits panics, and so does a
write beyond the digits. Over words it is the loop of the source (`toNafLoop_word`).
-/

namespace SclRs

/-- `NafEncoding`: the digits, least significant first, with -1 encoded as 2. -/
structure NafEncoding where
  digits : List Nat
deriving DecidableEq

namespace NafEncoding

def new (capacity : Nat) : NafEncoding := ⟨List.replicate capacity 0⟩

/-- `create_neg`, `create_pos` and `create_zero`: the digit at `idx`, within bounds. -/
def create (digit : Nat) (naf : NafEncoding) (idx : Nat) : Option NafEncoding :=
  if idx < naf.digits.length then some ⟨naf.digits.set idx digit⟩ else none

def createNeg : NafEncoding → Nat → Option NafEncoding := create 2

def createPos : NafEncoding → Nat → Option NafEncoding := create 1

def createZero : NafEncoding → Nat → Option NafEncoding := create 0

def digitValue (digit : Nat) : ℤ := if digit = 1 then 1 else if digit = 2 then -1 else 0

def value : List Nat → ℤ
  | [] => 0
  | d :: digits => digitValue d + 2 * value digits

@[simp] theorem value_replicate_zero (n : Nat) : value (List.replicate n 0) = 0 := by
  induction n with
  | zero => rfl
  | succ n ih => simp [List.replicate_succ, value, ih, digitValue]

theorem value_eq_sum (digits : List Nat) :
    value digits = ∑ i ∈ Finset.range digits.length, digitValue (digits.getD i 0) * 2 ^ i := by
  induction digits with
  | nil => rfl
  | cons d digits ih =>
    rw [value, ih, List.length_cons, Finset.sum_range_succ', Finset.mul_sum, add_comm]
    congr 1
    · apply Finset.sum_congr rfl
      intro i _
      rw [List.getD_cons_succ, pow_succ]
      ring
    · rw [List.getD_cons_zero, pow_zero, mul_one]

theorem getD_of_isChain {digits : List Nat} (h : digits.IsChain fun d e => d = 0 ∨ e = 0) (i : Nat) :
    digits.getD i 0 = 0 ∨ digits.getD (i + 1) 0 = 0 := by
  by_cases hi : i + 1 < digits.length
  · have hrel := List.isChain_iff_getElem.mp h i hi
    rwa [List.getD_eq_getElem _ _ (by omega), List.getD_eq_getElem _ _ hi]
  · exact .inr (List.getD_eq_default _ _ (by omega))

/-- The digits, one for each of `r` positions, encode `val`, and no two that are next to each other are both
non-zero. The first one of an even number is zero. -/
structure Recodes (ds : List Nat) (r val : Nat) : Prop where
  length : ds.length = r
  digits : ∀ d ∈ ds, d = 0 ∨ d = 1 ∨ d = 2
  value : value ds = val
  nonAdjacent : ds.IsChain fun d e => d = 0 ∨ e = 0
  even : val % 2 = 0 → ∀ d ∈ ds.head?, d = 0

/-- The digit `d` is written for `val`, and `val'` is left. -/
inductive Peels : (d val val' : Nat) → Prop
  | neg {val val' : Nat} : val + 1 = 2 * val' → val' % 2 = 0 → Peels 2 val val'
  | pos {val val' : Nat} : val = 1 + 2 * val' → val' % 2 = 0 → Peels 1 val val'
  | zero {val val' : Nat} : val = 2 * val' → Peels 0 val val'

theorem recodes_zero (r : Nat) : Recodes (List.replicate r 0) r 0 where
  length := List.length_replicate
  digits _ hd := .inl (List.eq_of_mem_replicate hd)
  value := value_replicate_zero r
  nonAdjacent := List.isChain_replicate_of_rel r (.inl rfl)
  even _ _ hd := List.eq_of_mem_replicate (List.mem_of_mem_head? hd)

/-- **A digit more**: what is left after a digit that is not zero is even. -/
theorem Recodes.cons {ds : List Nat} {r d val val' : Nat} (h : Recodes ds r val') (hpeels : Peels d val val') :
    Recodes (d :: ds) (r + 1) val where
  length := congrArg (· + 1) h.length
  digits := by
    have hd : d = 0 ∨ d = 1 ∨ d = 2 := by cases hpeels <;> simp
    exact List.forall_mem_cons.mpr ⟨hd, h.digits⟩
  value := by
    rw [NafEncoding.value, h.value]
    cases hpeels with
    | neg hval =>
      show -1 + 2 * (val' : ℤ) = val
      omega
    | pos hval =>
      show 1 + 2 * (val' : ℤ) = val
      omega
    | zero hval =>
      show 0 + 2 * (val' : ℤ) = val
      omega
  nonAdjacent := by
    refine List.isChain_cons.mpr ⟨fun e he => ?_, h.nonAdjacent⟩
    cases hpeels with
    | neg _ heven | pos _ heven => exact .inr (h.even heven e he)
    | zero => exact .inl rfl
  even heven e he := by
    obtain rfl := Option.some.inj he
    cases hpeels with
    | neg | pos => omega
    | zero => rfl

theorem create_replicate (digit : Nat) (pre : List Nat) (r : Nat) :
    create digit ⟨pre ++ List.replicate (r + 1) 0⟩ pre.length =
      some ⟨(pre ++ [digit]) ++ List.replicate r 0⟩ := by
  simp [create, List.replicate_succ]

end NafEncoding

namespace ModUint

/-! ### Bits of a word -/

/-- `as_limbs`: the words of 64 bits, least significant first. -/
def asLimbs (input : Uint) : List (BitVec 64) :=
  (List.range 4).map fun limb => (input >>> (64 * limb)).setWidth 64

/-- `test_bit`: the assertion panics beyond the bits. -/
def testBit (input : Uint) (pos : Nat) : Option Bool :=
  if pos < 4 * 64 then do
    let limb ← (asLimbs input)[pos / 64]?
    some ((limb >>> (pos % 64)) &&& 1 == 1)
  else none

theorem and_one_beq_one (limb : BitVec 64) : (limb &&& 1 == 1) = limb.getLsbD 0 := by
  rw [show (1 : BitVec 64) = 1#64 from rfl, BitVec.and_one_eq_setWidth_ofBool_getLsbD]
  cases limb.getLsbD 0 <;> rfl

theorem testBit_eq (input : Uint) {pos : Nat} (h : pos < 256) :
    testBit input pos = some (input.toNat.testBit pos) := by
  have hlimb : (asLimbs input)[pos / 64]? = some ((input >>> (64 * (pos / 64))).setWidth 64) := by
    rw [asLimbs, List.getElem?_map, List.getElem?_range (by omega), Option.map_some]
  have hpos : pos % 64 < 64 := by omega
  rw [testBit, if_pos (by omega), hlimb]
  simp only [Option.bind_eq_bind, Option.bind_some, and_one_beq_one, BitVec.getLsbD_ushiftRight,
    BitVec.getLsbD_setWidth, add_zero, hpos, decide_true, Bool.true_and, Nat.div_add_mod]
  rfl

/-! ### The recoding -/

/-- The loop of `to_naf`. -/
def toNafLoop (val i : Nat) (naf : NafEncoding) : Option NafEncoding :=
  if val = 0 then some naf
  else if val.testBit 0 then
    if val.testBit 1 then do
      let naf ← naf.createNeg i
      if val + 1 < 2 ^ 256 then toNafLoop ((val + 1) >>> 1) (i + 1) naf else none
    else do
      let naf ← naf.createPos i
      toNafLoop ((val - 1) >>> 1) (i + 1) naf
  else do
    let naf ← naf.createZero i
    toNafLoop (val >>> 1) (i + 1) naf
termination_by val
decreasing_by all_goals grind [Nat.shiftRight_eq_div_pow, Nat.testBit_succ]

/-- `to_naf`, into one digit more than the bits of a scalar. -/
def toNaf (a : Secp256k1ScalarField) : Option NafEncoding :=
  toNafLoop a.value.toNat 0 (.new (256 + 1))

/-- A turn of the loop over the words of the source. -/
theorem toNafLoop_word (val : Uint) (i : Nat) (naf : NafEncoding) :
    toNafLoop val.toNat i naf =
      if val = 0 then some naf
      else (do
        if ← testBit val 0 then
          if ← testBit val 1 then
            let naf ← naf.createNeg i
            if val.uaddOverflow 1 then none else toNafLoop ((val + 1) >>> 1).toNat (i + 1) naf
          else
            let naf ← naf.createPos i
            toNafLoop ((val - 1) >>> 1).toNat (i + 1) naf
        else
          let naf ← naf.createZero i
          toNafLoop (val >>> 1).toNat (i + 1) naf) := by
  rw [toNafLoop, testBit_eq val (by decide), testBit_eq val (by decide)]
  by_cases h : val = 0
  · subst h
    rfl
  have hne : val.toNat ≠ 0 := fun h0 => h (BitVec.eq_of_toNat_eq h0)
  have hsub : (val - 1).toNat = val.toNat - 1 :=
    BitVec.toNat_sub_of_le (show 1 ≤ val.toNat by omega)
  simp only [h, hne, if_false, Option.bind_eq_bind, Option.bind_some, BitVec.toNat_ushiftRight, hsub]
  congr 2
  refine congrArg _ (funext fun naf => ?_)
  have hover : val.uaddOverflow 1 = true ↔ ¬val.toNat + 1 < 2 ^ 256 := by
    rw [not_lt]
    exact decide_eq_true_iff
  by_cases hlt : val.toNat + 1 < 2 ^ 256
  · have hadd : (val + 1).toNat = val.toNat + 1 := BitVec.toNat_add_of_lt hlt
    rw [if_pos hlt, if_neg fun h => hover.mp h hlt, hadd]
  · rw [if_neg hlt, if_pos (hover.mpr hlt)]

/-- From the digits `pre` on, the loop writes `r` digits that recode `val`. -/
theorem toNafLoop_spec {val r : Nat} (pre : List Nat) (hbound : 2 * val ≤ 2 ^ r)
    (hlt : val + 1 < 2 ^ 256) :
    ∃ ds, NafEncoding.Recodes ds r val ∧
      toNafLoop val pre.length ⟨pre ++ List.replicate r 0⟩ = some ⟨pre ++ ds⟩ := by
  induction r generalizing val pre with
  | zero =>
    obtain rfl : val = 0 := by omega
    exact ⟨[], NafEncoding.recodes_zero 0, by simp [toNafLoop]⟩
  | succ r ih =>
    have hr : val ≤ 2 ^ r := by
      rw [pow_succ] at hbound
      omega
    have hlen : ∀ d : Nat, (pre ++ [d]).length = pre.length + 1 := by simp
    rw [toNafLoop]
    by_cases hzero : val = 0
    · subst hzero
      exact ⟨List.replicate (r + 1) 0, NafEncoding.recodes_zero (r + 1), by simp⟩
    simp only [hzero, if_false, Nat.testBit_zero, Nat.testBit_succ, decide_eq_true_eq,
      Nat.shiftRight_eq_div_pow, pow_one]
    have hstep : ∀ (d val' : Nat), NafEncoding.Peels d val val' → 2 * val' ≤ 2 ^ r → val' + 1 < 2 ^ 256 →
        ∃ ds, NafEncoding.Recodes ds (r + 1) val ∧
          toNafLoop val' (pre.length + 1) ⟨pre ++ [d] ++ List.replicate r 0⟩ = some ⟨pre ++ ds⟩ := by
      intro d val' hpeels hbound' hlt'
      obtain ⟨ds, hds, hloop⟩ := ih (pre ++ [d]) hbound' hlt'
      rw [hlen] at hloop
      exact ⟨d :: ds, hds.cons hpeels, by simpa using hloop⟩
    have hcreate : ∀ d, NafEncoding.create d ⟨pre ++ List.replicate (r + 1) 0⟩ pre.length =
        some ⟨pre ++ [d] ++ List.replicate r 0⟩ := fun d => NafEncoding.create_replicate d pre r
    by_cases hodd : val % 2 = 1
    · by_cases hodd' : val / 2 % 2 = 1
      · -- the digit is -1 and the rest is rounded up; it still fits because `val` is odd
        have hround : val + 1 ≤ 2 ^ r := by
          cases r with
          | zero => omega
          | succ r =>
            rw [pow_succ] at hr ⊢
            omega
        simp only [hodd, hodd', if_true, NafEncoding.createNeg, hcreate, Option.bind_eq_bind,
          Option.bind_some, hlt]
        exact hstep 2 _ (.neg (by omega) (by omega)) (by omega) (by omega)
      · simp only [hodd, hodd', if_true, if_false, NafEncoding.createPos, hcreate,
          Option.bind_eq_bind, Option.bind_some]
        exact hstep 1 _ (.pos (by omega) (by omega)) (by omega) (by omega)
    · simp only [hodd, if_false, NafEncoding.createZero, hcreate, Option.bind_eq_bind,
        Option.bind_some]
      exact hstep 0 _ (.zero (by omega)) (by omega) (by omega)

/-- The scalar whose recoding overflows. -/
def scalarMax : Secp256k1ScalarField := ⟨BitVec.allOnes 256⟩

/-- The recoding is right, for every scalar but the one of which the addition overflows. -/
theorem toNaf_spec {a : Secp256k1ScalarField} (ha : a ≠ scalarMax) :
    ∃ naf, a.toNaf = some naf ∧ NafEncoding.Recodes naf.digits (256 + 1) a.value.toNat := by
  have hlt : a.value.toNat + 1 < 2 ^ 256 := by
    have hle := a.value.isLt
    have hne : a.value.toNat ≠ 2 ^ 256 - 1 := fun h => ha (ext_toNat (by
      rw [h, scalarMax, BitVec.toNat_allOnes]))
    omega
  obtain ⟨ds, hds, hloop⟩ := toNafLoop_spec (r := 256 + 1) [] (by omega) hlt
  exact ⟨⟨ds⟩, hloop, hds⟩

theorem toNaf_scalarMax : scalarMax.toNaf = none := by
  have hval : scalarMax.value.toNat = 2 ^ 256 - 1 := BitVec.toNat_allOnes
  rw [toNaf, hval, toNafLoop, if_neg (by decide), if_pos (by decide), if_pos (by decide)]
  rw [show NafEncoding.createNeg (.new (256 + 1)) 0 = some _ from
    NafEncoding.create_replicate 2 [] 256]
  simp only [Option.bind_eq_bind, Option.bind_some]
  exact if_neg (by decide)

theorem ne_scalarMax {a : Secp256k1ScalarField} (ha : a.Canonical) : a ≠ scalarMax := by
  rintro rfl
  revert ha
  decide

/-- **The recoding is exact, sparse and in bounds** for every canonical scalar: no write misses the
digits, no addition overflows, the digits sum to the scalar and no two in a row are non-zero. -/
theorem toNaf_exact {a : Secp256k1ScalarField} (ha : a.Canonical) :
    ∃ naf, a.toNaf = some naf ∧ naf.digits.length = 256 + 1 ∧
      (∀ d ∈ naf.digits, d = 0 ∨ d = 1 ∨ d = 2) ∧
      ∑ i ∈ Finset.range (256 + 1), NafEncoding.digitValue (naf.digits.getD i 0) * 2 ^ i =
        a.value.toNat ∧
      ∀ i, naf.digits.getD i 0 = 0 ∨ naf.digits.getD (i + 1) 0 = 0 := by
  obtain ⟨naf, hnaf, h⟩ := toNaf_spec (ne_scalarMax ha)
  refine ⟨naf, hnaf, h.length, h.digits, ?_, NafEncoding.getD_of_isChain h.nonAdjacent⟩
  rw [← h.value, NafEncoding.value_eq_sum, h.length]

/-- The largest canonical scalar, of which the carry runs to the last digit. -/
def scalarTop : Secp256k1ScalarField := .new (modulus scalarModulus - 1)

theorem toNaf_scalarTop :
    scalarTop.Canonical ∧
      ∃ naf, scalarTop.toNaf = some naf ∧ naf.digits.length = 256 + 1 ∧
        (∀ d ∈ naf.digits, d = 0 ∨ d = 1 ∨ d = 2) ∧
        ∑ i ∈ Finset.range (256 + 1), NafEncoding.digitValue (naf.digits.getD i 0) * 2 ^ i =
          scalarTop.value.toNat ∧
        ∀ i, naf.digits.getD i 0 = 0 ∨ naf.digits.getD (i + 1) 0 = 0 :=
  ⟨by decide, toNaf_exact (by decide)⟩

end ModUint

end SclRs
