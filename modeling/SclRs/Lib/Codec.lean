import Mathlib.Algebra.Ring.Nat
import Mathlib.Data.List.Basic

/-!
# Byte codecs

A codec writes values as bytes and reads them back from the front of any input. Codecs compose: pairs
one after the other, lists after their length, and any type that embeds into one with a codec. The
primitive ones are those of the usual binary formats: a number as a base-128 varint or in a fixed
number of little-endian bytes, and a truth value as one byte.
-/

namespace SclRs.Lib

/-- A codec: reading undoes writing, whatever follows. -/
structure Codec (α : Type) where
  write : α → List UInt8
  read : List UInt8 → Option (α × List UInt8)
  read_write : ∀ a rest, read (write a ++ rest) = some (a, rest)

namespace Codec

variable {α β : Type}

def prod (ca : Codec α) (cb : Codec β) : Codec (α × β) where
  write := fun (a, b) => ca.write a ++ cb.write b
  read input := do
    let (a, input) ← ca.read input
    let (b, input) ← cb.read input
    return ((a, b), input)
  read_write := by
    rintro ⟨a, b⟩ rest
    simp [ca.read_write, cb.read_write]

/-- The values of `β` are written as those of `α` that they embed as. -/
def map (ca : Codec α) (f : β → α) (g : α → β) (hgf : ∀ b, g (f b) = b) : Codec β where
  write b := ca.write (f b)
  read input := (ca.read input).map fun (a, rest) => (g a, rest)
  read_write b rest := by simp [ca.read_write, hgf]

/-! ### Varints -/

/-- Seven bits a byte, low ones first; the high bit says that more follow. -/
def writeVarint (n : Nat) : List UInt8 :=
  if n < 128 then [UInt8.ofNat n] else UInt8.ofNat (n % 128 + 128) :: writeVarint (n / 128)

def readVarint : List UInt8 → Option (Nat × List UInt8)
  | [] => none
  | b :: input =>
    if b.toNat < 128 then some (b.toNat, input)
    else (readVarint input).map fun (n, rest) => (b.toNat - 128 + 128 * n, rest)

theorem toNat_ofNat_of_lt {n : Nat} (h : n < 256) : (UInt8.ofNat n).toNat = n := by
  rw [UInt8.toNat_ofNat', Nat.mod_eq_of_lt h]

/-- A number of any size; the formats of machine integers reject varints that are too long (`varint64`). -/
def varint : Codec Nat where
  write := writeVarint
  read := readVarint
  read_write n rest := by
    induction n using Nat.strongRecOn with
    | _ n ih =>
      rw [writeVarint]
      split_ifs with hlt
      · simp only [List.singleton_append, readVarint, toNat_ofNat_of_lt (show n < 256 by omega), hlt,
          if_true]
      · have hbyte := toNat_ofNat_of_lt (show n % 128 + 128 < 256 by omega)
        simp only [List.cons_append, readVarint, hbyte, ih (n / 128) (by omega), Option.map_some,
          Nat.add_sub_cancel, Nat.mod_add_div, if_neg (show ¬ n % 128 + 128 < 128 by omega)]

/-- At most `k + 1` bytes, of which the last is below `bound`. -/
def readVarintIn (bound : Nat) : (k : Nat) → List UInt8 → Option (Nat × List UInt8)
  | _, [] => none
  | 0, b :: input => if b.toNat < bound then some (b.toNat, input) else none
  | k + 1, b :: input =>
    if b.toNat < 128 then some (b.toNat, input)
    else (readVarintIn bound k input).map fun (n, rest) => (b.toNat - 128 + 128 * n, rest)

theorem readVarintIn_writeVarint {bound : Nat} (hbound : bound ≤ 128) (k : Nat) {n : Nat}
    (h : n < bound * 128 ^ k) (rest : List UInt8) :
    readVarintIn bound k (writeVarint n ++ rest) = some (n, rest) := by
  induction k generalizing n with
  | zero =>
    have hlt : n < 128 := by omega
    have hn : n < bound := by omega
    rw [writeVarint, if_pos hlt, List.singleton_append, readVarintIn, toNat_ofNat_of_lt (by omega), if_pos hn]
  | succ k ih =>
    rw [writeVarint]
    split_ifs with hlt
    · rw [List.singleton_append, readVarintIn, toNat_ofNat_of_lt (by omega), if_pos hlt]
    · have hdiv : n / 128 < bound * 128 ^ k := by
        rw [Nat.div_lt_iff_lt_mul (by decide), Nat.mul_assoc, ← Nat.pow_succ]
        exact h
      have hbyte := toNat_ofNat_of_lt (show n % 128 + 128 < 256 by omega)
      rw [List.cons_append, readVarintIn, hbyte, if_neg (show ¬ n % 128 + 128 < 128 by omega), ih hdiv]
      simp only [Option.map_some, Nat.add_sub_cancel, Nat.mod_add_div]

/-- A `u64`: ten bytes at most, with one bit in the last. -/
def varint64 : Codec UInt64 where
  write v := writeVarint v.toNat
  read input := (readVarintIn 2 9 input).map fun (n, rest) => (UInt64.ofNat n, rest)
  read_write v rest := by
    have hlt : v.toNat < 2 * 128 ^ 9 := v.toNat_lt
    simp [readVarintIn_writeVarint (by decide) 9 hlt]

def varintSize (n : Nat) : Nat := if n < 128 then 1 else varintSize (n / 128) + 1

theorem length_writeVarint (n : Nat) : (writeVarint n).length = varintSize n := by
  induction n using Nat.strongRecOn with
  | _ n ih =>
    rw [writeVarint, varintSize]
    split_ifs with hlt
    · rfl
    · rw [List.length_cons, ih (n / 128) (by omega)]

theorem varintSize_le {n k : Nat} (h : n < 128 ^ (k + 1)) : varintSize n ≤ k + 1 := by
  induction k generalizing n with
  | zero => rw [varintSize, if_pos (by omega)]
  | succ k ih =>
    rw [varintSize]
    split_ifs
    · exact Nat.le_add_left 1 _
    · refine Nat.succ_le_succ (ih ?_)
      rw [Nat.div_lt_iff_lt_mul (by decide), ← Nat.pow_succ]
      exact h

/-! ### Fixed width -/

def writeFixed : (width n : Nat) → List UInt8
  | 0, _ => []
  | width + 1, n => UInt8.ofNat (n % 256) :: writeFixed width (n / 256)

def readFixed : (width : Nat) → List UInt8 → Option (Nat × List UInt8)
  | 0, input => some (0, input)
  | _ + 1, [] => none
  | width + 1, b :: input =>
    (readFixed width input).map fun (n, rest) => (b.toNat + 256 * n, rest)

theorem readFixed_writeFixed (width : Nat) {n : Nat} (h : n < 256 ^ width) (rest : List UInt8) :
    readFixed width (writeFixed width n ++ rest) = some (n, rest) := by
  induction width generalizing n with
  | zero =>
    obtain rfl : n = 0 := by simpa using h
    rfl
  | succ width ih =>
    have hbyte := toNat_ofNat_of_lt (show n % 256 < 256 by omega)
    have hdiv : n / 256 < 256 ^ width := by
      rw [Nat.div_lt_iff_lt_mul (by decide), ← Nat.pow_succ]
      exact h
    simp only [writeFixed, List.cons_append, readFixed, ih hdiv, Option.map_some, hbyte,
      Nat.mod_add_div]

/-- A bit vector in its bytes, low ones first. -/
def fixed (width : Nat) : Codec (BitVec (8 * width)) where
  write v := writeFixed width v.toNat
  read input := (readFixed width input).map fun (n, rest) => (BitVec.ofNat _ n, rest)
  read_write v rest := by
    have hlt : v.toNat < 256 ^ width := by
      have h := v.isLt
      rwa [Nat.pow_mul] at h
    simp [readFixed_writeFixed width hlt]

/-- The number of bytes before a bit vector. -/
def sized (width : Nat) : Codec (BitVec (8 * width)) where
  write v := writeVarint width ++ (fixed width).write v
  read input := do
    let (n, input) ← readVarint input
    if n = width then (fixed width).read input else none
  read_write v rest := by
    have hread : readVarint (writeVarint width ++ ((fixed width).write v ++ rest)) = some (width, _) :=
      varint.read_write width _
    simp [hread, (fixed width).read_write]

def bool : Codec Bool where
  write b := [if b then 1 else 0]
  read
    | [] => none
    | b :: input => if b = 0 then some (false, input) else if b = 1 then some (true, input) else none
  read_write b rest := by cases b <;> rfl

def byte : Codec UInt8 where
  write b := [b]
  read
    | [] => none
    | b :: input => some (b, input)
  read_write _ _ := rfl

/-! ### Lists -/

section
variable (ca : Codec α)

def readMany : Nat → List UInt8 → Option (List α × List UInt8)
  | 0, input => some ([], input)
  | n + 1, input => do
    let (a, input) ← ca.read input
    let (as, input) ← readMany n input
    return (a :: as, input)

theorem readMany_flatMap (as : List α) (rest : List UInt8) :
    ca.readMany as.length (as.flatMap ca.write ++ rest) = some (as, rest) := by
  induction as with
  | nil => rfl
  | cons a as ih => simp [readMany, ca.read_write, ih]

/-- The length, then the elements. -/
def list : Codec (List α) where
  write as := varint.write as.length ++ as.flatMap ca.write
  read input := do
    let (n, input) ← varint.read input
    ca.readMany n input
  read_write as rest := by
    rw [List.append_assoc, varint.read_write]
    exact ca.readMany_flatMap as rest

end

end Codec

end SclRs.Lib
