import SclRs.Math.Ec.Order
import SclRs.Ss.FeldmanDealing

/-!
# Commitments bind the dealer

`FeldmanDealing` takes commitments to be multiples of the generator. Every list of valid points is such a
list, since the generator generates the curve. So a dealer who made up its commitments is bound to one
polynomial and one secret all the same (`strong_commitment`).
-/

open Polynomial

namespace SclRs

open ModUint Secp256k1 Lib.Interpolation

theorem degree_eq_of_usizeAdd {checks : Bool} {degree count : Nat} (hdegree : degree < 2 ^ 64)
    (hcount : count ≠ 0) (h : usizeAdd checks degree 1 = some count) : degree = count - 1 := by
  rw [usizeAdd] at h
  split_ifs at h with hlt hchecks
  · have := Option.some.inj h
    omega
  · have := Option.some.inj h
    omega

theorem usizeAdd_pred {α : Type} {checks : Bool} {l : List α} (hne : l ≠ []) (hsize : l.length < 2 ^ 64) :
    usizeAdd checks (l.length - 1) 1 = some l.length := by
  have hpos := List.length_pos_iff.mpr hne
  rw [usizeAdd_of_lt (by omega), Nat.sub_add_cancel hpos]

theorem exists_mem_zip {α β : Type} {l : List α} {l' : List β} (hlength : l.length = l'.length) {a : α}
    (ha : a ∈ l) : ∃ b, (a, b) ∈ l.zip l' := by
  obtain ⟨i, hi, rfl⟩ := List.getElem_of_mem ha
  have hi' : i < l'.length := hlength ▸ hi
  exact ⟨l'[i], List.mem_iff_getElem.mpr ⟨i, by simpa using ⟨hi, hi'⟩, List.getElem_zip⟩⟩

namespace FeldmanSS

section
variable [CryptoBigint] {commitments : List Secp256k1} {checks : Bool}
  {shares : List (FeldmanSS Secp256k1 Secp256k1ScalarField)} {owners coefficients : List Secp256k1ScalarField}

omit [CryptoBigint] in
theorem exists_commitsTo (hvalid : ∀ c ∈ commitments, c.Valid) :
    ∃ coefficients, CommitsTo coefficients commitments := by
  induction commitments with
  | nil => exact ⟨[], .nil⟩
  | cons c commitments ih =>
    obtain ⟨hc, hrest⟩ := List.forall_mem_cons.mp hvalid
    obtain ⟨A, hA⟩ := hc.exists_represents
    obtain ⟨v, rfl⟩ := exists_smul_gen A
    obtain ⟨a, -, rfl⟩ := exists_rep v
    obtain ⟨coefficients, hcommits⟩ := ih hrest
    rw [toZMod, Nat.cast_smul_eq_nsmul] at hA
    exact ⟨a :: coefficients, .cons hA hcommits⟩

theorem CommitsTo.exists_head (h : CommitsTo coefficients commitments)
    (hne : commitments ≠ []) {s : Secp256k1ScalarField} (hs : s.Canonical)
    (hval : s.toZMod = (ofCoefficients (coefficients.map toZMod)).eval 0) :
    ∃ y, gen.scalarMul s = some y ∧ ∃ c ∈ commitments.head?, y.eq c = true := by
  cases h with
  | nil => exact absurd rfl hne
  | @cons a c _ _ hc _ =>
    obtain ⟨y, hy, hyrep⟩ := gen_represents.smul hs
    refine ⟨y, hy, c, rfl, (hyrep.eq_iff hc).mpr ?_⟩
    rw [hval, List.map_cons, eval_ofCoefficients_zero, toZMod, Nat.cast_smul_eq_nsmul]

theorem secretFromShares_of_eval {f : (ZMod scalarModulus)[X]} {degree needed : Nat}
    (hdegree : ∀ σ ∈ shares, σ.shamirShare.degree = degree)
    (hneeded : usizeAdd checks degree 1 = some needed) (hf : f.degree < needed)
    (henough : needed ≤ shares.length) (hne : shares ≠ []) (howners : ∀ o ∈ owners, o.Canonical)
    (hnodup : owners.Nodup) (hlength : shares.length = owners.length)
    (heval : ∀ q ∈ shares.zip owners, q.1.shamirShare.share.toZMod = f.eval q.2.toZMod) :
    ∃ r : Secp256k1ScalarField, r.Canonical ∧ r.toZMod = f.eval 0 ∧
      ShamirSS.secretFromShares checks (shares.map shamirShare) owners = some (.ok r) := by
  have hvalues : ((shares.map shamirShare).map fun s =>
        (⟨s.share.reduce, s.degree⟩ : ShamirSS Secp256k1ScalarField)).map (fun s => s.share.toZMod) =
      owners.map fun o => f.eval o.toZMod := by
    refine List.ext_getElem (by simpa using hlength) fun i hi hi' => ?_
    simp only [List.length_map] at hi hi'
    have hzip : (shares[i], owners[i]) ∈ shares.zip owners :=
      List.mem_iff_getElem.mpr ⟨i, by simpa using ⟨hi, hi'⟩, List.getElem_zip⟩
    simp only [List.getElem_map]
    exact (reduce_spec _).2.trans (heval _ hzip)
  have hdegrees : ∀ s ∈ (shares.map shamirShare).map fun s =>
      (⟨s.share.reduce, s.degree⟩ : ShamirSS Secp256k1ScalarField), s.degree = degree :=
    List.forall_mem_map.mpr (List.forall_mem_map.mpr hdegree)
  obtain ⟨r, hr, hcanonical, hval⟩ := ShamirSS.secretFromShares_eval checks hdegrees hneeded hf
    (by simpa using henough) (by simpa using hne)
    (List.forall_mem_map.mpr fun s _ => (reduce_spec s.share).1) howners hnodup hvalues
  rw [ShamirSS.secretFromShares_reduce] at hr
  exact ⟨r, hcanonical, hval, hr⟩

theorem CommitsTo.existsUnique_isValid (h : CommitsTo coefficients commitments) (hne : commitments ≠ [])
    (hsize : commitments.length < 2 ^ 64) {owner : Secp256k1ScalarField} (howner : owner.Canonical) :
    ∃! value : Secp256k1ScalarField, value.Canonical ∧
      isValid checks ⟨⟨value, commitments.length - 1⟩, commitments⟩ owner = some true := by
  set f := ofCoefficients (coefficients.map toZMod)
  have haccept : ∀ v : Secp256k1ScalarField, v.Canonical →
      (isValid checks ⟨⟨v, commitments.length - 1⟩, commitments⟩ owner = some true ↔
        v.toZMod = f.eval owner.toZMod) := by
    intro v hv
    rw [isValid_iff checks h (ne_scalarMax howner), and_iff_right (usizeAdd_pred hne hsize),
      and_iff_right (ne_scalarMax hv)]
  obtain ⟨value, hvalue, hval⟩ := exists_rep (f.eval owner.toZMod)
  refine ⟨value, ⟨hvalue, (haccept value hvalue).mpr hval⟩, ?_⟩
  rintro v ⟨hv, haccepted⟩
  exact hv.ext hvalue (((haccept v hv).mp haccepted).trans hval.symm)

theorem CommitsTo.secretFromShares_of_isValid (h : CommitsTo coefficients commitments) (hne : commitments ≠ [])
    (hsize : commitments.length < 2 ^ 64)
    (hshares : ∀ σ ∈ shares, σ.commitments = commitments ∧ σ.shamirShare.degree < 2 ^ 64)
    (howners : ∀ o ∈ owners, o.Canonical) (hnodup : owners.Nodup) (hlength : shares.length = owners.length)
    (henough : commitments.length ≤ shares.length)
    (haccepted : ∀ q ∈ shares.zip owners, q.1.isValid checks q.2 = some true) :
    ∃ r : Secp256k1ScalarField, r.Canonical ∧ r.toZMod = (ofCoefficients (coefficients.map toZMod)).eval 0 ∧
      secretFromShares checks shares owners = some (.ok r) := by
  set f := ofCoefficients (coefficients.map toZMod)
  have hpos := List.length_pos_iff.mpr hne
  have hdegree : f.degree < commitments.length := by
    rw [← h.length_eq, ← List.length_map (f := toZMod)]
    exact degree_ofCoefficients_lt _
  have hdegrees : ∀ σ ∈ shares, σ.shamirShare.degree = commitments.length - 1 := by
    intro σ hσ
    obtain ⟨o, hzip⟩ := exists_mem_zip hlength hσ
    have hcount := (of_isValid (haccepted _ hzip)).1
    rw [(hshares σ hσ).1] at hcount
    exact degree_eq_of_usizeAdd (hshares σ hσ).2 hpos.ne' hcount
  have heval : ∀ q ∈ shares.zip owners, q.1.shamirShare.share.toZMod = f.eval q.2.toZMod := by
    rintro ⟨⟨share, _⟩, o⟩ hq
    obtain ⟨hσ, ho⟩ := List.of_mem_zip hq
    obtain rfl := (hshares _ hσ).1
    exact ((isValid_iff checks h (ne_scalarMax (howners o ho)) share).mp (haccepted _ hq)).2.2
  obtain ⟨r, hr, hval, hanswer⟩ := secretFromShares_of_eval hdegrees (usizeAdd_pred hne hsize) hdegree henough
    (List.ne_nil_of_length_pos (by omega)) howners hnodup hlength heval
  exact ⟨r, hr, hval, (FeldmanSS.secretFromShares_of_isValid hlength haccepted).trans hanswer⟩

theorem length_le_of_secretFromShares {r : Secp256k1ScalarField}
    (hshares : ∀ σ ∈ shares, σ.commitments = commitments)
    (h : secretFromShares checks shares owners = some (.ok r)) : commitments.length ≤ shares.length := by
  obtain ⟨hlength, haccepted, hshamir⟩ := secretFromShares_eq_ok h
  obtain ⟨degree, needed, hne, hdegrees, hneeded, henough⟩ := ShamirSS.secretFromShares_eq_ok hshamir
  obtain ⟨σ, hσ⟩ := List.exists_mem_of_ne_nil shares (by simpa using hne)
  obtain ⟨o, hzip⟩ := exists_mem_zip hlength hσ
  have hcount := (of_isValid (haccepted _ hzip)).1
  rw [hdegrees _ (List.mem_map_of_mem hσ), hshares σ hσ, hneeded] at hcount
  rw [← Option.some.inj hcount]
  simpa using henough

/-- **Valid commitments bind their dealer.** There is one secret behind them, which the first one commits to:
at every index one share value is accepted, and a reconstruction from shares with these commitments returns
this secret if it returns any, which it does from as many accepted shares as there are commitments. -/
theorem strong_commitment (checks : Bool) (hvalid : ∀ c ∈ commitments, c.Valid) (hne : commitments ≠ [])
    (hsize : commitments.length < 2 ^ 64) :
    ∃ s : Secp256k1ScalarField, s.Canonical ∧
      (∃ y, gen.scalarMul s = some y ∧ ∃ c ∈ commitments.head?, y.eq c = true) ∧
      (∀ owner : Secp256k1ScalarField, owner.Canonical → ∃! value : Secp256k1ScalarField, value.Canonical ∧
        isValid checks ⟨⟨value, commitments.length - 1⟩, commitments⟩ owner = some true) ∧
      ∀ (shares : List (FeldmanSS Secp256k1 Secp256k1ScalarField)) (owners : List Secp256k1ScalarField),
        (∀ σ ∈ shares, σ.commitments = commitments ∧ σ.shamirShare.degree < 2 ^ 64) →
        (∀ o ∈ owners, o.Canonical) → owners.Nodup → ∀ r,
          secretFromShares checks shares owners = some (.ok r) ↔
            r = s ∧ shares.length = owners.length ∧ commitments.length ≤ shares.length ∧
              ∀ q ∈ shares.zip owners, q.1.isValid checks q.2 = some true := by
  obtain ⟨coefficients, hcommits⟩ := exists_commitsTo hvalid
  obtain ⟨s, hs, hsval⟩ := exists_rep ((ofCoefficients (coefficients.map toZMod)).eval 0)
  refine ⟨s, hs, hcommits.exists_head hne hs hsval, fun owner => hcommits.existsUnique_isValid hne hsize,
    fun shares owners hshares howners hnodup r => ?_⟩
  have hreconstruct : shares.length = owners.length → commitments.length ≤ shares.length →
      (∀ q ∈ shares.zip owners, q.1.isValid checks q.2 = some true) →
      secretFromShares checks shares owners = some (.ok s) := by
    intro hlength henough haccepted
    obtain ⟨r', hr', hval, hanswer⟩ := hcommits.secretFromShares_of_isValid hne hsize hshares howners hnodup
      hlength henough haccepted
    rw [hanswer, hr'.ext hs (hval.trans hsval.symm)]
  constructor
  · intro hok
    obtain ⟨hlength, haccepted, -⟩ := secretFromShares_eq_ok hok
    have henough := length_le_of_secretFromShares (fun σ hσ => (hshares σ hσ).1) hok
    refine ⟨?_, hlength, henough, haccepted⟩
    exact Except.ok.inj (Option.some.inj (hok.symm.trans (hreconstruct hlength henough haccepted)))
  · rintro ⟨rfl, hlength, henough, haccepted⟩
    exact hreconstruct hlength henough haccepted

omit [CryptoBigint] in
theorem strong_commitment_pair :
    letI := CryptoBigint.reference
    ∃ s : Secp256k1ScalarField, s.Canonical ∧
      (∃ y, gen.scalarMul s = some y ∧ ∃ c ∈ [gen, gen.dbl].head?, y.eq c = true) ∧
      (∀ owner : Secp256k1ScalarField, owner.Canonical → ∃! value : Secp256k1ScalarField, value.Canonical ∧
        isValid true ⟨⟨value, [gen, gen.dbl].length - 1⟩, [gen, gen.dbl]⟩ owner = some true) ∧
      ∀ (shares : List (FeldmanSS Secp256k1 Secp256k1ScalarField)) (owners : List Secp256k1ScalarField),
        (∀ σ ∈ shares, σ.commitments = [gen, gen.dbl] ∧ σ.shamirShare.degree < 2 ^ 64) →
        (∀ o ∈ owners, o.Canonical) → owners.Nodup → ∀ r,
          secretFromShares true shares owners = some (.ok r) ↔
            r = s ∧ shares.length = owners.length ∧ [gen, gen.dbl].length ≤ shares.length ∧
              ∀ q ∈ shares.zip owners, q.1.isValid true q.2 = some true := by
  let := CryptoBigint.reference
  have hvalid : ∀ c ∈ [gen, gen.dbl], c.Valid :=
    List.forall_mem_cons.mpr ⟨gen_valid, List.forall_mem_singleton.mpr gen_represents.dbl.valid⟩
  exact strong_commitment true hvalid (by simp) (by decide)

end

end FeldmanSS

end SclRs
