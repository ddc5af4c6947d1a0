import SclRs.Lib.Vandermonde
import SclRs.Math.Field.Mersenne61
import SclRs.Math.Matrix
import SclRs.Ss.ShamirLinear

/-!
# Randomness extraction

`extraction_matrix` of `protocol/passive_shamir/mod.rs`: its row `k` holds the `k`-th powers of the
parties' points, one column for each dealer. Applied to shares it gives shares of the same combinations
of the dealt secrets (`mulShares_liesOn`), and with the secrets of all but as many dealers as it has
rows fixed, it is a bijection (`extraction_bijective`).
-/

open Polynomial

namespace SclRs

open LawfulRing

section
variable {F : Type} [RingOps F] [FromU64 F]

/-- `extraction_matrix`; `none` also where its `expect` fails. -/
def extractionMatrix (checks : Bool) (parties : List PartyId) (outputs : Nat) : Option (Matrix F) := do
  let points ← parties.mapM (ShamirSS.encodeParty checks)
  match ← Matrix.vandermonde checks points outputs with
  | .error _ => none
  | .ok m => m.transpose

theorem extractionMatrix_is {checks : Bool} {parties : List PartyId} {points : List F} {outputs : Nat}
    (hpoints : parties.mapM (ShamirSS.encodeParty checks) = some points) (hparties : parties ≠ [])
    (houtputs : outputs ≠ 0) (hsize : parties.length * outputs < 2 ^ 64) :
    ∃ m : Matrix F, extractionMatrix checks parties outputs = some m ∧
      m.Is outputs parties.length fun k i => Matrix.powers (points.getD i RingOps.one) k := by
  have hlen : points.length = parties.length := (forall₂_of_mapM hpoints).length_eq.symm
  have hne : points ≠ [] := by
    rintro rfl
    exact hparties (List.length_eq_zero_iff.mp hlen.symm)
  obtain ⟨v, hv, his⟩ := Matrix.vandermonde_is checks hne houtputs (by rwa [hlen])
  obtain ⟨m, hm, his⟩ := his.transpose
  rw [hlen] at his
  refine ⟨m, ?_, his⟩
  rw [extractionMatrix, hpoints]
  simp only [Option.bind_eq_bind, Option.bind_some, hv]
  exact hm

end

/-! ### Shares -/

section
variable {F K : Type} [DecidableEq F] [FieldOps F] [FromU64 F] [Field K] [LawfulField F K]

/-- **A matrix applied to shares** combines their polynomials. -/
theorem mulShares_liesOn {checks : Bool} {m : Matrix F} {r c : Nat} {f : Nat → Nat → F}
    (h : m.Is r c f) (hf : ∀ i < r, ∀ j < c, Valid (f i j)) (hc : 0 < c) {shares : List (ShamirSS F)}
    {t : Nat} {α : F} {g : Nat → K[X]} (hlen : shares.length = c)
    (hshares : ∀ j (hj : j < shares.length), shares[j].LiesOn t (g j) α) :
    ∃ y : Nat → ShamirSS F, m.mulShares checks shares = some (.ok ((List.range r).map y)) ∧
      ∀ i < r, (y i).LiesOn t (∑ j ∈ Finset.range c, g j * C (val (f i j))) α := by
  subst hlen
  have hrow : ∀ i, ∃ total, i < r → m.mulSharesRow checks shares i = some total ∧
      total.LiesOn t (∑ j ∈ Finset.range shares.length, g j * C (val (f i j))) α := by
    intro i
    by_cases hi : i < r
    · have hterm : ∀ j (hj : j < shares.length), (shares[j].mulConst (f i j)).LiesOn t
          (g j * C (val (f i j))) α :=
        fun j hj => (hshares j hj).mulConst (hf i hi j hj)
      have hinit : (shares[0].mulConst (f i 0)).LiesOn t
          (∑ j ∈ Finset.range 1, g j * C (val (f i j))) α := by
        rw [Finset.sum_range_one]
        exact hterm 0 hc
      let step : ShamirSS F → Nat → Option (ShamirSS F) := fun sum j => do
        LinearShare.add checks sum
          (LinearShare.mulConst (← shares[j]?) (← m.elements[shares.length * i + j]?))
      obtain ⟨total, htotal, hinv⟩ := @Matrix.foldlM_range' _ step
        (fun n sum => ShamirSS.LiesOn t (∑ j ∈ Finset.range n, g j * C (val (f i j))) α sum)
        (shares.length - 1) 1 _ hinit
        fun j _ hj sum hsum => by
          have hj : j < shares.length := by omega
          obtain ⟨sum', hsum', hlies⟩ := hsum.add (hterm j hj)
          refine ⟨sum', ?_, by rwa [Finset.sum_range_succ]⟩
          simp only [step]
          rw [List.getElem?_eq_getElem hj, h.entry i hi j hj]
          exact hsum'
      rw [show 1 + (shares.length - 1) = shares.length by omega] at hinv
      refine ⟨total, fun _ => ⟨?_, hinv⟩⟩
      have hentry := h.entry i hi 0 hc
      rw [Nat.add_zero] at hentry
      rw [Matrix.mulSharesRow, h.columns, List.getElem?_eq_getElem hc, hentry]
      exact htotal
    · exact ⟨⟨RingOps.zero, 0⟩, fun h => absurd h hi⟩
  choose y hy using hrow
  refine ⟨y, ?_, fun i hi => (hy i hi).2⟩
  rw [Matrix.mulShares, h.columns, h.rows, if_neg (by omega),
    Matrix.mapM_eq_map fun i hi => (hy i (List.mem_range.mp hi)).1]
  rfl

theorem sum_range_eq_sum_map {α M : Type} [AddCommMonoid M] {l : List α} {f : Nat → M} {h : α → M}
    (hf : ∀ j (hj : j < l.length), f j = h l[j]) : ∑ j ∈ Finset.range l.length, f j = (l.map h).sum := by
  rw [Finset.sum_range, ← Fin.sum_univ_fun_getElem]
  exact Finset.sum_congr rfl fun j _ => hf j j.2

variable [LawfulFromU64 F] {checks : Bool} {parties : List PartyId} {point : PartyId → F} {t outputs : Nat}
  {dealt : PartyId → PartyId → ShamirSS F} {g : PartyId → K[X]} {m : Matrix F}

/-- **The extraction matrix applied to the shares of all dealings** gives every party its shares of the
combinations of the dealt secrets. -/
theorem mulShares_sharedBy
    (his : m.Is outputs parties.length fun k i => Matrix.powers ((parties.map point).getD i RingOps.one) k)
    (hparties : parties ≠ []) (hpoint : ∀ p ∈ parties, ShamirSS.encodeParty checks p = some (point p))
    (hdegree : ∀ p ∈ parties, (g p).natDegree ≤ t)
    (hlies : ∀ p ∈ parties, ∀ q ∈ parties, (dealt p q).LiesOn t (g p) (point q)) :
    ∃ z : Nat → PartyId → ShamirSS F,
      (∀ q ∈ parties, m.mulShares checks (parties.map fun p => dealt p q) =
        some (.ok ((List.range outputs).map fun k => z k q))) ∧
      ∀ k < outputs, ShamirSS.SharedBy checks parties t (z k)
        (parties.map fun p => val (point p) ^ k * (g p).eval 0).sum := by
  have hgetD : ∀ j (hj : j < parties.length),
      (parties.map point).getD j RingOps.one = point parties[j] ∧ parties.getD j 0 = parties[j] := by
    intro j hj
    refine ⟨?_, List.getD_eq_getElem _ _ hj⟩
    rw [List.getD_eq_getElem _ _ (by rwa [List.length_map]), List.getElem_map]
  have hvalid : ∀ j (hj : j < parties.length), Valid (point parties[j]) := fun j hj =>
    ShamirSS.valid_encodeParty (hpoint _ (List.getElem_mem hj))
  have hf : ∀ k < outputs, ∀ j < parties.length,
      Valid (Matrix.powers ((parties.map point).getD j RingOps.one) k) := by
    intro k _ j hj
    rw [(hgetD j hj).1]
    exact (Matrix.powers_spec (hvalid j hj) k).1
  have hz : ∀ q, ∃ y : Nat → ShamirSS F, q ∈ parties →
      m.mulShares checks (parties.map fun p => dealt p q) = some (.ok ((List.range outputs).map y)) ∧
        ∀ k < outputs, (y k).LiesOn t (∑ j ∈ Finset.range parties.length, g (parties.getD j 0) *
          C (val (Matrix.powers ((parties.map point).getD j RingOps.one) k))) (point q) := by
    intro q
    by_cases hq : q ∈ parties
    · obtain ⟨y, hy, hyLies⟩ := mulShares_liesOn his hf
        (List.length_pos_iff.mpr hparties) (g := fun j => g (parties.getD j 0)) (α := point q)
        (List.length_map fun p => dealt p q) fun j hj => by
          rw [List.length_map] at hj
          rw [List.getElem_map, (hgetD j hj).2]
          exact hlies _ (List.getElem_mem hj) q hq
      exact ⟨y, fun _ => ⟨hy, hyLies⟩⟩
    · exact ⟨fun _ => ⟨RingOps.zero, 0⟩, fun h => absurd h hq⟩
  choose y hy using hz
  refine ⟨fun k q => y q k, fun q hq => (hy q hq).1, fun k hk => ⟨_, ?_, ?_, fun q hq =>
    ⟨point q, hpoint q hq, (hy q hq).2 k hk⟩⟩⟩
  · refine natDegree_sum_le_of_forall_le _ _ fun j hj => (natDegree_mul_C_le _ _).trans ?_
    rw [Finset.mem_range] at hj
    rw [(hgetD j hj).2]
    exact hdegree _ (List.getElem_mem hj)
  · rw [eval_finsetSum]
    refine sum_range_eq_sum_map fun j hj => ?_
    rw [eval_mul, eval_C, (hgetD j hj).1, (hgetD j hj).2, (Matrix.powers_spec (hvalid j hj) k).2, mul_comm]

end

/-! ### Any `t` dealers -/

section
variable {T : Type} {n : Nat} (honest : Finset (Fin n)) (fixed : Fin n → T) (x : {i // i ∈ honest} → T)

/-- The secrets of all dealers, where those of the dealers in `honest` are `x`. -/
def dealtSecrets : List T := List.ofFn fun i => if h : i ∈ honest then x ⟨i, h⟩ else fixed i

theorem length_dealtSecrets : (dealtSecrets honest fixed x).length = n := List.length_ofFn

theorem getD_dealtSecrets (i : Fin n) (d : T) :
    (dealtSecrets honest fixed x).getD i d = if h : i ∈ honest then x ⟨i, h⟩ else fixed i := by
  rw [List.getD_eq_getElem _ _ (by rw [length_dealtSecrets]; exact i.2)]
  exact List.getElem_ofFn _

theorem forall_mem_dealtSecrets {P : T → Prop} (hfixed : ∀ i, P (fixed i)) (hx : ∀ i, P (x i)) :
    ∀ a ∈ dealtSecrets honest fixed x, P a := by
  refine List.forall_mem_ofFn_iff.mpr fun i => ?_
  split_ifs with hi
  · exact hx ⟨i, hi⟩
  · exact hfixed i

end

section
variable {K : Type} [Field K] {n : Nat} (honest : Finset (Fin n)) (α fixed : Fin n → K)

/-- What the fixed secrets contribute to the `k`-th output. -/
def fixedPart (k : Nat) : K := ∑ i, if i ∈ honest then 0 else α i ^ k * fixed i

theorem sum_dealtSecrets (x : {i // i ∈ honest} → K) (k : Nat) :
    ∑ i, α i ^ k * (if h : i ∈ honest then x ⟨i, h⟩ else fixed i) =
      ∑ i : {i // i ∈ honest}, x i * α i ^ k + fixedPart honest α fixed k := by
  have hhonest : ∑ i : {i // i ∈ honest}, x i * α i ^ k =
      ∑ i : Fin n, if i ∈ honest then α i ^ k * (if h : i ∈ honest then x ⟨i, h⟩ else fixed i) else 0 := by
    rw [Finset.sum_ite_mem, Finset.univ_inter,
      ← Finset.sum_coe_sort honest fun i => α i ^ k * if h : i ∈ honest then x ⟨i, h⟩ else fixed i]
    refine Finset.sum_congr rfl fun i _ => ?_
    rw [dif_pos i.2, mul_comm]
  rw [hhonest, fixedPart, ← Finset.sum_add_distrib]
  refine Finset.sum_congr rfl fun i _ => ?_
  by_cases hi : i ∈ honest
  · rw [if_pos hi, if_pos hi, add_zero]
  · rw [if_neg hi, if_neg hi, dif_neg hi, zero_add]

end

section
variable {F K : Type} [FieldOps F] [FromU64 F] [Field K] [LawfulField F K]
  [LawfulFromU64 F] {checks : Bool} {parties : List PartyId} {points : List F}

theorem valid_getD_points (hpoints : parties.mapM (ShamirSS.encodeParty checks) = some points) (i : Nat) :
    Valid (points.getD i RingOps.one) := by
  by_cases hi : i < points.length
  · rw [List.getD_eq_getElem _ _ hi]
    obtain ⟨p, -, hp⟩ := exists_of_forall₂ (forall₂_of_mapM hpoints) (List.getElem_mem hi)
    exact ShamirSS.valid_encodeParty hp
  · rw [List.getD_eq_default _ _ (not_lt.mp hi)]
    exact valid_one

theorem val_getD_points_inj (hpoints : parties.mapM (ShamirSS.encodeParty checks) = some points)
    (hnodup : points.Nodup) :
    Function.Injective fun i : Fin parties.length => val (points.getD i RingOps.one) := by
  have hlen : points.length = parties.length := (forall₂_of_mapM hpoints).length_eq.symm
  intro i j hij
  have heq := val_inj (valid_getD_points hpoints i) (valid_getD_points hpoints j) hij
  rw [List.getD_eq_getElem _ _ (by omega), List.getD_eq_getElem _ _ (by omega)] at heq
  exact Fin.ext (hnodup.getElem_inj_iff.mp heq)

variable {honest : Finset (Fin parties.length)} (fixed : Fin parties.length → {x : F // Valid x})

theorem extract_eq {outputs : Nat} {m : Matrix F}
    (hpoints : parties.mapM (ShamirSS.encodeParty checks) = some points)
    (his : m.Is outputs parties.length fun k i => Matrix.powers (points.getD i RingOps.one) k)
    (x : {i // i ∈ honest} → {x : F // Valid x}) :
    ∃ y : Nat → F, m.mulVector (dealtSecrets honest (fun i => (fixed i).1) fun i => (x i).1) =
        some (.ok ((List.range outputs).map y)) ∧
      ∀ k < outputs, Valid (y k) ∧ val (y k) =
        ∑ i : {i // i ∈ honest}, val (x i).1 * val (points.getD i.1 RingOps.one) ^ k +
          fixedPart honest (fun i => val (points.getD i RingOps.one)) (fun i => val (fixed i).1) k := by
  obtain ⟨y, hy, hval⟩ := his.mulVector
    (fun k _ i _ => (Matrix.powers_spec (valid_getD_points hpoints i) k).1)
    (length_dealtSecrets honest _ _)
    (forall_mem_dealtSecrets honest (fun i => (fixed i).1) (fun i => (x i).1)
      (fun i => (fixed i).2) fun i => (x i).2)
  refine ⟨y, hy, fun k hk => ⟨(hval k hk).1, (hval k hk).2.trans ?_⟩⟩
  rw [Finset.sum_range, ← sum_dealtSecrets honest (fun i => val (points.getD i RingOps.one))
    (fun i => val (fixed i).1) (fun i => val (x i).1) k]
  refine Finset.sum_congr rfl fun i _ => ?_
  rw [(Matrix.powers_spec (valid_getD_points hpoints i) k).2, getD_dealtSecrets]
  split_ifs <;> rfl

/-- **Extraction defeats any `t` dealers**: with their secrets fixed, the others' secrets and the outputs
are in bijection. -/
theorem extraction_bijective {t : Nat}
    (hpoints : parties.mapM (ShamirSS.encodeParty checks) = some points) (hnodup : points.Nodup)
    (ht : t < parties.length) (hsize : parties.length * (parties.length - t) < 2 ^ 64)
    (hhonest : honest.card = parties.length - t) :
    ∃ m, extractionMatrix checks parties (parties.length - t) = some m ∧
      (∀ x : {i // i ∈ honest} → {x : F // Valid x}, ∃ y : List F, y.length = parties.length - t ∧
        (∀ a ∈ y, Valid a) ∧
        m.mulVector (dealtSecrets honest (fun i => (fixed i).1) fun i => (x i).1) = some (.ok y)) ∧
      ∀ y : List F, y.length = parties.length - t → (∀ a ∈ y, Valid a) →
        ∃! x : {i // i ∈ honest} → {x : F // Valid x},
          m.mulVector (dealtSecrets honest (fun i => (fixed i).1) fun i => (x i).1) = some (.ok y) := by
  have hne : parties ≠ [] := by
    rintro rfl
    exact absurd ht (Nat.not_lt_zero t)
  obtain ⟨m, hm, his⟩ := extractionMatrix_is hpoints hne (by omega) hsize
  refine ⟨m, hm, fun x => ?_, fun y hy hvalid => ?_⟩
  · obtain ⟨y, hy, hval⟩ := extract_eq fixed hpoints his x
    refine ⟨_, by rw [List.length_map, List.length_range], fun a ha => ?_, hy⟩
    obtain ⟨k, hk, rfl⟩ := List.mem_map.mp ha
    exact (hval k (List.mem_range.mp hk)).1
  let rest := fixedPart honest (fun i => val (points.getD i RingOps.one)) fun i => val (fixed i).1
  obtain ⟨x, hx, hunique⟩ := Lib.Vandermonde.existsUnique_powerSums
    ((val_getD_points_inj hpoints hnodup).comp (Subtype.val_injective (p := (· ∈ honest))))
    fun k => val (y.getD k RingOps.zero) - rest k
  rw [Fintype.card_coe, hhonest] at hx hunique
  -- the outputs are `y` just when the power sums of the honest secrets are what is left of them
  have hiff : ∀ z : {i // i ∈ honest} → {x : F // Valid x},
      m.mulVector (dealtSecrets honest (fun i => (fixed i).1) fun i => (z i).1) = some (.ok y) ↔
        ∀ k < parties.length - t, ∑ i, val (z i).1 * val (points.getD i.1 RingOps.one) ^ k =
          val (y.getD k RingOps.zero) - rest k := by
    intro z
    obtain ⟨out, hout, hval⟩ := extract_eq fixed hpoints his z
    rw [hout, Option.some.injEq, Except.ok.injEq]
    constructor
    · rintro rfl k hk
      rw [List.getD_eq_getElem _ _ (by simpa using hk), List.getElem_map, List.getElem_range,
        (hval k hk).2]
      exact (add_sub_cancel_right _ _).symm
    · intro hsums
      refine List.ext_getElem (by rw [List.length_map, List.length_range, hy]) fun k hk hk' => ?_
      have hk'' : k < parties.length - t := hy ▸ hk'
      rw [List.getElem_map, List.getElem_range]
      refine val_inj (hval k hk'').1 (hvalid _ (List.getElem_mem hk')) ?_
      rw [(hval k hk'').2, hsums k hk'', List.getD_eq_getElem _ _ hk']
      exact sub_add_cancel _ _
  refine ⟨fun i => validEquiv.symm (x i), (hiff _).mpr fun k hk => ?_, fun z hz => ?_⟩
  · rw [← hx k hk]
    exact Finset.sum_congr rfl fun i _ => congrArg (· * _) (validEquiv.apply_symm_apply (x i))
  · have hz := hunique (fun i => val (z i).1) fun k hk => (hiff z).mp hz k hk
    funext i
    exact (validEquiv.symm_apply_eq.mpr (congrFun hz i).symm).symm

end

theorem extraction_bijective_three :
    ∃ m, extractionMatrix true [2, 0, 1] 2 = some m ∧
      (∀ x : {i : Fin 3 // i ∈ ({0, 2} : Finset (Fin 3))} → {x : Mersenne61 // Valid x},
        ∃ y : List Mersenne61, y.length = 2 ∧ (∀ a ∈ y, Valid a) ∧
          m.mulVector (dealtSecrets {0, 2} (fun _ => ⟨5⟩) fun i => (x i).1) = some (.ok y)) ∧
      ∀ y : List Mersenne61, y.length = 2 → (∀ a ∈ y, Valid a) →
        ∃! x : {i : Fin 3 // i ∈ ({0, 2} : Finset (Fin 3))} → {x : Mersenne61 // Valid x},
          m.mulVector (dealtSecrets {0, 2} (fun _ => ⟨5⟩) fun i => (x i).1) = some (.ok y) :=
  extraction_bijective (F := Mersenne61) (t := 1)
    (fun _ => ⟨⟨5⟩, show Mersenne61.Canonical ⟨5⟩ by decide⟩) rfl (by decide +kernel) (by decide)
    (by decide) (by decide)

end SclRs
