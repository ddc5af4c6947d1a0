import SclRs.Math.Poly.Checked
import SclRs.Ss.Shamir

/-!
# The threshold of reconstruction

What `secret_from_shares` should answer to shares of any degree and any representation (`Enforces`), and where
it does. `degree + 1` is computed in a `usize`, and `EvalAndShareLenMismatch` is given its two lengths in the
wrong order, so that the threshold needs lists of one length with a degree below the greatest one (`Shape`).
Shares that pass all checks (`Reaches`) are interpolated. Their values can be any integers; their indexes
should be no larger than the modulus and not be both representations of zero (`UpTo`), as the differences are
those of `FieldApi.Wide` then. In `Mersenne61` other indexes panic, or shift the answer
(`enforces_mersenne61_iff`); `crypto-bigint` promises nothing about them, and the answer is wrong for some
shares when it gives zero (`enforces_modUint_iff`).
-/

open Polynomial

namespace SclRs

open FieldApi Lib.Interpolation

/-- `usize::MAX`. -/
def usizeMax : Nat := 2 ^ 64 - 1

theorem usizeAdd_usizeMax (checks : Bool) :
    usizeAdd checks usizeMax 1 = if checks then none else some 0 := by
  cases checks <;> rfl

theorem lt_of_ne_usizeMax {n : Nat} (hn : n < 2 ^ 64) (h : n ≠ usizeMax) : n + 1 < 2 ^ 64 := by
  unfold usizeMax at h
  omega

namespace ShamirSS

section
variable {F Inner : Type} [FieldApi F Inner] [DecidableEq F]

/-- `secret_from_shares`, with the operations that a build has. -/
def checkedSecretFromShares (checks : Bool) (shares : List (ShamirSS F)) (partyIndexes : List F) :
    Option (Except (ShareError F) F) :=
  secretFromSharesBy (checkedInterpolatePolynomialAt checks · · zero) checks shares partyIndexes

theorem checkedSecretFromShares_eq [FieldOps F] [Lawful F] [Wide F] (checks : Bool) (shares : List (ShamirSS F))
    {indexes : List F} (hindexes : ∀ a ∈ indexes, Reduced a) :
    checkedSecretFromShares checks shares indexes = secretFromShares checks shares indexes := by
  have hzero : Reduced (zero : F) := Lawful.zero
  cases shares with
  | nil => rfl
  | cons first rest =>
    rw [checkedSecretFromShares, secretFromShares, secretFromSharesBy, secretFromSharesBy,
      checkedInterpolatePolynomialAt_eq checks _ hindexes hzero, Wide.zero_eq]

variable [Fact (modulus F).Prime]

/-- The answer to `shares` at `indexes` is the error of the first condition that fails, or the value at
zero of the one polynomial through the shares. -/
structure Enforces (shares : List (ShamirSS F)) (indexes : List F)
    (answer : Option (Except (ShareError F) F)) : Prop where
  empty : shares = [] → answer = some (.error .notEnoughShares)
  lengths : shares ≠ [] → shares.length ≠ indexes.length →
    answer = some (.error (.evalAndShareLenMismatch indexes.length shares.length))
  degrees : shares ≠ [] → shares.length = indexes.length → (¬ ∃ d, ∀ s ∈ shares, s.degree = d) →
    answer = some (.error .sharesWithDifferentDegree)
  few : ∀ d, shares ≠ [] → shares.length = indexes.length → (∀ s ∈ shares, s.degree = d) →
    shares.length < d + 1 → answer = some (.error .notEnoughShares)
  collide : ∀ d, shares ≠ [] → shares.length = indexes.length → (∀ s ∈ shares, s.degree = d) →
    d + 1 ≤ shares.length → ¬ (indexes.map residue).Nodup →
    answer = some (.error (.reconstructionError (.notAllDifferentInterpolation indexes)))
  ok : ∀ d, shares ≠ [] → shares.length = indexes.length → (∀ s ∈ shares, s.degree = d) →
    d + 1 ≤ shares.length → (indexes.map residue).Nodup →
    ∃ f : (ZMod (modulus F))[X],
      (∀ g, Through (indexes.map residue) (shares.map fun s => residue s.share) g ↔ g = f) ∧
      ∃ r, answer = some (.ok r) ∧ Represents r (f.eval 0)

end

/-- There are no shares, or as many as indexes, of which one has no greatest degree. -/
def Shape {F : Type} (degrees : List Nat) (indexes : List F) : Prop :=
  degrees = [] ∨ degrees.length = indexes.length ∧ ∃ d ∈ degrees, d ≠ usizeMax

instance {F : Type} (degrees : List Nat) (indexes : List F) : Decidable (Shape degrees indexes) :=
  inferInstanceAs (Decidable (_ ∨ _))

/-- The shares are interpolated. -/
def Reaches {F : Type} (degrees : List Nat) (indexes : List F) : Prop :=
  ∃ d, (∀ e ∈ degrees, e = d) ∧ d + 1 ≤ degrees.length ∧ indexes.Nodup

/-- The lengths and degrees are those of a `usize`. -/
structure Sized (degrees : List Nat) : Prop where
  length : degrees.length < 2 ^ 64
  degree : ∀ d ∈ degrees, d < 2 ^ 64

/-- At most one integer, or none above the modulus and not both representations of zero. -/
def UpTo (modulus : Nat) (indexes : List Nat) : Prop :=
  indexes.length ≤ 1 ∨ (∀ i ∈ indexes, i ≤ modulus) ∧ ¬ (0 ∈ indexes ∧ modulus ∈ indexes)

instance (modulus : Nat) (indexes : List Nat) : Decidable (UpTo modulus indexes) :=
  inferInstanceAs (Decidable (_ ∨ _))

/-! ### Lengths and degrees -/

section
variable {F Inner : Type} [FieldApi F Inner] [DecidableEq F] {checks : Bool} {shares : List (ShamirSS F)}
  {indexes : List F}

theorem checkedSecretFromShares_of_degree {d : Nat} (hne : shares ≠ []) (hlen : shares.length = indexes.length)
    (hdegree : ∀ s ∈ shares, s.degree = d) :
    checkedSecretFromShares checks shares indexes = (usizeAdd checks d 1).bind fun needed =>
      if shares.length < needed then some (.error .notEnoughShares)
      else (checkedInterpolatePolynomialAt checks (shares.map share) indexes zero).map fun
        | .error e => .error (.reconstructionError e)
        | .ok secret => .ok secret :=
  secretFromSharesBy_of_degree hne hlen hdegree

variable [Fact (modulus F).Prime]

omit [DecidableEq F] in
theorem enforces_iff_of_degree {d : Nat} (hne : shares ≠ []) (hlen : shares.length = indexes.length)
    (hdegree : ∀ s ∈ shares, s.degree = d) {answer : Option (Except (ShareError F) F)} :
    Enforces shares indexes answer ↔
      (shares.length < d + 1 → answer = some (.error .notEnoughShares)) ∧
      (d + 1 ≤ shares.length → ¬ (indexes.map residue).Nodup →
        answer = some (.error (.reconstructionError (.notAllDifferentInterpolation indexes)))) ∧
      (d + 1 ≤ shares.length → (indexes.map residue).Nodup → ∃ f : (ZMod (modulus F))[X],
        (∀ g, Through (indexes.map residue) (shares.map fun s => residue s.share) g ↔ g = f) ∧
        ∃ r, answer = some (.ok r) ∧ Represents r (f.eval 0)) := by
  have hunique : ∀ d', (∀ s ∈ shares, s.degree = d') → d' = d := by
    obtain ⟨first, rest, rfl⟩ := List.exists_cons_of_ne_nil hne
    intro d' hd'
    rw [← hd' first List.mem_cons_self, hdegree first List.mem_cons_self]
  constructor
  · intro h
    exact ⟨h.few d hne hlen hdegree, h.collide d hne hlen hdegree, h.ok d hne hlen hdegree⟩
  · rintro ⟨hfew, hcollide, hok⟩
    refine ⟨fun h => absurd h hne, fun _ h => absurd hlen h, fun _ _ h => absurd ⟨d, hdegree⟩ h, ?_, ?_, ?_⟩
    · intro d' _ _ hd'
      exact hunique d' hd' ▸ hfew
    · intro d' _ _ hd'
      exact hunique d' hd' ▸ hcollide
    · intro d' _ _ hd'
      exact hunique d' hd' ▸ hok

theorem not_enforces_of_usizeMax (hne : shares ≠ []) (hlen : shares.length = indexes.length)
    (hsize : shares.length < 2 ^ 64) (hdegree : ∀ s ∈ shares, s.degree = usizeMax) :
    ¬ Enforces shares indexes (checkedSecretFromShares checks shares indexes) := by
  intro h
  have hfew := h.few usizeMax hne hlen hdegree (by unfold usizeMax; omega)
  rw [checkedSecretFromShares_of_degree hne hlen hdegree, usizeAdd_usizeMax] at hfew
  cases checks with
  | true => cases hfew
  | false =>
    -- the threshold has wrapped around to zero
    rw [if_neg Bool.false_ne_true, Option.bind_some, if_neg (Nat.not_lt_zero _)] at hfew
    generalize checkedInterpolatePolynomialAt false (shares.map share) indexes zero = answer at hfew
    rcases answer with _ | _ | _ <;> cases hfew

/-- **The shape is needed**, whatever is interpolated. -/
theorem Enforces.shape (hsize : Sized (shares.map degree))
    (h : Enforces shares indexes (checkedSecretFromShares checks shares indexes)) :
    Shape (shares.map degree) indexes := by
  have hlength := hsize.length
  rw [List.length_map] at hlength
  by_contra hshape
  rw [Shape, not_or, List.map_eq_nil_iff, List.length_map, not_and] at hshape
  obtain ⟨hne, hshape⟩ := hshape
  by_cases hlen : shares.length = indexes.length
  · refine not_enforces_of_usizeMax hne hlen hlength (fun s hs => ?_) h
    by_contra hdegree
    exact hshape hlen ⟨s.degree, List.mem_map_of_mem hs, hdegree⟩
  · have hswapped := h.lengths hne hlen
    rw [checkedSecretFromShares, secretFromSharesBy_lengths hne hlen] at hswapped
    obtain ⟨hsame, -⟩ := ShareError.evalAndShareLenMismatch.inj (Except.error.inj (Option.some.inj hswapped))
    exact hlen hsame

omit [DecidableEq F] [Fact (modulus F).Prime] in
theorem Shape.lt {d : Nat} (hsize : Sized (shares.map degree)) (hshape : Shape (shares.map degree) indexes)
    (hne : shares ≠ []) (hdegree : ∀ s ∈ shares, s.degree = d) :
    shares.length = indexes.length ∧ d + 1 < 2 ^ 64 := by
  obtain hnil | ⟨hlen, e, he, hmax⟩ := hshape
  · exact absurd (List.map_eq_nil_iff.mp hnil) hne
  · rw [List.length_map] at hlen
    have hlt := hsize.degree e he
    obtain ⟨s, hs, rfl⟩ := List.mem_map.mp he
    rw [hdegree s hs] at hmax hlt
    exact ⟨hlen, lt_of_ne_usizeMax hlt hmax⟩

omit [FieldApi F Inner] [DecidableEq F] [Fact (modulus F).Prime] in
theorem Reaches.nodup (h : Reaches (shares.map degree) indexes) (hshape : Shape (shares.map degree) indexes) :
    indexes ≠ [] ∧ shares.length = indexes.length ∧ indexes.Nodup := by
  obtain ⟨d, -, henough, hnodup⟩ := h
  obtain hnil | ⟨hlen, -⟩ := hshape
  · rw [hnil] at henough
    exact absurd henough (Nat.not_succ_le_zero d)
  · rw [List.length_map] at hlen henough
    exact ⟨List.ne_nil_of_length_pos (by omega), hlen, hnodup⟩

theorem enforces_of_not_reaches (hsize : Sized (shares.map degree)) (hshape : Shape (shares.map degree) indexes)
    (hreaches : ¬ Reaches (shares.map degree) indexes) :
    Enforces shares indexes (checkedSecretFromShares checks shares indexes) := by
  rcases eq_or_ne shares [] with rfl | hne
  · refine ⟨fun _ => rfl, ?_, ?_, ?_, ?_, ?_⟩
    · exact fun h => absurd rfl h
    · exact fun h => absurd rfl h
    · exact fun _ h => absurd rfl h
    · exact fun _ h => absurd rfl h
    · exact fun _ h => absurd rfl h
  by_cases hdegree : ∃ d, ∀ s ∈ shares, s.degree = d
  · obtain ⟨d, hdegree⟩ := hdegree
    obtain ⟨hlen, hd⟩ := hshape.lt hsize hne hdegree
    have hanswer := @checkedSecretFromShares_of_degree _ _ _ _ checks _ _ _ hne hlen hdegree
    rw [usizeAdd_of_lt hd, Option.bind_some] at hanswer
    have hcollide : d + 1 ≤ shares.length → ¬ indexes.Nodup := fun henough hnodup =>
      hreaches ⟨d, List.forall_mem_map.mpr hdegree, by rwa [List.length_map], hnodup⟩
    rw [enforces_iff_of_degree hne hlen hdegree, hanswer]
    refine ⟨fun hfew => if_pos hfew, fun henough _ => ?_, fun henough hnodup => ?_⟩
    · rw [if_neg (Nat.not_lt.mpr henough),
        checkedInterpolatePolynomialAt_collide (by rw [List.length_map, hlen]) (hcollide henough)]
      rfl
    · exact absurd hnodup.of_map (hcollide henough)
  · have hlen : shares.length = indexes.length := by
      obtain hnil | ⟨hlen, -⟩ := hshape
      · exact absurd (List.map_eq_nil_iff.mp hnil) hne
      · rwa [List.length_map] at hlen
    have hanswer : checkedSecretFromShares checks shares indexes = some (.error .sharesWithDifferentDegree) :=
      secretFromSharesBy_degrees hne hlen hdegree
    exact ⟨fun h => absurd h hne, fun _ h => absurd hlen h, fun _ _ _ => hanswer,
      fun d _ _ h => absurd ⟨d, h⟩ hdegree, fun d _ _ h => absurd ⟨d, h⟩ hdegree,
      fun d _ _ h => absurd ⟨d, h⟩ hdegree⟩

end

/-! ### Interpolation -/

section
variable {F Inner : Type} [FieldApi F Inner] [DecidableEq F] [Fact (modulus F).Prime] {checks : Bool}
  {shares : List (ShamirSS F)} {indexes : List F}

/-- The interpolated value is the right one. -/
def Interpolates (shares : List (ShamirSS F)) (indexes : List F) (answer : Option (Except (PolyError F) F)) :
    Prop :=
  (indexes.map residue).Nodup ∧ ∃ r, answer = some (.ok r) ∧ Represents r
    (interpolateBy (fun a b => residue a - residue b) indexes (shares.map fun s => residue s.share) zero)

theorem enforces_iff_of_reaches [FieldOps F] [Wide F] (hsize : Sized (shares.map degree))
    (hshape : Shape (shares.map degree) indexes) (hreaches : Reaches (shares.map degree) indexes) :
    Enforces shares indexes (checkedSecretFromShares checks shares indexes) ↔
      Interpolates shares indexes (checkedInterpolatePolynomialAt checks (shares.map share) indexes zero) := by
  obtain ⟨d, hdegree, henough, hnodup⟩ := hreaches
  rw [List.forall_mem_map] at hdegree
  rw [List.length_map] at henough
  have hne : shares ≠ [] := List.ne_nil_of_length_pos (by omega)
  obtain ⟨hlen, hd⟩ := hshape.lt hsize hne hdegree
  rw [enforces_iff_of_degree hne hlen hdegree, checkedSecretFromShares_of_degree hne hlen hdegree,
    usizeAdd_of_lt hd, Option.bind_some, if_neg (Nat.not_lt.mpr henough)]
  have hlen' : (shares.map share).length = indexes.length := by rw [List.length_map, hlen]
  have herror := fun e => @checkedInterpolatePolynomialAt_ne_error _ _ _ checks _ zero _ _
    (List.ne_nil_of_length_pos (by omega)) hlen' hnodup e
  generalize checkedInterpolatePolynomialAt checks (shares.map share) indexes zero = answer at herror
  by_cases hresidues : (indexes.map residue).Nodup
  · have hlen'' : (shares.map fun s => residue s.share).length = (indexes.map residue).length := by
      rw [List.length_map, List.length_map, hlen]
    obtain ⟨f, hf, hunique⟩ := existsUnique_through hresidues hlen''
    have hvalue : interpolateBy (fun a b => residue a - residue b) indexes
        (shares.map fun s => residue s.share) zero = f.eval 0 := by
      rw [interpolateBy_sub hresidues (hf.1.trans_eq (by rw [List.length_map])) (by rw [hf.2, List.map_map]; rfl),
        residue_zero]
    have hok : ∀ r, (answer.map fun
        | .error e => .error (.reconstructionError e)
        | .ok secret => .ok secret : Option (Except (ShareError F) F)) = some (.ok r) ↔ answer = some (.ok r) := by
      rcases answer with _ | _ | _ <;> simp
    rw [Interpolates, and_iff_right hresidues, hvalue]
    constructor
    · rintro ⟨-, -, h⟩
      obtain ⟨g, hg, r, hr, hrep⟩ := h henough hresidues
      obtain rfl := (hg f).mp hf
      exact ⟨r, (hok r).mp hr, hrep⟩
    · rintro ⟨r, hr, hrep⟩
      exact ⟨fun hfew => absurd henough (Nat.not_le.mpr hfew), fun _ h => absurd hresidues h,
        fun _ _ => ⟨f, fun g => ⟨hunique g, fun h => h ▸ hf⟩, r, (hok r).mpr hr, hrep⟩⟩
  · refine iff_of_false (fun h => ?_) fun h => hresidues h.1
    have hcollide := h.2.1 henough hresidues
    rcases answer with _ | e | _
    · cases hcollide
    · exact herror e rfl
    · cases hcollide

variable [FieldOps F] [Lawful F] [Wide F]

theorem interpolates_iff {diff : F → F → ZMod (modulus F)} (hne : indexes ≠ [])
    (hlen : shares.length = indexes.length) (hnodup : indexes.Nodup)
    (hdiffers : ∀ a ∈ indexes, ∀ b ∈ indexes, a ≠ b → Differs checks diff zero b ∧ Differs checks diff a b) :
    Interpolates shares indexes (checkedInterpolatePolynomialAt checks (shares.map share) indexes zero) ↔
      (indexes.map residue).Nodup ∧
      (∀ a ∈ indexes, ∀ b ∈ indexes, a ≠ b → Divides checks diff zero a b) ∧
      interpolateBy diff indexes (shares.map fun s => residue s.share) zero =
        interpolateBy (fun a b => residue a - residue b) indexes (shares.map fun s => residue s.share) zero := by
  have hlen' : (shares.map share).length = indexes.length := by rw [List.length_map, hlen]
  refine and_congr_right fun _ => ?_
  by_cases hdivides : ∀ a ∈ indexes, ∀ b ∈ indexes, a ≠ b → Divides checks diff zero a b
  · obtain ⟨r, hr, hrep⟩ := checkedInterpolatePolynomialAt_of_divides hne hlen' hnodup fun a ha b hb hab =>
      ⟨(hdiffers a ha b hb hab).1, (hdiffers a ha b hb hab).2, hdivides a ha b hb hab⟩
    rw [List.map_map] at hrep
    rw [and_iff_right hdivides, hr]
    constructor
    · rintro ⟨r', hr', hrep'⟩
      obtain rfl := Except.ok.inj (Option.some.inj hr')
      exact hrep.2.symm.trans hrep'.2
    · exact fun h => ⟨r, rfl, hrep.1, hrep.2.trans h⟩
  · refine iff_of_false ?_ fun h => hdivides h.1
    push Not at hdivides
    obtain ⟨a, ha, b, hb, hab, hdivides⟩ := hdivides
    rw [checkedInterpolatePolynomialAt_of_not_divides hlen' hnodup ha hb hab (hdiffers a ha b hb hab).2 hdivides]
    rintro ⟨r, hr, -⟩
    cases hr

end

/-! ### Indexes up to the modulus -/

section
variable {α : Type} {f : α → Nat} {m : Nat} {l : List α}

theorem eq_of_length_le_one (hlen : l.length ≤ 1) {a b : α} (ha : a ∈ l) (hb : b ∈ l) : a = b := by
  obtain ⟨c, hc⟩ := List.length_eq_one_iff.mp (le_antisymm hlen (List.length_pos_of_mem ha))
  rw [hc, List.mem_singleton] at ha hb
  exact ha.trans hb.symm

theorem UpTo.of_mem (h : UpTo m (l.map f)) {a b : α} (ha : a ∈ l) (hb : b ∈ l) (hab : a ≠ b) :
    f a ≤ m ∧ f b ≤ m ∧ ¬ (f a = m ∧ f b = 0) := by
  rcases h with hlen | ⟨hle, hboth⟩
  · rw [List.length_map] at hlen
    exact absurd (eq_of_length_le_one hlen ha hb) hab
  · rw [List.forall_mem_map] at hle
    refine ⟨hle a ha, hle b hb, fun h => hboth ⟨?_, ?_⟩⟩
    · exact List.mem_map.mpr ⟨b, hb, h.2⟩
    · exact List.mem_map.mpr ⟨a, ha, h.1⟩

theorem upTo_of_forall (hnodup : l.Nodup) (hm : 0 < m)
    (h : ∀ a ∈ l, ∀ b ∈ l, a ≠ b → f b ≤ m ∧ ¬ (f a = 0 ∧ f b = m)) : UpTo m (l.map f) := by
  rw [UpTo, List.length_map]
  by_cases hlen : l.length ≤ 1
  · exact .inl hlen
  · refine .inr ⟨List.forall_mem_map.mpr fun b hb => ?_, ?_⟩
    · have hother : ∃ a ∈ l, a ≠ b := by
        by_contra hall
        push Not at hall
        rw [List.eq_replicate_of_mem hall, List.nodup_replicate] at hnodup
        exact hlen hnodup
      obtain ⟨a, ha, hab⟩ := hother
      exact (h a ha b hb hab).1
    · rintro ⟨hzero, hmodulus⟩
      obtain ⟨a, ha, hza⟩ := List.mem_map.mp hzero
      obtain ⟨b, hb, hmb⟩ := List.mem_map.mp hmodulus
      refine (h a ha b hb ?_).2 ⟨hza, hmb⟩
      rintro rfl
      omega

end

section
variable {F Inner : Type} [FieldApi F Inner] [DecidableEq F] [FieldOps F] [Lawful F] [Wide F]
  [Fact (modulus F).Prime] {checks : Bool} {shares : List (ShamirSS F)} {indexes : List F}

omit [DecidableEq F] [FieldOps F] [Wide F] [Fact (modulus F).Prime] in
/-- Two integers up to the modulus have one residue only as the representations of zero. -/
theorem eq_of_residue {a b : F} (ha : toNat a ≤ modulus F) (hb : toNat b ≤ modulus F)
    (hne : ¬ (toNat a = modulus F ∧ toNat b = 0)) (hne' : ¬ (toNat b = modulus F ∧ toNat a = 0))
    (h : residue a = residue b) : a = b := by
  have hmod := (ZMod.natCast_eq_natCast_iff' _ _ _).mp h
  have heq : toNat a = toNat b := by
    rcases ha.lt_or_eq with ha | ha <;> rcases hb.lt_or_eq with hb | hb
    · rwa [Nat.mod_eq_of_lt ha, Nat.mod_eq_of_lt hb] at hmod
    · rw [Nat.mod_eq_of_lt ha, hb, Nat.mod_self] at hmod
      exact absurd ⟨hb, hmod⟩ hne'
    · rw [Nat.mod_eq_of_lt hb, ha, Nat.mod_self] at hmod
      exact absurd ⟨ha, hmod.symm⟩ hne
    · exact ha.trans hb.symm
  exact Lawful.ext heq

omit [DecidableEq F] [FieldOps F] [Lawful F] [Wide F] [Fact (modulus F).Prime] in
theorem not_both_of_nodup (h : (indexes.map residue).Nodup) {a b : F} (ha : a ∈ indexes) (hb : b ∈ indexes)
    (hab : a ≠ b) : ¬ (toNat a = 0 ∧ toNat b = modulus F) := by
  rintro ⟨hza, hmb⟩
  refine hab (List.inj_on_of_nodup_map h ha hb ?_)
  rw [residue, residue, hza, hmb, Nat.cast_zero, ZMod.natCast_self]

/-- **Indexes up to the modulus are enough**, in every build. -/
theorem enforces_of_upTo (hsize : Sized (shares.map degree)) (hshape : Shape (shares.map degree) indexes)
    (hupTo : Reaches (shares.map degree) indexes → UpTo (modulus F) (indexes.map toNat)) :
    Enforces shares indexes (checkedSecretFromShares checks shares indexes) := by
  by_cases hreaches : Reaches (shares.map degree) indexes
  · have hupTo := hupTo hreaches
    obtain ⟨hne, hlen, hnodup⟩ := hreaches.nodup hshape
    have hdistinct : ∀ a ∈ indexes, ∀ b ∈ indexes, residue a = residue b → a = b := by
      intro a ha b hb h
      by_contra hab
      obtain ⟨hale, hble, hboth⟩ := hupTo.of_mem ha hb hab
      exact hab (eq_of_residue hale hble hboth (hupTo.of_mem hb ha (Ne.symm hab)).2.2 h)
    have hzero : toNat (zero : F) = 0 := Wide.toNat_zero
    have hpos := (Fact.out : (modulus F).Prime).pos
    have hpair : ∀ a ∈ indexes, ∀ b ∈ indexes, a ≠ b →
        (∃ c, sub checks zero b = some c ∧ Represents c (residue zero - residue b)) ∧
        ∃ c, sub checks a b = some c ∧ Represents c (residue a - residue b) := by
      intro a ha b hb hab
      obtain ⟨hale, hble, hboth⟩ := hupTo.of_mem ha hb hab
      exact ⟨Wide.sub_of_le checks (by omega) hble (by omega), Wide.sub_of_le checks hale hble hboth⟩
    rw [enforces_iff_of_reaches hsize hshape hreaches, interpolates_iff hne hlen hnodup fun a ha b hb hab =>
      ⟨.of_exists (hpair a ha b hb hab).1, .of_exists (hpair a ha b hb hab).2⟩]
    refine ⟨hnodup.map_on hdistinct, fun a ha b hb hab => ?_, rfl⟩
    obtain ⟨⟨c, hc, -⟩, e, he, -⟩ := hpair a ha b hb hab
    exact ⟨by rw [hc]; rfl, by rw [he]; rfl, sub_ne_zero.mpr (mt (hdistinct a ha b hb) hab)⟩
  · exact enforces_of_not_reaches hsize hshape hreaches

end

/-! ### `Mersenne61` -/

section
variable {shares : List (ShamirSS Mersenne61)} {indexes : List Mersenne61}

/-- What the indexes must be. In a build without overflow checks, where differences that wrap around are 8 too
large, they may be any whose errors cancel. -/
def Interpolable (checks : Bool) (shares : List (ShamirSS Mersenne61)) (indexes : List Mersenne61) : Prop :=
  if checks then UpTo mersenneModulus (indexes.map fun a => a.value.toNat)
  else (indexes.map Mersenne61.toZMod).Nodup ∧
    (∀ a ∈ indexes, ∀ b ∈ indexes, a ≠ b → Mersenne61.wrappedSub a b ≠ 0) ∧
    interpolateBy Mersenne61.wrappedSub indexes (shares.map fun s => s.share.toZMod) Mersenne61.zero =
      interpolateBy (fun a b => a.toZMod - b.toZMod) indexes (shares.map fun s => s.share.toZMod) Mersenne61.zero

theorem differs_wrappedSub (checks : Bool) (a b : Mersenne61) : Differs checks Mersenne61.wrappedSub a b :=
  fun _ hc => Mersenne61.sub_rep hc

/-- Where overflows are checked, indexes above the modulus panic. -/
theorem upTo_of_interpolates (hne : indexes ≠ []) (hlen : shares.length = indexes.length)
    (hnodup : indexes.Nodup)
    (h : Interpolates shares indexes (checkedInterpolatePolynomialAt true (shares.map share) indexes zero)) :
    UpTo mersenneModulus (indexes.map fun a => a.value.toNat) := by
  rw [interpolates_iff hne hlen hnodup fun a _ b _ _ =>
    ⟨differs_wrappedSub true zero b, differs_wrappedSub true a b⟩] at h
  obtain ⟨hresidues, hdivides, -⟩ := h
  refine upTo_of_forall hnodup (by decide) fun a ha b hb hab => ⟨?_, not_both_of_nodup hresidues ha hb hab⟩
  · have hsome := Mersenne61.isSome_sub_true.mp (hdivides a ha b hb hab).numerator
    have hzero : (zero : Mersenne61).value.toNat = 0 := rfl
    rw [hzero] at hsome
    omega

theorem enforces_mersenne61_iff {checks : Bool} (hsize : Sized (shares.map degree)) :
    Enforces shares indexes (checkedSecretFromShares checks shares indexes) ↔
      Shape (shares.map degree) indexes ∧
        (Reaches (shares.map degree) indexes → Interpolable checks shares indexes) := by
  constructor
  · intro h
    have hshape := h.shape hsize
    refine ⟨hshape, fun hreaches => ?_⟩
    obtain ⟨hne, hlen, hnodup⟩ := hreaches.nodup hshape
    rw [enforces_iff_of_reaches hsize hshape hreaches] at h
    cases checks with
    | true => exact upTo_of_interpolates hne hlen hnodup h
    | false =>
      rw [interpolates_iff hne hlen hnodup fun a _ b _ _ =>
        ⟨differs_wrappedSub false zero b, differs_wrappedSub false a b⟩] at h
      exact ⟨h.1, fun a ha b hb hab => (h.2.1 a ha b hb hab).ne_zero, h.2.2⟩
  · rintro ⟨hshape, hinterpolable⟩
    cases checks with
    | true => exact enforces_of_upTo hsize hshape hinterpolable
    | false =>
      by_cases hreaches : Reaches (shares.map degree) indexes
      · obtain ⟨hne, hlen, hnodup⟩ := hreaches.nodup hshape
        obtain ⟨hresidues, hnonzero, hsum⟩ := hinterpolable hreaches
        rw [enforces_iff_of_reaches hsize hshape hreaches, interpolates_iff hne hlen hnodup fun a _ b _ _ =>
          ⟨differs_wrappedSub false zero b, differs_wrappedSub false a b⟩]
        exact ⟨hresidues, fun a ha b hb hab =>
          ⟨Mersenne61.isSome_sub _ _, Mersenne61.isSome_sub _ _, hnonzero a ha b hb hab⟩, hsum⟩
      · exact enforces_of_not_reaches hsize hshape hreaches

/-- In every build it is the indexes up to the modulus that are interpolated. -/
theorem forall_enforces_mersenne61_iff (hsize : Sized (shares.map degree)) :
    (∀ checks, Enforces shares indexes (checkedSecretFromShares checks shares indexes)) ↔
      Shape (shares.map degree) indexes ∧ (Reaches (shares.map degree) indexes →
        UpTo mersenneModulus (indexes.map fun a => a.value.toNat)) :=
  ⟨fun h => (enforces_mersenne61_iff hsize).mp (h true), fun h _ => enforces_of_upTo hsize h.1 h.2⟩

end

/-! ### The fields of `crypto-bigint` -/

section
variable {m : Nat} [ModUint.IsModulus m]

/-- The differences of `CryptoBigint.zeroDifferences`. -/
def openSub (a b : ModUint m) : ZMod m :=
  if a.value.toNat < b.value.toNat + m ∧ b.value.toNat ≤ a.value.toNat + m then a.toZMod - b.toZMod else 0

attribute [local instance] CryptoBigint.zeroDifferences in
theorem differs_openSub (checks : Bool) (a b : ModUint m) : Differs checks openSub a b := by
  refine .of_exists ⟨_, rfl, ?_⟩
  unfold openSub
  split_ifs with hrange
  · exact ModUint.sub_of_range hrange.1 hrange.2
  · have hzero : a - b = ModUint.zero := by
      refine congrArg ModUint.mk (if_neg ?_)
      rwa [ModUint.toNat_modulus]
    change (a - b).Rep 0
    rw [hzero]
    exact .zero

variable [Fact m.Prime] {degrees : List Nat} {indexes : List (ModUint m)}

attribute [local instance] CryptoBigint.zeroDifferences in
/-- An index above the modulus takes their weights from the others. -/
theorem le_of_interpolates [LawfulFromU64 (ModUint m)] (hm : 2 ^ 256 < 2 * m) {checks : Bool} {d : Nat}
    {a b : ModUint m} (ha : a ∈ indexes) (hb : b ∈ indexes) (hab : a ≠ b) (hnodup : indexes.Nodup)
    (h : ∀ shares : List (ShamirSS (ModUint m)), shares.map degree = indexes.map (fun _ => d) →
      Interpolates shares indexes (checkedInterpolatePolynomialAt checks (shares.map share) indexes zero)) :
    b.value.toNat ≤ m := by
  by_contra hlt
  -- the shares of the line through zero at `b`
  choose value hvalue using fun c : ModUint m => ModUint.exists_rep (c.toZMod - b.toZMod)
  let shares := indexes.map fun c => (⟨value c, d⟩ : ShamirSS (ModUint m))
  have hdegrees : shares.map degree = indexes.map fun _ => d := List.map_map
  have hvalues : (shares.map fun s => residue s.share) = indexes.map fun c => c.toZMod - b.toZMod := by
    rw [List.map_map]
    exact List.map_congr_left fun c _ => (hvalue c).2
  have hlen : shares.length = indexes.length := List.length_map _
  have hsum := (interpolates_iff (List.ne_nil_of_mem ha) hlen hnodup fun a _ b _ _ =>
    ⟨differs_openSub checks zero b, differs_openSub checks a b⟩).mp (h shares hdegrees)
  obtain ⟨hresidues, -, hsum⟩ := hsum
  have hzero : openSub zero b = 0 := if_neg fun h => hlt (h.2.trans_eq (Nat.zero_add m))
  have hline : (X - C b.toZMod : (ZMod m)[X]).degree < indexes.length := by
    rw [degree_X_sub_C]
    exact_mod_cast Nat.lt_of_not_le fun h => hab (eq_of_length_le_one h ha hb)
  have hevals : (indexes.map fun c => c.toZMod - b.toZMod) =
      indexes.map fun c => (X - C b.toZMod : (ZMod m)[X]).eval (residue c) := by
    refine List.map_congr_left fun c _ => ?_
    rw [eval_sub, eval_X, eval_C]
    rfl
  have hright := interpolateBy_sub (x := zero) hresidues hline hevals
  rw [hvalues, interpolateBy_eq_zero _ hb hzero (sub_self _), hright, residue_zero] at hsum
  have hzero : b.toZMod = 0 := by simpa using hsum
  obtain ⟨k, hk⟩ := (ZMod.natCast_eq_zero_iff _ _).mp hzero
  have hlt' := b.value.isLt
  have htwo : 2 ≤ k := by
    by_contra hk'
    have : k = 0 ∨ k = 1 := by omega
    rcases this with rfl | rfl <;> omega
  have := Nat.mul_le_mul_left m htwo
  omega

/-- **Above the modulus the crate decides**: its documentation leaves implementations open that give wrong
answers. The shape is needed with each. -/
theorem enforces_modUint_iff [∀ [CryptoBigint], LawfulFromU64 (ModUint m)] (hm : 2 ^ 256 < 2 * m)
    (hsize : Sized degrees) :
    ((∀ [CryptoBigint] (checks : Bool) (shares : List (ShamirSS (ModUint m))), shares.map degree = degrees →
        Enforces shares indexes (checkedSecretFromShares checks shares indexes)) ↔
      Shape degrees indexes ∧ (Reaches degrees indexes → UpTo m (indexes.map fun a => a.value.toNat))) ∧
    ∀ [CryptoBigint] (checks : Bool) (shares : List (ShamirSS (ModUint m))), shares.map degree = degrees →
      Enforces shares indexes (checkedSecretFromShares checks shares indexes) → Shape degrees indexes := by
  refine ⟨⟨fun h => ?_, ?_⟩, ?_⟩
  · let := CryptoBigint.zeroDifferences
    have hmap : (degrees.map fun d => (⟨ModUint.zero, d⟩ : ShamirSS (ModUint m))).map degree = degrees := by
      rw [List.map_map]
      exact List.map_id _
    have hshape : Shape degrees indexes := hmap ▸ (h true _ hmap).shape (hmap.symm ▸ hsize)
    refine ⟨hshape, fun hreaches => ?_⟩
    have hinterpolates : ∀ shares : List (ShamirSS (ModUint m)), shares.map degree = degrees →
        Interpolates shares indexes (checkedInterpolatePolynomialAt true (shares.map share) indexes zero) := by
      rintro shares rfl
      exact (enforces_iff_of_reaches hsize hshape hreaches).mp (h true shares rfl)
    rw [← hmap] at hreaches hshape
    obtain ⟨-, hlen, hnodup⟩ := hreaches.nodup hshape
    rw [hmap] at hreaches
    obtain ⟨d, hdegree, -⟩ := hreaches
    have hconst : degrees = indexes.map fun _ => d := by
      rw [List.map_const', ← hlen, List.length_map]
      exact List.eq_replicate_of_mem hdegree
    refine upTo_of_forall hnodup ModUint.pos_of_isModulus fun a ha b hb hab => ⟨?_, ?_⟩
    · exact le_of_interpolates hm ha hb hab hnodup (hconst ▸ hinterpolates)
    · exact not_both_of_nodup (hinterpolates _ hmap).1 ha hb hab
  · rintro ⟨hshape, hupTo⟩ _ checks shares rfl
    exact enforces_of_upTo hsize hshape hupTo
  · rintro _ checks shares rfl h
    exact h.shape hsize

end

end ShamirSS

end SclRs
