import SclRs.Math.Matrix.Checked
import SclRs.Math.Poly.Checked

/-!
# The invariants of matrices and polynomials

What `Matrix` and `Polynomial` index on: positive dimensions with as many elements as they say, and a
coefficient. The checks of `from_vec` and `new` establish them, the former up to a product that wraps; the
derived decoders and the conversion from an array check nothing, so that they hold there just when the input
is so. With them the operations neither panic nor miss, but for two: `Mul<&T>`, which takes its columns from
the rows (`Matrix.sound_iff`), and where overflows are checked `evaluate` on coefficients that are not reduced
(`Polynomial.sound_mersenne61_iff`).
-/

namespace SclRs

open RingOps

namespace Postcard

variable {α β : Type}

/-- The derived `Serialize` and `Deserialize` of a type that is the fields it embeds as. -/
def map (codec : Postcard α) (f : β → α) (g : α → β) (hgf : ∀ b, g (f b) = b) : Postcard β where
  toAllocvec b := codec.toAllocvec (f b)
  fromBytes bytes := (codec.fromBytes bytes).map g
  fromBytes_toAllocvec b := by rw [codec.fromBytes_toAllocvec, Option.map_some, hgf]

theorem forall_fromBytes_map {codec : Postcard α} {f : β → α} {g : α → β} {hgf : ∀ b, g (f b) = b}
    {bytes : List UInt8} {P : β → Prop} :
    (∀ b, (codec.map f g hgf).fromBytes bytes = some b → P b) ↔
      ∀ a, codec.fromBytes bytes = some a → P (g a) := by
  simp only [map, Option.map_eq_some_iff]
  exact ⟨fun h a ha => h _ ⟨a, ha, rfl⟩, fun h _ ⟨a, ha, hb⟩ => hb ▸ h a ha⟩

end Postcard

namespace Matrix

variable {T : Type}

/-- The fields of a matrix in the order of their declaration. -/
abbrev Fields (T : Type) := List T × Nat × Nat

def ofFields (fields : Fields T) : Matrix T :=
  ⟨fields.1, fields.2.1, fields.2.2⟩

/-- `Matrix` as it is received: the decoder is derived. -/
def postcard (codec : Postcard (Fields T)) : Postcard (Matrix T) :=
  codec.map (fun m => (m.elements, m.columns, m.rows)) ofFields fun _ => rfl

/-- The invariant, and what indexes on the strength of it: every place lies within the elements, and
transposing and multiplying neither panic nor lose the invariant. -/
structure Sound {Inner : Type} [FieldApi T Inner] (checks : Bool) (m : Matrix T) : Prop where
  wellFormed : m.WellFormed
  index : ∀ i < m.rows, ∀ j < m.columns, m.columns * i + j < m.elements.length
  get : ∀ i < m.rows, ∀ j < m.columns, ∃ x, m.get i j = some x
  transpose : ∃ m', m.transpose = some m' ∧ m'.WellFormed
  mulVector : ∀ v : List T, m.columns = v.length → ∃ w, m.checkedMulVector checks v = some (.ok w)
  mulMatrix : ∀ b : Matrix T, b.WellFormed → m.columns = b.rows → m.rows * b.columns < 2 ^ 64 →
    ∃ p, m.checkedMulMatrix checks b = some (.ok p) ∧ p.WellFormed
  mulMatrix_right : ∀ a : Matrix T, a.WellFormed → a.columns = m.rows → a.rows * m.columns < 2 ^ 64 →
    ∃ p, a.checkedMulMatrix checks m = some (.ok p) ∧ p.WellFormed
  mulScalar : ∀ k : T, ∃ m', m.checkedMulScalar checks k = some m' ∧ m'.WellFormed

section
variable [RingOps T] {checks : Bool} {m b : Matrix T}

theorem exists_foldlM_add_mul {a b : Nat → Option T} (n : Nat) (ha : ∀ k < n, ∃ x, a k = some x)
    (hb : ∀ k < n, ∃ x, b k = some x) :
    ∃ total, (List.range n).foldlM (fun sum k => do return add sum (mul (← a k) (← b k))) zero =
      some total := by
  let step : T → Nat → Option T := fun sum k => do return add sum (mul (← a k) (← b k))
  obtain ⟨total, htotal, -⟩ := @foldlM_range' _ step (fun _ _ => True) n 0 zero trivial
    fun k _ hk sum _ => by
      obtain ⟨x, hx⟩ := ha k (by omega)
      obtain ⟨y, hy⟩ := hb k (by omega)
      exact ⟨add sum (mul x y), by simp only [step, hx, hy]; rfl, trivial⟩
  exact ⟨total, by rwa [List.range_eq_range']⟩

omit [RingOps T] in
theorem WellFormed.getElem? (h : m.WellFormed) {i j : Nat} (hi : i < m.rows) (hj : j < m.columns) :
    ∃ x, m.elements[m.columns * i + j]? = some x :=
  ⟨_, List.getElem?_eq_getElem (h.length ▸ index_lt hi hj)⟩

omit [RingOps T] in
theorem exists_mapM_mapM {r c : Nat} (hr : 0 < r) (hc : 0 < c) {k : Nat → Nat → Option T}
    (h : ∀ i < r, ∀ j < c, ∃ x, k i j = some x) :
    ∃ rows : List (List T), (List.range r).mapM (fun i => (List.range c).mapM (k i)) = some rows ∧
      (⟨rows.flatten, c, r⟩ : Matrix T).WellFormed := by
  obtain ⟨x₀, -⟩ := h 0 hr 0 hc
  have hentry : ∀ i j, ∃ x, i < r → j < c → k i j = some x := by
    intro i j
    by_cases hij : i < r ∧ j < c
    · exact (h i hij.1 j hij.2).imp fun _ hx _ _ => hx
    · exact ⟨x₀, fun hi hj => absurd ⟨hi, hj⟩ hij⟩
  choose f hf using hentry
  exact ⟨_, mapM_mapM_eq fun i hi j hj => hf i j hi hj, hr, hc, (is_flatten r c f).length⟩

theorem WellFormed.mulMatrix (h : m.WellFormed) (h' : b.WellFormed) (hcompatible : m.columns = b.rows)
    (hsize : m.rows * b.columns < 2 ^ 64) :
    ∃ p, m.mulMatrix checks b = some (.ok p) ∧ p.WellFormed := by
  obtain ⟨rows, hrows, hp⟩ := exists_mapM_mapM h.rows h'.columns (k := m.productEntry b) fun i hi j hj =>
    exists_foldlM_add_mul m.columns (fun k hk => h.getElem? hi hk)
      fun k hk => h'.getElem? (hcompatible ▸ hk) hj
  refine ⟨_, ?_, hp⟩
  rw [Matrix.mulMatrix, if_neg (not_not_intro hcompatible), allocate_eq h.rows h'.columns hsize]
  simp only [Option.bind_eq_bind, Option.bind_some]
  rw [hrows]
  rfl

omit [RingOps T] in
theorem WellFormed.transpose (h : m.WellFormed) : ∃ m', m.transpose = some m' ∧ m'.WellFormed := by
  obtain ⟨rows, hrows, hm'⟩ := exists_mapM_mapM h.columns h.rows
    (k := fun j i => m.elements[m.columns * i + j]?) fun j hj i hi => h.getElem? hi hj
  exact ⟨_, by rw [Matrix.transpose, hrows]; rfl, hm'⟩

theorem WellFormed.mulVector (h : m.WellFormed) {v : List T} (hlen : m.columns = v.length) :
    ∃ w, m.mulVector v = some (.ok w) := by
  have hrow : ∀ i ∈ List.range m.rows, ∃ x, m.mulVectorRow v i = some x ∧ True := fun i hi =>
    (exists_foldlM_add_mul m.columns (fun k hk => h.getElem? (List.mem_range.mp hi) hk)
      fun k hk => ⟨_, List.getElem?_eq_getElem (hlen ▸ hk)⟩).imp fun _ hx => ⟨hx, trivial⟩
  obtain ⟨w, hw, -⟩ := mapM_forall₂ hrow
  exact ⟨w, by rw [Matrix.mulVector, if_neg (not_not_intro hlen), hw]; rfl⟩

theorem WellFormed.mulScalar (h : m.WellFormed) (hwide : m.rows ≤ m.columns) (k : T) :
    ∃ m', m.mulScalar k = some m' ∧ m'.WellFormed := by
  obtain ⟨m', hm', his⟩ := (Is.of_length h.length k).mulScalar hwide k
  exact ⟨m', hm', his.rows ▸ h.rows, his.columns ▸ h.columns, by rw [his.length, his.rows, his.columns]⟩

omit [RingOps T] in
theorem usizeMul_lt {a b product : Nat} (h : usizeMul checks a b = some product) : product < 2 ^ 64 := by
  unfold usizeMul at h
  split_ifs at h with hlt
  · exact Option.some.inj h ▸ hlt
  · exact Option.some.inj h ▸ Nat.mod_lt _ (by norm_num)

omit [RingOps T] in
theorem fromVec_eq_ok {rows columns : Nat} {elements : List T} :
    fromVec checks rows columns elements = some (.ok m) ↔
      usizeMul checks rows columns = some elements.length ∧ 0 < rows ∧ 0 < columns ∧
        m = ⟨elements, columns, rows⟩ := by
  constructor
  · intro hm
    obtain ⟨product, hproduct, hm⟩ := Option.bind_eq_some_iff.mp hm
    split_ifs at hm with hinvalid
    · cases hm
    push Not at hinvalid
    obtain ⟨rfl, hrows, hcolumns⟩ := hinvalid
    exact ⟨hproduct, Nat.pos_of_ne_zero hrows, Nat.pos_of_ne_zero hcolumns,
      (Except.ok.inj (Option.some.inj hm)).symm⟩
  · rintro ⟨hproduct, hrows, hcolumns, rfl⟩
    rw [fromVec, hproduct, Option.bind_eq_bind, Option.bind_some, if_neg (by omega)]
    rfl

omit [RingOps T] in
/-- **What `from_vec` builds** is well formed unless the product wraps to the number of elements. -/
theorem fromVec_wellFormed_iff {rows columns : Nat} {elements : List T} :
    (∀ m, fromVec checks rows columns elements = some (.ok m) → m.WellFormed) ↔
      checks = true ∨ rows * columns < 2 ^ 64 ∨ rows * columns % 2 ^ 64 ≠ elements.length := by
  constructor
  · intro h
    by_contra hwrap
    push Not at hwrap
    obtain ⟨hchecks, hlarge, hlen⟩ := hwrap
    have hpos : 0 < rows * columns := Nat.lt_of_lt_of_le (by norm_num) hlarge
    have hproduct : usizeMul checks rows columns = some elements.length := by
      rw [usizeMul, if_neg (not_lt.mpr hlarge), if_neg hchecks, hlen]
    have hm := fromVec_eq_ok.mpr ⟨hproduct, Nat.pos_of_mul_pos_right hpos, Nat.pos_of_mul_pos_left hpos, rfl⟩
    have hlength : elements.length = rows * columns := (h _ hm).length
    have hlt := usizeMul_lt hproduct
    omega
  · intro h m hm
    obtain ⟨hproduct, hrows, hcolumns, rfl⟩ := fromVec_eq_ok.mp hm
    refine ⟨hrows, hcolumns, ?_⟩
    unfold usizeMul at hproduct
    split_ifs at hproduct with hlt hchecks
    · exact (Option.some.inj hproduct).symm
    · rcases h with h | h | h
      · exact absurd h hchecks
      · exact absurd h hlt
      · exact absurd (Option.some.inj hproduct) h

omit [RingOps T] in
theorem fromVec_wide_iff {rows columns : Nat} {elements : List T} :
    (∀ m, fromVec checks rows columns elements = some (.ok m) → m.WellFormed ∧ m.rows ≤ m.columns) ↔
      (checks = true ∨ rows * columns < 2 ^ 64 ∨ rows * columns % 2 ^ 64 ≠ elements.length) ∧
      (0 < rows → 0 < columns → elements.length = rows * columns → elements.length < 2 ^ 64 →
        rows ≤ columns) := by
  have hwell_iff := @fromVec_wellFormed_iff _ checks rows columns elements
  rw [← hwell_iff]
  constructor
  · intro h
    refine ⟨fun m hm => (h m hm).1, fun hrows hcolumns hlength hlt => ?_⟩
    have hproduct : usizeMul checks rows columns = some elements.length := by
      rw [usizeMul_of_lt (hlength ▸ hlt), hlength]
    exact (h _ (fromVec_eq_ok.mpr ⟨hproduct, hrows, hcolumns, rfl⟩)).2
  · rintro ⟨hwell, hwide⟩ m hm
    have hm' := hwell m hm
    obtain ⟨hproduct, hrows, hcolumns, rfl⟩ := fromVec_eq_ok.mp hm
    exact ⟨hm', hwide hrows hcolumns hm'.length (usizeMul_lt hproduct)⟩

end

section
variable {Inner : Type} [FieldApi T Inner] [FieldOps T] [FieldApi.Lawful T] [FieldApi.Wide T] {checks : Bool}
  {m : Matrix T}

/-- **A well-formed matrix is sound**, whatever its elements are, unless it has more rows than columns. -/
theorem sound_iff : m.Sound checks ↔ m.WellFormed ∧ m.rows ≤ m.columns := by
  constructor
  · intro h
    refine ⟨h.wellFormed, not_lt.mp fun htall => ?_⟩
    obtain ⟨m', hm', -⟩ := h.mulScalar FieldApi.zero
    rw [checkedMulScalar_eq, mulScalar_eq_none htall] at hm'
    cases hm'
  · rintro ⟨h, hwide⟩
    refine ⟨h, fun i hi j hj => h.length ▸ index_lt hi hj, fun i hi j hj => ?_, h.transpose, fun v hlen => ?_,
      fun b hb hcompatible hsize => ?_, fun a ha hcompatible hsize => ?_, fun k => ?_⟩
    · rw [get, if_neg (by omega)]
      exact h.getElem? hi hj
    · rw [checkedMulVector_eq]
      exact h.mulVector hlen
    · rw [checkedMulMatrix_eq]
      exact h.mulMatrix hb hcompatible hsize
    · rw [checkedMulMatrix_eq]
      exact ha.mulMatrix h hcompatible hsize
    · rw [checkedMulScalar_eq]
      exact h.mulScalar hwide k

end

end Matrix

namespace Polynomial

variable {T : Type}

/-- `degree`, whose difference is of type `usize`. -/
def checkedDegree (checks : Bool) (p : Polynomial T) : Option Nat := usizeSub checks p.coefficients.length 1

/-- `From<[T; N]>`. -/
def ofArray {n : Nat} (coefficients : Vector T n) : Polynomial T := ⟨coefficients.toList⟩

/-- `Polynomial` as it is received: the decoder is derived. -/
def postcard (codec : Postcard (List T)) : Postcard (Polynomial T) :=
  codec.map coefficients Polynomial.mk fun _ => rfl

/-- There is a coefficient, `evaluate` has a value everywhere, and `degree` does not underflow. -/
structure Sound {Inner : Type} [FieldApi T Inner] (checks : Bool) (p : Polynomial T) : Prop where
  nonempty : p.coefficients ≠ []
  evaluate : ∀ x, ∃ y, p.checkedEvaluate checks x = some y
  degree : p.checkedDegree checks = some p.degree

theorem checkedDegree_of_ne_nil {checks : Bool} {p : Polynomial T} (h : p.coefficients ≠ []) :
    p.checkedDegree checks = some p.degree :=
  usizeSub_of_le (List.length_pos_iff.mpr h)

/-- **A polynomial with a coefficient is sound** where no sum panics. -/
theorem sound_iff {Inner : Type} [FieldApi T Inner] [FieldOps T] [FieldApi.Wide T] {checks : Bool}
    (hadd : ∀ a b : T, (FieldApi.add checks a b).isSome) {p : Polynomial T} :
    p.Sound checks ↔ p.coefficients ≠ [] :=
  ⟨Sound.nonempty, fun h => ⟨h, fun x => Option.isSome_iff_exists.mp (isSome_checkedEvaluate hadd h x),
    checkedDegree_of_ne_nil h⟩⟩

/-- **Over `Mersenne61`** the sums must also fit where overflows are checked. -/
theorem sound_mersenne61_iff {checks : Bool} {p : Polynomial Mersenne61} :
    p.Sound checks ↔ p.coefficients ≠ [] ∧ (checks = true → ∀ x, HornerFits x p.coefficients) := by
  cases checks with
  | false =>
    rw [sound_iff Mersenne61.isSome_add]
    simp
  | true =>
    rw [forall_prop_of_true rfl]
    constructor
    · intro h
      refine ⟨h.nonempty, fun x => ?_⟩
      obtain ⟨c, cs, hcs⟩ := List.exists_cons_of_ne_nil h.nonempty
      obtain ⟨y, hy⟩ := h.evaluate x
      by_contra hfits
      obtain ⟨coefficients⟩ := p
      obtain rfl : coefficients = c :: cs := hcs
      rw [(checkedEvaluate_mersenne61 x c cs).2 hfits] at hy
      cases hy
    · rintro ⟨hne, hfits⟩
      refine ⟨hne, fun x => ?_, checkedDegree_of_ne_nil hne⟩
      obtain ⟨coefficients⟩ := p
      obtain ⟨c, cs, rfl⟩ := List.exists_cons_of_ne_nil hne
      exact ((checkedEvaluate_mersenne61 x c cs).1 (hfits x)).imp fun _ h => h.1

end Polynomial

/-! ### The doors -/

section
variable {F Inner : Type} [FieldApi F Inner] {checks : Bool} {matrixCodec : Postcard (Matrix.Fields F)}
  {polynomialCodec : Postcard (List F)} {Evaluates : List F → Prop}

/-- Which doors build sound containers, where coefficients must be such that the polynomial `Evaluates`. -/
structure DoorsSound (checks : Bool) (matrixCodec : Postcard (Matrix.Fields F))
    (polynomialCodec : Postcard (List F)) (Evaluates : List F → Prop) : Prop where
  fromVec : ∀ rows columns (elements : List F),
    (∀ m, Matrix.fromVec checks rows columns elements = some (.ok m) → m.Sound checks) ↔
      (checks = true ∨ rows * columns < 2 ^ 64 ∨ rows * columns % 2 ^ 64 ≠ elements.length) ∧
      (0 < rows → 0 < columns → elements.length = rows * columns → elements.length < 2 ^ 64 → rows ≤ columns)
  decodeMatrix : ∀ bytes,
    (∀ m, (Matrix.postcard matrixCodec).fromBytes bytes = some m → m.Sound checks) ↔
      ∀ elements columns rows, matrixCodec.fromBytes bytes = some (elements, columns, rows) →
        0 < rows ∧ 0 < columns ∧ elements.length = rows * columns ∧ rows ≤ columns
  new : ∀ coef, (∀ p, Polynomial.new coef = .ok p → p.Sound checks) ↔ (coef ≠ [] → Evaluates coef)
  ofArray : ∀ n (coefficients : Vector F n),
    (Polynomial.ofArray coefficients).Sound checks ↔ n ≠ 0 ∧ Evaluates coefficients.toList
  decodePolynomial : ∀ bytes,
    (∀ p, (Polynomial.postcard polynomialCodec).fromBytes bytes = some p → p.Sound checks) ↔
      ∀ coefficients, polynomialCodec.fromBytes bytes = some coefficients →
        coefficients ≠ [] ∧ Evaluates coefficients

theorem doorsSound [FieldOps F] [FieldApi.Lawful F] [FieldApi.Wide F]
    (hsound : ∀ p : Polynomial F, p.Sound checks ↔ p.coefficients ≠ [] ∧ Evaluates p.coefficients) :
    DoorsSound checks matrixCodec polynomialCodec Evaluates where
  fromVec _ _ _ := by
    simp only [Matrix.sound_iff]
    exact Matrix.fromVec_wide_iff
  decodeMatrix bytes := by
    apply Postcard.forall_fromBytes_map.trans
    simp only [Matrix.sound_iff]
    constructor
    · intro h elements columns rows hfields
      obtain ⟨hm, hwide⟩ := h _ hfields
      exact ⟨hm.rows, hm.columns, hm.length, hwide⟩
    · rintro h ⟨elements, columns, rows⟩ hfields
      obtain ⟨hrows, hcolumns, hlength, hwide⟩ := h _ _ _ hfields
      exact ⟨⟨hrows, hcolumns, hlength⟩, hwide⟩
  new coef := by
    unfold Polynomial.new
    split_ifs with hempty
    · rw [List.isEmpty_iff] at hempty
      exact iff_of_true (fun p hp => nomatch hp) fun hne => absurd hempty hne
    · rw [List.isEmpty_iff] at hempty
      rw [forall_prop_of_true hempty]
      simp only [Except.ok.injEq, forall_eq', hsound]
      exact and_iff_right hempty
  ofArray n coefficients := by
    rw [hsound, Polynomial.ofArray, ne_eq, ne_eq, ← List.length_eq_zero_iff, Vector.length_toList]
  decodePolynomial bytes := by
    apply Postcard.forall_fromBytes_map.trans
    simp only [hsound]

end

/-- What is written for a matrix. -/
def Lib.Codec.fields {F : Type} (codec : Lib.Codec F) : Postcard (Matrix.Fields F) :=
  .ofCodec (codec.list.prod (Lib.Codec.varint.prod Lib.Codec.varint))

/-- **Which doors build sound containers**, over each of the three fields. -/
theorem containers_sound_iff [CryptoBigint] (checks : Bool)
    (matrix61 : Postcard (Matrix.Fields Mersenne61)) (polynomial61 : Postcard (List Mersenne61))
    (matrixPrime : Postcard (Matrix.Fields Secp256k1PrimeField))
    (polynomialPrime : Postcard (List Secp256k1PrimeField))
    (matrixScalar : Postcard (Matrix.Fields Secp256k1ScalarField))
    (polynomialScalar : Postcard (List Secp256k1ScalarField)) :
    DoorsSound checks matrix61 polynomial61
      (fun coefficients => checks = true → ∀ x, Polynomial.HornerFits x coefficients) ∧
    (∀ coefficients : List Mersenne61,
      (∀ c ∈ coefficients.dropLast, c.value.toNat + mersenneModulus ≤ 2 ^ 64) →
      ∀ x, Polynomial.HornerFits x coefficients) ∧
    DoorsSound checks matrixPrime polynomialPrime (fun _ => True) ∧
    DoorsSound checks matrixScalar polynomialScalar (fun _ => True) := by
  refine ⟨doorsSound fun _ => Polynomial.sound_mersenne61_iff, fun _ => Polynomial.hornerFits_of_le,
    doorsSound fun _ => ?_, doorsSound fun _ => ?_⟩
  · rw [Polynomial.sound_iff fun _ _ => rfl, and_true]
  · rw [Polynomial.sound_iff fun _ _ => rfl, and_true]

/-- The coefficients that `postcard` reads, and the sums for those of `1 + 2 x`. -/
theorem containers_sound_iff_line :
    letI := CryptoBigint.reference
    DoorsSound true Mersenne61.codec.fields (.ofCodec Mersenne61.codec.list)
        (fun coefficients => true = true → ∀ x, Polynomial.HornerFits x coefficients) ∧
      ∀ x, Polynomial.HornerFits x [⟨1⟩, ⟨2⟩] := by
  let := CryptoBigint.reference
  have h := containers_sound_iff true Mersenne61.codec.fields (.ofCodec Mersenne61.codec.list)
    (fieldCodec _).fields (.ofCodec (fieldCodec _).list) (fieldCodec _).fields (.ofCodec (fieldCodec _).list)
  exact ⟨h.1, h.2.1 _ (by decide)⟩

/-- Without overflow checks, no elements pass for `2 ^ 63` rows of two; three bytes are a matrix of one row
and one column without an element, and no bytes but a length are a polynomial, which panics. A column of two
panics when it is multiplied by a scalar, and a polynomial with the coefficient `2 ^ 64 - 1` where overflows
are checked. -/
theorem malformed_containers :
    (∃ m, Matrix.fromVec false (2 ^ 63) 2 ([] : List Mersenne61) = some (.ok m) ∧ ¬ m.Sound false ∧
      m.get 0 0 = none) ∧
    (∃ m, (Matrix.postcard Mersenne61.codec.fields).fromBytes [0, 1, 1] = some m ∧ ¬ m.Sound true ∧
      m.get 0 0 = none ∧ m.transpose.isNone ∧ m.checkedMulVector true [⟨1⟩] = none) ∧
    (∃ m, (Matrix.postcard Mersenne61.codec.fields).fromBytes [2, 3, 4, 1, 2] = some m ∧ ¬ m.Sound true ∧
      (m.checkedMulScalar true ⟨1⟩).isNone) ∧
    (∃ p, (Polynomial.postcard (.ofCodec Mersenne61.codec.list)).fromBytes [0] = some p ∧ ¬ p.Sound true ∧
      p.checkedEvaluate true ⟨1⟩ = none ∧ p.checkedDegree true = none) ∧
    (∃ p, (Polynomial.postcard (.ofCodec Mersenne61.codec.list)).fromBytes
        [2, 255, 255, 255, 255, 255, 255, 255, 255, 255, 1, 1] = some p ∧ ¬ p.Sound true ∧
      p.checkedEvaluate true ⟨1⟩ = none) ∧
    ¬ (Polynomial.ofArray (#v[] : Vector Mersenne61 0)).Sound true := by
  have hpanics : (⟨[⟨0xFFFFFFFFFFFFFFFF⟩, ⟨1⟩]⟩ : Polynomial Mersenne61).checkedEvaluate true ⟨1⟩ = none := by
    decide +kernel
  refine ⟨⟨⟨[], 2, 2 ^ 63⟩, rfl, fun h => ?_, by decide⟩,
    ⟨⟨[], 1, 1⟩, rfl, fun h => ?_, by decide, by decide, by decide⟩,
    ⟨⟨[⟨3⟩, ⟨4⟩], 1, 2⟩, rfl, fun h => ?_, by decide +kernel⟩,
    ⟨⟨[]⟩, rfl, fun h => h.nonempty rfl, by decide, by decide⟩,
    ⟨⟨[⟨0xFFFFFFFFFFFFFFFF⟩, ⟨1⟩]⟩, rfl, fun h => ?_, hpanics⟩, fun h => h.nonempty rfl⟩
  · exact absurd h.wellFormed.length (by decide)
  · exact absurd h.wellFormed.length (by decide)
  · exact absurd (Matrix.sound_iff.mp h).2 (by decide)
  · obtain ⟨y, hy⟩ := h.evaluate ⟨1⟩
    rw [hpanics] at hy
    cases hy

end SclRs
