import SclRs.Math.Matrix.Scalar

/-!
# Products and transposes of matrices

`Denotes r c f` says that a matrix holds the `r × c` matrix over `K` with the entries `f`. It determines
the matrix (`Denotes.ext`), and the loops of `Mul`, `transpose`, `identity` and `vandermonde` compute the
sums of linear algebra, so that its laws hold of the code's results as equations between them
(`matrix_algebra`).
-/

namespace SclRs.Matrix

open RingOps LawfulRing

variable {T : Type}

section
variable [RingOps T]

/-- The loop of `Mul` over `k`, for the entry in row `i` and column `j`. -/
def productEntry (m rhs : Matrix T) (i j : Nat) : Option T :=
  (List.range m.columns).foldlM (fun sum k => do
    return add sum (mul (← m.elements[m.columns * i + k]?) (← rhs.elements[rhs.columns * k + j]?))) zero

/-- `Mul`. -/
def mulMatrix (checks : Bool) (m rhs : Matrix T) : Option (Except MatrixError (Matrix T)) :=
  if m.columns ≠ rhs.rows then some (.error .notCompatible)
  else do
    match ← allocate (T := T) checks m.rows rhs.columns with
    | .error e => return .error e
    | .ok matrix =>
      let elements ← (List.range m.rows).mapM fun i => (List.range rhs.columns).mapM (m.productEntry rhs i)
      return .ok { matrix with elements := elements.flatten }

end

/-- The dimensions are positive, and the elements are as many as they say. -/
structure WellFormed (m : Matrix T) : Prop where
  rows : 0 < m.rows
  columns : 0 < m.columns
  length : m.elements.length = m.rows * m.columns

variable {K : Type} [RingOps T] [CommRing K] [LawfulRing T K]

/-- The matrix holds valid representations of the entries `f`, in `r` rows and `c` columns. -/
def Denotes (m : Matrix T) (r c : Nat) (f : Nat → Nat → K) : Prop :=
  ∃ x : Nat → Nat → T, m.Is r c x ∧ ∀ i < r, ∀ j < c, Valid (x i j) ∧ val (x i j) = f i j

/-- The list holds valid representations of the `n` values `f`. -/
structure DenotesVector (v : List T) (n : Nat) (f : Nat → K) : Prop where
  length : v.length = n
  entry : ∀ i < n, ∃ x, v[i]? = some x ∧ Valid x ∧ val x = f i

def entry (m : Matrix T) (i j : Nat) : K := val (m.elements.getD (m.columns * i + j) zero)

variable {m m' : Matrix T} {v v' : List T} {r n c : Nat} {f f' g : Nat → Nat → K} {y y' : Nat → K}
  {checks : Bool}

/-! ### What a matrix denotes -/

theorem WellFormed.denotes (h : m.WellFormed) (hvalid : ∀ x ∈ m.elements, Valid x) :
    m.Denotes m.rows m.columns m.entry := by
  have his := Is.of_length h.length zero
  exact ⟨_, his, fun i hi j hj => ⟨hvalid _ (List.mem_of_getElem? (his.entry i hi j hj)), rfl⟩⟩

theorem Denotes.congr (h : m.Denotes r c f) (hff' : ∀ i < r, ∀ j < c, f i j = f' i j) :
    m.Denotes r c f' := by
  obtain ⟨x, his, hx⟩ := h
  exact ⟨x, his, fun i hi j hj => hff' i hi j hj ▸ hx i hi j hj⟩

/-- **A matrix is what it denotes.** -/
theorem Denotes.ext (h : m.Denotes r c f) (h' : m'.Denotes r c f) : m = m' := by
  obtain ⟨x, his, hx⟩ := h
  obtain ⟨x', his', hx'⟩ := h'
  refine his.ext (his'.congr fun i hi j hj => ?_)
  obtain ⟨hvalid, hval⟩ := hx i hi j hj
  obtain ⟨hvalid', hval'⟩ := hx' i hi j hj
  exact val_inj hvalid' hvalid (hval'.trans hval.symm)

theorem Denotes.rows (h : m.Denotes r c f) : m.rows = r := h.elim fun _ h => h.1.rows

theorem Denotes.columns (h : m.Denotes r c f) : m.columns = c := h.elim fun _ h => h.1.columns

theorem Denotes.wellFormed (h : m.Denotes r c f) (hr : 0 < r) (hc : 0 < c) : m.WellFormed := by
  obtain ⟨x, his, -⟩ := h
  exact ⟨his.rows ▸ hr, his.columns ▸ hc, by rw [his.length, his.rows, his.columns]⟩

theorem Denotes.get (h : m.Denotes r c f) {i j : Nat} (hi : i < r) (hj : j < c) :
    ∃ x, m.get i j = some x ∧ Valid x ∧ val x = f i j := by
  obtain ⟨x, his, hx⟩ := h
  exact ⟨x i j, his.get hi hj, hx i hi j hj⟩

theorem DenotesVector.ext (h : DenotesVector v n y) (h' : DenotesVector v' n y) : v = v' := by
  refine List.ext_getElem? fun i => ?_
  by_cases hi : i < n
  · obtain ⟨x, hx, hvalid, hval⟩ := h.entry i hi
    obtain ⟨x', hx', hvalid', hval'⟩ := h'.entry i hi
    rw [hx, hx', val_inj hvalid hvalid' (hval.trans hval'.symm)]
  · rw [List.getElem?_eq_none (by rw [h.length]; omega), List.getElem?_eq_none (by rw [h'.length]; omega)]

theorem DenotesVector.congr (h : DenotesVector v n y) (hyy' : ∀ i < n, y i = y' i) :
    DenotesVector v n y' :=
  ⟨h.length, fun i hi => hyy' i hi ▸ h.entry i hi⟩

theorem denotesVector_of_valid (hvalid : ∀ x ∈ v, Valid x) :
    DenotesVector v v.length fun i => val (v.getD i zero) := by
  refine ⟨rfl, fun i hi => ⟨v[i], List.getElem?_eq_getElem hi, hvalid _ (List.getElem_mem hi), ?_⟩⟩
  rw [List.getD_eq_getElem _ _ hi]

/-! ### What the operations denote -/

theorem Denotes.transpose (h : m.Denotes r c f) :
    ∃ m', m.transpose = some m' ∧ m'.Denotes c r fun i j => f j i := by
  obtain ⟨x, his, hx⟩ := h
  obtain ⟨m', hm', his'⟩ := his.transpose
  exact ⟨m', hm', _, his', fun i hi j hj => hx j hj i hi⟩

theorem Denotes.transpose_transpose (h : m.Denotes r c f) (hm' : m.transpose = some m') :
    m'.transpose = some m := by
  obtain ⟨m₁, hm₁, h₁⟩ := h.transpose
  obtain rfl := Option.some.inj (hm'.symm.trans hm₁)
  obtain ⟨m₂, hm₂, h₂⟩ := h₁.transpose
  rw [hm₂, h₂.ext h]

omit [LawfulRing T K] [CommRing K] [RingOps T] in
theorem allocate_eq {rows columns : Nat} (hrows : 0 < rows) (hcolumns : 0 < columns)
    (hsize : rows * columns < 2 ^ 64) :
    allocate checks rows columns = some (.ok (⟨[], columns, rows⟩ : Matrix T)) := by
  rw [allocate, if_neg (by omega), usizeMul_of_lt hsize]
  rfl

omit [LawfulRing T K] [CommRing K] in
theorem mulMatrix_of_incompatible (h : m.columns ≠ m'.rows) :
    m.mulMatrix checks m' = some (.error .notCompatible) := if_pos h

variable (checks) in
/-- **The product** has the sums of products for entries. -/
theorem Denotes.mulMatrix (h : m.Denotes r n f) (h' : m'.Denotes n c g) (hr : 0 < r) (hc : 0 < c)
    (hsize : r * c < 2 ^ 64) :
    ∃ p, m.mulMatrix checks m' = some (.ok p) ∧
      p.Denotes r c fun i j => ∑ k ∈ Finset.range n, f i k * g k j := by
  obtain ⟨x, his, hx⟩ := h
  obtain ⟨y, his', hy⟩ := h'
  have hentry : ∀ i j, ∃ total, i < r → j < c → m.productEntry m' i j = some total ∧
      Valid total ∧ val total = ∑ k ∈ Finset.range n, f i k * g k j := by
    intro i j
    by_cases hij : i < r ∧ j < c
    · obtain ⟨hi, hj⟩ := hij
      obtain ⟨total, htotal, hspec⟩ := foldlM_add_mul (a := fun k => m.elements[n * i + k]?)
        (b := fun k => m'.elements[c * k + j]?) n (fun k hk => ⟨_, his.entry i hi k hk, hx i hi k hk⟩)
        fun k hk => ⟨_, his'.entry k hk j hj, hy k hk j hj⟩
      exact ⟨total, fun _ _ => ⟨by rw [productEntry, his.columns, his'.columns]; exact htotal, hspec⟩⟩
    · exact ⟨zero, fun hi hj => absurd ⟨hi, hj⟩ hij⟩
  choose total htotal using hentry
  refine ⟨_, ?_, total, is_flatten r c total, fun i hi j hj => (htotal i j hi hj).2⟩
  rw [Matrix.mulMatrix, his.rows, his.columns, his'.rows, his'.columns, if_neg (not_not_intro rfl),
    allocate_eq hr hc hsize]
  simp only [Option.bind_eq_bind, Option.bind_some]
  rw [mapM_mapM_eq fun i hi j hj => (htotal i j hi hj).1]
  rfl

theorem Denotes.mulVector (h : m.Denotes r c f) (hv : DenotesVector v c y) :
    ∃ w, m.mulVector v = some (.ok w) ∧
      DenotesVector w r fun i => ∑ j ∈ Finset.range c, f i j * y j := by
  obtain ⟨x, his, hx⟩ := h
  have hvalid : ∀ a ∈ v, Valid a := by
    intro a ha
    obtain ⟨i, hi, rfl⟩ := List.mem_iff_getElem.mp ha
    obtain ⟨a, ha, hvalid, -⟩ := hv.entry i (hv.length ▸ hi)
    rw [List.getElem?_eq_getElem hi] at ha
    exact Option.some.inj ha ▸ hvalid
  obtain ⟨w, hw, hspec⟩ := his.mulVector (fun i hi j hj => (hx i hi j hj).1) hv.length hvalid
  refine ⟨_, hw, by rw [List.length_map, List.length_range], fun i hi => ⟨w i, ?_, (hspec i hi).1, ?_⟩⟩
  · rw [List.getElem?_map, List.getElem?_range hi]
    rfl
  · rw [(hspec i hi).2]
    refine Finset.sum_congr rfl fun j hj => ?_
    rw [Finset.mem_range] at hj
    obtain ⟨a, ha, -, hval⟩ := hv.entry j hj
    rw [(hx i hi j hj).2, List.getD_eq_getElem?_getD, ha, Option.getD_some, hval]

omit [LawfulRing T K] [CommRing K] [RingOps T] in
theorem mulVector_of_incompatible [RingOps T] (h : m.columns ≠ v.length) :
    m.mulVector v = some (.error .notCompatible) := if_pos h

theorem identity_denotes (h : Matrix.identity checks n = some (.ok m)) :
    m.Denotes n n fun i j => if i = j then (1 : K) else 0 := by
  obtain ⟨r, hr, h⟩ := Option.bind_eq_some_iff.mp h
  cases r with
  | error e => cases h
  | ok matrix =>
    obtain ⟨-, -, rfl⟩ := allocate_eq_ok hr
    obtain rfl := Except.ok.inj (Option.some.inj h)
    refine ⟨fun i j => if i = j then one else zero, is_flatten n n _, fun i _ j _ => ?_⟩
    by_cases hij : i = j
    · simp only [hij, if_true]
      exact ⟨valid_one, val_one⟩
    · simp only [hij, if_false]
      exact ⟨valid_zero, val_zero⟩

omit [LawfulRing T K] [CommRing K] in
theorem exists_identity (hn : n ≠ 0) (hsize : n * n < 2 ^ 64) :
    ∃ m : Matrix T, Matrix.identity checks n = some (.ok m) := by
  have hpos := Nat.pos_of_ne_zero hn
  refine ⟨⟨(List.range n).flatMap fun i => (List.range n).map fun j => if i = j then one else zero, n, n⟩, ?_⟩
  rw [Matrix.identity, allocate_eq hpos hpos hsize]
  rfl

/-! ### Vandermonde matrices that are returned -/

section
omit [LawfulRing T K] [CommRing K]

theorem fillRow_index_lt {i : Nat} {value : T} {js : List Nat} (h : fillRow i value m js = .ok m') {j : Nat}
    (hj : j ∈ js) : m.columns * i + j < m.elements.length := by
  induction js generalizing m with
  | nil => cases hj
  | cons j' js ih =>
    rw [fillRow] at h
    split at h
    · cases h
    split at h
    · cases h
    rename_i m₁ hset
    unfold set at hset
    split_ifs at hset with _ hlt
    obtain rfl := Except.ok.inj hset
    rcases List.mem_cons.mp hj with rfl | hj
    · exact hlt
    · have hrest := ih h hj
      rwa [List.length_set] at hrest

theorem fillRows_index_lt {c : Nat} {values : List (T × Nat)} (h : fillRows c m values = .ok m')
    {value : T} {i : Nat} (hi : (value, i) ∈ values) {j : Nat} (hj : j ∈ List.range' 1 (c - 1)) :
    m.columns * i + j < m.elements.length := by
  induction values generalizing m with
  | nil => cases hi
  | cons q values ih =>
    obtain ⟨value', i'⟩ := q
    rw [fillRows] at h
    split at h
    · cases h
    rename_i m₁ hrow
    rcases List.mem_cons.mp hi with heq | hi
    · obtain ⟨rfl, rfl⟩ := Prod.mk.inj heq
      exact fillRow_index_lt hrow hj
    · obtain ⟨-, hcolumns, hlength⟩ := fillRow_shape hrow
      have hrest := ih h hi
      rwa [hcolumns, hlength] at hrest

/-- Where the number of elements wraps, some row is not filled. -/
theorem length_mul_lt_of_vandermonde {values : List T} (hlen : values.length < 2 ^ 64)
    (h : vandermonde checks values c = some (.ok m)) :
    values.length ≠ 0 ∧ c ≠ 0 ∧ values.length * c < 2 ^ 64 := by
  obtain ⟨r, hr, h⟩ := Option.bind_eq_some_iff.mp h
  cases r with
  | error e => cases h
  | ok matrix =>
    unfold ones at hr
    split_ifs at hr with hdim
    · cases hr
    obtain ⟨len, hmul, hr⟩ := Option.bind_eq_some_iff.mp hr
    obtain rfl := Except.ok.inj (Option.some.inj hr)
    have hfill := Option.some.inj h
    refine ⟨by omega, by omega, ?_⟩
    by_contra hwrap
    have hlt : len < values.length * c := by
      unfold usizeMul at hmul
      split_ifs at hmul
      obtain rfl := Option.some.inj hmul
      exact (Nat.mod_lt _ (by norm_num)).trans_le (not_lt.mp hwrap)
    have hc : 2 ≤ c := by
      by_contra hc
      obtain rfl : c = 1 := by omega
      omega
    have hlast : (values[values.length - 1], values.length - 1) ∈ values.zipIdx :=
      List.mem_zipIdx_iff_getElem?.mpr (List.getElem?_eq_getElem _)
    have hindex := fillRows_index_lt hfill hlast
      (List.mem_range'_1.mpr (show 1 ≤ c - 1 ∧ c - 1 < 1 + (c - 1) by omega))
    simp only [List.length_replicate] at hindex
    have hrows : c * (values.length - 1) + (c - 1) + 1 = values.length * c := by
      obtain ⟨k, hk⟩ := Nat.exists_eq_add_of_le' (show 1 ≤ values.length by omega)
      rw [hk, Nat.add_sub_cancel, Nat.add_one_mul, Nat.mul_comm k c]
      omega
    omega

end

theorem vandermonde_denotes {values : List T} (hvalues : ∀ a ∈ values, Valid a)
    (hlen : values.length < 2 ^ 64) (h : vandermonde checks values c = some (.ok m)) :
    m.Denotes values.length c fun i j => val (values.getD i one) ^ j := by
  obtain ⟨hne, hc, hsize⟩ := length_mul_lt_of_vandermonde hlen h
  obtain ⟨m₁, hm₁, his⟩ := vandermonde_is checks (List.ne_nil_of_length_pos (Nat.pos_of_ne_zero hne)) hc hsize
  obtain rfl := Except.ok.inj (Option.some.inj (hm₁.symm.trans h))
  refine ⟨_, his, fun i hi j _ => powers_spec ?_ j⟩
  rw [List.getD_eq_getElem _ _ hi]
  exact hvalues _ (List.getElem_mem hi)

/-! ### The laws -/

/-- The matrix `p` is the product of `a` and `b`, whose transpose is that of the transposes the other way
round, and which is applied to a vector like `b` and then `a`. -/
structure IsProduct (checks : Bool) (a b p : Matrix T) : Prop where
  wellFormed : p.WellFormed
  rows : p.rows = a.rows
  columns : p.columns = b.columns
  get : ∀ i < a.rows, ∀ j < b.columns, ∃ x, p.get i j = some x ∧ Valid x ∧
    val x = ∑ k ∈ Finset.range a.columns, a.entry i k * b.entry k j
  transpose : ∃ aT bT pT, a.transpose = some aT ∧ b.transpose = some bT ∧ p.transpose = some pT ∧
    bT.mulMatrix checks aT = some (.ok pT)
  mulVector : ∀ v : List T, v.length = b.columns → (∀ x ∈ v, Valid x) → ∃ w u, b.mulVector v = some (.ok w) ∧
    a.mulVector w = some (.ok u) ∧ p.mulVector v = some (.ok u)

/-- The matrix `aT` is the transpose of `a`, whose transpose is `a`. -/
structure IsTranspose (a aT : Matrix T) : Prop where
  wellFormed : aT.WellFormed
  rows : aT.rows = a.columns
  columns : aT.columns = a.rows
  get : ∀ i < a.rows, ∀ j < a.columns, ∃ x, a.get i j = some x ∧ aT.get j i = some x
  transpose : aT.transpose = some a

structure IsVectorProduct (a : Matrix T) (v w : List T) : Prop where
  length : w.length = a.rows
  get : ∀ i < a.rows, ∃ x, w[i]? = some x ∧ Valid x ∧
    val x = ∑ j ∈ Finset.range a.columns, a.entry i j * val (v.getD j zero)

/-- The matrix holds the powers of the values below the `c`-th, a row for each. -/
structure IsVandermonde (values : List T) (c : Nat) (m : Matrix T) : Prop where
  wellFormed : m.WellFormed
  rows : m.rows = values.length
  columns : m.columns = c
  get : ∀ i < values.length, ∀ j < c, ∃ x, m.get i j = some x ∧ Valid x ∧
    val x = val (values.getD i one) ^ j

variable {a b : Matrix T}

theorem exists_isProduct (ha : a.WellFormed) (hb : b.WellFormed) (hvalid : ∀ x ∈ a.elements, Valid x)
    (hvalid' : ∀ x ∈ b.elements, Valid x) (hcompatible : a.columns = b.rows)
    (hsize : a.rows * b.columns < 2 ^ 64) :
    ∃ p, a.mulMatrix checks b = some (.ok p) ∧ IsProduct checks a b p := by
  have hdenA := ha.denotes hvalid
  have hdenB := hb.denotes hvalid'
  rw [← hcompatible] at hdenB
  obtain ⟨p, hp, hdenP⟩ := hdenA.mulMatrix checks hdenB ha.rows hb.columns hsize
  obtain ⟨aT, hat, hdenAt⟩ := hdenA.transpose
  obtain ⟨bT, hbt, hdenBt⟩ := hdenB.transpose
  obtain ⟨pT, hpt, hdenPt⟩ := hdenP.transpose
  obtain ⟨q, hq, hdenQ⟩ := hdenBt.mulMatrix checks hdenAt hb.columns ha.rows
    (by rwa [Nat.mul_comm])
  have hqpt : q = pT := hdenQ.ext (hdenPt.congr fun i _ j _ => Finset.sum_congr rfl fun k _ => mul_comm _ _)
  refine ⟨p, hp, hdenP.wellFormed ha.rows hb.columns, hdenP.rows, hdenP.columns, fun i hi j hj => hdenP.get hi hj,
    ⟨aT, bT, pT, hat, hbt, hpt, hqpt ▸ hq⟩, fun v hlen hv => ?_⟩
  have hdenV := denotesVector_of_valid hv
  rw [hlen] at hdenV
  obtain ⟨w, hw, hdenW⟩ := hdenB.mulVector hdenV
  obtain ⟨u, hu, hdenU⟩ := hdenA.mulVector hdenW
  obtain ⟨u', hu', hdenU'⟩ := hdenP.mulVector hdenV
  refine ⟨w, u, hw, hu, ?_⟩
  rw [hu', hdenU'.ext (hdenU.congr fun i _ => ?_)]
  -- the two double sums run over the entries in different orders
  simp only [Finset.mul_sum, Finset.sum_mul, mul_assoc]
  exact Finset.sum_comm

theorem exists_isTranspose (ha : a.WellFormed) (hvalid : ∀ x ∈ a.elements, Valid x) :
    ∃ aT, a.transpose = some aT ∧ IsTranspose a aT := by
  have his := Is.of_length ha.length zero
  obtain ⟨aT, hat, hist⟩ := his.transpose
  have hden := ha.denotes hvalid
  obtain ⟨aT', hat', hdenAt⟩ := hden.transpose
  obtain rfl := Option.some.inj (hat.symm.trans hat')
  exact ⟨aT, hat, hdenAt.wellFormed ha.columns ha.rows, hist.rows, hist.columns,
    fun i hi j hj => ⟨_, his.get hi hj, hist.get hj hi⟩, hden.transpose_transpose hat⟩

theorem exists_isVectorProduct (ha : a.WellFormed) (hvalid : ∀ x ∈ a.elements, Valid x)
    (hv : ∀ x ∈ v, Valid x) (hcompatible : a.columns = v.length) :
    ∃ w, a.mulVector v = some (.ok w) ∧ IsVectorProduct a v w := by
  obtain ⟨w, hw, hden⟩ := (ha.denotes hvalid).mulVector (hcompatible ▸ denotesVector_of_valid hv)
  exact ⟨w, hw, hden.length, hden.entry⟩

/-- **The identity is neutral** on the left. -/
theorem identity_mulMatrix (ha : a.WellFormed) (hvalid : ∀ x ∈ a.elements, Valid x)
    (hsize : a.elements.length < 2 ^ 64) (hm : Matrix.identity checks a.rows = some (.ok m)) :
    m.WellFormed ∧ m.mulMatrix checks a = some (.ok a) := by
  have hden := ha.denotes hvalid
  have hdenM := identity_denotes (K := K) hm
  obtain ⟨p, hp, hdenP⟩ := hdenM.mulMatrix checks hden ha.rows ha.columns
    (ha.length ▸ hsize)
  refine ⟨hdenM.wellFormed ha.rows ha.rows, ?_⟩
  rw [hp, hdenP.ext (hden.congr fun i hi j _ => ?_)]
  simp [hi]

theorem mulMatrix_identity (ha : a.WellFormed) (hvalid : ∀ x ∈ a.elements, Valid x)
    (hsize : a.elements.length < 2 ^ 64) (hm : Matrix.identity checks a.columns = some (.ok m)) :
    m.WellFormed ∧ a.mulMatrix checks m = some (.ok a) := by
  have hden := ha.denotes hvalid
  have hdenM := identity_denotes (K := K) hm
  obtain ⟨p, hp, hdenP⟩ := hden.mulMatrix checks hdenM ha.rows ha.columns
    (ha.length ▸ hsize)
  refine ⟨hdenM.wellFormed ha.columns ha.columns, ?_⟩
  rw [hp, hdenP.ext (hden.congr fun i _ j hj => ?_)]
  simp [hj]

theorem vandermonde_isVandermonde {values : List T} (hvalues : ∀ x ∈ values, Valid x)
    (hlen : values.length < 2 ^ 64) (h : vandermonde checks values c = some (.ok m)) :
    IsVandermonde values c m := by
  obtain ⟨hne, hc, -⟩ := length_mul_lt_of_vandermonde hlen h
  have hden := vandermonde_denotes hvalues hlen h
  exact ⟨hden.wellFormed (Nat.pos_of_ne_zero hne) (Nat.pos_of_ne_zero hc),
    hden.rows, hden.columns, fun i hi j hj => hden.get hi hj⟩

/-- **Matrices follow linear algebra**, in all shapes: the products that have no more elements than a
`usize` can count, the transposes, and the matrices that `identity` and `vandermonde` return. -/
theorem matrix_algebra (ha : a.WellFormed) (hb : b.WellFormed) (hvalid : ∀ x ∈ a.elements, Valid x)
    (hvalid' : ∀ x ∈ b.elements, Valid x) (hsize : a.elements.length < 2 ^ 64) (hv : ∀ x ∈ v, Valid x)
    {values : List T} (hvalues : ∀ x ∈ values, Valid x) (hlen : values.length < 2 ^ 64) :
    (a.mulMatrix checks b = some (.error .notCompatible) ↔ a.columns ≠ b.rows) ∧
    (a.columns = b.rows → a.rows * b.columns < 2 ^ 64 →
      ∃ p, a.mulMatrix checks b = some (.ok p) ∧ IsProduct checks a b p) ∧
    (a.mulVector v = some (.error .notCompatible) ↔ a.columns ≠ v.length) ∧
    (a.columns = v.length → ∃ w, a.mulVector v = some (.ok w) ∧ IsVectorProduct a v w) ∧
    (∃ aT, a.transpose = some aT ∧ IsTranspose a aT) ∧
    (∀ m, Matrix.identity checks a.rows = some (.ok m) →
      m.WellFormed ∧ m.mulMatrix checks a = some (.ok a)) ∧
    (∀ m, Matrix.identity checks a.columns = some (.ok m) →
      m.WellFormed ∧ a.mulMatrix checks m = some (.ok a)) ∧
    (n ≠ 0 → n * n < 2 ^ 64 → ∃ m : Matrix T, Matrix.identity checks n = some (.ok m)) ∧
    (∀ m, vandermonde checks values c = some (.ok m) → IsVandermonde values c m) ∧
    (values ≠ [] → c ≠ 0 → values.length * c < 2 ^ 64 →
      ∃ m, vandermonde checks values c = some (.ok m)) := by
  refine ⟨⟨fun h hcompatible => ?_, mulMatrix_of_incompatible⟩,
    exists_isProduct ha hb hvalid hvalid', ⟨fun h hcompatible => ?_, mulVector_of_incompatible⟩,
    exists_isVectorProduct ha hvalid hv, exists_isTranspose ha hvalid,
    fun m => identity_mulMatrix ha hvalid hsize, fun m => mulMatrix_identity ha hvalid hsize,
    exists_identity, fun m => vandermonde_isVandermonde hvalues hlen, fun hne hc hsize => ?_⟩
  · rw [mulMatrix, if_neg (not_not_intro hcompatible)] at h
    obtain ⟨r, hr, h⟩ := Option.bind_eq_some_iff.mp h
    cases r with
    | error e =>
      unfold allocate at hr
      split_ifs at hr with hdim
      · obtain rfl := Except.error.inj (Option.some.inj hr)
        cases h
      · obtain ⟨len, -, hr⟩ := Option.bind_eq_some_iff.mp hr
        cases hr
    | ok matrix =>
      obtain ⟨elements, -, h⟩ := Option.bind_eq_some_iff.mp h
      cases h
  · obtain ⟨w, hw, -⟩ := exists_isVectorProduct ha hvalid hv hcompatible
    cases hw.symm.trans h
  · obtain ⟨m, hm, -⟩ := vandermonde_is checks hne hc hsize
    exact ⟨m, hm⟩

/-- A column of `2 ^ 33` ones and a row of as many are compatible, but no `usize` counts the elements of
their product. -/
theorem product_overflows :
    (onesOf (2 ^ 33) 1).WellFormed ∧ (onesOf 1 (2 ^ 33)).WellFormed ∧
      (∀ x ∈ (onesOf (2 ^ 33) 1).elements, x.Canonical) ∧ (∀ x ∈ (onesOf 1 (2 ^ 33)).elements, x.Canonical) ∧
      (onesOf (2 ^ 33) 1).columns = (onesOf 1 (2 ^ 33)).rows ∧
      (onesOf (2 ^ 33) 1).mulMatrix true (onesOf 1 (2 ^ 33)) = none := by
  have hcompatible : (onesOf (2 ^ 33) 1).columns = (onesOf 1 (2 ^ 33)).rows := rfl
  have hallocate : allocate (T := Mersenne61) true (onesOf (2 ^ 33) 1).rows (onesOf 1 (2 ^ 33)).columns =
      none := by
    rw [show (onesOf (2 ^ 33) 1).rows = 2 ^ 33 from rfl, show (onesOf 1 (2 ^ 33)).columns = 2 ^ 33 from rfl]
    decide
  refine ⟨⟨Nat.two_pow_pos _, one_pos, List.length_replicate⟩, ⟨one_pos, Nat.two_pow_pos _, List.length_replicate⟩,
    canonical_onesOf _ _, canonical_onesOf _ _, hcompatible, ?_⟩
  rw [mulMatrix, if_neg (not_not_intro hcompatible), hallocate]
  rfl

theorem matrix_algebra_onesOf : ∃ p, (onesOf 1 2).mulMatrix true (onesOf 2 1) = some (.ok p) ∧
    IsProduct true (onesOf 1 2) (onesOf 2 1) p :=
  (matrix_algebra (n := 2) (c := 3) ⟨by decide, by decide, rfl⟩ ⟨by decide, by decide, rfl⟩
    (canonical_onesOf 1 2) (canonical_onesOf 2 1) (by decide) (canonical_onesOf 2 1) (canonical_onesOf 2 1)
    (by decide)).2.1 rfl (by decide)

end SclRs.Matrix
