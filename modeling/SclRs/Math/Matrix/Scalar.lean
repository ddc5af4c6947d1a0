import SclRs.Math.Field.Mersenne61
import SclRs.Math.Matrix

/-!
# Scalar multiplication of a matrix

`scalar_mut_in_place` and `scalar_mult` run over the elements. `Mul<&T>` runs over indexes, and takes both
of them from the rows: it panics on a matrix with more rows than columns, and on one with fewer it leaves
the columns behind the rows as they are (`Is.mulScalar`). So the three agree on the square matrices, and
on the wide ones whose last columns the scalar does not change (`Shape.scales_iff`).
-/

namespace SclRs.Matrix

open RingOps

variable {T : Type}

/-! ### Checked constructors -/

def fromVec (checks : Bool) (rows columns : Nat) (elements : List T) :
    Option (Except MatrixError (Matrix T)) := do
  if (← usizeMul checks rows columns) ≠ elements.length ∨ rows = 0 ∨ columns = 0 then
    return .error (.invalidDimension rows columns)
  else return .ok { elements, columns, rows }

def allocate (checks : Bool) (rows columns : Nat) : Option (Except MatrixError (Matrix T)) :=
  if rows = 0 ∨ columns = 0 then some (.error (.invalidDimension rows columns))
  else do
    let _capacity ← usizeMul checks rows columns
    return .ok { elements := [], rows, columns }

section
variable [RingOps T]

def identity (checks : Bool) (dim : Nat) : Option (Except MatrixError (Matrix T)) := do
  match ← allocate (T := T) checks dim dim with
  | .error e => return .error e
  | .ok matrix => return .ok { matrix with
      elements := (List.range dim).flatMap fun i => (List.range dim).map fun j =>
        if i = j then one else RingOps.zero }

protected def zero (checks : Bool) (rows columns : Nat) : Option (Except MatrixError (Matrix T)) :=
  if rows = 0 ∨ columns = 0 then some (.error (.invalidDimension rows columns))
  else do
    let len ← usizeMul checks rows columns
    return .ok { elements := List.replicate len RingOps.zero, rows, columns }

/-- `random`; `rng i` is the `i`-th random element. -/
def random (checks : Bool) (rows columns : Nat) (rng : Nat → T) :
    Option (Except MatrixError (Matrix T)) := do
  match ← allocate (T := T) checks rows columns with
  | .error e => return .error e
  | .ok matrix =>
    let len ← usizeMul checks rows columns
    return .ok { matrix with elements := (List.range len).map rng }

/-- What a checked constructor returns. -/
inductive Built (checks : Bool) : Matrix T → Prop
  | fromVec {rows columns : Nat} {elements : List T} {m : Matrix T} :
      fromVec checks rows columns elements = some (.ok m) → Built checks m
  | identity {dim : Nat} {m : Matrix T} : identity checks dim = some (.ok m) → Built checks m
  | zero {rows columns : Nat} {m : Matrix T} :
      Matrix.zero checks rows columns = some (.ok m) → Built checks m
  | ones {rows columns : Nat} {m : Matrix T} : ones checks rows columns = some (.ok m) → Built checks m
  | random {rows columns : Nat} {rng : Nat → T} {m : Matrix T} :
      random checks rows columns rng = some (.ok m) → Built checks m
  | vandermonde {values : List T} {c : Nat} {m : Matrix T} :
      vandermonde checks values c = some (.ok m) → Built checks m

/-! ### The three paths -/

def scalarMutInPlace (m : Matrix T) (scalar : T) : Matrix T :=
  { m with elements := m.elements.map fun elem => mul elem scalar }

def scalarMult (m : Matrix T) (scalar : T) : Matrix T :=
  { elements := m.elements.map fun elem => mul elem scalar, rows := m.rows, columns := m.columns }

/-- `get_mut`: the place of the entry. -/
def getMut (m : Matrix T) (i j : Nat) : Option Nat :=
  if i ≥ m.rows ∨ j ≥ m.columns then none
  else if m.columns * i + j < m.elements.length then some (m.columns * i + j) else none

/-- One turn of the loops of `Mul<&T>`. -/
def mulEntry (rhs : T) (i : Nat) (m : Matrix T) (j : Nat) : Option (Matrix T) := do
  let product := mul (← m.get i j) rhs
  return { m with elements := m.elements.set (← m.getMut i j) product }

/-- `Mul<&T>`: both indexes run over the rows. -/
def mulScalar (m : Matrix T) (rhs : T) : Option (Matrix T) :=
  (List.range m.rows).foldlM (fun m' i => (List.range m.rows).foldlM (mulEntry rhs i) m') m

/-! ### The shape of what is built -/

/-- The dimensions are positive, and the elements as many as a `usize` can count. -/
structure Shape (m : Matrix T) : Prop where
  rows : 0 < m.rows
  columns : 0 < m.columns
  length_le : m.elements.length ≤ m.rows * m.columns
  length : m.rows * m.columns < 2 ^ 64 → m.elements.length = m.rows * m.columns

omit [RingOps T] in
theorem Shape.of_usizeMul {checks : Bool} {m : Matrix T} (hdim : ¬ (m.rows = 0 ∨ m.columns = 0))
    (h : usizeMul checks m.rows m.columns = some m.elements.length) : m.Shape := by
  refine ⟨by omega, by omega, ?_, fun hlt => ?_⟩
  · unfold usizeMul at h
    split_ifs at h
    · exact (Option.some.inj h).ge
    · rw [← Option.some.inj h]
      exact Nat.mod_le _ _
  · rw [usizeMul_of_lt hlt] at h
    exact (Option.some.inj h).symm

theorem fillRow_shape {i : Nat} {value : T} {js : List Nat} {m m' : Matrix T}
    (h : fillRow i value m js = .ok m') :
    m'.rows = m.rows ∧ m'.columns = m.columns ∧ m'.elements.length = m.elements.length := by
  induction js generalizing m with
  | nil =>
    obtain rfl := Except.ok.inj h
    exact ⟨rfl, rfl, rfl⟩
  | cons j js ih =>
    rw [fillRow] at h
    split at h
    · cases h
    · split at h
      · cases h
      · rename_i m₁ hset
        obtain ⟨hrows, hcolumns, hlength⟩ := ih h
        unfold set at hset
        split_ifs at hset
        obtain rfl := Except.ok.inj hset
        exact ⟨hrows, hcolumns, hlength.trans List.length_set⟩

theorem fillRows_shape {c : Nat} {values : List (T × Nat)} {m m' : Matrix T}
    (h : fillRows c m values = .ok m') :
    m'.rows = m.rows ∧ m'.columns = m.columns ∧ m'.elements.length = m.elements.length := by
  induction values generalizing m with
  | nil =>
    obtain rfl := Except.ok.inj h
    exact ⟨rfl, rfl, rfl⟩
  | cons q values ih =>
    obtain ⟨value, i⟩ := q
    rw [fillRows] at h
    split at h
    · cases h
    · rename_i m₁ hrow
      obtain ⟨hrows, hcolumns, hlength⟩ := ih h
      obtain ⟨hrows₁, hcolumns₁, hlength₁⟩ := fillRow_shape hrow
      exact ⟨hrows.trans hrows₁, hcolumns.trans hcolumns₁, hlength.trans hlength₁⟩

omit [RingOps T] in
theorem replicate_shape {checks : Bool} {rows columns : Nat} {x : T} {m : Matrix T}
    (h : (if rows = 0 ∨ columns = 0 then some (.error (.invalidDimension rows columns))
      else do
        let len ← usizeMul checks rows columns
        return .ok { elements := List.replicate len x, rows, columns } :
        Option (Except MatrixError (Matrix T))) = some (.ok m)) : m.Shape := by
  split_ifs at h with hdim
  · cases h
  obtain ⟨len, hlen, h⟩ := Option.bind_eq_some_iff.mp h
  obtain rfl := Except.ok.inj (Option.some.inj h)
  exact .of_usizeMul hdim (by rw [List.length_replicate]; exact hlen)

theorem ones_shape {checks : Bool} {rows columns : Nat} {m : Matrix T}
    (h : ones checks rows columns = some (.ok m)) : m.Shape := replicate_shape h

omit [RingOps T] in
theorem allocate_eq_ok {checks : Bool} {rows columns : Nat} {m : Matrix T}
    (h : allocate checks rows columns = some (.ok m)) :
    ¬ (rows = 0 ∨ columns = 0) ∧ (∃ len, usizeMul checks rows columns = some len) ∧ m = ⟨[], columns, rows⟩ := by
  unfold allocate at h
  split_ifs at h with hdim
  · cases h
  obtain ⟨len, hlen, h⟩ := Option.bind_eq_some_iff.mp h
  exact ⟨hdim, ⟨len, hlen⟩, (Except.ok.inj (Option.some.inj h)).symm⟩

theorem identity_shape {checks : Bool} {dim : Nat} {m : Matrix T}
    (h : Matrix.identity checks dim = some (.ok m)) : m.Shape := by
  obtain ⟨r, hr, h⟩ := Option.bind_eq_some_iff.mp h
  cases r with
  | error e => cases h
  | ok matrix =>
    obtain ⟨hdim, -, rfl⟩ := allocate_eq_ok hr
    obtain rfl := Except.ok.inj (Option.some.inj h)
    have hpos : 0 < dim := by omega
    have hlength : ((List.range dim).flatMap fun i => (List.range dim).map fun j =>
        if i = j then (one : T) else RingOps.zero).length = dim * dim := by
      rw [List.length_flatMap]
      simp
    exact ⟨hpos, hpos, hlength.le, fun _ => hlength⟩

/-- **A checked constructor** builds the shape that it is asked for. -/
theorem Built.shape {checks : Bool} {m : Matrix T} (h : Built checks m) : m.Shape := by
  cases h with
  | fromVec h =>
    obtain ⟨len, hlen, h⟩ := Option.bind_eq_some_iff.mp h
    split_ifs at h with hdim
    · cases h
    · rw [not_or, not_not] at hdim
      obtain rfl := Except.ok.inj (Option.some.inj h)
      exact .of_usizeMul hdim.2 (hdim.1 ▸ hlen)
  | identity h => exact identity_shape h
  | zero h => exact replicate_shape h
  | ones h => exact ones_shape h
  | random h =>
    obtain ⟨r, hr, h⟩ := Option.bind_eq_some_iff.mp h
    cases r with
    | error e => cases h
    | ok matrix =>
      obtain ⟨hdim, -, rfl⟩ := allocate_eq_ok hr
      obtain ⟨len, hlen, h⟩ := Option.bind_eq_some_iff.mp h
      obtain rfl := Except.ok.inj (Option.some.inj h)
      exact .of_usizeMul hdim (by rw [List.length_map, List.length_range]; exact hlen)
  | vandermonde h =>
    obtain ⟨r, hr, h⟩ := Option.bind_eq_some_iff.mp h
    cases r with
    | error e => cases h
    | ok matrix =>
      obtain ⟨hrows, hcolumns, hlength⟩ := fillRows_shape (Option.some.inj h)
      have hshape := ones_shape hr
      refine ⟨hrows ▸ hshape.rows, hcolumns ▸ hshape.columns, ?_, ?_⟩
      · rw [hrows, hcolumns, hlength]
        exact hshape.length_le
      · rw [hrows, hcolumns, hlength]
        exact hshape.length

/-! ### The loops of `Mul<&T>` -/

variable {m m' : Matrix T} {r c : Nat} {f : Nat → Nat → T}

omit [RingOps T] in
theorem Is.of_length (hlength : m.elements.length = m.rows * m.columns) (default : T) :
    m.Is m.rows m.columns fun i j => m.elements.getD (m.columns * i + j) default := by
  refine ⟨rfl, rfl, hlength, fun i hi j hj => ?_⟩
  have hlt := hlength ▸ index_lt hi hj
  rw [List.getElem?_eq_getElem hlt, List.getD_eq_getElem _ _ hlt]

omit [RingOps T] in
theorem Is.ext (h : m.Is r c f) (h' : m'.Is r c f) : m = m' := by
  have helements : m.elements = m'.elements := by
    refine List.ext_getElem? fun n => ?_
    by_cases hn : n < r * c
    · have hc : 0 < c := Nat.pos_of_ne_zero fun hc => by simp [hc] at hn
      have hi : n / c < r := Nat.div_lt_of_lt_mul (by rwa [Nat.mul_comm] at hn)
      have hj := Nat.mod_lt n hc
      rw [← Nat.div_add_mod n c, h.entry _ hi _ hj, h'.entry _ hi _ hj]
    · rw [List.getElem?_eq_none (by rw [h.length]; omega),
        List.getElem?_eq_none (by rw [h'.length]; omega)]
  obtain ⟨elements, columns, rows⟩ := m
  obtain ⟨elements', columns', rows'⟩ := m'
  obtain rfl : columns = columns' := h.columns.trans h'.columns.symm
  obtain rfl : rows = rows' := h.rows.trans h'.rows.symm
  exact congrArg (fun e => (⟨e, columns, rows⟩ : Matrix T)) helements

theorem Is.scalarMult (h : m.Is r c f) (k : T) :
    (m.scalarMult k).Is r c fun i j => mul (f i j) k := by
  refine ⟨h.rows, h.columns, (List.length_map _).trans h.length, fun i hi j hj => ?_⟩
  rw [Matrix.scalarMult, List.getElem?_map, h.entry i hi j hj]
  rfl

theorem Is.mulEntry (h : m.Is r c f) {i j : Nat} (hi : i < r) (hj : j < c) (k : T) :
    ∃ m', mulEntry k i m j = some m' ∧
      m'.Is r c fun i' j' => if i' = i ∧ j' = j then mul (f i j) k else f i' j' := by
  obtain ⟨m', hset, h'⟩ := h.set hi hj (mul (f i j) k)
  have hinside : ¬ (i ≥ m.rows ∨ j ≥ m.columns) := by
    rw [h.rows, h.columns]
    omega
  have hlt : m.columns * i + j < m.elements.length := by
    rw [h.length, h.columns]
    exact index_lt hi hj
  have hplace : m.getMut i j = some (m.columns * i + j) := by
    rw [getMut, if_neg hinside, if_pos hlt]
  rw [Matrix.set, if_neg hinside, if_pos hlt] at hset
  refine ⟨m', ?_, h'⟩
  rw [Matrix.mulEntry, h.get hi hj, hplace]
  exact congrArg some (Except.ok.inj hset)

theorem Is.mulRow (h : m.Is r c f) {i n : Nat} (hi : i < r) (hn : n ≤ c) (k : T) :
    ∃ m', (List.range n).foldlM (Matrix.mulEntry k i) m = some m' ∧
      m'.Is r c fun i' j' => if i' = i ∧ j' < n then mul (f i' j') k else f i' j' := by
  obtain ⟨m', hm', h'⟩ := @foldlM_range' _ (Matrix.mulEntry k i) (fun n m => m.Is r c fun i' j' =>
      if i' = i ∧ j' < n then mul (f i' j') k else f i' j') n 0 m
    (h.congr fun _ _ _ _ => (if_neg fun h => Nat.not_lt_zero _ h.2).symm) fun j _ hj m hm => by
      obtain ⟨m', hm', h'⟩ := hm.mulEntry hi (show j < c by omega) k
      refine ⟨m', hm', h'.congr fun i' _ j' _ => ?_⟩
      by_cases hhere : i' = i ∧ j' = j
      · obtain ⟨rfl, rfl⟩ := hhere
        rw [if_pos ⟨rfl, rfl⟩, if_neg fun h => Nat.lt_irrefl _ h.2, if_pos ⟨rfl, Nat.lt_succ_self _⟩]
      · have hiff : i' = i ∧ j' < j + 1 ↔ i' = i ∧ j' < j := by omega
        rw [if_neg hhere, if_congr hiff rfl rfl]
  rw [Nat.zero_add] at h'
  exact ⟨m', by rw [List.range_eq_range']; exact hm', h'⟩

/-- The outer loop multiplies the first `r` columns, as far as there are so many. -/
theorem Is.mulScalar (h : m.Is r c f) (hrc : r ≤ c) (k : T) :
    ∃ m', m.mulScalar k = some m' ∧ m'.Is r c fun i j => if j < r then mul (f i j) k else f i j := by
  obtain ⟨m', hm', h'⟩ := @foldlM_range' _
    (fun m' i => (List.range m.rows).foldlM (Matrix.mulEntry k i) m')
    (fun n m => m.Is r c fun i' j' => if i' < n ∧ j' < r then mul (f i' j') k else f i' j') r 0 m
    (h.congr fun _ _ _ _ => (if_neg fun h => Nat.not_lt_zero _ h.1).symm) fun i _ hi m₁ hm₁ => by
      rw [Nat.zero_add] at hi
      obtain ⟨m', hm', h'⟩ := hm₁.mulRow hi hrc k
      refine ⟨m', by rw [h.rows]; exact hm', h'.congr fun i' _ j' _ => ?_⟩
      by_cases hhere : i' = i ∧ j' < r
      · obtain ⟨rfl, hj'⟩ := hhere
        rw [if_pos ⟨rfl, hj'⟩, if_neg fun h => Nat.lt_irrefl _ h.1, if_pos ⟨Nat.lt_succ_self _, hj'⟩]
      · have hiff : i' < i + 1 ∧ j' < r ↔ i' < i ∧ j' < r := by omega
        rw [if_neg hhere, if_congr hiff rfl rfl]
  refine ⟨m', ?_, h'.congr fun i hi j _ => ?_⟩
  · rw [Matrix.mulScalar, List.range_eq_range', h.rows]
    rw [List.range_eq_range', h.rows] at hm'
    exact hm'
  · rw [Nat.zero_add]
    exact if_congr (and_iff_right hi) rfl rfl

/-- On a matrix with more rows than columns the first row is left. -/
theorem mulScalar_eq_none (hcolumns : m.columns < m.rows) (k : T) : m.mulScalar k = none := by
  have hfirst : ∀ step : Matrix T → Nat → Option (Matrix T), step m 0 = none →
      (List.range m.rows).foldlM step m = none := by
    intro step h
    obtain ⟨n, hn⟩ := Nat.exists_eq_add_of_lt (Nat.zero_lt_of_lt hcolumns)
    rw [hn, Nat.zero_add, List.range_succ_eq_map, List.foldlM_cons, h]
    rfl
  have hpreserve : ∀ (m₁ : Matrix T) j m₂, m₁.columns = m.columns → Matrix.mulEntry k 0 m₁ j = some m₂ →
      m₂.columns = m.columns := by
    intro m₁ j m₂ hm₁ h
    obtain ⟨x, -, h⟩ := Option.bind_eq_some_iff.mp h
    obtain ⟨place, -, h⟩ := Option.bind_eq_some_iff.mp h
    exact Option.some.inj h ▸ hm₁
  have hpanic : ∀ m₁ : Matrix T, m₁.columns = m.columns →
      Matrix.mulEntry k 0 m₁ m.columns = none := by
    intro m₁ hm₁
    rw [Matrix.mulEntry, get, if_pos (.inr hm₁.le)]
    rfl
  exact hfirst _ (foldlM_eq_none hpreserve hpanic rfl (List.mem_range.mpr hcolumns))

/-! ### Agreement -/

variable {K : Type} [CommRing K] [LawfulRing T K]

open LawfulRing

/-- `m * &k` has `k` times the entries of `m`, and is what the other two paths give. -/
def Scales (m : Matrix T) (k : T) : Prop :=
  ∃ result, m.mulScalar k = some result ∧ result.rows = m.rows ∧ result.columns = m.columns ∧
    (∀ i < m.rows, ∀ j < m.columns, ∃ x, m.get i j = some x ∧ result.get i j = some (mul k x)) ∧
    result = m.scalarMult k ∧ result = m.scalarMutInPlace k

theorem mul_comm_of_valid {a b : T} (ha : Valid a) (hb : Valid b) : mul a b = mul b a :=
  val_inj (valid_mul ha hb) (valid_mul hb ha) (by rw [val_mul ha hb, val_mul hb ha, mul_comm])

/-- Entries are missing where the product of the dimensions overflowed. -/
theorem not_scales_of_length (hcolumns : 0 < m.columns)
    (hlength : m.elements.length < m.rows * m.columns) (k : T) : ¬ m.Scales k := by
  rintro ⟨result, -, -, -, hentries, -⟩
  have hi : m.elements.length / m.columns < m.rows :=
    Nat.div_lt_of_lt_mul (by rwa [Nat.mul_comm] at hlength)
  have hj := Nat.mod_lt m.elements.length hcolumns
  obtain ⟨x, hx, -⟩ := hentries _ hi _ hj
  rw [get, if_neg (by omega), Nat.div_add_mod, List.getElem?_eq_none le_rfl] at hx
  cases hx

theorem Shape.scales_iff (hshape : m.Shape) (hvalid : ∀ x ∈ m.elements, Valid x) {k : T} (hk : Valid k) :
    m.Scales k ↔ m.elements.length = m.rows * m.columns ∧ m.rows ≤ m.columns ∧
      ∀ i < m.rows, ∀ j, m.rows ≤ j → j < m.columns → ∀ x, m.get i j = some x → mul k x = x := by
  rcases hshape.length_le.lt_or_eq with hshort | hlength
  · refine iff_of_false (not_scales_of_length hshape.columns hshort k) fun h => ?_
    exact absurd h.1 hshort.ne
  rw [and_iff_right hlength]
  by_cases hrc : m.rows ≤ m.columns
  · rw [and_iff_right hrc]
    have hm := Is.of_length hlength k
    generalize (fun i j => m.elements.getD (m.columns * i + j) k) = f at hm
    have hcomm : ∀ i < m.rows, ∀ j < m.columns, mul (f i j) k = mul k (f i j) := by
      intro i hi j hj
      exact mul_comm_of_valid (hvalid _ (List.mem_of_getElem? (hm.entry i hi j hj))) hk
    obtain ⟨result, hresult, his⟩ := hm.mulScalar hrc k
    constructor
    · rintro ⟨result', hresult', -, -, hentries, -⟩ i hi j hj hj' x hx
      obtain rfl := Option.some.inj (hresult.symm.trans hresult')
      obtain ⟨y, hy, hproduct⟩ := hentries i hi j hj'
      obtain rfl := Option.some.inj (hy.symm.trans hx)
      rw [his.get hi hj', if_neg (by omega)] at hproduct
      rw [hm.get hi hj'] at hx
      exact (Option.some.inj hproduct).symm.trans (Option.some.inj hx)
    · intro hfixed
      have hsame : result = m.scalarMult k := by
        refine his.ext ((hm.scalarMult k).congr fun i hi j hj => ?_)
        split_ifs with hlt
        · rfl
        · rw [hcomm i hi j hj]
          exact hfixed i hi j (by omega) hj _ (hm.get hi hj)
      refine ⟨result, hresult, his.rows, his.columns, fun i hi j hj => ⟨f i j, hm.get hi hj, ?_⟩, hsame, hsame⟩
      rw [hsame, (hm.scalarMult k).get hi hj, hcomm i hi j hj]
  · refine iff_of_false ?_ fun h => hrc h.1
    rintro ⟨result, hresult, -⟩
    rw [mulScalar_eq_none (by omega) k] at hresult
    cases hresult

/-- **Where the three paths agree.** The elements are as many as the dimensions say, no row lies beyond the
columns, and the scalar leaves the entries beyond the square alone. -/
theorem scalar_paths_agree_iff {checks : Bool} (hbuilt : Built checks m)
    (hvalid : ∀ x ∈ m.elements, Valid x) {k : T} (hk : Valid k) :
    (m.Scales k ↔ m.elements.length = m.rows * m.columns ∧ m.rows ≤ m.columns ∧
      ∀ i < m.rows, ∀ j, m.rows ≤ j → j < m.columns → ∀ x, m.get i j = some x → mul k x = x) ∧
    (m.rows * m.columns < 2 ^ 64 → m.elements.length = m.rows * m.columns) :=
  ⟨hbuilt.shape.scales_iff hvalid hk, hbuilt.shape.length⟩

end

/-! ### Wide, tall and square -/

def onesOf (rows columns : Nat) : Matrix Mersenne61 :=
  ⟨List.replicate (rows * columns) ⟨1⟩, columns, rows⟩

theorem built_onesOf {rows columns : Nat} (hrows : rows ≠ 0) (hcolumns : columns ≠ 0)
    (hsize : rows * columns < 2 ^ 64) : Built true (onesOf rows columns) := by
  refine @Built.ones _ _ true rows columns _ ?_
  rw [ones, if_neg (by omega), usizeMul_of_lt hsize]
  rfl

theorem canonical_onesOf (rows columns : Nat) : ∀ x ∈ (onesOf rows columns).elements, x.Canonical := by
  intro x hx
  obtain rfl := List.eq_of_mem_replicate hx
  decide

/-- Twice a row of two ones has one of them left, and twice a column of two panics. -/
theorem scalar_paths_differ :
    (Built true (onesOf 1 2) ∧ ((onesOf 1 2).mulScalar ⟨2⟩).map elements = some [⟨2⟩, ⟨1⟩] ∧
      ((onesOf 1 2).scalarMult ⟨2⟩).elements = [⟨2⟩, ⟨2⟩] ∧ ¬ (onesOf 1 2).Scales ⟨2⟩) ∧
    Built true (onesOf 2 1) ∧ (onesOf 2 1).mulScalar ⟨2⟩ = none ∧ ¬ (onesOf 2 1).Scales ⟨2⟩ := by
  have hk : (⟨2⟩ : Mersenne61).Canonical := by decide
  have hwide := @built_onesOf 1 2 (by decide) (by decide) (by decide)
  have htall := @built_onesOf 2 1 (by decide) (by decide) (by decide)
  refine ⟨⟨hwide, by decide +kernel, by decide +kernel, ?_⟩, htall, mulScalar_eq_none (by decide) _, ?_⟩
  · rw [hwide.shape.scales_iff (canonical_onesOf 1 2) hk]
    rintro ⟨-, -, hfixed⟩
    exact absurd (hfixed 0 (by decide) 1 le_rfl (by decide) ⟨1⟩ rfl) (by decide +kernel)
  · rw [htall.shape.scales_iff (canonical_onesOf 2 1) hk]
    rintro ⟨-, hwide, -⟩
    exact absurd hwide (by decide)

theorem scalar_paths_agree_iff_square :
    ((onesOf 2 2).Scales ⟨2⟩ ↔ (onesOf 2 2).elements.length = 2 * 2 ∧ 2 ≤ 2 ∧
      ∀ i < 2, ∀ j, 2 ≤ j → j < 2 → ∀ x, (onesOf 2 2).get i j = some x → mul ⟨2⟩ x = x) ∧
    (2 * 2 < 2 ^ 64 → (onesOf 2 2).elements.length = 2 * 2) := by
  have hk : (⟨2⟩ : Mersenne61).Canonical := by decide
  have hbuilt := @built_onesOf 2 2 (by decide) (by decide) (by decide)
  exact scalar_paths_agree_iff hbuilt (canonical_onesOf 2 2) hk

end SclRs.Matrix
