import SclRs.Ss.Share

/-!
# Matrices and vectors of shares

`Matrix` of `math/matrix.rs`, stored row by row, and what `math/vector.rs` does with shares; a `Vector` is
the list of its elements. `Is rows columns f` says that a matrix has the entries `f`: `set` changes one
of them, so that the loops of `vandermonde` fill a matrix with powers (`vandermonde_is`).
-/

namespace SclRs

open RingOps

/-- `Error` of `math/matrix.rs`. -/
inductive MatrixError
  | notCompatible
  | invalidDimension (rows columns : Nat)
  | indexOutOfBounds (i j : Nat)
deriving DecidableEq

/-- `Error` of `math/vector.rs`. -/
inductive VectorError
  | incompatibleDimension (left right : Nat)
deriving DecidableEq

structure Matrix (T : Type) where
  elements : List T
  columns : Nat
  rows : Nat

namespace Matrix

variable {T : Type}

def get (m : Matrix T) (i j : Nat) : Option T :=
  if i ≥ m.rows ∨ j ≥ m.columns then none else m.elements[m.columns * i + j]?

def set (m : Matrix T) (i j : Nat) (value : T) : Except MatrixError (Matrix T) :=
  if i ≥ m.rows ∨ j ≥ m.columns then .error (.indexOutOfBounds i j)
  else if m.columns * i + j < m.elements.length then
    .ok { m with elements := m.elements.set (m.columns * i + j) value }
  else .error (.indexOutOfBounds i j)

/-- `transpose`, which indexes the elements. -/
def transpose (m : Matrix T) : Option (Matrix T) := do
  let elements ← (List.range m.columns).mapM fun j =>
    (List.range m.rows).mapM fun i => m.elements[m.columns * i + j]?
  return { elements := elements.flatten, rows := m.columns, columns := m.rows }

section
variable [RingOps T]

def ones (checks : Bool) (rows columns : Nat) : Option (Except MatrixError (Matrix T)) :=
  if rows = 0 ∨ columns = 0 then some (.error (.invalidDimension rows columns))
  else do
    let len ← usizeMul checks rows columns
    return .ok { elements := List.replicate len one, rows, columns }

/-- The inner loop of `vandermonde`, over the columns `js`. -/
def fillRow (i : Nat) (value : T) (m : Matrix T) : (js : List Nat) → Except MatrixError (Matrix T)
  | [] => .ok m
  | j :: js =>
    match m.get i (j - 1) with
    | none => .error (.indexOutOfBounds i (j - 1))
    | some previous =>
      match m.set i j (mul previous value) with
      | .error e => .error e
      | .ok m => fillRow i value m js

/-- The outer loop of `vandermonde`. -/
def fillRows (c : Nat) (m : Matrix T) : (values : List (T × Nat)) → Except MatrixError (Matrix T)
  | [] => .ok m
  | (value, i) :: values =>
    match fillRow i value m (List.range' 1 (c - 1)) with
    | .error e => .error e
    | .ok m => fillRows c m values

def vandermonde (checks : Bool) (values : List T) (c : Nat) :
    Option (Except MatrixError (Matrix T)) := do
  match ← ones checks values.length c with
  | .error e => return .error e
  | .ok m => return fillRows c m values.zipIdx

/-- The loop of `Mul<&Vector>` for row `i`. -/
def mulVectorRow (m : Matrix T) (rhs : List T) (i : Nat) : Option T :=
  (List.range m.columns).foldlM (fun sum j => do
    return add sum (mul (← m.elements[m.columns * i + j]?) (← rhs[j]?))) zero

/-- `Mul<&Vector>`. -/
def mulVector (m : Matrix T) (rhs : List T) : Option (Except MatrixError (List T)) :=
  if m.columns ≠ rhs.length then some (.error .notCompatible)
  else do return .ok (← (List.range m.rows).mapM (m.mulVectorRow rhs))

end

section
variable {S Threshold : Type} [LinearShare S T Threshold] (checks : Bool) (m : Matrix T) (shares : List S)

/-- The loop of `mul_shares` for row `i`, from the first term on. -/
def mulSharesRow (i : Nat) : Option S := do
  let sum := LinearShare.mulConst (← shares[0]?) (← m.elements[m.columns * i]?)
  (List.range' 1 (m.columns - 1)).foldlM (fun sum j => do
    LinearShare.add checks sum
      (LinearShare.mulConst (← shares[j]?) (← m.elements[m.columns * i + j]?))) sum

def mulShares : Option (Except MatrixError (List S)) :=
  if m.columns ≠ shares.length then some (.error .notCompatible)
  else do return .ok (← (List.range m.rows).mapM (mulSharesRow checks m shares))

end

theorem foldlM_range' {β : Type} {step : β → Nat → Option β} {I : Nat → β → Prop} (n : Nat) {s : Nat}
    {b : β} (h : I s b)
    (hstep : ∀ j, s ≤ j → j < s + n → ∀ b, I j b → ∃ b', step b j = some b' ∧ I (j + 1) b') :
    ∃ b', (List.range' s n).foldlM step b = some b' ∧ I (s + n) b' := by
  induction n generalizing s b with
  | zero => exact ⟨b, rfl, h⟩
  | succ n ih =>
    obtain ⟨b₁, hb₁, h₁⟩ := hstep s le_rfl (by omega) b h
    obtain ⟨b', hb', h'⟩ := ih h₁ fun j hj hlt => hstep j (by omega) (by omega)
    refine ⟨b', ?_, by rwa [show s + (n + 1) = s + 1 + n by omega]⟩
    rw [List.range'_succ, List.foldlM_cons, hb₁]
    exact hb'

/-! ### Entries -/

/-- The matrix has the entries `f`. -/
structure Is (m : Matrix T) (r c : Nat) (f : Nat → Nat → T) : Prop where
  rows : m.rows = r
  columns : m.columns = c
  length : m.elements.length = r * c
  entry : ∀ i < r, ∀ j < c, m.elements[c * i + j]? = some (f i j)

variable {m : Matrix T} {r c : Nat} {f g : Nat → Nat → T}

theorem index_lt {i j : Nat} (hi : i < r) (hj : j < c) : c * i + j < r * c := by
  calc c * i + j < c * i + c := by omega
    _ = c * (i + 1) := by ring
    _ ≤ c * r := Nat.mul_le_mul_left c hi
    _ = r * c := Nat.mul_comm c r

theorem index_inj {i j i' j' : Nat} (hj : j < c) (hj' : j' < c) (h : c * i + j = c * i' + j') :
    i = i' ∧ j = j' := by
  have hc : 0 < c := by omega
  have hdiv := congrArg (· / c) h
  have hmod := congrArg (· % c) h
  simp only [Nat.mul_add_div hc, Nat.div_eq_of_lt hj, Nat.div_eq_of_lt hj', add_zero,
    Nat.mul_add_mod, Nat.mod_eq_of_lt hj, Nat.mod_eq_of_lt hj'] at hdiv hmod
  exact ⟨hdiv, hmod⟩

theorem Is.congr (h : m.Is r c f) (hfg : ∀ i < r, ∀ j < c, f i j = g i j) : m.Is r c g :=
  ⟨h.rows, h.columns, h.length, fun i hi j hj => hfg i hi j hj ▸ h.entry i hi j hj⟩

theorem Is.get (h : m.Is r c f) {i j : Nat} (hi : i < r) (hj : j < c) : m.get i j = some (f i j) := by
  rw [Matrix.get, h.rows, h.columns, if_neg (by omega), h.entry i hi j hj]

theorem Is.set (h : m.Is r c f) {i j : Nat} (hi : i < r) (hj : j < c) (value : T) :
    ∃ m', m.set i j value = .ok m' ∧
      m'.Is r c fun i' j' => if i' = i ∧ j' = j then value else f i' j' := by
  have hlt : c * i + j < m.elements.length := by
    rw [h.length]
    exact index_lt hi hj
  refine ⟨{ m with elements := m.elements.set (c * i + j) value }, ?_, h.rows, h.columns, ?_, ?_⟩
  · rw [Matrix.set, h.rows, h.columns, if_neg (by omega), if_pos hlt]
  · rw [List.length_set, h.length]
  · intro i' hi' j' hj'
    by_cases heq : i' = i ∧ j' = j
    · obtain ⟨rfl, rfl⟩ := heq
      rw [if_pos ⟨rfl, rfl⟩, List.getElem?_set_self hlt]
    · have hne : c * i + j ≠ c * i' + j' := by
        intro hindex
        obtain ⟨rfl, rfl⟩ := index_inj hj hj' hindex
        exact heq ⟨rfl, rfl⟩
      rw [if_neg heq, List.getElem?_set_ne hne, h.entry i' hi' j' hj']

theorem flatten_getElem? {rows : List (List T)} {w i j : Nat} (hw : ∀ row ∈ rows, row.length = w)
    (hj : j < rows.length) (hi : i < w) :
    rows.flatten[w * j + i]? = (rows[j]?).bind fun row => row[i]? := by
  induction rows generalizing j with
  | nil => simp at hj
  | cons row rows ih =>
    obtain ⟨hrow, hrows⟩ := List.forall_mem_cons.mp hw
    obtain _ | j := j
    · rw [List.flatten_cons, Nat.mul_zero, Nat.zero_add, List.getElem?_append_left (by omega)]
      rfl
    · have hindex : w * (j + 1) + i = row.length + (w * j + i) := by
        rw [hrow]
        ring
      rw [List.flatten_cons, hindex, List.getElem?_append_right (by omega), Nat.add_sub_cancel_left,
        List.getElem?_cons_succ]
      exact ih hrows (by simpa using hj)

theorem mapM_eq_map {α β : Type} {k : α → Option β} {l : List α} {h : α → β}
    (hk : ∀ a ∈ l, k a = some (h a)) : l.mapM k = some (l.map h) := by
  induction l with
  | nil => rfl
  | cons a l ih =>
    obtain ⟨ha, hl⟩ := List.forall_mem_cons.mp hk
    rw [List.mapM_cons, ha, ih hl]
    rfl

theorem is_flatten (r c : Nat) (f : Nat → Nat → T) :
    (⟨((List.range r).map fun i => (List.range c).map fun j => f i j).flatten, c, r⟩ : Matrix T).Is r c f := by
  have hlen : ∀ row ∈ (List.range r).map (fun i => (List.range c).map fun j => f i j),
      row.length = c := by
    intro row hrow
    obtain ⟨i, -, rfl⟩ := List.mem_map.mp hrow
    rw [List.length_map, List.length_range]
  refine ⟨rfl, rfl, ?_, fun i hi j hj => ?_⟩
  · rw [List.length_flatten, List.map_congr_left hlen]
    simp [Function.comp_def]
  · rw [flatten_getElem? hlen (by simpa using hi) hj]
    simp [hi, hj]

theorem mapM_mapM_eq {r c : Nat} {k : Nat → Nat → Option T} {f : Nat → Nat → T}
    (h : ∀ i < r, ∀ j < c, k i j = some (f i j)) :
    (List.range r).mapM (fun i => (List.range c).mapM (k i)) =
      some ((List.range r).map fun i => (List.range c).map fun j => f i j) :=
  mapM_eq_map fun i hi => mapM_eq_map fun j hj => h i (List.mem_range.mp hi) j (List.mem_range.mp hj)

theorem Is.transpose (h : m.Is r c f) :
    ∃ m', m.transpose = some m' ∧ m'.Is c r fun j i => f i j := by
  refine ⟨_, ?_, is_flatten c r fun j i => f i j⟩
  rw [Matrix.transpose, h.rows, h.columns, mapM_mapM_eq fun j hj i hi => h.entry i hi j hj]
  rfl

/-! ### Vandermonde matrices -/

section
variable [RingOps T]

def powers (value : T) : Nat → T
  | 0 => one
  | j + 1 => mul (powers value j) value

theorem Is.fillRow {i : Nat} {value : T} (hi : i < r) (n : Nat) {s : Nat} (h : m.Is r c f) (hs : 1 ≤ s)
    (hn : s + n ≤ c) (hf : ∀ j < s, f i j = powers value j) :
    ∃ m' g, fillRow i value m (List.range' s n) = .ok m' ∧ m'.Is r c g ∧
      (∀ j < s + n, g i j = powers value j) ∧ ∀ i' ≠ i, ∀ j, g i' j = f i' j := by
  induction n generalizing s m f with
  | zero => exact ⟨m, f, rfl, h, hf, fun _ _ _ => rfl⟩
  | succ n ih =>
    have hget := h.get hi (show s - 1 < c by omega)
    obtain ⟨m₁, hset, h₁⟩ := h.set hi (show s < c by omega) (mul (f i (s - 1)) value)
    have hf₁ : ∀ j < s + 1, (if i = i ∧ j = s then mul (f i (s - 1)) value else f i j) =
        powers value j := by
      intro j hj
      by_cases hjs : j = s
      · obtain ⟨k, rfl⟩ := Nat.exists_eq_add_of_le' hs
        rw [hjs, if_pos ⟨rfl, rfl⟩, hf _ (by omega)]
        rfl
      · rw [if_neg fun h => hjs h.2, hf j (by omega)]
    obtain ⟨m', g, hfill, h', hg, hother⟩ := ih h₁ (by omega) (by omega) hf₁
    refine ⟨m', g, ?_, h', fun j hj => hg j (by omega), fun i' hi' j => ?_⟩
    · rw [List.range'_succ, Matrix.fillRow, hget]
      simp only [hset]
      exact hfill
    · rw [hother i' hi' j, if_neg fun h => hi' h.1]

theorem Is.fillRows (hc : 1 ≤ c) (values : List T) {k : Nat} (h : m.Is r c f)
    (hk : k + values.length ≤ r) (hf : ∀ i, k ≤ i → f i 0 = one) :
    ∃ m' g, fillRows c m (values.zipIdx k) = .ok m' ∧ m'.Is r c g ∧
      (∀ i (hi : i < values.length), ∀ j < c, g (k + i) j = powers values[i] j) ∧
      ∀ i < k, ∀ j, g i j = f i j := by
  induction values generalizing k m f with
  | nil => exact ⟨m, f, rfl, h, fun i hi => absurd hi (Nat.not_lt_zero i), fun _ _ _ => rfl⟩
  | cons value values ih =>
    rw [List.length_cons] at hk
    obtain ⟨m₁, f₁, hrow, h₁, hpow, hother⟩ := h.fillRow (i := k) (by omega) (c - 1)
      (s := 1) le_rfl (by omega) fun j hj => by
        obtain rfl : j = 0 := by omega
        exact hf k le_rfl
    obtain ⟨m', g, hfill, h', hg, hbefore⟩ := ih h₁ (k := k + 1) (by omega) fun i hi => by
      rw [hother i (by omega), hf i (by omega)]
    refine ⟨m', g, ?_, h', fun i hi j hj => ?_, fun i hi j => ?_⟩
    · rw [List.zipIdx_cons, Matrix.fillRows, hrow]
      exact hfill
    · obtain _ | i := i
      · rw [Nat.add_zero, hbefore k (Nat.lt_succ_self k) j]
        exact hpow j (by omega)
      · have hg := hg i (by simpa using hi) j hj
        rwa [show k + (i + 1) = k + 1 + i by omega]
    · rw [hbefore i (by omega) j, hother i (by omega) j]

/-- **`vandermonde` holds the powers of its values.** -/
theorem vandermonde_is (checks : Bool) {values : List T} (hvalues : values ≠ []) (hc : c ≠ 0)
    (hsize : values.length * c < 2 ^ 64) :
    ∃ m, vandermonde checks values c = some (.ok m) ∧
      m.Is values.length c fun i j => powers (values.getD i one) j := by
  have hlen := List.length_pos_iff.mpr hvalues
  have hones : ones checks values.length c =
      some (.ok (⟨List.replicate (values.length * c) one, c, values.length⟩ : Matrix T)) := by
    rw [ones, if_neg (by omega), usizeMul_of_lt hsize]
    rfl
  have his : (⟨List.replicate (values.length * c) one, c, values.length⟩ : Matrix T).Is values.length c
      fun _ _ => one := by
    refine ⟨rfl, rfl, List.length_replicate, fun i hi j hj => ?_⟩
    exact List.getElem?_replicate_of_lt (index_lt hi hj)
  obtain ⟨m, g, hfill, hm, hg, -⟩ := his.fillRows (by omega) values (k := 0) (by omega) fun _ _ => rfl
  refine ⟨m, ?_, hm.congr fun i hi j hj => ?_⟩
  · rw [vandermonde, hones]
    exact congrArg some hfill
  · have hg := hg i hi j hj
    rw [Nat.zero_add] at hg
    rw [hg, List.getD_eq_getElem _ _ hi]

variable {K : Type} [CommRing K] [LawfulRing T K]

open LawfulRing

theorem powers_spec {value : T} (h : Valid value) (j : Nat) :
    Valid (powers value j) ∧ val (powers value j) = val value ^ j := by
  induction j with
  | zero => exact ⟨valid_one, by rw [powers, val_one, pow_zero]⟩
  | succ j ih => exact ⟨valid_mul ih.1 h, by rw [powers, val_mul ih.1 h, ih.2, pow_succ]⟩

/-- **A loop that sums products.** -/
theorem foldlM_add_mul {a b : Nat → Option T} {f g : Nat → K} (n : Nat)
    (ha : ∀ k < n, ∃ x, a k = some x ∧ Valid x ∧ val x = f k)
    (hb : ∀ k < n, ∃ x, b k = some x ∧ Valid x ∧ val x = g k) :
    ∃ total, (List.range n).foldlM (fun sum k => do return add sum (mul (← a k) (← b k))) zero =
      some total ∧ Valid total ∧ val total = ∑ k ∈ Finset.range n, f k * g k := by
  have hinit : Valid (zero : T) ∧ val (zero : T) = ∑ k ∈ Finset.range 0, f k * g k :=
    ⟨valid_zero, by rw [val_zero, Finset.sum_range_zero]⟩
  let step : T → Nat → Option T := fun sum k => do return add sum (mul (← a k) (← b k))
  obtain ⟨total, htotal, hinv⟩ := @foldlM_range' _ step
    (fun n sum => Valid sum ∧ val sum = ∑ k ∈ Finset.range n, f k * g k) n 0 _ hinit
    fun k _ hk sum hsum => by
      rw [Nat.zero_add] at hk
      obtain ⟨x, hx, hvalid, hval⟩ := ha k hk
      obtain ⟨y, hy, hvalid', hval'⟩ := hb k hk
      have hmul := valid_mul hvalid hvalid'
      refine ⟨add sum (mul x y), ?_, valid_add hsum.1 hmul, ?_⟩
      · simp only [step, hx, hy]
        rfl
      · rw [val_add hsum.1 hmul, val_mul hvalid hvalid', hval, hval', hsum.2, Finset.sum_range_succ]
  rw [Nat.zero_add] at hinv
  rw [List.range_eq_range']
  exact ⟨total, htotal, hinv⟩

theorem Is.mulVector (h : m.Is r c f) (hf : ∀ i < r, ∀ j < c, Valid (f i j)) {rhs : List T}
    (hlen : rhs.length = c) (hrhs : ∀ a ∈ rhs, Valid a) :
    ∃ y : Nat → T, m.mulVector rhs = some (.ok ((List.range r).map y)) ∧
      ∀ i < r, Valid (y i) ∧
        val (y i) = ∑ j ∈ Finset.range c, val (f i j) * val (rhs.getD j zero) := by
  have hrow : ∀ i, ∃ total, i < r → m.mulVectorRow rhs i = some total ∧
      Valid total ∧ val total = ∑ j ∈ Finset.range c, val (f i j) * val (rhs.getD j zero) := by
    intro i
    by_cases hi : i < r
    · obtain ⟨total, htotal, hspec⟩ := foldlM_add_mul (a := fun j => m.elements[c * i + j]?)
        (b := fun j => rhs[j]?) c (fun j hj => ⟨_, h.entry i hi j hj, hf i hi j hj, rfl⟩) fun j hj => by
          have hj' : j < rhs.length := hlen ▸ hj
          refine ⟨_, List.getElem?_eq_getElem hj', hrhs _ (List.getElem_mem hj'), ?_⟩
          rw [← List.getD_eq_getElem _ zero hj']
      exact ⟨total, fun _ => ⟨by rw [mulVectorRow, h.columns]; exact htotal, hspec⟩⟩
    · exact ⟨zero, fun h => absurd h hi⟩
  choose y hy using hrow
  refine ⟨y, ?_, fun i hi => (hy i hi).2⟩
  rw [Matrix.mulVector, h.columns, h.rows, if_neg (by omega),
    mapM_eq_map fun i hi => (hy i (List.mem_range.mp hi)).1]
  rfl

end

end Matrix

end SclRs
