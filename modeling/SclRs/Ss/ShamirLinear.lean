import SclRs.Ss.ShamirSharing

/-!
# Shamir sharings under local operations

`SharedBy checks parties t shares secret`: the shares of the parties lie on a polynomial of degree at
most `t` whose value at zero is the secret. Operations on shares are operations on their polynomials
(`LiesOn.add` and its like), which gives the sharings of sums, differences, multiples and products.
-/

open Polynomial

namespace SclRs

open RingOps LawfulRing

namespace ShamirSS

variable {F K : Type} [RingOps F] [CommRing K] [LawfulRing F K]

/-! ### One share -/

section
variable {checks : Bool} {t u : Nat} {f g : K[X]} {a c : F} {x y : ShamirSS F}

theorem LiesOn.add (hx : x.LiesOn t f a) (hy : y.LiesOn t g a) :
    ∃ z, addShare checks x y = some z ∧ z.LiesOn t (f + g) a := by
  refine ⟨_, by simp [addShare, debugAssert, hx.degree, hy.degree]; rfl, rfl,
    valid_add hx.valid hy.valid, ?_⟩
  rw [val_add hx.valid hy.valid, hx.eval, hy.eval, eval_add]

theorem LiesOn.sub (hx : x.LiesOn t f a) (hy : y.LiesOn t g a) :
    ∃ z, subShare checks x y = some z ∧ z.LiesOn t (f - g) a := by
  refine ⟨_, by simp [subShare, debugAssert, hx.degree, hy.degree]; rfl, rfl,
    valid_sub hx.valid hy.valid, ?_⟩
  rw [val_sub hx.valid hy.valid, hx.eval, hy.eval, eval_sub]

theorem LiesOn.eq_of_eval (hx : x.LiesOn t f a) (hy : y.LiesOn t g a)
    (heval : f.eval (val a) = g.eval (val a)) : x = y := by
  obtain ⟨share, degree⟩ := x
  obtain ⟨share', degree'⟩ := y
  obtain rfl : degree = degree' := hx.degree.trans hy.degree.symm
  obtain rfl : share = share' := val_inj hx.valid hy.valid (hx.eval.trans (heval.trans hy.eval.symm))
  rfl

theorem LiesOn.neg (hx : x.LiesOn t f a) : x.neg.LiesOn t (-f) a where
  degree := hx.degree
  valid := valid_negate hx.valid
  eval := by rw [ShamirSS.neg, val_negate hx.valid, hx.eval, eval_neg]

theorem LiesOn.addConst (hx : x.LiesOn t f a) (hc : Valid c) :
    (x.addConst c).LiesOn t (f + C (val c)) a where
  degree := hx.degree
  valid := valid_add hx.valid hc
  eval := by rw [ShamirSS.addConst, val_add hx.valid hc, hx.eval, eval_add, eval_C]

theorem LiesOn.subConst (hx : x.LiesOn t f a) (hc : Valid c) :
    (x.subConst c).LiesOn t (f - C (val c)) a where
  degree := hx.degree
  valid := valid_sub hx.valid hc
  eval := by rw [ShamirSS.subConst, val_sub hx.valid hc, hx.eval, eval_sub, eval_C]

theorem LiesOn.mulConst (hx : x.LiesOn t f a) (hc : Valid c) :
    (x.mulConst c).LiesOn t (f * C (val c)) a where
  degree := hx.degree
  valid := valid_mul hx.valid hc
  eval := by rw [ShamirSS.mulConst, val_mul hx.valid hc, hx.eval, eval_mul, eval_C]

theorem LiesOn.mul (hx : x.LiesOn t f a) (hy : y.LiesOn u g a) (hsize : t + u < 2 ^ 64) :
    ∃ z, mulShare checks x y = some z ∧ z.LiesOn (t + u) (f * g) a := by
  refine ⟨⟨RingOps.mul x.share y.share, t + u⟩, ?_, rfl, valid_mul hx.valid hy.valid, ?_⟩
  · rw [mulShare, hx.degree, hy.degree, usizeAdd_of_lt hsize]
    rfl
  · rw [val_mul hx.valid hy.valid, hx.eval, hy.eval, eval_mul]

end

/-! ### The shares of all parties -/

section
variable [FromU64 F]

/-- The shares lie on a polynomial of degree at most `t` with the secret as its value at zero. -/
def SharedBy (checks : Bool) (parties : List PartyId) (t : Nat) (shares : PartyId → ShamirSS F)
    (secret : K) : Prop :=
  ∃ f : K[X], f.natDegree ≤ t ∧ f.eval 0 = secret ∧
    ∀ p ∈ parties, ∃ a, encodeParty checks p = some a ∧ (shares p).LiesOn t f a

variable {checks : Bool} {parties : List PartyId} {t u : Nat} {x y : PartyId → ShamirSS F} {a b : K}
  {c : F}

theorem SharedBy.congr (h : SharedBy checks parties t x a) (heq : ∀ p ∈ parties, x p = y p) :
    SharedBy checks parties t y a := by
  obtain ⟨f, hf, hzero, hx⟩ := h
  exact ⟨f, hf, hzero, fun p hp => heq p hp ▸ hx p hp⟩

theorem SharedBy.exists_liesOn (h : SharedBy checks parties t x a) {point : PartyId → F}
    (hpoint : ∀ p ∈ parties, encodeParty checks p = some (point p)) :
    ∃ f : K[X], f.natDegree ≤ t ∧ f.eval 0 = a ∧ ∀ p ∈ parties, (x p).LiesOn t f (point p) := by
  obtain ⟨f, hf, hzero, hlies⟩ := h
  refine ⟨f, hf, hzero, fun p hp => ?_⟩
  obtain ⟨α, hα, hlie⟩ := hlies p hp
  obtain rfl := Option.some.inj (hα.symm.trans (hpoint p hp))
  exact hlie

theorem SharedBy.degree (h : SharedBy checks parties t x a) {p : PartyId} (hp : p ∈ parties) :
    (x p).degree = t := by
  obtain ⟨f, -, -, hx⟩ := h
  obtain ⟨α, -, hlies⟩ := hx p hp
  exact hlies.degree

theorem SharedBy.map {op : ShamirSS F → ShamirSS F} {φ : K[X] → K[X]}
    (hop : ∀ {s f α}, s.LiesOn t f α → (op s).LiesOn t (φ f) α)
    (hφ : ∀ {f : K[X]}, f.natDegree ≤ t → (φ f).natDegree ≤ t) (h : SharedBy checks parties t x a)
    (hb : ∀ {f : K[X]}, f.eval 0 = a → (φ f).eval 0 = b) :
    SharedBy checks parties t (fun p => op (x p)) b := by
  obtain ⟨f, hf, hzero, hx⟩ := h
  exact ⟨φ f, hφ hf, hb hzero, fun p hp => (hx p hp).imp fun _ h => ⟨h.1, hop h.2⟩⟩

theorem SharedBy.map₂ {op : ShamirSS F → ShamirSS F → Option (ShamirSS F)} {φ : K[X] → K[X] → K[X]}
    {v : Nat} {d : K}
    (hop : ∀ {s s' f g α}, s.LiesOn t f α → s'.LiesOn u g α →
      ∃ r, op s s' = some r ∧ r.LiesOn v (φ f g) α)
    (hφ : ∀ {f g : K[X]}, f.natDegree ≤ t → g.natDegree ≤ u → (φ f g).natDegree ≤ v)
    (hx : SharedBy checks parties t x a) (hy : SharedBy checks parties u y b)
    (hd : ∀ {f g : K[X]}, f.eval 0 = a → g.eval 0 = b → (φ f g).eval 0 = d) :
    ∃ z : PartyId → ShamirSS F, (∀ p ∈ parties, op (x p) (y p) = some (z p)) ∧
      SharedBy checks parties v z d := by
  obtain ⟨f, hf, hfzero, hx⟩ := hx
  obtain ⟨g, hg, hgzero, hy⟩ := hy
  have : Nonempty (ShamirSS F) := ⟨x 0⟩
  have hz : ∀ p, ∃ z, p ∈ parties → op (x p) (y p) = some z ∧
      ∃ α, encodeParty checks p = some α ∧ z.LiesOn v (φ f g) α := by
    intro p
    by_cases hp : p ∈ parties
    · obtain ⟨α, hα, hxp⟩ := hx p hp
      obtain ⟨β, hβ, hyp⟩ := hy p hp
      obtain rfl := Option.some.inj (hα.symm.trans hβ)
      obtain ⟨z, hz, hlies⟩ := hop hxp hyp
      exact ⟨z, fun _ => ⟨hz, α, hα, hlies⟩⟩
    · exact ⟨x p, fun h => absurd h hp⟩
  choose z hz using hz
  exact ⟨z, fun p hp => (hz p hp).1, φ f g, hφ hf hg, hd hfzero hgzero, fun p hp => (hz p hp).2⟩

theorem sharedBy_const (hc : Valid c) (hpoints : ∀ p ∈ parties, ∃ α : F, encodeParty checks p = some α) :
    SharedBy checks parties t (fun _ => ⟨c, t⟩) (val c) := by
  refine ⟨C (val c), (natDegree_C _).trans_le (Nat.zero_le t), eval_C, fun p hp => ?_⟩
  obtain ⟨α, hα⟩ := hpoints p hp
  exact ⟨α, hα, rfl, hc, eval_C.symm⟩

theorem sharedBy_line [LawfulFromU64 F] {slope : F} (ht : 0 < t) (hc : Valid c) (hslope : Valid slope)
    {point : PartyId → F} (hpoint : ∀ p ∈ parties, encodeParty checks p = some (point p)) :
    SharedBy checks parties t (fun p => ⟨add c (mul slope (point p)), t⟩) (val c) := by
  refine ⟨C (val c) + C (val slope) * X, ?_, by simp, fun p hp => ?_⟩
  · refine natDegree_add_le_of_degree_le ((natDegree_C _).trans_le (Nat.zero_le t)) ?_
    exact (natDegree_C_mul_le _ _).trans (natDegree_X_le.trans ht)
  · have hvalid := valid_encodeParty (hpoint p hp)
    refine ⟨point p, hpoint p hp, rfl, valid_add hc (valid_mul hslope hvalid), ?_⟩
    rw [val_add hc (valid_mul hslope hvalid), val_mul hslope hvalid, eval_add, eval_C, eval_mul, eval_C, eval_X]

theorem SharedBy.add (hx : SharedBy checks parties t x a) (hy : SharedBy checks parties t y b) :
    ∃ z : PartyId → ShamirSS F, (∀ p ∈ parties, addShare checks (x p) (y p) = some (z p)) ∧
      SharedBy checks parties t z (a + b) :=
  hx.map₂ LiesOn.add natDegree_add_le_of_degree_le hy fun hf hg => by rw [eval_add, hf, hg]

theorem SharedBy.sub (hx : SharedBy checks parties t x a) (hy : SharedBy checks parties t y b) :
    ∃ z : PartyId → ShamirSS F, (∀ p ∈ parties, subShare checks (x p) (y p) = some (z p)) ∧
      SharedBy checks parties t z (a - b) :=
  hx.map₂ LiesOn.sub (fun hf hg => (natDegree_sub_le_of_le hf hg).trans_eq (max_self t)) hy fun hf hg => by
    rw [eval_sub, hf, hg]

theorem SharedBy.mul (hx : SharedBy checks parties t x a) (hy : SharedBy checks parties u y b)
    (hsize : t + u < 2 ^ 64) :
    ∃ z : PartyId → ShamirSS F, (∀ p ∈ parties, mulShare checks (x p) (y p) = some (z p)) ∧
      SharedBy checks parties (t + u) z (a * b) :=
  hx.map₂ (fun hx hy => hx.mul hy hsize) natDegree_mul_le_of_le hy
    fun hf hg => by rw [eval_mul, hf, hg]

theorem SharedBy.neg (hx : SharedBy checks parties t x a) :
    SharedBy checks parties t (fun p => (x p).neg) (-a) :=
  hx.map LiesOn.neg (fun hf => (natDegree_neg _).trans_le hf) fun hf => by rw [eval_neg, hf]

theorem SharedBy.addConst (hx : SharedBy checks parties t x a) (hc : Valid c) :
    SharedBy checks parties t (fun p => (x p).addConst c) (a + val c) :=
  hx.map (fun h => h.addConst hc)
    (fun hf => natDegree_add_le_of_degree_le hf ((natDegree_C _).trans_le (Nat.zero_le _)))
    fun hf => by rw [eval_add, hf, eval_C]

theorem SharedBy.subConst (hx : SharedBy checks parties t x a) (hc : Valid c) :
    SharedBy checks parties t (fun p => (x p).subConst c) (a - val c) :=
  hx.map (fun h => h.subConst hc)
    (fun hf => (natDegree_sub_le_of_le hf ((natDegree_C _).trans_le (Nat.zero_le t))).trans_eq (max_self t))
    fun hf => by rw [eval_sub, hf, eval_C]

theorem SharedBy.mulConst (hx : SharedBy checks parties t x a) (hc : Valid c) :
    SharedBy checks parties t (fun p => (x p).mulConst c) (a * val c) :=
  hx.map (fun h => h.mulConst hc) (fun hf => (natDegree_mul_C_le _ _).trans hf)
    fun hf => by rw [eval_mul, hf, eval_C]

end

/-! ### The scheme -/

variable (F) in
/-- The parties have points in the field, and distinct ones. -/
def DistinctPoints [FromU64 F] (checks : Bool) (parties : List PartyId) : Prop :=
  ∃ points : List F, parties.mapM (encodeParty checks) = some points ∧ points.Nodup

end ShamirSS

namespace ShamirSS

section
variable {F K : Type} [DecidableEq F] [FieldOps F] [FromU64 F] [Field K] [LawfulField F K]
  [LawfulFromU64 F] {checks : Bool} {parties : List PartyId} {t : Nat} {x : PartyId → ShamirSS F} {a : K}

omit [LawfulFromU64 F] in
theorem exists_sumShares {ι : Type} {l : List ι} {x : ι → PartyId → ShamirSS F} {a : ι → K} (hne : l ≠ [])
    (hx : ∀ i ∈ l, SharedBy checks parties t (x i) (a i)) :
    ∃ z : PartyId → ShamirSS F, (∀ p ∈ parties, sumShares checks (l.map fun i => x i p) = some (z p)) ∧
      SharedBy checks parties t z (l.map a).sum := by
  have hfold : ∀ (l : List ι) (y : PartyId → ShamirSS F) (b : K), SharedBy checks parties t y b →
      (∀ i ∈ l, SharedBy checks parties t (x i) (a i)) →
      ∃ z : PartyId → ShamirSS F,
        (∀ p ∈ parties, (l.map fun i => x i p).foldlM (LinearShare.add checks) (y p) = some (z p)) ∧
        SharedBy checks parties t z (b + (l.map a).sum) := by
    intro l
    induction l with
    | nil => exact fun y b hy _ => ⟨y, fun _ _ => rfl, by simpa using hy⟩
    | cons i l ih =>
      intro y b hy hx
      obtain ⟨hxi, hx⟩ := List.forall_mem_cons.mp hx
      obtain ⟨w, hw, hws⟩ := hy.add hxi
      obtain ⟨z, hz, hzs⟩ := ih w (b + a i) hws hx
      refine ⟨z, fun p hp => ?_, by rwa [List.map_cons, List.sum_cons, ← add_assoc]⟩
      have hstep : LinearShare.add checks (y p) (x i p) = some (w p) := hw p hp
      rw [List.map_cons, List.foldlM_cons, hstep]
      exact hz p hp
  cases l with
  | nil => exact absurd rfl hne
  | cons i l =>
    obtain ⟨hxi, hx⟩ := List.forall_mem_cons.mp hx
    obtain ⟨z, hz, hzs⟩ := hfold l (x i) (a i) hxi hx
    exact ⟨z, hz, by rwa [List.map_cons, List.sum_cons]⟩

omit [DecidableEq F] in
theorem DistinctPoints.nodup (h : DistinctPoints F checks parties) : parties.Nodup := by
  obtain ⟨points, hpoints, hnodup⟩ := h
  obtain ⟨point, -, rfl⟩ := exists_point hpoints
  exact hnodup.of_map point

omit [DecidableEq F] in
theorem DistinctPoints.perm (h : DistinctPoints F checks parties) {parties' : List PartyId}
    (hperm : parties'.Perm parties) : DistinctPoints F checks parties' := by
  obtain ⟨points, hpoints, hnodup⟩ := h
  obtain ⟨point, hpoint, rfl⟩ := exists_point hpoints
  exact ⟨_, mapM_encodeParty fun p hp => hpoint p (hperm.mem_iff.mp hp),
    (hperm.map point).nodup_iff.mpr hnodup⟩

/-- **Any shares that are enough** give the secret back, in any order. -/
theorem SharedBy.secretFromShares (h : SharedBy checks parties t x a)
    (hpoints : DistinctPoints F checks parties) {picked : List PartyId}
    (hpicked : picked.Subperm parties) (henough : t < picked.length) (ht : t + 1 < 2 ^ 64) :
    ∃ r, LinearShare.secretFromShares checks (picked.map x) picked = some (.ok r) ∧ Valid r ∧
      val r = a := by
  obtain ⟨f, hf, rfl, hlies⟩ := h
  obtain ⟨points, hpoints, hnodup⟩ := hpoints
  obtain ⟨point, hpoint, rfl⟩ := exists_point hpoints
  have hpickedLies : List.Forall₂ (fun p s => s.LiesOn t f (point p)) picked (picked.map x) := by
    rw [List.forall₂_map_right_iff, List.forall₂_same]
    intro p hp
    have hp := hpicked.subset hp
    obtain ⟨α, hα, hlie⟩ := hlies p hp
    obtain rfl := Option.some.inj (hα.symm.trans (hpoint p hp))
    exact hlie
  exact secretFromShares_liesOn (fun p hp => hpoint p (hpicked.subset hp))
    (nodup_map_of_subperm hnodup hpicked) hf hpickedLies henough ht

theorem SharedBy.opens (h : SharedBy checks parties t x a) (hpoints : DistinctPoints F checks parties)
    (ht : t < parties.length) (hsize : parties.length < 2 ^ 64) :
    ∃ r : F, Valid r ∧ val r = a ∧ ∀ senders : List PartyId, senders.Perm parties →
      LinearShare.secretFromShares checks (senders.map x) senders = some (.ok r) := by
  obtain ⟨r, -, hvalid, hval⟩ := h.secretFromShares hpoints (List.Subperm.refl _) ht (by omega)
  refine ⟨r, hvalid, hval, fun senders hperm => ?_⟩
  have hlen := hperm.length_eq
  obtain ⟨r', hr', hvalid', hval'⟩ :=
    h.secretFromShares hpoints hperm.subperm (by omega) (by omega)
  rw [hr', val_inj hvalid' hvalid (hval'.trans hval.symm)]

omit [LawfulFromU64 F] in
theorem SharedBy.secretFromShares_error (h : SharedBy checks parties t x a)
    (hpoints : ¬ DistinctPoints F checks parties) (ht : t < parties.length)
    (hsize : parties.length < 2 ^ 64) {senders : List PartyId} (hperm : senders.Perm parties) :
    ∃ e, LinearShare.secretFromShares checks (senders.map x) senders = some (.error e) := by
  have hpoint : ∀ p, ∃ point : F, p ∈ parties → encodeParty checks p = some point := by
    intro p
    by_cases hp : p ∈ parties
    · obtain ⟨f, -, -, hlies⟩ := h
      obtain ⟨point, hpoint, -⟩ := hlies p hp
      exact ⟨point, fun _ => hpoint⟩
    · exact ⟨zero, fun hp' => absurd hp' hp⟩
  choose point hpoint using hpoint
  have hcollide : ¬ (senders.map point).Nodup := fun hnodup =>
    hpoints ⟨_, mapM_encodeParty hpoint, (hperm.map point).nodup_iff.mp hnodup⟩
  have hlen := hperm.length_eq
  refine ⟨_, secretFromShares_collide (t := t)
    (mapM_encodeParty fun p hp => hpoint p (hperm.mem_iff.mp hp)) hcollide (List.length_map _) ?_
    (by rw [List.length_map]; omega) (by omega)⟩
  exact List.forall_mem_map.mpr fun p hp => h.degree (hperm.mem_iff.mp hp)

/-- The parties hold shares of a polynomial whose value at zero is the secret, and have points that give
it back. -/
structure IsSharing (checks : Bool) (parties : List PartyId) (degree : Nat)
    (shares : PartyId → ShamirSS F) (secret : F) : Prop where
  degree_lt : degree < parties.length
  length_lt : parties.length < 2 ^ 64
  points : DistinctPoints F checks parties
  valid : Valid secret
  shared : SharedBy checks parties degree shares (val secret)

variable {degree : Nat} {secret : F} {rng : Nat → F}

theorem sharesFromSecret_isSharing (hdegree : degree < parties.length) (hlength : parties.length < 2 ^ 64)
    (hpoints : DistinctPoints F checks parties) (hsecret : Valid secret) (hrng : ∀ i, Valid (rng i)) :
    ∃ shares : PartyId → ShamirSS F,
      LinearShare.sharesFromSecret checks secret parties degree rng =
          some (.ok (parties.map shares)) ∧
        IsSharing checks parties degree shares secret := by
  obtain ⟨points, hmapM, -⟩ := id hpoints
  obtain ⟨point, hpoint, rfl⟩ := exists_point hmapM
  obtain ⟨shares, hdeal, hlies⟩ := linearShare_sharesFromSecret hsecret hrng hpoint
    hdegree (by omega)
  obtain ⟨x, rfl⟩ := exists_eq_map hpoints.nodup hlies.length_eq ⟨zero, 0⟩
  rw [List.forall₂_map_right_iff, List.forall₂_same] at hlies
  exact ⟨x, hdeal, hdegree, hlength, hpoints, hsecret, dealt secret degree rng,
    natDegree_dealt_le _ _ _, eval_dealt_zero _ _ _, fun p hp => ⟨point p, hpoint p hp, hlies p hp⟩⟩

variable {y z : PartyId → ShamirSS F} {b c : F}

omit [DecidableEq F] [LawfulFromU64 F] in
theorem IsSharing.of_shared (h : IsSharing checks parties degree x secret) (hb : Valid b)
    (hy : SharedBy checks parties degree y (val b)) : IsSharing checks parties degree y b :=
  ⟨h.degree_lt, h.length_lt, h.points, hb, hy⟩

instance : LawfulLinearShare (ShamirSS F) where
  Admits checks parties degree :=
    degree < parties.length ∧ parties.length < 2 ^ 64 ∧ DistinctPoints F checks parties
  IsSharing := IsSharing
  deal := fun ⟨hdegree, hlength, hpoints⟩ hsecret hrng =>
    sharesFromSecret_isSharing hdegree hlength hpoints hsecret hrng
  add hx hy := hx.shared.add hy.shared |>.imp fun _ h =>
    ⟨h.1, hx.of_shared (valid_add hx.valid hy.valid) (by rw [val_add hx.valid hy.valid]; exact h.2)⟩
  sub hx hy := hx.shared.sub hy.shared |>.imp fun _ h =>
    ⟨h.1, hx.of_shared (valid_sub hx.valid hy.valid) (by rw [val_sub hx.valid hy.valid]; exact h.2)⟩
  neg hx := hx.of_shared (valid_negate hx.valid) (by rw [val_negate hx.valid]; exact hx.shared.neg)
  addConst hx hc := hx.of_shared (valid_add hx.valid hc)
    (by rw [val_add hx.valid hc]; exact hx.shared.addConst hc)
  subConst hx hc := hx.of_shared (valid_sub hx.valid hc)
    (by rw [val_sub hx.valid hc]; exact hx.shared.subConst hc)
  mulConst hx hc := hx.of_shared (valid_mul hx.valid hc)
    (by rw [val_mul hx.valid hc]; exact hx.shared.mulConst hc)
  secretFromShares_perm hx hperm := by
    obtain ⟨r, hvalid, hval, hr⟩ := hx.shared.opens hx.points hx.degree_lt hx.length_lt
    rw [hr _ hperm, val_inj hvalid hx.valid hval]

end

end ShamirSS

end SclRs
