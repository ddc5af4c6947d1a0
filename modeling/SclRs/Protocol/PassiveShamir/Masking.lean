import SclRs.Net.View
import SclRs.Protocol.PassiveShamir.Phases

/-!
# Masked openings reveal nothing

Multiplication opens `x - a` and `y - b` and triple generation opens `a * b + r`, where the masks come from
random polynomials. Let a coalition hold no more shares than the degree `t`. What the operands of the others
may be instead is made up for by the masks: if the operands' polynomials change by polynomials that are zero at
the points of the coalition, the masks' polynomials change by the same, and the opened polynomials do not
(`PassiveShamirMul.operands_unseen`, `PassiveTriple.factors_unseen`).
-/

open Polynomial

namespace SclRs

open RingOps LawfulRing NetState Lib.Interpolation

/-! ### The shares of a polynomial -/

namespace ShamirSS

section
variable {F K : Type} [RingOps F] [CommRing K] [LawfulRing F K] {t : Nat} {f g : K[X]} {α : F}

noncomputable def shareAt (t : Nat) (f : K[X]) (α : F) : ShamirSS F :=
  ⟨((validEquiv (R := F)).symm (f.eval (val α))).1, t⟩

theorem shareAt_liesOn : (shareAt t f α).LiesOn t f α :=
  ⟨rfl, ((validEquiv (R := F)).symm _).2, (validEquiv (R := F)).apply_symm_apply _⟩

theorem shareAt_congr (h : f.eval (val α) = g.eval (val α)) : shareAt t f α = shareAt t g α := by
  rw [shareAt, h]
  rfl

theorem shareAt_add (h : g.eval (val α) = 0) : shareAt t (f + g) α = shareAt t f α :=
  shareAt_congr (by rw [eval_add, h, add_zero])

theorem sharedBy_shareAt [FromU64 F] {checks : Bool} {parties : List PartyId} {point : PartyId → F}
    (hpoint : ∀ p ∈ parties, encodeParty checks p = some (point p)) (hf : f.natDegree ≤ t) :
    SharedBy checks parties t (fun p => shareAt t f (point p)) (f.eval 0) :=
  ⟨f, hf, rfl, fun p hp => ⟨point p, hpoint p hp, shareAt_liesOn⟩⟩

end

end ShamirSS

/-! ### The coalition -/

section
variable {F K : Type} [RingOps F] [Field K] [LawfulRing F K] {point : PartyId → F} {coalition : List PartyId}

variable (point coalition) in
/-- The polynomial with value one at zero that is zero at the points of the coalition. -/
noncomputable def blind : K[X] := vanishing (coalition.map fun p => val (point p))

theorem natDegree_blind_le : (blind point coalition : K[X]).natDegree ≤ coalition.length :=
  (natDegree_vanishing_le _).trans_eq (List.length_map _)

theorem eval_blind_zero : (blind point coalition : K[X]).eval 0 = 1 := eval_vanishing_zero _

theorem eval_blind {p : PartyId} (hp : p ∈ coalition) (hzero : val (point p) ≠ 0) :
    (blind point coalition : K[X]).eval (val (point p)) = 0 :=
  eval_vanishing_of_mem (List.mem_map_of_mem hp) hzero

end

/-! ### The king's packets -/

namespace BatchedPassiveOpenToKing

variable {F : Type} [Abbreviate F] {shareCodec : Postcard (ShamirSS F)} {codec : Postcard F}
  {parties : List PartyId} {king : PartyId} {shares shares' : PartyId → List (ShamirSS F)} {secrets : List F}

theorem kingScript_congr (h : ∀ p ∈ parties, shares p = shares' p) (link : Link) :
    (kingScript shareCodec codec parties king shares secrets).packets link =
      (kingScript shareCodec codec parties king shares' secrets).packets link := by
  simp only [kingScript]
  split_ifs with hsend
  · rw [h _ (mem_peers.mp hsend.2).1]
  · rfl
  · rfl

omit [Abbreviate F] in
theorem opens_unique [DecidableEq F] [FieldOps F] [FromU64 F] {checks : Bool} {s s' : PartyId → ShamirSS F}
    {v v' : F} (hs : ∀ p ∈ parties, s p = s' p)
    (hv : ∀ senders : List PartyId, senders.Perm parties →
      LinearShare.secretFromShares checks (senders.map s) senders = some (.ok v))
    (hv' : ∀ senders : List PartyId, senders.Perm parties →
      LinearShare.secretFromShares checks (senders.map s') senders = some (.ok v')) : v = v' := by
  have hopens := hv parties (.refl _)
  rw [List.map_congr_left hs, hv' parties (.refl _)] at hopens
  exact (Except.ok.inj (Option.some.inj hopens)).symm

end BatchedPassiveOpenToKing

/-! ### Multiplication -/

/-- The polynomials of a triple: two factors and their product, of degree at most `t`. -/
@[ext]
structure TriplePolynomials (K : Type) [Field K] (t : Nat) where
  a : K[X]
  b : K[X]
  mult : K[X]
  natDegree_a : a.natDegree ≤ t
  natDegree_b : b.natDegree ≤ t
  natDegree_mult : mult.natDegree ≤ t
  eval_mult : mult.eval 0 = a.eval 0 * b.eval 0

namespace TriplePolynomials

section
variable {K : Type} [Field K] {t : Nat}

variable {f g v : K[X]} (hf : f.natDegree ≤ t) (hg : g.natDegree ≤ t) (hv : v.natDegree ≤ t)
  (hzero : v.eval 0 = 1)

/-- The factors become larger by `f` and `g`, and the product by a multiple of `v`. -/
noncomputable def shift (c : TriplePolynomials K t) : TriplePolynomials K t where
  a := c.a + f
  b := c.b + g
  mult := c.mult + C ((c.a + f).eval 0 * (c.b + g).eval 0 - c.mult.eval 0) * v
  natDegree_a := natDegree_add_le_of_degree_le c.natDegree_a hf
  natDegree_b := natDegree_add_le_of_degree_le c.natDegree_b hg
  natDegree_mult := natDegree_add_le_of_degree_le c.natDegree_mult ((natDegree_C_mul_le _ _).trans hv)
  eval_mult := by rw [eval_add (p := c.mult), eval_mul, eval_C, hzero, mul_one, add_sub_cancel]

theorem shift_shift {f' g' : K[X]} (hf' : f'.natDegree ≤ t) (hg' : g'.natDegree ≤ t) (hff : f + f' = 0)
    (hgg : g + g' = 0) (c : TriplePolynomials K t) :
    shift hf' hg' hv hzero (shift hf hg hv hzero c) = c := by
  have ha : c.a + f + f' = c.a := by rw [add_assoc, hff, add_zero]
  have hb : c.b + g + g' = c.b := by rw [add_assoc, hgg, add_zero]
  ext1
  · exact ha
  · exact hb
  · simp only [shift, ha, hb, eval_add (p := c.mult), eval_mul, eval_C, hzero, mul_one, ← c.eval_mult]
    rw [add_assoc, ← add_mul, ← C_add]
    simp

/-- **The shifted triples** are all triples. -/
noncomputable def shiftEquiv : Equiv.Perm (TriplePolynomials K t) where
  toFun := shift hf hg hv hzero
  invFun := shift ((natDegree_neg f).trans_le hf) ((natDegree_neg g).trans_le hg) hv hzero
  left_inv := shift_shift _ _ _ _ _ _ (add_neg_cancel f) (add_neg_cancel g)
  right_inv := shift_shift _ _ _ _ _ _ (neg_add_cancel f) (neg_add_cancel g)

end

section
variable {F K : Type} [RingOps F] [Field K] [LawfulRing F K] {t : Nat} (point : PartyId → F)

noncomputable def shares (c : TriplePolynomials K t) (p : PartyId) : ShamirTriple F :=
  ⟨.shareAt t c.a (point p), .shareAt t c.b (point p), .shareAt t c.mult (point p)⟩

variable {point}

theorem sharedBy_mult [FromU64 F] {checks : Bool} {parties : List PartyId}
    (hpoint : ∀ p ∈ parties, ShamirSS.encodeParty checks p = some (point p)) (c : TriplePolynomials K t) :
    ShamirSS.SharedBy checks parties t (fun p => (c.shares point p).mult) (c.a.eval 0 * c.b.eval 0) :=
  c.eval_mult ▸ ShamirSS.sharedBy_shareAt hpoint c.natDegree_mult

/-- A coalition keeps its shares when the factors change by polynomials that are zero at its points. -/
theorem shares_shift {f g : K[X]} (hf : f.natDegree ≤ t) (hg : g.natDegree ≤ t) {coalition : List PartyId}
    (hv : (blind point coalition : K[X]).natDegree ≤ t) {p : PartyId} (hp : p ∈ coalition)
    (hpoint : val (point p) ≠ 0) (hfzero : f.eval (val (point p)) = 0) (hgzero : g.eval (val (point p)) = 0)
    (c : TriplePolynomials K t) : (shift hf hg hv eval_blind_zero c).shares point p = c.shares point p := by
  rw [shares, shift, ShamirSS.shareAt_add hfzero, ShamirSS.shareAt_add hgzero,
    ShamirSS.shareAt_add (by rw [eval_mul, eval_blind hp hpoint, mul_zero])]
  rfl

end

end TriplePolynomials

namespace PassiveShamirMul

section
variable {F K : Type} [DecidableEq F] [FieldOps F] [FromU64 F] [Field K] [LawfulField F K] {checks : Bool}
  {parties coalition : List PartyId} {point : PartyId → F} {t : Nat}

/-- The operands and a triple of the polynomials `c`. -/
noncomputable def operands {x y : PartyId → ShamirSS F} {xSecret ySecret : K}
    (hx : ShamirSS.SharedBy checks parties t x xSecret) (hy : ShamirSS.SharedBy checks parties t y ySecret)
    (hpoint : ∀ p ∈ parties, ShamirSS.encodeParty checks p = some (point p)) (c : TriplePolynomials K t) :
    Operands F checks parties t where
  x := x
  y := y
  triple := c.shares point
  xSecret := xSecret
  ySecret := ySecret
  aSecret := c.a.eval 0
  bSecret := c.b.eval 0
  shared_x := hx
  shared_y := hy
  shared_a := ShamirSS.sharedBy_shareAt hpoint c.natDegree_a
  shared_b := ShamirSS.sharedBy_shareAt hpoint c.natDegree_b
  shared_mult := c.sharedBy_mult hpoint

theorem mask_eq {x y : ShamirSS F} {f g : K[X]} {α : F} {c : TriplePolynomials K t}
    {triple : ShamirTriple F} (hx : x.LiesOn t f α) (hy : y.LiesOn t g α) (ha : triple.a.LiesOn t c.a α)
    (hb : triple.b.LiesOn t c.b α) :
    mask checks ((x, y), triple) = some [.shareAt t (f - c.a) α, .shareAt t (g - c.b) α] := by
  obtain ⟨d, hd, hdLies⟩ : ∃ d, LinearShare.sub checks x triple.a = some d ∧ d.LiesOn t (f - c.a) α := hx.sub ha
  obtain ⟨e, he, heLies⟩ : ∃ e, LinearShare.sub checks y triple.b = some e ∧ e.LiesOn t (g - c.b) α := hy.sub hb
  rw [mask, hd, he, hdLies.eq_of_eval ShamirSS.shareAt_liesOn rfl, heLies.eq_of_eval ShamirSS.shareAt_liesOn rfl]
  rfl

variable [LawfulFromU64 F] [Abbreviate F] {shareCodec : Postcard (ShamirSS F)} {codec : Postcard F}
  {king : PartyId} {lists : PartyId → List PartyId} {m : Nat}

variable (checks shareCodec codec king lists) in
/-- The parties multiply `x` and `y` with triples of the polynomials `c`. -/
noncomputable def netOf (point : PartyId → F) (x y : Fin m → PartyId → ShamirSS F)
    (c : Fin m → TriplePolynomials K t) : NetState (Except (ProtocolError F) (List (ShamirSS F))) :=
  net shareCodec codec checks king lists (fun p => (List.finRange m).map (x · p))
    (fun p => (List.finRange m).map (y · p)) fun p => (List.finRange m).map fun i => (c i).shares point p

variable (shareCodec codec) in
theorem exists_carries {o o' : Fin m → Operands F checks parties t} (hm : m ≠ 0) (ht : t < parties.length)
    (hsize : parties.length < 2 ^ 64) (hpoints : ShamirSS.DistinctPoints F checks parties)
    (hking : king ∈ parties) (hlists : ∀ p ∈ parties, (lists p).Perm parties)
    (hsame : ∀ i, ∀ p ∈ parties, mask checks (((o i).x p, (o i).y p), (o i).triple p) =
      mask checks (((o' i).x p, (o' i).y p), (o' i).triple p)) :
    ∃ result result' traffic,
      (net shareCodec codec checks king lists (fun p => ((List.finRange m).map o).map (·.x p))
        (fun p => ((List.finRange m).map o).map (·.y p))
        fun p => ((List.finRange m).map o).map (·.triple p)).Carries parties result traffic ∧
      (net shareCodec codec checks king lists (fun p => ((List.finRange m).map o').map (·.x p))
        (fun p => ((List.finRange m).map o').map (·.y p))
        fun p => ((List.finRange m).map o').map (·.triple p)).Carries parties result' traffic ∧
      ∀ p ∈ parties, (∀ i, (o i).triple p = (o' i).triple p) → result p = result' p := by
  choose d e dOpen eOpen z hmask hdOpens heOpens hproduct _ using
    fun f : Operands F checks parties t => f.exists_opened ht hsize hpoints
  have hde : ∀ i, ∀ p ∈ parties, d (o i) p = d (o' i) p ∧ e (o i) p = e (o' i) p := by
    intro i p hp
    have hopen := (hmask (o i) p hp).symm.trans ((hsame i p hp).trans (hmask (o' i) p hp))
    have hlists := List.cons.inj (Option.some.inj hopen)
    exact ⟨hlists.1, (List.cons.inj hlists.2).1⟩
  have hdOpen : ∀ i, dOpen (o i) = dOpen (o' i) := fun i =>
    BatchedPassiveOpenToKing.opens_unique (fun p hp => (hde i p hp).1) (hdOpens (o i)) (hdOpens (o' i))
  have heOpen : ∀ i, eOpen (o i) = eOpen (o' i) := fun i =>
    BatchedPassiveOpenToKing.opens_unique (fun p hp => (hde i p hp).2) (heOpens (o i)) (heOpens (o' i))
  let opened (o : Fin m → Operands F checks parties t) : List ((PartyId → ShamirSS F) × F) :=
    ((List.finRange m).map o).flatMap fun f => [(d f, dOpen f), (e f, eOpen f)]
  have hcarries : ∀ o : Fin m → Operands F checks parties t,
      (net shareCodec codec checks king lists (fun p => ((List.finRange m).map o).map (·.x p))
        (fun p => ((List.finRange m).map o).map (·.y p))
        fun p => ((List.finRange m).map o).map (·.triple p)).Carries parties
          (fun p => .ok (((List.finRange m).map o).map (z · p)))
          (BatchedPassiveOpenToKing.kingScript shareCodec codec parties king
            (fun p => (opened o).map fun x => x.1 p) ((opened o).map Prod.snd)).packets := fun o =>
    carries_of_king hpoints.nodup hking fun p hp => party_leads (by simpa using hm) hpoints.nodup hp hking
      (hlists p hp) ht hmask hdOpens heOpens hproduct
  have hsecrets : (opened o).map Prod.snd = (opened o').map Prod.snd := by
    simp only [opened, List.map_flatMap, List.flatMap_map, List.map_cons, List.map_nil, hdOpen, heOpen]
  have hshares : ∀ p ∈ parties, ((opened o).map fun x => x.1 p) = (opened o').map fun x => x.1 p := by
    intro p hp
    simp only [opened, List.map_flatMap, List.flatMap_map, List.map_cons, List.map_nil, (hde _ p hp).1,
      (hde _ p hp).2]
  have hcarries' := hcarries o'
  rw [← funext (BatchedPassiveOpenToKing.kingScript_congr hshares), ← hsecrets] at hcarries'
  refine ⟨_, _, _, hcarries o, hcarries', fun p hp htriple => ?_⟩
  have hz : ∀ i, z (o i) p = z (o' i) p := by
    intro i
    have hproduct' := hproduct (o' i) p hp
    rw [← htriple i, ← hdOpen i, ← heOpen i, hproduct (o i) p hp] at hproduct'
    exact Option.some.inj hproduct'
  simp only [List.map_map, Function.comp_def, hz]

variable {x y x' y' : Fin m → PartyId → ShamirSS F} {xSecret ySecret xSecret' ySecret' : Fin m → K}

/-- **Multiplication reveals nothing** to a coalition of at most `t` parties: operands of which its parties
hold the same shares look alike, whatever the secrets are. -/
theorem operands_unseen (hm : m ≠ 0) (hpoint : ∀ p ∈ parties, ShamirSS.encodeParty checks p = some (point p))
    (hdistinct : (parties.map point).Nodup) (ht : t < parties.length) (hsize : parties.length < 2 ^ 64)
    (hking : king ∈ parties) (hlists : ∀ p ∈ parties, (lists p).Perm parties)
    (hcoalition : ∀ p ∈ coalition, p ∈ parties) (hlen : coalition.length ≤ t)
    (hzero : ∀ p ∈ coalition, val (point p) ≠ 0)
    (hx : ∀ i, ShamirSS.SharedBy checks parties t (x i) (xSecret i))
    (hy : ∀ i, ShamirSS.SharedBy checks parties t (y i) (ySecret i))
    (hx' : ∀ i, ShamirSS.SharedBy checks parties t (x' i) (xSecret' i))
    (hy' : ∀ i, ShamirSS.SharedBy checks parties t (y' i) (ySecret' i))
    (hknown : ∀ i, ∀ p ∈ coalition, x i p = x' i p ∧ y i p = y' i p) :
    ∃ φ, LooksAlike parties coalition (fun p (c : Fin m → TriplePolynomials K t) i => (c i).shares point p)
      (netOf checks shareCodec codec king lists point x y) (netOf checks shareCodec codec king lists point x' y')
      φ := by
  choose f hfDeg _ hf using fun i => (hx i).exists_liesOn hpoint
  choose g hgDeg _ hg using fun i => (hy i).exists_liesOn hpoint
  choose f' hfDeg' _ hf' using fun i => (hx' i).exists_liesOn hpoint
  choose g' hgDeg' _ hg' using fun i => (hy' i).exists_liesOn hpoint
  have hsub : ∀ {u w : K[X]}, u.natDegree ≤ t → w.natDegree ≤ t → (u - w).natDegree ≤ t := fun hu hw =>
    (natDegree_sub_le_of_le hu hw).trans_eq (max_self t)
  let φ : Equiv.Perm (Fin m → TriplePolynomials K t) := Equiv.piCongrRight fun i =>
    TriplePolynomials.shiftEquiv (hsub (hfDeg' i) (hfDeg i)) (hsub (hgDeg' i) (hgDeg i))
      (natDegree_blind_le.trans hlen) (@eval_blind_zero _ _ _ _ _ point coalition)
  have hkept : ∀ c i, ∀ p ∈ coalition, (φ c i).shares point p = (c i).shares point p := by
    intro c i p hp
    have hp' := hcoalition p hp
    have hfzero : (f' i - f i).eval (val (point p)) = 0 := by
      rw [eval_sub, ← (hf' i p hp').eval, ← (hf i p hp').eval, (hknown i p hp).1, sub_self]
    have hgzero : (g' i - g i).eval (val (point p)) = 0 := by
      rw [eval_sub, ← (hg' i p hp').eval, ← (hg i p hp').eval, (hknown i p hp).2, sub_self]
    exact TriplePolynomials.shares_shift (hsub (hfDeg' i) (hfDeg i)) (hsub (hgDeg' i) (hgDeg i))
      (natDegree_blind_le.trans hlen) hp (hzero p hp) hfzero hgzero (c i)
  refine ⟨φ, looksAlike_of_carries hcoalition (fun c p hp => funext fun i => hkept c i p hp) fun c => ?_⟩
  let o : Fin m → Operands F checks parties t := fun i => operands (hx i) (hy i) hpoint (c i)
  let o' : Fin m → Operands F checks parties t := fun i => operands (hx' i) (hy' i) hpoint (φ c i)
  -- the opened polynomials are the same
  have hsame : ∀ i, ∀ p ∈ parties, mask checks (((o i).x p, (o i).y p), (o i).triple p) =
      mask checks (((o' i).x p, (o' i).y p), (o' i).triple p) := by
    intro i p hp
    have hshifted : f i - (c i).a = f' i - (φ c i).a ∧ g i - (c i).b = g' i - (φ c i).b := by
      constructor
      · change _ = f' i - ((c i).a + (f' i - f i))
        ring
      · change _ = g' i - ((c i).b + (g' i - g i))
        ring
    refine (mask_eq (hf i p hp) (hg i p hp) ShamirSS.shareAt_liesOn ShamirSS.shareAt_liesOn).trans ?_
    rw [hshifted.1, hshifted.2]
    exact (mask_eq (hf' i p hp) (hg' i p hp) ShamirSS.shareAt_liesOn ShamirSS.shareAt_liesOn).symm
  obtain ⟨result, result', traffic, hcarries, hcarries', hresult⟩ := exists_carries shareCodec codec hm ht hsize
    ⟨_, ShamirSS.mapM_encodeParty hpoint, hdistinct⟩ hking hlists hsame
  simp only [List.map_map] at hcarries hcarries'
  exact ⟨result, result', traffic, traffic, hcarries, hcarries', fun p hp =>
    ⟨hresult p (hcoalition p hp) fun i => (hkept c i p hp).symm, fun _ => ⟨rfl, rfl⟩⟩⟩

end

end PassiveShamirMul

/-! ### Triple generation -/

/-- The polynomials of a double sharing: the same value at zero, of degree at most `t` and `2 * t`. -/
@[ext]
structure DoublePolynomials (K : Type) [Field K] (t : Nat) where
  low : K[X]
  high : K[X]
  natDegree_low : low.natDegree ≤ t
  natDegree_high : high.natDegree ≤ 2 * t
  eval_high : high.eval 0 = low.eval 0

namespace DoublePolynomials

section
variable {K : Type} [Field K] {t : Nat} {f v : K[X]} (hf : f.natDegree ≤ 2 * t) (hv : v.natDegree ≤ t)
  (hzero : v.eval 0 = 1)

/-- The upper polynomial becomes larger by `f`, and the lower one by a multiple of `v`. -/
noncomputable def shift (c : DoublePolynomials K t) : DoublePolynomials K t where
  low := c.low + C (f.eval 0) * v
  high := c.high + f
  natDegree_low := natDegree_add_le_of_degree_le c.natDegree_low ((natDegree_C_mul_le _ _).trans hv)
  natDegree_high := natDegree_add_le_of_degree_le c.natDegree_high hf
  eval_high := by rw [eval_add, eval_add, eval_mul, eval_C, hzero, mul_one, c.eval_high]

theorem shift_shift {f' : K[X]} (hf' : f'.natDegree ≤ 2 * t) (hff : f + f' = 0) (c : DoublePolynomials K t) :
    shift hf' hv hzero (shift hf hv hzero c) = c := by
  ext1
  · simp only [shift]
    rw [add_assoc, ← add_mul, ← C_add, ← eval_add, hff]
    simp
  · simp only [shift]
    rw [add_assoc, hff, add_zero]

/-- **The shifted double sharings** are all double sharings. -/
noncomputable def shiftEquiv : Equiv.Perm (DoublePolynomials K t) where
  toFun := shift hf hv hzero
  invFun := shift ((natDegree_neg f).trans_le hf) hv hzero
  left_inv := shift_shift _ _ _ _ (add_neg_cancel f)
  right_inv := shift_shift _ _ _ _ (neg_add_cancel f)

end

section
variable {F K : Type} [RingOps F] [Field K] [LawfulRing F K] {t : Nat} (point : PartyId → F)

noncomputable def shares (c : DoublePolynomials K t) (p : PartyId) : DoubleShare F :=
  ⟨.shareAt t c.low (point p), .shareAt (2 * t) c.high (point p)⟩

variable {point}

theorem sharedBy_high [FromU64 F] {checks : Bool} {parties : List PartyId}
    (hpoint : ∀ p ∈ parties, ShamirSS.encodeParty checks p = some (point p)) (c : DoublePolynomials K t) :
    ShamirSS.SharedBy checks parties (2 * t) (fun p => (c.shares point p).share2t) (c.low.eval 0) :=
  c.eval_high ▸ ShamirSS.sharedBy_shareAt hpoint c.natDegree_high

/-- A coalition keeps its shares when the upper polynomial changes by one that is zero at its points. -/
theorem shares_shift {f : K[X]} (hf : f.natDegree ≤ 2 * t) {coalition : List PartyId}
    (hv : (blind point coalition : K[X]).natDegree ≤ t) {p : PartyId} (hp : p ∈ coalition)
    (hpoint : val (point p) ≠ 0) (hfzero : f.eval (val (point p)) = 0) (c : DoublePolynomials K t) :
    (shift hf hv eval_blind_zero c).shares point p = c.shares point p := by
  rw [shares, shift, ShamirSS.shareAt_add hfzero,
    ShamirSS.shareAt_add (by rw [eval_mul, eval_blind hp hpoint, mul_zero])]
  rfl

end

end DoublePolynomials

namespace PassiveTriple

section
variable {F K : Type} [DecidableEq F] [FieldOps F] [FromU64 F] [Field K] [LawfulField F K] {checks : Bool}
  {parties coalition : List PartyId} {point : PartyId → F} {t : Nat}

/-- The factors and a mask of the polynomials `c`. -/
noncomputable def factors {a b : PartyId → ShamirSS F} {aSecret bSecret : K}
    (ha : ShamirSS.SharedBy checks parties t a aSecret) (hb : ShamirSS.SharedBy checks parties t b bSecret)
    (hpoint : ∀ p ∈ parties, ShamirSS.encodeParty checks p = some (point p)) (c : DoublePolynomials K t) :
    Factors F checks parties t where
  a := a
  b := b
  double := c.shares point
  aSecret := aSecret
  bSecret := bSecret
  mask := c.low.eval 0
  shared_a := ha
  shared_b := hb
  shared_t := ShamirSS.sharedBy_shareAt hpoint c.natDegree_low
  shared_2t := c.sharedBy_high hpoint

theorem maskProduct_eq {a b : ShamirSS F} {f g : K[X]} {α : F} {c : DoublePolynomials K t}
    {double : DoubleShare F} (ht : 2 * t < 2 ^ 64) (ha : a.LiesOn t f α) (hb : b.LiesOn t g α)
    (hdouble : double.share2t.LiesOn (2 * t) c.high α) :
    maskProduct checks ((a, b), double) = some (.shareAt (2 * t) (f * g + c.high) α) := by
  obtain ⟨product, hproduct, hlies⟩ :
      ∃ z, ShamirSS.mulShare checks a b = some z ∧ z.LiesOn (t + t) (f * g) α := ha.mul hb (by omega)
  rw [← two_mul] at hlies
  obtain ⟨d, hd, hdLies⟩ : ∃ d, ShamirSS.addShare checks product double.share2t = some d ∧
      d.LiesOn (2 * t) (f * g + c.high) α := hlies.add hdouble
  rw [maskProduct, hproduct]
  exact hd.trans (congrArg some (hdLies.eq_of_eval ShamirSS.shareAt_liesOn rfl))

variable [LawfulFromU64 F] [Abbreviate F] {shareCodec : Postcard (ShamirSS F)} {codec : Postcard F}
  {king : PartyId} {lists : PartyId → List PartyId} {m : Nat}

variable (checks shareCodec codec king lists) in
/-- The parties make triples of `a` and `b` with double sharings of the polynomials `c`. -/
noncomputable def netOf (point : PartyId → F) (a b : Fin m → PartyId → ShamirSS F)
    (c : Fin m → DoublePolynomials K t) : NetState (Except (ProtocolError F) (List (ShamirTriple F))) :=
  net shareCodec codec checks king lists (fun p => (List.finRange m).map (a · p))
    (fun p => (List.finRange m).map (b · p)) fun p => (List.finRange m).map fun i => (c i).shares point p

variable (shareCodec codec) in
theorem exists_carries {o o' : Fin m → Factors F checks parties t} (hm : m ≠ 0) (ht : 2 * t < parties.length)
    (hsize : parties.length < 2 ^ 64) (hpoints : ShamirSS.DistinctPoints F checks parties)
    (hking : king ∈ parties) (hlists : ∀ p ∈ parties, (lists p).Perm parties)
    (hsame : ∀ i, ∀ p ∈ parties, maskProduct checks (((o i).a p, (o i).b p), (o i).double p) =
      maskProduct checks (((o' i).a p, (o' i).b p), (o' i).double p)) :
    ∃ result result' traffic,
      (net shareCodec codec checks king lists (fun p => ((List.finRange m).map o).map (·.a p))
        (fun p => ((List.finRange m).map o).map (·.b p))
        fun p => ((List.finRange m).map o).map (·.double p)).Carries parties result traffic ∧
      (net shareCodec codec checks king lists (fun p => ((List.finRange m).map o').map (·.a p))
        (fun p => ((List.finRange m).map o').map (·.b p))
        fun p => ((List.finRange m).map o').map (·.double p)).Carries parties result' traffic ∧
      ∀ p ∈ parties, (∀ i, (o i).a p = (o' i).a p ∧ (o i).b p = (o' i).b p ∧
        (o i).double p = (o' i).double p) → result p = result' p := by
  choose d dOpen hd hopens _ using
    fun f : Factors F checks parties t => f.exists_opened ht hsize hpoints
  have hmasked : ∀ i, ∀ p ∈ parties, d (o i) p = d (o' i) p := fun i p hp =>
    Option.some.inj ((hd (o i) p hp).symm.trans ((hsame i p hp).trans (hd (o' i) p hp)))
  have hopen : ∀ i, dOpen (o i) = dOpen (o' i) := fun i =>
    BatchedPassiveOpenToKing.opens_unique (hmasked i) (hopens (o i)) (hopens (o' i))
  let opened (o : Fin m → Factors F checks parties t) : List ((PartyId → ShamirSS F) × F) :=
    ((List.finRange m).map o).map fun f => (d f, dOpen f)
  have hcarries : ∀ o : Fin m → Factors F checks parties t,
      (net shareCodec codec checks king lists (fun p => ((List.finRange m).map o).map (·.a p))
        (fun p => ((List.finRange m).map o).map (·.b p))
        fun p => ((List.finRange m).map o).map (·.double p)).Carries parties
          (fun p => .ok (((List.finRange m).map o).map fun f =>
            ⟨f.a p, f.b p, (f.double p).shareT.neg.addConst (dOpen f)⟩))
          (BatchedPassiveOpenToKing.kingScript shareCodec codec parties king
            (fun p => (opened o).map fun x => x.1 p) ((opened o).map Prod.snd)).packets := fun o =>
    carries_of_king hpoints.nodup hking fun p hp => party_leads (by simpa using hm) hpoints.nodup hp hking
      (hlists p hp) ht hsize hd hopens
  have hsecrets : (opened o).map Prod.snd = (opened o').map Prod.snd := by
    simp only [opened, List.map_map, Function.comp_def, hopen]
  have hshares : ∀ p ∈ parties, ((opened o).map fun x => x.1 p) = (opened o').map fun x => x.1 p := by
    intro p hp
    simp only [opened, List.map_map, Function.comp_def, hmasked _ p hp]
  have hcarries' := hcarries o'
  rw [← funext (BatchedPassiveOpenToKing.kingScript_congr hshares), ← hsecrets] at hcarries'
  refine ⟨_, _, _, hcarries o, hcarries', fun p hp hheld => ?_⟩
  simp only [List.map_map, Function.comp_def, hopen, (hheld _).1, (hheld _).2.1, (hheld _).2.2]

variable {a b a' b' : Fin m → PartyId → ShamirSS F} {aSecret bSecret aSecret' bSecret' : Fin m → K}

/-- **Triple generation reveals nothing** to a coalition of at most `t` parties: factors of which its parties
hold the same shares look alike, whatever the secrets are. -/
theorem factors_unseen (hm : m ≠ 0) (hpoint : ∀ p ∈ parties, ShamirSS.encodeParty checks p = some (point p))
    (hdistinct : (parties.map point).Nodup) (ht : 2 * t < parties.length) (hsize : parties.length < 2 ^ 64)
    (hking : king ∈ parties) (hlists : ∀ p ∈ parties, (lists p).Perm parties)
    (hcoalition : ∀ p ∈ coalition, p ∈ parties) (hlen : coalition.length ≤ t)
    (hzero : ∀ p ∈ coalition, val (point p) ≠ 0)
    (ha : ∀ i, ShamirSS.SharedBy checks parties t (a i) (aSecret i))
    (hb : ∀ i, ShamirSS.SharedBy checks parties t (b i) (bSecret i))
    (ha' : ∀ i, ShamirSS.SharedBy checks parties t (a' i) (aSecret' i))
    (hb' : ∀ i, ShamirSS.SharedBy checks parties t (b' i) (bSecret' i))
    (hknown : ∀ i, ∀ p ∈ coalition, a i p = a' i p ∧ b i p = b' i p) :
    ∃ φ, LooksAlike parties coalition (fun p (c : Fin m → DoublePolynomials K t) i => (c i).shares point p)
      (netOf checks shareCodec codec king lists point a b) (netOf checks shareCodec codec king lists point a' b')
      φ := by
  choose f hfDeg _ hf using fun i => (ha i).exists_liesOn hpoint
  choose g hgDeg _ hg using fun i => (hb i).exists_liesOn hpoint
  choose f' hfDeg' _ hf' using fun i => (ha' i).exists_liesOn hpoint
  choose g' hgDeg' _ hg' using fun i => (hb' i).exists_liesOn hpoint
  have hproduct : ∀ {u w : K[X]}, u.natDegree ≤ t → w.natDegree ≤ t → (u * w).natDegree ≤ 2 * t :=
    fun hu hw => (natDegree_mul_le_of_le hu hw).trans_eq (two_mul t).symm
  have hdegree : ∀ i, (f i * g i - f' i * g' i).natDegree ≤ 2 * t := fun i =>
    (natDegree_sub_le_of_le (hproduct (hfDeg i) (hgDeg i)) (hproduct (hfDeg' i) (hgDeg' i))).trans_eq
      (max_self _)
  let φ : Equiv.Perm (Fin m → DoublePolynomials K t) := Equiv.piCongrRight fun i =>
    DoublePolynomials.shiftEquiv (hdegree i) (natDegree_blind_le.trans hlen)
      (@eval_blind_zero _ _ _ _ _ point coalition)
  have hkept : ∀ c i, ∀ p ∈ coalition, (φ c i).shares point p = (c i).shares point p := by
    intro c i p hp
    have hp' := hcoalition p hp
    refine DoublePolynomials.shares_shift (hdegree i) (natDegree_blind_le.trans hlen) hp (hzero p hp) ?_ (c i)
    rw [eval_sub, eval_mul, eval_mul, ← (hf i p hp').eval, ← (hg i p hp').eval, ← (hf' i p hp').eval,
      ← (hg' i p hp').eval, (hknown i p hp).1, (hknown i p hp).2, sub_self]
  refine ⟨φ, looksAlike_of_carries hcoalition (fun c p hp => funext fun i => hkept c i p hp) fun c => ?_⟩
  let o : Fin m → Factors F checks parties t := fun i => factors (ha i) (hb i) hpoint (c i)
  let o' : Fin m → Factors F checks parties t := fun i => factors (ha' i) (hb' i) hpoint (φ c i)
  have hsame : ∀ i, ∀ p ∈ parties, maskProduct checks (((o i).a p, (o i).b p), (o i).double p) =
      maskProduct checks (((o' i).a p, (o' i).b p), (o' i).double p) := by
    intro i p hp
    have hshifted : f i * g i + (c i).high = f' i * g' i + (φ c i).high := by
      change _ = f' i * g' i + ((c i).high + (f i * g i - f' i * g' i))
      ring
    refine (maskProduct_eq (by omega) (hf i p hp) (hg i p hp) ShamirSS.shareAt_liesOn).trans ?_
    rw [hshifted]
    exact (maskProduct_eq (by omega) (hf' i p hp) (hg' i p hp) ShamirSS.shareAt_liesOn).symm
  obtain ⟨result, result', traffic, hcarries, hcarries', hresult⟩ := exists_carries shareCodec codec hm ht hsize
    ⟨_, ShamirSS.mapM_encodeParty hpoint, hdistinct⟩ hking hlists hsame
  simp only [List.map_map] at hcarries hcarries'
  exact ⟨result, result', traffic, traffic, hcarries, hcarries', fun p hp => ⟨hresult p (hcoalition p hp)
    fun i => ⟨(hknown i p hp).1, (hknown i p hp).2, (hkept c i p hp).symm⟩, fun _ => ⟨rfl, rfl⟩⟩⟩

end

end PassiveTriple

/-! ### Runs over one field -/

theorem Mersenne61.val_pointOf_ne_zero : ∀ p ∈ [0], val (pointOf p) ≠ 0 := by
  intro p hp
  obtain rfl := List.mem_singleton.mp hp
  change ((1 : ℕ) : ZMod mersenneModulus) ≠ 0
  norm_num

/-- The first of three parties sees no difference between the factors 5 and 9 and the factors 4 and 2. -/
theorem PassiveShamirMul.operands_unseen_three :
    ∃ φ, LooksAlike [0, 1, 2] [0]
      (fun p (c : Fin 2 → TriplePolynomials (ZMod mersenneModulus) 1) i => (c i).shares Mersenne61.pointOf p)
      (netOf true (.ofCodec (ShamirSS.codec Mersenne61.codec)) (.ofCodec Mersenne61.codec) 1
        (fun _ => [0, 1, 2]) Mersenne61.pointOf (fun i => Mersenne61.line (.digit (![5, 9] i)) (![2, 1] i) 1)
        fun i => Mersenne61.line (.digit (![6, 3] i)) 1 1)
      (netOf true (.ofCodec (ShamirSS.codec Mersenne61.codec)) (.ofCodec Mersenne61.codec) 1
        (fun _ => [0, 1, 2]) Mersenne61.pointOf (fun i => Mersenne61.line (.digit (![4, 2] i)) (![3, 8] i) 1)
        fun i => Mersenne61.line (.digit (![6, 3] i)) 1 1) φ :=
  operands_unseen two_ne_zero Mersenne61.encodeParty_pointOf (by decide) (by decide) (by decide) (by decide)
    (by decide) (by decide) (by decide) Mersenne61.val_pointOf_ne_zero
    (fun _ => Mersenne61.sharedBy_line_one _ _) (fun _ => Mersenne61.sharedBy_line_one _ _)
    (fun _ => Mersenne61.sharedBy_line_one _ _) (fun _ => Mersenne61.sharedBy_line_one _ _) (by decide +kernel)

theorem PassiveTriple.factors_unseen_three :
    ∃ φ, LooksAlike [0, 1, 2] [0]
      (fun p (c : Fin 2 → DoublePolynomials (ZMod mersenneModulus) 1) i => (c i).shares Mersenne61.pointOf p)
      (netOf true (.ofCodec (ShamirSS.codec Mersenne61.codec)) (.ofCodec Mersenne61.codec) 1
        (fun _ => [0, 1, 2]) Mersenne61.pointOf (fun i => Mersenne61.line (.digit (![5, 9] i)) (![2, 1] i) 1)
        fun i => Mersenne61.line (.digit (![6, 3] i)) 1 1)
      (netOf true (.ofCodec (ShamirSS.codec Mersenne61.codec)) (.ofCodec Mersenne61.codec) 1
        (fun _ => [0, 1, 2]) Mersenne61.pointOf (fun i => Mersenne61.line (.digit (![4, 2] i)) (![3, 8] i) 1)
        fun i => Mersenne61.line (.digit (![6, 3] i)) 1 1) φ :=
  factors_unseen two_ne_zero Mersenne61.encodeParty_pointOf (by decide) (by decide) (by decide) (by decide)
    (by decide) (by decide) (by decide) Mersenne61.val_pointOf_ne_zero
    (fun _ => Mersenne61.sharedBy_line_one _ _) (fun _ => Mersenne61.sharedBy_line_one _ _)
    (fun _ => Mersenne61.sharedBy_line_one _ _) (fun _ => Mersenne61.sharedBy_line_one _ _) (by decide +kernel)

end SclRs
