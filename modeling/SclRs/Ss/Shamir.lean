import SclRs.Ss.Share

/-!
# Shamir secret sharing

`ss/shamir.rs`: dealing evaluates a polynomial with the secret as constant coefficient, and any shares
on one polynomial of their degree give its value at zero back (`secretFromShares_eval`).
-/

open Polynomial

namespace SclRs

open RingOps

structure ShamirSS (F : Type) where
  share : F
  degree : Nat
deriving DecidableEq

instance (F : Type) : Abbreviate (ShamirSS F) := ⟨"Shamir shr."⟩

namespace ShamirSS

variable {F : Type}

/-- `postcard`'s encoding of the derived `Serialize`. -/
def codec (share : Lib.Codec F) : Lib.Codec (ShamirSS F) :=
  (share.prod Lib.Codec.varint).map (fun s => (s.share, s.degree)) (fun t => ⟨t.1, t.2⟩) fun _ => rfl

/-- `shares_from_secret`, with the polynomial; `rng i` is the `i`-th random element. -/
def sharesFromSecret [RingOps F] (checks : Bool) (secret : F) (degree : Nat) (partyIndexes : List F)
    (rng : Nat → F) : Option (List (ShamirSS F) × Polynomial F) := do
  let polynomial ← Polynomial.random checks degree rng
  let polynomial ← polynomial.setConstantCoeff secret
  let shares ← partyIndexes.mapM fun idx => do
    return ⟨← polynomial.evaluate idx, degree⟩
  return (shares, polynomial)

/-- `secret_from_shares`, over the indexes of the parties in the field, where `interpolate` gives the value
at zero. -/
def secretFromSharesBy (interpolate : List F → List F → Option (Except (PolyError F) F)) (checks : Bool)
    (shares : List (ShamirSS F)) (partyIndexes : List F) : Option (Except (ShareError F) F) :=
  match shares with
  | [] => some (.error .notEnoughShares)
  | first :: _ =>
    if shares.length ≠ partyIndexes.length then
      some (.error (.evalAndShareLenMismatch shares.length partyIndexes.length))
    else if !shares.all fun share => share.degree == first.degree then
      some (.error .sharesWithDifferentDegree)
    else do
      let needed ← usizeAdd checks first.degree 1
      if partyIndexes.length < needed || shares.length < needed then
        return .error .notEnoughShares
      match ← interpolate (shares.map share) partyIndexes with
      | .error e => return .error (.reconstructionError e)
      | .ok secret => return .ok secret

def secretFromShares [DecidableEq F] [FieldOps F] (checks : Bool) (shares : List (ShamirSS F))
    (partyIndexes : List F) : Option (Except (ShareError F) F) :=
  secretFromSharesBy (interpolatePolynomialAt · · zero) checks shares partyIndexes

def encodeParty [FromU64 F] (checks : Bool) (party : PartyId) : Option F :=
  (usizeAdd checks party 1).map FromU64.fromU64

section
variable [RingOps F]

/-- `Add<&Self>`. -/
def addShare (checks : Bool) (x y : ShamirSS F) : Option (ShamirSS F) := do
  debugAssert checks (x.degree == y.degree)
  return ⟨add x.share y.share, x.degree⟩

/-- `Sub<&Self>`. -/
def subShare (checks : Bool) (x y : ShamirSS F) : Option (ShamirSS F) := do
  debugAssert checks (x.degree == y.degree)
  return ⟨sub x.share y.share, x.degree⟩

def neg (x : ShamirSS F) : ShamirSS F := ⟨negate x.share, x.degree⟩

/-- `Add<&F>`. -/
def addConst (x : ShamirSS F) (c : F) : ShamirSS F := ⟨add x.share c, x.degree⟩

/-- `Sub<&F>`. -/
def subConst (x : ShamirSS F) (c : F) : ShamirSS F := ⟨sub x.share c, x.degree⟩

/-- `Mul<&F>`. -/
def mulConst (x : ShamirSS F) (c : F) : ShamirSS F := ⟨mul x.share c, x.degree⟩

/-- `Mul<&Self>`: the degrees add up. -/
def mulShare (checks : Bool) (x y : ShamirSS F) : Option (ShamirSS F) := do
  return ⟨mul x.share y.share, ← usizeAdd checks x.degree y.degree⟩

end

instance [DecidableEq F] [FieldOps F] [FromU64 F] : LinearShare (ShamirSS F) F Nat where
  add := addShare
  sub := subShare
  neg := neg
  addConst := addConst
  subConst := subConst
  mulConst := mulConst
  encodeParty := encodeParty
  sharesFromSecret checks secret parties degree rng :=
    if degree ≥ parties.length then some (.error (.invalidThreshold degree parties.length))
    else do
      let indexes ← parties.mapM (encodeParty checks)
      let (shares, _) ← sharesFromSecret checks secret degree indexes rng
      return .ok shares
  secretFromShares checks shares parties := do
    let indexes ← parties.mapM (encodeParty checks)
    secretFromShares checks shares indexes

section
variable [RingOps F]

theorem sharesFromSecret_eq_some {checks : Bool} {secret : F} {degree : Nat}
    {indexes : List F} {rng : Nat → F} {shares : List (ShamirSS F)} {polynomial : Polynomial F}
    (h : sharesFromSecret checks secret degree indexes rng = some (shares, polynomial)) :
    ∃ len, usizeAdd checks degree 1 = some (len + 1) ∧
      polynomial.coefficients = secret :: (List.range len).map (fun i => rng (i + 1)) ∧
      List.Forall₂ (fun idx s => s.degree = degree ∧ polynomial.evaluate idx = some s.share)
        indexes shares := by
  simp only [sharesFromSecret, Polynomial.random, Option.bind_eq_bind, Option.bind_eq_some_iff,
    Option.pure_def, Option.some.injEq, Prod.mk.injEq] at h
  obtain ⟨random, ⟨len, hlen, rfl⟩, dealt, hdealt, bs, hshares, rfl, rfl⟩ := h
  obtain _ | len := len
  · cases hdealt
  rw [Polynomial.setConstantCoeff, List.range_succ_eq_map, List.map_cons, List.map_map] at hdealt
  obtain rfl := Option.some.inj hdealt
  refine ⟨len, hlen, rfl, (forall₂_of_mapM hshares).imp fun idx s hs => ?_⟩
  obtain ⟨value, hvalue, hs⟩ := Option.bind_eq_some_iff.mp hs
  obtain rfl := Option.some.inj hs
  exact ⟨rfl, hvalue⟩

end

/-! ### Reconstruction -/

section
variable {interpolate : List F → List F → Option (Except (PolyError F) F)} {checks : Bool}
  {shares : List (ShamirSS F)} {indexes : List F}

theorem secretFromSharesBy_lengths (hne : shares ≠ []) (hlen : shares.length ≠ indexes.length) :
    secretFromSharesBy interpolate checks shares indexes =
      some (.error (.evalAndShareLenMismatch shares.length indexes.length)) := by
  obtain ⟨first, rest, rfl⟩ := List.exists_cons_of_ne_nil hne
  rw [secretFromSharesBy, if_pos hlen]

theorem secretFromSharesBy_degrees (hne : shares ≠ []) (hlen : shares.length = indexes.length)
    (hdegrees : ¬ ∃ d, ∀ s ∈ shares, s.degree = d) :
    secretFromSharesBy interpolate checks shares indexes = some (.error .sharesWithDifferentDegree) := by
  obtain ⟨first, rest, rfl⟩ := List.exists_cons_of_ne_nil hne
  rw [secretFromSharesBy, if_neg (not_not_intro hlen), if_pos]
  rw [Bool.not_eq_true', ← Bool.not_eq_true, List.all_eq_true]
  intro hall
  exact hdegrees ⟨first.degree, fun s hs => beq_iff_eq.mp (hall s hs)⟩

theorem secretFromSharesBy_of_degree {d : Nat} (hne : shares ≠ [])
    (hlen : shares.length = indexes.length) (hdegree : ∀ s ∈ shares, s.degree = d) :
    secretFromSharesBy interpolate checks shares indexes = (usizeAdd checks d 1).bind fun needed =>
      if shares.length < needed then some (.error .notEnoughShares)
      else (interpolate (shares.map share) indexes).map fun
        | .error e => .error (.reconstructionError e)
        | .ok secret => .ok secret := by
  obtain ⟨first, rest, rfl⟩ := List.exists_cons_of_ne_nil hne
  have hfirst := hdegree first List.mem_cons_self
  have hall : ((first :: rest).all fun s => s.degree == first.degree) = true := by
    rw [List.all_eq_true]
    intro s hs
    rw [hdegree s hs, hfirst, beq_self_eq_true]
  rw [secretFromSharesBy, if_neg (not_not_intro hlen), if_neg (by rw [hall]; decide), hfirst, ← hlen]
  cases usizeAdd checks d 1 with
  | none => rfl
  | some needed =>
    simp only [Option.bind_eq_bind, Option.bind_some, Bool.or_self, decide_eq_true_eq]
    split_ifs with hfew
    · rfl
    · cases interpolate ((first :: rest).map share) indexes with
      | none => rfl
      | some answer => cases answer <;> rfl

theorem secretFromShares_of_degree [DecidableEq F] [FieldOps F] {d : Nat} (hne : shares ≠ [])
    (hlen : shares.length = indexes.length) (hdegree : ∀ s ∈ shares, s.degree = d) :
    secretFromShares checks shares indexes = (usizeAdd checks d 1).bind fun needed =>
      if shares.length < needed then some (.error .notEnoughShares)
      else (interpolatePolynomialAt (shares.map share) indexes zero).map fun
        | .error e => .error (.reconstructionError e)
        | .ok secret => .ok secret :=
  secretFromSharesBy_of_degree hne hlen hdegree

end

section
variable {K : Type} [DecidableEq F] [FieldOps F] [Field K] [LawfulField F K]

open LawfulRing

/-- **Shares on one polynomial of their degree give its value at zero back.** -/
theorem secretFromShares_eval (checks : Bool) {f : K[X]} {shares : List (ShamirSS F)}
    {indexes : List F} {degree needed : Nat} (hdegree : ∀ s ∈ shares, s.degree = degree)
    (hneeded : usizeAdd checks degree 1 = some needed) (hf : f.degree < needed)
    (henough : needed ≤ shares.length) (hne : shares ≠ [])
    (hvalid : ∀ s ∈ shares, Valid s.share) (hindexes : ∀ a ∈ indexes, Valid a)
    (hnodup : indexes.Nodup)
    (heval : shares.map (fun s => val s.share) = indexes.map fun a => f.eval (val a)) :
    ∃ r, secretFromShares checks shares indexes = some (.ok r) ∧ Valid r ∧ val r = f.eval 0 := by
  have hlen : shares.length = indexes.length := by simpa using congrArg List.length heval
  have hf' : f.degree < indexes.length := by
    refine lt_of_lt_of_le hf ?_
    rw [← hlen]
    exact_mod_cast henough
  have hpos := List.length_pos_iff.mpr hne
  obtain ⟨r, hr, hvalidr, hval⟩ := interpolatePolynomialAt_eval (f := f)
    (x := zero)
    (List.forall_mem_map.mpr hvalid) hindexes valid_zero hnodup hf'
    (List.ne_nil_of_length_pos (by omega)) (by rwa [List.map_map])
  refine ⟨r, ?_, hvalidr, by rw [hval, val_zero]⟩
  rw [secretFromShares_of_degree hne hlen hdegree, hneeded, Option.bind_some,
    if_neg (Nat.not_lt.mpr henough), hr]
  rfl

end

end ShamirSS

/-! ### Double shares -/

/-- `DoubleShare`: a share of degree `t` and one of degree `2 * t`. -/
structure DoubleShare (F : Type) where
  shareT : ShamirSS F
  share2t : ShamirSS F

namespace DoubleShare

variable {F : Type}

/-- `DoubleShare::new`; `none` where its assertion fails. -/
def new (checks : Bool) (shareT share2t : ShamirSS F) : Option (DoubleShare F) := do
  if (← usizeMul checks 2 shareT.degree) = share2t.degree then
    return ⟨shareT, share2t⟩
  else none

def degree (double : DoubleShare F) : Nat := double.shareT.degree

theorem new_eq_some {checks : Bool} {shareT share2t : ShamirSS F}
    (hdegree : share2t.degree = 2 * shareT.degree) (hsize : 2 * shareT.degree < 2 ^ 64) :
    new checks shareT share2t = some ⟨shareT, share2t⟩ := by
  rw [new, usizeMul_of_lt hsize, hdegree]
  exact if_pos rfl

end DoubleShare

end SclRs
