import SclRs.Protocol.PassiveShamir.Phases

/-!
# Secure covariance

`examples/secure_covariance`: two parties deal their vectors, triples are generated until there is one for
each product, everybody centres its shares, multiplies and adds them up, and the scaled sum is opened. Every
schedule of all phases ends with the covariance at every party (`secure_covariance`).
-/

namespace SclRs

open LawfulRing NetState

section
variable {F : Type} [DecidableEq F] [FieldOps F] [FromU64 F] [Abbreviate F] (codec : Postcard (ShamirSS F))
  (scalars : Postcard F) (checks : Bool) (len t : Nat) (rng : Nat → F) (me : PartyId)

/-! ### Dealing a vector -/

structure DealVector (F : Type) where
  owner : PartyId
  values : Option (List F)
  parties : List PartyId
  id : ProtocolId

namespace DealVector

variable (protocol : DealVector F)

/-- The protocol that deals or receives the value with number `i`. -/
def deal (i : Nat) : Proto F (PassiveDealShr (ShamirSS F) F Nat) :=
  if me = protocol.owner then
    match protocol.values with
    | none => throw .input
    | some values => do
      let value ← Proto.ofOption values[i]?
      return .ofDealer protocol.owner value protocol.parties t
  else return .receiver protocol.owner

def run : Proto F (List (ShamirSS F)) :=
  (List.range len).mapM fun i => do
    let deal ← protocol.deal t me i
    deal.execute codec checks (fun j => rng (j + i * (t + 1))) me

def execute : Proto F (List (ShamirSS F)) :=
  Proto.execute protocol.id (protocol.run codec checks len t rng me)

end DealVector

/-! ### Preprocessing -/

structure Preprocessing where
  parties : List PartyId
  king : PartyId

namespace Preprocessing

variable (protocol : Preprocessing)

/-- One pass of the loop, which draws `5 * t + 7` random elements. -/
def pass : Proto F (List (ShamirTriple F)) := do
  let a ← PassiveRandShr.party codec checks rng me t protocol.parties
  let b ← PassiveRandShr.party codec checks (fun i => rng (i + (t + 2))) me t protocol.parties
  let doubles ← PassiveRandDoubleShr.party codec checks (fun i => rng (i + 2 * (t + 2))) me t protocol.parties
  PassiveTriple.party codec scalars checks me protocol.king protocol.parties a b doubles

/-- The loop; every pass adds a triple, so that it does not run out of `fuel`. -/
def loop (protocol : Preprocessing) : Nat → (Nat → F) → List (ShamirTriple F) → Proto F (List (ShamirTriple F))
  | 0, _, _ => Proto.ofOption none
  | fuel + 1, rng, triples =>
    if triples.length < len then do
      let batch ← protocol.pass codec scalars checks t rng me
      loop protocol fuel (fun i => rng (i + (5 * t + 7))) (triples ++ batch)
    else return triples.take len

def run : Proto F (List (ShamirTriple F)) :=
  protocol.loop codec scalars checks len t me (len + 1) rng []

def execute : Proto F (List (ShamirTriple F)) :=
  Proto.execute "Preprocessing" (protocol.run codec scalars checks len t rng me)

end Preprocessing

/-! ### The circuit -/

def centre (shares : List (ShamirSS F)) (invLen : F) : Option (List (ShamirSS F)) := do
  let sum ← sumShares checks shares
  let mean := LinearShare.mulConst sum invLen
  shares.mapM fun share => LinearShare.sub checks share mean

structure SecureCovariance (F : Type) where
  parties : List PartyId
  king : PartyId
  x : Option (List F)
  y : Option (List F)

namespace SecureCovariance

/-- The inverse of the length, and its `expect`. -/
def invLen (F : Type) [FieldOps F] [FromU64 F] (len : Nat) : Option F :=
  match FieldOps.inverse (FromU64.fromU64 len : F) with
  | some (.ok inverse) => some inverse
  | _ => none

variable (protocol : SecureCovariance F)

/-- The random elements that a party draws while `owner` deals its vector. -/
def drawn (owner : PartyId) : Nat := if me = owner then len * (t + 1) else 0

def evaluate (partyIds : List PartyId) (xShares yShares : List (ShamirSS F)) : Proto F F := do
  let triples ← (⟨protocol.parties, protocol.king⟩ : Preprocessing).execute codec scalars checks len t rng me
  let inverse ← Proto.ofOption (invLen F len)
  let centredX ← Proto.ofOption (centre checks xShares inverse)
  let centredY ← Proto.ofOption (centre checks yShares inverse)
  let products ← PassiveShamirMul.party codec scalars checks me protocol.king protocol.parties centredX centredY
    triples
  let scatter ← Proto.ofOption (sumShares checks products)
  let covariance := LinearShare.mulConst scatter inverse
  (⟨covariance⟩ : PassiveOpenShr (ShamirSS F)).execute codec checks partyIds me

def run (partyIds : List PartyId) : Proto F F := do
  let ownerX ← Proto.ofOption protocol.parties[0]?
  let xShares ← (⟨ownerX, protocol.x, protocol.parties, "ShareX"⟩ : DealVector F).execute codec checks len t rng
    me
  let rng := fun i => rng (i + drawn len t me ownerX)
  let ownerY ← Proto.ofOption protocol.parties[1]?
  let yShares ← (⟨ownerY, protocol.y, protocol.parties, "ShareY"⟩ : DealVector F).execute codec checks len t rng
    me
  let rng := fun i => rng (i + drawn len t me ownerY)
  protocol.evaluate codec scalars checks len t rng me partyIds xShares yShares

def execute (partyIds : List PartyId) : Proto F F :=
  Proto.execute "SecureCovariance" (protocol.run codec scalars checks len t rng me partyIds)

end SecureCovariance

end

/-! ### Its phases -/

section
variable {F K : Type} [DecidableEq F] [FieldOps F] [FromU64 F] [Field K] [LawfulField F K] [LawfulFromU64 F]
  [Abbreviate F] {codec : Postcard (ShamirSS F)} {scalars : Postcard F} {checks : Bool} {len t : Nat}
  {parties : List PartyId} {king owner : PartyId} {rng : PartyId → Nat → F}

structure SharedTriple (F : Type) {K : Type} [RingOps F] [CommRing K] [LawfulRing F K] [FromU64 F]
    (checks : Bool) (parties : List PartyId) (t : Nat) where
  triple : PartyId → ShamirTriple F
  a : K
  b : K
  shared_a : ShamirSS.SharedBy checks parties t (fun p => (triple p).a) a
  shared_b : ShamirSS.SharedBy checks parties t (fun p => (triple p).b) b
  shared_mult : ShamirSS.SharedBy checks parties t (fun p => (triple p).mult) (a * b)

omit [DecidableEq F] [FieldOps F] [FromU64 F] [Abbreviate F] in
theorem DealVector.deal_directed {protocol : DealVector F} {me : PartyId} {i : Nat} :
    (protocol.deal t me i).Directed := by
  rw [deal]
  split_ifs
  · cases protocol.values with
    | none => exact Proto.directed_ofResult (.error .input)
    | some values => exact (Proto.directed_ofOption _).bind fun _ => Proto.directed_pure _
  · exact Proto.directed_pure _

omit [Abbreviate F] in
theorem DealVector.execute_directed {protocol : DealVector F} {me : PartyId} {rng : Nat → F} :
    (protocol.execute codec checks len t rng me).Directed :=
  Proto.Directed.execute (Proto.directed_mapM fun _ _ => deal_directed.bind fun _ =>
    PassiveDealShr.execute_directed)

variable (codec) in
omit [Abbreviate F] in
theorem DealVector.completes (hpoints : ShamirSS.DistinctPoints F checks parties) (ht : t < parties.length)
    (hsize : parties.length < 2 ^ 64) (howner : owner ∈ parties) {values : PartyId → Option (List F)}
    {x : Nat → F} (hvalues : values owner = some ((List.range len).map x)) (hx : ∀ i, Valid (x i))
    (hrng : ∀ p ∈ parties, ∀ i, Valid (rng p i)) (id : ProtocolId) :
    ∃ dealt : Nat → PartyId → ShamirSS F,
      (∀ i, ShamirSS.SharedBy checks parties t (dealt i) (val (x i))) ∧
      (Proto.net fun p => (⟨owner, values p, parties, id⟩ : DealVector F).execute codec checks len t (rng p)
        p).Completes parties fun p => .ok ((List.range len).map fun i => dealt i p) := by
  choose dealt hdealt hsharing using fun i => ShamirSS.sharesFromSecret_isSharing ht hsize hpoints (hx i)
    fun j => hrng owner howner (j + i * (t + 1))
  refine ⟨dealt, fun i => (hsharing i).shared, Proto.completes_execute id (Proto.completes_mapM
    (fun p _ i _ => deal_directed.bind fun _ => PassiveDealShr.execute_directed) fun i hi => ?_)⟩
  have hdeal : ∀ p, (⟨owner, values p, parties, id⟩ : DealVector F).deal t p i =
      pure (dealTo owner (x i) parties t p) := by
    intro p
    by_cases hp : p = owner
    · subst hp
      have hget : ((List.range len).map x)[i]? = some (x i) := by
        rw [List.getElem?_map, List.getElem?_range (List.mem_range.mp hi)]
        rfl
      simp only [deal, if_true, hvalues, hget, dealTo]
      rfl
    · rw [deal, if_neg hp, dealTo, if_neg hp]
  simp only [hdeal, pure_bind]
  exact PassiveDealShr.completes hpoints.nodup howner (hdealt i)

theorem map_range_eq {α : Type} (n : Nat) (f : Nat → α) :
    (List.range n).map f = (List.finRange n).map fun i : Fin n => f i := by
  rw [← List.map_coe_finRange_eq_range, List.map_map]
  rfl

theorem map_eq_map_finRange {α β : Type} {n : Nat} {l : List α} (h : l.length = n) (f : α → β) :
    l.map f = (List.finRange n).map fun i => f (l.get (i.cast h.symm)) := by
  subst h
  apply List.ext_getElem <;> simp

variable (codec scalars) in
theorem Preprocessing.pass_completes (hpoints : ShamirSS.DistinctPoints F checks parties)
    (ht : 2 * t < parties.length) (hsize : parties.length * (parties.length - t) < 2 ^ 64)
    (hking : king ∈ parties) (hrng : ∀ p ∈ parties, ∀ i, Valid (rng p i)) :
    ∃ batch : List (SharedTriple F checks parties t), batch.length = parties.length - t ∧
      (Proto.net fun p => (⟨parties, king⟩ : Preprocessing).pass codec scalars checks t (rng p) p).Completes
        parties fun p => .ok (batch.map (·.triple p)) := by
  have hlt : t < parties.length := by omega
  obtain ⟨a, aSecret, ha, haShared⟩ := PassiveRandShr.completes codec hpoints hlt hsize hrng
  obtain ⟨b, bSecret, hb, hbShared⟩ := PassiveRandShr.completes codec hpoints hlt hsize
    fun p hp i => hrng p hp (i + (t + 2))
  obtain ⟨double, mask, hdouble, hdoubleShared⟩ := PassiveRandDoubleShr.completes codec hpoints ht hsize
    fun p hp i => hrng p hp (i + 2 * (t + 2))
  let factors : Fin (parties.length - t) → PassiveTriple.Factors F checks parties t := fun k =>
    { a := a k, b := b k, double := double k, aSecret := aSecret k, bSecret := bSecret k, mask := mask k
      shared_a := haShared k k.2
      shared_b := hbShared k k.2
      shared_t := (hdoubleShared k k.2).1
      shared_2t := (hdoubleShared k k.2).2 }
  have hne : (List.finRange (parties.length - t)).map factors ≠ [] := by
    rw [Ne, ← List.length_eq_zero_iff, List.length_map, List.length_finRange]
    omega
  obtain ⟨c, hc, hcShared⟩ := PassiveTriple.completes codec scalars hne hking ht
    (length_lt_of_mul_lt hlt hsize) hpoints
  let shared : PassiveTriple.Factors F checks parties t → SharedTriple F checks parties t := fun f =>
    { triple := fun p => ⟨f.a p, f.b p, c f p⟩, a := f.aSecret, b := f.bSecret
      shared_a := f.shared_a
      shared_b := f.shared_b
      shared_mult := hcShared f }
  refine ⟨(List.finRange (parties.length - t)).map fun k => shared (factors k), by simp, ?_⟩
  simp only [map_range_eq] at ha hb hdouble
  simp only [List.map_map] at hc ⊢
  refine Proto.completes_bind (fun _ _ => PassiveRandShr.party_directed) ha ?_
  refine Proto.completes_bind (fun _ _ => PassiveRandShr.party_directed) hb ?_
  exact Proto.completes_bind (fun _ _ => PassiveRandDoubleShr.party_directed) hdouble hc

theorem Preprocessing.pass_directed {protocol : Preprocessing} {me : PartyId} {rng : Nat → F} :
    (protocol.pass codec scalars checks t rng me).Directed :=
  PassiveRandShr.party_directed.bind fun _ => PassiveRandShr.party_directed.bind fun _ =>
    PassiveRandDoubleShr.party_directed.bind fun _ => PassiveTriple.party_directed

theorem Preprocessing.loop_directed {protocol : Preprocessing} {me : PartyId} {fuel : Nat} {rng : Nat → F}
    {triples : List (ShamirTriple F)} :
    (protocol.loop codec scalars checks len t me fuel rng triples).Directed := by
  induction fuel generalizing rng triples with
  | zero => exact Proto.directed_ofOption none
  | succ fuel ih =>
    rw [loop]
    split_ifs
    · exact pass_directed.bind fun _ => ih
    · exact Proto.directed_pure _

variable (codec scalars) in
/-- **The loop** ends with as many triples as there are products. -/
theorem Preprocessing.loop_completes (hpoints : ShamirSS.DistinctPoints F checks parties)
    (ht : 2 * t < parties.length) (hsize : parties.length * (parties.length - t) < 2 ^ 64)
    (hking : king ∈ parties) (hrng : ∀ p ∈ parties, ∀ i, Valid (rng p i)) {fuel : Nat}
    {made : List (SharedTriple F checks parties t)} (hfuel : len - made.length < fuel) :
    ∃ triples : List (SharedTriple F checks parties t), triples.length = len ∧
      (Proto.net fun p => (⟨parties, king⟩ : Preprocessing).loop codec scalars checks len t p fuel (rng p)
        (made.map (·.triple p))).Completes parties fun p => .ok (triples.map (·.triple p)) := by
  induction fuel generalizing rng made with
  | zero => exact absurd hfuel (Nat.not_lt_zero _)
  | succ fuel ih =>
    by_cases hmore : made.length < len
    · obtain ⟨batch, hbatch, hpass⟩ := pass_completes codec scalars hpoints ht hsize hking hrng
      have hfuel' : len - (made ++ batch).length < fuel := by
        rw [List.length_append]
        omega
      obtain ⟨triples, htriples, hloop⟩ := ih (fun p hp i => hrng p hp (i + (5 * t + 7))) hfuel'
      refine ⟨triples, htriples, ?_⟩
      simp only [loop, List.length_map, if_pos hmore]
      refine Proto.completes_bind (fun _ _ => pass_directed) hpass ?_
      simpa only [List.map_append] using hloop
    · refine ⟨made.take len, List.length_take_of_le (by omega), ?_⟩
      simp only [loop, List.length_map, if_neg hmore, List.map_take]
      exact Proto.completes_pure _

variable (codec scalars len) in
theorem Preprocessing.completes (hpoints : ShamirSS.DistinctPoints F checks parties)
    (ht : 2 * t < parties.length) (hsize : parties.length * (parties.length - t) < 2 ^ 64)
    (hking : king ∈ parties) (hrng : ∀ p ∈ parties, ∀ i, Valid (rng p i)) :
    ∃ triples : List (SharedTriple F checks parties t), triples.length = len ∧
      (Proto.net fun p => (⟨parties, king⟩ : Preprocessing).execute codec scalars checks len t (rng p)
        p).Completes parties fun p => .ok (triples.map (·.triple p)) := by
  have hfuel : len - ([] : List (SharedTriple F checks parties t)).length < len + 1 := Nat.lt_succ_self len
  obtain ⟨triples, htriples, hloop⟩ := loop_completes codec scalars hpoints ht hsize hking hrng hfuel
  exact ⟨triples, htriples, Proto.completes_execute _ hloop⟩

omit [LawfulFromU64 F] [Abbreviate F] in
theorem exists_centre {x : Nat → PartyId → ShamirSS F} {a : Nat → K} {inverse : F} (hlen : len ≠ 0)
    (hinverse : Valid inverse) (hx : ∀ i, ShamirSS.SharedBy checks parties t (x i) (a i)) :
    ∃ u : Nat → PartyId → ShamirSS F,
      (∀ p ∈ parties, centre checks ((List.range len).map fun i => x i p) inverse =
        some ((List.range len).map fun i => u i p)) ∧
      ∀ i, ShamirSS.SharedBy checks parties t (u i) (a i - ((List.range len).map a).sum * val inverse) := by
  obtain ⟨z, hz, hzShared⟩ := ShamirSS.exists_sumShares (l := List.range len) (by simpa using hlen)
    fun i _ => hx i
  choose u hu huShared using fun i => (hx i).sub (hzShared.mulConst hinverse)
  refine ⟨u, fun p hp => ?_, huShared⟩
  rw [centre, hz p hp]
  simp only [Option.bind_eq_bind, Option.bind_some, List.mapM_map]
  exact Matrix.mapM_eq_map fun i _ => hu i p hp

namespace SecureCovariance

omit [DecidableEq F] [LawfulFromU64 F] [Abbreviate F] in
theorem exists_invLen (hvalid : Valid (FromU64.fromU64 len : F)) (hne : val (FromU64.fromU64 len : F) ≠ 0) :
    ∃ inverse : F, invLen F len = some inverse ∧ Valid inverse ∧
      val inverse = (val (FromU64.fromU64 len : F))⁻¹ := by
  obtain ⟨inverse, hinverse, hval⟩ := LawfulField.inverse_ne_zero hvalid hne
  exact ⟨inverse, by rw [invLen, hinverse], hval⟩

variable (codec scalars) in
theorem evaluate_completes (hpoints : ShamirSS.DistinctPoints F checks parties) (ht : 2 * t < parties.length)
    (hsize : parties.length * (parties.length - t) < 2 ^ 64) (hking : king ∈ parties)
    (hrng : ∀ p ∈ parties, ∀ i, Valid (rng p i)) {protocol : PartyId → SecureCovariance F}
    (hprotocol : ∀ p, (protocol p).parties = parties ∧ (protocol p).king = king)
    {x y : Nat → PartyId → ShamirSS F} {a b : Nat → K} {inverse : F} (hlen : len ≠ 0)
    (hinvLen : invLen F len = some inverse) (hinverse : Valid inverse)
    (hx : ∀ i, ShamirSS.SharedBy checks parties t (x i) (a i))
    (hy : ∀ i, ShamirSS.SharedBy checks parties t (y i) (b i)) :
    ∃ c : F, Valid c ∧ val c = ((List.range len).map fun i =>
        (a i - ((List.range len).map a).sum * val inverse) *
          (b i - ((List.range len).map b).sum * val inverse)).sum * val inverse ∧
      (Proto.net fun p => (protocol p).evaluate codec scalars checks len t (rng p) p parties
        ((List.range len).map fun i => x i p) ((List.range len).map fun i => y i p)).Completes parties
        fun _ => .ok c := by
  have hlt : t < parties.length := by omega
  have hlength := length_lt_of_mul_lt hlt hsize
  obtain ⟨triples, htriples, hpreprocessing⟩ := Preprocessing.completes codec scalars len hpoints ht hsize hking hrng
  obtain ⟨u, hu, huShared⟩ := exists_centre hlen hinverse hx
  obtain ⟨v, hv, hvShared⟩ := exists_centre hlen hinverse hy
  let operands : Fin len → PassiveShamirMul.Operands F checks parties t := fun i =>
    { x := u i, y := v i, triple := (triples.get (i.cast htriples.symm)).triple
      xSecret := _, ySecret := _, aSecret := _, bSecret := _
      shared_x := huShared i
      shared_y := hvShared i
      shared_a := (triples.get (i.cast htriples.symm)).shared_a
      shared_b := (triples.get (i.cast htriples.symm)).shared_b
      shared_mult := (triples.get (i.cast htriples.symm)).shared_mult }
  have hne : (List.finRange len).map operands ≠ [] := by
    rwa [Ne, ← List.length_eq_zero_iff, List.length_map, List.length_finRange]
  obtain ⟨z, hz, hzShared⟩ := PassiveShamirMul.completes codec scalars hne hking hlt hlength hpoints
  obtain ⟨w, hw, hwShared⟩ := ShamirSS.exists_sumShares hne fun f _ => hzShared f
  obtain ⟨c, hc, hval, hopens⟩ := (hwShared.mulConst hinverse).opens hpoints hlt hlength
  refine ⟨c, hc, ?_, ?_⟩
  · rw [hval, map_range_eq, List.map_map]
    rfl
  · simp only [evaluate, hprotocol, hinvLen]
    refine Proto.completes_bind (fun _ _ => Proto.Directed.execute Preprocessing.loop_directed) hpreprocessing ?_
    refine Proto.completes_ofOption_bind (fun _ _ => rfl) ?_
    refine Proto.completes_ofOption_bind hu (Proto.completes_ofOption_bind hv ?_)
    simp only [map_range_eq, map_eq_map_finRange htriples]
    simp only [List.map_map] at hz hw
    refine Proto.completes_bind (fun _ _ => PassiveShamirMul.party_directed) hz ?_
    refine Proto.completes_ofOption_bind hw ?_
    exact (PassiveOpenShr.carries hpoints.nodup hopens).toCompletes

end SecureCovariance

end

/-! ### The covariance -/

def mean {K : Type} [Field K] (len : Nat) (x : Nat → K) : K := ((List.range len).map x).sum * (len : K)⁻¹

/-- `(1/ℓ) · Σ (xᵢ − x̄)(yᵢ − ȳ)`. -/
def covariance {K : Type} [Field K] (len : Nat) (x y : Nat → K) : K :=
  mean len fun i => (x i - mean len x) * (y i - mean len y)

theorem Mersenne61.fromU64_rep {n : Nat} (hn : n < 2 ^ 64) : (FromU64.fromU64 n : Mersenne61).Rep n := by
  refine Rep.fromU64 ?_
  rw [UInt64.toNat_ofNat_of_lt' hn]

def SecureCovariance.net (codec : Postcard (ShamirSS Mersenne61)) (scalars : Postcard Mersenne61) (checks : Bool)
    (len t : Nat) (parties : List PartyId) (king : PartyId) (x y : PartyId → Option (List Mersenne61))
    (rng : PartyId → Nat → Mersenne61) : NetState (Except (ProtocolError Mersenne61) Mersenne61) :=
  Proto.net fun p => (⟨parties, king, x p, y p⟩ : SecureCovariance Mersenne61).execute codec scalars checks len t
    (rng p) p parties

/-- **Every schedule ends with the covariance** at every party, and no packet is left. -/
theorem SecureCovariance.secure_covariance {codec : Postcard (ShamirSS Mersenne61)} {scalars : Postcard Mersenne61}
    {checks : Bool} {len t : Nat} {parties : List PartyId} {king ownerX ownerY : PartyId}
    {dataX dataY : PartyId → Option (List Mersenne61)} {x y : Nat → Mersenne61}
    {rng : PartyId → Nat → Mersenne61} (hpoints : ShamirSS.DistinctPoints Mersenne61 checks parties)
    (ht : 2 * t < parties.length) (hsize : parties.length * (parties.length - t) < 2 ^ 64)
    (hking : king ∈ parties) (hlen : len < 2 ^ 64) (hdivides : ¬ mersenneModulus ∣ len)
    (hownerX : parties[0]? = some ownerX) (hownerY : parties[1]? = some ownerY)
    (hdataX : dataX ownerX = some ((List.range len).map x)) (hx : ∀ i, (x i).Canonical)
    (hdataY : dataY ownerY = some ((List.range len).map y)) (hy : ∀ i, (y i).Canonical)
    (hrng : ∀ p ∈ parties, ∀ i, (rng p i).Canonical) :
    ∃ c : Mersenne61, c.Rep (covariance len (fun i => (x i).toZMod) fun i => (y i).toZMod) ∧
      (net codec scalars checks len t parties king dataX dataY rng).Completes parties fun _ => .ok c := by
  have hlt : t < parties.length := by omega
  have hlength := length_lt_of_mul_lt hlt hsize
  have hrep := Mersenne61.fromU64_rep hlen
  have hvalLen : val (FromU64.fromU64 len : Mersenne61) = (len : ZMod mersenneModulus) := hrep.2
  have hne : val (FromU64.fromU64 len : Mersenne61) ≠ 0 := by
    rwa [hvalLen, Ne, ZMod.natCast_eq_zero_iff]
  have hlen0 : len ≠ 0 := by
    rintro rfl
    exact hdivides (dvd_zero _)
  obtain ⟨inverse, hinvLen, hinverse, hval⟩ := exists_invLen hrep.1 hne
  obtain ⟨xShared, hxShared, hdealX⟩ := DealVector.completes codec hpoints hlt hlength
    (List.mem_of_getElem? hownerX) hdataX hx hrng "ShareX"
  obtain ⟨yShared, hyShared, hdealY⟩ := DealVector.completes codec hpoints hlt hlength
    (List.mem_of_getElem? hownerY) hdataY hy (fun p hp i => hrng p hp (i + drawn len t p ownerX)) "ShareY"
  have hprotocol : ∀ p, (⟨parties, king, dataX p, dataY p⟩ : SecureCovariance Mersenne61).parties = parties ∧
      (⟨parties, king, dataX p, dataY p⟩ : SecureCovariance Mersenne61).king = king := fun _ => ⟨rfl, rfl⟩
  obtain ⟨c, hc, hvalue, hevaluate⟩ := evaluate_completes codec scalars hpoints ht hsize hking
    (fun p hp i => hrng p hp (i + drawn len t p ownerY + drawn len t p ownerX)) hprotocol hlen0 hinvLen hinverse
    hxShared hyShared
  refine ⟨c, ⟨hc, hvalue.trans ?_⟩, Proto.completes_execute _ ?_⟩
  · rw [hval, hvalLen]
    rfl
  · refine Proto.completes_ofOption_bind (fun _ _ => hownerX) ?_
    refine Proto.completes_bind (fun _ _ => DealVector.execute_directed) hdealX ?_
    refine Proto.completes_ofOption_bind (fun _ _ => hownerY) ?_
    exact Proto.completes_bind (fun _ _ => DealVector.execute_directed) hdealY hevaluate

namespace SecureCovariance

def dataX : List Mersenne61 := [⟨10⟩, ⟨12⟩, ⟨14⟩, ⟨16⟩, ⟨18⟩, ⟨20⟩]

def dataY : List Mersenne61 := [⟨2⟩, ⟨4⟩, ⟨5⟩, ⟨7⟩, ⟨8⟩, ⟨10⟩]

theorem covariance_data : covariance 6 (fun i => (dataX.getD i Mersenne61.zero).toZMod)
    (fun i => (dataY.getD i Mersenne61.zero).toZMod) = 9 := by
  decide +kernel

theorem canonical_getD {data : List Mersenne61} (h : ∀ a ∈ data, a.Canonical) (i : Nat) :
    (data.getD i Mersenne61.zero).Canonical := by
  rw [List.getD_eq_getElem?_getD]
  cases hi : data[i]? with
  | none => exact show Mersenne61.zero.Canonical by decide
  | some a => exact h a (List.mem_of_getElem? hi)

theorem secure_covariance_five :
    (net (.ofCodec (ShamirSS.codec Mersenne61.codec)) (.ofCodec Mersenne61.codec) true 6 2 [0, 1, 2, 3, 4] 0
      (fun p => if p = 0 then some dataX else none) (fun p => if p = 1 then some dataY else none)
      fun p _ => if p = 3 then ⟨5⟩ else ⟨7⟩).Completes [0, 1, 2, 3, 4] fun _ => .ok ⟨9⟩ := by
  have hrng : ∀ p ∈ [0, 1, 2, 3, 4], ∀ _ : Nat, (if p = 3 then ⟨5⟩ else ⟨7⟩ : Mersenne61).Canonical := by
    intro p _ _
    split_ifs <;> decide
  have h : ∃ c : Mersenne61, c.Rep (covariance 6 (fun i => (dataX.getD i Mersenne61.zero).toZMod)
      fun i => (dataY.getD i Mersenne61.zero).toZMod) ∧
      (net (.ofCodec (ShamirSS.codec Mersenne61.codec)) (.ofCodec Mersenne61.codec) true 6 2 [0, 1, 2, 3, 4] 0
        (fun p => if p = 0 then some dataX else none) (fun p => if p = 1 then some dataY else none)
        fun p _ => if p = 3 then ⟨5⟩ else ⟨7⟩).Completes [0, 1, 2, 3, 4] fun _ => .ok c :=
    secure_covariance ⟨[1, 2, 3, 4, 5].map FromU64.fromU64, rfl, by decide +kernel⟩ (by decide) (by decide) (by decide)
      (by decide) (by decide) rfl rfl rfl (canonical_getD (by decide)) rfl (canonical_getD (by decide)) hrng
  obtain ⟨c, hc, hcompletes⟩ := h
  have hnine : c = ⟨9⟩ := hc.1.ext (by decide) (hc.2.trans covariance_data)
  rwa [hnine] at hcompletes

end SecureCovariance

end SclRs
