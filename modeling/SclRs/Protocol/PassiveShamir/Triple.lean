import SclRs.Protocol.PassiveShamir.OpenKing

/-!
# Multiplication triples

`protocol/passive_shamir/triple.rs`: the product of two shares of degree `t` has degree `2 * t`; masked by
the upper half of a double share it is opened through the king, and the lower half takes the mask off
again. Hence the third components share the products at degree `t` (`triple_generation`).
-/

namespace SclRs

structure ShamirTriple (F : Type) where
  a : ShamirSS F
  b : ShamirSS F
  mult : ShamirSS F
deriving DecidableEq

section
variable {S V Threshold : Type} [LinearShare S V Threshold]

def Vector.addShares (constants : List V) (shares : List S) : Except VectorError (List S) :=
  if constants.length ≠ shares.length then
    .error (.incompatibleDimension constants.length shares.length)
  else .ok ((shares.zip constants).map fun (share, constant) => LinearShare.addConst share constant)

end

/-! ### Loops over zipped lists -/

theorem allM_of_forall {α : Type} {l : List α} {p : α → Option Bool} (h : ∀ x ∈ l, p x = some true) :
    l.allM p = some true := by
  induction l with
  | nil => rfl
  | cons x l ih =>
    rw [List.allM, h x List.mem_cons_self]
    exact ih fun y hy => h y (List.mem_cons_of_mem _ hy)

theorem zip_map₃ {α β γ δ : Type} (l : List α) (f : α → β) (g : α → γ) (h : α → δ) :
    ((l.map f).zip (l.map g)).zip (l.map h) = l.map fun x => ((f x, g x), h x) := by
  rw [List.zip_map', List.zip_map']

structure PassiveTriple (F : Type) where
  aShares : List (ShamirSS F)
  bShares : List (ShamirSS F)
  doubleShares : List (DoubleShare F)
  parties : List PartyId
  king : PartyId

namespace PassiveTriple

section
variable {F : Type}

/-- The check of a pair of factors and their double share, for `n` parties. -/
def admits (checks : Bool) (n : Nat) (x : (ShamirSS F × ShamirSS F) × DoubleShare F) : Option Bool :=
  let t := x.2.degree
  if x.1.1.degree ≠ t ∨ x.1.2.degree ≠ t then some false
  else do return decide ((← usizeMul checks 2 t) < n)

def new (checks : Bool) (king : PartyId) (parties : List PartyId) (aShares bShares : List (ShamirSS F))
    (doubleShares : List (DoubleShare F)) : Option (Except (ProtocolError F) (PassiveTriple F)) :=
  let nTriples := aShares.length
  if nTriples = 0 ∨ bShares.length ≠ nTriples ∨ doubleShares.length ≠ nTriples ∨ king ∉ parties then
    some (.error .input)
  else do
    if ← ((aShares.zip bShares).zip doubleShares).allM (admits checks parties.length) then
      return .ok ⟨aShares, bShares, doubleShares, parties.insertionSort (· ≤ ·), king⟩
    else return .error .input

variable [DecidableEq F] [FieldOps F] [FromU64 F] [Abbreviate F] (shareCodec : Postcard (ShamirSS F))
  (codec : Postcard F) (checks : Bool) (me : PartyId)

/-- The product of a pair of factors, masked at degree `2 * t`. -/
def maskProduct (x : (ShamirSS F × ShamirSS F) × DoubleShare F) : Option (ShamirSS F) := do
  let product ← ShamirSS.mulShare checks x.1.1 x.1.2
  LinearShare.add checks product x.2.share2t

def run (protocol : PassiveTriple F) : Proto F (List (ShamirTriple F)) := do
  let dVec ← Proto.ofOption
    (((protocol.aShares.zip protocol.bShares).zip protocol.doubleShares).mapM (maskProduct checks))
  let d ← (⟨protocol.king, protocol.parties, dVec⟩ : BatchedPassiveOpenToKing F).execute shareCodec codec
    checks me
  let rT := protocol.doubleShares.map fun double => double.shareT
  let cShares ← Proto.ofShare .vector (Vector.addShares d (rT.map LinearShare.neg))
  return (protocol.aShares.zip (protocol.bShares.zip cShares)).map fun (a, (b, c)) => ⟨a, b, c⟩

def execute (protocol : PassiveTriple F) : Proto F (List (ShamirTriple F)) :=
  Proto.execute "PassiveShamirTriple" (protocol.run shareCodec codec checks me)

def party (king : PartyId) (parties : List PartyId) (aShares bShares : List (ShamirSS F))
    (doubleShares : List (DoubleShare F)) : Proto F (List (ShamirTriple F)) := do
  let protocol ← Proto.ofOption (new checks king parties aShares bShares doubleShares)
  let protocol ← Proto.ofResult protocol
  protocol.execute shareCodec codec checks me

end

/-! ### A batch -/

section
variable {F K : Type} [DecidableEq F] [FieldOps F] [FromU64 F] [Field K] [LawfulField F K]

/-- What the parties hold of a pair of factors: their sharings, and the two sharings of a mask. -/
structure Factors (F : Type) {K : Type} [RingOps F] [CommRing K] [LawfulRing F K] [FromU64 F]
    (checks : Bool) (parties : List PartyId) (t : Nat) where
  a : PartyId → ShamirSS F
  b : PartyId → ShamirSS F
  double : PartyId → DoubleShare F
  aSecret : K
  bSecret : K
  mask : K
  shared_a : ShamirSS.SharedBy checks parties t a aSecret
  shared_b : ShamirSS.SharedBy checks parties t b bSecret
  shared_t : ShamirSS.SharedBy checks parties t (fun p => (double p).shareT) mask
  shared_2t : ShamirSS.SharedBy checks parties (2 * t) (fun p => (double p).share2t) mask

variable {checks : Bool} {parties list : List PartyId} {t : Nat} {me king : PartyId}

omit [DecidableEq F] in
theorem Factors.admits (f : Factors F checks parties t) (hme : me ∈ parties)
    (ht : 2 * t < parties.length) (hsize : parties.length < 2 ^ 64) :
    PassiveTriple.admits checks parties.length ((f.a me, f.b me), f.double me) = some true := by
  have hdegree : (f.double me).degree = t := f.shared_t.degree hme
  rw [PassiveTriple.admits, hdegree, f.shared_a.degree hme, f.shared_b.degree hme, if_neg (by simp),
    usizeMul_of_lt (by omega)]
  exact congrArg some (decide_eq_true ht)

omit [DecidableEq F] in
theorem new_eq {batch : List (Factors F checks parties t)} (hbatch : batch ≠ []) (hme : me ∈ parties)
    (hking : king ∈ parties) (hlist : list.Perm parties) (ht : 2 * t < parties.length)
    (hsize : parties.length < 2 ^ 64) :
    new checks king list (batch.map (·.a me)) (batch.map (·.b me)) (batch.map (·.double me)) =
      some (.ok ⟨batch.map (·.a me), batch.map (·.b me), batch.map (·.double me),
        list.insertionSort (· ≤ ·), king⟩) := by
  have hall : (((batch.map (·.a me)).zip (batch.map (·.b me))).zip (batch.map (·.double me))).allM
      (PassiveTriple.admits checks list.length) = some true := by
    rw [zip_map₃, hlist.length_eq]
    exact allM_of_forall (List.forall_mem_map.mpr fun f _ => f.admits hme ht hsize)
  rw [new, if_neg (by simp [hbatch, hlist.mem_iff, hking]), hall]
  rfl

variable [LawfulFromU64 F]

open LawfulRing

/-- **One pair of factors**: the masked product opens, and the lower half pulls it back. -/
theorem Factors.exists_opened (f : Factors F checks parties t) (ht : 2 * t < parties.length)
    (hsize : parties.length < 2 ^ 64) (hpoints : ShamirSS.DistinctPoints F checks parties) :
    ∃ (d : PartyId → ShamirSS F) (dOpen : F),
      (∀ p ∈ parties, maskProduct checks ((f.a p, f.b p), f.double p) = some (d p)) ∧
      (∀ senders : List PartyId, senders.Perm parties →
        LinearShare.secretFromShares checks (senders.map d) senders = some (.ok dOpen)) ∧
      ShamirSS.SharedBy checks parties t (fun p => (f.double p).shareT.neg.addConst dOpen)
        (f.aSecret * f.bSecret) := by
  obtain ⟨product, hproduct, hshared⟩ := f.shared_a.mul f.shared_b (by omega)
  rw [← two_mul] at hshared
  obtain ⟨d, hd, hmasked⟩ := hshared.add f.shared_2t
  obtain ⟨dOpen, hvalid, hval, hopens⟩ := hmasked.opens hpoints ht hsize
  refine ⟨d, dOpen, fun p hp => ?_, hopens, ?_⟩
  · rw [maskProduct, hproduct p hp]
    exact hd p hp
  · have hpulled := f.shared_t.neg.addConst hvalid
    rwa [hval, neg_add_cancel_comm_assoc] at hpulled

/-! ### All parties -/

variable [Abbreviate F] {shareCodec : Postcard (ShamirSS F)} {codec : Postcard F}
  {batch : List (Factors F checks parties t)} {d : Factors F checks parties t → PartyId → ShamirSS F}
  {dOpen : Factors F checks parties t → F}

omit [LawfulFromU64 F] in
theorem party_leads (hbatch : batch ≠ []) (hnodup : parties.Nodup) (hme : me ∈ parties)
    (hking : king ∈ parties) (hlist : list.Perm parties) (ht : 2 * t < parties.length)
    (hsize : parties.length < 2 ^ 64)
    (hd : ∀ f, ∀ p ∈ parties, maskProduct checks ((f.a p, f.b p), f.double p) = some (d f p))
    (hopens : ∀ (f) (senders : List PartyId), senders.Perm parties →
      LinearShare.secretFromShares checks (senders.map (d f)) senders = some (.ok (dOpen f))) :
    (party shareCodec codec checks me king list (batch.map (·.a me)) (batch.map (·.b me))
      (batch.map (·.double me))).Leads
      (BatchedPassiveOpenToKing.kingScript shareCodec codec parties king
        (fun p => (batch.map fun f => (d f, dOpen f)).map fun x => x.1 p)
        ((batch.map fun f => (d f, dOpen f)).map Prod.snd)) parties NetState.anyone me .start
      (· = batch.map fun f => ⟨f.a me, f.b me, (f.double me).shareT.neg.addConst (dOpen f)⟩)
      (BatchedPassiveOpenToKing.opened parties king me) := by
  have hmasks : (((batch.map (·.a me)).zip (batch.map (·.b me))).zip (batch.map (·.double me))).mapM
      (maskProduct checks) = some ((batch.map fun f => (d f, dOpen f)).map fun x => x.1 me) := by
    rw [zip_map₃, List.mapM_map, List.map_map]
    exact Matrix.mapM_eq_map fun f _ => hd f me hme
  have hadd : Vector.addShares ((batch.map fun f => (d f, dOpen f)).map Prod.snd)
      (((batch.map (·.double me)).map fun double => double.shareT).map LinearShare.neg) =
      .ok (batch.map fun f => (f.double me).shareT.neg.addConst (dOpen f)) := by
    rw [Vector.addShares, if_neg (by simp), List.map_map, List.map_map, List.map_map, List.zip_map',
      List.map_map]
    rfl
  have hsorted : (list.insertionSort (· ≤ ·)).Perm parties := (List.perm_insertionSort _ _).trans hlist
  refine (Proto.leads_ofOption (new_eq hbatch hme hking hlist ht hsize)).bind ?_
  rintro _ rfl
  refine (Proto.leads_ofResult rfl).bind ?_
  rintro _ rfl
  refine Proto.Leads.execute ?_
  rw [run]
  refine (Proto.leads_ofOption hmasks).bind ?_
  rintro _ rfl
  refine (BatchedPassiveOpenToKing.execute_leads hnodup hsorted hking hme
    (List.forall_mem_map.mpr fun f _ => hopens f _ hsorted)).bind ?_
  rintro _ rfl
  refine (Proto.leads_ofShare hadd).bind ?_
  rintro _ rfl
  refine Proto.leads_pure ?_
  rw [List.zip_map', List.zip_map', List.map_map]
  rfl

def net (shareCodec : Postcard (ShamirSS F)) (codec : Postcard F) (checks : Bool) (king : PartyId)
    (lists : PartyId → List PartyId) (aShares bShares : PartyId → List (ShamirSS F))
    (doubleShares : PartyId → List (DoubleShare F)) :
    NetState (Except (ProtocolError F) (List (ShamirTriple F))) :=
  NetState.init fun p =>
    (party shareCodec codec checks p king (lists p) (aShares p) (bShares p) (doubleShares p)).run

/-- **Triple generation**: every schedule ends with the parties' shares of the factors and of their
products. -/
theorem triple_generation {lists : PartyId → List PartyId} (hbatch : batch ≠ []) (hking : king ∈ parties)
    (hlists : ∀ p ∈ parties, (lists p).Perm parties) (ht : 2 * t < parties.length)
    (hsize : parties.length < 2 ^ 64) (hpoints : ShamirSS.DistinctPoints F checks parties) :
    ∃ c : Factors F checks parties t → PartyId → ShamirSS F,
      (net shareCodec codec checks king lists (fun p => batch.map (·.a p)) (fun p => batch.map (·.b p))
        fun p => batch.map (·.double p)).Finishes parties
          (fun p => .ok (batch.map fun f => ⟨f.a p, f.b p, c f p⟩)) ∧
        ∀ f ∈ batch, ShamirSS.SharedBy checks parties t (c f) (f.aSecret * f.bSecret) := by
  choose d dOpen hd hopens hshared using fun f : Factors F checks parties t =>
    f.exists_opened ht hsize hpoints
  refine ⟨fun f p => (f.double p).shareT.neg.addConst (dOpen f), ?_, fun f _ => hshared f⟩
  exact NetState.finishes_of_follows fun p hp =>
    BatchedPassiveOpenToKing.follows hpoints.nodup hp
      (party_leads hbatch hpoints.nodup hp hking (hlists p hp) ht hsize hd hopens)

end

end PassiveTriple

/-! ### Runs over one field -/

namespace Mersenne61

def pointOf (p : PartyId) : Mersenne61 := if p = 0 then ⟨1⟩ else if p = 1 then ⟨2⟩ else ⟨3⟩

theorem encodeParty_pointOf : ∀ p ∈ [0, 1, 2], ShamirSS.encodeParty true p = some (pointOf p) := by
  decide +kernel

def digit (d : Fin 10) : Mersenne61 := ⟨d.val.toUInt64⟩

theorem canonical_digit (d : Fin 10) : (digit d).Canonical := by
  revert d
  decide

/-- The shares of `c` on a line. -/
def line (c : Mersenne61) (slope : Fin 10) (t : Nat) (p : PartyId) : ShamirSS Mersenne61 :=
  ⟨RingOps.add c (RingOps.mul (digit slope) (pointOf p)), t⟩

theorem sharedBy_line {c : Mersenne61} {t : Nat} (ht : 0 < t) (hc : c.Canonical) (slope : Fin 10) :
    ShamirSS.SharedBy true [0, 1, 2] t (line c slope t) (LawfulRing.val c) :=
  ShamirSS.sharedBy_line ht hc (canonical_digit slope) encodeParty_pointOf

theorem sharedBy_line_one (c slope : Fin 10) :
    ShamirSS.SharedBy true [0, 1, 2] 1 (line (digit c) slope 1) (LawfulRing.val (digit c)) :=
  sharedBy_line Nat.one_pos (canonical_digit c) slope

theorem sharedBy_line_two (c slope : Fin 10) :
    ShamirSS.SharedBy true [0, 1, 2] (2 * 1) (line (digit c) slope (2 * 1)) (LawfulRing.val (digit c)) :=
  sharedBy_line Nat.two_pos (canonical_digit c) slope

theorem sharedBy_product (a b slope : Fin 10) :
    ShamirSS.SharedBy true [0, 1, 2] 1 (line (RingOps.mul (digit a) (digit b)) slope 1)
      (LawfulRing.val (digit a) * LawfulRing.val (digit b)) := by
  have ha : LawfulRing.Valid (digit a) := canonical_digit a
  have hb : LawfulRing.Valid (digit b) := canonical_digit b
  rw [← LawfulRing.val_mul ha hb]
  exact sharedBy_line Nat.one_pos (LawfulRing.valid_mul ha hb) slope

end Mersenne61

namespace PassiveTriple

-- by name, so that the definitions that hold these sharings hold no proof of their own
theorem sharedBy_five (parties : List PartyId) (t : Nat)
    (hpoints : ∀ p ∈ parties, ∃ α : Mersenne61, ShamirSS.encodeParty true p = some α) :
    ShamirSS.SharedBy true parties t (fun _ => (⟨⟨5⟩, t⟩ : ShamirSS Mersenne61))
      (LawfulRing.val (⟨5⟩ : Mersenne61)) :=
  ShamirSS.sharedBy_const (show Mersenne61.Canonical _ by decide) hpoints

theorem sharedBy_six (parties : List PartyId) (t : Nat)
    (hpoints : ∀ p ∈ parties, ∃ α : Mersenne61, ShamirSS.encodeParty true p = some α) :
    ShamirSS.SharedBy true parties t (fun _ => (⟨⟨6⟩, t⟩ : ShamirSS Mersenne61))
      (LawfulRing.val (⟨6⟩ : Mersenne61)) :=
  ShamirSS.sharedBy_const (show Mersenne61.Canonical _ by decide) hpoints

theorem sharedBy_seven (parties : List PartyId) (t : Nat)
    (hpoints : ∀ p ∈ parties, ∃ α : Mersenne61, ShamirSS.encodeParty true p = some α) :
    ShamirSS.SharedBy true parties t (fun _ => (⟨⟨7⟩, t⟩ : ShamirSS Mersenne61))
      (LawfulRing.val (⟨7⟩ : Mersenne61)) :=
  ShamirSS.sharedBy_const (show Mersenne61.Canonical _ by decide) hpoints

/-- Everybody holds 5, 6 and the mask 7. -/
def fiveTimesSix (parties : List PartyId) (t : Nat)
    (hpoints : ∀ p ∈ parties, ∃ α : Mersenne61, ShamirSS.encodeParty true p = some α) :
    Factors Mersenne61 true parties t where
  a _ := ⟨⟨5⟩, t⟩
  b _ := ⟨⟨6⟩, t⟩
  double _ := ⟨⟨⟨7⟩, t⟩, ⟨⟨7⟩, 2 * t⟩⟩
  aSecret := _
  bSecret := _
  mask := _
  shared_a := sharedBy_five parties t hpoints
  shared_b := sharedBy_six parties t hpoints
  shared_t := sharedBy_seven parties t hpoints
  shared_2t := sharedBy_seven parties (2 * t) hpoints

/-- Three parties hold the factors `a` and `b` and a mask on lines with these slopes. -/
def onLines (a b mask slope slope' : Fin 10) : Factors Mersenne61 true [0, 1, 2] 1 where
  a := Mersenne61.line (.digit a) slope 1
  b := Mersenne61.line (.digit b) slope' 1
  double p := ⟨Mersenne61.line (.digit mask) slope 1 p, Mersenne61.line (.digit mask) slope' (2 * 1) p⟩
  aSecret := _
  bSecret := _
  mask := _
  shared_a := Mersenne61.sharedBy_line_one a slope
  shared_b := Mersenne61.sharedBy_line_one b slope'
  shared_t := Mersenne61.sharedBy_line_one mask slope
  shared_2t := Mersenne61.sharedBy_line_two mask slope'

theorem triple_generation_three :
    ∃ c : Factors Mersenne61 true [0, 1, 2] 1 → PartyId → ShamirSS Mersenne61,
      (net (.ofCodec (ShamirSS.codec Mersenne61.codec)) (.ofCodec Mersenne61.codec) true 1
        (fun p => if p = 1 then [2, 1, 0] else [0, 1, 2])
        (fun p => [onLines 5 6 7 2 3, onLines 9 2 3 4 1].map (·.a p))
        (fun p => [onLines 5 6 7 2 3, onLines 9 2 3 4 1].map (·.b p))
        fun p => [onLines 5 6 7 2 3, onLines 9 2 3 4 1].map (·.double p)).Finishes [0, 1, 2]
          (fun p => .ok ([onLines 5 6 7 2 3, onLines 9 2 3 4 1].map fun f => ⟨f.a p, f.b p, c f p⟩)) ∧
        ∀ f ∈ [onLines 5 6 7 2 3, onLines 9 2 3 4 1],
          ShamirSS.SharedBy true [0, 1, 2] 1 (c f) (f.aSecret * f.bSecret) :=
  triple_generation (by simp) (by decide) (by decide) (by decide) (by decide)
    ⟨[1, 2, 3].map FromU64.fromU64, rfl, by decide +kernel⟩

theorem encodeParty_colliding : ∀ p ∈ [0, mersenneModulus],
    ∃ α : Mersenne61, ShamirSS.encodeParty true p = some α := by
  simp [ShamirSS.encodeParty, usizeAdd, mersenneModulus]

/-- The other party sends its share to the king, party 0, which cannot open the sharing. -/
def collidingSchedule : List Act :=
  [.goes mersenneModulus, .goes mersenneModulus, .goes mersenneModulus, .goes 0, .goes 0,
    .hears 0 mersenneModulus, .goes 0, .goes 0]

/-- **Parties whose points collide** do not generate triples. -/
theorem triple_colliding : [0, mersenneModulus].Nodup ∧
    ¬ ∃ c : Factors Mersenne61 true [0, mersenneModulus] 0 → PartyId → ShamirSS Mersenne61,
      (net (.ofCodec (ShamirSS.codec Mersenne61.codec)) (.ofCodec Mersenne61.codec) true 0
        (fun _ => [0, mersenneModulus])
        (fun p => [fiveTimesSix [0, mersenneModulus] 0 encodeParty_colliding].map (·.a p))
        (fun p => [fiveTimesSix [0, mersenneModulus] 0 encodeParty_colliding].map (·.b p))
        fun p => [fiveTimesSix [0, mersenneModulus] 0 encodeParty_colliding].map (·.double p)).Finishes
          [0, mersenneModulus] (fun p => .ok
            ([fiveTimesSix [0, mersenneModulus] 0 encodeParty_colliding].map
              fun f => ⟨f.a p, f.b p, c f p⟩)) := by
  refine ⟨by decide, fun ⟨c, h⟩ => ?_⟩
  have hrun : ((net (.ofCodec (ShamirSS.codec Mersenne61.codec)) (.ofCodec Mersenne61.codec) true 0
      (fun _ => [0, mersenneModulus]) (fun _ => [⟨⟨5⟩, 0⟩]) (fun _ => [⟨⟨6⟩, 0⟩])
      (fun _ => [⟨⟨⟨7⟩, 0⟩, ⟨⟨7⟩, 0⟩⟩])).run [0, mersenneModulus] collidingSchedule).map
      (fun t => (t.progs 0).result?.map Except.toOption) = some (some none) := by
    decide +kernel
  exact h.not_error List.mem_cons_self hrun

end PassiveTriple

end SclRs
