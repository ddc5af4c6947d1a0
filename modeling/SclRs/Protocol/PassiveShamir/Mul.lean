import SclRs.Protocol.PassiveShamir.Triple

/-!
# Multiplication

`protocol/passive_shamir/mul.rs`: with a triple `[a], [b], [a * b]` the parties open `d = x - a` and
`e = y - b` and add `d * [b] + e * [a] + d * e` to the triple's product. A batch opens all masked values
together, those of the `i`-th product at the positions `2 * i` and `2 * i + 1` (`getElem?_flatMap_pair`).
-/

namespace SclRs

structure PassiveShamirMul (F : Type) where
  xShares : List (ShamirSS F)
  yShares : List (ShamirSS F)
  triples : List (ShamirTriple F)
  parties : List PartyId
  king : PartyId

namespace PassiveShamirMul

section
variable {F : Type}

/-- The check of the degrees of a pair of operands and their triple, for `n` parties. -/
def admits (n : Nat) (x : (ShamirSS F × ShamirSS F) × ShamirTriple F) : Bool :=
  let t := x.1.1.degree
  x.1.2.degree = t && x.2.a.degree = t && x.2.b.degree = t && x.2.mult.degree = t && t < n

def new (king : PartyId) (parties : List PartyId) (xShares yShares : List (ShamirSS F))
    (triples : List (ShamirTriple F)) : Except (ProtocolError F) (PassiveShamirMul F) :=
  let nProducts := xShares.length
  if nProducts = 0 ∨ yShares.length ≠ nProducts ∨ triples.length ≠ nProducts ∨ king ∉ parties then
    .error .input
  else if ((xShares.zip yShares).zip triples).all (admits parties.length) then
    .ok ⟨xShares, yShares, triples, parties.insertionSort (· ≤ ·), king⟩
  else .error .input

variable [DecidableEq F] [FieldOps F] [FromU64 F] [Abbreviate F] (shareCodec : Postcard (ShamirSS F))
  (codec : Postcard F) (checks : Bool) (me : PartyId)

/-- Both operands, masked with their triple. -/
def mask (x : (ShamirSS F × ShamirSS F) × ShamirTriple F) : Option (List (ShamirSS F)) := do
  let d ← LinearShare.sub checks x.1.1 x.2.a
  let e ← LinearShare.sub checks x.1.2 x.2.b
  return [d, e]

/-- The product of operands whose masked values are `d` and `e`. -/
def product (d e : F) (triple : ShamirTriple F) : Option (ShamirSS F) := do
  let c ← LinearShare.add checks triple.mult (LinearShare.mulConst triple.b d)
  let c ← LinearShare.add checks c (LinearShare.mulConst triple.a e)
  return LinearShare.addConst c (RingOps.mul d e)

/-- The product with number `i`; `2 * i + 1` is below the length of a vector. -/
def productAt (opened : List F) (x : ShamirTriple F × Nat) : Option (ShamirSS F) := do
  product checks (← opened[2 * x.2]?) (← opened[2 * x.2 + 1]?) x.1

def run (protocol : PassiveShamirMul F) : Proto F (List (ShamirSS F)) := do
  let masked ← Proto.ofOption
    (((protocol.xShares.zip protocol.yShares).zip protocol.triples).mapM (mask checks))
  let opened ← (⟨protocol.king, protocol.parties, masked.flatten⟩ : BatchedPassiveOpenToKing F).execute
    shareCodec codec checks me
  Proto.ofOption (protocol.triples.zipIdx.mapM (productAt checks opened))

def execute (protocol : PassiveShamirMul F) : Proto F (List (ShamirSS F)) :=
  Proto.execute "PassiveShamirMul" (protocol.run shareCodec codec checks me)

def party (king : PartyId) (parties : List PartyId) (xShares yShares : List (ShamirSS F))
    (triples : List (ShamirTriple F)) : Proto F (List (ShamirSS F)) := do
  let protocol ← Proto.ofResult (new king parties xShares yShares triples)
  protocol.execute shareCodec codec checks me

end

/-! ### A batch -/

section
variable {α β : Type} {f g : α → β} {l : List α} {i : Nat} {a : α}

theorem getElem?_flatMap_pair (h : l[i]? = some a) :
    (l.flatMap fun a => [f a, g a])[2 * i]? = some (f a) ∧
      (l.flatMap fun a => [f a, g a])[2 * i + 1]? = some (g a) := by
  induction l generalizing i with
  | nil => cases h
  | cons b l ih =>
    rw [List.flatMap_cons]
    cases i with
    | zero =>
      obtain rfl := Option.some.inj h
      exact ⟨rfl, rfl⟩
    | succ i => exact ih h

theorem mapM_productAt {F : Type} [DecidableEq F] [FieldOps F] [FromU64 F] {checks : Bool} {d e : α → F}
    {triple : α → ShamirTriple F} {z : α → ShamirSS F}
    (h : ∀ a ∈ l, product checks (d a) (e a) (triple a) = some (z a)) :
    (l.map triple).zipIdx.mapM (productAt checks (l.flatMap fun a => [d a, e a])) = some (l.map z) := by
  have hat : ∀ x ∈ l.zipIdx, (productAt checks (l.flatMap fun a => [d a, e a]) ∘ Prod.map triple id) x =
      some (z x.1) := by
    rintro ⟨a, i⟩ hx
    have hx := List.mk_mem_zipIdx_iff_getElem?.mp hx
    obtain ⟨hd, he⟩ := getElem?_flatMap_pair (f := d) (g := e) hx
    rw [Function.comp_apply, Prod.map_apply, productAt]
    simp only [id, hd, he, Option.bind_eq_bind, Option.bind_some]
    exact h a (List.mem_of_getElem? hx)
  rw [List.zipIdx_map, List.mapM_map, Matrix.mapM_eq_map hat, ← Function.comp_def, ← List.map_map,
    List.zipIdx_map_fst]

end

section
variable {F K : Type} [DecidableEq F] [FieldOps F] [FromU64 F] [Field K] [LawfulField F K]

/-- What the parties hold of a pair of operands and the triple for their product. -/
structure Operands (F : Type) {K : Type} [RingOps F] [CommRing K] [LawfulRing F K] [FromU64 F]
    (checks : Bool) (parties : List PartyId) (t : Nat) where
  x : PartyId → ShamirSS F
  y : PartyId → ShamirSS F
  triple : PartyId → ShamirTriple F
  xSecret : K
  ySecret : K
  aSecret : K
  bSecret : K
  shared_x : ShamirSS.SharedBy checks parties t x xSecret
  shared_y : ShamirSS.SharedBy checks parties t y ySecret
  shared_a : ShamirSS.SharedBy checks parties t (fun p => (triple p).a) aSecret
  shared_b : ShamirSS.SharedBy checks parties t (fun p => (triple p).b) bSecret
  shared_mult : ShamirSS.SharedBy checks parties t (fun p => (triple p).mult) (aSecret * bSecret)

variable {checks : Bool} {parties list : List PartyId} {t : Nat} {me king : PartyId}

omit [DecidableEq F] in
theorem Operands.admits (f : Operands F checks parties t) (hme : me ∈ parties)
    (ht : t < parties.length) :
    PassiveShamirMul.admits parties.length ((f.x me, f.y me), f.triple me) = true := by
  rw [PassiveShamirMul.admits, f.shared_x.degree hme, f.shared_y.degree hme, f.shared_a.degree hme,
    f.shared_b.degree hme, f.shared_mult.degree hme]
  simp [ht]

omit [DecidableEq F] in
theorem new_eq {batch : List (Operands F checks parties t)} (hbatch : batch ≠ []) (hme : me ∈ parties)
    (hking : king ∈ parties) (hlist : list.Perm parties) (ht : t < parties.length) :
    new king list (batch.map (·.x me)) (batch.map (·.y me)) (batch.map (·.triple me)) =
      .ok ⟨batch.map (·.x me), batch.map (·.y me), batch.map (·.triple me),
        list.insertionSort (· ≤ ·), king⟩ := by
  have hall : (((batch.map (·.x me)).zip (batch.map (·.y me))).zip (batch.map (·.triple me))).all
      (PassiveShamirMul.admits list.length) = true := by
    rw [zip_map₃, hlist.length_eq, List.all_eq_true]
    exact List.forall_mem_map.mpr fun f _ => f.admits hme ht
  rw [new, if_neg (by simp [hbatch, hlist.mem_iff, hking]), if_pos hall]

variable [LawfulFromU64 F]

open LawfulRing

/-- **One product**: both masked operands open, and what they are added to shares the product. -/
theorem Operands.exists_opened (f : Operands F checks parties t) (ht : t < parties.length)
    (hsize : parties.length < 2 ^ 64) (hpoints : ShamirSS.DistinctPoints F checks parties) :
    ∃ (d e : PartyId → ShamirSS F) (dOpen eOpen : F) (z : PartyId → ShamirSS F),
      (∀ p ∈ parties, mask checks ((f.x p, f.y p), f.triple p) = some [d p, e p]) ∧
      (∀ senders : List PartyId, senders.Perm parties →
        LinearShare.secretFromShares checks (senders.map d) senders = some (.ok dOpen)) ∧
      (∀ senders : List PartyId, senders.Perm parties →
        LinearShare.secretFromShares checks (senders.map e) senders = some (.ok eOpen)) ∧
      (∀ p ∈ parties, product checks dOpen eOpen (f.triple p) = some (z p)) ∧
      ShamirSS.SharedBy checks parties t z (f.xSecret * f.ySecret) := by
  obtain ⟨d, hd, hdShared⟩ := f.shared_x.sub f.shared_a
  obtain ⟨e, he, heShared⟩ := f.shared_y.sub f.shared_b
  obtain ⟨dOpen, hdValid, hdVal, hdOpens⟩ := hdShared.opens hpoints ht hsize
  obtain ⟨eOpen, heValid, heVal, heOpens⟩ := heShared.opens hpoints ht hsize
  obtain ⟨c, hc, hcShared⟩ := f.shared_mult.add (f.shared_b.mulConst hdValid)
  obtain ⟨c', hc', hcShared'⟩ := hcShared.add (f.shared_a.mulConst heValid)
  have hproduct := hcShared'.addConst (valid_mul hdValid heValid)
  have hval : f.aSecret * f.bSecret + f.bSecret * val dOpen + f.aSecret * val eOpen +
      val (RingOps.mul dOpen eOpen) = f.xSecret * f.ySecret := by
    rw [val_mul hdValid heValid, hdVal, heVal]
    ring
  rw [hval] at hproduct
  refine ⟨d, e, dOpen, eOpen, _, fun p hp => ?_, hdOpens, heOpens, fun p hp => ?_, hproduct⟩
  · have hd : LinearShare.sub checks (f.x p) (f.triple p).a = some (d p) := hd p hp
    have he : LinearShare.sub checks (f.y p) (f.triple p).b = some (e p) := he p hp
    rw [mask, hd, he]
    rfl
  · have hc : LinearShare.add checks (f.triple p).mult (LinearShare.mulConst (f.triple p).b dOpen) =
        some (c p) := hc p hp
    have hc' : LinearShare.add checks (c p) (LinearShare.mulConst (f.triple p).a eOpen) =
        some (c' p) := hc' p hp
    rw [product, hc]
    simp only [Option.bind_eq_bind, Option.bind_some, hc']
    rfl

/-! ### All parties -/

variable [Abbreviate F] {shareCodec : Postcard (ShamirSS F)} {codec : Postcard F}
  {batch : List (Operands F checks parties t)}
  {d e z : Operands F checks parties t → PartyId → ShamirSS F}
  {dOpen eOpen : Operands F checks parties t → F}

omit [LawfulFromU64 F] in
theorem party_leads (hbatch : batch ≠ []) (hnodup : parties.Nodup) (hme : me ∈ parties)
    (hking : king ∈ parties) (hlist : list.Perm parties) (ht : t < parties.length)
    (hmask : ∀ f, ∀ p ∈ parties, mask checks ((f.x p, f.y p), f.triple p) = some [d f p, e f p])
    (hdOpens : ∀ (f) (senders : List PartyId), senders.Perm parties →
      LinearShare.secretFromShares checks (senders.map (d f)) senders = some (.ok (dOpen f)))
    (heOpens : ∀ (f) (senders : List PartyId), senders.Perm parties →
      LinearShare.secretFromShares checks (senders.map (e f)) senders = some (.ok (eOpen f)))
    (hproduct : ∀ f, ∀ p ∈ parties, product checks (dOpen f) (eOpen f) (f.triple p) = some (z f p)) :
    (party shareCodec codec checks me king list (batch.map (·.x me)) (batch.map (·.y me))
      (batch.map (·.triple me))).Leads
      (BatchedPassiveOpenToKing.kingScript shareCodec codec parties king
        (fun p => (batch.flatMap fun f => [(d f, dOpen f), (e f, eOpen f)]).map fun x => x.1 p)
        ((batch.flatMap fun f => [(d f, dOpen f), (e f, eOpen f)]).map Prod.snd)) parties
      NetState.anyone me .start (· = batch.map (z · me))
      (BatchedPassiveOpenToKing.opened parties king me) := by
  have hsorted : (list.insertionSort (· ≤ ·)).Perm parties := (List.perm_insertionSort _ _).trans hlist
  have hmasks : (((batch.map (·.x me)).zip (batch.map (·.y me))).zip (batch.map (·.triple me))).mapM
      (mask checks) = some (batch.map fun f => [d f me, e f me]) := by
    rw [zip_map₃, List.mapM_map]
    exact Matrix.mapM_eq_map fun f _ => hmask f me hme
  have hflatten : (batch.map fun f => [d f me, e f me]).flatten =
      (batch.flatMap fun f => [(d f, dOpen f), (e f, eOpen f)]).map fun x => x.1 me := by
    rw [List.map_flatMap, List.flatMap_def]
    rfl
  have hsecrets : ∀ x ∈ batch.flatMap fun f => [(d f, dOpen f), (e f, eOpen f)],
      LinearShare.secretFromShares checks ((list.insertionSort (· ≤ ·)).map x.1)
        (list.insertionSort (· ≤ ·)) = some (.ok x.2) := by
    intro x hx
    obtain ⟨f, -, hx⟩ := List.mem_flatMap.mp hx
    rcases List.mem_pair.mp hx with rfl | rfl
    exacts [hdOpens f _ hsorted, heOpens f _ hsorted]
  have hproducts : (batch.map (·.triple me)).zipIdx.mapM (productAt checks
      ((batch.flatMap fun f => [(d f, dOpen f), (e f, eOpen f)]).map Prod.snd)) =
      some (batch.map (z · me)) := by
    rw [List.map_flatMap]
    exact mapM_productAt fun f _ => hproduct f me hme
  refine (Proto.leads_ofResult (new_eq hbatch hme hking hlist ht)).bind ?_
  rintro _ rfl
  refine Proto.Leads.execute ?_
  rw [run]
  refine (Proto.leads_ofOption hmasks).bind ?_
  rintro _ rfl
  rw [hflatten]
  refine (BatchedPassiveOpenToKing.execute_leads hnodup hsorted hking hme hsecrets).bind ?_
  rintro _ rfl
  exact Proto.leads_ofOption hproducts

def net (shareCodec : Postcard (ShamirSS F)) (codec : Postcard F) (checks : Bool) (king : PartyId)
    (lists : PartyId → List PartyId) (xShares yShares : PartyId → List (ShamirSS F))
    (triples : PartyId → List (ShamirTriple F)) : NetState (Except (ProtocolError F) (List (ShamirSS F))) :=
  NetState.init fun p =>
    (party shareCodec codec checks p king (lists p) (xShares p) (yShares p) (triples p)).run

/-- **Beaver multiplication**: every schedule ends with the parties' shares of the products, and any
that are enough of them reconstruct these. -/
theorem beaver_multiplication {lists : PartyId → List PartyId} (hbatch : batch ≠ [])
    (hking : king ∈ parties) (hlists : ∀ p ∈ parties, (lists p).Perm parties) (ht : t < parties.length)
    (hsize : parties.length < 2 ^ 64) (hpoints : ShamirSS.DistinctPoints F checks parties) :
    ∃ z : Operands F checks parties t → PartyId → ShamirSS F,
      (net shareCodec codec checks king lists (fun p => batch.map (·.x p)) (fun p => batch.map (·.y p))
        fun p => batch.map (·.triple p)).Finishes parties (fun p => .ok (batch.map (z · p))) ∧
        ∀ f ∈ batch, ShamirSS.SharedBy checks parties t (z f) (f.xSecret * f.ySecret) ∧
          ∀ picked : List PartyId, picked.Subperm parties → t < picked.length →
            ∃ r, LinearShare.secretFromShares checks (picked.map (z f)) picked = some (.ok r) ∧
              Valid r ∧ val r = f.xSecret * f.ySecret := by
  choose d e dOpen eOpen z hmask hdOpens heOpens hproduct hshared using
    fun f : Operands F checks parties t => f.exists_opened ht hsize hpoints
  refine ⟨z, ?_, fun f _ => ⟨hshared f, fun picked hpicked henough => ?_⟩⟩
  · exact NetState.finishes_of_follows fun p hp =>
      BatchedPassiveOpenToKing.follows hpoints.nodup hp
        (party_leads hbatch hpoints.nodup hp hking (hlists p hp) ht hmask hdOpens heOpens hproduct)
  · exact (hshared f).secretFromShares hpoints hpicked henough (by omega)

end

/-! ### Runs over one field -/

/-- Everybody holds 5, 6 and the triple of 7 and 8. -/
def fiveTimesSix (parties : List PartyId) (t : Nat)
    (hpoints : ∀ p ∈ parties, ∃ α : Mersenne61, ShamirSS.encodeParty true p = some α) :
    Operands Mersenne61 true parties t where
  x _ := ⟨⟨5⟩, t⟩
  y _ := ⟨⟨6⟩, t⟩
  triple _ := ⟨⟨⟨7⟩, t⟩, ⟨⟨8⟩, t⟩, ⟨RingOps.mul ⟨7⟩ ⟨8⟩, t⟩⟩
  xSecret := _
  ySecret := _
  aSecret := _
  bSecret := _
  shared_x := PassiveTriple.sharedBy_five parties t hpoints
  shared_y := PassiveTriple.sharedBy_six parties t hpoints
  shared_a := PassiveTriple.sharedBy_seven parties t hpoints
  shared_b := ShamirSS.sharedBy_const (show Mersenne61.Canonical _ by decide) hpoints
  shared_mult := by
    have h7 : LawfulRing.Valid (⟨7⟩ : Mersenne61) := show Mersenne61.Canonical _ by decide
    have h8 : LawfulRing.Valid (⟨8⟩ : Mersenne61) := show Mersenne61.Canonical _ by decide
    rw [← LawfulRing.val_mul h7 h8]
    exact ShamirSS.sharedBy_const (LawfulRing.valid_mul h7 h8) hpoints

/-- Three parties hold the operands `x` and `y` and the triple of `a` and `b` on lines with these slopes. -/
def onLines (x y a b slope slope' : Fin 10) : Operands Mersenne61 true [0, 1, 2] 1 where
  x := Mersenne61.line (.digit x) slope 1
  y := Mersenne61.line (.digit y) slope' 1
  triple p := ⟨Mersenne61.line (.digit a) slope 1 p, Mersenne61.line (.digit b) slope' 1 p,
    Mersenne61.line (RingOps.mul (.digit a) (.digit b)) slope 1 p⟩
  xSecret := _
  ySecret := _
  aSecret := _
  bSecret := _
  shared_x := Mersenne61.sharedBy_line_one x slope
  shared_y := Mersenne61.sharedBy_line_one y slope'
  shared_a := Mersenne61.sharedBy_line_one a slope
  shared_b := Mersenne61.sharedBy_line_one b slope'
  shared_mult := Mersenne61.sharedBy_product a b slope

theorem beaver_multiplication_three :
    ∃ z : Operands Mersenne61 true [0, 1, 2] 1 → PartyId → ShamirSS Mersenne61,
      (net (.ofCodec (ShamirSS.codec Mersenne61.codec)) (.ofCodec Mersenne61.codec) true 1
        (fun p => if p = 1 then [2, 1, 0] else [0, 1, 2])
        (fun p => [onLines 5 6 7 8 2 3, onLines 9 2 3 4 5 1].map (·.x p))
        (fun p => [onLines 5 6 7 8 2 3, onLines 9 2 3 4 5 1].map (·.y p))
        fun p => [onLines 5 6 7 8 2 3, onLines 9 2 3 4 5 1].map (·.triple p)).Finishes [0, 1, 2]
          (fun p => .ok ([onLines 5 6 7 8 2 3, onLines 9 2 3 4 5 1].map (z · p))) ∧
        ∀ f ∈ [onLines 5 6 7 8 2 3, onLines 9 2 3 4 5 1],
          ShamirSS.SharedBy true [0, 1, 2] 1 (z f) (f.xSecret * f.ySecret) ∧
            ∀ picked : List PartyId, picked.Subperm [0, 1, 2] → 1 < picked.length →
              ∃ r, LinearShare.secretFromShares true (picked.map (z f)) picked = some (.ok r) ∧
                LawfulRing.Valid r ∧ LawfulRing.val r = f.xSecret * f.ySecret :=
  beaver_multiplication (by simp) (by decide) (by decide) (by decide) (by decide)
    ⟨[1, 2, 3].map FromU64.fromU64, rfl, by decide +kernel⟩

/-- **Parties whose points collide** do not multiply. -/
theorem mul_colliding : [0, mersenneModulus].Nodup ∧
    ¬ ∃ z : Operands Mersenne61 true [0, mersenneModulus] 0 → PartyId → ShamirSS Mersenne61,
      (net (.ofCodec (ShamirSS.codec Mersenne61.codec)) (.ofCodec Mersenne61.codec) true 0
        (fun _ => [0, mersenneModulus])
        (fun p => [fiveTimesSix [0, mersenneModulus] 0 PassiveTriple.encodeParty_colliding].map (·.x p))
        (fun p => [fiveTimesSix [0, mersenneModulus] 0 PassiveTriple.encodeParty_colliding].map (·.y p))
        fun p => [fiveTimesSix [0, mersenneModulus] 0
          PassiveTriple.encodeParty_colliding].map (·.triple p)).Finishes [0, mersenneModulus] (fun p =>
            .ok ([fiveTimesSix [0, mersenneModulus] 0 PassiveTriple.encodeParty_colliding].map (z · p))) := by
  refine ⟨by decide, fun ⟨z, h⟩ => ?_⟩
  have hrun : ((net (.ofCodec (ShamirSS.codec Mersenne61.codec)) (.ofCodec Mersenne61.codec) true 0
      (fun _ => [0, mersenneModulus]) (fun _ => [⟨⟨5⟩, 0⟩]) (fun _ => [⟨⟨6⟩, 0⟩])
      (fun _ => [⟨⟨⟨7⟩, 0⟩, ⟨⟨8⟩, 0⟩, ⟨RingOps.mul ⟨7⟩ ⟨8⟩, 0⟩⟩])).run [0, mersenneModulus]
      PassiveTriple.collidingSchedule).map (fun t => (t.progs 0).result?.map Except.toOption) =
      some (some none) := by
    decide +kernel
  exact h.not_error List.mem_cons_self hrun

end PassiveShamirMul

end SclRs
