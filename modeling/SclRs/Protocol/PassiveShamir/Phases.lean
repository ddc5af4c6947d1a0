import SclRs.Protocol.PassiveShamir.DoubleRandShare
import SclRs.Protocol.PassiveShamir.Mul
import SclRs.Protocol.Sequence
import SclRs.Protocol.Share.RoundTrip

/-!
# The protocols as phases

Dealing, Random, Double-Random, triple generation and multiplication name their senders, and they and the
opening leave no packet behind. So they are phases of larger protocols: `Proto.completes_bind` puts together
what is said of each here.
-/

namespace SclRs

open LawfulRing NetState

/-! ### They name their senders -/

section
variable {S V Threshold : Type} [LinearShare S V Threshold] [Abbreviate S] {codec : Postcard S}
  {checks : Bool} {rng : Nat → V} {me : PartyId}

theorem PassiveDealShr.execute_directed {protocol : PassiveDealShr S V Threshold} :
    (protocol.execute codec checks rng me).Directed := by
  refine Proto.Directed.execute ?_
  have hrecv : (do
      let pkt ← Proto.network (Prog.op (.recvFrom protocol.dealer))
      Proto.ofNetwork (pkt.pop codec) : Proto V S).Directed :=
    (Proto.directed_recvFrom _).bind fun _ => Proto.directed_ofNetwork _
  rw [run]
  split_ifs
  · cases protocol.secretInfo with
    | none => exact (Proto.directed_ofResult (.error .input)).bind fun _ => hrecv
    | some info =>
      refine Proto.Directed.bind ?_ fun _ => hrecv
      exact (Proto.directed_ofOption _).bind fun _ => (Proto.directed_ofShare _ _).bind fun _ =>
        Proto.directed_sendMany _
  · exact hrecv

theorem dealAll_directed {secret : V} {parties : List PartyId} {threshold : Threshold} :
    (dealAll codec checks me rng secret parties threshold).Directed :=
  PassiveDealShr.execute_directed.bind fun _ => Proto.directed_recvEach ..

end

section
variable {F : Type} [DecidableEq F] [FieldOps F] [FromU64 F] {codec : Postcard (ShamirSS F)} {checks : Bool}
  {rng : Nat → F} {me king : PartyId} {t : Nat} {parties : List PartyId}

theorem PassiveRandShr.party_directed : (party codec checks rng me t parties).Directed := by
  refine (Proto.directed_ofOption _).bind fun _ => (Proto.directed_ofResult _).bind fun _ => ?_
  refine Proto.Directed.execute (dealAll_directed.bind fun _ => ?_)
  exact (Proto.directed_ofOption _).bind fun _ => Proto.directed_ofShare _ _

theorem PassiveRandDoubleShr.party_directed : (party codec checks rng me t parties).Directed := by
  refine (Proto.directed_ofOption _).bind fun _ => (Proto.directed_ofResult _).bind fun _ => ?_
  refine Proto.Directed.execute (dealAll_directed.bind fun _ => ?_)
  refine (Proto.directed_ofOption _).bind fun _ => dealAll_directed.bind fun _ => ?_
  refine (Proto.directed_ofOption _).bind fun _ => (Proto.directed_ofShare _ _).bind fun _ => ?_
  refine (Proto.directed_ofOption _).bind fun _ => (Proto.directed_ofShare _ _).bind fun _ => ?_
  exact Proto.directed_ofOption _

variable [Abbreviate F] {scalars : Postcard F}

theorem BatchedPassiveOpenToKing.execute_directed {protocol : BatchedPassiveOpenToKing F} :
    (protocol.execute codec scalars checks me).Directed := by
  refine Proto.Directed.execute ?_
  rw [run]
  split_ifs
  · refine (Proto.directed_recvEach ..).bind fun _ => (Proto.directed_mapM fun i _ => ?_).bind fun _ =>
      (Proto.directed_sendEach _ _).bind fun _ => Proto.directed_pure _
    exact (Proto.directed_ofOption _).bind fun _ => (Proto.directed_ofOption _).bind fun _ =>
      Proto.directed_ofShare _ _
  · exact (Proto.directed_sendTo _ _).bind fun _ => (Proto.directed_recvFrom _).bind fun _ =>
      Proto.directed_ofNetwork _

theorem PassiveTriple.party_directed {aShares bShares : List (ShamirSS F)}
    {doubleShares : List (DoubleShare F)} :
    (party codec scalars checks me king parties aShares bShares doubleShares).Directed := by
  refine (Proto.directed_ofOption _).bind fun _ => (Proto.directed_ofResult _).bind fun _ => ?_
  refine Proto.Directed.execute ((Proto.directed_ofOption _).bind fun _ => ?_)
  exact BatchedPassiveOpenToKing.execute_directed.bind fun _ => (Proto.directed_ofShare _ _).bind fun _ =>
    Proto.directed_pure _

theorem PassiveShamirMul.party_directed {xShares yShares : List (ShamirSS F)}
    {triples : List (ShamirTriple F)} :
    (party codec scalars checks me king parties xShares yShares triples).Directed := by
  refine (Proto.directed_ofResult _).bind fun _ => ?_
  refine Proto.Directed.execute ((Proto.directed_ofOption _).bind fun _ => ?_)
  exact BatchedPassiveOpenToKing.execute_directed.bind fun _ => Proto.directed_ofOption _

end

/-! ### They leave nothing behind -/

section
variable {V α : Type} {parties : List PartyId} {x : PartyId → Proto V α} {a : PartyId → α}

theorem carries_of_dealings {S Threshold : Type} [LinearShare S V Threshold] [Abbreviate S]
    (codec : Postcard S) (dealings : List (PartyId → PartyId → S))
    (h : ∀ p ∈ parties, (x p).Leads (dealScript codec parties dealings) parties anyone p .start (· = a p)
      (dealtTo parties dealings.length)) :
    (Proto.net x).Carries parties (fun p => .ok (a p)) (dealScript codec parties dealings).packets := by
  refine carries_of_follows (fun _ => rfl) (fun link hlink => ?_) fun p hp => dealScript_follows hp (h p hp)
  by_contra hout
  exact hlink (if_neg hout)

theorem carries_of_king {F : Type} [DecidableEq F] [FieldOps F] [FromU64 F] [Abbreviate F]
    {shareCodec : Postcard (ShamirSS F)} {codec : Postcard F} {king : PartyId}
    {shares : PartyId → List (ShamirSS F)} {secrets : List F} {x : PartyId → Proto F α}
    (hnodup : parties.Nodup) (hking : king ∈ parties)
    (h : ∀ p ∈ parties, (x p).Leads (BatchedPassiveOpenToKing.kingScript shareCodec codec parties king shares
      secrets) parties anyone p .start (· = a p) (BatchedPassiveOpenToKing.opened parties king p)) :
    (Proto.net x).Carries parties (fun p => .ok (a p))
      (BatchedPassiveOpenToKing.kingScript shareCodec codec parties king shares secrets).packets := by
  refine carries_of_follows (fun _ => rfl) (fun link hlink => ?_) fun p hp =>
    BatchedPassiveOpenToKing.follows hnodup hp (h p hp)
  by_contra hout
  refine hlink ((if_neg ?_).trans (if_neg ?_))
  · rintro ⟨hrecipient, hsender⟩
    exact hout ⟨(mem_peers.mp hsender).1, hrecipient ▸ hking⟩
  · rintro ⟨hsender, hrecipient⟩
    exact hout ⟨hsender ▸ hking, (mem_peers.mp hrecipient).1⟩

end

section
variable {S V Threshold : Type} [LinearShare S V Threshold] [Abbreviate S] {codec : Postcard S}
  {checks : Bool} {parties : List PartyId} {dealer : PartyId} {threshold : Threshold}

/-- The dealer's packet to each party. -/
def dealerScript (codec : Postcard S) (parties : List PartyId) (dealer : PartyId) (dealt : PartyId → S) :
    Script where
  packets link :=
    if link.sender = dealer ∧ link.recipient ∈ parties then [Packet.labeled codec (dealt link.recipient)]
    else []
  time _ _ := 0
  unread _ := 0

theorem dealerScript_length {dealt : PartyId → S} (p q : PartyId) :
    ((dealerScript codec parties dealer dealt).packets ⟨p, q⟩).length =
      if p = dealer ∧ q ∈ parties then 1 else 0 :=
  apply_ite List.length _ _ _

theorem PassiveDealShr.follows {deal : PassiveDealShr S V Threshold} {rng : Nat → V} {me : PartyId}
    {secret : V} {dealt : PartyId → S} (hnodup : parties.Nodup) (hdealer : dealer ∈ parties)
    (hme : me ∈ parties)
    (hdeal : deal = if me = dealer then ofDealer dealer secret parties threshold else receiver dealer)
    (hshares : me = dealer → LinearShare.sharesFromSecret checks secret parties threshold rng =
      some (.ok (parties.map dealt))) :
    (deal.execute codec checks rng me).run.Follows (dealerScript codec parties dealer dealt) parties anyone me
      (· = .ok (dealt me)) (fun _ => 0) (fun _ => 0) 0 := by
  have hpacket : ∀ q ∈ parties, ((dealerScript codec parties dealer dealt).packets ⟨dealer, q⟩)[0]? =
      some (Packet.labeled codec (dealt q)) := fun q hq => congrArg (·[0]?) (if_pos ⟨rfl, hq⟩)
  by_cases hsame : me = dealer
  · subst hsame
    rw [hdeal, if_pos rfl]
    have hleads : ((ofDealer me secret parties threshold).execute codec checks rng me).Leads
        (dealerScript codec parties me dealt) parties anyone me .start (· = dealt me)
        ((Progress.start.sends parties).receives [me] 1) :=
      ofDealer_leads (hshares rfl) hnodup hme trivial (fun q hq => ⟨hpacket q hq, le_rfl⟩) (hpacket me hme)
        (Nat.zero_le 1) Nat.zero_lt_one
    refine hleads.follows (fun q => ?_) fun q => ?_
    · rw [dealerScript_length]
      simp [Progress.start, hnodup.count]
    · rw [dealerScript_length]
      simp [Progress.start, dealerScript, hme, (List.nodup_singleton me).count]
  · rw [hdeal, if_neg hsame]
    have hleads : ((receiver dealer : PassiveDealShr S V Threshold).execute codec checks rng me).Leads
        (dealerScript codec parties dealer dealt) parties anyone me .start (· = dealt me)
        (Progress.start.receives [dealer] 1) :=
      receiver_leads (Ne.symm hsame) hdealer trivial (hpacket me hme) (Nat.zero_le 1) Nat.zero_lt_one
    refine hleads.follows (fun q => ?_) fun q => ?_
    · rw [dealerScript_length]
      simp [Progress.start, hsame]
    · rw [dealerScript_length]
      simp [Progress.start, dealerScript, hme, (List.nodup_singleton dealer).count]

theorem PassiveDealShr.completes {rng : PartyId → Nat → V} {secret : V} {dealt : PartyId → S}
    (hnodup : parties.Nodup) (hdealer : dealer ∈ parties)
    (hshares : LinearShare.sharesFromSecret checks secret parties threshold (rng dealer) =
      some (.ok (parties.map dealt))) :
    (Proto.net fun p => (dealTo dealer secret parties threshold p).execute codec checks (rng p) p).Completes
      parties fun p => .ok (dealt p) := by
  have hfollows : ∀ p ∈ parties, ((dealTo dealer secret parties threshold p).execute codec checks (rng p)
      p).run.Follows (dealerScript codec parties dealer dealt) parties anyone p (· = .ok (dealt p))
      (fun _ => 0) (fun _ => 0) 0 := fun p hp => follows hnodup hdealer hp rfl fun h => h ▸ hshares
  refine completes_of_follows (fun _ => rfl) (fun link hlink => ?_) hfollows
  by_contra hout
  refine hlink (if_neg ?_)
  rintro ⟨hsender, hrecipient⟩
  exact hout ⟨hsender ▸ hdealer, hrecipient⟩

/-- Each party's share to its peers. -/
def openingScript (codec : Postcard S) (parties : List PartyId) (held : PartyId → S) : Script where
  packets link :=
    if link.sender ∈ parties ∧ link.recipient ∈ peers parties link.sender then
      [Packet.labeled codec (held link.sender)]
    else []
  time _ _ := 0
  unread _ := 0

theorem openingScript_length {held : PartyId → S} (p q : PartyId) :
    ((openingScript codec parties held).packets ⟨p, q⟩).length =
      if p ∈ parties ∧ q ∈ peers parties p then 1 else 0 :=
  apply_ite List.length _ _ _

theorem openingScript_get {held : PartyId → S} {p q : PartyId} (hp : p ∈ parties) (hq : q ∈ peers parties p) :
    ((openingScript codec parties held).packets ⟨p, q⟩)[0]? = some (Packet.labeled codec (held p)) :=
  congrArg (·[0]?) (if_pos ⟨hp, hq⟩)

theorem PassiveOpenShr.carries {held : PartyId → S} {secret : V} (hnodup : parties.Nodup)
    (hsecret : ∀ senders : List PartyId, senders.Perm parties →
      LinearShare.secretFromShares checks (senders.map held) senders = some (.ok secret)) :
    (Proto.net fun p => (⟨held p⟩ : PassiveOpenShr S).execute codec checks parties p).Carries parties
      (fun _ => .ok secret) (openingScript codec parties held).packets := by
  have hfollows : ∀ p ∈ parties, ((⟨held p⟩ : PassiveOpenShr S).execute codec checks parties p).run.Follows
      (openingScript codec parties held) parties anyone p (· = .ok secret) (fun _ => 0) (fun _ => 0) 0 := by
    intro p hp
    have hhears : HearsEach (openingScript codec parties held) parties anyone p .start
        (fun q => Packet.labeled codec (held q)) 1 := by
      refine hearsEach_last ?_ (fun q hq => ?_) fun q hq => ?_
      · rw [openingScript_length]
        simp [mem_peers]
      · rw [openingScript_length]
        obtain ⟨hq, hne⟩ := mem_peers.mp hq
        simp [mem_peers, hp, hq, Ne.symm hne, Progress.start]
      · obtain ⟨hq, hne⟩ := mem_peers.mp hq
        exact ⟨openingScript_get hq (mem_peers.mpr ⟨hp, Ne.symm hne⟩), Nat.zero_lt_one⟩
    have hleads := execute_leads hhears hnodup hp (Nat.zero_le 1)
      (fun q hq => ⟨openingScript_get hp hq, le_rfl⟩) hsecret
    refine hleads.follows (fun q => ?_) fun q => ?_
    · rw [openingScript_length]
      simp [Progress.start, (nodup_peers hnodup p).count, hp]
    · rw [openingScript_length]
      simp [Progress.start, openingScript, (nodup_peers hnodup p).count, mem_peers, hp, eq_comm]
  refine carries_of_follows (fun _ => rfl) (fun link hlink => ?_) hfollows
  by_contra hout
  refine hlink (if_neg ?_)
  rintro ⟨hsender, hrecipient⟩
  exact hout ⟨hsender, (mem_peers.mp hrecipient).1⟩

end

section
variable {F K : Type} [DecidableEq F] [FieldOps F] [FromU64 F] [Field K] [LawfulField F K] [LawfulFromU64 F]
  (codec : Postcard (ShamirSS F)) {checks : Bool} {parties : List PartyId} {t : Nat}
  {rng : PartyId → Nat → F}

theorem PassiveRandShr.completes (hpoints : ShamirSS.DistinctPoints F checks parties)
    (ht : t < parties.length) (hsize : parties.length * (parties.length - t) < 2 ^ 64)
    (hrng : ∀ p ∈ parties, ∀ i, Valid (rng p i)) :
    ∃ (z : Nat → PartyId → ShamirSS F) (secret : Nat → K),
      (Proto.net fun p => party codec checks (rng p) p t parties).Completes parties
          (fun p => .ok ((List.range (parties.length - t)).map fun k => z k p)) ∧
        ∀ k < parties.length - t, ShamirSS.SharedBy checks parties t (z k) (secret k) := by
  have hnodup := hpoints.nodup
  obtain ⟨points, hpoint, -⟩ := hpoints
  obtain ⟨point, hpoint, -⟩ := ShamirSS.exists_point hpoint
  obtain ⟨m, hm, his⟩ := exists_extractionMatrix hpoint ht hsize
  obtain ⟨dealt, z, hdeal, hmul, hshared⟩ := exists_extracted his hnodup (List.perm_insertionSort _ _) hpoint
    ht (lt_of_le_of_lt (Nat.succ_le_of_lt ht) (length_lt_of_mul_lt ht hsize)) (fun p hp => hrng p hp 0)
    fun p hp i => hrng p hp (i + 1)
  exact ⟨z, _, (carries_of_dealings codec [dealt] fun p hp =>
    party_leads hnodup hp (.refl _) ht hm (hdeal p hp) (hmul p hp)).toCompletes, hshared⟩

theorem PassiveRandDoubleShr.completes (hpoints : ShamirSS.DistinctPoints F checks parties)
    (ht : 2 * t < parties.length) (hsize : parties.length * (parties.length - t) < 2 ^ 64)
    (hrng : ∀ p ∈ parties, ∀ i, Valid (rng p i)) :
    ∃ (double : Nat → PartyId → DoubleShare F) (mask : Nat → K),
      (Proto.net fun p => party codec checks (rng p) p t parties).Completes parties
          (fun p => .ok ((List.range (parties.length - t)).map fun k => double k p)) ∧
        ∀ k < parties.length - t,
          ShamirSS.SharedBy checks parties t (fun p => (double k p).shareT) (mask k) ∧
          ShamirSS.SharedBy checks parties (2 * t) (fun p => (double k p).share2t) (mask k) := by
  have hnodup := hpoints.nodup
  obtain ⟨points, hpoint, -⟩ := hpoints
  obtain ⟨point, hpoint, -⟩ := ShamirSS.exists_point hpoint
  have hsorted := List.perm_insertionSort (· ≤ ·) parties
  have hlt : t < parties.length := by omega
  have hlength := length_lt_of_mul_lt hlt hsize
  have hsecret := fun p hp => hrng p hp 0
  obtain ⟨m, hm, his⟩ := exists_extractionMatrix hpoint hlt hsize
  obtain ⟨dealtT, zT, hdealT, hmulT, hsharedT⟩ := exists_extracted his hnodup hsorted hpoint hlt
    (by omega) hsecret fun p hp i => hrng p hp (i + 1)
  obtain ⟨dealt2t, z2t, hdeal2t, hmul2t, hshared2t⟩ := exists_extracted his hnodup hsorted hpoint ht
    (by omega) hsecret fun p hp i => hrng p hp (i + (t + 2))
  refine ⟨fun k p => ⟨zT k p, z2t k p⟩, _, (carries_of_dealings codec [dealtT, dealt2t] fun p hp => ?_).toCompletes,
    fun k hk => ⟨hsharedT k hk, hshared2t k hk⟩⟩
  exact party_leads hnodup hp (.refl _) ht hlength hm (hdealT p hp) (hdeal2t p hp) (hmulT p hp) (hmul2t p hp)
    (mapM_doubleShare (fun k hk => (hsharedT k hk).degree hp) (fun k hk => (hshared2t k hk).degree hp)
      (by omega))

variable [Abbreviate F] (scalars : Postcard F) {king : PartyId}

theorem PassiveTriple.completes {batch : List (Factors F checks parties t)} (hbatch : batch ≠ [])
    (hking : king ∈ parties) (ht : 2 * t < parties.length) (hsize : parties.length < 2 ^ 64)
    (hpoints : ShamirSS.DistinctPoints F checks parties) :
    ∃ c : Factors F checks parties t → PartyId → ShamirSS F,
      (Proto.net fun p => party codec scalars checks p king parties (batch.map (·.a p)) (batch.map (·.b p))
        (batch.map (·.double p))).Completes parties
          (fun p => .ok (batch.map fun f => ⟨f.a p, f.b p, c f p⟩)) ∧
        ∀ f, ShamirSS.SharedBy checks parties t (c f) (f.aSecret * f.bSecret) := by
  choose d dOpen hd hopens hshared using fun f : Factors F checks parties t =>
    f.exists_opened ht hsize hpoints
  refine ⟨fun f p => (f.double p).shareT.neg.addConst (dOpen f), ?_, hshared⟩
  exact (carries_of_king hpoints.nodup hking fun p hp =>
    party_leads hbatch hpoints.nodup hp hking (.refl _) ht hsize hd hopens).toCompletes

theorem PassiveShamirMul.completes {batch : List (Operands F checks parties t)} (hbatch : batch ≠ [])
    (hking : king ∈ parties) (ht : t < parties.length) (hsize : parties.length < 2 ^ 64)
    (hpoints : ShamirSS.DistinctPoints F checks parties) :
    ∃ z : Operands F checks parties t → PartyId → ShamirSS F,
      (Proto.net fun p => party codec scalars checks p king parties (batch.map (·.x p)) (batch.map (·.y p))
        (batch.map (·.triple p))).Completes parties (fun p => .ok (batch.map (z · p))) ∧
        ∀ f, ShamirSS.SharedBy checks parties t (z f) (f.xSecret * f.ySecret) := by
  choose d e dOpen eOpen z hmask hdOpens heOpens hproduct hshared using
    fun f : Operands F checks parties t => f.exists_opened ht hsize hpoints
  refine ⟨z, ?_, hshared⟩
  exact (carries_of_king hpoints.nodup hking fun p hp =>
    party_leads hbatch hpoints.nodup hp hking (.refl _) ht hmask hdOpens heOpens hproduct).toCompletes

end

end SclRs
