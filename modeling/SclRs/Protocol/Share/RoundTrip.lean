import SclRs.Protocol.Share.Deal
import SclRs.Protocol.Share.Open
import SclRs.Ss.Additive
import SclRs.Ss.ShamirLinear

/-!
# Deal, compute, open

The dealer deals a secret, everybody computes `a * [x] + b` on its share, and all open the result. The
link from the dealer to a party carries the party's share and then, between different parties, each link
carries the sender's share of the result (`roundTripScript`). Whoever is heard during the opening has
nothing else left to say (`hearsEach_last`), so any order of arrival will do.
-/

namespace SclRs

open RingOps LawfulRing

section
variable {S V Threshold : Type} [LinearShare S V Threshold] [Abbreviate S]

/-- `a * [x] + b`. -/
def affineShare (a b : V) (share : S) : S := LinearShare.addConst (LinearShare.mulConst share a) b

/-- The dealer's protocol, and everyone else's. -/
def dealTo (dealer : PartyId) (secret : V) (receivers : List PartyId) (threshold : Threshold)
    (me : PartyId) : PassiveDealShr S V Threshold :=
  if me = dealer then .ofDealer dealer secret receivers threshold else .receiver dealer

/-- The code of party `me`: deal, compute, open. -/
def dealComputeOpen (codec : Postcard S) (checks : Bool) (parties : List PartyId)
    (rng : PartyId → Nat → V) (dealer : PartyId) (secret : V) (receivers : List PartyId)
    (threshold : Threshold) (a b : V) (me : PartyId) : Proto V V := do
  let share ← (dealTo dealer secret receivers threshold me).execute codec checks (rng me) me
  (⟨affineShare a b share⟩ : PassiveOpenShr S).execute codec checks parties me

end

/-- Parties that have one packet to come from each peer hear each once. -/
theorem hearsEach_last {script : Script} {parties : List PartyId} {me : PartyId} {σ : Progress}
    {packet : PartyId → Packet} {time : Nat}
    (hself : (script.packets ⟨me, me⟩).length ≤ σ.received me)
    (hlast : ∀ q ∈ peers parties me, (script.packets ⟨q, me⟩).length = σ.received q + 1)
    (hpackets : ∀ q ∈ peers parties me, (script.packets ⟨q, me⟩)[σ.received q]? = some (packet q) ∧
      script.time ⟨q, me⟩ (σ.received q) < time) :
    HearsEach script parties NetState.anyone me σ packet time where
  packets := hpackets
  heard {heard q} _ hsub hq hqheard := by
    refine ⟨⟨q, hq, hqheard, trivial⟩, fun p hp _ hlt => ?_⟩
    have hlt : σ.received p + heard.count p < (script.packets ⟨p, me⟩).length := hlt
    have hpeer : p ∈ peers parties me := by
      refine mem_peers.mpr ⟨hp, ?_⟩
      rintro rfl
      omega
    refine ⟨hpeer, fun hmem => ?_⟩
    have hpos := List.count_pos_iff.mpr hmem
    have hlen := hlast p hpeer
    omega

/-! ### The script -/

section
variable {S : Type} [Abbreviate S]

/-- The dealer's packet to each party, then the share of the result to each peer. -/
def roundTripScript (codec : Postcard S) (parties : List PartyId) (dealer : PartyId)
    (dealt result : PartyId → S) : Script where
  packets link :=
    (if link.sender = dealer ∧ link.recipient ∈ parties then
      [Packet.labeled codec (dealt link.recipient)] else []) ++
    if link.sender ∈ parties ∧ link.recipient ∈ peers parties link.sender then
      [Packet.labeled codec (result link.sender)] else []
  time link i := if link.sender = dealer then i else 1
  unread _ := 0

variable {codec : Postcard S} {parties : List PartyId} {dealer : PartyId} {dealt result : PartyId → S}
  {p q : PartyId}

theorem roundTripScript_deal (hq : q ∈ parties) :
    ((roundTripScript codec parties dealer dealt result).packets ⟨dealer, q⟩)[0]? =
      some (Packet.labeled codec (dealt q)) := by
  simp [roundTripScript, hq]

theorem roundTripScript_open (hp : p ∈ parties) (hq : q ∈ peers parties p) :
    ((roundTripScript codec parties dealer dealt result).packets ⟨p, q⟩)[if p = dealer then 1 else 0]? =
      some (Packet.labeled codec (result p)) := by
  have hmem := (mem_peers.mp hq).1
  by_cases hdealer : p = dealer <;> simp_all [roundTripScript]

theorem roundTripScript_length :
    ((roundTripScript codec parties dealer dealt result).packets ⟨p, q⟩).length =
      (if p = dealer ∧ q ∈ parties then 1 else 0) +
        if p ∈ parties ∧ q ∈ peers parties p then 1 else 0 := by
  rw [roundTripScript, List.length_append, apply_ite List.length, apply_ite List.length]
  rfl

end

/-! ### One party -/

section
variable {S V Threshold : Type} [LinearShare S V Threshold] [Abbreviate S] {codec : Postcard S}
  {checks : Bool} {parties receivers : List PartyId} {rng : PartyId → Nat → V} {me dealer : PartyId}
  {secret a b sum : V} {threshold : Threshold} {dealt : PartyId → S}

def Progress.afterDeal (dealer : PartyId) (receivers : List PartyId) (me : PartyId) : Progress :=
  (start.sends (if me = dealer then receivers else [])).receives [dealer] 1

theorem Progress.afterDeal_received (q : PartyId) :
    (Progress.afterDeal dealer receivers me).received q = if q = dealer then 1 else 0 := by
  change 0 + [dealer].count q = _
  rw [Nat.zero_add, (List.nodup_singleton dealer).count]
  simp only [List.mem_singleton]

theorem Progress.afterDeal_time : (Progress.afterDeal dealer receivers me).time = 1 := rfl

theorem Progress.afterDeal_sent (hreceivers : receivers.Perm parties) (hnodup : parties.Nodup) (q : PartyId) :
    (Progress.afterDeal dealer receivers me).sent q = if me = dealer ∧ q ∈ parties then 1 else 0 := by
  have hcount : receivers.count q = if q ∈ parties then 1 else 0 := by
    rw [hreceivers.count_eq, hnodup.count]
  by_cases hdealer : me = dealer <;>
    simp [Progress.afterDeal, Progress.receives, Progress.sends, start, hdealer, hcount]

theorem dealTo_leads {result : PartyId → S} (hreceivers : receivers.Perm parties) (hnodup : parties.Nodup)
    (hme : me ∈ parties) (hdealer : dealer ∈ parties)
    (hdeal : LinearShare.sharesFromSecret checks secret receivers threshold (rng dealer) =
      some (.ok (receivers.map dealt))) :
    ((dealTo dealer secret receivers threshold me).execute codec checks (rng me) me).Leads
      (roundTripScript codec parties dealer dealt result) parties NetState.anyone me .start
      (· = dealt me) (.afterDeal dealer receivers me) := by
  have hlt : (roundTripScript codec parties dealer dealt result).time ⟨dealer, me⟩
      (Progress.start.received dealer) < 1 := by
    simp [roundTripScript, Progress.start]
  by_cases heq : me = dealer
  · subst heq
    rw [dealTo, if_pos rfl, Progress.afterDeal, if_pos rfl]
    exact PassiveDealShr.ofDealer_leads hdeal (hreceivers.nodup_iff.mpr hnodup) hme trivial
      (fun q hq => ⟨roundTripScript_deal (hreceivers.mem_iff.mp hq), Nat.zero_le _⟩)
      (roundTripScript_deal hme) (Nat.zero_le _) hlt
  · rw [dealTo, if_neg heq, Progress.afterDeal, if_neg heq, Progress.sends_nil]
    exact PassiveDealShr.receiver_leads (Ne.symm heq) hdealer trivial (roundTripScript_deal hme)
      (Nat.zero_le _) hlt

theorem dealComputeOpen_follows (hreceivers : receivers.Perm parties) (hnodup : parties.Nodup)
    (hme : me ∈ parties) (hdealer : dealer ∈ parties)
    (hdeal : LinearShare.sharesFromSecret checks secret receivers threshold (rng dealer) =
      some (.ok (receivers.map dealt)))
    (hsum : ∀ senders : List PartyId, senders.Perm parties →
      LinearShare.secretFromShares checks (senders.map fun p => affineShare a b (dealt p)) senders =
        some (.ok sum)) :
    (dealComputeOpen codec checks parties rng dealer secret receivers threshold a b me).run.Follows
      (roundTripScript codec parties dealer dealt fun p => affineShare a b (dealt p)) parties
      NetState.anyone me (· = .ok sum) (fun _ => 0) (fun _ => 0) 0 := by
  have hhears : HearsEach
      (roundTripScript codec parties dealer dealt fun p => affineShare a b (dealt p)) parties
      NetState.anyone me (.afterDeal dealer receivers me)
      (fun q => Packet.labeled codec (affineShare a b (dealt q))) 2 := by
    refine hearsEach_last ?_ (fun q hq => ?_) fun q hq => ?_
    · rw [Progress.afterDeal_received, roundTripScript_length]
      simp [mem_peers, hme]
    · rw [Progress.afterDeal_received, roundTripScript_length]
      obtain ⟨hq, hne⟩ := mem_peers.mp hq
      simp [mem_peers, hme, hq, Ne.symm hne]
    · obtain ⟨hq, hne⟩ := mem_peers.mp hq
      rw [Progress.afterDeal_received]
      refine ⟨roundTripScript_open hq (mem_peers.mpr ⟨hme, Ne.symm hne⟩), ?_⟩
      simp only [roundTripScript]
      split_ifs <;> decide
  have htime : (Progress.afterDeal dealer receivers me).time ≤ 2 := Nat.le_succ 1
  have hopen := PassiveOpenShr.execute_leads hhears hnodup hme htime (fun q hq => by
    have hmem := (mem_peers.mp hq).1
    rw [Progress.afterDeal_sent hreceivers hnodup]
    simp only [hmem, and_true]
    refine ⟨roundTripScript_open hme hq, ?_⟩
    simp only [roundTripScript, Progress.afterDeal_time]
    split_ifs <;> decide) hsum
  have hleads : (dealComputeOpen codec checks parties rng dealer secret receivers threshold a b me).Leads
      (roundTripScript codec parties dealer dealt fun p => affineShare a b (dealt p)) parties
      NetState.anyone me .start (· = sum)
      (((Progress.afterDeal dealer receivers me).sends (peers parties me)).receives (peers parties me) 2) := by
    refine (dealTo_leads hreceivers hnodup hme hdealer hdeal).bind ?_
    rintro _ rfl
    exact hopen
  refine hleads.follows (fun q => ?_) fun q => ?_
  · rw [Progress.receives_sent, Progress.sends_sent, Progress.afterDeal_sent hreceivers hnodup,
      (nodup_peers hnodup me).count, roundTripScript_length]
    simp [hme]
  · rw [Progress.receives_received, Progress.sends_received, Progress.afterDeal_received,
      (nodup_peers hnodup me).count, roundTripScript_length]
    simp [hme, mem_peers, eq_comm, roundTripScript]

end

/-! ### All parties -/

section
variable {S V Threshold : Type} [LinearShare S V Threshold] [Abbreviate S] [RingOps V]

def roundTripNet (codec : Postcard S) (checks : Bool) (parties : List PartyId)
    (rng : PartyId → Nat → V) (dealer : PartyId) (secret : V) (receivers : List PartyId)
    (threshold : Threshold) (a b : V) : NetState (Except (ProtocolError V) V) :=
  NetState.init fun p =>
    (dealComputeOpen codec checks parties rng dealer secret receivers threshold a b p).run

/-- Every schedule ends with `a * secret + b` at every party. Each party has then received its share
from the dealer and just one share of the result from every other party, and no link holds a packet. -/
structure RoundTrips (codec : Postcard S) (checks : Bool) (parties : List PartyId)
    (rng : PartyId → Nat → V) (dealer : PartyId) (secret : V) (receivers : List PartyId)
    (threshold : Threshold) (a b : V) : Prop where
  finishes : (roundTripNet codec checks parties rng dealer secret receivers threshold a b).Finishes
    parties fun _ => .ok (add (mul secret a) b)
  links : ∃ dealt : PartyId → S,
    LinearShare.sharesFromSecret checks secret receivers threshold (rng dealer) =
        some (.ok (receivers.map dealt)) ∧
      ∀ schedule t, (roundTripNet codec checks parties rng dealer secret receivers threshold a b).run
          parties schedule = some t → t.Maximal parties →
        (∀ p ∈ parties, ∀ q ∈ parties, t.received ⟨p, q⟩ =
          (if p = dealer then [Packet.labeled codec (dealt q)] else []) ++
            if q = p then [] else [Packet.labeled codec (affineShare a b (dealt p))]) ∧
        ∀ link, t.channels link = []

variable {K : Type} [CommRing K] [LawfulRing V K] [LawfulLinearShare S] {codec : Postcard S}
  {checks : Bool} {parties receivers : List PartyId} {rng : PartyId → Nat → V} {dealer : PartyId}
  {secret a b : V} {threshold : Threshold}

theorem roundTrips_of_admits (hadmits : LawfulLinearShare.Admits (S := S) checks receivers threshold)
    (hdealer : dealer ∈ parties) (hnodup : parties.Nodup) (hreceivers : receivers.Perm parties)
    (hsecret : Valid secret) (ha : Valid a) (hb : Valid b) (hrng : ∀ i, Valid (rng dealer i)) :
    RoundTrips codec checks parties rng dealer secret receivers threshold a b := by
  obtain ⟨dealt, hdeal, hsharing⟩ := LawfulLinearShare.deal hadmits hsecret hrng
  have haffine := LawfulLinearShare.addConst (LawfulLinearShare.mulConst hsharing ha) hb
  have hsum : ∀ senders : List PartyId, senders.Perm parties →
      LinearShare.secretFromShares checks (senders.map fun p => affineShare a b (dealt p)) senders =
        some (.ok (add (mul secret a) b)) := fun senders hperm =>
    LawfulLinearShare.secretFromShares_perm haffine (hperm.trans hreceivers.symm)
  have hfollows : ∀ p ∈ parties,
      (dealComputeOpen codec checks parties rng dealer secret receivers threshold a b p).run.Follows
        (roundTripScript codec parties dealer dealt fun p => affineShare a b (dealt p)) parties
        NetState.anyone p (· = .ok (add (mul secret a) b)) (fun _ => 0) (fun _ => 0) 0 :=
    fun p hp => dealComputeOpen_follows hreceivers hnodup hp hdealer hdeal hsum
  refine ⟨NetState.finishes_of_follows hfollows, dealt, hdeal, fun schedule t hrun hmax => ?_⟩
  have hscripted := (NetState.scripted_init hfollows).run hrun (NetState.runPermits_anyone schedule)
  have hcarried := hscripted.carried_of_halted hmax.halted (fun _ => rfl) fun link hpackets => by
    by_contra hlink
    refine hpackets (List.length_eq_zero_iff.mp ?_)
    rw [roundTripScript_length, if_neg, if_neg]
    · exact fun h => hlink ⟨h.1, (mem_peers.mp h.2).1⟩
    · exact fun h => hlink ⟨h.1 ▸ hdealer, h.2⟩
  refine ⟨fun p hp q hq => ?_, fun link => (hcarried link).2⟩
  rw [(hcarried ⟨p, q⟩).1, roundTripScript]
  simp [hp, hq, mem_peers]

end

/-- **Deal, compute, open** in both schemes. -/
theorem deal_compute_open {T K : Type} [RingOps T] [CommRing K] [LawfulRing T K] {F L : Type}
    [DecidableEq F] [FieldOps F] [FromU64 F] [Field L] [LawfulField F L] [LawfulFromU64 F]
    {checks : Bool} {parties receivers : List PartyId} {dealer : PartyId} (hdealer : dealer ∈ parties)
    (hnodup : parties.Nodup) (hreceivers : receivers.Perm parties) :
    (∀ (codec : Postcard (AdditiveSS T)) (rng : PartyId → Nat → T) (secret a b : T),
      Valid secret → Valid a → Valid b → (∀ i, Valid (rng dealer i)) →
      RoundTrips codec checks parties rng dealer secret receivers () a b) ∧
    ∀ (codec : Postcard (ShamirSS F)) (rng : PartyId → Nat → F) (secret a b : F) (degree : Nat),
      Valid secret → Valid a → Valid b → (∀ i, Valid (rng dealer i)) → degree < parties.length →
      parties.length < 2 ^ 64 → ShamirSS.DistinctPoints F checks parties →
      RoundTrips codec checks parties rng dealer secret receivers degree a b := by
  constructor
  · intro codec rng secret a b hsecret ha hb hrng
    have hadmits : LawfulLinearShare.Admits (S := AdditiveSS T) checks receivers () :=
      ⟨List.ne_nil_of_mem (hreceivers.mem_iff.mpr hdealer), hreceivers.nodup_iff.mpr hnodup⟩
    exact roundTrips_of_admits hadmits hdealer hnodup hreceivers hsecret ha hb hrng
  · intro codec rng secret a b degree hsecret ha hb hrng hdegree hlength hpoints
    have hadmits : LawfulLinearShare.Admits (S := ShamirSS F) checks receivers degree :=
      ⟨hreceivers.length_eq ▸ hdegree, hreceivers.length_eq ▸ hlength, hpoints.perm hreceivers⟩
    exact roundTrips_of_admits hadmits hdealer hnodup hreceivers hsecret ha hb hrng

theorem deal_compute_open_three :
    RoundTrips (.ofCodec (AdditiveSS.codec Mersenne61.codec)) true [0, 1, 2] (fun _ _ => ⟨7⟩) 1
        (⟨5⟩ : Mersenne61) [2, 1, 0] () ⟨3⟩ ⟨4⟩ ∧
      RoundTrips (.ofCodec (ShamirSS.codec Mersenne61.codec)) true [0, 1, 2] (fun _ _ => ⟨7⟩) 1
        (⟨5⟩ : Mersenne61) [2, 1, 0] 1 ⟨3⟩ ⟨4⟩ := by
  have hthree : Valid (⟨3⟩ : Mersenne61) := show Mersenne61.Canonical _ by decide
  have hfour : Valid (⟨4⟩ : Mersenne61) := show Mersenne61.Canonical _ by decide
  have hfive : Valid (⟨5⟩ : Mersenne61) := show Mersenne61.Canonical _ by decide
  have hseven : ∀ _ : Nat, Valid (⟨7⟩ : Mersenne61) := fun _ => show Mersenne61.Canonical _ by decide
  constructor
  · exact (deal_compute_open (T := Mersenne61) (F := Mersenne61) (by decide) (by decide)
      (by decide)).1 _ _ _ _ _ hfive hthree hfour hseven
  · exact (deal_compute_open (T := Mersenne61) (F := Mersenne61) (by decide) (by decide)
      (by decide)).2 _ _ _ _ _ 1 hfive hthree hfour hseven (by decide) (by decide)
      ⟨[1, 2, 3].map FromU64.fromU64, rfl, by decide +kernel⟩

/-! ### Parties with one point -/

/-- Party 0 deals to itself and to a party whose point is its own, and both open. -/
def collidingSchedule : List Act :=
  [.goes 0, .goes 0, .goes 0, .hears 0 0, .goes 0, .goes 0, .goes 0,
    .goes mersenneModulus, .hears mersenneModulus 0, .goes mersenneModulus, .goes mersenneModulus,
    .goes mersenneModulus, .hears mersenneModulus 0, .goes mersenneModulus,
    .hears 0 mersenneModulus, .goes 0]

/-- **Parties whose points collide** do not open what was dealt to them. -/
theorem roundTrip_colliding : [0, mersenneModulus].Nodup ∧
    ¬ RoundTrips (.ofCodec (ShamirSS.codec Mersenne61.codec)) true [0, mersenneModulus]
      (fun _ _ => ⟨7⟩) 0 (⟨5⟩ : Mersenne61) [0, mersenneModulus] 1 ⟨3⟩ ⟨4⟩ := by
  refine ⟨by decide, fun h => ?_⟩
  have hrun : ((roundTripNet (.ofCodec (ShamirSS.codec Mersenne61.codec)) true [0, mersenneModulus]
      (fun _ _ => ⟨7⟩) 0 (⟨5⟩ : Mersenne61) [0, mersenneModulus] 1 ⟨3⟩ ⟨4⟩).run [0, mersenneModulus]
      collidingSchedule).map (fun t => ((t.progs 0).result?.map Except.toOption,
        (t.progs mersenneModulus).result?.map Except.toOption)) = some (some none, some none) := by
    decide +kernel
  obtain ⟨t, ht, hresults⟩ := Option.map_eq_some_iff.mp hrun
  obtain ⟨hzero, hmodulus⟩ := Prod.mk.inj hresults
  obtain ⟨r, hr, hrerror⟩ := Option.map_eq_some_iff.mp hzero
  obtain ⟨r', hr', -⟩ := Option.map_eq_some_iff.mp hmodulus
  have hmax : t.Maximal [0, mersenneModulus] := NetState.maximal_of_ret <| List.forall_mem_cons.mpr
    ⟨⟨r, Prog.result?_eq_some hr⟩, List.forall_mem_singleton.mpr ⟨r', Prog.result?_eq_some hr'⟩⟩
  have hok := h.finishes.results _ t ht hmax 0 List.mem_cons_self
  rw [Prog.result?_eq_some hr, Prog.ret.injEq] at hok
  rw [hok] at hrerror
  cases hrerror

end SclRs
