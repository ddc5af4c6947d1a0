import SclRs.Protocol.PassiveShamir.Extraction
import SclRs.Protocol.Share.Deal

/-!
# Random sharings

`protocol/passive_shamir/rand_share.rs`: everybody deals a random element to everybody, and the extraction
matrix makes random sharings of the dealings. In round `k` each link carries the sender's dealing with
number `k` (`dealScript`); a round leads from `dealtTo parties k` to `dealtTo parties (k + 1)`
(`dealAll_leads`).
-/

namespace SclRs

/-! ### Everybody deals to everybody -/

section
variable {S V Threshold : Type} [LinearShare S V Threshold] [Abbreviate S]

/-- The party deals a secret and collects its shares of all dealings, in the order of `parties`. -/
def dealAll (codec : Postcard S) (checks : Bool) (me : PartyId) (rng : Nat → V) (secret : V)
    (parties : List PartyId) (threshold : Threshold) : Proto V (List S) := do
  let ownShare ← (PassiveDealShr.ofDealer me secret parties threshold).execute codec checks rng me
  Proto.recvEach me ownShare (fun pkt => pkt.pop codec) parties

/-- Each link carries the sender's shares for the recipient, one dealing after the other. -/
def dealScript (codec : Postcard S) (parties : List PartyId)
    (dealings : List (PartyId → PartyId → S)) : Script where
  packets link :=
    if link.sender ∈ parties ∧ link.recipient ∈ parties then
      dealings.map fun dealt => Packet.labeled codec (dealt link.sender link.recipient)
    else []
  time _ i := i
  unread _ := 0

/-- What a party has exchanged after `k` dealings. -/
def dealtTo (parties : List PartyId) (k : Nat) : Progress :=
  ⟨fun q => if q ∈ parties then k else 0, fun q => if q ∈ parties then k else 0, k⟩

theorem dealtTo_zero (parties : List PartyId) : dealtTo parties 0 = .start := by
  simp only [dealtTo, ite_self]
  rfl

theorem dealtTo_succ {parties sorted received : List PartyId} (hnodup : parties.Nodup)
    (hsorted : sorted.Perm parties) (hreceived : received.Perm parties) (k : Nat) :
    ((dealtTo parties k).sends sorted).receives received (k + 1) = dealtTo parties (k + 1) := by
  have hcount : ∀ q, (if q ∈ parties then k else 0) + (if q ∈ parties then 1 else 0) =
      if q ∈ parties then k + 1 else 0 := by
    intro q
    split_ifs <;> rfl
  simp only [dealtTo, Progress.sends, Progress.receives, hsorted.count_eq, hreceived.count_eq,
    hnodup.count, hcount]

variable {codec : Postcard S} {checks : Bool} {me : PartyId} {rng : Nat → V} {secret : V}
  {parties sorted : List PartyId} {threshold : Threshold} {dealings : List (PartyId → PartyId → S)}
  {k : Nat} {dealt : PartyId → PartyId → S}

theorem dealScript_packets {p q : PartyId} (hp : p ∈ parties) (hq : q ∈ parties) :
    (dealScript codec parties dealings).packets ⟨p, q⟩ =
      dealings.map fun dealt => Packet.labeled codec (dealt p q) := if_pos ⟨hp, hq⟩

theorem dealScript_get (hdealt : dealings[k]? = some dealt) {p q : PartyId} (hp : p ∈ parties)
    (hq : q ∈ parties) :
    ((dealScript codec parties dealings).packets ⟨p, q⟩)[k]? = some (Packet.labeled codec (dealt p q)) := by
  rw [dealScript_packets hp hq, List.getElem?_map, hdealt]
  rfl

/-- **One round of dealings.** -/
theorem dealAll_leads (hdealt : dealings[k]? = some dealt) (hnodup : parties.Nodup)
    (hsorted : sorted.Perm parties) (hme : me ∈ parties)
    (hshares : LinearShare.sharesFromSecret checks secret sorted threshold rng =
      some (.ok (sorted.map (dealt me)))) :
    (dealAll codec checks me rng secret sorted threshold).Leads (dealScript codec parties dealings)
      parties NetState.anyone me (dealtTo parties k) (· = sorted.map fun p => dealt p me)
      (dealtTo parties (k + 1)) := by
  have hsortedNodup := hsorted.nodup_iff.mpr hnodup
  have hmem : me ∈ sorted := hsorted.mem_iff.mpr hme
  have hat : ∀ q ∈ parties, (dealtTo parties k).sent q = k ∧ (dealtTo parties k).received q = k :=
    fun q hq => ⟨if_pos hq, if_pos hq⟩
  have htime : (dealtTo parties k).time ≤ k + 1 := Nat.le_succ k
  have hdeal : ((PassiveDealShr.ofDealer me secret sorted threshold).execute codec checks rng me).Leads
      (dealScript codec parties dealings) parties NetState.anyone me (dealtTo parties k) (· = dealt me me)
      (((dealtTo parties k).sends sorted).receives [me] (k + 1)) := by
    refine PassiveDealShr.ofDealer_leads hshares hsortedNodup hme trivial (fun q hq => ?_) ?_ htime ?_
    · have hq := hsorted.mem_iff.mp hq
      rw [(hat q hq).1]
      exact ⟨dealScript_get hdealt hme hq, le_rfl⟩
    · rw [(hat me hme).2]
      exact dealScript_get hdealt hme hme
    · rw [(hat me hme).2]
      exact Nat.lt_succ_self k
  have hcollect : (Proto.recvEach me (dealt me me) (fun pkt => pkt.pop codec) sorted :
      Proto V (List S)).Leads (dealScript codec parties dealings) parties NetState.anyone me
      (((dealtTo parties k).sends sorted).receives [me] (k + 1)) (· = sorted.map fun p => dealt p me)
      ((((dealtTo parties k).sends sorted).receives [me] (k + 1)).receives (peers sorted me) (k + 1)) := by
    refine Proto.leads_recvEach (fun p => dealt p me) hsortedNodup (fun _ => rfl) (fun q hq => ?_) le_rfl
    obtain ⟨hq, hne⟩ := mem_peers.mp hq
    have hq := hsorted.mem_iff.mp hq
    have hreceived : (((dealtTo parties k).sends sorted).receives [me] (k + 1)).received q = k := by
      rw [Progress.receives_received_of_notMem (List.mem_singleton.not.mpr hne), Progress.sends_received,
        (hat q hq).2]
    rw [hreceived]
    exact ⟨hq, _, dealScript_get hdealt hq hme, Packet.pop_labeled codec _, Nat.lt_succ_self k⟩
  rw [Progress.receives_receives, List.singleton_append,
    dealtTo_succ hnodup hsorted ((cons_peers_perm hsortedNodup hmem).trans hsorted)] at hcollect
  refine hdeal.bind ?_
  rintro _ rfl
  exact hcollect

theorem dealScript_follows {α : Type} {x : Proto V α} {a : α} (hme : me ∈ parties)
    (hx : x.Leads (dealScript codec parties dealings) parties NetState.anyone me .start (· = a)
      (dealtTo parties dealings.length)) :
    x.run.Follows (dealScript codec parties dealings) parties NetState.anyone me (· = .ok a)
      (fun _ => 0) (fun _ => 0) 0 := by
  refine hx.follows (fun q => ?_) fun q => ?_ <;> by_cases hq : q ∈ parties <;>
    simp [dealtTo, dealScript, hme, hq]

end

theorem insertionSort_of_perm {list parties : List PartyId} (h : list.Perm parties) :
    list.insertionSort (· ≤ ·) = parties.insertionSort (· ≤ ·) :=
  ((List.perm_insertionSort _ list).trans (h.trans (List.perm_insertionSort _ parties).symm)).eq_of_sortedLE
    List.sortedLE_insertionSort List.sortedLE_insertionSort

section
variable {F K : Type} [DecidableEq F] [FieldOps F] [FromU64 F] [Field K] [LawfulField F K]
  [LawfulFromU64 F] {checks : Bool} {parties : List PartyId} {point secret : PartyId → F}
  {rng : PartyId → Nat → F} {t : Nat}

open LawfulRing

theorem exists_dealings (hnodup : parties.Nodup)
    (hpoint : ∀ p ∈ parties, ShamirSS.encodeParty checks p = some (point p)) (ht : t < parties.length)
    (hsize : t + 1 < 2 ^ 64) (hsecret : ∀ p ∈ parties, Valid (secret p))
    (hrng : ∀ p ∈ parties, ∀ i, Valid (rng p i)) :
    ∃ dealt : PartyId → PartyId → ShamirSS F,
      (∀ p ∈ parties, LinearShare.sharesFromSecret checks (secret p) parties t (rng p) =
        some (.ok (parties.map (dealt p)))) ∧
      ∀ p ∈ parties, ∀ q ∈ parties,
        (dealt p q).LiesOn t (ShamirSS.dealt (secret p) t (rng p)) (point q) := by
  have hdealt : ∀ p, ∃ x : PartyId → ShamirSS F, p ∈ parties →
      LinearShare.sharesFromSecret checks (secret p) parties t (rng p) = some (.ok (parties.map x)) ∧
        ∀ q ∈ parties, (x q).LiesOn t (ShamirSS.dealt (secret p) t (rng p)) (point q) := by
    intro p
    by_cases hp : p ∈ parties
    · obtain ⟨shares, hdeal, hlies⟩ := ShamirSS.linearShare_sharesFromSecret (hsecret p hp) (hrng p hp)
        hpoint ht hsize
      obtain ⟨x, rfl⟩ := exists_eq_map hnodup hlies.length_eq ⟨RingOps.zero, 0⟩
      rw [List.forall₂_map_right_iff, List.forall₂_same] at hlies
      exact ⟨x, fun _ => ⟨hdeal, hlies⟩⟩
    · exact ⟨fun _ => ⟨RingOps.zero, 0⟩, fun h => absurd h hp⟩
  choose dealt hdealt using hdealt
  exact ⟨dealt, fun p hp => (hdealt p hp).1, fun p hp => (hdealt p hp).2⟩

omit [DecidableEq F] in
theorem exists_extractionMatrix (hpoint : ∀ p ∈ parties, ShamirSS.encodeParty checks p = some (point p))
    (ht : t < parties.length) (hsize : parties.length * (parties.length - t) < 2 ^ 64) :
    ∃ m : Matrix F,
      extractionMatrix checks (parties.insertionSort (· ≤ ·)) (parties.length - t) = some m ∧
      m.Is (parties.length - t) (parties.insertionSort (· ≤ ·)).length fun k i =>
        Matrix.powers (((parties.insertionSort (· ≤ ·)).map point).getD i RingOps.one) k := by
  have hsorted := List.perm_insertionSort (· ≤ ·) parties
  refine extractionMatrix_is (ShamirSS.mapM_encodeParty fun p hp => hpoint p (hsorted.mem_iff.mp hp))
    (List.ne_nil_of_length_pos ?_) (by omega) ?_
  · rw [hsorted.length_eq]
    omega
  · rwa [hsorted.length_eq]

theorem length_lt_of_mul_lt {n t : Nat} (ht : t < n) (hsize : n * (n - t) < 2 ^ 64) : n < 2 ^ 64 :=
  (Nat.le_mul_of_pos_right n (by omega)).trans_lt hsize

theorem exists_extracted {sorted : List PartyId} {outputs : Nat} {m : Matrix F}
    (his : m.Is outputs sorted.length fun k i => Matrix.powers ((sorted.map point).getD i RingOps.one) k)
    (hnodup : parties.Nodup) (hsorted : sorted.Perm parties)
    (hpoint : ∀ p ∈ parties, ShamirSS.encodeParty checks p = some (point p)) (ht : t < parties.length)
    (hsize : t + 1 < 2 ^ 64) (hsecret : ∀ p ∈ parties, Valid (secret p))
    (hrng : ∀ p ∈ parties, ∀ i, Valid (rng p i)) :
    ∃ (dealt : PartyId → PartyId → ShamirSS F) (z : Nat → PartyId → ShamirSS F),
      (∀ p ∈ parties, LinearShare.sharesFromSecret checks (secret p) sorted t (rng p) =
        some (.ok (sorted.map (dealt p)))) ∧
      (∀ q ∈ parties, m.mulShares checks (sorted.map fun p => dealt p q) =
        some (.ok ((List.range outputs).map fun k => z k q))) ∧
      ∀ k < outputs, ShamirSS.SharedBy checks parties t (z k)
        (parties.map fun p => val (point p) ^ k * val (secret p)).sum := by
  have hmem : ∀ {p}, p ∈ sorted ↔ p ∈ parties := hsorted.mem_iff
  have hpoint' : ∀ p ∈ sorted, ShamirSS.encodeParty checks p = some (point p) := fun p hp =>
    hpoint p (hmem.mp hp)
  have hlen := hsorted.length_eq
  obtain ⟨dealt, hdeal, hlies⟩ := exists_dealings (hsorted.nodup_iff.mpr hnodup) hpoint' (hlen ▸ ht) hsize
    (fun p hp => hsecret p (hmem.mp hp)) fun p hp => hrng p (hmem.mp hp)
  obtain ⟨z, hz, hshared⟩ := mulShares_sharedBy his (List.ne_nil_of_length_pos (by omega)) hpoint'
    (fun p _ => ShamirSS.natDegree_dealt_le (secret p) t (rng p)) hlies
  refine ⟨dealt, z, fun p hp => hdeal p (hmem.mpr hp), fun q hq => hz q (hmem.mpr hq), fun k hk => ?_⟩
  obtain ⟨f, hf, hzero, hlie⟩ := hshared k hk
  refine ⟨f, hf, ?_, fun p hp => hlie p (hmem.mpr hp)⟩
  rw [hzero, ← (hsorted.map _).sum_eq]
  simp only [ShamirSS.eval_dealt_zero]

end

/-! ### The protocol -/

structure PassiveRandShr (F : Type) where
  t : Nat
  parties : List PartyId
  vandermonde : Matrix F

namespace PassiveRandShr

section
variable {F : Type} [DecidableEq F] [FieldOps F] [FromU64 F]

def new (checks : Bool) (t : Nat) (parties : List PartyId) :
    Option (Except (ProtocolError F) (PassiveRandShr F)) :=
  let n := parties.length
  if t ≥ n then some (.error .input)
  else do
    let sorted := parties.insertionSort (· ≤ ·)
    return .ok ⟨t, sorted, ← extractionMatrix checks sorted (n - t)⟩

variable (codec : Postcard (ShamirSS F)) (checks : Bool) (rng : Nat → F) (me : PartyId)

/-- `run`: the first random element is the party's secret. -/
def run (protocol : PassiveRandShr F) : Proto F (List (ShamirSS F)) := do
  let s := rng 0
  let sharesT ← dealAll codec checks me (fun i => rng (i + 1)) s protocol.parties protocol.t
  let rSharesT ← Proto.ofOption (protocol.vandermonde.mulShares checks sharesT)
  Proto.ofShare .matrix rSharesT

def execute (protocol : PassiveRandShr F) : Proto F (List (ShamirSS F)) :=
  Proto.execute "PassiveRandShr" (protocol.run codec checks rng me)

/-- The code of a party: the protocol is made and executed. -/
def party (t : Nat) (parties : List PartyId) : Proto F (List (ShamirSS F)) := do
  let protocol ← Proto.ofOption (new checks t parties)
  let protocol ← Proto.ofResult protocol
  protocol.execute codec checks rng me

/-- The parties begin; each has its own list of the parties. -/
def net (t : Nat) (lists : PartyId → List PartyId) (rng : PartyId → Nat → F) :
    NetState (Except (ProtocolError F) (List (ShamirSS F))) :=
  NetState.init fun p => (party codec checks (rng p) p t (lists p)).run

end

section
variable {F K : Type} [DecidableEq F] [FieldOps F] [FromU64 F] [Field K] [LawfulField F K]
  {codec : Postcard (ShamirSS F)} {checks : Bool} {parties list : List PartyId} {rng : Nat → F}
  {t : Nat} {me : PartyId} {m : Matrix F} {dealt : PartyId → PartyId → ShamirSS F} {z : List (ShamirSS F)}

omit [DecidableEq F] in
theorem new_eq (hlist : list.Perm parties) (ht : t < parties.length)
    (hm : extractionMatrix checks (parties.insertionSort (· ≤ ·)) (parties.length - t) = some m) :
    new checks t list = some (.ok ⟨t, parties.insertionSort (· ≤ ·), m⟩) := by
  rw [new, if_neg (by rw [hlist.length_eq]; omega), insertionSort_of_perm hlist, hlist.length_eq]
  simp only [hm]
  rfl

theorem party_leads (hnodup : parties.Nodup) (hme : me ∈ parties) (hlist : list.Perm parties)
    (ht : t < parties.length)
    (hm : extractionMatrix checks (parties.insertionSort (· ≤ ·)) (parties.length - t) = some m)
    (hdeal : LinearShare.sharesFromSecret checks (rng 0) (parties.insertionSort (· ≤ ·)) t
      (fun i => rng (i + 1)) = some (.ok ((parties.insertionSort (· ≤ ·)).map (dealt me))))
    (hmul : m.mulShares checks ((parties.insertionSort (· ≤ ·)).map fun p => dealt p me) =
      some (.ok z)) :
    (party codec checks rng me t list).Leads (dealScript codec parties [dealt]) parties
      NetState.anyone me .start (· = z) (dealtTo parties 1) := by
  refine (Proto.leads_ofOption (new_eq hlist ht hm)).bind ?_
  rintro _ rfl
  refine (Proto.leads_ofResult rfl).bind ?_
  rintro _ rfl
  refine Proto.Leads.execute ?_
  rw [← dealtTo_zero parties]
  refine (dealAll_leads (k := 0) rfl hnodup (List.perm_insertionSort _ parties) hme hdeal).bind ?_
  rintro _ rfl
  refine (Proto.leads_ofOption hmul).bind ?_
  rintro _ rfl
  exact Proto.leads_ofShare rfl

/-- **Random**: every schedule ends with the parties' shares of the powers' combinations of their
secrets. -/
theorem rand_share [LawfulFromU64 F] {lists : PartyId → List PartyId} {rng : PartyId → Nat → F}
    {point : PartyId → F} (hnodup : parties.Nodup) (hlists : ∀ p ∈ parties, (lists p).Perm parties)
    (hpoint : ∀ p ∈ parties, ShamirSS.encodeParty checks p = some (point p)) (ht : t < parties.length)
    (hsize : parties.length * (parties.length - t) < 2 ^ 64)
    (hrng : ∀ p ∈ parties, ∀ i, LawfulRing.Valid (rng p i)) :
    ∃ z : Nat → PartyId → ShamirSS F,
      (net codec checks t lists rng).Finishes parties
          (fun p => .ok ((List.range (parties.length - t)).map fun k => z k p)) ∧
        ∀ k < parties.length - t, ShamirSS.SharedBy checks parties t (z k)
          (parties.map fun p => LawfulRing.val (point p) ^ k * LawfulRing.val (rng p 0)).sum := by
  have hsorted := List.perm_insertionSort (· ≤ ·) parties
  obtain ⟨m, hm, his⟩ := exists_extractionMatrix hpoint ht hsize
  obtain ⟨dealt, z, hdeal, hmul, hshared⟩ := exists_extracted his hnodup hsorted hpoint ht
    (lt_of_le_of_lt (Nat.succ_le_of_lt ht) (length_lt_of_mul_lt ht hsize)) (fun p hp => hrng p hp 0)
    fun p hp i => hrng p hp (i + 1)
  exact ⟨z, NetState.finishes_of_follows fun p hp => dealScript_follows hp
    (party_leads hnodup hp (hlists p hp) ht hm (hdeal p hp) (hmul p hp)), hshared⟩

end

end PassiveRandShr

end SclRs
