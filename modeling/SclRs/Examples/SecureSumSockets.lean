import SclRs.Examples.SecureSum
import SclRs.Net.SocketRefinement
import SclRs.Protocol.Portable

/-!
# Secure summation on sockets

The parties of `SecureSum` on networks that `TcpNetwork::create` has returned. Each goes through the parties
in the order of its own map of writers. Its code does not look at labels, its packets carry one share each,
and it has been shown to leave no packet behind: so whatever the sockets do, everyone ends with the sum
(`sum_on_sockets`). Messages are sent one after the other, with which the override of `send_many` agrees, as
no party is addressed twice (`Net.SendMany`).
-/

namespace SclRs

open Lib LawfulRing TcpNetwork

section
variable {R : Type} [RingOps R] {codec : Postcard (AdditiveSS R)} {checks : Bool} {parties list : List PartyId}

/-! ### The code runs on sockets -/

omit [RingOps R] in
theorem recvShares_portable (hlist : ∀ q ∈ list, q ∈ parties) : (recvShares codec list).Portable parties := by
  refine Proto.portable_mapM fun q hq => Proto.portable_recvFrom (hlist q hq) fun packet packet' heq => ?_
  rw [heq.pop]
  exact Proto.portable_ofNetwork _

theorem DistrAdditiveShr.portable (hlist : ∀ q ∈ list, q ∈ parties) (rng : Nat → R)
    (protocol : DistrAdditiveShr R) : (protocol.execute codec list rng).Portable parties := by
  refine Proto.Portable.execute ((Proto.portable_sendMany fun message hmessage => ?_).bind fun _ =>
    recvShares_portable hlist)
  obtain ⟨⟨q, share⟩, hmem, rfl⟩ := List.mem_map.mp hmessage
  exact hlist q (List.of_mem_zip hmem).1

theorem ReconstrAdditiveShr.portable (hlist : ∀ q ∈ list, q ∈ parties) (protocol : ReconstrAdditiveShr R) :
    (protocol.execute codec list).Portable parties := by
  refine Proto.Portable.execute ((Proto.portable_sendMany fun message hmessage => ?_).bind fun _ =>
    (recvShares_portable hlist).bind fun _ => Proto.portable_pure _)
  obtain ⟨q, hq, rfl⟩ := List.mem_map.mp hmessage
  exact hlist q hq

theorem SecureAddition.portable (hlist : ∀ q ∈ list, q ∈ parties) (rng : Nat → R)
    (protocol : SecureAddition R) : (protocol.execute codec checks list rng).Portable parties :=
  Proto.Portable.execute ((DistrAdditiveShr.portable hlist rng _).bind fun _ =>
    (Proto.portable_ofOption _).bind fun _ => ReconstrAdditiveShr.portable hlist _)

end

namespace SecureAddition

section
variable {R K : Type} [RingOps R] [CommRing K] [LawfulRing R K] {codec : Postcard (AdditiveSS R)} {checks : Bool}
  {parties : List PartyId} {dealt : PartyId → PartyId → AdditiveSS R} {z : PartyId → AdditiveSS R} {link : Link}
  {packet : Packet}

/-- The shares of `parties` fit into frames. -/
def SharesFit (codec : Postcard (AdditiveSS R)) (parties : List PartyId) : Prop :=
  ∀ p ∈ parties, ∀ share : AdditiveSS R, share.party = p → Valid share.value →
    (Packet.labeled codec share).Sendable

theorem sendable_of_mem_dealScript (hfit : SharesFit codec parties)
    (hbelongs : ∀ p ∈ parties, ∀ q ∈ parties, ∃ r ∈ parties, (dealt p q).Belongs parties r)
    (hpacket : packet ∈ (dealScript codec parties [dealt]).packets link) : packet.Sendable := by
  simp only [dealScript] at hpacket
  split_ifs at hpacket with hlink
  · rw [List.map_singleton, List.mem_singleton] at hpacket
    obtain ⟨r, hr, h⟩ := hbelongs _ hlink.1 _ hlink.2
    rw [hpacket]
    exact hfit r hr _ h.party h.valid
  · cases hpacket

end

section
variable {R K : Type} [RingOps R] [CommRing K] [LawfulRing R K] {codec : Postcard (AdditiveSS R)} {checks : Bool}
  {wire : Postcard (List (List UInt8))}
  {feed : List UInt8 → List (Except NetworkError (List UInt8)) × List UInt8} {checked : Bool}
  {config : NetworkConfig} {env : PartyId → Connecting} {networks : PartyId → TcpNetwork Connection Connection}

variable (codec checks networks) in
/-- The code of the parties, each of which asks its network for the parties. -/
def onNetworks (rng : PartyId → Nat → R) (input : PartyId → R) (p : PartyId) :
    Prog (Except (ProtocolError R) R) :=
  ((⟨input p⟩ : SecureAddition R).execute codec checks (networks p).opened.partyIds (rng p)).run

/-- **Everyone learns the sum of the inputs**, on sockets: every run can be continued until nothing more
happens, and then each party has the sum, and nothing is left to be read. -/
theorem sum_on_sockets (hwire : WireSized wire) (hfeed : LengthDelimited.Feeds socketCodec feed)
    (hne : config.peerIps ≠ [])
    (hcreate : ∀ p < config.peerIps.length, create checked p config (env p) = some (.ok (networks p)))
    {rng : PartyId → Nat → R} {input : PartyId → R} (hinput : ∀ p < config.peerIps.length, Valid (input p))
    (hrng : ∀ p < config.peerIps.length, ∀ i, Valid (rng p i))
    (hfit : SharesFit codec (List.range config.peerIps.length)) :
    ∃ total : R, Valid total ∧
      val total = ((List.range config.peerIps.length).map fun p => val (input p)).sum ∧
      ∀ events d, (Deployment.connected networks (onNetworks codec checks networks rng input)).run wire feed
          (List.range config.peerIps.length) events = some d →
        (∃ rest d', d.run wire feed (List.range config.peerIps.length) rest = some d' ∧
          d'.Maximal wire feed (List.range config.peerIps.length)) ∧
        (d.Maximal wire feed (List.range config.peerIps.length) → ∀ p < config.peerIps.length,
          d.progs p = .ret (.ok total) ∧ ∀ q < config.peerIps.length, (d.nets p).unread q = []) := by
  have hlists : ∀ p ∈ List.range config.peerIps.length,
      (networks p).opened.partyIds.Perm (List.range config.peerIps.length) := by
    intro p hp
    have hintended := intended_of_create (List.mem_range.mp hp) (hcreate p (List.mem_range.mp hp))
    rw [partyIds, opened, List.map_map]
    exact hintended.writers
  have hne' : List.range config.peerIps.length ≠ [] := by
    rw [Ne, List.range_eq_nil, List.length_eq_zero_iff]
    exact hne
  obtain ⟨dealt, z, total, hdealt, hsums, hval, hcarries⟩ := exists_carries codec checks List.nodup_range hne' hlists
    (fun p hp => hinput p (List.mem_range.mp hp)) fun p hp => hrng p (List.mem_range.mp hp)
  refine ⟨total, hsums.sharing.valid, hval, fun events d hrun => ?_⟩
  refine Deployment.ends_of_carries hwire hfeed hcreate (fun p hp => ?_) hcarries (fun link packet hpacket => ?_) hrun
  · exact portable (fun q hq => (hlists p (List.mem_range.mpr hp)).mem_iff.mp hq) _ _
  · obtain hpacket | hpacket := List.mem_append.mp hpacket
    · exact sendable_of_mem_dealScript hfit (fun p hp q hq => ⟨q, hq, (hdealt p hp).2.belongs q hq⟩) hpacket
    · exact sendable_of_mem_dealScript hfit (fun p hp q _ => ⟨p, hp, hsums.sharing.belongs p hp⟩) hpacket

end

/-! ### Two parties -/

theorem sharesFit_two : SharesFit (.ofCodec (AdditiveSS.codec Mersenne61.codec)) (List.range 2) := by
  intro p hp share hparty hvalid
  have hvalue : Codec.varintSize share.value.value.toNat ≤ 9 :=
    Codec.varintSize_le (Nat.lt_trans (show share.value.value.toNat < mersenneModulus from hvalid) (by decide))
  have hparty' : Codec.varintSize share.party ≤ 1 := by
    rw [hparty]
    exact Codec.varintSize_le (Nat.lt_trans (List.mem_range.mp hp) (by decide))
  have hlength : ((AdditiveSS.codec Mersenne61.codec).write share).length ≤ 11 := by
    change (Codec.writeVarint share.value.value.toNat ++
      (Codec.writeVarint share.party ++ Codec.bool.write share.isLeader)).length ≤ 11
    rw [List.length_append, List.length_append, Codec.length_writeVarint, Codec.length_writeVarint]
    have hbool : (Codec.bool.write share.isLeader).length = 1 := rfl
    omega
  have hsize : Codec.varintSize ((AdditiveSS.codec Mersenne61.codec).write share).length ≤ 1 :=
    Codec.varintSize_le (k := 0) (Nat.lt_of_le_of_lt hlength (by decide))
  have hone : Codec.varintSize 1 ≤ 1 := Codec.varintSize_le (k := 0) (by decide)
  change Codec.varintSize 1 + (Codec.varintSize ((AdditiveSS.codec Mersenne61.codec).write share).length +
    ((AdditiveSS.codec Mersenne61.codec).write share).length + 0) ≤ 8 * 1024 * 1024
  omega

theorem sum_on_sockets_two :
    ∃ total : Mersenne61, val total = ([0, 1].map fun p => val (if p = 1 then ⟨9⟩ else ⟨5⟩ : Mersenne61)).sum ∧
      ∃ events d, (Deployment.connected Deployment.pairNetworks (onNetworks
          (.ofCodec (AdditiveSS.codec Mersenne61.codec)) true Deployment.pairNetworks (fun _ _ => ⟨7⟩)
          fun p => if p = 1 then ⟨9⟩ else ⟨5⟩)).run packetCodec
          (LengthDelimited.feed socketCodec NetworkError.ioError) (List.range 2) events = some d ∧
        ∀ p < 2, d.progs p = .ret (.ok total) := by
  have hvalid : ∀ p : PartyId, Valid (if p = 1 then ⟨9⟩ else ⟨5⟩ : Mersenne61) := by
    intro p
    split_ifs <;> exact show Mersenne61.Canonical _ by decide
  obtain ⟨events, d, hrun, hmax⟩ := Deployment.exists_maximal (Deployment.connected Deployment.pairNetworks
    (onNetworks (.ofCodec (AdditiveSS.codec Mersenne61.codec)) true Deployment.pairNetworks (fun _ _ => ⟨7⟩)
      fun p => if p = 1 then ⟨9⟩ else ⟨5⟩))
  obtain ⟨total, -, hval, hends⟩ := @sum_on_sockets _ _ _ _ _ _ true packetCodec _ true ⟨5000, [0, 0]⟩
    (fun _ => twoParties) Deployment.pairNetworks wireSized_packetCodec Deployment.sockets_feed (by decide)
    Deployment.create_pairNetworks (fun _ _ => ⟨7⟩) (fun p => if p = 1 then ⟨9⟩ else ⟨5⟩) (fun p _ => hvalid p)
    (fun _ _ _ => show Mersenne61.Canonical _ by decide) sharesFit_two
  exact ⟨total, hval, events, d, hrun, fun p hp => ((hends events d hrun).2 hmax p hp).1⟩

end SecureAddition

end SclRs
