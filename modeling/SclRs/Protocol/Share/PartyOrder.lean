import SclRs.Net.Addressing
import SclRs.Protocol.Share.InputPhase
import SclRs.Ss.ShamirLinear

/-!
# The order of the parties

`party_ids()` on both backends. `simulate` hands every party a clone of one vector, so that all see the
parties in one order. A `TcpNetwork` lists the keys of a hash map, whose order is not specified, and each
party has a map of its own: two parties may each list the other first, and where they take turns in
`InputPhase` they then wait for each other.
-/

namespace SclRs

open Relation InputPhase

/-! ### What `party_ids()` returns -/

/-- The networks that `simulate` makes of `parties`. -/
def SimNetwork.networks (parties : List PartyId) : List SimNetwork := parties.map fun party => ⟨party, parties⟩

/-- `order` is what `party_ids()` returns at each party of the simulator. -/
def SimNetwork.Lists (parties : List PartyId) (order : PartyId → List PartyId) : Prop :=
  ∀ network ∈ networks parties, order network.localParty = network.parties

/-- The networks that `n` parties have created. -/
structure SocketNet (checks : Bool) (n : Nat) where
  network : PartyId → TcpNetwork Connection Connection
  created : ∀ p < n, ∃ (config : NetworkConfig) (env : Connecting), config.peerIps.length = n ∧
    TcpNetwork.create checks p config env = some (.ok (network p))

/-- `order` is what `party_ids()` may return at each party on sockets: the keys of its map, in any order. -/
def SocketNet.Lists {checks : Bool} {n : Nat} (net : SocketNet checks n) (order : PartyId → List PartyId) :
    Prop :=
  ∀ p < n, (order p).Perm (net.network p).opened.partyIds

section
variable {checks : Bool} {n : Nat} {net : SocketNet checks n} {parties : List PartyId}
  {order : PartyId → List PartyId}

theorem SimNetwork.Lists.eq (h : SimNetwork.Lists parties order) {p : PartyId} (hp : p ∈ parties) :
    order p = parties := h ⟨p, parties⟩ (List.mem_map_of_mem hp)

theorem SocketNet.partyIds_perm (net : SocketNet checks n) {p : PartyId} (hp : p < n) :
    (net.network p).opened.partyIds.Perm (List.range n) := by
  obtain ⟨config, env, rfl, hcreate⟩ := net.created p hp
  exact (TcpNetwork.parties_opened hp hcreate).partyIds

theorem SocketNet.lists_iff : net.Lists order ↔ ∀ p ∈ List.range n, (order p).Perm (List.range n) := by
  constructor
  · exact fun h p hp => (h p (List.mem_range.mp hp)).trans (net.partyIds_perm (List.mem_range.mp hp))
  · exact fun h p hp => (h p (List.mem_range.mpr hp)).trans (net.partyIds_perm hp).symm

end

/-! ### Two parties that list each other first -/

/-- Party 0 lists party 1 first, and the others list party 0 first. -/
def crossed (m : Nat) (p : PartyId) : List PartyId :=
  if p = 0 then 1 :: 0 :: List.range' 2 m else 0 :: 1 :: List.range' 2 m

theorem crossed_perm (m : Nat) (p : PartyId) : (crossed m p).Perm (List.range (m + 2)) := by
  have hrange : List.range (m + 2) = 0 :: 1 :: List.range' 2 m := by
    rw [List.range_eq_range', List.range'_succ, List.range'_succ]
  rw [crossed, hrange]
  split_ifs
  · exact .swap 0 1 _
  · exact .refl _

theorem crossed_circle (m : Nat) :
    TransGen (Awaits (crossed m)) 0 0 ∧ TransGen (Awaits (crossed m)) 1 1 := by
  have hzero : Awaits (crossed m) 0 1 := (List.prefix_append [1, 0] (List.range' 2 m)).sublist
  have hone : Awaits (crossed m) 1 0 := (List.prefix_append [0, 1] (List.range' 2 m)).sublist
  exact ⟨.head hzero (.single hone), .head hone (.single hzero)⟩

theorem not_agree_crossed (m : Nat) : ¬ Agree (crossed m) (List.range (m + 2)) := by
  intro h
  have hlists := h 0 (by simp) 1 (by simp)
  simp [crossed] at hlists

/-! ### Both backends -/

section
variable {S V Threshold : Type} [LinearShare S V Threshold] [Abbreviate S] {codec : Postcard S}
  {checks : Bool} {rng : PartyId → Nat → V} {threshold : Nat → Threshold} {value : PartyId → V} {n : Nat}

theorem takesTurns_of_agree {parties : List PartyId} {order : PartyId → List PartyId} (hnodup : parties.Nodup)
    (hdealable : Dealable (S := S) checks rng threshold value parties)
    (horder : ∀ p ∈ parties, (order p).Perm parties) (hagree : Agree order parties) :
    TakesTurns codec checks rng threshold value order parties :=
  (takesTurns_iff hnodup hdealable horder).mpr fun _ hp => hagree.acyclic hnodup horder hp

theorem SocketNet.lists_crossed (net : SocketNet checks n) (hn : 1 < n) : net.Lists (crossed (n - 2)) := by
  refine SocketNet.lists_iff.mpr fun p _ => ?_
  have hperm := crossed_perm (n - 2) p
  rwa [Nat.sub_add_cancel hn] at hperm

theorem agree_of_le_one {order : PartyId → List PartyId} (hn : n ≤ 1) : Agree order (List.range n) := by
  intro p hp q hq
  have hzero : ∀ r ∈ List.range n, r = 0 := fun r hr => Nat.lt_one_iff.mp ((List.mem_range.mp hr).trans_le hn)
  rw [hzero p hp, hzero q hq]

/-- **The order of the parties** on both backends, and what it does to parties that take turns. -/
theorem party_order_iff (net : SocketNet checks n)
    (hdealable : Dealable (S := S) checks rng threshold value (List.range n)) :
    (∀ (parties : List PartyId) (order : PartyId → List PartyId), parties.Nodup →
      Dealable (S := S) checks rng threshold value parties → SimNetwork.Lists parties order →
      Agree order parties ∧ TakesTurns codec checks rng threshold value order parties) ∧
    ((∀ order, net.Lists order → Agree order (List.range n)) ↔ n ≤ 1) ∧
    ((∀ order, net.Lists order → TakesTurns codec checks rng threshold value order (List.range n)) ↔ n ≤ 1) ∧
    ∀ order, net.Lists order →
      (Agree order (List.range n) → TakesTurns codec checks rng threshold value order (List.range n)) ∧
      (TakesTurns codec checks rng threshold value order (List.range n) ↔
        ∀ p < n, ¬ TransGen (Awaits order) p p) ∧
      ∀ p < n, TransGen (Awaits order) p p → ∀ schedule t,
        (inputNet codec checks rng threshold value order).run (List.range n) schedule = some t →
          ∃ op next, t.progs p = .call op next := by
  have hnodup : (List.range n).Nodup := List.nodup_range
  refine ⟨fun parties order hparties hdealable' hlists => ?_, ⟨fun h => ?_, fun hn _ _ => agree_of_le_one hn⟩,
    ⟨fun h => ?_, fun hn order hlists => ?_⟩, fun order hlists => ?_⟩
  · have hagree : Agree order parties := fun p hp q hq => (hlists.eq hp).trans (hlists.eq hq).symm
    exact ⟨hagree, takesTurns_of_agree hparties hdealable' (fun p hp => .of_eq (hlists.eq hp)) hagree⟩
  · by_contra hn
    have hagree := h _ (net.lists_crossed (not_le.mp hn))
    apply not_agree_crossed (n - 2)
    rwa [Nat.sub_add_cancel (not_le.mp hn)]
  · by_contra hn
    have hn := not_le.mp hn
    have hlists := net.lists_crossed hn
    exact (h _ hlists).acyclic hnodup (SocketNet.lists_iff.mp hlists) (List.mem_range.mpr (Nat.zero_lt_of_lt hn))
      (crossed_circle _).1
  · exact takesTurns_of_agree hnodup hdealable (SocketNet.lists_iff.mp hlists) (agree_of_le_one hn)
  · have horder := SocketNet.lists_iff.mp hlists
    refine ⟨takesTurns_of_agree hnodup hdealable horder, ?_, fun p hp hcircle schedule t hrun => ?_⟩
    · simpa only [List.mem_range] using takesTurns_iff hnodup hdealable horder
    · exact exists_call_of_circle hnodup horder (List.mem_range.mpr hp) hcircle hrun

end

/-- Two parties; party 1 dials party 0. -/
def twoSockets : SocketNet true 2 where
  network p := if p = 0 then TcpNetwork.twoConnected else
    ⟨1, [(0, .dialled ⟨0, 5000⟩), (1, .loopBack)], [(0, .dialled ⟨0, 5000⟩), (1, .loopBack)]⟩
  created p hp := by
    refine ⟨⟨5000, [0, 0]⟩, TcpNetwork.twoParties, rfl, ?_⟩
    interval_cases p <;> rfl

/-- Two parties, each of which deals a 5. -/
def twoInputs (order : PartyId → List PartyId) :
    NetState (Except (ProtocolError Mersenne61) (List (ShamirSS Mersenne61))) :=
  inputNet (.ofCodec (ShamirSS.codec Mersenne61.codec)) true (fun _ _ => ⟨7⟩) (· - 1) (fun _ => ⟨5⟩) order

abbrev TwoFinish (order : PartyId → List PartyId) : Prop :=
  TakesTurns (.ofCodec (ShamirSS.codec Mersenne61.codec)) true (fun _ _ => ⟨7⟩) (· - 1) (fun _ => ⟨5⟩) order
    (List.range 2)

theorem dealable_two : Dealable (S := ShamirSS Mersenne61) true (fun _ _ => ⟨7⟩) (· - 1) (fun _ => ⟨5⟩)
    (List.range 2) := by
  have hfive : LawfulRing.Valid (⟨5⟩ : Mersenne61) := show Mersenne61.Canonical _ by decide
  have hseven : LawfulRing.Valid (⟨7⟩ : Mersenne61) := show Mersenne61.Canonical _ by decide
  have hpoints : ShamirSS.DistinctPoints Mersenne61 true (List.range 2) :=
    ⟨[1, 2].map FromU64.fromU64, rfl, by decide +kernel⟩
  have hadmits : ∀ receivers : List PartyId, receivers.Perm (List.range 2) →
      LawfulLinearShare.Admits (S := ShamirSS Mersenne61) true receivers (receivers.length - 1) :=
    fun receivers hperm => ⟨by simp [hperm.length_eq], by simp [hperm.length_eq], hpoints.perm hperm⟩
  exact dealable_of_admits hadmits (fun _ => hfive) fun _ _ => hseven

theorem party_order_two : TwoFinish (fun _ => [1, 0]) ∧ ¬ ∀ order, twoSockets.Lists order → TwoFinish order := by
  obtain ⟨-, -, hturns, horder⟩ := party_order_iff twoSockets dealable_two
  refine ⟨(horder (fun _ => [1, 0]) ?_).1 fun _ _ _ _ => rfl, fun h => ?_⟩
  · exact SocketNet.lists_iff.mpr fun p _ => List.Perm.swap 0 1 []
  · exact absurd (hturns.mp h) (by decide)

/-- **Two parties that list each other first** wait for each other for ever. -/
theorem crossed_never_ends : twoSockets.Lists (crossed 0) ∧ crossed 0 0 = [1, 0] ∧ crossed 0 1 = [0, 1] ∧
    ¬ Agree (crossed 0) (List.range 2) ∧ ¬ TwoFinish (crossed 0) ∧
    ∀ schedule t, (twoInputs (crossed 0)).run (List.range 2) schedule = some t →
      (∃ op next, t.progs 0 = .call op next) ∧ ∃ op next, t.progs 1 = .call op next := by
  have hlists : twoSockets.Lists (crossed 0) := twoSockets.lists_crossed (by decide)
  have horder := SocketNet.lists_iff.mp hlists
  refine ⟨hlists, rfl, rfl, not_agree_crossed 0, fun h => ?_, fun schedule t hrun => ⟨?_, ?_⟩⟩
  · exact h.acyclic List.nodup_range horder (by decide) (crossed_circle 0).1
  · exact exists_call_of_circle List.nodup_range horder (by decide) (crossed_circle 0).1 hrun
  · exact exists_call_of_circle List.nodup_range horder (by decide) (crossed_circle 0).2 hrun

end SclRs
