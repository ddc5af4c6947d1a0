import SclRs.Net.Simulation.Recv
import SclRs.Net.TcpRecv

/-!
# Addresses on both backends

`other`, `send_to`, `send_many` and `recv_from` on the two backends of `Network`. `Backend` is what the
operations answer in a state, and `Addresses` says that the other party of two is found and that an id
outside `party_ids()` is refused with the state left as it is. A `TcpNetwork` addresses so in each state
that it reaches (`tcp_addresses`). `SimNetwork` does not look at the parties: it computes the id of the
other one as if the two were 0 and 1, and sends to any id and waits for any (`sim_addresses_iff`).
-/

namespace SclRs

/-- What an operation comes to: an answer, with the state it leaves, a wait or a panic. -/
inductive Answer (σ α : Type)
  | ready (out : α) (state : σ)
  | waits (state : σ)
  | panics

/-- What the operations of a `Network` come to in a state; `other` is `none` where it panics. -/
structure Backend (σ : Type) where
  state : σ
  localParty : PartyId
  partyIds : List PartyId
  other : Option (Except NetworkError PartyId)
  sendTo : PartyId → Packet → Answer σ (Except NetworkError Nat)
  sendMany : List (PartyId × Packet) → Answer σ (Except NetworkError Unit)
  recvFrom : PartyId → Answer σ (Except NetworkError Packet)

/-- The other party of two is found, and what is addressed to an id outside `party_ids()` is refused. -/
structure Backend.Addresses {σ : Type} (b : Backend σ) (recipient sender : PartyId) (packet : Packet)
    (messages : List (PartyId × Packet)) : Prop where
  other : ∀ q, b.partyIds.Perm [b.localParty, q] → b.other = some (.ok q)
  sendTo : recipient ∉ b.partyIds →
    b.sendTo recipient packet = .ready (.error (.partyNotFound recipient)) b.state
  sendMany : ∀ message, messages.find? (·.1 ∉ b.partyIds) = some message →
    b.sendMany messages = .ready (.error (.partyNotFound message.1)) b.state
  recvFrom : sender ∉ b.partyIds → b.recvFrom sender = .ready (.error (.partyNotFound sender)) b.state

/-! ### Sockets -/

namespace TcpNetwork

/-- The operations of a `TcpNetwork`. -/
def backend (net : TcpBackend) (checks : Bool) (codec : Postcard (List (List UInt8)))
    (sockets : PartyId → Except NetworkError Unit) : Backend TcpBackend where
  state := net
  localParty := net.localPartyId
  partyIds := net.partyIds
  other := net.other checks
  sendTo recipient packet :=
    .ready (net.sendTo codec sockets recipient packet).1 (net.sendTo codec sockets recipient packet).2
  sendMany messages := .ready (net.sendMany codec sockets messages).1 (net.sendMany codec sockets messages).2
  recvFrom sender :=
    match net.recvFrom sender with
    | (some out, net) => .ready out net
    | (none, net) => .waits net

/-- The parties are those below `n`, and the streams are among theirs. -/
structure Parties (n : Nat) (net : TcpBackend) : Prop where
  partyIds : net.partyIds.Perm (List.range n)
  streams : ∀ i ∈ net.receivers.map Prod.fst, i ∈ net.partyIds

theorem Parties.keeps {n : Nat} {net net' : TcpBackend} (h : Parties n net) (hkeeps : Keeps net net') :
    Parties n net' := by
  refine ⟨hkeeps.partyIds ▸ h.partyIds, fun i hi => ?_⟩
  rw [hkeeps.partyIds]
  exact h.streams i (hkeeps.streams.subset hi)

theorem other_of_parties {n : Nat} {net : TcpBackend} (h : Parties n net) {checks : Bool} {q : PartyId}
    (hperm : net.partyIds.Perm [net.localPartyId, q]) : net.other checks = some (.ok q) := by
  have hlen : net.writers.length = 2 := by simpa [partyIds] using hperm.length_eq
  have hn : n = 2 := by simpa [partyIds, hlen] using h.partyIds.length_eq.symm
  subst hn
  have hids : [net.localPartyId, q].Perm [0, 1] := hperm.symm.trans h.partyIds
  have hsum : net.localPartyId + q = 1 := by simpa using hids.sum_eq
  have hle : net.localPartyId ≤ 1 := Nat.le.intro hsum
  have hq : 1 - net.localPartyId = q := Nat.sub_eq_of_eq_add' hsum.symm
  rw [other, if_neg (not_not.mpr hlen), usizeSub_of_le hle, hq]
  rfl

theorem addresses_of_parties {n : Nat} {net : TcpBackend} (h : Parties n net) (checks : Bool)
    (codec : Postcard (List (List UInt8))) (sockets : PartyId → Except NetworkError Unit)
    (recipient sender : PartyId) (packet : Packet) (messages : List (PartyId × Packet)) :
    (net.backend checks codec sockets).Addresses recipient sender packet messages where
  other q hperm := other_of_parties h hperm
  sendTo hrecipient := by
    have hnone : net.writers.lookup recipient = none :=
      Lib.Insertions.lookup_eq_none_iff_notMem.mpr hrecipient
    simp only [backend, TcpNetwork.sendTo, hnone]
  sendMany message hfind := by
    have hfind : messages.find? (·.1 ∉ net.partyIds) = some message := hfind
    simp only [backend, TcpNetwork.sendMany, hfind]
  recvFrom hsender := by
    have hnone : net.stream sender = none := stream_eq_none_iff.mpr fun hmem => hsender (h.streams sender hmem)
    simp only [backend, TcpNetwork.recvFrom, hnone]

section
variable {checks : Bool} {id : Nat} {config : NetworkConfig} {env : Connecting}
  {network : TcpNetwork Connection Connection} {net : TcpBackend} {codec : Postcard (List (List UInt8))}

theorem parties_opened (hid : id < config.peerIps.length)
    (hcreate : create checks id config env = some (.ok network)) :
    Parties config.peerIps.length network.opened := by
  have hintended := intended_of_create hid hcreate
  have hids : network.opened.partyIds = network.writers.map Prod.fst := by
    rw [partyIds, opened, List.map_map]
    rfl
  refine ⟨hids ▸ hintended.writers, fun i hi => ?_⟩
  rw [hids, ← hintended.receivers]
  rwa [opened, List.map_map] at hi

/-- **A network of sockets** addresses the parties in each state that it reaches. -/
theorem tcp_addresses (hid : id < config.peerIps.length)
    (hcreate : create checks id config env = some (.ok network))
    (hsteps : Relation.ReflTransGen (Step codec) network.opened net)
    (sockets : PartyId → Except NetworkError Unit) (recipient sender : PartyId) (packet : Packet)
    (messages : List (PartyId × Packet)) :
    (net.backend checks codec sockets).Addresses recipient sender packet messages :=
  addresses_of_parties ((parties_opened hid hcreate).keeps (keeps_of_steps hsteps)) ..

end

end TcpNetwork

/-! ### The simulator -/

/-- `SimNetwork`; the switchboard is shared. -/
structure SimNetwork where
  localParty : PartyId
  parties : List PartyId

namespace SimNetwork

variable (network : SimNetwork)

/-- `other`; `none` where the subtraction panics. -/
def other (checks : Bool) : Option (Except NetworkError PartyId) :=
  if network.parties.length ≠ 2 then some (.error (.expectedTwoNodeNet network.parties.length))
  else (usizeSub checks 1 network.localParty).map .ok

/-- Code is polled until it is done or waits. -/
def poll {ρ : Type} (waker : TaskId) (sb : Switchboard) : Prog ρ → Poll ρ
  | .ret result => .ready result sb
  | .panic => .panic
  | .call op next =>
    match sb.perform network.localParty network.parties waker none op with
    | .ready out sb => poll waker sb (next out)
    | .pending deadline sb => .pending deadline sb
    | .panic => .panic

end SimNetwork

def Poll.answer {α : Type} : Poll α → Answer Switchboard α
  | ready out sb => .ready out sb
  | pending _ sb => .waits sb
  | panic => .panics

namespace SimNetwork

/-- The operations of a `SimNetwork`. -/
def backend (network : SimNetwork) (checks : Bool) (sb : Switchboard) (waker : TaskId) : Backend Switchboard where
  state := sb
  localParty := network.localParty
  partyIds := network.parties
  other := network.other checks
  sendTo recipient packet := (network.poll waker sb (Prog.op (.sendTo recipient packet))).answer
  sendMany messages := (network.poll waker sb (Prog.sendMany messages)).answer
  recvFrom sender := (network.poll waker sb (Prog.op (.recvFrom sender))).answer

/-- The ids of two parties are `0` and `1`, or seem so to a subtraction that wraps around. -/
def AddsUp (checks : Bool) (p q : PartyId) : Prop := p + q = 1 ∨ checks = false ∧ p + q = 2 ^ 64 + 1

variable {network : SimNetwork} {checks : Bool} {sb : Switchboard} {waker : TaskId}
  {recipient sender : PartyId} {packet : Packet} {messages : List (PartyId × Packet)}

theorem usizeSub_one_eq_some {p q : Nat} (hp : p < 2 ^ 64) (hq : q < 2 ^ 64) :
    usizeSub checks 1 p = some q ↔ p + q = 1 ∨ checks = false ∧ p + q = 2 ^ 64 + 1 := by
  rw [usizeSub]
  split_ifs with hle hchecks
  · rw [Option.some.injEq]
    omega
  · simp [hchecks]
    omega
  · have hmod : (2 ^ 64 + 1 - p) % 2 ^ 64 = 2 ^ 64 + 1 - p := Nat.mod_eq_of_lt (by omega)
    rw [Option.some.injEq, hmod]
    simp only [Bool.not_eq_true] at hchecks
    simp only [hchecks, true_and]
    omega

theorem other_eq_ok_iff {q : PartyId} (hwidth : ∀ p ∈ network.parties, p < 2 ^ 64)
    (hperm : network.parties.Perm [network.localParty, q]) :
    network.other checks = some (.ok q) ↔ AddsUp checks network.localParty q := by
  have hlen : network.parties.length = 2 := hperm.length_eq
  have hlocal : network.localParty < 2 ^ 64 := hwidth _ (hperm.mem_iff.mpr (by simp))
  have hq : q < 2 ^ 64 := hwidth q (hperm.mem_iff.mpr (by simp))
  rw [other, if_neg (not_not.mpr hlen), Option.map_eq_some_iff, AddsUp, ← usizeSub_one_eq_some hlocal hq]
  simp

theorem sendTo_ne_error (e : NetworkError) (sb' : Switchboard) :
    (network.backend checks sb waker).sendTo recipient packet ≠ .ready (.error e) sb' := by
  simp only [backend, Prog.op, poll, Switchboard.perform]
  intro h
  cases hsend : sb.send network.localParty recipient packet with
  | none =>
    simp only [hsend] at h
    cases h
  | some sb =>
    simp only [hsend] at h
    cases h

theorem recvFrom_ne_error (e : NetworkError) (sb' : Switchboard) :
    (network.backend checks sb waker).recvFrom sender ≠ .ready (.error e) sb' := by
  simp only [backend, Prog.op, poll, Switchboard.perform, Switchboard.pollRecv]
  intro h
  cases hrecv : sb.tryRecv ⟨sender, network.localParty⟩ with
  | none =>
    simp only [hrecv] at h
    cases h
  | some received =>
    simp only [hrecv] at h
    cases h

theorem sendMany_ne_error (e : NetworkError) (sb' : Switchboard) :
    (network.backend checks sb waker).sendMany messages ≠ .ready (.error e) sb' := by
  simp only [backend]
  induction messages generalizing sb with
  | nil => simp [Prog.sendMany, poll, Poll.answer]
  | cons message messages ih =>
    obtain ⟨target, packet⟩ := message
    simp only [Prog.sendMany, poll, Switchboard.perform]
    cases hsend : sb.send network.localParty target packet with
    | none => simp [Poll.answer]
    | some sb => exact ih

/-- **The simulator** addresses so just where its two ids add up and no id outside `party_ids()` is named. -/
theorem sim_addresses_iff (hwidth : ∀ p ∈ network.parties, p < 2 ^ 64) :
    (network.backend checks sb waker).Addresses recipient sender packet messages ↔
      (∀ q, network.parties.Perm [network.localParty, q] → AddsUp checks network.localParty q) ∧
        recipient ∈ network.parties ∧ sender ∈ network.parties ∧
        ∀ message ∈ messages, message.1 ∈ network.parties := by
  constructor
  · intro h
    refine ⟨fun q hperm => (other_eq_ok_iff hwidth hperm).mp (h.other q hperm), ?_, ?_, fun message hmessage => ?_⟩
    · by_contra hrecipient
      exact sendTo_ne_error _ _ (h.sendTo hrecipient)
    · by_contra hsender
      exact recvFrom_ne_error _ _ (h.recvFrom hsender)
    · by_contra hunknown
      cases hfind : messages.find? (·.1 ∉ network.parties) with
      | none =>
        have hknown := List.find?_eq_none.mp hfind message hmessage
        exact hknown (by simpa using hunknown)
      | some unknown => exact sendMany_ne_error _ _ (h.sendMany unknown hfind)
  · rintro ⟨hadds, hrecipient, hsender, hmessages⟩
    refine ⟨fun q hperm => (other_eq_ok_iff hwidth hperm).mpr (hadds q hperm), fun h => absurd hrecipient h, ?_,
      fun h => absurd hsender h⟩
    intro message hfind
    have hunknown := List.find?_some hfind
    exact absurd (hmessages message (List.mem_of_find?_eq_some hfind)) (of_decide_eq_true hunknown)

end SimNetwork

/-- **Addresses on both backends.** -/
theorem addressing_iff {network : SimNetwork} {checks : Bool} {sb : Switchboard} {waker : TaskId}
    {recipient sender : PartyId} {packet : Packet} {messages : List (PartyId × Packet)}
    (hwidth : ∀ p ∈ network.parties, p < 2 ^ 64) :
    (∀ (id : Nat) (config : NetworkConfig) (env : Connecting) (created : TcpNetwork Connection Connection)
      (net : TcpBackend) (codec : Postcard (List (List UInt8))) (sockets : PartyId → Except NetworkError Unit),
      id < config.peerIps.length → TcpNetwork.create checks id config env = some (.ok created) →
      Relation.ReflTransGen (TcpNetwork.Step codec) created.opened net →
        (net.backend checks codec sockets).Addresses recipient sender packet messages) ∧
    ((network.backend checks sb waker).Addresses recipient sender packet messages ↔
      (∀ q, network.parties.Perm [network.localParty, q] → SimNetwork.AddsUp checks network.localParty q) ∧
        recipient ∈ network.parties ∧ sender ∈ network.parties ∧
        ∀ message ∈ messages, message.1 ∈ network.parties) :=
  ⟨fun _ _ _ _ _ _ _ hid hcreate hsteps => TcpNetwork.tcp_addresses hid hcreate hsteps ..,
    SimNetwork.sim_addresses_iff hwidth⟩

/-- Party 7 of the two parties 4 and 7. -/
def fourAndSeven : SimNetwork := ⟨7, [4, 7]⟩

theorem addressing_two :
    (TcpNetwork.twoConnected.opened.backend true packetCodec fun _ => .ok ()).Addresses 4 4 .empty [] ∧
    ((fourAndSeven.backend true (.new fun _ _ => 0) 1).Addresses 4 4 .empty [] ↔
      (∀ q, fourAndSeven.parties.Perm [fourAndSeven.localParty, q] →
        SimNetwork.AddsUp true fourAndSeven.localParty q) ∧
        4 ∈ fourAndSeven.parties ∧ 4 ∈ fourAndSeven.parties ∧
        ∀ message ∈ ([] : List (PartyId × Packet)), message.1 ∈ fourAndSeven.parties) := by
  have h := @addressing_iff fourAndSeven true (.new fun _ _ => 0) 1 4 4 .empty [] (by decide)
  exact ⟨h.1 0 ⟨5000, [0, 0]⟩ TcpNetwork.twoParties TcpNetwork.twoConnected _ packetCodec _ (by decide) rfl .refl,
    h.2⟩

/-- **Party 7 does not find party 4**, and a packet to party 9 is sent. -/
theorem sim_misaddressed :
    fourAndSeven.other true = none ∧ fourAndSeven.other false = some (.ok (2 ^ 64 - 6)) ∧
    (∃ sb', (fourAndSeven.backend true (.new fun _ _ => 0) 1).sendTo 9 .empty = .ready (.ok 0) sb') ∧
    (∃ sb', (fourAndSeven.backend true (.new fun _ _ => 0) 1).recvFrom 9 = .waits sb') ∧
    ¬ (fourAndSeven.backend true (.new fun _ _ => 0) 1).Addresses 9 9 .empty [(9, .empty)] := by
  refine ⟨rfl, rfl, ⟨_, rfl⟩, ⟨_, rfl⟩, fun h => ?_⟩
  exact SimNetwork.sendTo_ne_error _ _ (h.sendTo (by decide))

end SclRs
