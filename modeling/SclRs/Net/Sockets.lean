import SclRs.Net.Portable
import SclRs.Net.TcpRecv

/-!
# Parties connected by sockets

A `Deployment` is the processes of some parties, each with its code, the `TcpNetwork` that it has created, and
what the `FramedRead` of each stream keeps. What a party writes to a socket arrives in pieces of any length,
whenever the network carries them. So a party may hold the first half of a packet, or three packets.
-/

namespace SclRs

open Lib Lib.Insertions

/-- What `split_socket`'s reader makes of a frame. -/
def Packet.ofFrame (codec : Postcard (List (List UInt8))) (frame : Except NetworkError (List UInt8)) :
    Except NetworkError Packet := do
  let bytes ← frame
  match codec.fromBytes bytes with
  | none => .error .serializationError
  | some innerBytes => .ok ⟨innerBytes.map fun bytes => ⟨bytes, none⟩⟩

/-- The bytes that are written to a socket. -/
def PeerWriter.bytes : PeerWriter → List UInt8
  | loopBack _ => []
  | socket stream => stream

/-- The party that the operation names is one of `parties`. -/
def NetOp.Within (parties : List PartyId) : NetOp → Prop
  | sendTo party _ | recvFrom party | recvFromWithTimeout party _ => party ∈ parties
  | recvAny | recvAnyWithTimeout _ | record _ => True

namespace TcpNetwork

section
variable (codec : Postcard (List (List UInt8))) (order : List PartyId) (elapsed : Bool) (net : TcpBackend)

/-- An operation on sockets that do not fail: a poll of all streams takes them in an `order`, and the time of
a timed receive has `elapsed` or not. -/
def perform : (op : NetOp) → Option op.Out × TcpBackend
  | .sendTo party packet =>
    (some (net.sendTo codec (fun _ => .ok ()) party packet).1, (net.sendTo codec (fun _ => .ok ()) party packet).2)
  | .recvFrom party => net.recvFrom party
  | .recvAny => net.recvAny order
  | .recvFromWithTimeout party _ => net.recvFromWithTimeout elapsed party
  | .recvAnyWithTimeout _ => net.recvAnyWithTimeout elapsed order
  | .record _ => (some (), net)

/-- What has been written to the socket of `party`. -/
def written (party : PartyId) : List UInt8 := ((net.writers.lookup party).map PeerWriter.bytes).getD []

/-- What has arrived from `party`. -/
def unread (party : PartyId) : List (Except NetworkError Packet) := ((net.stream party).map (·.unread)).getD []

end

/-- Party `me` is connected to all parties, none of which has closed its stream. -/
structure Open (parties : List PartyId) (me : PartyId) (net : TcpBackend) : Prop where
  localPartyId : net.localPartyId = me
  socket : ∀ q ∈ parties, q ≠ me → ∃ stream, net.writers.lookup q = some (.socket stream)
  loopBack : ∃ channel, net.writers.lookup me = some (.loopBack channel)
  keys : (net.receivers.map Prod.fst).Perm parties
  stream : ∀ q ∈ parties, net.stream q = some ⟨net.unread q, false⟩

/-- The network is open; this has been written to its sockets and this can be read. -/
structure Contains (parties : List PartyId) (me : PartyId) (written : PartyId → List UInt8)
    (unread : PartyId → List (Except NetworkError Packet)) (net : TcpBackend) : Prop
    extends net.Open parties me where
  written_eq : net.written = written
  unread_eq : net.unread = unread

section
variable {codec : Postcard (List (List UInt8))} {parties order : List PartyId} {elapsed : Bool}
  {me q : PartyId} {net net' : TcpBackend} {packet : Packet}

theorem Open.contains_of_stream (h : net.Open parties me) {unread : List (Except NetworkError Packet)}
    (hlocal : net'.localPartyId = net.localPartyId) (hwriters : net'.writers = net.writers)
    (hkeys : net'.receivers.map Prod.fst = net.receivers.map Prod.fst)
    (hstream : ∀ r, net'.stream r = if r = q then some ⟨unread, false⟩ else net.stream r) :
    net'.Contains parties me net.written (Function.update net.unread q unread) := by
  have hunread : net'.unread = Function.update net.unread q unread := by
    funext r
    rw [TcpNetwork.unread, hstream]
    by_cases hr : r = q
    · rw [if_pos hr, hr, Function.update_self]
      rfl
    · rw [if_neg hr, Function.update_of_ne hr]
      rfl
  refine ⟨⟨hlocal.trans h.localPartyId, hwriters ▸ h.socket, hwriters ▸ h.loopBack, hkeys ▸ h.keys,
    fun r hr => ?_⟩, ?_, hunread⟩
  · rw [hunread, hstream]
    by_cases hq : r = q
    · rw [if_pos hq, hq, Function.update_self]
    · rw [if_neg hq, Function.update_of_ne hq, h.stream r hr]
  · funext r
    rw [TcpNetwork.written, hwriters]
    rfl

theorem Open.setStream (h : net.Open parties me) (hq : q ∈ parties) (unread : List (Except NetworkError Packet)) :
    (net.setStream q ⟨unread, false⟩).Contains parties me net.written (Function.update net.unread q unread) := by
  refine h.contains_of_stream rfl rfl (by rw [TcpNetwork.setStream, keys_modify]) fun r => ?_
  rw [stream_setStream]
  by_cases hr : r = q
  · rw [if_pos hr, if_pos hr, hr, h.stream q hq]
    rfl
  · rw [if_neg hr, if_neg hr]

theorem Open.arrive (h : net.Open parties me) (hq : q ∈ parties) (hne : q ≠ me)
    (packet : Except NetworkError Packet) :
    (net.arrive (.packet q packet)).Contains parties me net.written
      (Function.update net.unread q (net.unread q ++ [packet])) := by
  have harrival : (Arrival.packet q packet).party = q := rfl
  have hlocal : q ≠ net.localPartyId := h.localPartyId ▸ hne
  refine h.contains_of_stream (localPartyId_arrive ..) ?_ ?_ fun r => ?_
  · rw [TcpNetwork.arrive]
    split <;> rfl
  · rw [TcpNetwork.arrive, harrival, if_neg hlocal]
    dsimp only
    rw [keys_modify]
  · rw [stream_arrive, harrival]
    by_cases hr : r = q
    · rw [if_pos ⟨hlocal, hr⟩, if_pos hr, hr, h.stream q hq]
      rfl
    · rw [if_neg fun hand => hr hand.2, if_neg hr]

theorem Open.arriveAll (h : net.Open parties me) (hq : q ∈ parties) (hne : q ≠ me)
    (packets : List (Except NetworkError Packet)) :
    (net.arriveAll (packets.map (.packet q))).Contains parties me net.written
      (Function.update net.unread q (net.unread q ++ packets)) := by
  induction packets generalizing net with
  | nil => exact ⟨h, rfl, by rw [List.append_nil, Function.update_eq_self]; rfl⟩
  | cons packet packets ih =>
    have hfirst := h.arrive hq hne packet
    have hrest := ih hfirst.toOpen
    rw [hfirst.written_eq, hfirst.unread_eq, Function.update_idem, Function.update_self, List.append_assoc] at hrest
    exact hrest

theorem Open.setSocket (h : net.Open parties me) {stream : List UInt8}
    (hlookup : net.writers.lookup q = some (.socket stream)) (stream' : List UInt8) :
    ({ net with writers := modify net.writers q fun _ => .socket stream' } : TcpBackend).Contains parties me
      (Function.update net.written q stream') net.unread := by
  refine ⟨⟨h.localPartyId, fun r hr hne => ?_, ?_, h.keys, h.stream⟩, ?_, rfl⟩
  · rw [lookup_modify]
    by_cases hr' : r = q
    · rw [if_pos hr', hr', hlookup]
      exact ⟨stream', rfl⟩
    · rw [if_neg hr']
      exact h.socket r hr hne
  · obtain ⟨channel, hchannel⟩ := h.loopBack
    have hne : me ≠ q := by
      rintro rfl
      rw [hchannel] at hlookup
      cases hlookup
    rw [lookup_modify, if_neg hne]
    exact ⟨channel, hchannel⟩
  · funext r
    rw [TcpNetwork.written, lookup_modify]
    by_cases hr : r = q
    · rw [if_pos hr, hr, hlookup, Function.update_self]
      rfl
    · rw [if_neg hr, Function.update_of_ne hr]
      rfl

theorem Open.setChannel (h : net.Open parties me) (channel' : List Packet) :
    ({ net with writers := modify net.writers me fun _ => .loopBack channel' } : TcpBackend).Contains parties me
      net.written net.unread := by
  obtain ⟨channel, hchannel⟩ := h.loopBack
  refine ⟨⟨h.localPartyId, fun r hr hne => ?_, ⟨channel', ?_⟩, h.keys, h.stream⟩, ?_, rfl⟩
  · rw [lookup_modify, if_neg hne]
    exact h.socket r hr hne
  · rw [lookup_modify, if_pos rfl, hchannel]
    rfl
  · funext r
    rw [TcpNetwork.written, lookup_modify]
    by_cases hr : r = me
    · rw [if_pos hr, TcpNetwork.written, hr, hchannel]
      rfl
    · rw [if_neg hr]
      rfl

theorem Open.sendTo_of_ne (h : net.Open parties me) (hq : q ∈ parties) (hne : q ≠ me) (packet : Packet) :
    ∃ net', net.sendTo codec (fun _ => .ok ()) q packet = (.ok packet.size, net') ∧
      net'.Contains parties me
        (Function.update net.written q (net.written q ++ socketCodec.frame (packet.toAllocvec codec)))
        net.unread := by
  obtain ⟨stream, hlookup⟩ := h.socket q hq hne
  have hwritten : net.written q = stream := by
    rw [TcpNetwork.written, hlookup]
    rfl
  have hsend : ((PeerWriter.socket stream).send codec packet).1 =
      .socket (stream ++ socketCodec.frame (packet.toAllocvec codec)) :=
    congrArg PeerWriter.socket (List.append_assoc ..)
  refine ⟨_, by rw [TcpNetwork.sendTo, hlookup]; rfl, ?_⟩
  rw [hwritten, hsend]
  exact h.setSocket hlookup _

theorem Open.sendTo_self (h : net.Open parties me) (hme : me ∈ parties) (packet : Packet) :
    ∃ net', net.sendTo codec (fun _ => .ok ()) me packet = (.ok packet.size, net') ∧
      net'.Contains parties me net.written (Function.update net.unread me (net.unread me ++ [.ok packet])) := by
  obtain ⟨channel, hlookup⟩ := h.loopBack
  have hwritten := h.setChannel (channel ++ [packet])
  refine ⟨_, by rw [TcpNetwork.sendTo, hlookup]; simp only [write, h.stream me hme]; rfl, ?_⟩
  have hstream := hwritten.toOpen.setStream hme (net.unread me ++ [.ok packet])
  rw [hwritten.written_eq, hwritten.unread_eq] at hstream
  exact hstream

theorem Open.recvFrom_nil (h : net.Open parties me) (hq : q ∈ parties) (hnil : net.unread q = []) :
    net.recvFrom q = (none, net) := by
  rw [TcpNetwork.recvFrom, h.stream q hq, hnil]
  rfl

theorem Open.recvFrom_cons (h : net.Open parties me) (hq : q ∈ parties) {r : Except NetworkError Packet}
    {rest : List (Except NetworkError Packet)} (hcons : net.unread q = r :: rest) :
    net.recvFrom q = (some r, net.setStream q ⟨rest, false⟩) := by
  rw [TcpNetwork.recvFrom, h.stream q hq, hcons]
  rfl

/-- A poll of all streams finds nothing, or the next packet of one. -/
theorem Open.recvAny_eq (h : net.Open parties me) (horder : order.Perm parties) (hne : parties ≠ []) :
    (∀ q ∈ parties, net.unread q = []) ∧ net.recvAny order = (none, net) ∨
    ∃ q ∈ parties, ∃ r rest, net.unread q = r :: rest ∧
      net.recvAny order = (some (r.map (q, ·)), net.setStream q ⟨rest, false⟩) := by
  have hopen : net.receivers ≠ [] := fun hnil => hne (List.perm_nil.mp (by simpa [hnil] using h.keys.symm))
  have hpoll : ∀ order : List PartyId, (∀ q ∈ order, q ∈ parties) →
      (∀ q ∈ order, net.unread q = []) ∧ net.pollReceivers order = (none, net) ∨
      ∃ q ∈ order, ∃ r rest, net.unread q = r :: rest ∧
        net.pollReceivers order = (some (some (q, r)), net.setStream q ⟨rest, false⟩) := by
    intro order
    induction order with
    | nil => exact fun _ => .inl ⟨by simp, by simp [pollReceivers, hopen]⟩
    | cons q order ih =>
      intro hmem
      obtain ⟨hq, hmem⟩ := List.forall_mem_cons.mp hmem
      rw [pollReceivers, h.stream q hq]
      cases hunread : net.unread q with
      | cons r rest => exact .inr ⟨q, List.mem_cons_self, r, rest, hunread, rfl⟩
      | nil =>
        obtain ⟨hnil, heq⟩ | ⟨p, hp, r, rest, hcons, heq⟩ := ih hmem
        · exact .inl ⟨List.forall_mem_cons.mpr ⟨hunread, hnil⟩, heq⟩
        · exact .inr ⟨p, List.mem_cons_of_mem _ hp, r, rest, hcons, heq⟩
  obtain ⟨hnil, heq⟩ | ⟨q, hq, r, rest, hcons, heq⟩ := hpoll order fun q hq => horder.mem_iff.mp hq
  · exact .inl ⟨fun q hq => hnil q (horder.mem_iff.mpr hq), by rw [recvAny, heq]⟩
  · exact .inr ⟨q, horder.mem_iff.mp hq, r, rest, hcons, by rw [recvAny, heq]⟩

/-- What an operation of party `me` does, by what the network contains. -/
inductive Performs (codec : Postcard (List (List UInt8))) (parties : List PartyId) (me : PartyId)
    (net : TcpBackend) : (op : NetOp) → op.Out → TcpBackend → Prop
  | sent {q : PartyId} {packet : Packet} {net' : TcpBackend} : q ≠ me →
      net'.Contains parties me
        (Function.update net.written q (net.written q ++ socketCodec.frame (packet.toAllocvec codec))) net.unread →
      Performs codec parties me net (.sendTo q packet) (.ok packet.size) net'
  | kept {packet : Packet} {net' : TcpBackend} :
      net'.Contains parties me net.written (Function.update net.unread me (net.unread me ++ [.ok packet])) →
      Performs codec parties me net (.sendTo me packet) (.ok packet.size) net'
  | received {op : NetOp} {q : PartyId} {r : Except NetworkError Packet} {rest : List (Except NetworkError Packet)}
      {out : op.Out} {net' : TcpBackend} : q ∈ parties → (⟨q, me⟩ : Link) ∈ op.awaits me parties →
      net.unread q = r :: rest → (∀ packet, r = .ok packet → op.packetOut q packet = some out) →
      net'.Contains parties me net.written (Function.update net.unread q rest) →
      Performs codec parties me net op out net'
  | goes {op : NetOp} {out : op.Out} : (∀ q packet, op ≠ .sendTo q packet) → op.localOut = some out →
      Performs codec parties me net op out net

theorem Open.performs_received (h : net.Open parties me) {op : NetOp} {q : PartyId} {r : Except NetworkError Packet}
    {rest : List (Except NetworkError Packet)} {taken out : op.Out} (hq : q ∈ parties)
    (hawaits : (⟨q, me⟩ : Link) ∈ op.awaits me parties) (hunread : net.unread q = r :: rest)
    (hout : ∀ packet, r = .ok packet → op.packetOut q packet = some taken)
    (hperform : (some taken, net.setStream q ⟨rest, false⟩) = (some out, net')) :
    Performs codec parties me net op out net' := by
  obtain ⟨heq, rfl⟩ := Prod.mk.inj hperform
  obtain rfl := Option.some.inj heq
  exact .received hq hawaits hunread hout (h.setStream hq rest)

theorem Open.performs (h : net.Open parties me) (hme : me ∈ parties) (horder : order.Perm parties) {op : NetOp}
    (hop : op.Within parties) {out : op.Out} (hperform : net.perform codec order elapsed op = (some out, net')) :
    Performs codec parties me net op out net' := by
  have hne : parties ≠ [] := List.ne_nil_of_mem hme
  cases op with
  | sendTo q packet =>
    by_cases hq : q = me
    · subst hq
      obtain ⟨net'', hsend, hcontains⟩ := @Open.sendTo_self codec parties q net h hme packet
      rw [perform, hsend] at hperform
      obtain ⟨hout, rfl⟩ := Prod.mk.inj hperform
      obtain rfl := Option.some.inj hout
      exact .kept hcontains
    · obtain ⟨net'', hsend, hcontains⟩ := @Open.sendTo_of_ne codec parties me q net h hop hq packet
      rw [perform, hsend] at hperform
      obtain ⟨hout, rfl⟩ := Prod.mk.inj hperform
      obtain rfl := Option.some.inj hout
      exact .sent hq hcontains
  | recvFrom q =>
    rw [perform] at hperform
    cases hunread : net.unread q with
    | nil =>
      rw [h.recvFrom_nil hop hunread] at hperform
      cases hperform
    | cons r rest =>
      rw [h.recvFrom_cons hop hunread] at hperform
      exact h.performs_received hop (List.mem_singleton_self _) hunread (by rintro packet rfl; rfl) hperform
  | recvAny =>
    rw [perform] at hperform
    obtain ⟨-, hpoll⟩ | ⟨q, hq, r, rest, hunread, hpoll⟩ := h.recvAny_eq horder hne
    · rw [hpoll] at hperform
      cases hperform
    · rw [hpoll] at hperform
      exact h.performs_received hq (List.mem_map_of_mem hq) hunread (by rintro packet rfl; rfl) hperform
  | recvFromWithTimeout q timeout =>
    rw [perform, recvFromWithTimeout] at hperform
    cases hunread : net.unread q with
    | nil =>
      rw [h.recvFrom_nil hop hunread] at hperform
      cases elapsed with
      | false => cases hperform
      | true =>
        obtain ⟨hout, rfl⟩ := Prod.mk.inj hperform
        obtain rfl := Option.some.inj hout
        exact .goes (by rintro _ _ ⟨⟩) rfl
    | cons r rest =>
      rw [h.recvFrom_cons hop hunread] at hperform
      exact h.performs_received hop (List.mem_singleton_self _) hunread (by rintro packet rfl; rfl) hperform
  | recvAnyWithTimeout timeout =>
    rw [perform, recvAnyWithTimeout] at hperform
    obtain ⟨-, hpoll⟩ | ⟨q, hq, r, rest, hunread, hpoll⟩ := h.recvAny_eq horder hne
    · rw [hpoll] at hperform
      cases elapsed with
      | false => cases hperform
      | true =>
        obtain ⟨hout, rfl⟩ := Prod.mk.inj hperform
        obtain rfl := Option.some.inj hout
        exact .goes (by rintro _ _ ⟨⟩) rfl
    · rw [hpoll] at hperform
      exact h.performs_received hq (List.mem_map_of_mem hq) hunread (by rintro packet rfl; rfl) hperform
  | record marker =>
    rw [perform] at hperform
    obtain ⟨hout, rfl⟩ := Prod.mk.inj hperform
    obtain rfl := Option.some.inj hout
    exact .goes (by rintro _ _ ⟨⟩) rfl

theorem Open.exists_perform (h : net.Open parties me) (hme : me ∈ parties) {op : NetOp} (hop : op.Within parties)
    (hready : op.localOut ≠ none ∨ ∃ q ∈ parties, (⟨q, me⟩ : Link) ∈ op.awaits me parties ∧ net.unread q ≠ []) :
    ∃ elapsed out net', net.perform codec parties elapsed op = (some out, net') := by
  have hne : parties ≠ [] := List.ne_nil_of_mem hme
  cases op with
  | sendTo q packet => exact ⟨false, _, _, rfl⟩
  | recvFrom q =>
    obtain hlocal | ⟨p, -, hawaits, hunread⟩ := hready
    · exact absurd rfl hlocal
    · obtain rfl : p = q := congrArg Link.sender (List.mem_singleton.mp hawaits)
      obtain ⟨r, rest, hcons⟩ := List.exists_cons_of_ne_nil hunread
      exact ⟨false, _, _, h.recvFrom_cons hop hcons⟩
  | recvAny =>
    obtain hlocal | ⟨q, hq, -, hunread⟩ := hready
    · exact absurd rfl hlocal
    · obtain ⟨hnil, -⟩ | ⟨p, -, r, rest, -, hpoll⟩ := h.recvAny_eq (.refl _) hne
      · exact absurd (hnil q hq) hunread
      · exact ⟨false, _, _, hpoll⟩
  | recvFromWithTimeout q timeout =>
    refine ⟨true, ?_⟩
    rw [perform, recvFromWithTimeout]
    cases hunread : net.unread q with
    | nil =>
      rw [h.recvFrom_nil hop hunread]
      exact ⟨_, _, rfl⟩
    | cons r rest =>
      rw [h.recvFrom_cons hop hunread]
      exact ⟨_, _, rfl⟩
  | recvAnyWithTimeout timeout =>
    refine ⟨true, ?_⟩
    rw [perform, recvAnyWithTimeout]
    obtain ⟨-, hpoll⟩ | ⟨q, -, r, rest, -, hpoll⟩ := h.recvAny_eq (.refl _) hne
    · rw [hpoll]
      exact ⟨_, _, rfl⟩
    · rw [hpoll]
      exact ⟨_, _, rfl⟩
  | record marker => exact ⟨false, _, _, rfl⟩

end

end TcpNetwork

/-- The processes of the parties. -/
structure Deployment (ρ : Type) where
  progs : PartyId → Prog ρ
  nets : PartyId → TcpBackend
  /-- The bytes that a `FramedRead` keeps. -/
  buffers : Link → List UInt8
  /-- How many of the bytes written to a socket have arrived. -/
  arrived : Link → Nat

/-- A party goes on, or bytes arrive. -/
inductive Deployment.Event
  | acts (party : PartyId) (order : List PartyId) (elapsed : Bool)
  | carries (link : Link) (n : Nat)

namespace Deployment

variable {ρ : Type}

/-- The parties have created their networks. -/
def connected (networks : PartyId → TcpNetwork Connection Connection) (program : PartyId → Prog ρ) :
    Deployment ρ :=
  ⟨program, fun p => (networks p).opened, fun _ => [], fun _ => 0⟩

section
variable (codec : Postcard (List (List UInt8)))
  (feed : List UInt8 → List (Except NetworkError (List UInt8)) × List UInt8) (parties : List PartyId)
  (d : Deployment ρ)

def transit (link : Link) : List UInt8 :=
  ((d.nets link.sender).written link.recipient).drop (d.arrived link)

/-- Some more bytes arrive: the `FramedRead` yields the frames that are complete. -/
def carry (link : Link) (n : Nat) : Deployment ρ :=
  let read := feed (d.buffers link ++ (d.transit link).take n)
  { d with
    nets := Function.update d.nets link.recipient
      ((d.nets link.recipient).arriveAll (read.1.map fun frame => .packet link.sender (Packet.ofFrame codec frame)))
    buffers := Function.update d.buffers link read.2
    arrived := Function.update d.arrived link (d.arrived link + n) }

/-- Party `me` is at `prog`, with its network in the state `net`. -/
def goes (me : PartyId) (prog : Prog ρ) (net : TcpBackend) : Deployment ρ :=
  { d with progs := Function.update d.progs me prog, nets := Function.update d.nets me net }

/-- One step. An operation that waits is polled again later; no stream ends, so that the poll changes
nothing. -/
def step : Event → Option (Deployment ρ)
  | .acts party order elapsed =>
    if party ∈ parties ∧ order.Perm ((d.nets party).receivers.map Prod.fst) then
      match d.progs party with
      | .call op next =>
        match (d.nets party).perform codec order elapsed op with
        | (some out, net) => some (d.goes party (next out) net)
        | (none, _) => none
      | .ret _ => none
      | .panic => none
    else none
  | .carries link n =>
    if link.sender ∈ parties ∧ link.recipient ∈ parties ∧ 0 < n ∧ n ≤ (d.transit link).length then
      some (d.carry codec feed link n)
    else none

def run (d : Deployment ρ) : List Event → Option (Deployment ρ)
  | [] => some d
  | event :: events => do (← d.step codec feed parties event).run events

def Maximal : Prop := ∀ event, d.step codec feed parties event = none

end

end Deployment

end SclRs
