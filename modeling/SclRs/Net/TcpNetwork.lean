import SclRs.Math.Poly
import SclRs.Net.Tcp
import SclRs.Net.TcpCreate

/-!
# A network of sockets

The operations of `TcpNetwork` when it is created. A `PacketStream` is what has arrived from a party and is
not read yet. An operation that waits is given by what one poll of it does: it answers `none` while it is
pending. A poll of the `StreamMap` goes through the streams in an order of the map's own, takes the first
packet that it finds, and drops each stream whose end it observes before that; no other operation but
`close` drops a stream.
-/

namespace SclRs

open Lib.Insertions

/-- `PacketStream`: what has arrived and is not read yet, and whether the peer has closed it. -/
structure PacketStream where
  unread : List (Except NetworkError Packet)
  ended : Bool
deriving DecidableEq

/-- A poll of `next`: it answers `some none` at the end of the stream. -/
def PacketStream.pollNext (s : PacketStream) : Option (Option (Except NetworkError Packet)) × PacketStream :=
  match s.unread with
  | packet :: unread => (some (some packet), { s with unread := unread })
  | [] => (if s.ended then some none else none, s)

/-- What a peer does to the stream that is read from it. -/
inductive Arrival
  | packet (party : PartyId) (packet : Except NetworkError Packet)
  | closed (party : PartyId)

def Arrival.party : Arrival → PartyId
  | packet party _ | closed party => party

/-- Nothing arrives after the end. -/
def PacketStream.arrive (s : PacketStream) : Arrival → PacketStream
  | .packet _ packet => if s.ended then s else { s with unread := s.unread ++ [packet] }
  | .closed _ => { s with ended := true }

/-- The network that `TcpNetwork::create` returns. -/
abbrev TcpBackend := TcpNetwork PeerWriter PacketStream

/-- The write side of a connection. -/
def Connection.writer : Connection → PeerWriter
  | loopBack => .loopBack []
  | dialled _ | accepted _ => .socket []

namespace TcpNetwork

/-- The network before anything is sent. -/
def opened (network : TcpNetwork Connection Connection) : TcpBackend where
  localPartyId := network.localPartyId
  writers := network.writers.map fun e => (e.1, e.2.writer)
  receivers := network.receivers.map fun e => (e.1, ⟨[], false⟩)

variable (net : TcpBackend)

/-- The stream that is read from `party`, if it is not dropped. -/
def stream (party : PartyId) : Option PacketStream := net.receivers.lookup party

def setStream (party : PartyId) (stream : PacketStream) : TcpBackend :=
  { net with receivers := modify net.receivers party fun _ => stream }

def dropStream (party : PartyId) : TcpBackend := { net with receivers := remove net.receivers party }

/-- The loop-back channel has no peer. -/
def arrive (arrival : Arrival) : TcpBackend :=
  if arrival.party = net.localPartyId then net
  else { net with receivers := modify net.receivers arrival.party (·.arrive arrival) }

def arriveAll (arrivals : List Arrival) : TcpBackend := arrivals.foldl arrive net

def partyIds : List PartyId := net.writers.map Prod.fst

/-- `other`; `none` where the subtraction panics. -/
def other (checks : Bool) : Option (Except NetworkError PartyId) :=
  if net.writers.length ≠ 2 then some (.error (.expectedTwoNodeNet net.writers.length))
  else (usizeSub checks 1 net.localPartyId).map .ok

section
variable (codec : Postcard (List (List UInt8))) (sockets : PartyId → Except NetworkError Unit)

/-- `PeerWriter::send` to `party`, where writing to a socket answers `sockets`. The loop-back channel hands
the packet over at once, and fails when its stream is dropped. -/
def write (party : PartyId) (packet : Packet) (writer : PeerWriter) : Except NetworkError Nat × TcpBackend :=
  let written := { net with writers := modify net.writers party fun _ => (writer.send codec packet).1 }
  match writer with
  | .loopBack _ =>
    match net.stream party with
    | none => (.error .sendError, net)
    | some stream =>
      (.ok (writer.send codec packet).2,
        written.setStream party { stream with unread := stream.unread ++ [.ok packet] })
  | .socket _ =>
    match sockets party with
    | .error e => (.error e, net)
    | .ok () => (.ok (writer.send codec packet).2, written)

def sendTo (party : PartyId) (packet : Packet) : Except NetworkError Nat × TcpBackend :=
  match net.writers.lookup party with
  | none => (.error (.partyNotFound party), net)
  | some writer => net.write codec sockets party packet writer

/-- One message after the other, up to the first error. -/
def sendEach (net : TcpBackend) : List (PartyId × Packet) → Nat → Except NetworkError Nat × TcpBackend
  | [], bytesSent => (.ok bytesSent, net)
  | (party, packet) :: messages, _ =>
    match net.sendTo codec sockets party packet with
    | (.error e, net) => (.error e, net)
    | (.ok bytesSent, net) => sendEach net messages bytesSent

def send (packet : Packet) : Except NetworkError Nat × TcpBackend :=
  net.sendEach codec sockets (net.partyIds.map (·, packet)) 0

/-- `send_many`: the targets are validated up front, and each writer takes its first message. The writers
are independent, so that they are taken one after the other. -/
def sendMany (messages : List (PartyId × Packet)) : Except NetworkError Unit × TcpBackend :=
  match messages.find? (·.1 ∉ net.partyIds) with
  | some (party, _) => (.error (.partyNotFound party), net)
  | none =>
    match net.sendEach codec sockets (net.partyIds.filterMap fun party => messages.find? (·.1 = party)) 0 with
    | (.error e, net) => (.error e, net)
    | (.ok _, net) => (.ok (), net)

end

/-- A poll of `recv_from`. -/
def recvFrom (party : PartyId) : Option (Except NetworkError Packet) × TcpBackend :=
  match net.stream party with
  | none => (some (.error (.partyNotFound party)), net)
  | some reader =>
    match reader.pollNext with
    | (some (some packet), reader) => (some packet, net.setStream party reader)
    | (some none, _) => (some (.error (.connectionClosed (some party))), net)
    | (none, _) => (none, net)

/-- A poll of `recv_from_with_timeout`, before or after the time has `elapsed`. -/
def recvFromWithTimeout (elapsed : Bool) (party : PartyId) : Option (Except NetworkError Packet) × TcpBackend :=
  match net.recvFrom party with
  | (none, net) => (if elapsed then some (.error (.timeout (some party))) else none, net)
  | r => r

/-- `StreamMap::poll_next`, in the order in which it goes through the streams. -/
def pollReceivers (net : TcpBackend) :
    List PartyId → Option (Option (PartyId × Except NetworkError Packet)) × TcpBackend
  | [] => (if net.receivers.isEmpty then some none else none, net)
  | party :: order =>
    match net.stream party with
    | none => pollReceivers net order
    | some reader =>
      match reader.pollNext with
      | (some (some packet), reader) => (some (some (party, packet)), net.setStream party reader)
      | (some none, _) => pollReceivers (net.dropStream party) order
      | (none, _) => pollReceivers net order

/-- A poll of `recv_any`. -/
def recvAny (order : List PartyId) : Option (Except NetworkError (PartyId × Packet)) × TcpBackend :=
  match net.pollReceivers order with
  | (some (some (peerId, resultPacket)), net) => (some (resultPacket.map (peerId, ·)), net)
  | (some none, net) => (some (.error (.connectionClosed none)), net)
  | (none, net) => (none, net)

/-- A poll of `recv_any_with_timeout`. -/
def recvAnyWithTimeout (elapsed : Bool) (order : List PartyId) :
    Option (Except NetworkError (PartyId × Packet)) × TcpBackend :=
  match net.recvAny order with
  | (none, net) => (if elapsed then some (.error (.timeout none)) else none, net)
  | r => r

/-- The loop of `recv` over the parties that are left. An event is an arrival, or a poll of the stream that
is awaited (`none`). -/
def recvLoop (net : TcpBackend) :
    List PartyId → List Packet → List (Option Arrival) → Option (Except NetworkError (List Packet)) × TcpBackend
  | [], packets, _ => (some (.ok packets), net)
  | _ :: _, _, [] => (none, net)
  | i :: is, packets, some arrival :: events => recvLoop (net.arrive arrival) (i :: is) packets events
  | i :: is, packets, none :: events =>
    match net.recvFrom i with
    | (some (.ok packet), net) => recvLoop net is (packets ++ [packet]) events
    | (some (.error e), net) => (some (.error e), net)
    | (none, net) => recvLoop net (i :: is) packets events

/-- `recv`, while the events happen. -/
def recv (events : List (Option Arrival)) : Option (Except NetworkError (List Packet)) × TcpBackend :=
  net.recvLoop (List.range net.receivers.length) [] events

/-- `close`; the writers' shutdowns may fail, which leaves the streams. -/
def close (shutdown : Except NetworkError Unit) : Except NetworkError Unit × TcpBackend :=
  match shutdown with
  | .error e => (.error e, net)
  | .ok () => (.ok (), { net with receivers := [] })

end TcpNetwork

end SclRs
