import Mathlib.Logic.Function.Basic
import SclRs.Lib.TimeQueue
import SclRs.Net.Network

/-!
# The switchboard

The message router and virtual-time scheduler of `switchboard/mod.rs`. Its hash maps are functions
(a missing queue or trace is the empty one, a missing clock is zero). The binary heap of scheduled
events is the list of the events in the order in which `pop` returns them, which `ScheduledEvent::cmp`
determines because no two events have one `seq`. A `Waker` is the id of the task it wakes. A hook
can only read the switchboard, so the model keeps what the hooks are called with, `hookCalls`.
-/

namespace SclRs

inductive EventKind
  | delivery (packet : Packet)
  | timer
deriving DecidableEq

structure ScheduledEvent where
  arrival : Duration
  seq : Nat
  link : Link
  kind : EventKind
deriving DecidableEq

/-- `ScheduledEvent::cmp`: by `arrival`, then by `seq`. -/
def ScheduledEvent.key (e : ScheduledEvent) : Nat ×ₗ Nat := toLex (e.arrival, e.seq)

theorem ScheduledEvent.key_lt {a b : ScheduledEvent} :
    a.key < b.key ↔ a.arrival < b.arrival ∨ a.arrival = b.arrival ∧ a.seq < b.seq :=
  Prod.Lex.toLex_lt_toLex

theorem ScheduledEvent.arrival_le {a b : ScheduledEvent} (h : a.key ≤ b.key) :
    a.arrival ≤ b.arrival := by
  rcases Prod.Lex.toLex_le_toLex.mp h with h | h
  · exact le_of_lt h
  · exact le_of_eq h.1

abbrev TaskId := Nat

/-- A delay model: the delay of a packet of the given size on the link. -/
abbrev Delay := Link → Nat → Duration

structure Switchboard where
  msgQueues : Link → List Packet
  parked : Link → Option TaskId
  events : List ScheduledEvent
  clocks : PartyId → Duration
  lastArrivals : Link → Option Duration
  delay : Delay
  seq : Nat
  traces : PartyId → List Event
  hookCalls : List (PartyId × Event)

/-- The map `m` with the value `v` at each of `links`. -/
def setAll {α : Type} (m : Link → α) (links : List Link) (v : α) : Link → α :=
  links.foldl (fun m link => Function.update m link v) m

theorem setAll_apply {α : Type} (m : Link → α) (links : List Link) (v : α) (l : Link) :
    setAll m links v l = if l ∈ links then v else m l := by
  induction links generalizing m with
  | nil => rfl
  | cons x links ih =>
    rw [setAll, List.foldl_cons, ← setAll, ih]
    by_cases hl : l ∈ links
    · simp [hl]
    · by_cases hx : l = x
      · simp [hx]
      · simp [hl, hx]

namespace Switchboard

def new (delay : Delay) : Switchboard where
  msgQueues _ := []
  parked _ := none
  events := []
  clocks _ := 0
  lastArrivals _ := none
  delay := delay
  seq := 0
  traces _ := []
  hookCalls := []

variable (sb : Switchboard)

def clockOf (party : PartyId) : Duration := sb.clocks party

/-- `record_event`: appends to the party's trace and runs the hooks. -/
def recordEvent (party : PartyId) (event : Event) : Switchboard :=
  { sb with
    traces := Function.update sb.traces party (sb.traces party ++ [event])
    hookCalls := sb.hookCalls ++ [(party, event)] }

/-- `self.events.push`, with the next sequence number. -/
def schedule (arrival : Duration) (link : Link) (kind : EventKind) : Switchboard :=
  { sb with
    seq := sb.seq + 1
    events := Lib.TimeQueue.push ScheduledEvent.key ⟨arrival, sb.seq, link, kind⟩ sb.events }

/-- The arrival on `link`, clamped to the last one scheduled there. -/
def clampArrival (link : Link) (arrival : Duration) : Duration :=
  match sb.lastArrivals link with
  | some lastArrival => max arrival lastArrival
  | none => arrival

/-- `send`; `none` where the addition of the delay panics. -/
def send (sender recipient : PartyId) (packet : Packet) : Option Switchboard :=
  let link : Link := ⟨sender, recipient⟩
  let now := sb.clockOf sender
  let sb := sb.recordEvent sender (.sendData now link packet.size packet.composition)
  match Duration.checkedAdd now (sb.delay link packet.size) with
  | none => none
  | some arrival =>
    let arrivalTime := sb.clampArrival link arrival
    let sb := { sb with lastArrivals := Function.update sb.lastArrivals link (some arrivalTime) }
    some (sb.schedule arrivalTime link (.delivery packet))

/-- The switchboard after a send on `link` whose arrival is `arrival`. -/
def dispatch (link : Link) (packet : Packet) (arrival : Duration) : Switchboard :=
  ({ sb.recordEvent link.sender
      (.sendData (sb.clockOf link.sender) link packet.size packet.composition) with
    lastArrivals := Function.update sb.lastArrivals link (some arrival) }).schedule arrival link
      (.delivery packet)

variable {sb} in
theorem send_eq_some {sender recipient : PartyId} {packet : Packet} {sb' : Switchboard}
    (h : sb.send sender recipient packet = some sb') :
    ∃ arrival, sb.clockOf sender + sb.delay ⟨sender, recipient⟩ packet.size ≤ arrival ∧
      (∀ last, sb.lastArrivals ⟨sender, recipient⟩ = some last → last ≤ arrival) ∧
      sb' = sb.dispatch ⟨sender, recipient⟩ packet arrival := by
  simp only [send] at h
  split at h
  · cases h
  · rename_i arrival hadd
    obtain ⟨rfl, -⟩ := Duration.checkedAdd_eq_some.mp hadd
    refine ⟨_, ?_, ?_, (Option.some.inj h).symm⟩
    · simp only [clampArrival]
      split
      · exact le_max_left _ _
      · exact le_rfl
    · intro last hlast
      have hlast' : (sb.recordEvent sender (.sendData (sb.clockOf sender) ⟨sender, recipient⟩
          packet.size packet.composition)).lastArrivals ⟨sender, recipient⟩ = some last := hlast
      simp only [clampArrival, hlast']
      exact le_max_right _ _

def scheduleTimer (link : Link) (deadline : Duration) : Switchboard :=
  sb.schedule deadline link .timer

/-- The answer of `deliver_next`, with the task whose waker it woke. -/
inductive IdleOutcome
  | deadlocked
  | progressed (woken : Option TaskId) (sb : Switchboard)

/-- What an event does when it fires, its waker aside. -/
def fire (event : ScheduledEvent) (rest : List ScheduledEvent) : Switchboard :=
  let recipient := event.link.recipient
  let sb :=
    { sb with
      events := rest
      clocks := Function.update sb.clocks recipient (max (sb.clocks recipient) event.arrival) }
  match event.kind with
  | .delivery packet =>
    { sb with
      msgQueues := Function.update sb.msgQueues event.link (sb.msgQueues event.link ++ [packet]) }
  | .timer => sb

/-- `deliver_next`: pops the next event and wakes the task parked on its link. -/
def deliverNext : IdleOutcome :=
  match sb.events with
  | [] => .deadlocked
  | event :: rest =>
    let sb := sb.fire event rest
    .progressed (sb.parked event.link)
      { sb with parked := Function.update sb.parked event.link none }

/-- The packet at the head of the queue of `link` is handed to the recipient. -/
def handOver (link : Link) (packet : Packet) (queue : List Packet) : Switchboard :=
  let sb := { sb with msgQueues := Function.update sb.msgQueues link queue }
  sb.recordEvent link.recipient
    (.receiveData (sb.clockOf link.recipient) link packet.size packet.composition)

def tryRecv (link : Link) : Option (Packet × Switchboard) :=
  match sb.msgQueues link with
  | [] => none
  | packet :: queue => some (packet, sb.handOver link packet queue)

/-- `TimedRecvOut`, with the switchboard the attempt leaves. -/
inductive TimedRecvOut
  | some (sender : PartyId) (packet : Packet) (sb : Switchboard)
  | timeout (sb : Switchboard)
  | none (sb : Switchboard)

def tryRecvWithDeadline (link : Link) (deadline : Duration) : TimedRecvOut :=
  let timestamp := sb.clockOf link.recipient
  match sb.msgQueues link with
  | packet :: queue => .some link.sender packet (sb.handOver link packet queue)
  | [] => if deadline ≤ timestamp then .timeout sb else .none sb

def park (link : Link) (waker : TaskId) : Switchboard :=
  { sb with parked := Function.update sb.parked link (some waker) }

/-- The links from `senders` into `me`. -/
def inbound (me : PartyId) (senders : List PartyId) : List Link := senders.map fun p => ⟨p, me⟩

/-- Among the links with a queued packet, the lowest sender. -/
def readySender (me : PartyId) (senders : List PartyId) : Option PartyId :=
  (senders.filter fun sender => !(sb.msgQueues ⟨sender, me⟩).isEmpty).min?

/-- The loops `for &peer in senders { self.parked.remove(..) }`. -/
def unparkAny (me : PartyId) (senders : List PartyId) : Switchboard :=
  { sb with parked := setAll sb.parked (inbound me senders) none }

def tryRecvAny (me : PartyId) (senders : List PartyId) :
    Option ((PartyId × Packet) × Switchboard) :=
  match sb.readySender me senders with
  | none => none
  | some sender =>
    match (sb.unparkAny me senders).tryRecv ⟨sender, me⟩ with
    | none => none
    | some (packet, sb) => some ((sender, packet), sb)

def tryRecvAnyWithDeadline (me : PartyId) (senders : List PartyId) (deadline : Duration) :
    TimedRecvOut :=
  let readySender := sb.readySender me senders
  if readySender.isNone ∧ sb.clockOf me < deadline then
    .none sb
  else
    let sb := sb.unparkAny me senders
    match readySender with
    | some sender => sb.tryRecvWithDeadline ⟨sender, me⟩ deadline
    | none => .timeout sb

def parkAny (me : PartyId) (senders : List PartyId) (waker : TaskId) : Switchboard :=
  { sb with parked := setAll sb.parked (inbound me senders) (some waker) }

end Switchboard

end SclRs
