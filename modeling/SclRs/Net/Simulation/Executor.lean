import SclRs.Net.Simulation.Recv

/-!
# The executor and the simulator

`run_simulation_with_idle` as a machine whose steps are one network operation of the task being
polled (`current`), or, when no task is being polled, one turn of the executor's loop. A task is
what is left of its party's code; `none` marks it completed. The history variables `hist` record
what was sent, handed over and popped; no step reads them.
-/

namespace SclRs

/-- A send, with the arrival that was scheduled for it. -/
structure SentPacket where
  packet : Packet
  timestamp : Duration
  arrival : Duration

structure History where
  /-- What was sent on each link, in order. -/
  sent : Link → List SentPacket
  /-- What was handed to the recipient of each link, in order, with the recipient's clock. -/
  handed : Link → List (Packet × Duration)
  /-- The arrivals of the events popped, in order. -/
  popped : List Duration

namespace History

def empty : History := ⟨fun _ => [], fun _ => [], []⟩

def pushSent (h : History) (link : Link) (s : SentPacket) : History :=
  { h with sent := Function.update h.sent link (h.sent link ++ [s]) }

def pushHanded (h : History) (link : Link) (packet : Packet) (clock : Duration) : History :=
  { h with handed := Function.update h.handed link (h.handed link ++ [(packet, clock)]) }

def pushPopped (h : History) (arrival : Duration) : History :=
  { h with popped := h.popped ++ [arrival] }

/-- What party `me` observes when an operation resolves and takes the switchboard to `sb`. -/
def observe (h : History) (me : PartyId) (sb : Switchboard) : (op : NetOp) → op.Out → History
  | .sendTo partyId packet, _ =>
    h.pushSent ⟨me, partyId⟩
      ⟨packet, sb.clockOf me, (sb.lastArrivals ⟨me, partyId⟩).getD 0⟩
  | .recvFrom partyId, .ok packet => h.pushHanded ⟨partyId, me⟩ packet (sb.clockOf me)
  | .recvAny, .ok (sender, packet) => h.pushHanded ⟨sender, me⟩ packet (sb.clockOf me)
  | .recvFromWithTimeout partyId _, .ok packet =>
    h.pushHanded ⟨partyId, me⟩ packet (sb.clockOf me)
  | .recvAnyWithTimeout _, .ok (sender, packet) =>
    h.pushHanded ⟨sender, me⟩ packet (sb.clockOf me)
  | _, _ => h

/-- The last popped arrival: the virtual time of the run. -/
def now (h : History) : Duration := h.popped.getLastD 0

end History

/-- A task that has not completed: its party, the code left, and the deadline held by the receive
future it is suspended in, if that is a timed one. -/
structure Task (ρ : Type) where
  party : PartyId
  prog : Prog ρ
  deadline : Option Duration

structure SimState (ρ : Type) where
  sb : Switchboard
  tasks : TaskId → Option (Task ρ)
  ready : List TaskId
  remaining : Nat
  current : Option TaskId
  outputs : PartyId → Option ρ
  hist : History

/-- What a simulation is run with: distinct parties, a delay model and each party's code. -/
structure Simulation (ρ : Type) where
  parties : List PartyId
  distinct : parties.Nodup
  delay : Delay
  program : PartyId → Prog ρ

inductive Outcome (ρ : Type)
  | next (s : SimState ρ)
  | returned
  | deadlock
  | panic

namespace SimState

variable {ρ : Type}

def init (sim : Simulation ρ) : SimState ρ where
  sb := .new sim.delay
  tasks id := sim.parties[id]?.map fun party => ⟨party, sim.program party, none⟩
  ready := List.range sim.parties.length
  remaining := sim.parties.length
  current := none
  outputs _ := none
  hist := .empty

def setTask (s : SimState ρ) (id : TaskId) (task : Option (Task ρ)) : SimState ρ :=
  { s with tasks := Function.update s.tasks id task }

/-- What the poll of an operation makes of the task that called it: ready, it goes on with `next`;
pending, it suspends. -/
def resume (s : SimState ρ) (id : TaskId) (task : Task ρ) {op : NetOp} (next : op.Out → Prog ρ) :
    Poll op.Out → Outcome ρ
  | .ready out sb =>
    .next { s.setTask id (some ⟨task.party, next out, none⟩) with
      sb := sb
      hist := s.hist.observe task.party sb op out }
  | .pending deadline sb =>
    .next { s.setTask id (some { task with deadline := deadline }) with
      sb := sb
      current := none }
  | .panic => .panic

/-- The poll of `task` goes on with the next operation of its code. -/
def pollTask (sim : Simulation ρ) (s : SimState ρ) (id : TaskId) (task : Task ρ) : Outcome ρ :=
  match task.prog with
  | .ret result =>
    .next { s.setTask id none with
      remaining := s.remaining - 1
      current := none
      outputs := Function.update s.outputs task.party (some result) }
  | .panic => .panic
  | .call op next =>
    s.resume id task next (s.sb.perform task.party sim.parties id task.deadline op)

/-- One step: of the poll under way, or of the loop of `run_simulation_with_idle`. -/
def step (sim : Simulation ρ) (s : SimState ρ) : Outcome ρ :=
  match s.current with
  | some id =>
    match s.tasks id with
    | some task => s.pollTask sim id task
    | none => .next { s with current := none }
  | none =>
    if s.remaining = 0 then
      .returned
    else
      match s.ready with
      | id :: ready =>
        match s.tasks id with
        | some _ => .next { s with ready := ready, current := some id }
        | none => .next { s with ready := ready }
      | [] =>
        match s.sb.deliverNext with
        | .deadlocked => .deadlock
        | .progressed woken sb =>
          .next { s with
            sb := sb
            ready := woken.toList
            hist := (s.sb.events.head?.map fun e => s.hist.pushPopped e.arrival).getD s.hist }

end SimState

/-- `drive_party_to_completion`: the task of a party whose protocol `id` runs as `run`. -/
def drivePartyToCompletion {ε ρ : Type} (codec : Postcard ρ) (id : ProtocolId)
    (run : Prog (Except ε ρ)) : Prog ρ := do
  Prog.op (.record .start)
  match ← Prog.execute id run with
  | .error _ => Prog.panic
  | .ok result =>
    Prog.op (.record (.output (codec.toAllocvec result)))
    Prog.op (.record .stop)
    return result

end SclRs
