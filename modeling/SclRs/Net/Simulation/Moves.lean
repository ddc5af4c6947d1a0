import Mathlib.Logic.Relation
import SclRs.Net.Simulation.Executor

/-!
# What a step of the executor can do

`Move` lists the changes of a simulation's state, each with all that it may rely on; `step_moves` says
that a step is one move, or two when a timed receive fixes its deadline first. Every invariant of the
simulator is proved move by move and reaches all runs through `Reachable.induct`.
-/

namespace SclRs

open Relation

variable {ρ : Type} (sim : Simulation ρ)

inductive Move : SimState ρ → SimState ρ → Prop
  | sent {s : SimState ρ} {id : TaskId} {task : Task ρ} {partyId : PartyId} {packet : Packet}
      {next : _ → Prog ρ} {arrival : Duration} :
      s.current = some id → s.tasks id = some task →
      task.prog = .call (.sendTo partyId packet) next →
      s.sb.clockOf task.party + s.sb.delay ⟨task.party, partyId⟩ packet.size ≤ arrival →
      (∀ last, s.sb.lastArrivals ⟨task.party, partyId⟩ = some last → last ≤ arrival) →
      Move s { s.setTask id (some ⟨task.party, next (.ok packet.size), none⟩) with
        sb := s.sb.dispatch ⟨task.party, partyId⟩ packet arrival
        hist := s.hist.pushSent ⟨task.party, partyId⟩
          ⟨packet, s.sb.clockOf task.party, arrival⟩ }
  | recorded {s : SimState ρ} {id : TaskId} {task : Task ρ} {marker : Marker}
      {next : _ → Prog ρ} :
      s.current = some id → s.tasks id = some task → task.prog = .call (.record marker) next →
      Move s { s.setTask id (some ⟨task.party, next (), none⟩) with
        sb := s.sb.recordEvent task.party (marker.event (s.sb.clockOf task.party)) }
  | armed {s : SimState ρ} {id : TaskId} {task : Task ρ} {op : NetOp} {next : op.Out → Prog ρ}
      {t d : Duration} :
      s.current = some id → s.tasks id = some task → task.prog = .call op next →
      op.timeout? = some t → task.deadline = none →
      Duration.checkedAdd (s.sb.clockOf task.party) t = some d →
      Move s { s.setTask id (some { task with deadline := some d }) with
        sb := s.sb.armTimer (op.awaits task.party sim.parties).head? d }
  | took {s : SimState ρ} {id : TaskId} {task : Task ρ} {op : NetOp} {next : op.Out → Prog ρ}
      {link : Link} {packet : Packet} {queue : List Packet} {out : op.Out} :
      s.current = some id → s.tasks id = some task → task.prog = .call op next →
      (op.timeout? ≠ none → task.deadline ≠ none) →
      link ∈ op.awaits task.party sim.parties → s.sb.msgQueues link = packet :: queue →
      (∀ l ∈ op.awaits task.party sim.parties, s.sb.msgQueues l ≠ [] → link.sender ≤ l.sender) →
      op.packetOut link.sender packet = some out →
      Move s { s.setTask id (some ⟨task.party, next out, none⟩) with
        sb := (s.sb.release task.party sim.parties op).handOver link packet queue
        hist := s.hist.pushHanded link packet (s.sb.clockOf task.party) }
  | timedOut {s : SimState ρ} {id : TaskId} {task : Task ρ} {op : NetOp} {next : op.Out → Prog ρ}
      {d : Duration} {out : op.Out} :
      s.current = some id → s.tasks id = some task → task.prog = .call op next →
      task.deadline = some d → op.timeoutOut = some out →
      (∀ l ∈ op.awaits task.party sim.parties, s.sb.msgQueues l = []) →
      d ≤ s.sb.clockOf task.party →
      Move s { s.setTask id (some ⟨task.party, next out, none⟩) with
        sb := s.sb.release task.party sim.parties op }
  | parked {s : SimState ρ} {id : TaskId} {task : Task ρ} {op : NetOp} {next : op.Out → Prog ρ}
      {deadline : Option Duration} :
      s.current = some id → s.tasks id = some task → task.prog = .call op next →
      op.isRecv = true → (op.timeout? = none → deadline = none) →
      (op.timeout? ≠ none → deadline = task.deadline ∧ deadline ≠ none) →
      (∀ l ∈ op.awaits task.party sim.parties, s.sb.msgQueues l = []) →
      (∀ d, deadline = some d → s.sb.clockOf task.party < d) →
      Move s { s.setTask id (some { task with deadline := deadline }) with
        sb := s.sb.parkOn (op.awaits task.party sim.parties) id
        current := none }
  | finished {s : SimState ρ} {id : TaskId} {task : Task ρ} {result : ρ} :
      s.current = some id → s.tasks id = some task → task.prog = .ret result →
      Move s { s.setTask id none with
        remaining := s.remaining - 1
        current := none
        outputs := Function.update s.outputs task.party (some result) }
  | dropped {s : SimState ρ} {id : TaskId} :
      s.current = some id → s.tasks id = none → Move s { s with current := none }
  | picked {s : SimState ρ} {id : TaskId} {ready : List TaskId} {task : Task ρ} :
      s.current = none → s.ready = id :: ready → s.tasks id = some task →
      Move s { s with ready := ready, current := some id }
  | skipped {s : SimState ρ} {id : TaskId} {ready : List TaskId} :
      s.current = none → s.ready = id :: ready → s.tasks id = none →
      Move s { s with ready := ready }
  | delivered {s : SimState ρ} {event : ScheduledEvent} {rest : List ScheduledEvent} :
      s.current = none → s.ready = [] → s.sb.events = event :: rest →
      Move s { s with
        sb := { s.sb.fire event rest with
          parked := Function.update s.sb.parked event.link none }
        ready := (s.sb.parked event.link).toList
        hist := s.hist.pushPopped event.arrival }

/-- The states of a simulation's run. -/
inductive Reachable : SimState ρ → Prop
  | init : Reachable (.init sim)
  | step {s s' : SimState ρ} : Reachable s → s.step sim = .next s' → Reachable s'

variable {sim}

@[simp] theorem SimState.setTask_setTask (s : SimState ρ) (id : TaskId) (a b : Option (Task ρ)) :
    (s.setTask id a).setTask id b = s.setTask id b := by
  simp [setTask]

theorem NetOp.recipient_of_mem_awaits {op : NetOp} {me : PartyId} {parties : List PartyId}
    {l : Link} (h : l ∈ op.awaits me parties) : l.recipient = me := by
  cases op <;> simp only [awaits, List.mem_singleton, List.mem_map, List.not_mem_nil] at h
  all_goals
    first
    | exact h.elim
    | exact congrArg Link.recipient h
    | obtain ⟨p, -, rfl⟩ := h; rfl

theorem NetOp.timeout?_of_timeoutOut {op : NetOp} {out : op.Out} (h : op.timeoutOut = some out) :
    op.timeout? ≠ none := by
  cases op with
  | recvFromWithTimeout | recvAnyWithTimeout => simp [timeout?]
  | sendTo | record | recvFrom | recvAny => cases h

theorem History.observe_packetOut (h : History) {me : PartyId} {parties : List PartyId}
    {sb : Switchboard} {op : NetOp} {link : Link} {packet : Packet} {out : op.Out}
    (hmem : link ∈ op.awaits me parties) (hout : op.packetOut link.sender packet = some out) :
    h.observe me sb op out = h.pushHanded link packet (sb.clockOf me) := by
  have hrecipient := NetOp.recipient_of_mem_awaits hmem
  obtain ⟨sender, recipient⟩ := link
  obtain rfl : recipient = me := hrecipient
  cases op with
  | recvFrom | recvFromWithTimeout =>
    obtain rfl := Option.some.inj hout
    rw [List.mem_singleton.mp hmem]
    rfl
  | recvAny | recvAnyWithTimeout =>
    obtain rfl := Option.some.inj hout
    rfl
  | sendTo | record => cases hout

theorem History.observe_timeoutOut (h : History) {me : PartyId} {sb : Switchboard} {op : NetOp}
    {out : op.Out} (hout : op.timeoutOut = some out) : h.observe me sb op out = h := by
  cases op with
  | recvFromWithTimeout | recvAnyWithTimeout =>
    obtain rfl := Option.some.inj hout
    rfl
  | sendTo | record | recvFrom | recvAny => cases hout

theorem move_of_resolved {s : SimState ρ} {id : TaskId} {task : Task ρ} {op : NetOp}
    {next : op.Out → Prog ρ} {deadline : Option Duration} {poll : Poll op.Out} {s' : SimState ρ}
    (hcur : s.current = some id) (htask : s.tasks id = some task) (hprog : task.prog = .call op next)
    (hrecv : op.isRecv = true) (huntimed : op.timeout? = none → deadline = none)
    (htimed : op.timeout? ≠ none → deadline = task.deadline ∧ deadline ≠ none)
    (h : s.sb.Resolved task.party sim.parties id op deadline poll)
    (hs' : s.resume id task next poll = .next s') :
    Move sim s s' := by
  cases h with
  | @took link packet queue out hmem hqueue hmin hout =>
    simp only [SimState.resume, Outcome.next.injEq] at hs'
    subst hs'
    have hmove := Move.took hcur htask hprog
      (fun ht => (htimed ht).1 ▸ (htimed ht).2) hmem hqueue hmin hout
    have hclock : ((s.sb.release task.party sim.parties op).handOver link packet queue).clockOf
        task.party = s.sb.clockOf task.party := by
      unfold Switchboard.release
      split_ifs <;> rfl
    rw [s.hist.observe_packetOut hmem hout, hclock]
    exact hmove
  | @timedOut d out hd hout hempty hle =>
    simp only [SimState.resume, Outcome.next.injEq] at hs'
    subst hs'
    have ht := NetOp.timeout?_of_timeoutOut hout
    have hmove := Move.timedOut hcur htask hprog ((htimed ht).1 ▸ hd) hout hempty hle
    rw [s.hist.observe_timeoutOut hout]
    exact hmove
  | parked hempty hlt =>
    simp only [SimState.resume, Outcome.next.injEq] at hs'
    subst hs'
    exact .parked hcur htask hprog hrecv huntimed htimed hempty hlt

theorem pollTask_moves {s s' : SimState ρ} {id : TaskId} {task : Task ρ}
    (hcur : s.current = some id) (htask : s.tasks id = some task)
    (h : s.pollTask sim id task = .next s') : TransGen (Move sim) s s' := by
  unfold SimState.pollTask at h
  split at h
  · rename_i result hprog
    exact Outcome.next.inj h ▸ .single (.finished hcur htask hprog)
  · cases h
  rename_i op next hprog
  by_cases hrecv : op.isRecv = true
  · rcases Switchboard.perform_receive
      hrecv task.deadline with hp | ⟨d, sb', harmed, hres⟩
    · rw [hp] at h
      cases h
    · cases harmed with
      | untimed hnone =>
        exact .single (move_of_resolved hcur htask hprog hrecv (fun _ => rfl)
          (fun ht => absurd hnone ht) hres h)
      | again ht hd =>
        exact .single (move_of_resolved hcur htask hprog hrecv (fun hn => absurd hn ht)
          (fun _ => ⟨hd.symm, by simp⟩) hres h)
      | @first t d ht hd hadd =>
        -- the deadline is fixed first; the rest of the poll starts from there
        refine (TransGen.single (Move.armed hcur htask hprog ht hd hadd)).tail ?_
        refine move_of_resolved hcur (Function.update_self _ _ _) hprog hrecv
          (fun hn => by simp [ht] at hn) (fun _ => ⟨rfl, by simp⟩) hres ?_
        generalize s.sb.perform task.party sim.parties id task.deadline op = poll at h ⊢
        rw [← h]
        cases poll <;> simp [SimState.resume, SimState.setTask]
  · cases op with
    | sendTo partyId packet =>
      cases hsend : s.sb.send task.party partyId packet with
      | none =>
        simp only [Switchboard.perform, hsend] at h
        cases h
      | some sb =>
        obtain ⟨arrival, hdelay, hlast, rfl⟩ := Switchboard.send_eq_some hsend
        simp only [Switchboard.perform, hsend] at h
        have hmove : Move sim s _ := .sent hcur htask hprog hdelay hlast
        rw [← Outcome.next.inj h]
        simpa [History.observe, Switchboard.dispatch, Switchboard.schedule,
          Switchboard.recordEvent, Switchboard.clockOf] using TransGen.single hmove
    | record marker => exact Outcome.next.inj h ▸ .single (.recorded hcur htask hprog)
    | recvFrom | recvAny | recvFromWithTimeout | recvAnyWithTimeout => exact absurd rfl hrecv

theorem turn_moves {s s' : SimState ρ} (hcur : s.current = none) (h : s.step sim = .next s') :
    Move sim s s' := by
  obtain ⟨sb, tasks, ready, remaining, current, outputs, hist⟩ := s
  simp only at hcur
  subst hcur
  simp only [SimState.step] at h
  split_ifs at h
  rcases ready with _ | ⟨id, ready⟩
  · obtain ⟨msgQueues, parked, events, clocks, lastArrivals, delay, seq, traces, hookCalls⟩ := sb
    rcases events with _ | ⟨event, rest⟩
    · cases h
    · have hmove : Move sim ⟨⟨msgQueues, parked, event :: rest, clocks, lastArrivals, delay, seq,
          traces, hookCalls⟩, tasks, [], remaining, none, outputs, hist⟩ _ := .delivered rfl rfl rfl
      rw [← Outcome.next.inj h]
      obtain ⟨arrival, seq, link, kind⟩ := event
      cases kind <;> exact hmove
  · cases htask : tasks id with
    | some task =>
      simp only [htask] at h
      exact Outcome.next.inj h ▸ .picked rfl rfl htask
    | none =>
      simp only [htask] at h
      exact Outcome.next.inj h ▸ .skipped rfl rfl htask

/-- **A step is one move, or two.** -/
theorem step_moves {s s' : SimState ρ} (h : s.step sim = .next s') :
    TransGen (Move sim) s s' := by
  cases hcur : s.current with
  | none => exact .single (turn_moves hcur h)
  | some id =>
    cases htask : s.tasks id with
    | some task =>
      refine pollTask_moves hcur htask ?_
      simpa only [SimState.step, hcur, htask] using h
    | none =>
      have hstep : s.step sim = .next { s with current := none } := by
        simp only [SimState.step, hcur, htask]
      exact Outcome.next.inj (hstep.symm.trans h) ▸ .single (.dropped hcur htask)

/-- What holds at the start and is kept by every move holds in every state of every run. -/
theorem Reachable.induct {I : SimState ρ → Prop} (init : I (.init sim))
    (move : ∀ s s', Move sim s s' → I s → I s') {s : SimState ρ} (h : Reachable sim s) : I s := by
  induction h with
  | init => exact init
  | step _ hstep ih =>
    have hmoves := step_moves hstep
    clear hstep
    induction hmoves with
    | single hmove => exact move _ _ hmove ih
    | tail _ hmove ih => exact move _ _ hmove ih

/-! ### Runs -/

/-- The state after `n` steps of a run that has not ended before. -/
def SimState.steps (sim : Simulation ρ) : Nat → SimState ρ → Option (SimState ρ)
  | 0, s => some s
  | n + 1, s =>
    match s.step sim with
    | .next s' => s'.steps sim n
    | _ => none

theorem Reachable.steps {s s' : SimState ρ} (h : Reachable sim s) {n : Nat}
    (hsteps : s.steps sim n = some s') : Reachable sim s' := by
  induction n generalizing s with
  | zero => exact Option.some.inj hsteps ▸ h
  | succ n ih =>
    unfold SimState.steps at hsteps
    split at hsteps
    · rename_i t hstep
      exact ih (h.step hstep) hsteps
    · cases hsteps

theorem nodup_pair : ([0, 1] : List PartyId).Nodup := by decide

/-- Party 0 waits at most 10 ns for a packet of party 1, which takes 10 ns. -/
def photoFinish : Simulation (Except NetworkError Packet) where
  parties := [0, 1]
  distinct := nodup_pair
  delay _ _ := 10
  program
    | 0 => .op (.recvFromWithTimeout 1 10)
    | _ => .call (.sendTo 0 .empty) fun _ => .ret (.error .emptyPacket)

end SclRs
