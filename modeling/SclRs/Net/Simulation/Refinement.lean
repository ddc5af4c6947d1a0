import SclRs.Net.Simulation.Termination

/-!
# The simulator runs the asynchronous network

`Refines` reads a state of the network off a state of the simulator: a link's packets are those queued,
then those in transit. For parties that name their senders every move of the executor is one step of the
network or none, and a run that ends without a panic ends in a state from which the network has no step
either. Since all schedules of such parties end in one state, so do all simulations, whatever the delays
(`schedule_independence`).
-/

namespace SclRs

open Relation

variable {ρ : Type} {sim : Simulation ρ}

/-- The tasks are at the code `progs`, the completed ones at their outputs. -/
structure RunsAs (sim : Simulation ρ) (s : SimState ρ) (progs : PartyId → Prog ρ) : Prop where
  running : ∀ id task, s.tasks id = some task →
    progs task.party = task.prog ∧ s.outputs task.party = none
  completed : ∀ (id : TaskId) (party : PartyId), sim.parties[id]? = some party → s.tasks id = none →
    ∃ r, progs party = .ret r ∧ s.outputs party = some r

/-- The packets of `link` that its recipient has not taken. -/
def Switchboard.pending (sb : Switchboard) (link : Link) : List Packet :=
  sb.msgQueues link ++ (sb.inTransit link).map Prod.fst

/-- `s` is a state of the simulator in which the network is at `N`. -/
structure Refines (sim : Simulation ρ) (s : SimState ρ) (N : NetState ρ) : Prop where
  runs : RunsAs sim s N.progs
  channels : N.channels = s.sb.pending
  received : N.received = fun link => (s.hist.handed link).map Prod.fst

theorem RunsAs.resume {s s' : SimState ρ} {progs : PartyId → Prog ρ} (h : RunsAs sim s progs)
    (hwake : WakeInv sim s) {id : TaskId} {task : Task ρ} (htask : s.tasks id = some task)
    {prog : Prog ρ} {deadline : Option Duration}
    (htasks : s'.tasks = Function.update s.tasks id (some ⟨task.party, prog, deadline⟩))
    (houtputs : s'.outputs = s.outputs) : RunsAs sim s' (Function.update progs task.party prog) where
  running id' task' htask' := by
    rw [houtputs]
    rw [htasks] at htask'
    by_cases hid : id' = id
    · subst hid
      rw [Function.update_self] at htask'
      obtain rfl := Option.some.inj htask'
      exact ⟨Function.update_self _ _ _, (h.running _ _ htask).2⟩
    · rw [Function.update_of_ne hid] at htask'
      have hparty : task'.party ≠ task.party := fun heq => hid (hwake.eq_of_party_eq htask' htask heq)
      rw [Function.update_of_ne hparty]
      exact h.running _ _ htask'
  completed id' party hget hnone := by
    rw [houtputs]
    rw [htasks] at hnone
    by_cases hid : id' = id
    · subst hid
      rw [Function.update_self] at hnone
      cases hnone
    · rw [Function.update_of_ne hid] at hnone
      have hparty : party ≠ task.party := by
        rintro rfl
        obtain ⟨hlt, hget⟩ := List.getElem?_eq_some_iff.mp hget
        obtain ⟨hlt', hget'⟩ := List.getElem?_eq_some_iff.mp (hwake.party id task htask)
        exact hid (sim.distinct.getElem_inj_iff.mp (hget.trans hget'.symm))
      rw [Function.update_of_ne hparty]
      exact h.completed _ _ hget hnone

theorem RunsAs.suspend {s s' : SimState ρ} {progs : PartyId → Prog ρ} (h : RunsAs sim s progs)
    (hwake : WakeInv sim s) {id : TaskId} {task : Task ρ} (htask : s.tasks id = some task)
    {deadline : Option Duration}
    (htasks : s'.tasks = Function.update s.tasks id (some { task with deadline := deadline }))
    (houtputs : s'.outputs = s.outputs) : RunsAs sim s' progs := by
  have hresume := h.resume hwake htask htasks houtputs
  rwa [← (h.running _ _ htask).1, Function.update_eq_self] at hresume

theorem RunsAs.finish {s s' : SimState ρ} {progs : PartyId → Prog ρ} (h : RunsAs sim s progs)
    (hwake : WakeInv sim s) {id : TaskId} {task : Task ρ} {result : ρ}
    (htask : s.tasks id = some task) (hprog : task.prog = .ret result)
    (htasks : s'.tasks = Function.update s.tasks id none)
    (houtputs : s'.outputs = Function.update s.outputs task.party (some result)) :
    RunsAs sim s' progs where
  running id' task' htask' := by
    rw [htasks] at htask'
    by_cases hid : id' = id
    · subst hid
      rw [Function.update_self] at htask'
      cases htask'
    · rw [Function.update_of_ne hid] at htask'
      have hparty : task'.party ≠ task.party := fun heq => hid (hwake.eq_of_party_eq htask' htask heq)
      rw [houtputs, Function.update_of_ne hparty]
      exact h.running _ _ htask'
  completed id' party hget hnone := by
    rw [htasks] at hnone
    by_cases hid : id' = id
    · subst hid
      obtain rfl := Option.some.inj (hget.symm.trans (hwake.party id' task htask))
      exact ⟨result, (h.running _ _ htask).1.trans hprog, by rw [houtputs, Function.update_self]⟩
    · rw [Function.update_of_ne hid] at hnone
      obtain ⟨r, hr, hout⟩ := h.completed _ _ hget hnone
      refine ⟨r, hr, ?_⟩
      have hparty : party ≠ task.party := by
        rintro rfl
        exact Option.some_ne_none _ (hout.symm.trans (h.running _ _ htask).2)
      rwa [houtputs, Function.update_of_ne hparty]

/-! ### What the switchboard holds of a link -/

theorem FifoInv.pending_dispatch {sb : Switchboard} {hist : History} (h : FifoInv sb hist)
    {link : Link} {packet : Packet} {arrival : Duration}
    (hlast : ∀ last, sb.lastArrivals link = some last → last ≤ arrival) :
    (sb.dispatch link packet arrival).pending = pushPacket sb.pending link packet := by
  funext l
  by_cases hl : l = link
  · subst hl
    rw [Switchboard.pending, h.inTransit_dispatch packet hlast, pushPacket, Function.update_self,
      List.map_append, ← List.append_assoc]
    rfl
  · have htransit : (sb.dispatch link packet arrival).inTransit l = sb.inTransit l :=
      Lib.TimeQueue.filterMap_push_none _ _ _ (by simp [ScheduledEvent.deliveryOn, Ne.symm hl])
    rw [Switchboard.pending, htransit, pushPacket, Function.update_of_ne hl]
    rfl

theorem Switchboard.pending_handOver (sb : Switchboard) {link : Link} {packet : Packet}
    {queue : List Packet} (hqueue : sb.msgQueues link = packet :: queue) :
    (sb.handOver link packet queue).pending = dropPacket sb.pending link := by
  funext l
  change Function.update sb.msgQueues link queue l ++ (sb.inTransit l).map Prod.fst = _
  by_cases hl : l = link
  · subst hl
    rw [Function.update_self, dropPacket, Function.update_self, pending, hqueue]
    rfl
  · rw [Function.update_of_ne hl, dropPacket, Function.update_of_ne hl]
    rfl

theorem Switchboard.pending_fire (sb : Switchboard) {event : ScheduledEvent}
    {rest : List ScheduledEvent} (hevents : sb.events = event :: rest) :
    (sb.fire event rest).pending = sb.pending := by
  funext l
  have htransit : sb.inTransit l = (event.deliveryOn l).toList ++
      rest.filterMap (ScheduledEvent.deliveryOn l) := by
    rw [inTransit, hevents, List.filterMap_cons]
    cases event.deliveryOn l <;> rfl
  rw [pending, pending, htransit]
  obtain ⟨arrival, seq, link, kind⟩ := event
  cases kind with
  | timer =>
    rw [ScheduledEvent.deliveryOn_timer]
    rfl
  | delivery packet =>
    change Function.update sb.msgQueues link (sb.msgQueues link ++ [packet]) l ++
      (rest.filterMap (ScheduledEvent.deliveryOn l)).map Prod.fst = _
    by_cases hl : l = link
    · subst hl
      simp [ScheduledEvent.deliveryOn]
    · rw [Function.update_of_ne hl]
      simp [ScheduledEvent.deliveryOn, Ne.symm hl]

/-! ### Moves -/

theorem Refines.directed {s : SimState ρ} {N : NetState ρ} (hN : Refines sim s N)
    (hwake : WakeInv sim s) (hdirected : N.Directed sim.parties) {id : TaskId} {task : Task ρ}
    (htask : s.tasks id = some task) : task.prog.Directed :=
  (hN.runs.running id task htask).1 ▸ hdirected task.party (hwake.mem_parties htask)

/-- **A move is a step of the network or none.** -/
theorem Move.refines {s s' : SimState ρ} (h : Move sim s s') (hwake : WakeInv sim s)
    (hfifo : FifoInv s.sb s.hist) {N : NetState ρ} (hN : Refines sim s N)
    (hdirected : N.Directed sim.parties) :
    Refines sim s' N ∨ ∃ act N', N.step sim.parties act = some N' ∧ Refines sim s' N' := by
  cases h with
  | @sent id task partyId packet next arrival _ htask hprog _ hlast =>
    have hrun := hN.runs.running id task htask
    refine .inr ⟨⟨task.party, none⟩, _, NetState.step_eq_some.mpr ⟨hwake.mem_parties htask, _, _,
      hrun.1.trans hprog, .inl ⟨rfl, _, rfl, rfl⟩⟩, ?_, ?_, hN.received⟩
    · exact hN.runs.resume hwake htask rfl rfl
    · change pushPacket N.channels _ _ = _
      rw [hN.channels]
      exact (hfifo.pending_dispatch hlast).symm
  | @recorded id task marker next _ htask hprog =>
    have hrun := hN.runs.running id task htask
    refine .inr ⟨⟨task.party, none⟩, _, NetState.step_eq_some.mpr ⟨hwake.mem_parties htask, _, _,
      hrun.1.trans hprog, .inl ⟨rfl, _, rfl, rfl⟩⟩, ?_, hN.channels, hN.received⟩
    exact hN.runs.resume hwake htask rfl rfl
  | @armed id task op next t d _ htask hprog htimeout =>
    have hnone := (hprog ▸ hN.directed hwake hdirected htask).timeout?_eq_none
    rw [hnone] at htimeout
    cases htimeout
  | @took id task op next link packet queue out _ htask hprog _ hmem hqueue _ hout =>
    have hrun := hN.runs.running id task htask
    obtain ⟨sender, recipient⟩ := link
    obtain rfl : recipient = task.party := NetOp.recipient_of_mem_awaits hmem
    have hhead : (N.channels ⟨sender, task.party⟩).head? = some packet := by
      rw [hN.channels, Switchboard.pending, hqueue]
      rfl
    refine .inr ⟨⟨task.party, some sender⟩, _, NetState.step_eq_some.mpr ⟨hwake.mem_parties htask, _, _,
      hrun.1.trans hprog, .inr ⟨sender, packet, out, rfl, hmem, hhead, hout, rfl⟩⟩, ?_, ?_, ?_⟩
    · exact hN.runs.resume hwake htask rfl rfl
    · change dropPacket N.channels _ = _
      have hrelease : (s.sb.release task.party sim.parties op).pending = s.sb.pending := by
        unfold Switchboard.release
        split_ifs <;> rfl
      have hqueue' : (s.sb.release task.party sim.parties op).msgQueues ⟨sender, task.party⟩ =
          packet :: queue := by
        unfold Switchboard.release
        split_ifs <;> exact hqueue
      rw [hN.channels, ← hrelease]
      exact (Switchboard.pending_handOver _ hqueue').symm
    · change pushPacket N.received _ _ = _
      rw [hN.received]
      funext l
      change _ = (Function.update s.hist.handed ⟨sender, task.party⟩ _ l).map Prod.fst
      by_cases hl : l = ⟨sender, task.party⟩
      · subst hl
        rw [pushPacket, Function.update_self, Function.update_self, List.map_append]
        rfl
      · rw [pushPacket, Function.update_of_ne hl, Function.update_of_ne hl]
  | @timedOut id task op next d out _ htask hprog _ hout =>
    have hnone := (hprog ▸ hN.directed hwake hdirected htask).timeout?_eq_none
    exact absurd hnone (NetOp.timeout?_of_timeoutOut hout)
  | parked _ htask =>
    exact .inl ⟨hN.runs.suspend hwake htask rfl rfl, hN.channels, hN.received⟩
  | finished _ htask hprog =>
    exact .inl ⟨hN.runs.finish hwake htask hprog rfl rfl, hN.channels, hN.received⟩
  | dropped | picked | skipped =>
    exact .inl ⟨⟨hN.runs.running, hN.runs.completed⟩, hN.channels, hN.received⟩
  | delivered _ _ hevents =>
    exact .inl ⟨⟨hN.runs.running, hN.runs.completed⟩,
      hN.channels.trans (s.sb.pending_fire hevents).symm, hN.received⟩

theorem Refines.init (sim : Simulation ρ) : Refines sim (.init sim) (.init sim.program) where
  runs := {
    running := fun id task htask => by
      obtain ⟨party, -, rfl⟩ := Option.map_eq_some_iff.mp htask
      exact ⟨rfl, rfl⟩
    completed := fun id party hget hnone => by
      change sim.parties[id]?.map _ = none at hnone
      rw [hget] at hnone
      cases hnone }
  channels := rfl
  received := rfl

/-- **A simulation runs a schedule of the network.** -/
theorem Reachable.refines {s : SimState ρ} (h : Reachable sim s)
    (hdirected : (NetState.init sim.program).Directed sim.parties) :
    ∃ schedule N, (NetState.init sim.program).run sim.parties schedule = some N ∧ Refines sim s N := by
  refine (h.induct (I := fun s => (TimedInv sim s ∧ WakeInv sim s) ∧ ∃ schedule N,
    (NetState.init sim.program).run sim.parties schedule = some N ∧ Refines sim s N)
    ⟨⟨.init sim, .init sim⟩, [], _, rfl, .init sim⟩ ?_).2
  rintro s s' hmove ⟨⟨htimed, hwake⟩, schedule, N, hrun, hN⟩
  refine ⟨⟨hmove.timed htimed, hmove.wake htimed hwake⟩, ?_⟩
  rcases hmove.refines hwake htimed.fifo hN (hdirected.run hrun) with
    hN' | ⟨act, N', hstep, hN'⟩
  · exact ⟨schedule, N, hrun, hN'⟩
  · refine ⟨schedule ++ [act], N', ?_, hN'⟩
    rw [NetState.run_append hrun]
    exact NetState.run_cons.mpr ⟨N', hstep, rfl⟩

/-! ### Where a simulation ends -/

/-- No task is left, or those left are suspended and nothing is in transit. -/
def SimState.Ended (s : SimState ρ) : Prop := (∀ id, s.tasks id = none) ∨ s.Idle ∧ s.sb.events = []

theorem SimState.not_active_of_idle {s : SimState ρ} (h : s.Idle) (id : TaskId) : ¬ s.Active id := by
  obtain ⟨hcur, hready⟩ := h
  rintro (ha | ha)
  · cases hcur.symm.trans ha
  · rw [hready] at ha
    cases ha

theorem Refines.waits_of_ended {s : SimState ρ} {N : NetState ρ} (hN : Refines sim s N)
    (hwake : WakeInv sim s) (hend : s.Ended) (hdirected : N.Directed sim.parties) {id : TaskId}
    {task : Task ρ} (htask : s.tasks id = some task) :
    ∃ partyId next, task.prog = .call (.recvFrom partyId) next ∧
      N.channels ⟨partyId, task.party⟩ = [] := by
  obtain ⟨hidle, hevents⟩ := hend.resolve_left fun hnone => by simp [hnone id] at htask
  obtain ⟨op, next, hprog, hs⟩ := hwake.waiting id task htask (SimState.not_active_of_idle hidle id)
  have hdir := hprog ▸ hN.directed hwake hdirected htask
  obtain ⟨link, hlink⟩ := NetOp.exists_head?_awaits hs.receives (hwake.mem_parties htask)
  have hmem := List.mem_of_head? hlink
  obtain ⟨sender, recipient⟩ := link
  obtain rfl : recipient = task.party := NetOp.recipient_of_mem_awaits hmem
  obtain rfl := hdir.act_unique hmem
  refine ⟨sender, next, hprog, ?_⟩
  rw [hN.channels, Switchboard.pending, hs.empty _ hmem, Switchboard.inTransit, hevents]
  rfl

/-- **A simulation that ends without a panic has run a maximal schedule.** -/
theorem Refines.maximal {s : SimState ρ} {N : NetState ρ} (hN : Refines sim s N)
    (hwake : WakeInv sim s) (hend : s.Ended) (hdirected : N.Directed sim.parties) :
    N.Maximal sim.parties := by
  intro act
  refine Option.eq_none_iff_forall_ne_some.mpr fun N' hstep => ?_
  obtain ⟨hme, op, next, hprog, hstep⟩ := NetState.step_eq_some.mp hstep
  obtain ⟨id, hid⟩ := List.mem_iff_getElem?.mp hme
  cases htask : s.tasks id with
  | none =>
    obtain ⟨r, hr, -⟩ := hN.runs.completed id _ hid htask
    cases hprog.symm.trans hr
  | some task =>
    obtain ⟨partyId, next', hprog', hempty⟩ := hN.waits_of_ended hwake hend hdirected htask
    have hparty : act.party = task.party := Option.some.inj (hid.symm.trans (hwake.party id task htask))
    rw [hparty, (hN.runs.running id task htask).1, hprog'] at hprog
    obtain ⟨rfl, -⟩ := Prog.call.inj hprog
    obtain ⟨-, out, hout, -⟩ | ⟨sender, packet, -, -, hmem, hhead, -⟩ := hstep
    · cases hout
    · rw [hparty] at hmem hhead
      rw [List.mem_singleton.mp hmem, hempty] at hhead
      cases hhead

theorem Refines.outputs_of_ended {s : SimState ρ} {N : NetState ρ} (hN : Refines sim s N)
    (hwake : WakeInv sim s) (hend : s.Ended) (hdirected : N.Directed sim.parties) {p : PartyId}
    (hp : p ∈ sim.parties) (r : ρ) : s.outputs p = some r ↔ N.progs p = .ret r := by
  obtain ⟨id, hid⟩ := List.mem_iff_getElem?.mp hp
  cases htask : s.tasks id with
  | none =>
    obtain ⟨r', hr', hout⟩ := hN.runs.completed id _ hid htask
    rw [hr', hout, Option.some.injEq, Prog.ret.injEq]
  | some task =>
    obtain rfl : p = task.party := Option.some.inj (hid.symm.trans (hwake.party id task htask))
    obtain ⟨partyId, next, hprog, -⟩ := hN.waits_of_ended hwake hend hdirected htask
    rw [(hN.runs.running id task htask).1, (hN.runs.running id task htask).2, hprog]
    simp

/-- Rust panics at the step from `s`: in the code of a party, or in `now + delay` of a send. -/
def SimState.Panics (sim : Simulation ρ) (s : SimState ρ) : Prop :=
  ∃ id task, s.current = some id ∧ s.tasks id = some task ∧
    (task.prog = .panic ∨ ∃ partyId packet next, task.prog = .call (.sendTo partyId packet) next ∧
      Duration.max < s.sb.clockOf task.party + sim.delay ⟨task.party, partyId⟩ packet.size)

theorem Switchboard.send_eq_none {sb : Switchboard} {sender recipient : PartyId} {packet : Packet}
    (h : sb.send sender recipient packet = none) :
    Duration.max < sb.clockOf sender + sb.delay ⟨sender, recipient⟩ packet.size := by
  simp only [send] at h
  split at h
  · rename_i hadd
    unfold Duration.checkedAdd at hadd
    split_ifs at hadd with hle
    exact not_le.mp hle
  · cases h

/-- The poll of a party that names its senders panics in its own code or in a send. -/
theorem SimState.panics_of_pollTask {s : SimState ρ} {id : TaskId} {task : Task ρ}
    (hdirected : task.prog.Directed) (h : s.pollTask sim id task = .panic) :
    task.prog = .panic ∨ ∃ partyId packet next, task.prog = .call (.sendTo partyId packet) next ∧
      Duration.max < s.sb.clockOf task.party + s.sb.delay ⟨task.party, partyId⟩ packet.size := by
  obtain ⟨party, prog, deadline⟩ := task
  cases hdirected with
  | ret => cases h
  | panic => exact .inl rfl
  | @sendTo partyId packet next _ =>
    refine .inr ⟨partyId, packet, next, rfl, ?_⟩
    cases hsend : s.sb.send party partyId packet with
    | none => exact Switchboard.send_eq_none hsend
    | some sb =>
      simp only [pollTask, Switchboard.perform, hsend] at h
      cases h
  | @recvFrom partyId next _ =>
    cases hqueue : s.sb.msgQueues ⟨partyId, party⟩ <;>
      simp only [pollTask, Switchboard.perform, Switchboard.pollRecv, Switchboard.tryRecv, hqueue] at h <;>
      cases h
  | record => cases h

theorem SimState.step_eq_panic {s : SimState ρ} (h : s.step sim = .panic) :
    ∃ id task, s.current = some id ∧ s.tasks id = some task ∧ s.pollTask sim id task = .panic := by
  unfold step at h
  cases hcur : s.current with
  | some id =>
    cases htask : s.tasks id with
    | some task => exact ⟨id, task, rfl, htask, by simpa only [hcur, htask] using h⟩
    | none => simp only [hcur, htask, reduceCtorEq] at h
  | none =>
    simp only [hcur] at h
    split_ifs at h
    cases hready : s.ready with
    | cons id ready => cases htask : s.tasks id <;> simp [hready, htask] at h
    | nil => cases hevents : s.sb.events <;> simp [hready, Switchboard.deliverNext, hevents] at h

theorem Refines.panics {s : SimState ρ} {N : NetState ρ} (hN : Refines sim s N)
    (hwake : WakeInv sim s) (hdelay : s.sb.delay = sim.delay) (hdirected : N.Directed sim.parties)
    (hstep : s.step sim = .panic) : s.Panics sim := by
  obtain ⟨id, task, hcur, htask, hpoll⟩ := SimState.step_eq_panic hstep
  have hpanics := SimState.panics_of_pollTask (hN.directed hwake hdirected htask) hpoll
  rw [hdelay] at hpanics
  exact ⟨id, task, hcur, htask, hpanics⟩

/-- What a simulation shows of the network's final state, unless Rust panics. -/
structure Shows (sim : Simulation ρ) (s : SimState ρ) (final : NetState ρ) : Prop where
  outputs : ∀ p ∈ sim.parties, ∀ r, s.outputs p = some r ↔ final.progs p = .ret r
  received : ∀ link, (s.hist.handed link).map Prod.fst = final.received link
  returned_iff : s.step sim = .returned ↔ ∀ p ∈ sim.parties, ∃ r, final.progs p = .ret r
  deadlock_iff : s.step sim = .deadlock ↔ ¬ ∀ p ∈ sim.parties, ∃ r, final.progs p = .ret r

theorem Refines.shows {s : SimState ρ} {N : NetState ρ} (hN : Refines sim s N)
    (hreach : Reachable sim s) (hend : s.Ended) (hdirected : N.Directed sim.parties) :
    Shows sim s N := by
  have hwake := hreach.wake
  have houtputs : ∀ p ∈ sim.parties, ∀ r, s.outputs p = some r ↔ N.progs p = .ret r :=
    fun p hp r => hN.outputs_of_ended hwake hend hdirected hp r
  have hall : (∀ p ∈ sim.parties, ∃ r, N.progs p = .ret r) ↔ ∀ id, s.tasks id = none := by
    constructor
    · intro hret id
      refine Option.eq_none_iff_forall_ne_some.mpr fun task htask => ?_
      obtain ⟨r, hr⟩ := hret task.party (hwake.mem_parties htask)
      have hout := (houtputs task.party (hwake.mem_parties htask) r).mpr hr
      rw [(hN.runs.running id task htask).2] at hout
      cases hout
    · intro hnone p hp
      obtain ⟨id, hid⟩ := List.mem_iff_getElem?.mp hp
      obtain ⟨r, hr, -⟩ := hN.runs.completed id p hid (hnone id)
      exact ⟨r, hr⟩
  have hcur : s.current = none := by
    rcases hend with hnone | ⟨hidle, -⟩
    · exact Option.eq_none_iff_forall_ne_some.mpr fun id hid => hwake.unfinished id (.inl hid) (hnone id)
    · exact hidle.1
  refine ⟨houtputs, fun link => (congrFun hN.received link).symm, ?_, ?_⟩
  · rw [(s.step_ends sim).1, hwake.remaining_eq_zero, hall]
    exact and_iff_right hcur
  · rw [(s.step_ends sim).2, hall, ← hwake.remaining_eq_zero]
    constructor
    · exact fun h => h.2.1
    · intro hne
      obtain ⟨hidle, hevents⟩ := hend.resolve_left (mt hwake.remaining_eq_zero.mpr hne)
      exact ⟨hidle, hne, hevents⟩

/-- A simulation ends in a panic or shows the state in which every maximal schedule ends. -/
theorem shows_final (sim : Simulation ρ) {final : NetState ρ}
    (hdirected : (NetState.init sim.program).Directed sim.parties)
    (hfinal : ∀ schedule t, (NetState.init sim.program).run sim.parties schedule = some t →
      t.Maximal sim.parties → t = final) :
    ∃ n s, (SimState.init sim).steps sim n = some s ∧
      (s.step sim = .panic ∧ s.Panics sim ∨ Shows sim s final) := by
  obtain ⟨n, s, hrun, hstuck⟩ := simulation_ends sim
  have hreach := Reachable.init.steps hrun
  obtain ⟨schedule, N, hschedule, hN⟩ := hreach.refines hdirected
  have hdirN := hdirected.run hschedule
  have hshows : s.Ended → Shows sim s final := by
    intro hend
    rw [← hfinal schedule N hschedule (hN.maximal hreach.wake hend hdirN)]
    exact hN.shows hreach hend hdirN
  refine ⟨n, s, hrun, ?_⟩
  cases hstep : s.step sim with
  | next s' => exact absurd hstep (hstuck s')
  | panic => exact .inl ⟨rfl, hN.panics hreach.wake hreach.timed.time.delay hdirN hstep⟩
  | returned =>
    exact .inr (hshows (.inl (hreach.wake.remaining_eq_zero.mp ((s.step_ends sim).1.mp hstep).2)))
  | deadlock =>
    obtain ⟨hidle, -, hevents⟩ := (s.step_ends sim).2.mp hstep
    exact .inr (hshows (.inr ⟨hidle, hevents⟩))

def Simulation.withDelay (sim : Simulation ρ) (delay : Delay) : Simulation ρ :=
  { sim with delay := delay }

/-- **Schedule independence.** Programs that only name their senders have one final state: every
schedule can be continued to it, and every simulation that does not panic ends in it, whatever the
delays. -/
theorem schedule_independence (sim : Simulation ρ)
    (hdirected : (NetState.init sim.program).Directed sim.parties) :
    ∃ (n : Nat) (final : NetState ρ), final.Maximal sim.parties ∧
      (∀ schedule t, (NetState.init sim.program).run sim.parties schedule = some t →
        schedule.length ≤ n ∧ (t.Maximal sim.parties → t = final) ∧
          ∃ rest, t.run sim.parties rest = some final) ∧
      ∀ delay : Delay, ∃ k s,
        (SimState.init (sim.withDelay delay)).steps (sim.withDelay delay) k = some s ∧
          (s.step (sim.withDelay delay) = .panic ∧ s.Panics (sim.withDelay delay) ∨
            Shows (sim.withDelay delay) s final) := by
  obtain ⟨n, final, hmax, hruns⟩ := hdirected.exists_final
  exact ⟨n, final, hmax, hruns, fun delay => shows_final (sim.withDelay delay) hdirected
    fun schedule t hrun => (hruns schedule t hrun).2.1⟩

/-- Party 0 sends party 1 a packet, which party 1 answers. -/
def pingPong : Simulation (Except NetworkError Packet) where
  parties := [0, 1]
  distinct := nodup_pair
  delay _ _ := 0
  program
    | 0 => .call (.sendTo 1 .empty) fun _ => .op (.recvFrom 1)
    | _ => .call (.recvFrom 0) fun out => .call (.sendTo 0 .empty) fun _ => .ret out

theorem pingPong_directed : (NetState.init pingPong.program).Directed pingPong.parties := by
  intro p hp
  rcases p with _ | p
  · exact .sendTo fun _ => .recvFrom fun out => .ret out
  · exact .recvFrom fun _ => .sendTo fun _ => .ret _

/-- The final state of `pingPong` is there for any delays. -/
theorem schedule_independence_pingPong :
    ∃ (n : Nat) (final : NetState (Except NetworkError Packet)), final.Maximal pingPong.parties ∧
      (∀ schedule t, (NetState.init pingPong.program).run pingPong.parties schedule = some t →
        schedule.length ≤ n) ∧
      ∀ delay : Delay, ∃ k s,
        (SimState.init (pingPong.withDelay delay)).steps (pingPong.withDelay delay) k = some s ∧
          (s.step (pingPong.withDelay delay) = .panic ∧ s.Panics (pingPong.withDelay delay) ∨
            Shows (pingPong.withDelay delay) s final) := by
  obtain ⟨n, final, hmax, hruns, hsims⟩ := schedule_independence pingPong pingPong_directed
  exact ⟨n, final, hmax, fun schedule t hrun => (hruns schedule t hrun).1, hsims⟩

/-- With a delay of `Duration::MAX` the answer to the ping panics in `now + delay`. -/
theorem pingPong_overflows :
    ¬ ∀ (sim : Simulation (Except NetworkError Packet)) (delay : Delay),
      (NetState.init sim.program).Directed sim.parties →
      ∀ n s m s', (SimState.init sim).steps sim n = some s → (∀ t, s.step sim ≠ .next t) →
        (SimState.init (sim.withDelay delay)).steps (sim.withDelay delay) m = some s' →
        (∀ t, s'.step (sim.withDelay delay) ≠ .next t) →
        (s.step sim = .returned ↔ s'.step (sim.withDelay delay) = .returned) := by
  intro h
  have hs := (Option.some_get (x := (SimState.init pingPong).steps pingPong 14) rfl).symm
  have hs' := (Option.some_get (x := (SimState.init (pingPong.withDelay fun _ _ => Duration.max)).steps
    (pingPong.withDelay fun _ _ => Duration.max) 8) rfl).symm
  have hstep := (h pingPong (fun _ _ => Duration.max) pingPong_directed _ _ _ _ hs nofun hs' nofun).mp rfl
  cases hstep

end SclRs
