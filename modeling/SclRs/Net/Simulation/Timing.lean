import SclRs.Net.Simulation.Deadline
import SclRs.Net.Simulation.Refinement
import SclRs.Net.Timed

/-!
# The simulator keeps the network's time

The clocks of the switchboard are not those of the timed network: a delivery moves its recipient's clock
even when the recipient waits for another link or has ended. But a party acts only when its clock is right
(`TimedRefines.awake`): it has not been suspended since its last act, or the packet that it waits for has
just arrived. So the simulator runs the timed network (`Reachable.timed_refines`), and its traces are those of
any maximal schedule and of any order in which the parties are spawned (`simulation_keeps_time`). Their times
are monotone in the delays and scale with them (`simulation_bounds`).
-/

namespace SclRs

variable {ρ : Type} {sim : Simulation ρ}

/-- `s` is a state of the simulator in which the timed network is at `T`. -/
structure TimedRefines (sim : Simulation ρ) (s : SimState ρ) (T : TimedNet ρ) : Prop where
  refines : Refines sim s T.net
  traces : T.timing.traces = s.sb.traces
  last : ∀ link, T.timing.last link = (s.sb.lastArrivals link).getD 0
  arrivals : ∀ link, T.timing.arrivals link = (s.hist.unconsumed link).map SentPacket.arrival
  clock_le : ∀ p, T.timing.clocks p ≤ s.sb.clockOf p
  awake : ∀ id task, s.Active id → s.tasks id = some task →
    T.timing.clocks task.party = s.sb.clockOf task.party ∨
      ∃ sender next, task.prog = .call (.recvFrom sender) next ∧
        (T.timing.arrivals ⟨sender, task.party⟩).head? = some (s.sb.clockOf task.party)
  deliveries : ∀ e ∈ s.sb.events, e.kind ≠ .timer

theorem TimedRefines.init (sim : Simulation ρ) : TimedRefines sim (.init sim) (.init sim.program) where
  refines := .init sim
  traces := rfl
  last _ := rfl
  arrivals _ := rfl
  clock_le _ := le_rfl
  awake _ _ _ _ := .inl rfl
  deliveries := by simp [SimState.init, Switchboard.new]

theorem LinkLog.length_handed_le {sent : List SentPacket} {handed transit : List (Packet × Duration)}
    {queue : List Packet} {clock : Duration} (h : LinkLog sent handed queue transit clock) :
    handed.length ≤ sent.length := by
  obtain ⟨got, queued, flying, rfl, hgot, -⟩ := h
  rw [← hgot.length_eq, List.append_assoc, List.length_append]
  exact Nat.le_add_right _ _

theorem Switchboard.clampArrival_eq (sb : Switchboard) (link : Link) (arrival : Duration) :
    sb.clampArrival link arrival = max arrival ((sb.lastArrivals link).getD 0) := by
  unfold clampArrival
  cases sb.lastArrivals link with
  | none => exact (Nat.max_zero arrival).symm
  | some last => rfl

theorem Switchboard.send_eq_dispatch {sb sb' : Switchboard} {sender recipient : PartyId} {packet : Packet}
    (h : sb.send sender recipient packet = some sb') :
    sb' = sb.dispatch ⟨sender, recipient⟩ packet
      (max (sb.clockOf sender + sb.delay ⟨sender, recipient⟩ packet.size)
        ((sb.lastArrivals ⟨sender, recipient⟩).getD 0)) := by
  simp only [send] at h
  split at h
  · cases h
  · rename_i arrival hadd
    obtain ⟨rfl, -⟩ := Duration.checkedAdd_eq_some.mp hadd
    rw [← Option.some.inj h, clampArrival_eq]
    rfl

/-! ### A task acts -/

section
variable {s s' : SimState ρ} {id : TaskId} {task : Task ρ} {op : NetOp} {next : op.Out → Prog ρ}

theorem Refines.proceed {N : NetState ρ} (hN : Refines sim s N) (hwake : WakeInv sim s)
    (htask : s.tasks id = some task) (hprog : task.prog = .call op next) {out : op.Out}
    (hout : op.localOut = some out)
    (htasks : s'.tasks = Function.update s.tasks id (some ⟨task.party, next out, none⟩))
    (houtputs : s'.outputs = s.outputs) (hpending : s'.sb.pending = op.dispatch task.party s.sb.pending)
    (hhanded : s'.hist.handed = s.hist.handed) :
    N.step sim.parties (.goes task.party) = some (N.proceed task.party op (next out)) ∧
      Refines sim s' (N.proceed task.party op (next out)) := by
  have hrun := (hN.runs.running id task htask).1.trans hprog
  refine ⟨NetState.step_eq_some.mpr ⟨hwake.mem_parties htask, op, next, hrun, .inl ⟨rfl, out, hout, rfl⟩⟩,
    hN.runs.resume hwake htask htasks houtputs, ?_, ?_⟩
  · rw [hpending, ← hN.channels]
    rfl
  · rw [hhanded]
    exact hN.received

theorem Refines.take {N : NetState ρ} (hN : Refines sim s N) (hwake : WakeInv sim s)
    (htask : s.tasks id = some task) {sender : PartyId} {next : _ → Prog ρ}
    (hprog : task.prog = .call (.recvFrom sender) next) {packet : Packet} {queue : List Packet}
    (hqueue : s.sb.msgQueues ⟨sender, task.party⟩ = packet :: queue)
    (htasks : s'.tasks = Function.update s.tasks id (some ⟨task.party, next (.ok packet), none⟩))
    (houtputs : s'.outputs = s.outputs) (hsb : s'.sb = s.sb.handOver ⟨sender, task.party⟩ packet queue)
    {clock : Duration} (hhist : s'.hist = s.hist.pushHanded ⟨sender, task.party⟩ packet clock) :
    (N.channels ⟨sender, task.party⟩).head? = some packet ∧
      N.step sim.parties (.hears task.party sender) =
        some (N.take ⟨sender, task.party⟩ packet (next (.ok packet))) ∧
      Refines sim s' (N.take ⟨sender, task.party⟩ packet (next (.ok packet))) := by
  have hrun := (hN.runs.running id task htask).1.trans hprog
  have hhead : (N.channels ⟨sender, task.party⟩).head? = some packet := by
    rw [hN.channels, Switchboard.pending, hqueue]
    rfl
  refine ⟨hhead, NetState.step_eq_some.mpr ⟨hwake.mem_parties htask, _, next, hrun,
    .inr ⟨sender, packet, _, rfl, List.mem_singleton_self _, hhead, rfl, rfl⟩⟩,
    hN.runs.resume hwake htask htasks houtputs, ?_, ?_⟩
  · rw [hsb, Switchboard.pending_handOver _ hqueue, ← hN.channels]
    rfl
  · change pushPacket N.received _ _ = _
    rw [hN.received, hhist]
    funext l
    change _ = (Function.update s.hist.handed ⟨sender, task.party⟩ _ l).map Prod.fst
    by_cases hl : l = ⟨sender, task.party⟩
    · rw [hl, pushPacket, Function.update_self, Function.update_self, List.map_append]
      rfl
    · rw [pushPacket, Function.update_of_ne hl, Function.update_of_ne hl]

variable {T T' : TimedNet ρ}

theorem TimedRefines.awake_of_act (h : TimedRefines sim s T) (hwake : WakeInv sim s)
    (htask : s.tasks id = some task) (hcurrent : s'.current = s.current) (hready : s'.ready = s.ready)
    {prog : Prog ρ} (htasks : s'.tasks = Function.update s.tasks id (some ⟨task.party, prog, none⟩))
    (hclock : s'.sb.clocks = s.sb.clocks) (hown : T'.timing.clocks task.party = s.sb.clockOf task.party)
    (hothers : ∀ p, p ≠ task.party → T'.timing.clocks p = T.timing.clocks p ∧ ∀ sender a,
      (T.timing.arrivals ⟨sender, p⟩).head? = some a → (T'.timing.arrivals ⟨sender, p⟩).head? = some a) :
    ∀ id' task', s'.Active id' → s'.tasks id' = some task' →
      T'.timing.clocks task'.party = s'.sb.clockOf task'.party ∨
        ∃ sender next, task'.prog = .call (.recvFrom sender) next ∧
          (T'.timing.arrivals ⟨sender, task'.party⟩).head? = some (s'.sb.clockOf task'.party) := by
  intro id' task' hactive htask'
  have hclock' : ∀ p, s'.sb.clockOf p = s.sb.clockOf p := congrFun hclock
  rw [htasks] at htask'
  by_cases hid : id' = id
  · subst hid
    rw [Function.update_self] at htask'
    obtain rfl := Option.some.inj htask'
    exact .inl (hown.trans (hclock' _).symm)
  · rw [Function.update_of_ne hid] at htask'
    have hparty : task'.party ≠ task.party := fun heq => hid (hwake.eq_of_party_eq htask' htask heq)
    obtain ⟨hkept, harrivals⟩ := hothers _ hparty
    have hactive' : s.Active id' := by
      unfold SimState.Active at hactive ⊢
      rwa [hcurrent, hready] at hactive
    rw [hkept, hclock']
    obtain hright | ⟨sender, next', hprog', hhead⟩ := h.awake id' task' hactive' htask'
    · exact .inl hright
    · exact .inr ⟨sender, next', hprog', harrivals _ _ hhead⟩

theorem TimedRefines.clock_eq (h : TimedRefines sim s T) (hcur : s.current = some id)
    (htask : s.tasks id = some task) (hprog : task.prog = .call op next) (hop : op.isRecv = false) :
    T.timing.clocks task.party = s.sb.clockOf task.party := by
  obtain hright | ⟨sender, next', hprog', -⟩ := h.awake id task (.inl hcur) htask
  · exact hright
  · obtain ⟨rfl, -⟩ := Prog.call.inj (hprog.symm.trans hprog')
    cases hop

variable {next : _ → Prog ρ}

theorem TimedRefines.sent (h : TimedRefines sim s T) (hreach : Reachable sim s) (hcur : s.current = some id)
    (htask : s.tasks id = some task) {partyId : PartyId} {packet : Packet}
    (hprog : task.prog = .call (.sendTo partyId packet) next) {link : Link} (hlink : link = ⟨task.party, partyId⟩)
    {arrival : Duration} (harrival : arrival =
      max (s.sb.clockOf task.party + s.sb.delay link packet.size) ((s.sb.lastArrivals link).getD 0))
    (hs' : s' = { s.setTask id (some ⟨task.party, next (.ok packet.size), none⟩) with
      sb := s.sb.dispatch link packet arrival
      hist := s.hist.pushSent link ⟨packet, s.sb.clockOf task.party, arrival⟩ }) :
    ∃ T', T.step sim.delay sim.parties (.goes task.party) = some T' ∧ TimedRefines sim s' T' := by
  have hclock : T.timing.clocks link.sender = s.sb.clockOf link.sender := by
    rw [hlink]
    exact h.clock_eq hcur htask hprog rfl
  have harrival' : T.timing.arrival sim.delay link packet = arrival := by
    rw [harrival, Timing.arrival, hclock, h.last, hreach.timed.time.delay, hlink]
  have hlast : ∀ last, s.sb.lastArrivals link = some last → last ≤ arrival := by
    intro last hlast
    rw [harrival, hlast]
    exact le_max_right _ _
  have hproceed : T.net.step sim.parties (.goes task.party) =
        some (T.net.proceed task.party (.sendTo partyId packet) (next (.ok packet.size))) ∧
      Refines sim s' (T.net.proceed task.party (.sendTo partyId packet) (next (.ok packet.size))) := by
    refine h.refines.proceed hreach.wake htask hprog rfl (by rw [hs']; rfl) (by rw [hs']; rfl) ?_ (by rw [hs']; rfl)
    rw [hs']
    exact (hreach.timed.fifo.pending_dispatch hlast).trans (by rw [hlink]; rfl)
  have htiming : T.timing.after sim.delay T.net (.goes task.party) = T.timing.sends sim.delay link packet := by
    have hact : (Act.goes task.party).source = none := rfl
    have hnet : T.net.progs (Act.goes task.party).party = .call (.sendTo partyId packet) next :=
      (h.refines.runs.running id task htask).1.trans hprog
    rw [Timing.after_goes hact hnet, hlink]
    rfl
  have hsends : TimedRefines sim s' ⟨T.net.proceed task.party (.sendTo partyId packet) (next (.ok packet.size)),
      T.timing.sends sim.delay link packet⟩ := by
    refine ⟨hproceed.2, ?_, fun l => ?_, fun l => ?_, ?_, ?_, ?_⟩
    · rw [hs']
      change T.timing.trace link.sender _ = Function.update s.sb.traces link.sender _
      rw [Timing.trace, h.traces, hclock]
    · rw [hs']
      change Function.update T.timing.last link _ l = (Function.update s.sb.lastArrivals link _ l).getD 0
      by_cases hl : l = link
      · rw [hl, Function.update_self, Function.update_self, harrival']
        rfl
      · rw [Function.update_of_ne hl, Function.update_of_ne hl, h.last]
    · rw [hs']
      change Function.update T.timing.arrivals link _ l =
        ((Function.update s.hist.sent link _ l).drop (s.hist.handed l).length).map SentPacket.arrival
      by_cases hl : l = link
      · rw [hl, Function.update_self, Function.update_self, h.arrivals, History.unconsumed, harrival',
          List.drop_append_of_le_length (hreach.timed.fifo.log link).length_handed_le, List.map_append]
        rfl
      · rw [Function.update_of_ne hl, Function.update_of_ne hl, h.arrivals, History.unconsumed]
    · rw [hs']
      exact h.clock_le
    · refine h.awake_of_act hreach.wake htask (by rw [hs']; rfl) (by rw [hs']; rfl) (by rw [hs']; rfl)
        (by rw [hs']; rfl) (h.clock_eq hcur htask hprog rfl) fun p _ => ⟨rfl, fun sender a hhead => ?_⟩
      change (Function.update T.timing.arrivals link _ ⟨sender, p⟩).head? = some a
      by_cases hl : (⟨sender, p⟩ : Link) = link
      · rw [← hl, Function.update_self, List.head?_append, hhead]
        rfl
      · rwa [Function.update_of_ne hl]
    · rw [hs']
      intro e he
      rcases (Lib.TimeQueue.mem_push _).mp he with rfl | he
      · intro hkind
        cases hkind
      · exact h.deliveries e he
  exact ⟨_, TimedNet.step_eq_some.mpr ⟨hproceed.1, htiming.symm⟩, hsends⟩

theorem TimedRefines.recorded (h : TimedRefines sim s T) (hreach : Reachable sim s) (hcur : s.current = some id)
    (htask : s.tasks id = some task) {marker : Marker} (hprog : task.prog = .call (.record marker) next)
    (hs' : s' = { s.setTask id (some ⟨task.party, next (), none⟩) with
      sb := s.sb.recordEvent task.party (marker.event (s.sb.clockOf task.party)) }) :
    ∃ T', T.step sim.delay sim.parties (.goes task.party) = some T' ∧ TimedRefines sim s' T' := by
  have hclock := h.clock_eq hcur htask hprog rfl
  have hproceed : T.net.step sim.parties (.goes task.party) =
        some (T.net.proceed task.party (.record marker) (next ())) ∧
      Refines sim s' (T.net.proceed task.party (.record marker) (next ())) :=
    h.refines.proceed hreach.wake htask hprog rfl (by rw [hs']; rfl) (by rw [hs']; rfl) (by rw [hs']; rfl)
      (by rw [hs']; rfl)
  have htiming : T.timing.after sim.delay T.net (.goes task.party) = T.timing.records task.party marker := by
    have hact : (Act.goes task.party).source = none := rfl
    have hnet : T.net.progs (Act.goes task.party).party = .call (.record marker) next :=
      (h.refines.runs.running id task htask).1.trans hprog
    rw [Timing.after_goes hact hnet]
    rfl
  have hrecords : TimedRefines sim s' ⟨T.net.proceed task.party (.record marker) (next ()),
      T.timing.records task.party marker⟩ := by
    refine ⟨hproceed.2, ?_, by rw [hs']; exact h.last, by rw [hs']; exact h.arrivals, by rw [hs']; exact h.clock_le,
      ?_, by rw [hs']; exact h.deliveries⟩
    · rw [hs']
      change T.timing.trace task.party _ = Function.update s.sb.traces task.party _
      rw [Timing.trace, h.traces, hclock]
    · exact h.awake_of_act hreach.wake htask (by rw [hs']; rfl) (by rw [hs']; rfl) (by rw [hs']; rfl)
        (by rw [hs']; rfl) hclock fun p _ => ⟨rfl, fun _ _ hhead => hhead⟩
  exact ⟨_, TimedNet.step_eq_some.mpr ⟨hproceed.1, htiming.symm⟩, hrecords⟩

theorem TimedRefines.heard_eq (h : TimedRefines sim s T) (hreach : Reachable sim s) (hcur : s.current = some id)
    (htask : s.tasks id = some task) {sender : PartyId} (hprog : task.prog = .call (.recvFrom sender) next)
    {packet : Packet} {queue : List Packet} (hqueue : s.sb.msgQueues ⟨sender, task.party⟩ = packet :: queue) :
    T.timing.heard ⟨sender, task.party⟩ = s.sb.clockOf task.party := by
  have harrivals := h.arrivals ⟨sender, task.party⟩
  obtain ⟨queued, flying, hunconsumed, hpackets, harrived, -⟩ := hreach.unconsumed ⟨sender, task.party⟩
  rw [hqueue] at hpackets
  obtain ⟨r, rest, rfl, -, -⟩ := List.map_eq_cons_iff.mp hpackets
  rw [hunconsumed, List.cons_append, List.map_cons] at harrivals
  have hle : r.arrival ≤ s.sb.clockOf task.party := harrived r List.mem_cons_self
  rw [Timing.heard, harrivals, List.headD_cons]
  obtain hright | ⟨sender', next', hprog', hhead⟩ := h.awake id task (.inl hcur) htask
  · rw [hright]
    exact max_eq_left hle
  · obtain ⟨hop, -⟩ := Prog.call.inj (hprog.symm.trans hprog')
    obtain rfl := NetOp.recvFrom.inj hop
    rw [harrivals, List.head?_cons] at hhead
    rw [Option.some.inj hhead]
    exact max_eq_right (h.clock_le _)

theorem TimedRefines.took (h : TimedRefines sim s T) (hreach : Reachable sim s) (hcur : s.current = some id)
    (htask : s.tasks id = some task) {sender : PartyId} (hprog : task.prog = .call (.recvFrom sender) next)
    {link : Link} (hlink : link = ⟨sender, task.party⟩) {packet : Packet} {queue : List Packet}
    (hqueue : s.sb.msgQueues link = packet :: queue)
    (hs' : s' = { s.setTask id (some ⟨task.party, next (.ok packet), none⟩) with
      sb := s.sb.handOver link packet queue
      hist := s.hist.pushHanded link packet (s.sb.clockOf task.party) }) :
    ∃ T', T.step sim.delay sim.parties (.hears task.party sender) = some T' ∧ TimedRefines sim s' T' := by
  have hheard : T.timing.heard link = s.sb.clockOf link.recipient := by
    rw [hlink] at hqueue ⊢
    exact h.heard_eq hreach hcur htask hprog hqueue
  have htasks : s'.tasks = Function.update s.tasks id (some ⟨task.party, next (.ok packet), none⟩) := by rw [hs']; rfl
  have houtputs : s'.outputs = s.outputs := by rw [hs']; rfl
  have hsb : s'.sb = s.sb.handOver ⟨sender, task.party⟩ packet queue := by rw [hs', hlink]
  have hhist : s'.hist = s.hist.pushHanded ⟨sender, task.party⟩ packet (s.sb.clockOf task.party) := by
    rw [hs', hlink]
  obtain ⟨hhead, hstep, hrefines⟩ :=
    h.refines.take hreach.wake htask hprog (hlink ▸ hqueue) htasks houtputs hsb hhist
  have htiming : T.timing.after sim.delay T.net (.hears task.party sender) = T.timing.takes link packet := by
    have hact : (Act.hears task.party sender).source = some sender := rfl
    rw [Timing.after_hears hact hhead, hlink]
    rfl
  have htakes : TimedRefines sim s' ⟨T.net.take ⟨sender, task.party⟩ packet (next (.ok packet)),
      T.timing.takes link packet⟩ := by
    refine ⟨hrefines, ?_, by rw [hs']; exact h.last, fun l => ?_, fun p => ?_, ?_, by rw [hs']; exact h.deliveries⟩
    · rw [hs']
      change T.timing.trace link.recipient _ = Function.update s.sb.traces link.recipient _
      rw [Timing.trace, h.traces, hheard]
      rfl
    · rw [hs']
      change Function.update T.timing.arrivals link _ l =
        ((s.hist.sent l).drop (Function.update s.hist.handed link _ l).length).map SentPacket.arrival
      by_cases hl : l = link
      · rw [hl, Function.update_self, Function.update_self, h.arrivals, History.unconsumed, List.length_append,
          List.length_singleton, ← List.map_tail, List.tail_drop]
      · rw [Function.update_of_ne hl, Function.update_of_ne hl, h.arrivals, History.unconsumed]
    · rw [hs']
      change Function.update T.timing.clocks link.recipient _ p ≤ s.sb.clockOf p
      by_cases hp : p = link.recipient
      · rw [hp, Function.update_self, hheard]
      · rw [Function.update_of_ne hp]
        exact h.clock_le p
    · refine h.awake_of_act hreach.wake htask (by rw [hs']; rfl) (by rw [hs']; rfl) htasks (by rw [hs']; rfl) ?_
        fun p hp => ⟨?_, fun sender' a hhead' => ?_⟩
      · change Function.update T.timing.clocks link.recipient _ task.party = _
        rw [hheard, hlink, Function.update_self]
      · change Function.update T.timing.clocks link.recipient _ p = _
        rw [hlink, Function.update_of_ne hp]
      · change (Function.update T.timing.arrivals link _ ⟨sender', p⟩).head? = some a
        rwa [Function.update_of_ne fun heq => hp ((congrArg Link.recipient heq).trans (by rw [hlink]))]
  exact ⟨_, TimedNet.step_eq_some.mpr ⟨hstep, htiming.symm⟩, htakes⟩

theorem TimedRefines.of_eq (h : TimedRefines sim s T) (hrefines : Refines sim s' T.net)
    (htraces : s'.sb.traces = s.sb.traces) (hlast : s'.sb.lastArrivals = s.sb.lastArrivals)
    (hclocks : s'.sb.clocks = s.sb.clocks) (hevents : s'.sb.events = s.sb.events) (hhist : s'.hist = s.hist)
    (hactive : ∀ id task, s'.Active id → s'.tasks id = some task → s.Active id ∧ s.tasks id = some task) :
    TimedRefines sim s' T where
  refines := hrefines
  traces := h.traces.trans htraces.symm
  last link := by rw [hlast, h.last]
  arrivals link := by rw [hhist, h.arrivals]
  clock_le p := (h.clock_le p).trans (congrFun hclocks p).ge
  awake id task hid htask := by
    obtain ⟨hid', htask'⟩ := hactive id task hid htask
    have hclock : s'.sb.clockOf task.party = s.sb.clockOf task.party := congrFun hclocks _
    rw [hclock]
    exact h.awake id task hid' htask'
  deliveries := hevents ▸ h.deliveries

theorem WakeInv.not_mem_ready (hwake : WakeInv sim s) (hcur : s.current = some id) : id ∉ s.ready := by
  have hnodup := hwake.nodup
  rw [hcur] at hnodup
  exact (List.nodup_cons.mp hnodup).1

theorem WakeInv.active_of_ended (hwake : WakeInv sim s) (hcur : s.current = some id) {new : Option (Task ρ)}
    (htasks : s'.tasks = Function.update s.tasks id new) (hcurrent : s'.current = none)
    (hready : s'.ready = s.ready) (id' : TaskId) (task' : Task ρ) (hactive : s'.Active id')
    (htask' : s'.tasks id' = some task') : s.Active id' ∧ s.tasks id' = some task' := by
  have hmem : id' ∈ s.ready := by
    rcases hactive with hactive | hactive
    · cases hcurrent.symm.trans hactive
    · exact hready ▸ hactive
  have hne : id' ≠ id := fun heq => hwake.not_mem_ready hcur (heq ▸ hmem)
  rw [htasks, Function.update_of_ne hne] at htask'
  exact ⟨.inr hmem, htask'⟩

/-- **A delivery** moves the clock of a party that waits for it to the arrival of what it takes next. -/
theorem TimedRefines.delivered (h : TimedRefines sim s T) (hreach : Reachable sim s)
    (hdirected : T.net.Directed sim.parties) (hcur : s.current = none) (hready : s.ready = [])
    {event : ScheduledEvent} {rest : List ScheduledEvent} (hevents : s.sb.events = event :: rest)
    (hs' : s' = { s with
      sb := { s.sb.fire event rest with parked := Function.update s.sb.parked event.link none }
      ready := (s.sb.parked event.link).toList
      hist := s.hist.pushPopped event.arrival }) :
    TimedRefines sim s' T := by
  have hwake := hreach.wake
  have hfired := hreach.timed.time.clockOf_fire hevents
  have hclock : ∀ p, s.sb.clockOf p ≤ s'.sb.clockOf p := by
    intro p
    rw [hs']
    change s.sb.clockOf p ≤ (s.sb.fire event rest).clockOf p
    by_cases hp : p = event.link.recipient
    · rw [hp, hfired]
      exact (hreach.timed.time.clock_le _).trans (hreach.timed.time.arrival_ge event (by simp [hevents]))
    · obtain ⟨arrival, seq, link, kind⟩ := event
      cases kind <;> exact (Function.update_of_ne hp _ _).ge
  refine ⟨⟨?_, ?_, ?_⟩, ?_, fun link => ?_, fun link => ?_, fun p => (h.clock_le p).trans (hclock p),
    fun id task hid htask => .inr ?_, ?_⟩
  · rw [hs']
    exact ⟨h.refines.runs.running, h.refines.runs.completed⟩
  · rw [hs']
    exact h.refines.channels.trans (s.sb.pending_fire hevents).symm
  · rw [hs']
    exact h.refines.received
  · rw [h.traces, hs']
    obtain ⟨arrival, seq, link, kind⟩ := event
    cases kind <;> rfl
  · rw [h.last, hs']
    obtain ⟨arrival, seq, l, kind⟩ := event
    cases kind <;> rfl
  · rw [h.arrivals, hs']
    rfl
  · rw [hs'] at hid htask
    obtain hid | hid := hid
    · cases hcur.symm.trans hid
    -- the task that is woken waits for a packet on the link of the event, whose queue is empty
    have hparked : s.sb.parked event.link = some id := Option.mem_toList.mp hid
    obtain ⟨task', op, next, htask', hprog, hmem, -⟩ := hwake.parked _ _ hparked
    obtain rfl := Option.some.inj (htask'.symm.trans htask)
    obtain ⟨op', next', hprog', hsuspended⟩ :=
      hwake.waiting id task' htask' (SimState.not_active_of_idle ⟨hcur, hready⟩ id)
    obtain ⟨rfl, -⟩ := Prog.call.inj (hprog.symm.trans hprog')
    have hparty := NetOp.recipient_of_mem_awaits hmem
    have hqueue := hsuspended.empty _ hmem
    obtain ⟨arrival, seq, ⟨sender, recipient⟩, kind⟩ := event
    obtain rfl : recipient = task'.party := hparty
    obtain rfl := (hprog ▸ h.refines.directed hwake hdirected htask').act_unique hmem
    refine ⟨sender, next, hprog, ?_⟩
    have hclock' : s'.sb.clockOf task'.party = arrival := by rw [hs']; exact hfired
    obtain ⟨queued, flying, hunconsumed, hpackets, -, hflying⟩ := hreach.unconsumed ⟨sender, task'.party⟩
    rw [hqueue] at hpackets
    obtain rfl := List.map_eq_nil_iff.mp hpackets
    cases kind with
    | timer => exact absurd rfl (h.deliveries _ (by rw [hevents]; exact List.mem_cons_self))
    | delivery packet =>
      have htransit : s.sb.inTransit ⟨sender, task'.party⟩ = (packet, arrival) ::
          rest.filterMap (ScheduledEvent.deliveryOn ⟨sender, task'.party⟩) := by
        rw [Switchboard.inTransit, hevents]
        simp [ScheduledEvent.deliveryOn]
      rw [htransit] at hflying
      obtain ⟨r, flying, rfl, hr, -⟩ := List.map_eq_cons_iff.mp hflying
      rw [h.arrivals, hunconsumed, hclock', List.nil_append, List.map_cons, List.head?_cons]
      exact congrArg some (congrArg Prod.snd hr)
  · intro e he
    rw [hs'] at he
    change e ∈ (s.sb.fire event rest).events at he
    rw [s.sb.events_fire] at he
    exact h.deliveries e (by rw [hevents]; exact List.mem_cons_of_mem _ he)

theorem TimedRefines.polled (h : TimedRefines sim s T) (hreach : Reachable sim s)
    (hdirected : T.net.Directed sim.parties) (hcur : s.current = some id) (htask : s.tasks id = some task)
    (hpoll : s.pollTask sim id task = .next s') :
    TimedRefines sim s' T ∨ ∃ act T', T.step sim.delay sim.parties act = some T' ∧ TimedRefines sim s' T' := by
  have hwake := hreach.wake
  have hprogDirected := h.refines.directed hwake hdirected htask
  generalize hprog : task.prog = prog at hprogDirected
  cases hprogDirected with
  | ret result =>
    simp only [SimState.pollTask, hprog, Outcome.next.injEq] at hpoll
    subst hpoll
    exact .inl (h.of_eq ⟨h.refines.runs.finish hwake htask hprog rfl rfl, h.refines.channels, h.refines.received⟩
      rfl rfl rfl rfl rfl (hwake.active_of_ended hcur rfl rfl rfl))
  | panic =>
    simp only [SimState.pollTask, hprog] at hpoll
    cases hpoll
  | @sendTo partyId packet next _ =>
    cases hsend : s.sb.send task.party partyId packet with
    | none =>
      simp only [SimState.pollTask, hprog, Switchboard.perform, hsend] at hpoll
      cases hpoll
    | some sb =>
      simp only [SimState.pollTask, hprog, Switchboard.perform, hsend, SimState.resume, Outcome.next.injEq] at hpoll
      refine .inr ⟨_, h.sent hreach hcur htask hprog rfl rfl ?_⟩
      rw [← hpoll, Switchboard.send_eq_dispatch hsend]
      simp [History.observe, Switchboard.dispatch, Switchboard.schedule, Switchboard.recordEvent,
        Switchboard.clockOf]
  | @recvFrom sender next _ =>
    cases hqueue : s.sb.msgQueues ⟨sender, task.party⟩ with
    | nil =>
      simp only [SimState.pollTask, hprog, Switchboard.perform, Switchboard.pollRecv, Switchboard.tryRecv, hqueue,
        SimState.resume, Outcome.next.injEq] at hpoll
      have htasks : s'.tasks = Function.update s.tasks id (some { task with deadline := none }) := by
        rw [← hpoll, hprog]
        rfl
      subst hpoll
      exact .inl (h.of_eq ⟨h.refines.runs.suspend hwake htask htasks rfl, h.refines.channels, h.refines.received⟩
        rfl rfl rfl rfl rfl (hwake.active_of_ended hcur htasks rfl rfl))
    | cons packet queue =>
      simp only [SimState.pollTask, hprog, Switchboard.perform, Switchboard.pollRecv, Switchboard.tryRecv, hqueue,
        SimState.resume, Outcome.next.injEq] at hpoll
      exact .inr ⟨_, h.took hreach hcur htask hprog rfl hqueue hpoll.symm⟩
  | @record marker next _ =>
    simp only [SimState.pollTask, hprog, Switchboard.perform, SimState.resume, Outcome.next.injEq] at hpoll
    exact .inr ⟨_, h.recorded hreach hcur htask hprog hpoll.symm⟩

/-- **A step is an act of the timed network or none.** -/
theorem TimedRefines.step (h : TimedRefines sim s T) (hreach : Reachable sim s)
    (hdirected : T.net.Directed sim.parties) (hstep : s.step sim = .next s') :
    TimedRefines sim s' T ∨ ∃ act T', T.step sim.delay sim.parties act = some T' ∧ TimedRefines sim s' T' := by
  cases hcur : s.current with
  | some id =>
    cases htask : s.tasks id with
    | some task =>
      refine h.polled hreach hdirected hcur htask ?_
      simpa only [SimState.step, hcur, htask] using hstep
    | none => exact absurd htask (hreach.wake.unfinished id (.inl hcur))
  | none =>
    refine .inl ?_
    cases turn_moves hcur hstep with
    | @picked id ready task _ hready htask =>
      refine h.of_eq ⟨⟨h.refines.runs.running, h.refines.runs.completed⟩, h.refines.channels, h.refines.received⟩
        rfl rfl rfl rfl rfl fun id' task' hid' htask' => ⟨.inr ?_, htask'⟩
      rw [hready, List.mem_cons]
      exact hid'.imp_left fun hid => (Option.some.inj hid).symm
    | @skipped id ready _ hready htask => exact absurd htask (hreach.wake.unfinished id (.inr (by simp [hready])))
    | delivered _ hready hevents => exact h.delivered hreach hdirected hcur hready hevents rfl
    | sent hsome | recorded hsome | armed hsome | took hsome | timedOut hsome | parked hsome | finished hsome
    | dropped hsome => cases hcur.symm.trans hsome

end

/-- **A simulation runs a schedule of the timed network**, which keeps its time. -/
theorem Reachable.timed_refines {s : SimState ρ} (h : Reachable sim s)
    (hdirected : (NetState.init sim.program).Directed sim.parties) :
    ∃ schedule T, (TimedNet.init sim.program).run sim.delay sim.parties schedule = some T ∧
      TimedRefines sim s T := by
  induction h with
  | init => exact ⟨[], _, rfl, .init sim⟩
  | step hreach hstep ih =>
    obtain ⟨schedule, T, hrun, hT⟩ := ih
    rcases hT.step hreach (hdirected.run (TimedNet.run_net hrun)) hstep with hT' | ⟨act, T', hact, hT'⟩
    · exact ⟨schedule, T, hrun, hT'⟩
    · refine ⟨schedule ++ [act], T', ?_, hT'⟩
      rw [TimedNet.run_append hrun]
      exact TimedNet.run_cons.mpr ⟨T', hact, rfl⟩

/-! ### Where it stops -/

/-- The executor has stopped without a panic. -/
def SimState.Stops (sim : Simulation ρ) (s : SimState ρ) : Prop := s.step sim = .returned ∨ s.step sim = .deadlock

theorem Reachable.ended {s : SimState ρ} (h : Reachable sim s) (hstops : s.Stops sim) : s.Ended := by
  rcases hstops with hreturned | hdeadlock
  · exact .inl (h.wake.remaining_eq_zero.mp ((s.step_ends sim).1.mp hreturned).2)
  · obtain ⟨hidle, -, hevents⟩ := (s.step_ends sim).2.mp hdeadlock
    exact .inr ⟨hidle, hevents⟩

theorem Reachable.exists_schedule {s : SimState ρ} (h : Reachable sim s) (hstops : s.Stops sim)
    (hdirected : (NetState.init sim.program).Directed sim.parties) :
    ∃ schedule T, (TimedNet.init sim.program).run sim.delay sim.parties schedule = some T ∧
      T.net.Maximal sim.parties ∧ T.timing.traces = s.sb.traces := by
  obtain ⟨schedule, T, hrun, hT⟩ := h.timed_refines hdirected
  exact ⟨schedule, T, hrun,
    hT.refines.maximal h.wake (h.ended hstops) (hdirected.run (TimedNet.run_net hrun)), hT.traces⟩

theorem Reachable.traces_related {s : SimState ρ} (h : Reachable sim s) (hstops : s.Stops sim)
    (hdirected : (NetState.init sim.program).Directed sim.parties) {R : Duration → Duration → Prop} {delay : Delay}
    (hR : Transfers R sim.delay delay) {parties : List PartyId} (hparties : ∀ p, p ∈ parties ↔ p ∈ sim.parties)
    {schedule : List Act} {T : TimedNet ρ}
    (hrun : (TimedNet.init sim.program).run delay parties schedule = some T) (hmax : T.net.Maximal parties)
    (p : PartyId) : List.Forall₂ (Event.Related R) (s.sb.traces p) (T.timing.traces p) := by
  obtain ⟨schedule₁, T₁, hrun₁, hmax₁, htraces⟩ := h.exists_schedule hstops hdirected
  obtain ⟨T₂, hrun₂, hnet, hrelated⟩ := TimedNet.run_related hR rfl (.init hR) hrun₁
  have hdirected' : (NetState.init sim.program).Directed parties := fun p hp => hdirected p ((hparties p).mp hp)
  have hrun' : (TimedNet.init sim.program).run delay sim.parties schedule = some T :=
    TimedNet.run_congr hdirected' (fun p => (hparties p).symm) hrun
  have hmax' : T.net.Maximal sim.parties := by
    intro act
    rw [(hdirected'.run (TimedNet.run_net hrun)).step_congr (fun p => (hparties p).symm), hmax act]
  have hfinal : T₂ = T := TimedNet.final_unique hdirected (.init _) hrun₂ hrun' (hnet ▸ hmax₁) hmax'
  rw [← htraces, ← hfinal]
  exact hrelated.traces p

theorem Event.eq_of_related {e e' : Event} (h : e.Related Eq e') : e = e' := by
  obtain ⟨huntimed, htime⟩ := h
  cases e <;> cases e' <;> simp_all [untimed, timestamp]

theorem transfers_eq (delay : Delay) : Transfers Eq delay delay where
  zero := rfl
  max := by rintro _ _ _ _ rfl rfl; rfl
  delay := by rintro _ _ _ _ rfl; rfl

/-- **The times of a simulation are those of the network**, whatever its schedule is: so they do not depend on
the order in which the parties are spawned and polled. -/
theorem simulation_keeps_time {s : SimState ρ} (h : Reachable sim s) (hstops : s.Stops sim)
    (hdirected : (NetState.init sim.program).Directed sim.parties) :
    (∀ schedule (T : TimedNet ρ), (TimedNet.init sim.program).run sim.delay sim.parties schedule = some T →
        T.net.Maximal sim.parties → T.timing.traces = s.sb.traces) ∧
      ∀ (sim' : Simulation ρ) (s' : SimState ρ), sim'.program = sim.program → sim'.delay = sim.delay →
        sim'.parties.Perm sim.parties → Reachable sim' s' → s'.Stops sim' → s'.sb.traces = s.sb.traces := by
  have hkeeps : ∀ (parties : List PartyId), (∀ p, p ∈ parties ↔ p ∈ sim.parties) → ∀ schedule (T : TimedNet ρ),
      (TimedNet.init sim.program).run sim.delay parties schedule = some T → T.net.Maximal parties →
      T.timing.traces = s.sb.traces := by
    intro parties hparties schedule T hrun hmax
    funext p
    have hrelated := h.traces_related hstops hdirected (transfers_eq sim.delay) hparties hrun hmax p
    exact (List.forall₂_eq_eq_eq ▸ hrelated.imp fun _ _ => Event.eq_of_related).symm
  refine ⟨hkeeps sim.parties fun _ => .rfl, fun sim' s' hprogram hdelay hperm h' hstops' => ?_⟩
  have hdirected' : (NetState.init sim'.program).Directed sim'.parties := by
    rw [hprogram]
    exact fun p hp => hdirected p (hperm.mem_iff.mp hp)
  obtain ⟨schedule, T, hrun, hmax, htraces⟩ := h'.exists_schedule hstops' hdirected'
  rw [hprogram, hdelay] at hrun
  rw [← htraces]
  exact hkeeps sim'.parties (fun p => hperm.mem_iff) schedule T hrun hmax

theorem simulation_keeps_time_pingPong : ∃ s schedule T, Reachable (pingPong.withDelay fun _ _ => 5) s ∧
    (TimedNet.init pingPong.program).run (fun _ _ => 5) pingPong.parties schedule = some T ∧
    T.timing.traces = s.sb.traces ∧ (T.timing.traces 0).map Event.timestamp = [0, 10] := by
  have h := Reachable.init.steps (Option.some_get (x := (SimState.init (pingPong.withDelay fun _ _ => 5)).steps
    (pingPong.withDelay fun _ _ => 5) 14) rfl).symm
  obtain ⟨schedule, net, hnet, hmax⟩ := NetState.exists_maximal pingPong.parties (.init pingPong.program)
  have hexists : ∃ T, (TimedNet.init pingPong.program).run (fun _ _ => 5) pingPong.parties schedule = some T ∧
      T.net = net := TimedNet.exists_run hnet
  obtain ⟨T, hrun, rfl⟩ := hexists
  have htraces := (simulation_keeps_time h (.inl rfl) pingPong_directed).1 schedule T hrun hmax
  exact ⟨_, schedule, T, h, hrun, htraces, by rw [htraces]; rfl⟩

theorem Reachable.traces_withDelay {s s' : SimState ρ} {delay : Delay} (h : Reachable sim s) (hstops : s.Stops sim)
    (h' : Reachable (sim.withDelay delay) s') (hstops' : s'.Stops (sim.withDelay delay))
    (hdirected : (NetState.init sim.program).Directed sim.parties) {R : Duration → Duration → Prop}
    (hR : Transfers R sim.delay delay) (p : PartyId) :
    List.Forall₂ (Event.Related R) (s.sb.traces p) (s'.sb.traces p) := by
  obtain ⟨schedule, T, hrun, hmax, htraces⟩ := h'.exists_schedule hstops' hdirected
  rw [← htraces]
  exact h.traces_related hstops hdirected hR (fun _ => .rfl) hrun hmax p

theorem transfers_le {c d : Nat} {delay delay' : Delay}
    (hdelay : ∀ link size, c * delay link size ≤ d * delay' link size) :
    Transfers (fun a b => c * a ≤ d * b) delay delay' where
  zero := le_rfl
  max := by
    intro a a' b b' ha hb
    rw [← Nat.mul_max_mul_left, ← Nat.mul_max_mul_left]
    exact max_le_max ha hb
  delay := by
    intro a a' link size ha
    rw [Nat.mul_add, Nat.mul_add]
    exact Nat.add_le_add ha (hdelay link size)

/-- **Times are monotone in the delays, and scale with them**: if `c` times the one model is at most `d` times the
other, every party has the same events, and `c` times the time of each is at most `d` times its other time. -/
theorem simulation_bounds {s s' : SimState ρ} {delay : Delay} {c d : Nat} (h : Reachable sim s)
    (hstops : s.Stops sim) (h' : Reachable (sim.withDelay delay) s') (hstops' : s'.Stops (sim.withDelay delay))
    (hdirected : (NetState.init sim.program).Directed sim.parties)
    (hdelay : ∀ link size, c * sim.delay link size ≤ d * delay link size) (p : PartyId) :
    List.Forall₂ (Event.Related fun a b => c * a ≤ d * b) (s.sb.traces p) (s'.sb.traces p) :=
  h.traces_withDelay hstops h' hstops' hdirected (transfers_le hdelay) p

theorem simulation_bounds_pingPong : ∃ s s', Reachable pingPong s ∧ Reachable (pingPong.withDelay fun _ _ => 5) s' ∧
    List.Forall₂ (Event.Related fun a b => 1 * a ≤ 1 * b) (s.sb.traces 0) (s'.sb.traces 0) ∧
    (s'.sb.traces 0).map Event.timestamp = [0, 10] := by
  have h := Reachable.init.steps (Option.some_get (x := (SimState.init pingPong).steps pingPong 14) rfl).symm
  have h' := Reachable.init.steps (Option.some_get (x := (SimState.init (pingPong.withDelay fun _ _ => 5)).steps
    (pingPong.withDelay fun _ _ => 5) 14) rfl).symm
  exact ⟨_, _, h, h', simulation_bounds h (.inl rfl) h' (.inl rfl) pingPong_directed (fun _ _ => Nat.zero_le 5) 0, rfl⟩

end SclRs
