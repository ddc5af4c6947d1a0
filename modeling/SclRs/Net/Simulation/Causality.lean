import SclRs.Net.Simulation.Delivery

/-!
# Virtual-time causality

The virtual time `now` of a run is the arrival of the last popped event. `TimeInv` says that no clock
is ahead of it and no scheduled event is behind it. A pop takes the least arrival, so `now` never
decreases, and it moves the recipient's clock to the new `now`; the executor polls a party only
between such a pop and the next one (`AwakeInv`), so whatever is scheduled by a poll lies at or after
`now`. `TraceInv` connects the traces to the history, where `LinkLog` bounds each hand-over by its
arrival.
-/

namespace SclRs

variable {ρ : Type} {sim : Simulation ρ}

/-- What a trace event says of a send on `link`: its timestamp, size and content. -/
def Event.sentOn (link : Link) : Event → Option (Duration × Nat × List (String × Nat))
  | .sendData t l size content => if l = link then some (t, size, content) else none
  | _ => none

/-- What a trace event says of a packet received on `link`. -/
def Event.receivedOn (link : Link) : Event → Option (Duration × Nat × List (String × Nat))
  | .receiveData t l size content => if l = link then some (t, size, content) else none
  | _ => none

@[simp] theorem Event.sentOn_marker (link : Link) (t : Duration) (m : Marker) :
    (m.event t).sentOn link = none := by
  cases m <;> rfl

@[simp] theorem Event.receivedOn_marker (link : Link) (t : Duration) (m : Marker) :
    (m.event t).receivedOn link = none := by
  cases m <;> rfl

theorem Switchboard.clockOf_release (sb : Switchboard) (me : PartyId) (parties : List PartyId)
    (op : NetOp) : (sb.release me parties op).clockOf = sb.clockOf := by
  unfold release
  split_ifs <;> rfl

/-! ### Time -/

/-- No clock is ahead of `now` and no event behind it. -/
structure TimeInv (sim : Simulation ρ) (sb : Switchboard) (hist : History) : Prop where
  delay : sb.delay = sim.delay
  popped : hist.popped.Pairwise (· ≤ ·)
  clock_le : ∀ p, sb.clockOf p ≤ hist.now
  arrival_ge : ∀ e ∈ sb.events, hist.now ≤ e.arrival
  sent_delay : ∀ link, ∀ r ∈ hist.sent link, r.timestamp + sim.delay link r.packet.size ≤ r.arrival

@[simp] theorem History.now_pushPopped (h : History) (arrival : Duration) :
    (h.pushPopped arrival).now = arrival := by
  simp [now, pushPopped]

theorem History.le_now {h : History} (hsorted : h.popped.Pairwise (· ≤ ·)) :
    ∀ a ∈ h.popped, a ≤ h.now := by
  intro a ha
  obtain ⟨l, b, hl⟩ := (List.eq_nil_or_concat' h.popped).resolve_left (List.ne_nil_of_mem ha)
  have hnow : h.now = b := by simp [now, hl]
  rw [hl] at hsorted ha
  rw [hnow]
  rcases List.mem_append.mp ha with ha | ha
  · exact (List.pairwise_append.mp hsorted).2.2 a ha b (by simp)
  · exact le_of_eq (List.mem_singleton.mp ha)

namespace TimeInv

variable {sb : Switchboard} {hist : History}

theorem init (sim : Simulation ρ) : TimeInv sim (.new sim.delay) .empty where
  delay := rfl
  popped := .nil
  clock_le _ := le_rfl
  arrival_ge := by simp [Switchboard.new]
  sent_delay := by simp [History.empty]

theorem recordEvent (h : TimeInv sim sb hist) (party : PartyId) (event : Event) :
    TimeInv sim (sb.recordEvent party event) hist :=
  ⟨h.delay, h.popped, h.clock_le, h.arrival_ge, h.sent_delay⟩

theorem withParked (h : TimeInv sim sb hist) (parked : Link → Option TaskId) :
    TimeInv sim { sb with parked := parked } hist :=
  ⟨h.delay, h.popped, h.clock_le, h.arrival_ge, h.sent_delay⟩

theorem release (h : TimeInv sim sb hist) (me : PartyId) (parties : List PartyId) (op : NetOp) :
    TimeInv sim (sb.release me parties op) hist := by
  unfold Switchboard.release
  split_ifs
  · exact h.withParked _
  · exact h

theorem schedule (h : TimeInv sim sb hist) (link : Link) (kind : EventKind) {arrival : Duration}
    (harrival : hist.now ≤ arrival) : TimeInv sim (sb.schedule arrival link kind) hist where
  delay := h.delay
  popped := h.popped
  clock_le := h.clock_le
  arrival_ge e he := by
    rcases (Lib.TimeQueue.mem_push _).mp he with rfl | he
    · exact harrival
    · exact h.arrival_ge e he
  sent_delay := h.sent_delay

theorem armTimer (h : TimeInv sim sb hist) (timerLink : Option Link) {deadline : Duration}
    (hdeadline : hist.now ≤ deadline) : TimeInv sim (sb.armTimer timerLink deadline) hist := by
  cases timerLink with
  | some link => exact h.schedule link .timer hdeadline
  | none => exact h

theorem dispatch (h : TimeInv sim sb hist) {link : Link} {packet : Packet} {arrival : Duration}
    (hdelay : sb.clockOf link.sender + sb.delay link packet.size ≤ arrival)
    (hnow : hist.now ≤ arrival) :
    TimeInv sim (sb.dispatch link packet arrival)
      (hist.pushSent link ⟨packet, sb.clockOf link.sender, arrival⟩) where
  delay := h.delay
  popped := h.popped
  clock_le := h.clock_le
  arrival_ge := (h.schedule link (.delivery packet) hnow).arrival_ge
  sent_delay l r hr := by
    change r ∈ Function.update hist.sent link _ l at hr
    by_cases hl : l = link
    · subst hl
      rw [Function.update_self] at hr
      rcases List.mem_append.mp hr with hr | hr
      · exact h.sent_delay l r hr
      · rw [List.mem_singleton.mp hr, ← h.delay]
        exact hdelay
    · rw [Function.update_of_ne hl] at hr
      exact h.sent_delay l r hr

theorem handOver (h : TimeInv sim sb hist) (link : Link) (packet : Packet) (queue : List Packet)
    (clock : Duration) :
    TimeInv sim (sb.handOver link packet queue) (hist.pushHanded link packet clock) :=
  ⟨h.delay, h.popped, h.clock_le, h.arrival_ge, h.sent_delay⟩

theorem fire (h : TimeInv sim sb hist) {event : ScheduledEvent} {rest : List ScheduledEvent}
    (hevents : sb.events = event :: rest)
    (hordered : Lib.TimeQueue.Ordered ScheduledEvent.key sb.events) :
    TimeInv sim (sb.fire event rest) (hist.pushPopped event.arrival) := by
  rw [hevents] at hordered
  have hnow : hist.now ≤ event.arrival := h.arrival_ge event (by simp [hevents])
  have hpopped : (hist.popped ++ [event.arrival]).Pairwise (· ≤ ·) := by
    refine List.pairwise_append.mpr ⟨h.popped, List.pairwise_singleton _ _, fun a ha b hb => ?_⟩
    rw [List.mem_singleton.mp hb]
    exact (History.le_now h.popped a ha).trans hnow
  have hclock : ∀ p, Function.update sb.clocks event.link.recipient
      (max (sb.clocks event.link.recipient) event.arrival) p ≤ event.arrival := by
    intro p
    by_cases hp : p = event.link.recipient
    · subst hp
      rw [Function.update_self]
      exact max_le ((h.clock_le _).trans hnow) le_rfl
    · rw [Function.update_of_ne hp]
      exact (h.clock_le p).trans hnow
  have hrest : ∀ e ∈ rest, event.arrival ≤ e.arrival := fun e he =>
    ScheduledEvent.arrival_le (Lib.TimeQueue.Ordered.head_key_le _ hordered e (by simp [he]))
  obtain ⟨arrival, seq, link, kind⟩ := event
  cases kind <;>
    exact ⟨h.delay, hpopped, by simpa [Switchboard.fire, Switchboard.clockOf] using hclock,
      by simpa [Switchboard.fire] using hrest, h.sent_delay⟩

theorem clockOf_fire (h : TimeInv sim sb hist) {event : ScheduledEvent}
    {rest : List ScheduledEvent} (hevents : sb.events = event :: rest) :
    (sb.fire event rest).clockOf event.link.recipient = event.arrival := by
  have hle : sb.clocks event.link.recipient ≤ event.arrival :=
    (h.clock_le _).trans (h.arrival_ge event (by simp [hevents]))
  obtain ⟨arrival, seq, link, kind⟩ := event
  cases kind <;> simpa [Switchboard.fire, Switchboard.clockOf] using hle

end TimeInv

/-! ### Traces -/

/-- The traces tell the history, in clock order. -/
structure TraceInv (sb : Switchboard) (hist : History) : Prop where
  sorted : ∀ p, ((sb.traces p).map Event.timestamp).Pairwise (· ≤ ·)
  le_clock : ∀ p, ∀ e ∈ sb.traces p, e.timestamp ≤ sb.clockOf p
  sends : ∀ link, (sb.traces link.sender).filterMap (Event.sentOn link) =
    (hist.sent link).map fun r => (r.timestamp, r.packet.size, r.packet.composition)
  receives : ∀ link, (sb.traces link.recipient).filterMap (Event.receivedOn link) =
    (hist.handed link).map fun h => (h.2, h.1.size, h.1.composition)

namespace TraceInv

variable {sb : Switchboard} {hist : History}

theorem init (delay : Delay) : TraceInv (.new delay) .empty := by
  constructor <;> simp [Switchboard.new, History.empty]

theorem traces_recordEvent (sb : Switchboard) (party : PartyId) (event : Event) (p : PartyId) :
    (sb.recordEvent party event).traces p =
      sb.traces p ++ if p = party then [event] else [] := by
  change Function.update sb.traces party _ p = _
  by_cases hp : p = party
  · subst hp
    simp
  · simp [hp]

theorem recordEvent (h : TraceInv sb hist) {party : PartyId} {event : Event} {hist' : History}
    (ht : event.timestamp = sb.clockOf party)
    (hsent : ∀ link, (hist'.sent link).map (fun r => (r.timestamp, r.packet.size,
        r.packet.composition)) = (hist.sent link).map (fun r => (r.timestamp, r.packet.size,
        r.packet.composition)) ++ if link.sender = party then (event.sentOn link).toList else [])
    (hhanded : ∀ link, (hist'.handed link).map (fun h => (h.2, h.1.size, h.1.composition)) =
      (hist.handed link).map (fun h => (h.2, h.1.size, h.1.composition)) ++
        if link.recipient = party then (event.receivedOn link).toList else []) :
    TraceInv (sb.recordEvent party event) hist' where
  sorted p := by
    rw [traces_recordEvent, List.map_append]
    refine List.pairwise_append.mpr ⟨h.sorted p, ?_, ?_⟩
    · split_ifs <;> simp
    · intro a ha b hb
      split_ifs at hb with hp
      · subst hp
        obtain ⟨e, he, rfl⟩ := List.mem_map.mp ha
        obtain rfl : b = event.timestamp := by simpa using hb
        exact ht ▸ h.le_clock p e he
      · simp at hb
  le_clock p e he := by
    change e.timestamp ≤ sb.clockOf p
    rw [traces_recordEvent] at he
    rcases List.mem_append.mp he with he | he
    · exact h.le_clock p e he
    · split_ifs at he with hp
      · rw [List.mem_singleton.mp he, hp, ht]
      · simp at he
  sends link := by
    rw [traces_recordEvent, List.filterMap_append, h.sends link, hsent link]
    congr 1
    split_ifs
    · cases hs : event.sentOn link <;> simp [hs]
    · rfl
  receives link := by
    rw [traces_recordEvent, List.filterMap_append, h.receives link, hhanded link]
    congr 1
    split_ifs
    · cases hs : event.receivedOn link <;> simp [hs]
    · rfl

theorem marker (h : TraceInv sb hist) (party : PartyId) (m : Marker) :
    TraceInv (sb.recordEvent party (m.event (sb.clockOf party))) hist :=
  h.recordEvent (by simp) (by simp) (by simp)

theorem later (h : TraceInv sb hist) {sb' : Switchboard} {hist' : History}
    (htraces : sb'.traces = sb.traces) (hclock : ∀ p, sb.clockOf p ≤ sb'.clockOf p)
    (hsent : hist'.sent = hist.sent) (hhanded : hist'.handed = hist.handed) :
    TraceInv sb' hist' where
  sorted := htraces ▸ h.sorted
  le_clock p e he := (h.le_clock p e (htraces ▸ he)).trans (hclock p)
  sends := by
    rw [htraces, hsent]
    exact h.sends
  receives := by
    rw [htraces, hhanded]
    exact h.receives

theorem dispatch (h : TraceInv sb hist) (link : Link) (packet : Packet) (arrival : Duration) :
    TraceInv (sb.dispatch link packet arrival)
      (hist.pushSent link ⟨packet, sb.clockOf link.sender, arrival⟩) := by
  have hrecord : TraceInv (sb.recordEvent link.sender (.sendData (sb.clockOf link.sender) link
      packet.size packet.composition))
      (hist.pushSent link ⟨packet, sb.clockOf link.sender, arrival⟩) := by
    refine h.recordEvent rfl (fun l => ?_) (fun l => by simp [Event.receivedOn, History.pushSent])
    by_cases hl : l = link
    · subst hl
      simp [History.pushSent, Event.sentOn]
    · simp [History.pushSent, Event.sentOn, hl, Ne.symm hl]
  exact hrecord.later rfl (fun _ => le_rfl) rfl rfl

theorem handOver (h : TraceInv sb hist) (link : Link) (packet : Packet) (queue : List Packet) :
    TraceInv (sb.handOver link packet queue)
      (hist.pushHanded link packet (sb.clockOf link.recipient)) := by
  have hqueues : TraceInv { sb with msgQueues := Function.update sb.msgQueues link queue } hist :=
    h.later rfl (fun _ => le_rfl) rfl rfl
  refine hqueues.recordEvent rfl (fun l => by simp [Event.sentOn, History.pushHanded]) fun l => ?_
  by_cases hl : l = link
  · subst hl
    simp [History.pushHanded, Event.receivedOn, Switchboard.clockOf]
  · simp [History.pushHanded, Event.receivedOn, hl, Ne.symm hl]

end TraceInv

/-! ### The executor polls at `now` -/

/-- A task that is being polled or about to be is at `now`; a waker belongs to its link's recipient. -/
structure AwakeInv (s : SimState ρ) : Prop where
  awake : ∀ id task, s.current = some id ∨ id ∈ s.ready → s.tasks id = some task →
    s.sb.clockOf task.party = s.hist.now
  parked : ∀ link id task, s.sb.parked link = some id → s.tasks id = some task →
    task.party = link.recipient

namespace AwakeInv

theorem init (sim : Simulation ρ) : AwakeInv (.init sim) where
  awake _ _ _ _ := rfl
  parked := by simp [SimState.init, Switchboard.new]

variable {s : SimState ρ}

theorem step (h : AwakeInv s) {s' : SimState ρ} (hclock : s'.sb.clockOf = s.sb.clockOf)
    (hnow : s'.hist.now = s.hist.now)
    (hawake : ∀ id, s'.current = some id ∨ id ∈ s'.ready → s.current = some id ∨ id ∈ s.ready)
    (htasks : ∀ id task', s'.tasks id = some task' → ∃ task, s.tasks id = some task ∧
      task'.party = task.party)
    (hparked : ∀ link id, s'.sb.parked link = some id → s.sb.parked link = some id ∨
      ∀ task', s'.tasks id = some task' → task'.party = link.recipient) :
    AwakeInv s' where
  awake id task' hid htask' := by
    obtain ⟨task, htask, hparty⟩ := htasks id task' htask'
    rw [hclock, hnow, hparty]
    exact h.awake id task (hawake id hid) htask
  parked link id task' hlink htask' := by
    rcases hparked link id hlink with hlink | hnew
    · obtain ⟨task, htask, hparty⟩ := htasks id task' htask'
      rw [hparty]
      exact h.parked link id task hlink htask
    · exact hnew task' htask'

end AwakeInv

theorem SimState.party_of_setTask {s : SimState ρ} {id : TaskId} {task new : Task ρ}
    (htask : s.tasks id = some task) (hparty : new.party = task.party) :
    ∀ id' task', (s.setTask id (some new)).tasks id' = some task' →
      ∃ task, s.tasks id' = some task ∧ task'.party = task.party := by
  intro id' task' h
  change Function.update s.tasks id (some new) id' = some task' at h
  by_cases hid : id' = id
  · subst hid
    rw [Function.update_self] at h
    exact ⟨task, htask, Option.some.inj h ▸ hparty⟩
  · rw [Function.update_of_ne hid] at h
    exact ⟨task', h, rfl⟩

theorem Switchboard.parked_release {sb : Switchboard} {me : PartyId} {parties : List PartyId}
    {op : NetOp} {link : Link} {id : TaskId} (h : (sb.release me parties op).parked link = some id) :
    sb.parked link = some id := by
  unfold release at h
  split_ifs at h
  · change setAll sb.parked (inbound me parties) none link = some id at h
    rw [setAll_apply] at h
    split_ifs at h
    exact h
  · exact h

theorem Move.awake {s s' : SimState ρ} (h : Move sim s s') (htime : TimeInv sim s.sb s.hist)
    (hinv : AwakeInv s) : AwakeInv s' := by
  cases h with
  | sent hcur htask | recorded hcur htask =>
    exact hinv.step rfl rfl (fun _ => id) (SimState.party_of_setTask htask rfl)
      fun _ _ hp => .inl hp
  | armed hcur htask =>
    refine hinv.step ?_ rfl (fun _ => id) (SimState.party_of_setTask htask rfl) fun _ _ hp => .inl ?_
    · unfold Switchboard.armTimer
      split <;> rfl
    · unfold Switchboard.armTimer at hp
      split at hp <;> exact hp
  | took hcur htask =>
    exact hinv.step (Switchboard.clockOf_release _ _ _ _) rfl (fun _ => id)
      (SimState.party_of_setTask htask rfl) fun _ _ hp => .inl (Switchboard.parked_release hp)
  | timedOut hcur htask =>
    exact hinv.step (Switchboard.clockOf_release _ _ _ _) rfl (fun _ => id)
      (SimState.party_of_setTask htask rfl) fun _ _ hp => .inl (Switchboard.parked_release hp)
  | @parked id task op _ deadline hcur htask =>
    refine hinv.step rfl rfl (fun _ h => h.elim nofun .inr) (SimState.party_of_setTask htask rfl)
      fun link id' hp => ?_
    change setAll s.sb.parked (op.awaits task.party sim.parties) (some id) link = some id' at hp
    rw [setAll_apply] at hp
    split_ifs at hp with hmem
    · obtain rfl := Option.some.inj hp
      refine .inr fun task' htask' => ?_
      change Function.update s.tasks id _ id = some task' at htask'
      rw [Function.update_self] at htask'
      rw [← Option.some.inj htask', NetOp.recipient_of_mem_awaits hmem]
    · exact .inl hp
  | @finished id task result hcur htask =>
    refine hinv.step rfl rfl (fun _ h => h.elim nofun .inr) (fun id' task' h => ?_)
      fun _ _ hp => .inl hp
    change Function.update s.tasks id none id' = some task' at h
    by_cases hid : id' = id
    · subst hid
      rw [Function.update_self] at h
      cases h
    · rw [Function.update_of_ne hid] at h
      exact ⟨task', h, rfl⟩
  | dropped =>
    exact hinv.step rfl rfl (fun _ h => h.elim nofun .inr) (fun _ task' h => ⟨task', h, rfl⟩)
      fun _ _ hp => .inl hp
  | @picked id ready task hcur hready =>
    refine hinv.step rfl rfl (fun id' h => .inr ?_) (fun _ task' h => ⟨task', h, rfl⟩)
      fun _ _ hp => .inl hp
    rw [hready]
    rcases h with h | h
    · exact Option.some.inj h ▸ List.mem_cons_self
    · exact List.mem_cons_of_mem _ h
  | @skipped id ready hcur hready =>
    refine hinv.step rfl rfl (fun id' h => h.imp_right fun h => ?_)
      (fun _ task' h => ⟨task', h, rfl⟩) fun _ _ hp => .inl hp
    rw [hready]
    exact List.mem_cons_of_mem _ h
  | @delivered event rest hcur hready hevents =>
    refine ⟨fun id task hid htask => ?_, fun link id task hp htask => ?_⟩
    · -- the only task awake is the one whose waker was parked on the event's link
      have hpark : s.sb.parked event.link = some id := by
        rcases hid with hid | hid
        · exact absurd (hcur.symm.trans hid) nofun
        · simpa using hid
      rw [hinv.parked _ id task hpark htask, History.now_pushPopped]
      exact htime.clockOf_fire hevents
    · change Function.update s.sb.parked event.link none link = some id at hp
      by_cases hl : link = event.link
      · subst hl
        rw [Function.update_self] at hp
        cases hp
      · rw [Function.update_of_ne hl] at hp
        exact hinv.parked link id task hp htask

theorem Move.time {s s' : SimState ρ} (h : Move sim s s')
    (hfifo : FifoInv s.sb s.hist) (hawake : AwakeInv s) (hinv : TimeInv sim s.sb s.hist) :
    TimeInv sim s'.sb s'.hist := by
  cases h with
  | @sent id task partyId packet _ arrival hcur htask _ hdelay =>
    have hnow : s.hist.now ≤ arrival := by
      rw [← hawake.awake id task (.inl hcur) htask]
      exact Nat.le_of_add_right_le hdelay
    exact hinv.dispatch hdelay hnow
  | recorded => exact hinv.recordEvent _ _
  | @armed id task _ _ t d hcur htask _ _ _ hadd =>
    have hnow : s.hist.now ≤ d := by
      rw [← hawake.awake id task (.inl hcur) htask, (Duration.checkedAdd_eq_some.mp hadd).1]
      exact Nat.le_add_right _ _
    exact hinv.armTimer _ hnow
  | took => exact (hinv.release _ _ _).handOver _ _ _ _
  | timedOut => exact hinv.release _ _ _
  | parked => exact hinv.withParked _
  | finished | dropped | picked | skipped => exact hinv
  | delivered _ _ hevents => exact (hinv.fire hevents hfifo.ordered).withParked _

theorem Move.clock_le {s s' : SimState ρ} (h : Move sim s s') (p : PartyId) :
    s.sb.clockOf p ≤ s'.sb.clockOf p := by
  cases h with
  | sent | recorded | parked | finished | dropped | picked | skipped => exact le_rfl
  | armed =>
    unfold Switchboard.armTimer
    split <;> exact le_rfl
  | took | timedOut => exact le_of_eq (congrFun (Switchboard.clockOf_release _ _ _ _).symm p)
  | @delivered event rest =>
    obtain ⟨arrival, seq, link, kind⟩ := event
    have hle : s.sb.clocks p ≤
        Function.update s.sb.clocks link.recipient (max (s.sb.clocks link.recipient) arrival) p := by
      by_cases hp : p = link.recipient
      · subst hp
        simp
      · rw [Function.update_of_ne hp]
    cases kind <;> exact hle

theorem Move.trace {s s' : SimState ρ} (h : Move sim s s') (hinv : TraceInv s.sb s.hist) :
    TraceInv s'.sb s'.hist := by
  have hclock := h.clock_le
  cases h with
  | @sent _ task partyId packet => exact hinv.dispatch ⟨task.party, partyId⟩ packet _
  | recorded => exact hinv.marker _ _
  | armed => exact hinv.later (by unfold Switchboard.armTimer; split <;> rfl) hclock rfl rfl
  | @took _ task op _ link packet queue _ _ _ _ _ hmem =>
    have hrelease : TraceInv (s.sb.release task.party sim.parties op) s.hist := by
      refine hinv.later ?_ (fun p => ?_) rfl rfl
      · unfold Switchboard.release
        split_ifs <;> rfl
      · rw [Switchboard.clockOf_release]
    have hhand := hrelease.handOver link packet queue
    rwa [Switchboard.clockOf_release, NetOp.recipient_of_mem_awaits hmem] at hhand
  | timedOut => exact hinv.later (by unfold Switchboard.release; split_ifs <;> rfl) hclock rfl rfl
  | parked | finished | dropped | picked | skipped => exact hinv.later rfl hclock rfl rfl
  | @delivered event rest =>
    obtain ⟨arrival, seq, link, kind⟩ := event
    cases kind <;> exact hinv.later rfl hclock rfl rfl

/-- All that is known of the time in a reachable state. -/
structure TimedInv (sim : Simulation ρ) (s : SimState ρ) : Prop where
  fifo : FifoInv s.sb s.hist
  time : TimeInv sim s.sb s.hist
  awake : AwakeInv s
  trace : TraceInv s.sb s.hist

theorem TimedInv.init (sim : Simulation ρ) : TimedInv sim (.init sim) :=
  ⟨.init _, .init sim, .init sim, .init _⟩

theorem Move.timed {s s' : SimState ρ} (h : Move sim s s') (hinv : TimedInv sim s) :
    TimedInv sim s' :=
  ⟨h.fifo hinv.fifo, h.time hinv.fifo hinv.awake hinv.time, h.awake hinv.time hinv.awake,
    h.trace hinv.trace⟩

theorem Reachable.timed {s : SimState ρ} (h : Reachable sim s) : TimedInv sim s :=
  h.induct (.init sim) fun _ _ => Move.timed

theorem SimState.clock_le_of_step {s s' : SimState ρ} (h : s.step sim = .next s') (p : PartyId) :
    s.sb.clockOf p ≤ s'.sb.clockOf p := by
  have hmoves := step_moves h
  clear h
  induction hmoves with
  | single hmove => exact hmove.clock_le p
  | tail _ hmove ih => exact ih.trans (hmove.clock_le p)

theorem LinkLog.handed_get {sent : List SentPacket} {handed transit : List (Packet × Duration)}
    {queue : List Packet} {clock : Duration} (h : LinkLog sent handed queue transit clock) {k : Nat}
    {p : Packet × Duration} (hp : handed[k]? = some p) :
    ∃ r, sent[k]? = some r ∧ r.packet = p.1 ∧ r.arrival ≤ p.2 := by
  obtain ⟨got, queued, flying, rfl, hgot, -⟩ := h
  obtain ⟨hk, rfl⟩ := List.getElem?_eq_some_iff.mp hp
  have hk' : k < got.length := hgot.length_eq ▸ hk
  refine ⟨got[k], ?_, hgot.get hk' hk⟩
  rw [List.append_assoc, List.getElem?_append_left hk', List.getElem?_eq_getElem hk']

/-- **Virtual-time causality.** Pops are in arrival order, no clock is ahead of the last pop and no
event behind it, a party is polled at the time of the last pop, clocks and traces only go forward, and
a packet is received no earlier than its send and its delay allow. -/
structure Causal (sim : Simulation ρ) (s : SimState ρ) : Prop where
  popped_sorted : s.hist.popped.Pairwise (· ≤ ·)
  clock_le_now : ∀ p, s.sb.clockOf p ≤ s.hist.now
  polled_at_now : ∀ id task, s.current = some id → s.tasks id = some task →
    s.sb.clockOf task.party = s.hist.now
  now_le_event : ∀ e ∈ s.sb.events, s.hist.now ≤ e.arrival
  clock_forward : ∀ s', s.step sim = .next s' → ∀ p, s.sb.clockOf p ≤ s'.sb.clockOf p
  trace_forward : ∀ p, ((s.sb.traces p).map Event.timestamp).Pairwise (· ≤ ·) ∧
    ∀ e ∈ s.sb.traces p, e.timestamp ≤ s.sb.clockOf p
  received_after_delay : ∀ (link : Link) (k : Nat) (t : Duration) (size : Nat) (content : List (String × Nat)),
    ((s.sb.traces link.recipient).filterMap (Event.receivedOn link))[k]? = some (t, size, content) →
    ∃ t₀ : Duration, ((s.sb.traces link.sender).filterMap (Event.sentOn link))[k]? = some (t₀, size, content) ∧
      t₀ + sim.delay link size ≤ t

theorem virtual_time_causality {s : SimState ρ} (h : Reachable sim s) : Causal sim s := by
  obtain ⟨hfifo, htime, hawake, htrace⟩ := h.timed
  refine ⟨htime.popped, htime.clock_le, fun id task hcur => hawake.awake id task (.inl hcur),
    htime.arrival_ge, fun s' hstep => SimState.clock_le_of_step hstep,
    fun p => ⟨htrace.sorted p, htrace.le_clock p⟩, fun link k t size content hreceived => ?_⟩
  rw [htrace.receives link, List.getElem?_map, Option.map_eq_some_iff] at hreceived
  obtain ⟨p, hp, heq⟩ := hreceived
  simp only [Prod.mk.injEq] at heq
  obtain ⟨rfl, rfl, rfl⟩ := heq
  obtain ⟨r, hr, hpacket, harrival⟩ := (hfifo.log link).handed_get hp
  refine ⟨r.timestamp, ?_, ?_⟩
  · rw [htrace.sends link, List.getElem?_map, hr, ← hpacket]
    rfl
  · rw [← hpacket]
    exact (htime.sent_delay link r (List.mem_of_getElem? hr)).trans harrival

theorem virtual_time_causality_photoFinish :
    ∃ s, Reachable photoFinish s ∧ s.hist.popped = [10] ∧ Causal photoFinish s := by
  have hs := Reachable.init.steps (Option.some_get (x := (SimState.init photoFinish).steps
    photoFinish 8) rfl).symm
  exact ⟨_, hs, by decide, virtual_time_causality hs⟩

end SclRs
