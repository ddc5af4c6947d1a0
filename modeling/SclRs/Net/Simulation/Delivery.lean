import SclRs.Net.Simulation.Moves

/-!
# Exactly-once FIFO delivery

`LinkLog` relates what was sent on a link to what was handed over, what waits in the queue and what
is still scheduled: the first list is the concatenation of the other three, and a packet that left
the heap did so by its arrival. The heap is ordered strictly and a send is clamped to the link's last
arrival, so a scheduled delivery comes last among those of its link: `FifoInv` is kept by every move.
-/

namespace SclRs

variable {ρ : Type} {sim : Simulation ρ}

/-- The packet and the arrival of a delivery on `link`. -/
def ScheduledEvent.deliveryOn (link : Link) (e : ScheduledEvent) : Option (Packet × Duration) :=
  if e.link = link then
    match e.kind with
    | .delivery packet => some (packet, e.arrival)
    | .timer => none
  else none

theorem ScheduledEvent.deliveryOn_eq_some {link : Link} {e : ScheduledEvent} {p : Packet × Duration} :
    e.deliveryOn link = some p ↔ e.link = link ∧ e.kind = .delivery p.1 ∧ e.arrival = p.2 := by
  obtain ⟨arrival, seq, l, kind⟩ := e
  obtain ⟨packet, a⟩ := p
  cases kind <;> simp [deliveryOn]

@[simp] theorem ScheduledEvent.deliveryOn_timer (link l : Link) (arrival : Duration) (seq : Nat) :
    (⟨arrival, seq, l, .timer⟩ : ScheduledEvent).deliveryOn link = none := by
  simp [deliveryOn]

/-- The undelivered deliveries on `link`, in pop order. -/
def Switchboard.inTransit (sb : Switchboard) (link : Link) : List (Packet × Duration) :=
  sb.events.filterMap (ScheduledEvent.deliveryOn link)

/-! ### One link -/

/-- What was sent on a link is what was handed over, then what is queued, then what is in transit;
whatever is not in transit any more has arrived. -/
def LinkLog (sent : List SentPacket) (handed : List (Packet × Duration)) (queue : List Packet)
    (transit : List (Packet × Duration)) (clock : Duration) : Prop :=
  ∃ got queued flying, sent = got ++ queued ++ flying ∧
    List.Forall₂ (fun r h => r.packet = h.1 ∧ r.arrival ≤ h.2) got handed ∧
    queued.map SentPacket.packet = queue ∧ (∀ r ∈ queued, r.arrival ≤ clock) ∧
    flying.map (fun r => (r.packet, r.arrival)) = transit

namespace LinkLog

variable {sent : List SentPacket} {handed transit : List (Packet × Duration)} {queue : List Packet}
  {clock : Duration}

theorem send (h : LinkLog sent handed queue transit clock) (r : SentPacket) :
    LinkLog (sent ++ [r]) handed queue (transit ++ [(r.packet, r.arrival)]) clock := by
  obtain ⟨got, queued, flying, rfl, hgot, hqueue, harrived, rfl⟩ := h
  exact ⟨got, queued, flying ++ [r], by simp, hgot, hqueue, harrived, by simp⟩

theorem deliver {packet : Packet} {arrival clock' : Duration}
    (h : LinkLog sent handed queue ((packet, arrival) :: transit) clock) (hclock : clock ≤ clock')
    (harrival : arrival ≤ clock') :
    LinkLog sent handed (queue ++ [packet]) transit clock' := by
  obtain ⟨got, queued, flying, rfl, hgot, rfl, harrived, hflying⟩ := h
  obtain ⟨r, flying, rfl, hr, rfl⟩ := List.map_eq_cons_iff.mp hflying
  simp only [Prod.mk.injEq] at hr
  obtain ⟨rfl, rfl⟩ := hr
  refine ⟨got, queued ++ [r], flying, by simp, hgot, by simp, fun x hx => ?_, rfl⟩
  rcases List.mem_append.mp hx with hx | hx
  · exact (harrived x hx).trans hclock
  · rw [List.mem_singleton.mp hx]
    exact harrival

theorem hand {packet : Packet} (h : LinkLog sent handed (packet :: queue) transit clock) :
    LinkLog sent (handed ++ [(packet, clock)]) queue transit clock := by
  obtain ⟨got, queued, flying, rfl, hgot, hqueue, harrived, rfl⟩ := h
  obtain ⟨r, queued, rfl, rfl, rfl⟩ := List.map_eq_cons_iff.mp hqueue
  refine ⟨got ++ [r], queued, flying, by simp, ?_, rfl, fun x hx => harrived x (by simp [hx]), rfl⟩
  exact List.rel_append hgot (.cons ⟨rfl, harrived r (by simp)⟩ .nil)

theorem mono {clock' : Duration} (h : LinkLog sent handed queue transit clock)
    (hclock : clock ≤ clock') : LinkLog sent handed queue transit clock' := by
  obtain ⟨got, queued, flying, hsent, hgot, hqueue, harrived, hflying⟩ := h
  exact ⟨got, queued, flying, hsent, hgot, hqueue, fun r hr => (harrived r hr).trans hclock, hflying⟩

theorem packets (h : LinkLog sent handed queue transit clock) :
    handed.map Prod.fst ++ queue ++ transit.map Prod.fst = sent.map SentPacket.packet := by
  obtain ⟨got, queued, flying, rfl, hgot, rfl, -, rfl⟩ := h
  have hpackets : got.map SentPacket.packet = handed.map Prod.fst := by
    induction hgot with
    | nil => rfl
    | cons hr _ ih => rw [List.map_cons, List.map_cons, hr.1, ih]
  simp [hpackets]

theorem mem_sent (h : LinkLog sent handed queue transit clock) {p : Packet × Duration}
    (hp : p ∈ transit) : ∃ r ∈ sent, (r.packet, r.arrival) = p := by
  obtain ⟨got, queued, flying, rfl, -, -, -, rfl⟩ := h
  obtain ⟨r, hr, rfl⟩ := List.mem_map.mp hp
  exact ⟨r, by simp [hr], rfl⟩

end LinkLog

/-! ### The invariant -/

structure FifoInv (sb : Switchboard) (hist : History) : Prop where
  ordered : Lib.TimeQueue.Ordered ScheduledEvent.key sb.events
  seq_lt : ∀ e ∈ sb.events, e.seq < sb.seq
  last : ∀ link, ∀ r ∈ hist.sent link, ∃ a, sb.lastArrivals link = some a ∧ r.arrival ≤ a
  log : ∀ link, LinkLog (hist.sent link) (hist.handed link) (sb.msgQueues link)
    (sb.inTransit link) (sb.clockOf link.recipient)

namespace FifoInv

variable {sb : Switchboard} {hist : History}

theorem init (delay : Delay) : FifoInv (.new delay) .empty where
  ordered := Lib.TimeQueue.ordered_nil _
  seq_lt := by simp [Switchboard.new]
  last := by simp [History.empty]
  log _ := ⟨[], [], [], rfl, .nil, rfl, by simp, rfl⟩

theorem recordEvent (h : FifoInv sb hist) (party : PartyId) (event : Event) :
    FifoInv (sb.recordEvent party event) hist :=
  ⟨h.ordered, h.seq_lt, h.last, h.log⟩

theorem withParked (h : FifoInv sb hist) (parked : Link → Option TaskId) :
    FifoInv { sb with parked := parked } hist :=
  ⟨h.ordered, h.seq_lt, h.last, h.log⟩

theorem release (h : FifoInv sb hist) (me : PartyId) (parties : List PartyId) (op : NetOp) :
    FifoInv (sb.release me parties op) hist := by
  unfold Switchboard.release
  split_ifs
  · exact h.withParked _
  · exact h

theorem pushPopped (h : FifoInv sb hist) (arrival : Duration) :
    FifoInv sb (hist.pushPopped arrival) :=
  ⟨h.ordered, h.seq_lt, h.last, h.log⟩

theorem key_ne (h : FifoInv sb hist) (arrival : Duration) (link : Link) (kind : EventKind) :
    ∀ a ∈ sb.events, a.key ≠ ScheduledEvent.key ⟨arrival, sb.seq, link, kind⟩ := by
  intro a ha heq
  have := congrArg (fun k => (ofLex k).2) heq
  exact absurd this (ne_of_lt (h.seq_lt a ha))

theorem seq_lt_push (h : FifoInv sb hist) (arrival : Duration) (link : Link) (kind : EventKind) :
    ∀ e ∈ Lib.TimeQueue.push ScheduledEvent.key ⟨arrival, sb.seq, link, kind⟩ sb.events,
      e.seq < sb.seq + 1 := by
  intro e he
  rcases (Lib.TimeQueue.mem_push _).mp he with rfl | he
  · exact Nat.lt_succ_self _
  · exact (h.seq_lt e he).trans (Nat.lt_succ_self _)

theorem scheduleTimer (h : FifoInv sb hist) (link : Link) (deadline : Duration) :
    FifoInv (sb.scheduleTimer link deadline) hist where
  ordered := Lib.TimeQueue.ordered_push _ h.ordered (h.key_ne _ _ _)
  seq_lt := h.seq_lt_push _ _ _
  last := h.last
  log l := by
    have htransit : (sb.scheduleTimer link deadline).inTransit l = sb.inTransit l :=
      Lib.TimeQueue.filterMap_push_none _ _ _ (by simp)
    rw [htransit]
    exact h.log l

theorem armTimer (h : FifoInv sb hist) (timerLink : Option Link) (deadline : Duration) :
    FifoInv (sb.armTimer timerLink deadline) hist := by
  cases timerLink with
  | some link => exact h.scheduleTimer link deadline
  | none => exact h

theorem inTransit_dispatch (h : FifoInv sb hist) {link : Link} (packet : Packet) {arrival : Duration}
    (hlast : ∀ last, sb.lastArrivals link = some last → last ≤ arrival) :
    (sb.dispatch link packet arrival).inTransit link = sb.inTransit link ++ [(packet, arrival)] := by
  refine Lib.TimeQueue.filterMap_push_last _ _ h.ordered (by simp [ScheduledEvent.deliveryOn]) ?_
  intro a ha hseen
  obtain ⟨p, hp⟩ := Option.ne_none_iff_exists'.mp hseen
  obtain ⟨r, hr, hrp⟩ := (h.log link).mem_sent (List.mem_filterMap.mpr ⟨a, ha, hp⟩)
  obtain ⟨last, hlast', hle⟩ := h.last link r hr
  have harrival : a.arrival ≤ arrival := by
    rw [(ScheduledEvent.deliveryOn_eq_some.mp hp).2.2, ← congrArg Prod.snd hrp]
    exact hle.trans (hlast last hlast')
  rw [ScheduledEvent.key_lt]
  rcases lt_or_eq_of_le harrival with hlt | heq
  · exact .inl hlt
  · exact .inr ⟨heq, h.seq_lt a ha⟩

theorem dispatch (h : FifoInv sb hist) {link : Link} {packet : Packet} {arrival : Duration}
    (timestamp : Duration) (hlast : ∀ last, sb.lastArrivals link = some last → last ≤ arrival) :
    FifoInv (sb.dispatch link packet arrival) (hist.pushSent link ⟨packet, timestamp, arrival⟩) where
  ordered := Lib.TimeQueue.ordered_push _ h.ordered (h.key_ne _ _ _)
  seq_lt := h.seq_lt_push _ _ _
  last l r hr := by
    change r ∈ Function.update hist.sent link _ l at hr
    change ∃ a, Function.update sb.lastArrivals link (some arrival) l = some a ∧ r.arrival ≤ a
    by_cases hl : l = link
    · subst hl
      rw [Function.update_self] at hr ⊢
      refine ⟨arrival, rfl, ?_⟩
      rcases List.mem_append.mp hr with hr | hr
      · obtain ⟨last, hlast', hle⟩ := h.last l r hr
        exact hle.trans (hlast last hlast')
      · rw [List.mem_singleton.mp hr]
    · rw [Function.update_of_ne hl] at hr ⊢
      exact h.last l r hr
  log l := by
    change LinkLog (Function.update hist.sent link _ l) (hist.handed l) (sb.msgQueues l)
      ((sb.dispatch link packet arrival).inTransit l) (sb.clockOf l.recipient)
    by_cases hl : l = link
    · subst hl
      rw [Function.update_self, h.inTransit_dispatch packet hlast]
      exact (h.log l).send ⟨packet, timestamp, arrival⟩
    · have htransit : (sb.dispatch link packet arrival).inTransit l = sb.inTransit l :=
        Lib.TimeQueue.filterMap_push_none _ _ _ (by simp [ScheduledEvent.deliveryOn, Ne.symm hl])
      rw [Function.update_of_ne hl, htransit]
      exact h.log l

theorem handOver (h : FifoInv sb hist) {link : Link} {packet : Packet} {queue : List Packet}
    (hqueue : sb.msgQueues link = packet :: queue) :
    FifoInv (sb.handOver link packet queue)
      (hist.pushHanded link packet (sb.clockOf link.recipient)) where
  ordered := h.ordered
  seq_lt := h.seq_lt
  last := h.last
  log l := by
    change LinkLog (hist.sent l) (Function.update hist.handed link _ l)
      (Function.update sb.msgQueues link queue l) (sb.inTransit l) (sb.clockOf l.recipient)
    by_cases hl : l = link
    · subst hl
      rw [Function.update_self, Function.update_self]
      exact (hqueue ▸ h.log l).hand
    · rw [Function.update_of_ne hl, Function.update_of_ne hl]
      exact h.log l

theorem fire (h : FifoInv sb hist) {event : ScheduledEvent} {rest : List ScheduledEvent}
    (hevents : sb.events = event :: rest) : FifoInv (sb.fire event rest) hist := by
  have hordered := hevents ▸ h.ordered
  have hseq : ∀ e ∈ rest, e.seq < sb.seq := fun e he => h.seq_lt e (by simp [hevents, he])
  have hclock : ∀ p, sb.clockOf p ≤
      Function.update sb.clocks event.link.recipient
        (max (sb.clocks event.link.recipient) event.arrival) p := by
    intro p
    by_cases hp : p = event.link.recipient
    · subst hp
      rw [Function.update_self]
      exact le_max_left _ _
    · rw [Function.update_of_ne hp]
      rfl
  have htransit : ∀ l, sb.inTransit l = (event.deliveryOn l).toList ++
      rest.filterMap (ScheduledEvent.deliveryOn l) := by
    intro l
    rw [Switchboard.inTransit, hevents, List.filterMap_cons]
    cases event.deliveryOn l <;> rfl
  obtain ⟨arrival, seq, link, kind⟩ := event
  cases kind with
  | timer =>
    refine ⟨hordered.tail, hseq, h.last, fun l => ?_⟩
    have hlog := h.log l
    rw [htransit l, ScheduledEvent.deliveryOn_timer] at hlog
    exact hlog.mono (hclock _)
  | delivery packet =>
    refine ⟨hordered.tail, hseq, h.last, fun l => ?_⟩
    have hlog := h.log l
    rw [htransit l] at hlog
    change LinkLog _ _ (Function.update sb.msgQueues link (sb.msgQueues link ++ [packet]) l)
      (rest.filterMap (ScheduledEvent.deliveryOn l)) _
    by_cases hl : l = link
    · subst hl
      rw [Function.update_self]
      simp only [ScheduledEvent.deliveryOn, if_true, Option.toList_some, List.singleton_append] at hlog
      refine hlog.deliver (hclock _) ?_
      change arrival ≤ Function.update sb.clocks l.recipient _ l.recipient
      rw [Function.update_self]
      exact le_max_right _ _
    · rw [Function.update_of_ne hl]
      simp only [ScheduledEvent.deliveryOn, Ne.symm hl, if_false, Option.toList_none,
        List.nil_append] at hlog
      exact hlog.mono (hclock _)

end FifoInv

theorem Move.fifo {s s' : SimState ρ} (h : Move sim s s') (hinv : FifoInv s.sb s.hist) :
    FifoInv s'.sb s'.hist := by
  cases h with
  | sent _ _ _ _ hlast => exact hinv.dispatch _ hlast
  | recorded => exact hinv.recordEvent _ _
  | armed => exact hinv.armTimer _ _
  | @took _ task op _ link _ queue _ _ _ _ _ hmem hqueue =>
    have hq : (s.sb.release task.party sim.parties op).msgQueues = s.sb.msgQueues := by
      unfold Switchboard.release
      split_ifs <;> rfl
    have hclock : ∀ p, (s.sb.release task.party sim.parties op).clockOf p = s.sb.clockOf p := by
      intro p
      unfold Switchboard.release
      split_ifs <;> rfl
    have hhand := (hinv.release task.party sim.parties op).handOver ((congrFun hq link).trans hqueue)
    rwa [NetOp.recipient_of_mem_awaits hmem, hclock] at hhand
  | timedOut => exact hinv.release _ _ _
  | parked => exact hinv.withParked _
  | finished | dropped | picked | skipped => exact hinv
  | delivered _ _ hevents => exact ((hinv.fire hevents).withParked _).pushPopped _

theorem Reachable.fifo {s : SimState ρ} (h : Reachable sim s) : FifoInv s.sb s.hist :=
  h.induct (I := fun s => FifoInv s.sb s.hist) (FifoInv.init _) fun _ _ => Move.fifo

/-- **Exactly-once FIFO delivery.** On every link, what was handed to the recipient, then the queue,
then the undelivered deliveries in the order in which they will be popped, is what was sent. -/
theorem delivery_exactly_once_fifo {s : SimState ρ} (h : Reachable sim s) (link : Link) :
    (s.hist.handed link).map Prod.fst ++ s.sb.msgQueues link ++
        (s.sb.inTransit link).map Prod.fst =
      (s.hist.sent link).map SentPacket.packet ∧
    Lib.TimeQueue.Ordered ScheduledEvent.key s.sb.events :=
  ⟨(h.fifo.log link).packets, h.fifo.ordered⟩

theorem delivery_exactly_once_fifo_photoFinish :
    ∃ s, Reachable photoFinish s ∧ s.sb.inTransit ⟨1, 0⟩ = [(.empty, 10)] ∧
      (s.hist.handed ⟨1, 0⟩).map Prod.fst ++ s.sb.msgQueues ⟨1, 0⟩ ++
          (s.sb.inTransit ⟨1, 0⟩).map Prod.fst =
        (s.hist.sent ⟨1, 0⟩).map SentPacket.packet := by
  have hs := Reachable.init.steps (Option.some_get (x := (SimState.init photoFinish).steps
    photoFinish 4) rfl).symm
  exact ⟨_, hs, by decide, (delivery_exactly_once_fifo hs ⟨1, 0⟩).1⟩

end SclRs
