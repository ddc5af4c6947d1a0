import SclRs.Net.Simulation.Switchboard

/-!
# The receive futures and the simulated network

One `poll` of each future of `switchboard/recv.rs`, and `SimNetwork`'s operations as polls: a
suspended receive is polled again with the deadline its future holds. `Receive` says what the poll of
any of the four receives does; `perform_receive` is the only place that looks at the four
bodies.
-/

namespace SclRs

/-- The result of a poll: `pending` keeps the deadline of the future. -/
inductive Poll (α : Type)
  | ready (out : α) (sb : Switchboard)
  | pending (deadline : Option Duration) (sb : Switchboard)
  | panic

namespace Switchboard

variable (sb : Switchboard)

/-- `Recv::poll`. -/
def pollRecv (link : Link) (waker : TaskId) : Poll Packet :=
  match sb.tryRecv link with
  | some (packet, sb) => .ready packet sb
  | none => .pending none (sb.park link waker)

/-- `RecvAny::poll`. -/
def pollRecvAny (me : PartyId) (senders : List PartyId) (waker : TaskId) :
    Poll (PartyId × Packet) :=
  match sb.tryRecvAny me senders with
  | some (result, sb) => .ready result sb
  | none => .pending none (sb.parkAny me senders waker)

/-- `schedule_timer` on the link, if there is one. -/
def armTimer (timerLink : Option Link) (deadline : Duration) : Switchboard :=
  match timerLink with
  | some link => sb.scheduleTimer link deadline
  | none => sb

/-- The deadline of a timed receive at party `me`: the first poll fixes it and schedules the timer,
on the link `timerLink`. -/
def arm (me : PartyId) (timerLink : Option Link) (timeout : Duration) (deadline : Option Duration) :
    Option (Duration × Switchboard) :=
  match deadline with
  | some deadline => some (deadline, sb)
  | none =>
    match Duration.checkedAdd (sb.clockOf me) timeout with
    | none => none
    | some deadline => some (deadline, sb.armTimer timerLink deadline)

/-- `RecvTimeout::poll`. -/
def pollRecvTimeout (link : Link) (timeout : Duration) (deadline : Option Duration)
    (waker : TaskId) : Poll (Except NetworkError Packet) :=
  match sb.arm link.recipient (some link) timeout deadline with
  | none => .panic
  | some (deadline, sb) =>
    match sb.tryRecvWithDeadline link deadline with
    | .some _ packet sb => .ready (.ok packet) sb
    | .timeout sb => .ready (.error (.timeout (some link.sender))) sb
    | .none sb => .pending (some deadline) (sb.park link waker)

/-- `RecvAnyTimeout::poll`. -/
def pollRecvAnyTimeout (me : PartyId) (senders : List PartyId) (timeout : Duration)
    (deadline : Option Duration) (waker : TaskId) : Poll (Except NetworkError (PartyId × Packet)) :=
  match sb.arm me ((inbound me senders).head?) timeout deadline with
  | none => .panic
  | some (deadline, sb) =>
    match sb.tryRecvAnyWithDeadline me senders deadline with
    | .some sender packet sb => .ready (.ok (sender, packet)) sb
    | .timeout sb => .ready (.error (.timeout none)) sb
    | .none sb => .pending (some deadline) (sb.parkAny me senders waker)

/-- An operation of the `SimNetwork` of party `me` among `parties`, run by task `waker`. -/
def perform (me : PartyId) (parties : List PartyId) (waker : TaskId) (deadline : Option Duration) :
    (op : NetOp) → Poll op.Out
  | .sendTo partyId packet =>
    match sb.send me partyId packet with
    | some sb => .ready (.ok packet.size) sb
    | none => .panic
  | .recvFrom partyId =>
    match sb.pollRecv ⟨partyId, me⟩ waker with
    | .ready packet sb => .ready (.ok packet) sb
    | .pending deadline sb => .pending deadline sb
    | .panic => .panic
  | .recvAny =>
    match sb.pollRecvAny me parties waker with
    | .ready result sb => .ready (.ok result) sb
    | .pending deadline sb => .pending deadline sb
    | .panic => .panic
  | .recvFromWithTimeout partyId timeout => sb.pollRecvTimeout ⟨partyId, me⟩ timeout deadline waker
  | .recvAnyWithTimeout timeout => sb.pollRecvAnyTimeout me parties timeout deadline waker
  | .record marker => .ready () (sb.recordEvent me (marker.event (sb.clockOf me)))

end Switchboard

namespace NetOp

def isRecv : NetOp → Bool
  | recvFrom _ | recvAny | recvFromWithTimeout .. | recvAnyWithTimeout _ => true
  | sendTo .. | record _ => false

/-- What a receive resolves to with a packet. -/
def packetOut : (op : NetOp) → PartyId → Packet → Option op.Out
  | recvFrom _, _, packet => some (.ok packet)
  | recvFromWithTimeout .., _, packet => some (.ok packet)
  | recvAny, sender, packet => some (.ok (sender, packet))
  | recvAnyWithTimeout _, sender, packet => some (.ok (sender, packet))
  | sendTo .., _, _ => none
  | record _, _, _ => none

/-- What a timed receive resolves to when it times out. -/
def timeoutOut : (op : NetOp) → Option op.Out
  | recvFromWithTimeout partyId _ => some (.error (.timeout (some partyId)))
  | recvAnyWithTimeout _ => some (.error (.timeout none))
  | _ => none

end NetOp

namespace Switchboard

/-- The wakers a resolving receive drops: those of every inbound link, for a receive from any party. -/
def release (sb : Switchboard) (me : PartyId) (parties : List PartyId) (op : NetOp) : Switchboard :=
  if op.isAny then sb.unparkAny me parties else sb

def parkOn (sb : Switchboard) (links : List Link) (waker : TaskId) : Switchboard :=
  { sb with parked := setAll sb.parked links (some waker) }

section
variable (sb : Switchboard) (me : PartyId) (parties : List PartyId) (waker : TaskId) (op : NetOp)

/-- The start of a receive's poll: the deadline it goes on with and the switchboard. -/
inductive Armed (deadline : Option Duration) : Option Duration → Switchboard → Prop
  | untimed : op.timeout? = none → Armed deadline none sb
  | again {d : Duration} : op.timeout? ≠ none → deadline = some d → Armed deadline (some d) sb
  | first {t d : Duration} : op.timeout? = some t → deadline = none →
      Duration.checkedAdd (sb.clockOf me) t = some d →
      Armed deadline (some d) (sb.armTimer (op.awaits me parties).head? d)

/-- The rest of a receive's poll. -/
inductive Resolved (deadline : Option Duration) : Poll op.Out → Prop
  | took {link : Link} {packet : Packet} {queue : List Packet} {out : op.Out} :
      link ∈ op.awaits me parties → sb.msgQueues link = packet :: queue →
      (∀ l ∈ op.awaits me parties, sb.msgQueues l ≠ [] → link.sender ≤ l.sender) →
      op.packetOut link.sender packet = some out →
      Resolved deadline (.ready out ((sb.release me parties op).handOver link packet queue))
  | timedOut {d : Duration} {out : op.Out} :
      deadline = some d → op.timeoutOut = some out →
      (∀ l ∈ op.awaits me parties, sb.msgQueues l = []) → d ≤ sb.clockOf me →
      Resolved deadline (.ready out (sb.release me parties op))
  | parked :
      (∀ l ∈ op.awaits me parties, sb.msgQueues l = []) →
      (∀ d, deadline = some d → sb.clockOf me < d) →
      Resolved deadline (.pending deadline (sb.parkOn (op.awaits me parties) waker))

variable {sb me parties waker op}

theorem readySender_eq_none (senders : List PartyId) :
    sb.readySender me senders = none ↔ ∀ l ∈ inbound me senders, sb.msgQueues l = [] := by
  simp only [readySender, List.min?_eq_none_iff, List.filter_eq_nil_iff, inbound, List.mem_map]
  constructor
  · rintro h l ⟨p, hp, rfl⟩
    simpa using h p hp
  · intro h p hp
    simp [h _ ⟨p, hp, rfl⟩]

theorem readySender_eq_some {senders : List PartyId} {sender : PartyId}
    (h : sb.readySender me senders = some sender) :
    ⟨sender, me⟩ ∈ inbound me senders ∧ sb.msgQueues ⟨sender, me⟩ ≠ [] ∧
      ∀ l ∈ inbound me senders, sb.msgQueues l ≠ [] → sender ≤ l.sender := by
  obtain ⟨hmem, hmin⟩ := (List.min?_eq_some_iff.mp h)
  simp only [List.mem_filter] at hmem hmin
  refine ⟨List.mem_map.mpr ⟨sender, hmem.1, rfl⟩, by simpa using hmem.2, fun l hl hq => ?_⟩
  obtain ⟨p, hp, rfl⟩ := List.mem_map.mp hl
  exact hmin p ⟨hp, by simpa using hq⟩

theorem arm_eq (op : NetOp) {t : Duration} (ht : op.timeout? = some t) (deadline : Option Duration) :
    sb.arm me (op.awaits me parties).head? t deadline = none ∨
      ∃ d sb', Armed sb me parties op deadline (some d) sb' ∧
        sb.arm me (op.awaits me parties).head? t deadline = some (d, sb') := by
  cases deadline with
  | some d => exact .inr ⟨d, sb, .again (by simp [ht]) rfl, rfl⟩
  | none =>
    cases h : Duration.checkedAdd (sb.clockOf me) t with
    | none => exact .inl (by simp only [arm, h])
    | some d => exact .inr ⟨d, _, .first ht rfl h, by simp only [arm, h]⟩

theorem pollRecv_resolved (p : PartyId) (deadline : Option Duration) :
    Resolved sb me parties waker (.recvFrom p) none
      (sb.perform me parties waker deadline (.recvFrom p)) := by
  cases h : sb.msgQueues ⟨p, me⟩ with
  | nil =>
    simp only [perform, pollRecv, tryRecv, h]
    exact .parked (by simpa [NetOp.awaits] using h) (by simp)
  | cons packet queue =>
    simp only [perform, pollRecv, tryRecv, h]
    exact .took (by simp [NetOp.awaits]) h (by simp [NetOp.awaits]) rfl

theorem tryRecv_unparkAny (senders : List PartyId) (link : Link) :
    (sb.unparkAny me senders).tryRecv link =
      match sb.msgQueues link with
      | [] => none
      | packet :: queue => some (packet, (sb.unparkAny me senders).handOver link packet queue) := rfl

theorem pollRecvAny_resolved (deadline : Option Duration) :
    Resolved sb me parties waker .recvAny none
      (sb.perform me parties waker deadline .recvAny) := by
  cases h : sb.readySender me parties with
  | none =>
    simp only [perform, pollRecvAny, tryRecvAny, h]
    exact .parked ((readySender_eq_none parties).mp h) (by simp)
  | some sender =>
    obtain ⟨hmem, hq, hmin⟩ := readySender_eq_some h
    obtain ⟨packet, queue, hqueue⟩ := List.exists_cons_of_ne_nil hq
    simp only [perform, pollRecvAny, tryRecvAny, h, tryRecv_unparkAny, hqueue]
    exact .took hmem hqueue hmin rfl

theorem pollRecvTimeout_resolved (p : PartyId) (t : Duration) (deadline : Option Duration) :
    sb.perform me parties waker deadline (.recvFromWithTimeout p t) = .panic ∨
      ∃ d sb', Armed sb me parties (.recvFromWithTimeout p t) deadline d sb' ∧
        Resolved sb' me parties waker (.recvFromWithTimeout p t) d
          (sb.perform me parties waker deadline (.recvFromWithTimeout p t)) := by
  rcases @arm_eq sb me parties (.recvFromWithTimeout p t) t rfl deadline with h | ⟨d, sb', harmed, h⟩ <;>
    simp only [NetOp.awaits, List.head?_cons] at h
  · exact .inl (by simp only [perform, pollRecvTimeout, h]; rfl)
  refine .inr ⟨some d, sb', harmed, ?_⟩
  cases hq : sb'.msgQueues ⟨p, me⟩ with
  | cons packet queue =>
    simp only [perform, pollRecvTimeout, h, tryRecvWithDeadline, hq]
    exact .took (by simp [NetOp.awaits]) hq (by simp [NetOp.awaits]) rfl
  | nil =>
    by_cases hd : d ≤ sb'.clockOf me
    · simp only [perform, pollRecvTimeout, h, tryRecvWithDeadline, hq, hd, if_true]
      exact .timedOut rfl rfl (by simpa [NetOp.awaits] using hq) hd
    · simp only [perform, pollRecvTimeout, h, tryRecvWithDeadline, hq, hd, if_false]
      exact .parked (by simpa [NetOp.awaits] using hq) (by simpa using hd)

theorem pollRecvAnyTimeout_resolved (t : Duration) (deadline : Option Duration) :
    sb.perform me parties waker deadline (.recvAnyWithTimeout t) = .panic ∨
      ∃ d sb', Armed sb me parties (.recvAnyWithTimeout t) deadline d sb' ∧
        Resolved sb' me parties waker (.recvAnyWithTimeout t) d
          (sb.perform me parties waker deadline (.recvAnyWithTimeout t)) := by
  rcases arm_eq (.recvAnyWithTimeout t) rfl deadline
    with h | ⟨d, sb', harmed, h⟩ <;> change sb.arm me (inbound me parties).head? t deadline = _ at h
  · exact .inl (by simp only [perform, pollRecvAnyTimeout, h]; rfl)
  refine .inr ⟨some d, sb', harmed, ?_⟩
  cases hr : sb'.readySender me parties with
  | some sender =>
    obtain ⟨hmem, hq, hmin⟩ := readySender_eq_some hr
    obtain ⟨packet, queue, hqueue⟩ := List.exists_cons_of_ne_nil hq
    have hqueue' : (sb'.unparkAny me parties).msgQueues ⟨sender, me⟩ = packet :: queue := hqueue
    simp only [perform, pollRecvAnyTimeout, h, tryRecvAnyWithDeadline, hr, tryRecvWithDeadline,
      hqueue']
    exact .took hmem hqueue hmin rfl
  | none =>
    have hempty := (readySender_eq_none parties).mp hr
    by_cases hd : sb'.clockOf me < d
    · simp only [perform, pollRecvAnyTimeout, h, tryRecvAnyWithDeadline, hr, hd]
      exact .parked hempty (by simpa using hd)
    · simp only [perform, pollRecvAnyTimeout, h, tryRecvAnyWithDeadline, hr, hd]
      exact .timedOut rfl rfl hempty (not_lt.mp hd)

/-- **A receive's poll.** It panics on its deadline, or fixes the deadline and resolves or parks. -/
theorem perform_receive (hop : op.isRecv) (deadline : Option Duration) :
    sb.perform me parties waker deadline op = .panic ∨
      ∃ d sb', Armed sb me parties op deadline d sb' ∧
        Resolved sb' me parties waker op d (sb.perform me parties waker deadline op) := by
  cases op with
  | sendTo => simp [NetOp.isRecv] at hop
  | record => simp [NetOp.isRecv] at hop
  | recvFrom p => exact .inr ⟨none, sb, .untimed rfl, pollRecv_resolved p deadline⟩
  | recvAny => exact .inr ⟨none, sb, .untimed rfl, pollRecvAny_resolved deadline⟩
  | recvFromWithTimeout p t => exact pollRecvTimeout_resolved p t deadline
  | recvAnyWithTimeout t => exact pollRecvAnyTimeout_resolved t deadline

end

end Switchboard

end SclRs
