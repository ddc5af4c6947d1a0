import SclRs.Net.Simulation.Moves
import SclRs.Net.TcpNetwork

/-!
# Timeouts that do not fit

The first poll of a timed receive adds the timeout to the clock of its party, and the sum may exceed
`Duration.max`. `TotalPoll` says that the poll does not panic and that a deadline which is not representable
is none at all. It does so if and only if the sum fits (`totalPoll_iff`): the same call is fine at clock
zero and panics later. A receive that is polled again has a deadline, which is kept in bounds by every
step. On sockets a timed receive whose time never elapses is the untimed one.
-/

namespace SclRs

variable {ρ : Type} {sim : Simulation ρ}

namespace Switchboard

/-- The poll is that of the receive without its timeout. -/
def WithoutTimeout (sb : Switchboard) (me : PartyId) (parties : List PartyId) (waker : TaskId) :
    (op : NetOp) → Poll op.Out → Prop
  | .recvFromWithTimeout partyId _, poll => poll = sb.perform me parties waker none (.recvFrom partyId)
  | .recvAnyWithTimeout _, poll => poll = sb.perform me parties waker none .recvAny
  | _, _ => True

/-- The poll of the timed receive `op`, of which the future holds `deadline`, is total in the timeout. -/
structure TotalPoll (sb : Switchboard) (me : PartyId) (parties : List PartyId) (waker : TaskId)
    (deadline : Option Duration) (op : NetOp) : Prop where
  ne_panic : sb.perform me parties waker deadline op ≠ .panic
  untimed : deadline = none → ∀ t, op.timeout? = some t → Duration.max < sb.clockOf me + t →
    sb.WithoutTimeout me parties waker op (sb.perform me parties waker deadline op)

variable {sb : Switchboard} {me : PartyId} {parties : List PartyId} {waker : TaskId} {op : NetOp}
  {t : Duration} {deadline : Option Duration}

theorem arm_eq_none {link : Option Link} :
    sb.arm me link t deadline = none ↔ deadline = none ∧ Duration.max < sb.clockOf me + t := by
  cases deadline with
  | some d => simp [arm]
  | none =>
    by_cases h : sb.clockOf me + t ≤ Duration.max
    · simp [arm, Duration.checkedAdd, h]
    · simp [arm, Duration.checkedAdd, h, not_le.mp h]

theorem pollRecvTimeout_eq_panic {link : Link} :
    sb.pollRecvTimeout link t deadline waker = .panic ↔
      sb.arm link.recipient (some link) t deadline = none := by
  unfold pollRecvTimeout
  cases harm : sb.arm link.recipient (some link) t deadline with
  | none => simp
  | some q =>
    obtain ⟨d, sb'⟩ := q
    cases hrecv : sb'.tryRecvWithDeadline link d <;> simp [hrecv]

theorem pollRecvAnyTimeout_eq_panic :
    sb.pollRecvAnyTimeout me parties t deadline waker = .panic ↔
      sb.arm me (inbound me parties).head? t deadline = none := by
  unfold pollRecvAnyTimeout
  cases harm : sb.arm me (inbound me parties).head? t deadline with
  | none => simp
  | some q =>
    obtain ⟨d, sb'⟩ := q
    cases hrecv : sb'.tryRecvAnyWithDeadline me parties d <;> simp [hrecv]

/-- **The poll of a timed receive panics** at the first one, where the sum does not fit. -/
theorem perform_eq_panic (ht : op.timeout? = some t) :
    sb.perform me parties waker deadline op = .panic ↔
      deadline = none ∧ Duration.max < sb.clockOf me + t := by
  cases op with
  | recvFromWithTimeout partyId =>
    obtain rfl := Option.some.inj ht
    exact pollRecvTimeout_eq_panic.trans arm_eq_none
  | recvAnyWithTimeout =>
    obtain rfl := Option.some.inj ht
    exact pollRecvAnyTimeout_eq_panic.trans arm_eq_none
  | sendTo | record | recvFrom | recvAny => cases ht

theorem totalPoll_iff (ht : op.timeout? = some t) :
    sb.TotalPoll me parties waker deadline op ↔
      (deadline = none → sb.clockOf me + t ≤ Duration.max) := by
  constructor
  · intro h hnone
    by_contra hlt
    exact h.ne_panic ((perform_eq_panic ht).mpr ⟨hnone, not_le.mp hlt⟩)
  · intro h
    constructor
    · intro hpanic
      obtain ⟨hnone, hlt⟩ := (perform_eq_panic ht).mp hpanic
      exact absurd (h hnone) (not_le.mpr hlt)
    · intro hnone t' ht' hlt
      obtain rfl := Option.some.inj (ht.symm.trans ht')
      exact absurd (h hnone) (not_le.mpr hlt)

end Switchboard

/-! ### Deadlines of suspended receives -/

/-- Every deadline that a future holds is representable. -/
def SimState.DeadlinesFit (s : SimState ρ) : Prop :=
  ∀ id, ∀ task ∈ s.tasks id, ∀ d ∈ task.deadline, d ≤ Duration.max

theorem SimState.DeadlinesFit.update {s s' : SimState ρ} (h : s.DeadlinesFit) {id : TaskId}
    {new : Option (Task ρ)} (htasks : s'.tasks = Function.update s.tasks id new)
    (hnew : ∀ task ∈ new, ∀ d ∈ task.deadline, d ≤ Duration.max) : s'.DeadlinesFit := by
  intro id' task htask
  rw [htasks] at htask
  by_cases hid : id' = id
  · subst hid
    rw [Function.update_self] at htask
    exact hnew task htask
  · rw [Function.update_of_ne hid] at htask
    exact h id' task htask

theorem Move.deadlinesFit {s s' : SimState ρ} (hmove : Move sim s s') (h : s.DeadlinesFit) :
    s'.DeadlinesFit := by
  cases hmove with
  | sent | recorded | took | timedOut => exact h.update rfl (by simp)
  | finished => exact h.update rfl nofun
  | @armed id task op next t d hcur htask hprog ht hnone hadd =>
    apply h.update rfl
    intro new hnew d' hd'
    obtain rfl := Option.some.inj hnew
    obtain rfl := Option.some.inj hd'
    obtain ⟨rfl, hle⟩ := Duration.checkedAdd_eq_some.mp hadd
    exact hle
  | @parked id task op next deadline hcur htask hprog hrecv huntimed htimed =>
    apply h.update rfl
    intro new hnew d hd
    obtain rfl := Option.some.inj hnew
    by_cases ht : op.timeout? = none
    · rw [huntimed ht] at hd
      cases hd
    · rw [(htimed ht).1] at hd
      exact h id task htask d hd
  | dropped | picked | skipped | delivered => exact h

theorem Reachable.deadlinesFit {s : SimState ρ} (h : Reachable sim s) : s.DeadlinesFit := by
  apply h.induct
  · intro id task htask d hd
    obtain ⟨party, -, rfl⟩ := Option.map_eq_some_iff.mp htask
    cases hd
  · exact fun _ _ => Move.deadlinesFit

/-! ### The poll under way -/

/-- The poll under way, if it is that of a timed receive, is total. -/
def SimState.PollsTotal (sim : Simulation ρ) (s : SimState ρ) : Prop :=
  ∀ id task op next t, s.current = some id → s.tasks id = some task → task.prog = .call op next →
    op.timeout? = some t → s.sb.TotalPoll task.party sim.parties id task.deadline op

/-- The sum that the poll under way is to take for a deadline fits, if it is the first one of a timed
receive. -/
def SimState.SumFits (s : SimState ρ) : Prop :=
  ∀ id task op next t, s.current = some id → s.tasks id = some task → task.prog = .call op next →
    op.timeout? = some t → task.deadline = none → s.sb.clockOf task.party + t ≤ Duration.max

theorem SimState.pollsTotal_iff {s : SimState ρ} : s.PollsTotal sim ↔ s.SumFits := by
  constructor
  · intro h id task op next t hcur htask hprog ht
    exact (Switchboard.totalPoll_iff ht).mp (h id task op next t hcur htask hprog ht)
  · intro h id task op next t hcur htask hprog ht
    exact (Switchboard.totalPoll_iff ht).mpr (h id task op next t hcur htask hprog ht)

theorem SimState.step_of_panic {s : SimState ρ} {id : TaskId} {task : Task ρ} {op : NetOp}
    {next : op.Out → Prog ρ} (hcur : s.current = some id) (htask : s.tasks id = some task)
    (hprog : task.prog = .call op next)
    (h : s.sb.perform task.party sim.parties id task.deadline op = .panic) : s.step sim = .panic := by
  unfold step
  rw [hcur]
  simp only [htask]
  rw [pollTask, hprog]
  simp only [h, resume]

/-! ### Sockets -/

namespace TcpNetwork

variable (net : TcpBackend)

theorem recvFromWithTimeout_never (party : PartyId) :
    net.recvFromWithTimeout false party = net.recvFrom party := by
  unfold recvFromWithTimeout
  split
  · rename_i hrecv
    exact hrecv.symm
  · rfl

theorem recvAnyWithTimeout_never (order : List PartyId) :
    net.recvAnyWithTimeout false order = net.recvAny order := by
  unfold recvAnyWithTimeout
  split
  · rename_i hrecv
    exact hrecv.symm
  · rfl

end TcpNetwork

/-! ### All timeouts -/

/-- A timed receive that a party may call in the state is total, whatever its timeout. -/
def SimState.TotalForAll (sim : Simulation ρ) (s : SimState ρ) : Prop :=
  ∀ me waker op t, op.timeout? = some t → t ≤ Duration.max →
    s.sb.TotalPoll me sim.parties waker none op

theorem SimState.totalForAll_iff {s : SimState ρ} :
    s.TotalForAll sim ↔ ∀ me, s.sb.clockOf me = 0 := by
  constructor
  · intro h me
    have hfits : s.sb.clockOf me + Duration.max ≤ Duration.max := (Switchboard.totalPoll_iff rfl).mp
      (h me 0 (.recvAnyWithTimeout Duration.max) Duration.max rfl le_rfl) rfl
    simpa using hfits
  · intro h me waker op t ht hle
    apply (Switchboard.totalPoll_iff ht).mpr
    intro _
    rw [h me, zero_add]
    exact hle

/-- **Timed receives are total where the sum fits**, and only there: at the first poll, in every reachable
state, the clock of the party and the timeout; a receive that is suspended has a deadline that fits. -/
theorem timed_receives_total_iff (sim : Simulation ρ) :
    (∀ s, Reachable sim s → ∀ me waker op t, op.timeout? = some t →
      (s.sb.TotalPoll me sim.parties waker none op ↔ s.sb.clockOf me + t ≤ Duration.max)) ∧
    (∀ s, Reachable sim s → ∀ id task op next d, s.tasks id = some task → task.prog = .call op next →
      op.timeout? ≠ none → task.deadline = some d →
      d ≤ Duration.max ∧ s.sb.TotalPoll task.party sim.parties id (some d) op) ∧
    (∀ s, Reachable sim s → (s.TotalForAll sim ↔ ∀ me, s.sb.clockOf me = 0)) ∧
    ((∀ s, Reachable sim s → s.PollsTotal sim) ↔ ∀ s, Reachable sim s → s.SumFits) ∧
    ∀ net : TcpBackend, (∀ party, net.recvFromWithTimeout false party = net.recvFrom party) ∧
      ∀ order, net.recvAnyWithTimeout false order = net.recvAny order := by
  refine ⟨?_, ?_, ?_, ?_, ?_⟩
  · intro s _ me waker op t ht
    rw [Switchboard.totalPoll_iff ht]
    simp
  · intro s hs id task op next d htask hprog hop hd
    obtain ⟨t, ht⟩ := Option.ne_none_iff_exists'.mp hop
    exact ⟨hs.deadlinesFit id task htask d hd, (Switchboard.totalPoll_iff ht).mpr nofun⟩
  · exact fun _ _ => SimState.totalForAll_iff
  · exact forall₂_congr fun _ _ => SimState.pollsTotal_iff
  · exact fun net => ⟨net.recvFromWithTimeout_never, net.recvAnyWithTimeout_never⟩

/-- Party 0 receives a packet at 10 ns and waits for the next one at most as long as a timeout can be. -/
def longWait : Simulation (Except NetworkError Packet) where
  parties := [0, 1]
  distinct := nodup_pair
  delay _ _ := 10
  program
    | 0 => .call (.recvFrom 1) fun _ => .op (.recvFromWithTimeout 1 Duration.max)
    | _ => .call (.sendTo 0 .empty) fun _ => .ret (.error .emptyPacket)

/-- `longWait` when party 0 calls the timed receive. -/
def longWaitCalled : SimState (Except NetworkError Packet) :=
  ((SimState.init longWait).steps longWait 8).get rfl

theorem reachable_longWaitCalled : Reachable longWait longWaitCalled :=
  Reachable.init.steps (n := 8) (Option.some_get _).symm

/-- The call is fine at the start, and panics in either form once the clock has moved. -/
theorem timed_receive_longWait :
    Reachable longWait longWaitCalled ∧ longWaitCalled.sb.clockOf 0 = 10 ∧
      longWaitCalled.step longWait = .panic ∧ ¬longWaitCalled.PollsTotal longWait ∧
      longWaitCalled.sb.perform 0 longWait.parties 0 none (.recvAnyWithTimeout Duration.max) = .panic ∧
      longWaitCalled.sb.perform 0 longWait.parties 0 none (.recvFrom 1) ≠ .panic ∧
      (SimState.init longWait).sb.perform 0 longWait.parties 0 none
        (.recvFromWithTimeout 1 Duration.max) ≠ .panic := by
  have htask : longWaitCalled.tasks 0 = some ⟨0, .op (.recvFromWithTimeout 1 Duration.max), none⟩ := rfl
  have hclock : longWaitCalled.sb.clockOf 0 = 10 := rfl
  have hlt : Duration.max < longWaitCalled.sb.clockOf 0 + Duration.max := by
    rw [hclock]
    exact Nat.lt_add_of_pos_left (by decide)
  have hpanic : longWaitCalled.sb.perform 0 longWait.parties 0 none
      (.recvFromWithTimeout 1 Duration.max) = .panic := (Switchboard.perform_eq_panic rfl).mpr ⟨rfl, hlt⟩
  refine ⟨reachable_longWaitCalled, hclock, ?_, ?_, ?_, nofun, ?_⟩
  · exact SimState.step_of_panic rfl htask rfl hpanic
  · intro h
    exact (h 0 _ (.recvFromWithTimeout 1 Duration.max) .ret _ rfl htask rfl rfl).ne_panic hpanic
  · exact (Switchboard.perform_eq_panic rfl).mpr ⟨rfl, hlt⟩
  · intro h
    have hfirst := ((Switchboard.perform_eq_panic rfl).mp h).2
    exact absurd hfirst (not_lt.mpr (Nat.zero_add Duration.max).le)

theorem timed_receives_total_longWait :
    (SimState.init longWait).TotalForAll longWait ∧
      longWaitCalled.sb.TotalPoll 0 longWait.parties 0 none (.recvFromWithTimeout 1 1000) ∧
      ¬longWaitCalled.TotalForAll longWait := by
  obtain ⟨hcall, -, hall, -, -⟩ := timed_receives_total_iff longWait
  refine ⟨?_, ?_, ?_⟩
  · exact (hall _ .init).mpr fun _ => rfl
  · exact (hcall _ reachable_longWaitCalled 0 0 _ 1000 rfl).mpr (by decide)
  · intro h
    exact absurd ((hall _ reachable_longWaitCalled).mp h 0) (by decide)

end SclRs
