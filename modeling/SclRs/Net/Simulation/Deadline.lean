import SclRs.Net.Simulation.Wakeup

/-!
# Timed receives

A timed receive first polled at clock `c` with timeout `t` has the deadline `c + t`. Whatever it takes
has arrived by then, and it times out exactly then. What it may miss is a packet that arrives at the
deadline itself: the heap breaks the tie by sequence number, and a timer that was scheduled before the
packet was sent fires first (`TieLost`).
-/

namespace SclRs

variable {ρ : Type} {sim : Simulation ρ}

/-- What was sent on the link and not handed over yet. -/
def History.unconsumed (h : History) (link : Link) : List SentPacket :=
  (h.sent link).drop (h.handed link).length

/-- The receive `op` of task `id`, first polled when its party's clock was `c`, is not resolved. -/
inductive Pending (sim : Simulation ρ) (id : TaskId) (party : PartyId) (op : NetOp)
    (next : op.Out → Prog ρ) (c : Duration) : SimState ρ → Prop
  | first {s : SimState ρ} : Reachable sim s → s.current = some id →
      s.tasks id = some ⟨party, .call op next, none⟩ → s.sb.clockOf party = c →
      Pending sim id party op next c s
  | step {s s' : SimState ρ} : Pending sim id party op next c s → s.step sim = .next s' →
      (s.current = some id → s'.current = none) → Pending sim id party op next c s'

theorem SimState.tasks_of_step {s s' : SimState ρ} {id : TaskId} (h : s.step sim = .next s')
    (hcur : s.current ≠ some id) : s'.tasks id = s.tasks id := by
  have hresume : ∀ {id' : TaskId} {task : Task ρ} {op : NetOp} {next : op.Out → Prog ρ}
      {poll : Poll op.Out}, id' ≠ id → s.resume id' task next poll = .next s' →
      s'.tasks id = s.tasks id := by
    intro id' task op next poll hne hs'
    cases poll <;> cases hs' <;> exact Function.update_of_ne hne.symm _ _
  unfold step at h
  split at h
  · rename_i id' hcur'
    have hne : id' ≠ id := fun he => hcur (he ▸ hcur')
    split at h
    · unfold pollTask at h
      split at h
      · cases h
        exact Function.update_of_ne hne.symm _ _
      · cases h
      · exact hresume hne h
    · cases h
      rfl
  · split_ifs at h
    split at h
    · split at h <;> cases h <;> rfl
    · split at h <;> cases h
      rfl

namespace Pending

variable {id : TaskId} {party : PartyId} {op : NetOp} {next : op.Out → Prog ρ} {c t : Duration}
  {s : SimState ρ}

theorem reachable (h : Pending sim id party op next c s) : Reachable sim s := by
  induction h with
  | first hreach => exact hreach
  | step _ hstep _ ih => exact ih.step hstep

/-- From the first poll on, the deadline of the receive is `c + t`. -/
theorem deadline (h : Pending sim id party op next c s) (ht : op.timeout? = some t) :
    (s.current = some id ∧ s.tasks id = some ⟨party, .call op next, none⟩ ∧
        s.sb.clockOf party = c) ∨
      s.tasks id = some ⟨party, .call op next, some (c + t)⟩ := by
  induction h with
  | first _ hcur htask hclock => exact .inl ⟨hcur, htask, hclock⟩
  | @step s s' hpending hstep hyield ih =>
    by_cases hcur : s.current = some id
    · -- the receive is polled and parks again
      have hpark := hyield hcur
      have hrecv : op.isRecv = true := NetOp.isRecv_of_timeout? (by simp [ht])
      obtain ⟨dl, htask, hdl⟩ : ∃ dl, s.tasks id = some ⟨party, .call op next, dl⟩ ∧
          (dl = none ∧ s.sb.clockOf party = c ∨ dl = some (c + t)) := by
        rcases ih with ⟨-, htask, hclock⟩ | htask
        · exact ⟨_, htask, .inl ⟨rfl, hclock⟩⟩
        · exact ⟨_, htask, .inr rfl⟩
      have hresume : s.resume id ⟨party, .call op next, dl⟩ next
          (s.sb.perform party sim.parties id dl op) = .next s' := by
        simpa only [SimState.step, hcur, htask, SimState.pollTask] using hstep
      rcases Switchboard.perform_receive
        hrecv dl with hp | ⟨d, sb', harmed, hres⟩
      · rw [hp] at hresume
        cases hresume
      · have hd : d = some (c + t) := by
          cases harmed with
          | untimed hn => simp [ht] at hn
          | again _ hd =>
            rcases hdl with ⟨hn, -⟩ | hs
            · cases hn.symm.trans hd
            · exact hd.symm.trans hs
          | @first t' d' ht' hnone hadd =>
            rcases hdl with ⟨-, hclock⟩ | hs
            · obtain rfl := Option.some.inj (ht.symm.trans ht')
              rw [(Duration.checkedAdd_eq_some.mp hadd).1, hclock]
            · cases hnone.symm.trans hs
        generalize s.sb.perform party sim.parties id dl op = poll at hres hresume
        cases hres with
        | took => cases hresume; cases hpark.symm.trans hcur
        | timedOut => cases hresume; cases hpark.symm.trans hcur
        | parked =>
          cases hresume
          exact .inr (hd ▸ Function.update_self _ _ _)
    · rw [SimState.tasks_of_step hstep hcur]
      exact ih.elim (fun hfirst => absurd hfirst.1 hcur) .inr

end Pending

/-! ### The race -/

/-- The receive with deadline `d` is polled at that instant with nothing queued, while the heap still
holds a delivery for it that is due at the same instant: the timer fired before the delivery. -/
def TieLost (sim : Simulation ρ) (s : SimState ρ) (party : PartyId) (op : NetOp) (d : Duration) :
    Prop :=
  s.sb.clockOf party = d ∧ (∀ l ∈ op.awaits party sim.parties, s.sb.msgQueues l = []) ∧
    ∃ e ∈ s.sb.events, e.link ∈ op.awaits party sim.parties ∧ e.kind ≠ .timer ∧ e.arrival = d

/-- The receive with deadline `d` that resolves to `out`, leaving `sb`, decided the race by arrival. -/
structure DecidedByArrival (sim : Simulation ρ) (s : SimState ρ) (party : PartyId) (op : NetOp)
    (d : Duration) (out : op.Out) (sb : Switchboard) : Prop where
  /-- A packet that arrives by the deadline wins. -/
  in_time_wins : (∃ l ∈ op.awaits party sim.parties, ∃ r ∈ s.hist.unconsumed l, r.arrival ≤ d) →
    ∃ sender packet, op.packetOut sender packet = some out
  /-- What wins has arrived by the deadline. -/
  winner_in_time : ∀ sender packet, op.packetOut sender packet = some out →
    ∃ l ∈ op.awaits party sim.parties, ∃ r rest, s.hist.unconsumed l = r :: rest ∧
      op.packetOut l.sender r.packet = some out ∧ r.arrival ≤ d
  timeout_at_deadline : op.timeoutOut = some out → sb.clockOf party = d
  /-- A timeout consumes nothing: what is unconsumed stays queued or scheduled, in order. -/
  late_stays : op.timeoutOut = some out → ∀ l,
    (s.hist.observe party sb op out).unconsumed l = s.hist.unconsumed l ∧
      sb.msgQueues l ++ (sb.inTransit l).map Prod.fst =
        (s.hist.unconsumed l).map SentPacket.packet

theorem NetOp.packetOut_ne_timeoutOut {op : NetOp} {sender : PartyId} {packet : Packet}
    {out : op.Out} (h : op.packetOut sender packet = some out) : op.timeoutOut ≠ some out := by
  intro h'
  cases op with
  | recvFromWithTimeout | recvAnyWithTimeout =>
    have hout := (Option.some.inj h).trans (Option.some.inj h').symm
    cases hout
  | sendTo | record | recvFrom | recvAny => cases h'

namespace LinkLog

variable {sent : List SentPacket} {handed transit : List (Packet × Duration)} {queue : List Packet}
  {clock : Duration}

theorem drop_handed (h : LinkLog sent handed queue transit clock) :
    ∃ queued flying, sent.drop handed.length = queued ++ flying ∧
      queued.map SentPacket.packet = queue ∧ (∀ r ∈ queued, r.arrival ≤ clock) ∧
      flying.map (fun r => (r.packet, r.arrival)) = transit := by
  obtain ⟨got, queued, flying, rfl, hgot, hqueue, harrived, hflying⟩ := h
  refine ⟨queued, flying, ?_, hqueue, harrived, hflying⟩
  rw [List.append_assoc, ← hgot.length_eq, List.drop_left]

end LinkLog

/-- In a reachable state the unconsumed packets are those queued, which have arrived, and then those
in transit. -/
theorem Reachable.unconsumed {s : SimState ρ} (h : Reachable sim s) (l : Link) :
    ∃ queued flying, s.hist.unconsumed l = queued ++ flying ∧
      queued.map SentPacket.packet = s.sb.msgQueues l ∧
      (∀ r ∈ queued, r.arrival ≤ s.sb.clockOf l.recipient) ∧
      flying.map (fun r => (r.packet, r.arrival)) = s.sb.inTransit l :=
  (h.fifo.log l).drop_handed

theorem Reachable.mem_unconsumed {s : SimState ρ} (h : Reachable sim s) {l : Link}
    (hempty : s.sb.msgQueues l = []) (d : Duration) :
    (∃ r ∈ s.hist.unconsumed l, r.arrival = d) ↔
      ∃ e ∈ s.sb.events, e.link = l ∧ e.kind ≠ .timer ∧ e.arrival = d := by
  obtain ⟨queued, flying, hu, hqueue, -, hflying⟩ := h.unconsumed l
  obtain rfl : queued = [] := List.map_eq_nil_iff.mp (hqueue.trans hempty)
  rw [hu, List.nil_append]
  constructor
  · rintro ⟨r, hr, rfl⟩
    have hmem : (r.packet, r.arrival) ∈ s.sb.inTransit l :=
      hflying ▸ List.mem_map_of_mem hr
    obtain ⟨e, he, hseen⟩ := List.mem_filterMap.mp hmem
    obtain ⟨hlink, hkind, harrival⟩ := ScheduledEvent.deliveryOn_eq_some.mp hseen
    exact ⟨e, he, hlink, by simp [hkind], harrival⟩
  · rintro ⟨e, he, hlink, hkind, harrival⟩
    obtain ⟨packet, hpacket⟩ : ∃ packet, e.kind = .delivery packet := by
      cases hk : e.kind with
      | delivery packet => exact ⟨packet, rfl⟩
      | timer => exact absurd hk hkind
    have hmem : (packet, d) ∈ s.sb.inTransit l :=
      List.mem_filterMap.mpr ⟨e, he, ScheduledEvent.deliveryOn_eq_some.mpr ⟨hlink, hpacket, harrival⟩⟩
    rw [← hflying] at hmem
    obtain ⟨r, hr, heq⟩ := List.mem_map.mp hmem
    exact ⟨r, hr, congrArg Prod.snd heq⟩

variable {id : TaskId} {party : PartyId} {op : NetOp} {next : op.Out → Prog ρ} {c t : Duration}
  {s : SimState ρ}

theorem Pending.clock_le (h : Pending sim id party op next c s) (ht : op.timeout? = some t)
    (hcur : s.current = some id) : s.sb.clockOf party ≤ c + t := by
  rcases h.deadline ht with ⟨-, -, hclock⟩ | htask
  · rw [hclock]
    exact Nat.le_add_right _ _
  · obtain ⟨-, -, -, -, hle, -⟩ := h.reachable.wake.timed id _ _ htask rfl
    rwa [h.reachable.timed.awake.awake id _ (.inl hcur) htask]

theorem Switchboard.Armed.same {sb sb' : Switchboard} {me : PartyId} {parties : List PartyId}
    {op : NetOp} {dl d : Option Duration} (h : sb.Armed me parties op dl d sb') :
    sb'.clockOf = sb.clockOf ∧ sb'.msgQueues = sb.msgQueues ∧ sb'.inTransit = sb.inTransit := by
  cases h with
  | untimed | again => exact ⟨rfl, rfl, rfl⟩
  | first =>
    unfold armTimer
    split
    · refine ⟨rfl, rfl, funext fun l => ?_⟩
      exact Lib.TimeQueue.filterMap_push_none _ _ _ (by simp)
    · exact ⟨rfl, rfl, rfl⟩

theorem Switchboard.release_same (sb : Switchboard) (me : PartyId) (parties : List PartyId)
    (op : NetOp) : (sb.release me parties op).clockOf = sb.clockOf ∧
      (sb.release me parties op).msgQueues = sb.msgQueues ∧
      (sb.release me parties op).inTransit = sb.inTransit := by
  unfold release
  split_ifs <;> exact ⟨rfl, rfl, rfl⟩

theorem Pending.armed (h : Pending sim id party op next c s) (ht : op.timeout? = some t)
    {dl d : Option Duration} {sb' : Switchboard}
    (htask : s.tasks id = some ⟨party, .call op next, dl⟩)
    (harmed : s.sb.Armed party sim.parties op dl d sb') : d = some (c + t) := by
  cases harmed with
  | untimed hn => simp [ht] at hn
  | again _ hd =>
    rcases h.deadline ht with ⟨-, htask', -⟩ | htask'
    · cases hd.symm.trans (congrArg Task.deadline (Option.some.inj (htask.symm.trans htask')))
    · exact hd.symm.trans (congrArg Task.deadline (Option.some.inj (htask.symm.trans htask')))
  | first ht' hnone hadd =>
    rcases h.deadline ht with ⟨-, -, hclock⟩ | htask'
    · obtain rfl := Option.some.inj (ht.symm.trans ht')
      rw [(Duration.checkedAdd_eq_some.mp hadd).1, hclock]
    · cases hnone.symm.trans (congrArg Task.deadline (Option.some.inj (htask.symm.trans htask')))

/-- **Timed receives and arrival times.** A timed receive decides its race by arrival unless it loses
the tie at its deadline to a timer that fired first. -/
theorem timed_receive_decided_iff (h : Pending sim id party op next c s)
    (ht : op.timeout? = some t) (hcur : s.current = some id) {dl : Option Duration}
    (htask : s.tasks id = some ⟨party, .call op next, dl⟩) {out : op.Out} {sb : Switchboard}
    (hready : s.sb.perform party sim.parties id dl op = .ready out sb) :
    DecidedByArrival sim s party op (c + t) out sb ↔ ¬ TieLost sim s party op (c + t) := by
  have hrecv : op.isRecv = true := NetOp.isRecv_of_timeout? (by simp [ht])
  have hle := h.clock_le ht hcur
  have hnow : s.sb.clockOf party = s.hist.now :=
    h.reachable.timed.awake.awake id _ (.inl hcur) htask
  rcases Switchboard.perform_receive hrecv dl with hp | ⟨d, sb', harmed, hres⟩
  · cases hp.symm.trans hready
  obtain rfl := h.armed ht htask harmed
  obtain ⟨hclock, hqueues, htransit⟩ := harmed.same
  rw [hready] at hres
  cases hres with
  | @took link packet queue _ hmem hqueue hmin hout =>
    rw [hqueues] at hqueue
    refine iff_of_true ⟨fun _ => ⟨_, _, hout⟩, fun sender packet' hout' => ?_,
      fun htimeout => absurd htimeout (NetOp.packetOut_ne_timeoutOut hout),
      fun htimeout => absurd htimeout (NetOp.packetOut_ne_timeoutOut hout)⟩ ?_
    · obtain ⟨queued, flying, hu, hpackets, harrived, -⟩ := h.reachable.unconsumed link
      rw [hqueue] at hpackets
      obtain ⟨r, queued, rfl, rfl, rfl⟩ := List.map_eq_cons_iff.mp hpackets
      refine ⟨link, hmem, r, queued ++ flying, hu, hout, ?_⟩
      have harrival := harrived r List.mem_cons_self
      rw [NetOp.recipient_of_mem_awaits hmem] at harrival
      exact harrival.trans hle
    · rintro ⟨-, hempty, -⟩
      rw [hempty link hmem] at hqueue
      cases hqueue
  | @timedOut d _ hd htimeout hempty hexpired =>
    obtain rfl := Option.some.inj hd
    rw [hqueues] at hempty
    rw [hclock] at hexpired
    have hat : s.sb.clockOf party = c + t := le_antisymm hle hexpired
    obtain ⟨hrclock, hrqueues, hrtransit⟩ := sb'.release_same party sim.parties op
    have hlost : (∃ l ∈ op.awaits party sim.parties, ∃ r ∈ s.hist.unconsumed l, r.arrival ≤ c + t) →
        TieLost sim s party op (c + t) := by
      rintro ⟨l, hl, r, hr, harrival⟩
      obtain ⟨e, he, hlink, hkind, he'⟩ :=
        (h.reachable.mem_unconsumed (hempty l hl) r.arrival).mp ⟨r, hr, rfl⟩
      -- no event lies before the clock, which is at the deadline
      have hge := h.reachable.timed.time.arrival_ge e he
      rw [← hnow, hat, he'] at hge
      exact ⟨hat, hempty, e, he, hlink ▸ hl, hkind, he'.trans (le_antisymm harrival hge)⟩
    constructor
    · rintro hdecided ⟨-, -, e, he, hl, hkind, harrival⟩
      obtain ⟨r, hr, hr'⟩ := (h.reachable.mem_unconsumed (hempty e.link hl) (c + t)).mpr
        ⟨e, he, rfl, hkind, harrival⟩
      obtain ⟨sender, packet, hpacket⟩ :=
        hdecided.in_time_wins ⟨e.link, hl, r, hr, le_of_eq hr'⟩
      exact NetOp.packetOut_ne_timeoutOut hpacket htimeout
    · intro htie
      refine ⟨fun hin => absurd (hlost hin) htie,
        fun _ _ hpacket => absurd htimeout (NetOp.packetOut_ne_timeoutOut hpacket),
        fun _ => ?_, fun _ l => ⟨?_, ?_⟩⟩
      · rw [hrclock, hclock, hat]
      · rw [s.hist.observe_timeoutOut htimeout]
      · rw [hrqueues, hqueues, hrtransit, htransit]
        obtain ⟨queued, flying, hu, hpackets, -, hflying⟩ := h.reachable.unconsumed l
        rw [hu, ← hpackets, ← hflying]
        simp

/-! ### A lost tie -/

/-- `n` steps in which no poll of task `id` resolves an operation. -/
def SimState.waitSteps (sim : Simulation ρ) (id : TaskId) : Nat → SimState ρ → Option (SimState ρ)
  | 0, s => some s
  | n + 1, s =>
    match s.step sim with
    | .next s' => if s.current = some id ∧ s'.current ≠ none then none else s'.waitSteps sim id n
    | _ => none

theorem Pending.waitSteps {s' : SimState ρ} (h : Pending sim id party op next c s) {n : Nat}
    (hsteps : s.waitSteps sim id n = some s') : Pending sim id party op next c s' := by
  induction n generalizing s with
  | zero => exact Option.some.inj hsteps ▸ h
  | succ n ih =>
    unfold SimState.waitSteps at hsteps
    split at hsteps
    · rename_i t hstep
      split_ifs at hsteps with hwait
      exact ih (h.step hstep fun hcur => not_not.mp fun hne => hwait ⟨hcur, hne⟩) hsteps
    · cases hsteps

/-- `photoFinish` when party 0 is polled for the first time. -/
def photoFinishFirst : SimState (Except NetworkError Packet) :=
  ((SimState.init photoFinish).steps photoFinish 1).get rfl

/-- `photoFinish` when the timer has woken party 0. -/
def photoFinishWoken : SimState (Except NetworkError Packet) :=
  (photoFinishFirst.waitSteps photoFinish 0 6).get rfl

theorem pending_photoFinish :
    Pending photoFinish 0 0 (.recvFromWithTimeout 1 10) .ret 0 photoFinishWoken := by
  have hfirst : Pending photoFinish 0 0 (.recvFromWithTimeout 1 10) .ret 0 photoFinishFirst :=
    .first (Reachable.init.steps (n := 1) (Option.some_get _).symm) rfl rfl rfl
  exact hfirst.waitSteps (n := 6) (Option.some_get _).symm

/-- The timer of `photoFinish` was scheduled first, so its packet loses the tie. -/
theorem timed_receive_photoFinish :
    Pending photoFinish 0 0 (.recvFromWithTimeout 1 10) .ret 0 photoFinishWoken ∧
    ∃ sb, photoFinishWoken.sb.perform 0 photoFinish.parties 0 (some 10)
        (.recvFromWithTimeout 1 10) = .ready (.error (.timeout (some 1))) sb ∧
      (∃ r ∈ photoFinishWoken.hist.unconsumed ⟨1, 0⟩, r.arrival ≤ 0 + 10) ∧
      ¬ DecidedByArrival photoFinish photoFinishWoken 0 (.recvFromWithTimeout 1 10) (0 + 10)
        (.error (.timeout (some 1))) sb := by
  have hpacket : (⟨.empty, 0, 10⟩ : SentPacket) ∈ photoFinishWoken.hist.unconsumed ⟨1, 0⟩ :=
    List.mem_singleton.mpr rfl
  refine ⟨pending_photoFinish, photoFinishWoken.sb, rfl, ⟨_, hpacket, le_rfl⟩, fun h => ?_⟩
  obtain ⟨sender, packet, hwins⟩ := h.in_time_wins
    ⟨⟨1, 0⟩, List.mem_singleton.mpr rfl, _, hpacket, le_rfl⟩
  cases hwins

theorem timed_receive_decided_iff_photoFinish :
    ∃ out sb, photoFinishWoken.sb.perform 0 photoFinish.parties 0 (some 10)
        (.recvFromWithTimeout 1 10) = .ready out sb ∧
      (DecidedByArrival photoFinish photoFinishWoken 0 (.recvFromWithTimeout 1 10) (0 + 10) out sb ↔
        ¬ TieLost photoFinish photoFinishWoken 0 (.recvFromWithTimeout 1 10) (0 + 10)) :=
  ⟨_, _, rfl, timed_receive_decided_iff pending_photoFinish rfl rfl rfl rfl⟩

end SclRs
