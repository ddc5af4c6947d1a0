import SclRs.Net.Simulation.Bandwidth
import SclRs.Net.Simulation.Refinement

/-!
# The profile of a simulation

A run of the simulator logs what each party performs. An operation records its mark in the trace of its
party and calls the hooks with it, so that the trace has the marks of the log and the hook has counted
those of all traces (`ProfileInv`). When `simulate` returns, a party's log is that of the call tree of
its protocol, and the tree rebuilt from the trace, the lines of `write_folded` and the counts of the
hook are about this tree (`bandwidth_profiling`).
-/

namespace SclRs

variable {ρ : Type} {sim : Simulation ρ}

/-! ### What an operation records -/

/-- From `sb` to `sb'` party `me` recorded `events`. -/
structure Recorded (me : PartyId) (sb sb' : Switchboard) (events : List Event) : Prop where
  traces : sb'.traces = Function.update sb.traces me (sb.traces me ++ events)
  hookCalls : sb'.hookCalls = sb.hookCalls ++ events.map fun event => (me, event)

theorem Recorded.none {me : PartyId} {sb sb' : Switchboard} (htraces : sb'.traces = sb.traces)
    (hcalls : sb'.hookCalls = sb.hookCalls) : Recorded me sb sb' [] where
  traces := by rw [htraces, List.append_nil, Function.update_eq_self]
  hookCalls := by rw [hcalls, List.map_nil, List.append_nil]

/-- What a performed operation recorded: its mark, and no send of another party. -/
def Performed.Records (me : PartyId) (performed : Performed) (sb sb' : Switchboard) : Prop :=
  ∃ events, Recorded me sb sb' events ∧
    events.filterMap Event.mark = (performed.mark me).toList ∧ ∀ event ∈ events, OwnSend (me, event)

theorem Performed.records_unmarked {me : PartyId} {performed : Performed}
    (hmark : performed.mark me = none) {sb sb' : Switchboard} (h : Recorded me sb sb' []) :
    performed.Records me sb sb' :=
  ⟨[], h, by rw [hmark]; rfl, by simp⟩

theorem Performed.records_event {me : PartyId} {performed : Performed} {sb sb' : Switchboard}
    (event : Event) (h : Recorded me sb sb' [event]) (hmark : event.mark = performed.mark me)
    (hown : OwnSend (me, event)) : performed.Records me sb sb' := by
  refine ⟨[event], h, ?_, by simpa using hown⟩
  rw [← hmark, List.filterMap_cons]
  cases event.mark <;> rfl

theorem Recorded.trans_nil {me : PartyId} {sb₁ sb₂ sb₃ : Switchboard} {events : List Event}
    (h : Recorded me sb₁ sb₂ []) (h' : Recorded me sb₂ sb₃ events) : Recorded me sb₁ sb₃ events where
  traces := by rw [h'.traces, h.traces, List.append_nil, Function.update_eq_self]
  hookCalls := by rw [h'.hookCalls, h.hookCalls, List.map_nil, List.append_nil]

theorem Performed.Records.after {me : PartyId} {performed : Performed} {sb₁ sb₂ sb₃ : Switchboard}
    (h' : performed.Records me sb₂ sb₃) (h : Recorded me sb₁ sb₂ []) : performed.Records me sb₁ sb₃ := by
  obtain ⟨events, hrecorded, hmark, hown⟩ := h'
  exact ⟨events, h.trans_nil hrecorded, hmark, hown⟩

/-- What the poll of an operation records. -/
def Poll.Records {op : NetOp} (me : PartyId) (sb : Switchboard) : Poll op.Out → Prop
  | .ready out sb' => Performed.Records me ⟨op, out⟩ sb sb'
  | .pending _ sb' => Recorded me sb sb' []
  | .panic => True

theorem NetOp.mark_of_isRecv {op : NetOp} (hop : op.isRecv = true) (me : PartyId) (out : op.Out) :
    Performed.mark me ⟨op, out⟩ = none := by
  cases op with
  | recvFrom | recvAny | recvFromWithTimeout | recvAnyWithTimeout => rfl
  | sendTo | record => cases hop

namespace Switchboard

variable {sb : Switchboard} {me : PartyId} {parties : List PartyId} {waker : TaskId} {op : NetOp}

theorem Armed.recorded {deadline d : Option Duration} {sb' : Switchboard}
    (h : Armed sb me parties op deadline d sb') : Recorded me sb sb' [] := by
  cases h with
  | untimed | again => exact .none rfl rfl
  | first =>
    unfold armTimer
    split <;> exact .none rfl rfl

theorem release_recorded (sb : Switchboard) (me : PartyId) (parties : List PartyId) (op : NetOp) :
    Recorded me sb (sb.release me parties op) [] := by
  unfold release
  split_ifs <;> exact .none rfl rfl

theorem handOver_recorded (sb : Switchboard) (link : Link) (packet : Packet) (queue : List Packet) :
    Recorded link.recipient sb (sb.handOver link packet queue)
      [.receiveData (sb.clockOf link.recipient) link packet.size packet.composition] :=
  ⟨rfl, rfl⟩

theorem Resolved.records (hop : op.isRecv = true) {deadline : Option Duration} {poll : Poll op.Out}
    (h : Resolved sb me parties waker op deadline poll) : poll.Records me sb := by
  cases h with
  | @took link packet queue out hmem =>
    obtain rfl := NetOp.recipient_of_mem_awaits hmem
    -- the packet that is handed over is recorded, but without a mark
    have hhand := (sb.release_recorded link.recipient parties op).trans_nil
      ((sb.release link.recipient parties op).handOver_recorded link packet queue)
    refine Performed.records_event _ hhand (NetOp.mark_of_isRecv hop _ _).symm ?_
    intro link' size hmark
    cases hmark
  | timedOut =>
    exact Performed.records_unmarked (NetOp.mark_of_isRecv hop me _) (sb.release_recorded me parties op)
  | parked => exact .none rfl rfl

/-- **A poll records the mark of its operation**, if it resolves. -/
theorem perform_records (deadline : Option Duration) :
    (sb.perform me parties waker deadline op).Records me sb := by
  by_cases hrecv : op.isRecv = true
  · rcases perform_receive hrecv deadline with hpanic | ⟨d, sb', harmed, hresolved⟩
    · rw [hpanic]
      exact trivial
    · have hrecords := hresolved.records hrecv
      generalize sb.perform me parties waker deadline op = poll at hrecords ⊢
      cases poll with
      | ready out sb'' => exact hrecords.after harmed.recorded
      | pending _ sb'' => exact harmed.recorded.trans_nil hrecords
      | panic => exact trivial
  · cases op with
    | sendTo partyId packet =>
      cases hsend : sb.send me partyId packet with
      | none =>
        simp only [perform, hsend]
        exact trivial
      | some sb' =>
        simp only [perform, hsend]
        obtain ⟨arrival, -, -, rfl⟩ := send_eq_some hsend
        refine Performed.records_event (.sendData (sb.clockOf me) ⟨me, partyId⟩ packet.size
          packet.composition) ⟨rfl, rfl⟩ rfl ?_
        intro link size hmark
        obtain ⟨rfl, -⟩ := Mark.sent.inj (Option.some.inj hmark)
        rfl
    | record marker =>
      refine Performed.records_event (marker.event (sb.clockOf me)) ⟨rfl, rfl⟩ ?_ ?_
      · cases marker <;> rfl
      · intro link size hmark
        cases marker <;> cases hmark
    | recvFrom | recvAny | recvFromWithTimeout | recvAnyWithTimeout => exact absurd rfl hrecv

end Switchboard

/-! ### Runs with a log -/

abbrev Log := PartyId → List Performed

/-- The log after what a step performed, if it performed anything. -/
def Log.push (log : Log) : Option (PartyId × Performed) → Log
  | none => log
  | some (party, performed) => Function.update log party (log party ++ [performed])

/-- The operation that the step from `s` performs, with its party. -/
def SimState.performed (sim : Simulation ρ) (s : SimState ρ) : Option (PartyId × Performed) := do
  let id ← s.current
  let task ← s.tasks id
  match task.prog with
  | .call op _ =>
    match s.sb.perform task.party sim.parties id task.deadline op with
    | .ready out _ => some (task.party, ⟨op, out⟩)
    | _ => none
  | _ => none

/-- The states of a simulation's run, with what the parties performed until then. -/
inductive Logged (sim : Simulation ρ) : Log → SimState ρ → Prop
  | init : Logged sim (fun _ => []) (.init sim)
  | step {log : Log} {s s' : SimState ρ} :
      Logged sim log s → s.step sim = .next s' → Logged sim (log.push (s.performed sim)) s'

theorem Logged.reachable {log : Log} {s : SimState ρ} (h : Logged sim log s) : Reachable sim s := by
  induction h with
  | init => exact .init
  | step _ hstep ih => exact ih.step hstep

theorem Logged.steps {log : Log} {s s' : SimState ρ} (h : Logged sim log s) {n : Nat}
    (hsteps : s.steps sim n = some s') : ∃ log', Logged sim log' s' := by
  induction n generalizing s log with
  | zero => exact Option.some.inj hsteps ▸ ⟨log, h⟩
  | succ n ih =>
    unfold SimState.steps at hsteps
    split at hsteps
    · rename_i t hstep
      exact ih (h.step hstep) hsteps
    · cases hsteps

/-- The parties ran their code, their traces have the marks of what they performed, and the hooks were
called with the events of the traces. -/
structure ProfileInv (sim : Simulation ρ) (log : Log) (s : SimState ρ) : Prop where
  runs : ∃ progs, RunsAs sim s progs ∧ ∀ p, (sim.program p).Runs (log p) (progs p)
  marks : ∀ p, (s.sb.traces p).filterMap Event.mark = (log p).filterMap (Performed.mark p)
  calls : ∀ p, (s.sb.hookCalls.filter fun c => c.1 = p).map Prod.snd = s.sb.traces p
  own : ∀ c ∈ s.sb.hookCalls, OwnSend c
  known : ∀ c ∈ s.sb.hookCalls, c.1 ∈ sim.parties

namespace ProfileInv

variable {log : Log} {s s' : SimState ρ}

theorem init (sim : Simulation ρ) : ProfileInv sim (fun _ => []) (.init sim) where
  runs := ⟨_, (Refines.init sim).runs, fun _ => .nil⟩
  marks _ := rfl
  calls _ := rfl
  own _ hc := absurd hc List.not_mem_nil
  known _ hc := absurd hc List.not_mem_nil

theorem performed (h : ProfileInv sim log s) (hwake : WakeInv sim s) {id : TaskId} {task : Task ρ}
    (htask : s.tasks id = some task) {op : NetOp} {next : op.Out → Prog ρ} {out : op.Out}
    (hprog : task.prog = .call op next)
    (hrecords : Performed.Records task.party ⟨op, out⟩ s.sb s'.sb)
    (htasks : s'.tasks = Function.update s.tasks id (some ⟨task.party, next out, none⟩))
    (houtputs : s'.outputs = s.outputs) :
    ProfileInv sim (log.push (some (task.party, ⟨op, out⟩))) s' := by
  obtain ⟨events, ⟨htraces, hcalls⟩, hmark, hown⟩ := hrecords
  obtain ⟨progs, hprogs, hlog⟩ := h.runs
  refine ⟨⟨_, hprogs.resume hwake htask htasks houtputs, fun p => ?_⟩, fun p => ?_, fun p => ?_, ?_, ?_⟩
  · rcases eq_or_ne p task.party with rfl | hp
    · have hrun := hlog task.party
      rw [(hprogs.running id task htask).1, hprog] at hrun
      rw [Log.push, Function.update_self, Function.update_self]
      exact hrun.snoc out
    · rw [Log.push, Function.update_of_ne hp, Function.update_of_ne hp]
      exact hlog p
  · rw [htraces]
    rcases eq_or_ne p task.party with rfl | hp
    · rw [Log.push, Function.update_self, Function.update_self, List.filterMap_append, h.marks, hmark,
        List.filterMap_append]
      cases hmark' : Performed.mark task.party ⟨op, out⟩ <;> simp [hmark']
    · rw [Log.push, Function.update_of_ne hp, Function.update_of_ne hp, h.marks]
  · rw [hcalls, htraces, List.filter_append, List.map_append, h.calls]
    rcases eq_or_ne p task.party with rfl | hp
    · simp [List.filter_map, Function.comp_def]
    · rw [Function.update_of_ne hp]
      simp [List.filter_map, Function.comp_def, Ne.symm hp]
  · rw [hcalls, List.forall_mem_append]
    refine ⟨h.own, fun c hc => ?_⟩
    obtain ⟨event, hevent, rfl⟩ := List.mem_map.mp hc
    exact hown event hevent
  · rw [hcalls, List.forall_mem_append]
    refine ⟨h.known, fun c hc => ?_⟩
    obtain ⟨event, hevent, rfl⟩ := List.mem_map.mp hc
    exact hwake.mem_parties htask

theorem of_eq (h : ProfileInv sim log s) (htraces : s'.sb.traces = s.sb.traces)
    (hcalls : s'.sb.hookCalls = s.sb.hookCalls)
    (hruns : ∀ progs, RunsAs sim s progs → RunsAs sim s' progs) : ProfileInv sim log s' := by
  obtain ⟨progs, hprogs, hlog⟩ := h.runs
  exact ⟨⟨progs, hruns progs hprogs, hlog⟩, htraces ▸ h.marks, hcalls ▸ htraces ▸ h.calls,
    hcalls ▸ h.own, hcalls ▸ h.known⟩

/-- **A step keeps the invariant.** -/
theorem step (h : ProfileInv sim log s) (hwake : WakeInv sim s) (hstep : s.step sim = .next s') :
    ProfileInv sim (log.push (s.performed sim)) s' := by
  cases hcur : s.current with
  | none =>
    have hnone : s.performed sim = none := by simp [SimState.performed, hcur]
    rw [hnone]
    cases turn_moves hcur hstep with
    | picked | skipped => exact h.of_eq rfl rfl fun _ hruns => ⟨hruns.running, hruns.completed⟩
    | @delivered event rest =>
      obtain ⟨arrival, seq, link, kind⟩ := event
      cases kind <;> exact h.of_eq rfl rfl fun _ hruns => ⟨hruns.running, hruns.completed⟩
    | sent hsome | recorded hsome | armed hsome | took hsome | timedOut hsome | parked hsome
    | finished hsome | dropped hsome => cases hcur.symm.trans hsome
  | some id =>
    cases htask : s.tasks id with
    | none =>
      have hnone : s.performed sim = none := by simp [SimState.performed, hcur, htask]
      rw [hnone]
      simp only [SimState.step, hcur, htask] at hstep
      rw [← Outcome.next.inj hstep]
      exact h.of_eq rfl rfl fun _ hruns => ⟨hruns.running, hruns.completed⟩
    | some task =>
      simp only [SimState.step, hcur, htask, SimState.pollTask] at hstep
      have hperformed : s.performed sim = match task.prog with
          | .call op _ =>
            match s.sb.perform task.party sim.parties id task.deadline op with
            | .ready out _ => some (task.party, ⟨op, out⟩)
            | _ => none
          | _ => none := by
        rw [SimState.performed, hcur]
        simp only [Option.bind_eq_bind, Option.bind_some, htask]
      rw [hperformed]
      cases hprog : task.prog with
      | ret result =>
        rw [hprog] at hstep
        rw [← Outcome.next.inj hstep]
        exact h.of_eq rfl rfl fun _ hruns => hruns.finish hwake htask hprog rfl rfl
      | panic =>
        rw [hprog] at hstep
        cases hstep
      | call op next =>
        rw [hprog] at hstep
        have hrecords : (s.sb.perform task.party sim.parties id task.deadline op).Records task.party s.sb :=
          s.sb.perform_records task.deadline
        simp only at hstep ⊢
        generalize s.sb.perform task.party sim.parties id task.deadline op = poll at hrecords hstep ⊢
        cases poll with
        | panic => cases hstep
        | ready out sb =>
          rw [← Outcome.next.inj hstep]
          exact h.performed hwake htask hprog hrecords rfl rfl
        | pending deadline sb =>
          rw [← Outcome.next.inj hstep]
          refine h.of_eq ?_ ?_ fun _ hruns => hruns.suspend hwake htask rfl rfl
          · exact hrecords.traces.trans (by rw [List.append_nil, Function.update_eq_self])
          · exact hrecords.hookCalls.trans (by rw [List.map_nil, List.append_nil])

end ProfileInv

theorem Logged.profile {log : Log} {s : SimState ρ} (h : Logged sim log s) : ProfileInv sim log s := by
  induction h with
  | init => exact .init sim
  | step hlogged hstep ih => exact ih.step hlogged.reachable.wake hstep

theorem Logged.returned {log : Log} {s : SimState ρ} (h : Logged sim log s)
    (hreturned : s.step sim = .returned) {p : PartyId} (hp : p ∈ sim.parties) :
    ∃ result, s.outputs p = some result ∧ (sim.program p).Runs (log p) (.ret result) := by
  obtain ⟨progs, hprogs, hlog⟩ := h.profile.runs
  obtain ⟨-, hremaining⟩ := (s.step_ends sim).1.mp hreturned
  have hnone := h.reachable.wake.remaining_eq_zero.mp hremaining
  obtain ⟨id, hid⟩ := List.mem_iff_getElem?.mp hp
  obtain ⟨result, hprog, houtput⟩ := hprogs.completed id p hid (hnone id)
  exact ⟨result, houtput, hprog ▸ hlog p⟩

/-! ### Profiles -/

section
variable {ε : Type} (codec : Postcard ρ)

/-- `simulate`: each party runs the protocol that `make_protocol` gives it, under the protocol's id. -/
def simulate (delay : Delay) {parties : List PartyId} (distinct : parties.Nodup)
    (makeProtocol : PartyId → ProtocolId × Code (Except ε ρ)) : Simulation ρ where
  parties := parties
  distinct := distinct
  delay := delay
  program p := drivePartyToCompletion codec (makeProtocol p).1 (makeProtocol p).2.prog

/-- The log of a party whose protocol did what is listed. -/
def driverLog (id : ProtocolId) (inv : Invocation) (result : ρ) : List Performed :=
  ⟨.record .start, ()⟩ :: ((Invocation.call id inv .done).log ++
    [⟨.record (.output (codec.toAllocvec result)), ()⟩, ⟨.record .stop, ()⟩])

/-- In a run with the log the protocol did what is listed. -/
structure Ran (id : ProtocolId) (run : Code (Except ε ρ)) (log : List Performed) (result : ρ)
    (inv : Invocation) : Prop where
  does : run.Does inv (.ok result)
  log_eq : log = driverLog codec id inv result

variable {codec} {id : ProtocolId} {run : Code (Except ε ρ)} {log : List Performed} {result : ρ}
  {inv inv' : Invocation}

/-- What the driver does with the protocol's output. -/
def driverEnd (codec : Postcard ρ) : Except ε ρ → Prog ρ
  | .error _ => .panic
  | .ok result => .call (.record (.output (codec.toAllocvec result))) fun _ =>
    .call (.record .stop) fun _ => .ret result

theorem drivePartyToCompletion_eq (run : Prog (Except ε ρ)) :
    drivePartyToCompletion codec id run =
      .call (.record .start) fun _ => Prog.execute id run >>= driverEnd codec := by
  refine congrArg (Prog.call _) (funext fun _ => ?_)
  refine congrArg (Prog.bind (Prog.execute id run)) (funext fun output => ?_)
  cases output <;> rfl

theorem exists_ran (h : (drivePartyToCompletion codec id run.prog).Runs log (.ret result)) :
    ∃ inv, Ran codec id run log result inv := by
  rw [drivePartyToCompletion_eq] at h
  obtain ⟨_, log, rfl, hexecute⟩ := Prog.runs_call h
  rw [Prog.execute_bind] at hexecute
  obtain ⟨_, log, rfl, hrun⟩ := Prog.runs_call hexecute
  obtain ⟨inv, output, log, hdoes, rfl, hend⟩ := run.does_of_runs hrun
  obtain ⟨_, log, rfl, houtput⟩ := Prog.runs_call hend
  cases output with
  | error e => exact absurd houtput Prog.not_runs_panic
  | ok r =>
    obtain ⟨_, log, rfl, hstop⟩ := Prog.runs_call houtput
    obtain ⟨_, log, rfl, hret⟩ := Prog.runs_call hstop
    obtain ⟨rfl, rfl⟩ := Prog.runs_ret hret
    refine ⟨inv, hdoes, ?_⟩
    simp only [driverLog, Invocation.log, List.cons_append, List.append_assoc, List.nil_append]
    rfl

theorem Ran.unique (h : Ran codec id run log result inv) (h' : Ran codec id run log result inv') :
    inv' = inv := by
  have hlog := h'.log_eq.symm.trans h.log_eq
  simp only [driverLog, Invocation.log, List.cons_append, List.append_assoc] at hlog
  exact (h'.does.unique h.does (List.cons.inj (List.cons.inj hlog).2).2).1

theorem Ran.marks (h : Ran codec id run log result inv) (me : PartyId) :
    log.filterMap (Performed.mark me) = .begins id :: (inv.marks me ++ [.ends id]) := by
  rw [h.log_eq]
  have hcall := Invocation.marks_call me id inv .done
  rw [Invocation.marks] at hcall
  have hstart : Performed.mark me ⟨.record .start, ()⟩ = none := rfl
  rw [driverLog, List.filterMap_cons_none hstart, List.filterMap_append, hcall]
  exact List.append_nil _

/-- **The three accounts of a simulation that returned agree**: a party's tree is the call tree of what
it did, the lines of `write_folded` are the tree's, and the hook has counted its bytes. -/
structure Profiled (codec : Postcard ρ) (parties : List PartyId)
    (makeProtocol : PartyId → ProtocolId × Code (Except ε ρ)) (log : Log) (s : SimState ρ) : Prop where
  party : ∀ p ∈ parties, ∃ result inv tree, s.outputs p = some result ∧
    (∀ inv', Ran codec (makeProtocol p).1 (makeProtocol p).2 (log p) result inv' ↔ inv' = inv) ∧
    bandwidthTreeFor s.sb.traces p = .ok tree ∧
    tree = ⟨"<simulation>", 0, [inv.tree p (makeProtocol p).1]⟩ ∧
    (∃ lines : List ProtocolBandwidthTree.FoldedLine,
      (∀ (W E : Type) (writeAll : W → String → Except E W) (out : W),
        tree.writeFolded writeAll out = lines.foldlM (fun out line => writeAll out line.text) out) ∧
      (lines.map (·.count)).sum = tree.total) ∧
    ((MetricHook.after s.sb.hookCalls).totalDataBy p).getD 0 = tree.total
  sum : (parties.map fun p => ((MetricHook.after s.sb.hookCalls).totalDataBy p).getD 0).sum =
    (MetricHook.after s.sb.hookCalls).totalData

/-- **Bandwidth profiling is faithful and conservative.** -/
theorem bandwidth_profiling (codec : Postcard ρ) (delay : Delay) {parties : List PartyId}
    (distinct : parties.Nodup) (makeProtocol : PartyId → ProtocolId × Code (Except ε ρ)) {log : Log}
    {s : SimState ρ} (hlogged : Logged (simulate codec delay distinct makeProtocol) log s)
    (hreturned : s.step (simulate codec delay distinct makeProtocol) = .returned) :
    Profiled codec parties makeProtocol log s := by
  have hinv := hlogged.profile
  refine ⟨fun p hp => ?_, MetricHook.after_totalData distinct hinv.own hinv.known⟩
  obtain ⟨result, houtput, hrun⟩ := hlogged.returned hreturned hp
  obtain ⟨inv, hran⟩ := exists_ran hrun
  have hmarks : (s.sb.traces p).filterMap Event.mark =
      .begins (makeProtocol p).1 :: (inv.marks p ++ [.ends (makeProtocol p).1]) :=
    (hinv.marks p).trans (hran.marks p)
  refine ⟨result, inv, _, houtput, fun inv' => ⟨fun h => hran.unique h, fun h => h ▸ hran⟩,
    bandwidthTreeFor_eq hmarks, rfl,
    ⟨_, fun W E writeAll out => ProtocolBandwidthTree.writeFolded_eq writeAll _ out,
      ProtocolBandwidthTree.sum_lines [] _⟩, ?_⟩
  rw [MetricHook.after_totalDataBy hinv.own, hinv.calls, hmarks]
  have htotal := Invocation.total_children p inv
  simp [ProtocolBandwidthTree.total, ProtocolBandwidthTree.childrenTotal, Invocation.tree, htotal,
    Mark.bytes]

end

def unitCodec : Postcard Unit := ⟨fun _ => [], fun _ => some (), fun _ => rfl⟩

def bytesPacket (bytes : List UInt8) : Packet := ⟨[⟨bytes, none⟩]⟩

/-- A party sends to the other before, in and after a sub-protocol, which also sends to itself and
fails. -/
def nested (p : PartyId) : ProtocolId × Code (Except Unit Unit) :=
  ("Root", .call (.sendTo (1 - p) (bytesPacket [1, 2])) rfl fun _ =>
    .execute "Sub" (.call (.sendTo (1 - p) (bytesPacket [3])) rfl fun _ =>
      .call (.sendTo p (bytesPacket [4, 5, 6])) rfl fun _ => .ret (Except.error () : Except Unit Unit))
    fun _ => .call (.sendTo (1 - p) (bytesPacket [7])) rfl fun _ => .ret (.ok ()))

theorem bandwidth_profiling_nested :
    ∃ log s, Profiled unitCodec [0, 1] nested log s ∧ s.outputs 0 = some () := by
  have hdistinct : [0, 1].Nodup := by decide
  let sim := simulate unitCodec (fun _ _ => 0) hdistinct nested
  have hsteps := (Option.some_get (x := (SimState.init sim).steps sim 26) rfl).symm
  obtain ⟨log, hlogged⟩ := Logged.init.steps hsteps
  exact ⟨log, _, bandwidth_profiling unitCodec _ hdistinct nested hlogged rfl, rfl⟩

end SclRs
