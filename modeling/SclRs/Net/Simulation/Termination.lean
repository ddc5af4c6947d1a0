import Mathlib.Algebra.BigOperators.Group.Finset.Piecewise
import Mathlib.Data.Prod.Lex
import SclRs.Net.Async
import SclRs.Net.Simulation.Wakeup

/-!
# Every simulation ends

Code is well founded, so the parties' tasks go on finitely often in all. Between two such steps the
executor has a bounded number of turns: a poll under way suspends, a ready task is picked, an event
wakes one task at most, and only the first poll of a timed receive adds an event. Hence every run ends,
with an answer of the executor or a panic (`simulation_ends`).
-/

namespace SclRs

variable {ρ : Type} {sim : Simulation ρ}

/-- The height of the code that is left of the task. -/
noncomputable def SimState.rank (s : SimState ρ) (id : TaskId) : Ordinal.{0} :=
  ((s.tasks id).map fun task => task.prog.rank).getD 0

/-- The timer that the task has yet to schedule for its receive. -/
def Task.timers (task : Task ρ) : Nat :=
  match task.prog with
  | .call op _ => if op.timeout?.isSome ∧ task.deadline.isNone then 1 else 0
  | _ => 0

def SimState.timers (s : SimState ρ) (id : TaskId) : Nat := ((s.tasks id).map Task.timers).getD 0

/-- The turns that the executor can take without a task going on. -/
def SimState.load (s : SimState ρ) (n : Nat) : Nat :=
  5 * ∑ id ∈ Finset.range n, s.timers id + 4 * s.sb.events.length + 2 * s.ready.length +
    s.current.toList.length

/-- What decreases: the tasks' code, then the turns until it does. -/
noncomputable def SimState.measure (sim : Simulation ρ) (s : SimState ρ) :
    (Fin sim.parties.length → Ordinal.{0}) ×ₗ Nat :=
  toLex (fun id => s.rank id, s.load sim.parties.length)

theorem SimState.measure_lt_of_goes_on {s s' : SimState ρ} (hwake : WakeInv sim s) {id : TaskId}
    {task : Task ρ} {op : NetOp} {next : op.Out → Prog ρ} {out : op.Out}
    (htask : s.tasks id = some task) (hprog : task.prog = .call op next)
    (htasks : s'.tasks = Function.update s.tasks id (some ⟨task.party, next out, none⟩)) :
    s'.measure sim < s.measure sim := by
  refine Prod.Lex.toLex_lt_toLex.mpr (.inl (Pi.lt_def.mpr ⟨fun id' => ?_, ⟨id, hwake.lt_length htask⟩, ?_⟩))
  · change s'.rank id' ≤ s.rank id'
    unfold rank
    rw [htasks]
    by_cases hid : id'.1 = id
    · have hlt : (next out).rank < task.prog.rank := hprog ▸ Prog.rank_next_lt next out
      rw [hid, Function.update_self, htask]
      exact hlt.le
    · rw [Function.update_of_ne hid]
  · have hlt : (next out).rank < task.prog.rank := hprog ▸ Prog.rank_next_lt next out
    change s'.rank id < s.rank id
    unfold rank
    rwa [htasks, Function.update_self, htask]

theorem SimState.measure_lt_of_turn {s s' : SimState ρ} (hrank : s'.rank = s.rank)
    (hload : s'.load sim.parties.length < s.load sim.parties.length) :
    s'.measure sim < s.measure sim :=
  Prod.Lex.toLex_lt_toLex.mpr (.inr ⟨by rw [hrank], hload⟩)

theorem SimState.rank_setTask (s : SimState ρ) (id : TaskId) (new : Option (Task ρ))
    (h : (new.map fun task => task.prog.rank).getD 0 = s.rank id) : (s.setTask id new).rank = s.rank := by
  funext id'
  change ((Function.update s.tasks id new id').map _).getD 0 = _
  by_cases hid : id' = id
  · rw [hid, Function.update_self, h]
  · rw [Function.update_of_ne hid]
    rfl

theorem SimState.timers_setTask (s : SimState ρ) (id : TaskId) (new : Option (Task ρ)) :
    (s.setTask id new).timers = Function.update s.timers id ((new.map Task.timers).getD 0) := by
  funext id'
  change ((Function.update s.tasks id new id').map _).getD 0 = _
  by_cases hid : id' = id
  · rw [hid, Function.update_self, Function.update_self]
  · rw [Function.update_of_ne hid, Function.update_of_ne hid]
    rfl

theorem SimState.sum_timers_setTask (s : SimState ρ) {n : Nat} {id : TaskId} (hid : id < n)
    (new : Option (Task ρ)) :
    ∑ i ∈ Finset.range n, (s.setTask id new).timers i + s.timers id =
      ∑ i ∈ Finset.range n, s.timers i + (new.map Task.timers).getD 0 := by
  rw [s.timers_setTask, Finset.sum_update_of_mem (Finset.mem_range.mpr hid),
    Finset.sdiff_singleton_eq_erase, ← Finset.add_sum_erase _ s.timers (Finset.mem_range.mpr hid)]
  ac_rfl

theorem SimState.load_lt_of_yield {s s' : SimState ρ} {id : TaskId} {n : Nat} (hcur : s.current = some id)
    (hcur' : s'.current = none) (hready : s'.ready = s.ready)
    (hevents : s'.sb.events.length = s.sb.events.length)
    (htimers : ∑ i ∈ Finset.range n, s'.timers i ≤ ∑ i ∈ Finset.range n, s.timers i) :
    s'.load n < s.load n := by
  simp only [load, hcur, hcur', hready, hevents, Option.toList_some, Option.toList_none,
    List.length_singleton, List.length_nil]
  omega

theorem Move.measure_lt {s s' : SimState ρ} (h : Move sim s s') (hwake : WakeInv sim s) :
    s'.measure sim < s.measure sim := by
  cases h with
  | sent _ htask hprog | recorded _ htask hprog | took _ htask hprog | timedOut _ htask hprog =>
    exact SimState.measure_lt_of_goes_on hwake htask hprog rfl
  | @armed id task op next t d hcur htask hprog htimeout hnone =>
    have hsum := s.sum_timers_setTask (hwake.lt_length htask) (some { task with deadline := some d })
    have hold : s.timers id = 1 := by
      simp [SimState.timers, htask, Task.timers, hprog, htimeout, hnone]
    have hnew : Task.timers { task with deadline := some d } = 0 := by
      simp [Task.timers, hprog]
    refine SimState.measure_lt_of_turn (s.rank_setTask id _ ?_) ?_
    · simp [SimState.rank, htask]
    · rw [hold, Option.map_some, Option.getD_some, hnew] at hsum
      have hevents : (s.sb.armTimer (op.awaits task.party sim.parties).head? d).events.length ≤
          s.sb.events.length + 1 := by
        unfold Switchboard.armTimer
        split
        · exact (Lib.TimeQueue.length_push _ _ _).le
        · exact Nat.le_succ _
      simp only [SimState.load]
      change 5 * ∑ i ∈ Finset.range _, (s.setTask id _).timers i + 4 * _ + 2 * s.ready.length +
        s.current.toList.length < _
      omega
  | @parked id task op next deadline hcur htask hprog _ huntimed htimed =>
    have hsum := s.sum_timers_setTask (hwake.lt_length htask) (some { task with deadline := deadline })
    have hsame : Task.timers { task with deadline := deadline } = s.timers id := by
      simp only [SimState.timers, htask, Option.map_some, Option.getD_some, Task.timers, hprog]
      cases ht : op.timeout? with
      | none => simp
      | some t => rw [(htimed (by simp [ht])).1]
    refine SimState.measure_lt_of_turn (s.rank_setTask id _ ?_) ?_
    · simp [SimState.rank, htask]
    · rw [Option.map_some, Option.getD_some, hsame] at hsum
      refine SimState.load_lt_of_yield hcur (by rfl) (by rfl) (by rfl) ?_
      show ∑ i ∈ Finset.range _, (s.setTask id _).timers i ≤ _
      omega
  | @finished id task result hcur htask hprog =>
    have hsum := s.sum_timers_setTask (hwake.lt_length htask) none
    refine SimState.measure_lt_of_turn (s.rank_setTask id _ ?_) ?_
    · simp [SimState.rank, htask, hprog, Prog.rank]
    · rw [Option.map_none, Option.getD_none] at hsum
      refine SimState.load_lt_of_yield hcur (by rfl) (by rfl) (by rfl) ?_
      show ∑ i ∈ Finset.range _, (s.setTask id _).timers i ≤ _
      omega
  | dropped hcur =>
    refine SimState.measure_lt_of_turn rfl ?_
    simp [SimState.load, hcur, SimState.timers]
  | picked hcur hready =>
    refine SimState.measure_lt_of_turn rfl ?_
    simp [SimState.load, hcur, hready, SimState.timers]
    omega
  | skipped hcur hready =>
    refine SimState.measure_lt_of_turn rfl ?_
    simp [SimState.load, hcur, hready, SimState.timers]
  | @delivered event rest hcur hready hevents =>
    refine SimState.measure_lt_of_turn rfl ?_
    have hlen : (s.sb.parked event.link).toList.length ≤ 1 := by
      cases s.sb.parked event.link <;> simp
    simp only [SimState.load, hevents, hready, hcur, s.sb.events_fire, List.length_cons,
      List.length_nil, Option.toList_none]
    change 5 * ∑ i ∈ Finset.range _, s.timers i + _ + _ + _ < _
    omega

theorem Reachable.measure_lt {s s' : SimState ρ} (h : Reachable sim s) (hstep : s.step sim = .next s') :
    s'.measure sim < s.measure sim := by
  have hmoves := step_moves hstep
  clear hstep
  induction hmoves with
  | single hmove => exact hmove.measure_lt h.wake
  | tail hmoves hmove ih =>
    exact (hmove.measure_lt (keep_of_moves hmoves h.timed h.wake).2).trans ih

theorem SimState.steps_of_steps {n : Nat} {s s' : SimState ρ}
    (h : Lib.Confluence.Steps (fun s s' => s.step sim = .next s') n s s') :
    s.steps sim n = some s' := by
  induction n generalizing s with
  | zero => exact congrArg some h
  | succ n ih =>
    obtain ⟨t, hstep, hrest⟩ := h
    rw [steps, hstep]
    exact ih hrest

/-- **Every simulation ends.** -/
theorem simulation_ends (sim : Simulation ρ) :
    ∃ n s, (SimState.init sim).steps sim n = some s ∧ ∀ s', s.step sim ≠ .next s' := by
  obtain ⟨n, s, hrun, hstuck⟩ := Lib.Confluence.exists_stuck
    (I := Reachable sim)
    (SimState.measure sim) (fun _ _ hs hstep => ⟨hs.step hstep, hs.measure_lt hstep⟩) .init
  exact ⟨n, s, SimState.steps_of_steps hrun, hstuck⟩

end SclRs
