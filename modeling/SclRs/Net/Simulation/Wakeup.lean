import Mathlib.Data.Finset.Card
import SclRs.Net.Simulation.Causality

/-!
# Wake-ups and deadlock

A task that is neither being polled nor ready is suspended in a receive. `WakeInv` says that its waker
is parked on exactly the links it awaits, whose queues are empty, and that a timed one has its timer in
the heap until the poll which the timer wakes. Every waker parked on a link belongs to the link's
recipient, so one task's receives never touch the wakers of another.
-/

namespace SclRs

variable {ρ : Type} {sim : Simulation ρ}

/-- The task is being polled or waits for its poll. -/
def SimState.Active (s : SimState ρ) (id : TaskId) : Prop := s.current = some id ∨ id ∈ s.ready

theorem NetOp.awaits_nil_of_not_isRecv {op : NetOp} (h : op.isRecv = false) (me : PartyId)
    (parties : List PartyId) : op.awaits me parties = [] := by
  cases op <;> first | rfl | cases h

theorem NetOp.isRecv_of_timeout? {op : NetOp} (h : op.timeout? ≠ none) : op.isRecv = true := by
  cases op <;> first | rfl | exact absurd rfl h

theorem NetOp.isAny_of_mem_awaits {op : NetOp} {me : PartyId} {parties : List PartyId} {l l' : Link}
    (h : l ∈ op.awaits me parties) (h' : l' ∈ op.awaits me parties) (hne : l ≠ l') :
    op.isAny = true := by
  cases op with
  | recvAny | recvAnyWithTimeout => rfl
  | recvFrom | recvFromWithTimeout =>
    exact absurd ((List.mem_singleton.mp h).trans (List.mem_singleton.mp h').symm) hne
  | sendTo | record => exact absurd h List.not_mem_nil

theorem NetOp.exists_head?_awaits {op : NetOp} {me : PartyId} {parties : List PartyId}
    (hop : op.isRecv = true) (hme : me ∈ parties) :
    ∃ link, (op.awaits me parties).head? = some link := by
  cases op with
  | recvFrom | recvFromWithTimeout => exact ⟨_, rfl⟩
  | recvAny | recvAnyWithTimeout =>
    obtain ⟨p, rest, rfl⟩ := List.exists_cons_of_ne_nil (List.ne_nil_of_mem hme)
    exact ⟨_, rfl⟩
  | sendTo | record => cases hop

/-- The ids below `n` of the unfinished tasks. -/
def SimState.unfinished (s : SimState ρ) (n : Nat) : Finset TaskId :=
  (Finset.range n).filter fun id => (s.tasks id).isSome

theorem SimState.unfinished_congr {s s' : SimState ρ} {n : Nat}
    (h : ∀ id, s'.tasks id = none ↔ s.tasks id = none) : s'.unfinished n = s.unfinished n :=
  Finset.filter_congr fun id _ => by simp [Option.isSome_iff_ne_none, h id]

theorem SimState.setTask_eq_none {s : SimState ρ} {id : TaskId} {task : Task ρ}
    (htask : s.tasks id = some task) (new : Task ρ) (id' : TaskId) :
    (s.setTask id (some new)).tasks id' = none ↔ s.tasks id' = none := by
  change Function.update s.tasks id (some new) id' = none ↔ _
  by_cases hid : id' = id
  · subst hid
    simp [htask]
  · rw [Function.update_of_ne hid]

theorem Switchboard.msgQueues_fire_of_ne (sb : Switchboard) (event : ScheduledEvent)
    (rest : List ScheduledEvent) {l : Link} (hl : l ≠ event.link) :
    (sb.fire event rest).msgQueues l = sb.msgQueues l := by
  obtain ⟨arrival, seq, link, kind⟩ := event
  cases kind with
  | timer => rfl
  | delivery packet => exact Function.update_of_ne hl _ _

theorem Switchboard.events_fire (sb : Switchboard) (event : ScheduledEvent)
    (rest : List ScheduledEvent) : (sb.fire event rest).events = rest := by
  obtain ⟨arrival, seq, link, kind⟩ := event
  cases kind <;> rfl

/-- An unfinished task in a receive with wakers, queues and timer as they should be. -/
structure Suspended (sim : Simulation ρ) (s : SimState ρ) (id : TaskId) (task : Task ρ) (op : NetOp) :
    Prop where
  receives : op.isRecv = true
  parked : ∀ l ∈ op.awaits task.party sim.parties, s.sb.parked l = some id
  empty : ∀ l ∈ op.awaits task.party sim.parties, s.sb.msgQueues l = []
  timed : op.timeout? ≠ none → task.deadline ≠ none

/-- The timer of a receive that began with deadline `d`. -/
def SimState.HasTimer (sim : Simulation ρ) (s : SimState ρ) (task : Task ρ) (op : NetOp)
    (d : Duration) : Prop :=
  ∃ e ∈ s.sb.events, e.kind = .timer ∧ e.arrival = d ∧
    (op.awaits task.party sim.parties).head? = some e.link

structure WakeInv (sim : Simulation ρ) (s : SimState ρ) : Prop where
  party : ∀ id task, s.tasks id = some task → sim.parties[id]? = some task.party
  unfinished : ∀ id, s.Active id → s.tasks id ≠ none
  nodup : (s.current.toList ++ s.ready).Nodup
  remaining : s.remaining = (s.unfinished sim.parties.length).card
  parked : ∀ l id, s.sb.parked l = some id → ∃ task op next, s.tasks id = some task ∧
    task.prog = .call op next ∧ l ∈ op.awaits task.party sim.parties ∧
    (s.Active id → op.isAny = true)
  waiting : ∀ id task, s.tasks id = some task → ¬ s.Active id →
    ∃ op next, task.prog = .call op next ∧ Suspended sim s id task op
  timed : ∀ id task d, s.tasks id = some task → task.deadline = some d →
    ∃ op next, task.prog = .call op next ∧ op.timeout? ≠ none ∧ s.hist.now ≤ d ∧
      (s.HasTimer sim task op d ∨ s.Active id ∧ s.hist.now = d)

namespace WakeInv

theorem init (sim : Simulation ρ) : WakeInv sim (.init sim) where
  party id task h := by
    obtain ⟨p, hp, rfl⟩ := Option.map_eq_some_iff.mp h
    exact hp
  unfinished id hid := by
    have hlt : id < sim.parties.length := by
      simpa [SimState.Active, SimState.init] using hid
    simp [SimState.init, List.getElem?_eq_getElem hlt]
  nodup := List.nodup_range
  remaining := by
    rw [SimState.unfinished, Finset.filter_true_of_mem, Finset.card_range]
    · rfl
    · intro id hid
      simp [SimState.init, List.getElem?_eq_getElem (Finset.mem_range.mp hid)]
  parked l id h := by cases h
  waiting id task h hid := by
    refine absurd (Or.inr (List.mem_range.mpr ?_)) hid
    obtain ⟨p, hp, -⟩ := Option.map_eq_some_iff.mp h
    exact (List.getElem?_eq_some_iff.mp hp).1
  timed id task d h hd := by
    obtain ⟨p, -, rfl⟩ := Option.map_eq_some_iff.mp h
    cases hd

variable {s : SimState ρ}

theorem mem_parties (h : WakeInv sim s) {id : TaskId} {task : Task ρ}
    (htask : s.tasks id = some task) : task.party ∈ sim.parties :=
  List.mem_of_getElem? (h.party id task htask)

theorem eq_of_party_eq (h : WakeInv sim s) {id id' : TaskId} {task task' : Task ρ}
    (htask : s.tasks id = some task) (htask' : s.tasks id' = some task')
    (hparty : task.party = task'.party) : id = id' := by
  obtain ⟨hlt, hget⟩ := List.getElem?_eq_some_iff.mp (h.party id task htask)
  obtain ⟨hlt', hget'⟩ := List.getElem?_eq_some_iff.mp (h.party id' task' htask')
  exact (sim.distinct.getElem_inj_iff).mp (hget.trans (hparty.trans hget'.symm))

theorem id_of_parked (h : WakeInv sim s) {l : Link} {id id' : TaskId} {task : Task ρ}
    (htask : s.tasks id = some task) (hl : l.recipient = task.party)
    (hparked : s.sb.parked l = some id') : id' = id := by
  obtain ⟨task', op, next, htask', -, hmem, -⟩ := h.parked l id' hparked
  exact h.eq_of_party_eq htask' htask (by rw [← NetOp.recipient_of_mem_awaits hmem, hl])

theorem lt_length (h : WakeInv sim s) {id : TaskId} {task : Task ρ}
    (htask : s.tasks id = some task) : id < sim.parties.length :=
  (List.getElem?_eq_some_iff.mp (h.party id task htask)).1

/-! ### The moves of a poll -/

theorem isAny_of_parked (h : WakeInv sim s) {id : TaskId} {task : Task ρ} {op : NetOp}
    {next : op.Out → Prog ρ} (hcur : s.current = some id) (htask : s.tasks id = some task)
    (hprog : task.prog = .call op next) {l : Link} (hparked : s.sb.parked l = some id) :
    op.isAny = true ∧ l ∈ op.awaits task.party sim.parties := by
  obtain ⟨task', op', next', htask', hprog', hmem, hany⟩ := h.parked l id hparked
  obtain rfl := Option.some.inj (htask.symm.trans htask')
  obtain ⟨rfl, -⟩ := Prog.call.inj (hprog.symm.trans hprog')
  exact ⟨hany (.inl hcur), hmem⟩

theorem parked_release_iff (h : WakeInv sim s) {id : TaskId} {task : Task ρ} {op : NetOp}
    {next : op.Out → Prog ρ} (hcur : s.current = some id) (htask : s.tasks id = some task)
    (hprog : task.prog = .call op next) (l : Link) (id' : TaskId) :
    (s.sb.release task.party sim.parties op).parked l = some id' ↔
      s.sb.parked l = some id' ∧ id' ≠ id := by
  constructor
  · intro hl
    refine ⟨Switchboard.parked_release hl, fun hid => ?_⟩
    subst hid
    obtain ⟨hany, hmem⟩ := h.isAny_of_parked hcur htask hprog (Switchboard.parked_release hl)
    simp only [Switchboard.release, hany, if_true] at hl
    change setAll s.sb.parked (Switchboard.inbound task.party sim.parties) none l = _ at hl
    have hinbound : l ∈ Switchboard.inbound task.party sim.parties := by
      cases op <;> first | exact hmem | cases hany
    simp [setAll_apply, hinbound] at hl
  · rintro ⟨hl, hne⟩
    unfold Switchboard.release
    split_ifs
    · change setAll s.sb.parked (Switchboard.inbound task.party sim.parties) none l = _
      rw [setAll_apply, if_neg, hl]
      intro hmem
      obtain ⟨p, -, rfl⟩ := List.mem_map.mp hmem
      exact hne (h.id_of_parked htask rfl hl)
    · exact hl

theorem resolved (h : WakeInv sim s) {id : TaskId} {task : Task ρ} {prog : Prog ρ} {s' : SimState ρ}
    (hcur : s.current = some id) (htask : s.tasks id = some task) (hcur' : s'.current = s.current)
    (hready : s'.ready = s.ready) (hremaining : s'.remaining = s.remaining)
    (htasks : s'.tasks = (s.setTask id (some ⟨task.party, prog, none⟩)).tasks)
    (hparked : ∀ l id', s'.sb.parked l = some id' ↔ s.sb.parked l = some id' ∧ id' ≠ id)
    (hqueues : ∀ l, l.recipient ≠ task.party → s'.sb.msgQueues l = s.sb.msgQueues l)
    (hevents : ∀ e ∈ s.sb.events, e ∈ s'.sb.events) (hnow : s'.hist.now = s.hist.now) :
    WakeInv sim s' := by
  have hactive : ∀ id', s'.Active id' ↔ s.Active id' := by
    intro id'
    rw [SimState.Active, SimState.Active, hcur', hready]
  have hself : s'.tasks id = some ⟨task.party, prog, none⟩ := by
    rw [htasks]
    exact Function.update_self _ _ _
  have hother : ∀ id', id' ≠ id → s'.tasks id' = s.tasks id' := by
    intro id' hne
    rw [htasks]
    exact Function.update_of_ne hne _ _
  refine ⟨?_, ?_, ?_, ?_, ?_, ?_, ?_⟩
  · intro id' task' htask'
    by_cases hid : id' = id
    · subst hid
      rw [← Option.some.inj (hself.symm.trans htask')]
      exact h.party id' task htask
    · exact h.party id' task' (hother id' hid ▸ htask')
  · intro id' hid'
    by_cases hid : id' = id
    · subst hid
      simp [hself]
    · rw [hother id' hid]
      exact h.unfinished id' ((hactive id').mp hid')
  · rw [hcur', hready]
    exact h.nodup
  · rw [hremaining, h.remaining, SimState.unfinished_congr fun id' => ?_]
    rw [htasks]
    exact (SimState.setTask_eq_none htask _ id').symm
  · intro l id' hl
    obtain ⟨hl, hne⟩ := (hparked l id').mp hl
    obtain ⟨task', op, next, htask', hprog, hmem, hany⟩ := h.parked l id' hl
    exact ⟨task', op, next, hother id' hne ▸ htask', hprog, hmem,
      fun ha => hany ((hactive id').mp ha)⟩
  · intro id' task' htask' hid'
    have hne : id' ≠ id := fun he => hid' ((hactive id').mpr (he ▸ .inl hcur))
    rw [hother id' hne] at htask'
    obtain ⟨op, next, hprog, hs⟩ := h.waiting id' task' htask' fun ha => hid' ((hactive id').mpr ha)
    refine ⟨op, next, hprog, hs.receives, fun l hl => (hparked l id').mpr ⟨hs.parked l hl, hne⟩,
      fun l hl => ?_, hs.timed⟩
    rw [hqueues l fun he => hne (h.eq_of_party_eq htask' htask
      ((NetOp.recipient_of_mem_awaits hl).symm.trans he))]
    exact hs.empty l hl
  · intro id' task' d htask' hd
    by_cases hid : id' = id
    · subst hid
      rw [← Option.some.inj (hself.symm.trans htask')] at hd
      cases hd
    · rw [hother id' hid] at htask'
      obtain ⟨op, next, hprog, hop, hle, htimer⟩ := h.timed id' task' d htask' hd
      refine ⟨op, next, hprog, hop, hnow ▸ hle, ?_⟩
      rcases htimer with ⟨e, he, htimer⟩ | ⟨ha, hn⟩
      · exact .inl ⟨e, hevents e he, htimer⟩
      · exact .inr ⟨(hactive id').mpr ha, hnow ▸ hn⟩

theorem armed (h : WakeInv sim s) (hawake : AwakeInv s) {id : TaskId} {task : Task ρ} {op : NetOp}
    {next : op.Out → Prog ρ} {t d : Duration} (hcur : s.current = some id)
    (htask : s.tasks id = some task) (hprog : task.prog = .call op next) (ht : op.timeout? = some t)
    (hadd : Duration.checkedAdd (s.sb.clockOf task.party) t = some d) :
    WakeInv sim { s.setTask id (some { task with deadline := some d }) with
      sb := s.sb.armTimer (op.awaits task.party sim.parties).head? d } := by
  have hop : op.timeout? ≠ none := by simp [ht]
  obtain ⟨link, hlink⟩ := NetOp.exists_head?_awaits (NetOp.isRecv_of_timeout? hop)
    (h.mem_parties htask)
  rw [hlink]
  have hnow : s.hist.now ≤ d := by
    rw [← hawake.awake id task (.inl hcur) htask, (Duration.checkedAdd_eq_some.mp hadd).1]
    exact Nat.le_add_right _ _
  have hself : (s.setTask id (some { task with deadline := some d })).tasks id =
      some { task with deadline := some d } := Function.update_self _ _ _
  have hother : ∀ id', id' ≠ id →
      (s.setTask id (some { task with deadline := some d })).tasks id' = s.tasks id' :=
    fun id' hne => Function.update_of_ne hne _ _
  refine ⟨?_, ?_, h.nodup, ?_, ?_, ?_, ?_⟩
  · intro id' task' htask'
    obtain ⟨task₀, htask₀, hparty⟩ :=
      SimState.party_of_setTask htask (show ({ task with deadline := some d } : Task ρ).party = _ from rfl)
        id' task' htask'
    exact hparty ▸ h.party id' task₀ htask₀
  · intro id' hid'
    by_cases hid : id' = id
    · subst hid
      exact ne_of_eq_of_ne hself (Option.some_ne_none _)
    · exact ne_of_eq_of_ne (hother id' hid) (h.unfinished id' hid')
  · exact h.remaining.trans (congrArg Finset.card (SimState.unfinished_congr
      (SimState.setTask_eq_none htask _)).symm)
  · intro l id' hl
    obtain ⟨task', op', next', htask', hprog', hmem, hany⟩ := h.parked l id' hl
    by_cases hid : id' = id
    · subst hid
      obtain rfl := Option.some.inj (htask.symm.trans htask')
      exact ⟨_, op', next', hself, hprog', hmem, hany⟩
    · exact ⟨task', op', next', hother id' hid ▸ htask', hprog', hmem, hany⟩
  · intro id' task' htask' hid'
    have hne : id' ≠ id := fun he => hid' (.inl (he ▸ hcur))
    obtain ⟨op', next', hprog', hs⟩ := h.waiting id' task' (hother id' hne ▸ htask') hid'
    exact ⟨op', next', hprog', hs.receives, hs.parked, hs.empty, hs.timed⟩
  · intro id' task' d' htask' hd'
    by_cases hid : id' = id
    · subst hid
      obtain rfl := Option.some.inj (hself.symm.trans htask')
      obtain rfl := Option.some.inj hd'
      exact ⟨op, next, hprog, hop, hnow, .inl ⟨_, (Lib.TimeQueue.mem_push _).mpr (.inl rfl), rfl, rfl,
        hlink⟩⟩
    · obtain ⟨op', next', hprog', hop', hle, htimer⟩ :=
        h.timed id' task' d' (hother id' hid ▸ htask') hd'
      refine ⟨op', next', hprog', hop', hle, htimer.imp_left ?_⟩
      rintro ⟨e, he, htimer⟩
      exact ⟨e, (Lib.TimeQueue.mem_push _).mpr (.inr he), htimer⟩

theorem notMem_ready (h : WakeInv sim s) {id : TaskId} (hcur : s.current = some id) :
    id ∉ s.ready := by
  have hnodup := h.nodup
  rw [hcur] at hnodup
  exact (List.nodup_cons.mp hnodup).1

theorem suspended (h : WakeInv sim s) (hawake : AwakeInv s) {id : TaskId} {task : Task ρ} {op : NetOp}
    {next : op.Out → Prog ρ} {deadline : Option Duration} (hcur : s.current = some id)
    (htask : s.tasks id = some task) (hprog : task.prog = .call op next) (hrecv : op.isRecv = true)
    (huntimed : op.timeout? = none → deadline = none)
    (htimed : op.timeout? ≠ none → deadline = task.deadline ∧ deadline ≠ none)
    (hempty : ∀ l ∈ op.awaits task.party sim.parties, s.sb.msgQueues l = [])
    (hlt : ∀ d, deadline = some d → s.sb.clockOf task.party < d) :
    WakeInv sim { s.setTask id (some { task with deadline := deadline }) with
      sb := s.sb.parkOn (op.awaits task.party sim.parties) id
      current := none } := by
  have hself : (s.setTask id (some { task with deadline := deadline })).tasks id =
      some { task with deadline := deadline } := Function.update_self _ _ _
  have hother : ∀ id', id' ≠ id →
      (s.setTask id (some { task with deadline := deadline })).tasks id' = s.tasks id' :=
    fun id' hne => Function.update_of_ne hne _ _
  have hparked : ∀ l, (s.sb.parkOn (op.awaits task.party sim.parties) id).parked l =
      if l ∈ op.awaits task.party sim.parties then some id else s.sb.parked l :=
    fun l => setAll_apply _ _ _ _
  have hready : ∀ id', id' ≠ id → s.Active id' → id' ∈ s.ready := by
    rintro id' hne (ha | ha)
    · exact absurd (Option.some.inj (ha.symm.trans hcur)) hne
    · exact ha
  refine ⟨?_, ?_, ?_, ?_, ?_, ?_, ?_⟩
  · intro id' task' htask'
    obtain ⟨task₀, htask₀, hparty⟩ := SimState.party_of_setTask htask
      (show ({ task with deadline := deadline } : Task ρ).party = _ from rfl) id' task' htask'
    exact hparty ▸ h.party id' task₀ htask₀
  · rintro id' (hid' | hid')
    · cases hid'
    · exact mt (SimState.setTask_eq_none htask _ id').mp (h.unfinished id' (.inr hid'))
  · exact h.nodup.sublist (List.sublist_append_right _ _)
  · exact h.remaining.trans (congrArg Finset.card (SimState.unfinished_congr
      (SimState.setTask_eq_none htask _)).symm)
  · intro l id' hl
    rw [hparked] at hl
    split_ifs at hl with hmem
    · obtain rfl := Option.some.inj hl
      refine ⟨_, op, next, hself, hprog, hmem, ?_⟩
      rintro (ha | ha)
      · cases ha
      · exact absurd ha (h.notMem_ready hcur)
    · have hne : id' ≠ id := fun he =>
        hmem (h.isAny_of_parked hcur htask hprog (he ▸ hl)).2
      obtain ⟨task', op', next', htask', hprog', hmem', hany⟩ := h.parked l id' hl
      exact ⟨task', op', next', (hother id' hne).trans htask', hprog', hmem',
        fun ha => hany (ha.elim nofun .inr)⟩
  · intro id' task' htask' hid'
    by_cases hid : id' = id
    · subst hid
      obtain rfl := Option.some.inj (hself.symm.trans htask')
      exact ⟨op, next, hprog, hrecv, fun l hl => (hparked l).trans (if_pos hl), hempty,
        fun ht => (htimed ht).2⟩
    · have htask₀ := (hother id' hid).symm.trans htask'
      obtain ⟨op', next', hprog', hs⟩ := h.waiting id' task' htask₀
        fun ha => hid' (.inr (hready id' hid ha))
      refine ⟨op', next', hprog', hs.receives, fun l hl => ?_, hs.empty, hs.timed⟩
      rw [hparked, if_neg, hs.parked l hl]
      intro hmem
      exact hid (h.eq_of_party_eq htask₀ htask ((NetOp.recipient_of_mem_awaits hl).symm.trans
        (NetOp.recipient_of_mem_awaits hmem)))
  · intro id' task' d htask' hd
    by_cases hid : id' = id
    · subst hid
      obtain rfl := Option.some.inj (hself.symm.trans htask')
      have hd : deadline = some d := hd
      have ht : op.timeout? ≠ none := fun hn => by simp [huntimed hn] at hd
      obtain ⟨op', next', hprog', hop', hle, htimer⟩ := h.timed id' task d htask
        ((htimed ht).1 ▸ hd)
      obtain ⟨rfl, -⟩ := Prog.call.inj (hprog.symm.trans hprog')
      refine ⟨op, next, hprog, ht, hle, .inl ?_⟩
      rcases htimer with htimer | ⟨-, hnow⟩
      · exact htimer
      · -- at its deadline the receive would have timed out
        have hclock := hlt d hd
        rw [hawake.awake id' task (.inl hcur) htask, hnow] at hclock
        exact absurd hclock (lt_irrefl d)
    · obtain ⟨op', next', hprog', hop', hle, htimer⟩ :=
        h.timed id' task' d ((hother id' hid).symm.trans htask') hd
      refine ⟨op', next', hprog', hop', hle, htimer.imp_right fun ha => ⟨?_, ha.2⟩⟩
      exact .inr (hready id' hid ha.1)

theorem finished (h : WakeInv sim s) {id : TaskId} {task : Task ρ} {result : ρ}
    (hcur : s.current = some id) (htask : s.tasks id = some task) (hprog : task.prog = .ret result) :
    WakeInv sim { s.setTask id none with
      remaining := s.remaining - 1
      current := none
      outputs := Function.update s.outputs task.party (some result) } := by
  have hself : (s.setTask id none).tasks id = none := Function.update_self _ _ _
  have hother : ∀ id', id' ≠ id → (s.setTask id none).tasks id' = s.tasks id' :=
    fun id' hne => Function.update_of_ne hne _ _
  have hne : ∀ id' task', (s.setTask id none).tasks id' = some task' →
      id' ≠ id ∧ s.tasks id' = some task' := by
    intro id' task' htask'
    by_cases hid : id' = id
    · subst hid
      cases hself.symm.trans htask'
    · exact ⟨hid, (hother id' hid).symm.trans htask'⟩
  have hready : ∀ id', id' ≠ id → s.Active id' → id' ∈ s.ready := by
    rintro id' hne (ha | ha)
    · exact absurd (Option.some.inj (ha.symm.trans hcur)) hne
    · exact ha
  refine ⟨fun id' task' htask' => h.party id' task' (hne id' task' htask').2, ?_, ?_, ?_, ?_, ?_, ?_⟩
  · rintro id' (hid' | hid')
    · cases hid'
    · have hid : id' ≠ id := fun he => h.notMem_ready hcur (he ▸ hid')
      exact ne_of_eq_of_ne (hother id' hid) (h.unfinished id' (.inr hid'))
  · exact h.nodup.sublist (List.sublist_append_right _ _)
  · have herase : (s.setTask id none).unfinished sim.parties.length =
        (s.unfinished sim.parties.length).erase id := by
      ext id'
      by_cases hid : id' = id
      · subst hid
        simp [SimState.unfinished, hself]
      · simp [SimState.unfinished, hother id' hid, hid]
    have hmem : id ∈ s.unfinished sim.parties.length := by
      simp [SimState.unfinished, h.lt_length htask, htask]
    change s.remaining - 1 = ((s.setTask id none).unfinished sim.parties.length).card
    rw [herase, Finset.card_erase_of_mem hmem, h.remaining]
  · intro l id' hl
    obtain ⟨task', op, next, htask', hprog', hmem, hany⟩ := h.parked l id' hl
    have hid : id' ≠ id := by
      rintro rfl
      obtain rfl := Option.some.inj (htask.symm.trans htask')
      cases hprog.symm.trans hprog'
    exact ⟨task', op, next, (hother id' hid).trans htask', hprog', hmem,
      fun ha => hany (ha.elim nofun .inr)⟩
  · intro id' task' htask' hid'
    obtain ⟨hid, htask₀⟩ := hne id' task' htask'
    obtain ⟨op, next, hprog', hs⟩ := h.waiting id' task' htask₀
      fun ha => hid' (.inr (hready id' hid ha))
    exact ⟨op, next, hprog', hs.receives, hs.parked, hs.empty, hs.timed⟩
  · intro id' task' d htask' hd
    obtain ⟨hid, htask₀⟩ := hne id' task' htask'
    obtain ⟨op, next, hprog', hop, hle, htimer⟩ := h.timed id' task' d htask₀ hd
    exact ⟨op, next, hprog', hop, hle, htimer.imp_right fun ha => ⟨.inr (hready id' hid ha.1), ha.2⟩⟩

/-! ### The turns of the executor -/

theorem picked (h : WakeInv sim s) {id : TaskId} {ready : List TaskId} (hcur : s.current = none)
    (hready : s.ready = id :: ready) : WakeInv sim { s with ready := ready, current := some id } := by
  have hactive : ∀ id', SimState.Active { s with ready := ready, current := some id } id' ↔
      s.Active id' := by
    intro id'
    simp only [SimState.Active, hcur, hready, List.mem_cons, Option.some.injEq, reduceCtorEq,
      false_or]
    exact or_congr_left eq_comm
  refine ⟨h.party, fun id' hid' => h.unfinished id' ((hactive id').mp hid'), ?_, h.remaining, ?_, ?_,
    ?_⟩
  · have hnodup := h.nodup
    rw [hcur, hready] at hnodup
    exact hnodup
  · intro l id' hl
    obtain ⟨task, op, next, htask, hprog, hmem, hany⟩ := h.parked l id' hl
    exact ⟨task, op, next, htask, hprog, hmem, fun ha => hany ((hactive id').mp ha)⟩
  · intro id' task htask hid'
    obtain ⟨op, next, hprog, hs⟩ := h.waiting id' task htask fun ha => hid' ((hactive id').mpr ha)
    exact ⟨op, next, hprog, hs.receives, hs.parked, hs.empty, hs.timed⟩
  · intro id' task d htask hd
    obtain ⟨op, next, hprog, hop, hle, htimer⟩ := h.timed id' task d htask hd
    exact ⟨op, next, hprog, hop, hle, htimer.imp_right fun ha => ⟨(hactive id').mpr ha.1, ha.2⟩⟩

theorem delivered (h : WakeInv sim s) {event : ScheduledEvent}
    {rest : List ScheduledEvent} (hcur : s.current = none) (hready : s.ready = [])
    (hevents : s.sb.events = event :: rest)
    (hordered : Lib.TimeQueue.Ordered ScheduledEvent.key s.sb.events) :
    WakeInv sim { s with
      sb := { s.sb.fire event rest with
        parked := Function.update s.sb.parked event.link none }
      ready := (s.sb.parked event.link).toList
      hist := s.hist.pushPopped event.arrival } := by
  have hidle : ∀ id, ¬ s.Active id := by
    rintro id (ha | ha)
    · cases hcur.symm.trans ha
    · rw [hready] at ha
      cases ha
  have hparked : ∀ l id, Function.update s.sb.parked event.link none l = some id ↔
      l ≠ event.link ∧ s.sb.parked l = some id := by
    intro l id
    by_cases hl : l = event.link
    · subst hl
      simp
    · simp [hl]
  refine ⟨h.party, ?_, ?_, h.remaining, ?_, ?_, ?_⟩
  · rintro id (hid | hid)
    · cases hcur.symm.trans hid
    · obtain ⟨task, op, next, htask, -⟩ := h.parked event.link id (by simpa using hid)
      simp [htask]
  · change (s.current.toList ++ (s.sb.parked event.link).toList).Nodup
    rw [hcur]
    cases s.sb.parked event.link <;> simp
  · intro l id hl
    obtain ⟨hne, hl⟩ := (hparked l id).mp hl
    obtain ⟨task, op, next, htask, hprog, hmem, -⟩ := h.parked l id hl
    refine ⟨task, op, next, htask, hprog, hmem, ?_⟩
    rintro (ha | ha)
    · cases hcur.symm.trans ha
    · obtain ⟨task', op', next', htask', hprog', hmem', -⟩ :=
        h.parked event.link id (by simpa using ha)
      obtain rfl := Option.some.inj (htask.symm.trans htask')
      obtain ⟨rfl, -⟩ := Prog.call.inj (hprog.symm.trans hprog')
      exact NetOp.isAny_of_mem_awaits hmem hmem' hne
  · intro id task htask hid
    obtain ⟨op, next, hprog, hs⟩ := h.waiting id task htask (hidle id)
    have hne : ∀ l ∈ op.awaits task.party sim.parties, l ≠ event.link := by
      rintro l hl rfl
      exact hid (.inr (by simpa using hs.parked _ hl))
    refine ⟨op, next, hprog, hs.receives,
      fun l hl => (hparked l id).mpr ⟨hne l hl, hs.parked l hl⟩, fun l hl => ?_, hs.timed⟩
    exact (Switchboard.msgQueues_fire_of_ne _ _ _ (hne l hl)).trans (hs.empty l hl)
  · intro id task d htask hd
    obtain ⟨op, next, hprog, hop, -, htimer⟩ := h.timed id task d htask hd
    obtain ⟨e, he, hkind, harrival, hlink⟩ := htimer.resolve_right fun ha => hidle id ha.1
    refine ⟨op, next, hprog, hop, ?_⟩
    rw [History.now_pushPopped]
    rw [hevents] at he hordered
    have hle := ScheduledEvent.arrival_le (Lib.TimeQueue.Ordered.head_key_le _ hordered e he)
    rw [harrival] at hle
    refine ⟨hle, ?_⟩
    rcases List.mem_cons.mp he with rfl | he
    · -- the timer itself: it wakes the receive at the deadline
      obtain ⟨op', next', hprog', hs⟩ := h.waiting id task htask (hidle id)
      obtain ⟨rfl, -⟩ := Prog.call.inj (hprog.symm.trans hprog')
      have hwake := hs.parked e.link (List.mem_of_mem_head? hlink)
      exact .inr ⟨.inr (by simp [hwake]), harrival⟩
    · refine .inl ⟨e, ?_, hkind, harrival, hlink⟩
      exact (Switchboard.events_fire _ _ _).symm ▸ he

end WakeInv

theorem Move.wake {s s' : SimState ρ} (h : Move sim s s') (htimed : TimedInv sim s)
    (hinv : WakeInv sim s) : WakeInv sim s' := by
  have hnone : ∀ {id : TaskId} {task : Task ρ} {op : NetOp} {next : op.Out → Prog ρ},
      s.current = some id → s.tasks id = some task → task.prog = .call op next →
      op.isRecv = false → ∀ l id', s.sb.parked l = some id' ↔ s.sb.parked l = some id' ∧ id' ≠ id := by
    intro id task op next hcur htask hprog hop l id'
    refine ⟨fun hl => ⟨hl, ?_⟩, And.left⟩
    rintro rfl
    have hmem := (hinv.isAny_of_parked hcur htask hprog hl).2
    rw [NetOp.awaits_nil_of_not_isRecv hop] at hmem
    cases hmem
  cases h with
  | sent hcur htask hprog =>
    exact hinv.resolved hcur htask rfl rfl rfl rfl (hnone hcur htask hprog rfl) (fun _ _ => rfl)
      (fun e he => (Lib.TimeQueue.mem_push _).mpr (.inr he)) rfl
  | recorded hcur htask hprog =>
    exact hinv.resolved hcur htask rfl rfl rfl rfl (hnone hcur htask hprog rfl) (fun _ _ => rfl)
      (fun _ he => he) rfl
  | armed hcur htask hprog ht _ hadd => exact hinv.armed htimed.awake hcur htask hprog ht hadd
  | @took id task op next link packet queue out hcur htask hprog _ hmem =>
    refine hinv.resolved hcur htask rfl rfl rfl rfl (hinv.parked_release_iff hcur htask hprog)
      (fun l hl => ?_) (fun e he => ?_) rfl
    · have hne : l ≠ link := by
        rintro rfl
        exact hl (NetOp.recipient_of_mem_awaits hmem)
      refine (Function.update_of_ne hne _ _).trans ?_
      unfold Switchboard.release
      split_ifs <;> rfl
    · change e ∈ (s.sb.release task.party sim.parties op).events
      unfold Switchboard.release
      split_ifs <;> exact he
  | @timedOut id task op next d out hcur htask hprog =>
    refine hinv.resolved hcur htask rfl rfl rfl rfl (hinv.parked_release_iff hcur htask hprog)
      (fun l _ => ?_) (fun e he => ?_) rfl
    · unfold Switchboard.release
      split_ifs <;> rfl
    · unfold Switchboard.release
      split_ifs <;> exact he
  | parked hcur htask hprog hrecv huntimed htimed' hempty hlt =>
    exact hinv.suspended htimed.awake hcur htask hprog hrecv huntimed htimed' hempty hlt
  | finished hcur htask hprog => exact hinv.finished hcur htask hprog
  | dropped hcur htask => exact absurd htask (hinv.unfinished _ (.inl hcur))
  | picked hcur hready => exact hinv.picked hcur hready
  | skipped hcur hready htask =>
    exact absurd htask (hinv.unfinished _ (.inr (hready ▸ List.mem_cons_self)))
  | delivered hcur hready hevents =>
    exact hinv.delivered hcur hready hevents htimed.fifo.ordered

theorem keep_of_moves {s s' : SimState ρ} (h : Relation.TransGen (Move sim) s s') (htimed : TimedInv sim s)
    (hwake : WakeInv sim s) : TimedInv sim s' ∧ WakeInv sim s' := by
  induction h with
  | single hmove => exact ⟨hmove.timed htimed, hmove.wake htimed hwake⟩
  | tail _ hmove ih => exact ⟨hmove.timed ih.1, hmove.wake ih.1 ih.2⟩

theorem Reachable.wake {s : SimState ρ} (h : Reachable sim s) : WakeInv sim s :=
  (h.induct (I := fun s => TimedInv sim s ∧ WakeInv sim s) ⟨.init sim, .init sim⟩
    fun _ _ hmove hinv => ⟨hmove.timed hinv.1, hmove.wake hinv.1 hinv.2⟩).2

/-! ### What the executor answers -/

/-- No task is being polled and none is ready. -/
def SimState.Idle (s : SimState ρ) : Prop := s.current = none ∧ s.ready = []

theorem WakeInv.remaining_eq_zero {s : SimState ρ} (h : WakeInv sim s) :
    s.remaining = 0 ↔ ∀ id, s.tasks id = none := by
  rw [h.remaining, Finset.card_eq_zero, SimState.unfinished, Finset.filter_eq_empty_iff]
  constructor
  · intro hnone id
    cases htask : s.tasks id with
    | none => rfl
    | some task => exact absurd (by simp [htask]) (hnone (Finset.mem_range.mpr (h.lt_length htask)))
  · intro hnone id _
    simp [hnone id]

theorem SimState.pollTask_cases (sim : Simulation ρ) (s : SimState ρ) (id : TaskId) (task : Task ρ) :
    s.pollTask sim id task = .panic ∨ ∃ s', s.pollTask sim id task = .next s' := by
  unfold pollTask
  split
  · exact .inr ⟨_, rfl⟩
  · exact .inl rfl
  · unfold resume
    split
    · exact .inr ⟨_, rfl⟩
    · exact .inr ⟨_, rfl⟩
    · exact .inl rfl

/-- Only the executor's loop ends a run, and it does so idle or with nothing remaining. -/
theorem SimState.step_ends (sim : Simulation ρ) (s : SimState ρ) :
    (s.step sim = .returned ↔ s.current = none ∧ s.remaining = 0) ∧
      (s.step sim = .deadlock ↔ s.Idle ∧ s.remaining ≠ 0 ∧ s.sb.events = []) := by
  unfold step Idle
  cases hcur : s.current with
  | some id =>
    cases htask : s.tasks id with
    | none => simp [htask]
    | some task =>
      rcases s.pollTask_cases sim id task with hp | ⟨s', hp⟩ <;> simp [htask, hp]
  | none =>
    by_cases hrem : s.remaining = 0
    · simp [hrem]
    · cases hready : s.ready with
      | cons id ready => cases htask : s.tasks id <;> simp [hrem, htask]
      | nil => cases hevents : s.sb.events <;> simp [hrem, Switchboard.deliverNext, hevents]

theorem Move.completed {s s' : SimState ρ} (h : Move sim s s') {id : TaskId}
    (hid : s.tasks id = none) : s'.tasks id = none := by
  cases h with
  | sent _ htask | recorded _ htask | armed _ htask | took _ htask | timedOut _ htask
  | parked _ htask => exact (SimState.setTask_eq_none htask _ id).mpr hid
  | @finished id' =>
    by_cases hne : id = id'
    · subst hne
      exact Function.update_self _ _ _
    · exact (Function.update_of_ne hne _ _).trans hid
  | dropped | picked | skipped | delivered => exact hid

/-- In an idle state every unfinished task is suspended in a receive that nothing can end but an event,
and its waker is parked where that event will find it. -/
structure NoLostWakeup (sim : Simulation ρ) (s : SimState ρ) : Prop where
  suspended : s.Idle → ∀ id task, s.tasks id = some task →
    ∃ op next, task.prog = .call op next ∧ op.isRecv = true ∧
      (∀ l, s.sb.parked l = some id ↔ l ∈ op.awaits task.party sim.parties) ∧
      (∀ l ∈ op.awaits task.party sim.parties, s.sb.msgQueues l = []) ∧
      (op.timeout? ≠ none → ∃ d, task.deadline = some d ∧ s.HasTimer sim task op d)
  deadlock_iff : s.step sim = .deadlock ↔ s.Idle ∧ s.sb.events = [] ∧
    ∃ id task op next, s.tasks id = some task ∧ task.prog = .call op next ∧ op.isRecv = true ∧
      op.timeout? = none ∧ ∀ l ∈ op.awaits task.party sim.parties, s.sb.msgQueues l = []
  returned_iff : s.step sim = .returned ↔ s.current = none ∧ ∀ id, s.tasks id = none
  polled_unfinished : ∀ id, s.current = some id → s.tasks id ≠ none
  completed : ∀ s', s.step sim = .next s' → ∀ id, s.tasks id = none → s'.tasks id = none

/-- **No lost wake-up, and exact deadlock detection.** -/
theorem no_lost_wakeup {s : SimState ρ} (h : Reachable sim s) : NoLostWakeup sim s := by
  have hinv := h.wake
  have hsuspended : s.Idle → ∀ id task, s.tasks id = some task →
      ∃ op next, task.prog = .call op next ∧ Suspended sim s id task op ∧
        (op.timeout? ≠ none → ∃ d, task.deadline = some d ∧ s.HasTimer sim task op d) := by
    rintro ⟨hcur, hready⟩ id task htask
    have hidle : ¬ s.Active id := by
      rintro (ha | ha)
      · cases hcur.symm.trans ha
      · rw [hready] at ha
        cases ha
    obtain ⟨op, next, hprog, hs⟩ := hinv.waiting id task htask hidle
    refine ⟨op, next, hprog, hs, fun ht => ?_⟩
    obtain ⟨d, hd⟩ := Option.ne_none_iff_exists'.mp (hs.timed ht)
    obtain ⟨op', next', hprog', -, -, htimer⟩ := hinv.timed id task d htask hd
    obtain ⟨rfl, -⟩ := Prog.call.inj (hprog.symm.trans hprog')
    exact ⟨d, hd, htimer.resolve_right fun ha => hidle ha.1⟩
  refine ⟨fun hidle id task htask => ?_, ?_, ?_, fun id hcur => hinv.unfinished id (.inl hcur), ?_⟩
  · obtain ⟨op, next, hprog, hs, htimer⟩ := hsuspended hidle id task htask
    refine ⟨op, next, hprog, hs.receives, fun l => ⟨fun hl => ?_, hs.parked l⟩, hs.empty, htimer⟩
    obtain ⟨task', op', next', htask', hprog', hmem, -⟩ := hinv.parked l id hl
    obtain rfl := Option.some.inj (htask.symm.trans htask')
    obtain ⟨rfl, -⟩ := Prog.call.inj (hprog.symm.trans hprog')
    exact hmem
  · rw [(s.step_ends sim).2, and_congr_right_iff]
    intro hidle
    rw [and_comm, and_congr_right_iff]
    intro hevents
    rw [Ne, hinv.remaining_eq_zero, not_forall]
    constructor
    · rintro ⟨id, hid⟩
      obtain ⟨task, htask⟩ := Option.ne_none_iff_exists'.mp hid
      obtain ⟨op, next, hprog, hs, htimer⟩ := hsuspended hidle id task htask
      refine ⟨id, task, op, next, htask, hprog, hs.receives, ?_, hs.empty⟩
      by_contra ht
      obtain ⟨d, -, e, he, -⟩ := htimer ht
      rw [hevents] at he
      cases he
    · rintro ⟨id, task, op, next, htask, -⟩
      exact ⟨id, by simp [htask]⟩
  · rw [(s.step_ends sim).1, hinv.remaining_eq_zero]
  · intro s' hstep id hid
    have hmoves := step_moves hstep
    clear hstep
    induction hmoves with
    | single hmove => exact hmove.completed hid
    | tail _ hmove ih => exact hmove.completed ih

theorem no_lost_wakeup_photoFinish :
    ∃ s, Reachable photoFinish s ∧ s.current = none ∧ s.ready = [] ∧
      s.sb.parked ⟨1, 0⟩ = some 0 ∧ NoLostWakeup photoFinish s := by
  have hs := Reachable.init.steps (Option.some_get (x := (SimState.init photoFinish).steps
    photoFinish 5) rfl).symm
  exact ⟨_, hs, by decide, by decide, by decide, no_lost_wakeup hs⟩

end SclRs
