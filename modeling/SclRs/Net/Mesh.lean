import Mathlib.Algebra.Order.BigOperators.Group.List
import Mathlib.Algebra.Order.Ring.Nat
import SclRs.Net.TcpCreate

/-!
# All parties create their networks

`TcpNetwork::create` at all parties at once, where no operation of the system fails or times out. A party
binds its listener, dials the parties below its own id one after the other, each as soon as that party's
listener is bound, and returns from a dial when the handshake is done and its id is sent. It accepts
connections in the order in which they have been made, one at a time, and reads the id. A party that is
dialled may be busy with dialling others, so that parties wait for each other; but nobody waits for ever, as
the lowest party that is not done has been reached by all it waits for, or can be (`Inv.done`). In the end each
party has accepted each party above once, and `create` returns (`all_create`).
-/

namespace SclRs

open TcpNetwork

/-- The parties on their way through `create`. -/
structure Mesh where
  /-- The listener is bound. -/
  bound : PartyId → Bool
  /-- The turn of the loop. -/
  turn : PartyId → Nat
  /-- The party of the turn is dialled, and the handshake is not done. -/
  dialling : PartyId → Bool
  /-- The parties whose connections wait for an `accept`. -/
  backlog : PartyId → List PartyId
  /-- The party whose connection is accepted, before it has sent its id. -/
  shaking : PartyId → Option PartyId
  /-- The party whose connection is accepted, and which has sent its id. -/
  greeted : PartyId → Option PartyId
  /-- The ids that have been read. -/
  claims : PartyId → List PartyId

namespace Mesh

def init : Mesh where
  bound _ := false
  turn _ := 0
  dialling _ := false
  backlog _ := []
  shaking _ := none
  greeted _ := none
  claims _ := []

/-- What can happen next. `binds p` and `loopsBack p` are party `p` in `create`; `dials p` is its `connect` in
`connect_as_client`, and `greets p` the handshake of both sides and the id that is sent then; `accepts p` is the
`accept` in `accept_connection`, and `reads p` reads the id. -/
inductive Event
  | binds (p : PartyId)
  | dials (p : PartyId)
  | loopsBack (p : PartyId)
  | accepts (p : PartyId)
  | greets (p : PartyId)
  | reads (p : PartyId)

section
variable (s : Mesh) (p q : PartyId) (rest : List PartyId)

def bind : Mesh := { s with bound := Function.update s.bound p true }

def dial : Mesh :=
  { s with
    dialling := Function.update s.dialling p true
    backlog := Function.update s.backlog (s.turn p) (s.backlog (s.turn p) ++ [p]) }

def loopBack : Mesh := { s with turn := Function.update s.turn p (p + 1) }

def accept : Mesh :=
  { s with
    backlog := Function.update s.backlog p rest
    shaking := Function.update s.shaking p (some q) }

def greet : Mesh :=
  { s with
    turn := Function.update s.turn p (s.turn p + 1)
    dialling := Function.update s.dialling p false
    shaking := Function.update s.shaking (s.turn p) none
    greeted := Function.update s.greeted (s.turn p) (some p) }

def read : Mesh :=
  { s with
    turn := Function.update s.turn p (s.turn p + 1)
    greeted := Function.update s.greeted p none
    claims := Function.update s.claims p (s.claims p ++ [q]) }

end

section
variable (n : Nat) (s : Mesh)

/-- One step of one of `n` parties. A `connect` is repeated until the listener is bound. -/
def step : Event → Option Mesh
  | .binds p => if p < n ∧ s.bound p = false then some (s.bind p) else none
  | .dials p =>
    if p < n ∧ s.bound p = true ∧ s.turn p < p ∧ s.dialling p = false ∧ s.bound (s.turn p) = true then
      some (s.dial p)
    else none
  | .loopsBack p => if p < n ∧ s.bound p = true ∧ s.turn p = p then some (s.loopBack p) else none
  | .accepts p =>
    if p < s.turn p ∧ s.turn p < n ∧ s.shaking p = none ∧ s.greeted p = none then
      match s.backlog p with
      | [] => none
      | q :: rest => some (s.accept p q rest)
    else none
  | .greets p => if s.dialling p = true ∧ s.shaking (s.turn p) = some p then some (s.greet p) else none
  | .reads p =>
    match s.greeted p with
    | none => none
    | some q => some (s.read p q)

/-- What a step has found and does. -/
inductive Moves : Event → Mesh → Prop
  | binds {p : PartyId} (hp : p < n) (hbound : s.bound p = false) : Moves (.binds p) (s.bind p)
  | dials {p : PartyId} (hp : p < n) (hbound : s.bound p = true) (hturn : s.turn p < p)
    (hdialling : s.dialling p = false) (hlistens : s.bound (s.turn p) = true) : Moves (.dials p) (s.dial p)
  | loopsBack {p : PartyId} (hp : p < n) (hbound : s.bound p = true) (hturn : s.turn p = p) :
    Moves (.loopsBack p) (s.loopBack p)
  | accepts {p q : PartyId} {rest : List PartyId} (hturn : p < s.turn p) (hlt : s.turn p < n)
    (hshaking : s.shaking p = none) (hgreeted : s.greeted p = none) (hbacklog : s.backlog p = q :: rest) :
    Moves (.accepts p) (s.accept p q rest)
  | greets {p : PartyId} (hdialling : s.dialling p = true) (hshaking : s.shaking (s.turn p) = some p) :
    Moves (.greets p) (s.greet p)
  | reads {p q : PartyId} (hgreeted : s.greeted p = some q) : Moves (.reads p) (s.read p q)

def run (s : Mesh) : List Event → Option Mesh
  | [] => some s
  | event :: events => do (← s.step n event).run events

def Maximal : Prop := ∀ event, s.step n event = none

/-- The parties that have dialled party `i` and wait for the handshake. -/
def waiting (i : PartyId) : List PartyId := s.backlog i ++ (s.shaking i).toList

/-- The parties that are done with dialling party `i`. -/
def reached (i : PartyId) : List PartyId := s.claims i ++ (s.greeted i).toList

/-- What a party has done is seen at the parties that it has dialled, and nowhere else. -/
structure Inv : Prop where
  dials : ∀ p, s.dialling p = true → s.turn p < p ∧ p < n
  turn_le : ∀ p, s.turn p ≤ n
  lt : ∀ p, 0 < s.turn p → p < n
  mem_waiting : ∀ i p, p ∈ s.waiting i ↔ s.turn p = i ∧ s.dialling p = true
  mem_reached : ∀ i p, p ∈ s.reached i ↔ i < p ∧ i < s.turn p
  nodup_waiting : ∀ i, (s.waiting i).Nodup
  nodup_reached : ∀ i, (s.reached i).Nodup
  claims : ∀ p : Nat, (s.claims p).length = s.turn p - (p + 1)
  accepts : ∀ p, s.shaking p ≠ none ∨ s.greeted p ≠ none → p < s.turn p ∧ s.turn p < n
  exclusive : ∀ p, s.shaking p ≠ none → s.greeted p = none

end

variable {n : Nat} {s t : Mesh} {p q i : Nat}

theorem inv_init : Inv n init where
  dials _ h := absurd h Bool.false_ne_true
  turn_le _ := Nat.zero_le n
  lt _ h := absurd h (lt_irrefl 0)
  mem_waiting _ _ := by simp [waiting, init]
  mem_reached _ _ := by simp [reached, init]
  nodup_waiting _ := List.nodup_nil
  nodup_reached _ := List.nodup_nil
  claims _ := by simp [init]
  accepts _ h := by simp [init] at h
  exclusive _ h := absurd rfl h

/-! ### The steps keep the invariant -/

theorem Inv.dialsStep (h : s.Inv n) (hp : p < n) (hturn : s.turn p < p) (hdialling : s.dialling p = false) :
    (s.dial p).Inv n where
  dials q hq := by
    obtain rfl | hqp := eq_or_ne q p
    · exact ⟨hturn, hp⟩
    · exact h.dials q (by simpa [dial, hqp] using hq)
  turn_le := h.turn_le
  lt := h.lt
  mem_waiting i q := by
    have hold := h.mem_waiting i q
    simp only [dial, waiting, Function.update_apply, List.mem_append] at hold ⊢
    split_ifs with hi hqp <;> grind
  mem_reached := h.mem_reached
  nodup_waiting i := by
    have hnotMem : p ∉ s.waiting (s.turn p) := fun hmem => by
      have := ((h.mem_waiting _ p).mp hmem).2
      simp [hdialling] at this
    have hold := h.nodup_waiting i
    simp only [dial, waiting, Function.update_apply] at hold hnotMem ⊢
    split_ifs with hi
    · subst hi
      rw [List.append_assoc, List.singleton_append]
      exact List.perm_middle.nodup_iff.mpr (List.nodup_cons.mpr ⟨hnotMem, hold⟩)
    · exact hold
  nodup_reached := h.nodup_reached
  claims := h.claims
  accepts := h.accepts
  exclusive := h.exclusive

theorem Inv.loopsBackStep (h : s.Inv n) (hp : p < n) (hturn : s.turn p = p) :
    (s.loopBack p).Inv n where
  dials q hq := by
    have hold := h.dials q hq
    by_cases hqp : q = p
    · subst hqp
      omega
    · simpa [loopBack, hqp] using hold
  turn_le q := by
    have hold := h.turn_le q
    simp only [loopBack, Function.update_apply]
    split_ifs
    · exact hp
    · exact hold
  lt q hq := by
    by_cases hqp : q = p
    · exact hqp ▸ hp
    · exact h.lt q (by simpa [loopBack, hqp] using hq)
  mem_waiting i q := by
    have hold := h.mem_waiting i q
    have hdial := h.dials q
    simp only [loopBack, waiting, Function.update_apply] at hold ⊢
    split_ifs with hqp <;> grind
  mem_reached i q := by
    have hold := h.mem_reached i q
    simp only [loopBack, reached, Function.update_apply] at hold ⊢
    split_ifs with hqp <;> grind
  nodup_waiting := h.nodup_waiting
  nodup_reached := h.nodup_reached
  claims q := by
    have hold := h.claims q
    simp only [loopBack, hold, Function.update_apply]
    split_ifs with hqp
    · subst hqp
      omega
    · rfl
  accepts q hq := by
    have hold := h.accepts q hq
    have hqp : q ≠ p := by
      rintro rfl
      rw [hturn] at hold
      exact lt_irrefl q hold.1
    simpa [loopBack, hqp] using hold
  exclusive := h.exclusive

theorem Inv.acceptsStep (h : s.Inv n) (hturn : p < s.turn p) (hlt : s.turn p < n) (hshaking : s.shaking p = none)
    (hgreeted : s.greeted p = none) {rest : List PartyId} (hbacklog : s.backlog p = q :: rest) :
    (s.accept p q rest).Inv n where
  dials := h.dials
  turn_le := h.turn_le
  lt := h.lt
  mem_waiting i r := by
    have hold := h.mem_waiting i r
    simp only [accept, waiting, Function.update_apply] at hold ⊢
    split_ifs with hi
    · subst hi
      rw [← hold, hbacklog, hshaking]
      simp [or_comm]
    · exact hold
  mem_reached := h.mem_reached
  nodup_waiting i := by
    have hold := h.nodup_waiting i
    simp only [accept, waiting, Function.update_apply] at hold ⊢
    split_ifs with hi
    · subst hi
      rw [hbacklog, hshaking, Option.toList_none, List.append_nil] at hold
      exact (List.perm_append_singleton q rest).nodup_iff.mpr hold
    · exact hold
  nodup_reached := h.nodup_reached
  claims := h.claims
  accepts r hr := by
    obtain rfl | hrp := eq_or_ne r p
    · exact ⟨hturn, hlt⟩
    · exact h.accepts r (by simpa [accept, hrp] using hr)
  exclusive r hr := by
    by_cases hrp : r = p
    · exact hrp ▸ hgreeted
    · exact h.exclusive r (by simpa [accept, hrp] using hr)

theorem Inv.greetsStep (h : s.Inv n) (hdialling : s.dialling p = true) (hshaking : s.shaking (s.turn p) = some p) :
    (s.greet p).Inv n := by
  obtain ⟨hturn, hp⟩ := h.dials p hdialling
  have hgreeted : s.greeted (s.turn p) = none := h.exclusive _ (by rw [hshaking]; exact Option.some_ne_none p)
  constructor
  case dials =>
    intro q hq
    by_cases hqp : q = p
    · simp [greet, hqp] at hq
    · have hold := h.dials q (by simpa [greet, hqp] using hq)
      simpa [greet, hqp] using hold
  case turn_le =>
    intro q
    have hold := h.turn_le q
    simp only [greet, Function.update_apply]
    split_ifs
    · exact hturn.trans hp
    · exact hold
  case lt =>
    intro q hq
    by_cases hqp : q = p
    · exact hqp ▸ hp
    · exact h.lt q (by simpa [greet, hqp] using hq)
  case mem_waiting =>
    intro i q
    have hold := h.mem_waiting i q
    have hnodup := h.nodup_waiting i
    simp only [greet, waiting, Function.update_apply, List.mem_append] at hold hnodup ⊢
    split_ifs with hi hqp hqp <;> grind
  case mem_reached =>
    intro i q
    have hold := h.mem_reached i q
    simp only [greet, reached, Function.update_apply, List.mem_append] at hold ⊢
    split_ifs with hi hqp hqp <;> grind
  case nodup_waiting =>
    intro i
    have hold := h.nodup_waiting i
    simp only [greet, waiting, Function.update_apply] at hold ⊢
    split_ifs with hi
    · rw [Option.toList_none, List.append_nil]
      exact (List.nodup_append.mp hold).1
    · exact hold
  case nodup_reached =>
    intro i
    have hold := h.nodup_reached i
    have hnotMem : p ∉ s.reached (s.turn p) := fun hmem => lt_irrefl _ ((h.mem_reached _ p).mp hmem).2
    simp only [greet, reached, Function.update_apply] at hold hnotMem ⊢
    split_ifs with hi
    · subst hi
      rw [hgreeted, Option.toList_none, List.append_nil] at hold hnotMem
      exact (List.perm_append_singleton p _).nodup_iff.mpr (List.nodup_cons.mpr ⟨hnotMem, hold⟩)
    · exact hold
  case claims =>
    intro q
    have hold := h.claims q
    simp only [greet, Function.update_apply]
    split_ifs with hqp
    · subst hqp
      omega
    · exact hold
  case accepts =>
    intro q hq
    have hold := h.accepts q
    simp only [greet, Function.update_apply] at hq ⊢
    split_ifs at hq ⊢ with hi hqp hqp <;> grind
  case exclusive =>
    intro q hq
    have hold := h.exclusive q
    simp only [greet, Function.update_apply] at hq ⊢
    split_ifs at hq ⊢ with hi <;> grind

theorem Inv.readsStep (h : s.Inv n) (hgreeted : s.greeted p = some q) :
    (s.read p q).Inv n := by
  obtain ⟨hturn, hlt⟩ := h.accepts p (.inr (by rw [hgreeted]; exact Option.some_ne_none q))
  have hshaking : s.shaking p = none := by
    by_contra hne
    rw [h.exclusive p hne] at hgreeted
    cases hgreeted
  constructor
  case dials =>
    intro r hr
    have hold := h.dials r hr
    simp only [read, Function.update_apply]
    split_ifs with hrp <;> grind
  case turn_le =>
    intro r
    have hold := h.turn_le r
    simp only [read, Function.update_apply]
    split_ifs <;> omega
  case lt =>
    intro r hr
    by_cases hrp : r = p
    · exact hrp ▸ h.lt p (Nat.zero_lt_of_lt hturn)
    · exact h.lt r (by simpa [read, hrp] using hr)
  case mem_waiting =>
    intro i r
    have hold := h.mem_waiting i r
    have hdial := h.dials r
    simp only [read, waiting, Function.update_apply] at hold ⊢
    split_ifs with hrp <;> grind
  case mem_reached =>
    intro i r
    have hold := h.mem_reached i r
    simp only [read, reached, Function.update_apply, List.mem_append] at hold ⊢
    split_ifs with hi hrp hrp <;> grind
  case nodup_waiting => exact h.nodup_waiting
  case nodup_reached =>
    intro i
    have hold := h.nodup_reached i
    simp only [read, reached, Function.update_apply] at hold ⊢
    split_ifs with hi
    · subst hi
      rw [hgreeted] at hold
      rw [Option.toList_none, List.append_nil]
      exact hold
    · exact hold
  case claims =>
    intro r
    have hold := h.claims r
    simp only [read, Function.update_apply]
    split_ifs with hrp
    · subst hrp
      rw [List.length_append, hold, List.length_singleton, Nat.succ_sub hturn]
    · exact hold
  case accepts =>
    intro r hr
    have hold := h.accepts r
    simp only [read, Function.update_apply] at hr ⊢
    split_ifs at hr ⊢ with hrp <;> grind
  case exclusive =>
    intro r hr
    have hold := h.exclusive r hr
    simp only [read, Function.update_apply]
    split_ifs <;> grind

theorem moves_of_step {event : Event} (hstep : s.step n event = some t) : Moves n s event t := by
  cases event with
  | binds p =>
    obtain ⟨⟨hp, hbound⟩, hstep⟩ := Option.ite_none_right_eq_some.mp hstep
    exact Option.some.inj hstep ▸ .binds hp hbound
  | dials p =>
    obtain ⟨⟨hp, hbound, hturn, hdialling, hlistens⟩, hstep⟩ := Option.ite_none_right_eq_some.mp hstep
    exact Option.some.inj hstep ▸ .dials hp hbound hturn hdialling hlistens
  | loopsBack p =>
    obtain ⟨⟨hp, hbound, hturn⟩, hstep⟩ := Option.ite_none_right_eq_some.mp hstep
    exact Option.some.inj hstep ▸ .loopsBack hp hbound hturn
  | accepts p =>
    obtain ⟨⟨hturn, hlt, hshaking, hgreeted⟩, hstep⟩ := Option.ite_none_right_eq_some.mp hstep
    cases hbacklog : s.backlog p with
    | nil => simp [hbacklog] at hstep
    | cons q rest =>
      simp only [hbacklog] at hstep
      exact Option.some.inj hstep ▸ .accepts hturn hlt hshaking hgreeted hbacklog
  | greets p =>
    obtain ⟨⟨hdialling, hshaking⟩, hstep⟩ := Option.ite_none_right_eq_some.mp hstep
    exact Option.some.inj hstep ▸ .greets hdialling hshaking
  | reads p =>
    rw [step] at hstep
    cases hgreeted : s.greeted p with
    | none => simp [hgreeted] at hstep
    | some q =>
      simp only [hgreeted] at hstep
      exact Option.some.inj hstep ▸ .reads hgreeted

/-- **One step** keeps the invariant. -/
theorem Inv.step (h : s.Inv n) {event : Event} (hstep : s.step n event = some t) : t.Inv n := by
  cases moves_of_step hstep with
  | binds hp hbound =>
    exact ⟨h.dials, h.turn_le, h.lt, h.mem_waiting, h.mem_reached, h.nodup_waiting, h.nodup_reached, h.claims,
      h.accepts, h.exclusive⟩
  | dials hp hbound hturn hdialling hlistens => exact h.dialsStep hp hturn hdialling
  | loopsBack hp hbound hturn => exact h.loopsBackStep hp hturn
  | accepts hturn hlt hshaking hgreeted hbacklog => exact h.acceptsStep hturn hlt hshaking hgreeted hbacklog
  | greets hdialling hshaking => exact h.greetsStep hdialling hshaking
  | reads hgreeted => exact h.readsStep hgreeted

/-- **Every run** keeps the invariant. -/
theorem Inv.run (h : s.Inv n) {events : List Event} (hrun : s.run n events = some t) : t.Inv n := by
  induction events generalizing s with
  | nil => exact Option.some.inj hrun ▸ h
  | cons event events ih =>
    obtain ⟨u, hstep, hrun⟩ := Option.bind_eq_some_iff.mp hrun
    exact ih (h.step hstep) hrun

/-! ### Every run comes to an end -/

def Event.party : Event → PartyId
  | .binds p | .dials p | .loopsBack p | .accepts p | .greets p | .reads p => p

variable (n s) in
/-- At least the steps that a party has before it. -/
def owed (p : PartyId) : Nat :=
  (if s.bound p then 0 else 1) + (if s.dialling p then 0 else 1) + 2 * (n - s.turn p) +
    if s.shaking p = none ∧ s.greeted p = none then 1 else 0

variable (n s) in
def remaining : Nat := ((List.range n).map (owed n s)).sum

/-- **One step** takes one from what its party owes, and adds nothing elsewhere. -/
theorem Inv.owed_step (h : s.Inv n) {event : Event} (hstep : s.step n event = some t) :
    event.party < n ∧ owed n t event.party < owed n s event.party ∧ ∀ q, owed n t q ≤ owed n s q := by
  cases moves_of_step hstep with
  | @binds p hp hbound =>
    refine ⟨hp, ?_, fun q => ?_⟩
    · simp only [owed, bind, Event.party, Function.update_self, hbound]
      grind
    · simp only [owed, bind, Function.update_apply]
      grind
  | @dials p hp hbound hturn hdialling hlistens =>
    refine ⟨hp, ?_, fun q => ?_⟩
    · simp only [owed, dial, Event.party, Function.update_self, hdialling]
      grind
    · simp only [owed, dial, Function.update_apply]
      grind
  | @loopsBack p hp hbound hturn =>
    refine ⟨hp, ?_, fun q => ?_⟩
    · simp only [owed, loopBack, Event.party, Function.update_self]
      grind
    · simp only [owed, loopBack, Function.update_apply]
      grind
  | @accepts p q rest hturn hlt hshaking hgreeted hbacklog =>
    refine ⟨hturn.trans hlt, ?_, fun q => ?_⟩
    · simp only [owed, accept, Event.party, Function.update_self, hshaking, hgreeted]
      grind
    · simp only [owed, accept, Function.update_apply]
      grind
  | @greets p hdialling hshaking =>
    obtain ⟨hturn, hp⟩ := h.dials p hdialling
    refine ⟨hp, ?_, fun q => ?_⟩
    · simp only [owed, greet, Event.party, Function.update_apply, hdialling]
      grind
    · simp only [owed, greet, Function.update_apply]
      grind
  | @reads p q hgreeted =>
    obtain ⟨hturn, hlt⟩ := h.accepts p (.inr (by rw [hgreeted]; exact Option.some_ne_none q))
    refine ⟨hturn.trans hlt, ?_, fun r => ?_⟩
    · simp only [owed, read, Event.party, Function.update_apply, hgreeted]
      grind
    · simp only [owed, read, Function.update_apply]
      grind

theorem Inv.remaining_step (h : s.Inv n) {event : Event} (hstep : s.step n event = some t) :
    remaining n t < remaining n s := by
  obtain ⟨hp, hlt, hle⟩ := h.owed_step hstep
  exact List.sum_lt_sum _ _ (fun q _ => hle q) ⟨_, List.mem_range.mpr hp, hlt⟩

theorem Inv.length_run (h : s.Inv n) {events : List Event} (hrun : s.run n events = some t) :
    events.length + remaining n t ≤ remaining n s := by
  induction events generalizing s with
  | nil =>
    obtain rfl := Option.some.inj hrun
    exact (Nat.zero_add _).le
  | cons event events ih =>
    obtain ⟨u, hstep, hrun⟩ := Option.bind_eq_some_iff.mp hrun
    have hfirst := h.remaining_step hstep
    have hrest := ih (h.step hstep) hrun
    rw [List.length_cons]
    omega

theorem remaining_init : remaining n init = n * (2 * n + 3) := by
  have howed : owed n init = fun _ => 2 * n + 3 := by
    funext p
    simp [owed, init]
    omega
  rw [remaining, howed, List.map_const', List.length_range, List.sum_replicate_nat]

/-- A run can be continued till nothing more happens. -/
theorem Inv.exists_maximal (h : s.Inv n) : ∃ events t, s.run n events = some t ∧ t.Maximal n := by
  induction hr : remaining n s using Nat.strong_induction_on generalizing s with
  | h r ih =>
    by_cases hmax : s.Maximal n
    · exact ⟨[], s, rfl, hmax⟩
    · obtain ⟨event, hevent⟩ := not_forall.mp hmax
      obtain ⟨u, hstep⟩ := Option.ne_none_iff_exists'.mp hevent
      obtain ⟨events, t, hrun, ht⟩ := ih _ (hr ▸ h.remaining_step hstep) (h.step hstep) rfl
      exact ⟨event :: events, t, Option.bind_eq_some_iff.mpr ⟨u, hstep, hrun⟩, ht⟩

/-! ### Nobody waits for ever -/

theorem Inv.claims_perm (h : s.Inv n) (hi : s.turn i = n) :
    (s.claims i).Perm (List.range' (i + 1) (n - (i + 1))) := by
  refine (Lib.Insertions.perm_of_forall_mem (List.nodup_append.mp (h.nodup_reached i)).1 (fun q hq => ?_) ?_).symm
  · obtain ⟨hlt, hturn⟩ := (h.mem_reached i q).mp (List.mem_append_left _ hq)
    have hq := h.lt q (Nat.zero_lt_of_lt hturn)
    have hend : i + 1 + (n - (i + 1)) = n := Nat.add_sub_of_le (hlt.trans hq)
    exact List.mem_range'_1.mpr ⟨hlt, hend.symm ▸ hq⟩
  · rw [List.length_range', h.claims, hi]

theorem Inv.passed (h : s.Inv n) (hi : s.turn i = n) (hiq : i < q) (hq : q < n) : i < s.turn q := by
  have hmem : q ∈ s.claims i := (h.claims_perm hi).mem_iff.mpr (List.mem_range'_1.mpr ⟨hiq, by omega⟩)
  exact ((h.mem_reached i q).mp (List.mem_append_left _ hmem)).2

/-- Who has to accept more has not been passed by someone. -/
theorem Inv.exists_behind (h : s.Inv n) (hturn : p < s.turn p) (hlt : s.turn p < n) (hgreeted : s.greeted p = none) :
    ∃ q, p < q ∧ q < n ∧ s.turn q ≤ p := by
  by_contra hall
  have hsub : List.range' (p + 1) (n - (p + 1)) ⊆ s.claims p := fun q hq => by
    obtain ⟨hpq, hq⟩ := List.mem_range'_1.mp hq
    have hpassed : p < s.turn q := by
      by_contra hbehind
      exact hall ⟨q, hpq, by omega, not_lt.mp hbehind⟩
    have hreached := (h.mem_reached p q).mpr ⟨hpq, hpassed⟩
    rwa [reached, hgreeted, Option.toList_none, List.append_nil] at hreached
  have hlen := (List.subperm_of_subset List.nodup_range' hsub).length_le
  rw [List.length_range', h.claims] at hlen
  omega

theorem Inv.idle (h : s.Inv n) (hmax : s.Maximal n) (hturn : p < s.turn p) (hlt : s.turn p < n) :
    s.greeted p = none ∧ s.waiting p = [] := by
  have hgreeted : s.greeted p = none := by
    cases hgreeted : s.greeted p with
    | none => rfl
    | some q => exact absurd (hmax (.reads p)) (by simp [Mesh.step, hgreeted])
  have hshaking : s.shaking p = none := by
    cases hshaking : s.shaking p with
    | none => rfl
    | some q =>
      obtain ⟨hq, hdialling⟩ := (h.mem_waiting p q).mp (by simp [waiting, hshaking])
      exact absurd (hmax (.greets q)) (by simp [Mesh.step, hdialling, hq, hshaking])
  have hbacklog : s.backlog p = [] := by
    cases hbacklog : s.backlog p with
    | nil => rfl
    | cons q rest =>
      exact absurd (hmax (.accepts p)) (by simp [Mesh.step, hturn, hlt, hshaking, hgreeted, hbacklog])
  exact ⟨hgreeted, by rw [waiting, hbacklog, hshaking]; rfl⟩

theorem bound_of_maximal (hmax : s.Maximal n) (hp : p < n) : s.bound p = true := by
  by_contra hfalse
  exact absurd (hmax (.binds p)) (by simp [step, hp, hfalse])

/-- **Nobody waits for ever**: where nothing more happens, all parties are done. -/
theorem Inv.done (h : s.Inv n) (hmax : s.Maximal n) (hp : p < n) : s.turn p = n := by
  induction p using Nat.strong_induction_on with
  | h p ih =>
    obtain hlt | heq | hgt := lt_trichotomy (s.turn p) p
    · -- The party that it has to dial is done, and has been passed by everyone above.
      exact absurd (h.passed (ih _ hlt (hlt.trans hp)) hlt hp) (lt_irrefl _)
    · exact absurd (hmax (.loopsBack p)) (by simp [Mesh.step, hp, bound_of_maximal hmax hp, heq])
    · by_contra hne
      have hturn : s.turn p < n := lt_of_le_of_ne (h.turn_le p) hne
      obtain ⟨hgreeted, hwaiting⟩ := h.idle hmax hgt hturn
      obtain ⟨q, hpq, hq, hbehind⟩ := h.exists_behind hgt hturn hgreeted
      obtain hbehind | hbehind := hbehind.lt_or_eq
      · exact absurd (h.passed (ih _ hbehind (hbehind.trans hp)) (hbehind.trans hpq) hq) (lt_irrefl _)
      · have hdialling : s.dialling q = false := by
          by_contra hdials
          have hmem := (h.mem_waiting p q).mpr ⟨hbehind, Bool.not_eq_false _ ▸ hdials⟩
          rw [hwaiting] at hmem
          cases hmem
        exact absurd (hmax (.dials q))
          (by simp [Mesh.step, hq, bound_of_maximal hmax hq, hbehind, hpq, hdialling, bound_of_maximal hmax hp])

/-! ### `create` -/

/-- What the calls of `create` at party `p` have answered, when the parties are in this state. -/
def connecting (s : Mesh) (p : PartyId) : Connecting where
  bind _ := if s.bound p then .ok () else .error .ioError
  configureTls := .ok ()
  dial i _ := if i < s.turn p then .ok () else .error (.timeout none)
  accept k :=
    match (s.claims p)[k]? with
    | some remoteId => .ok remoteId
    | none => .error .ioError

theorem accept_connecting {k : Nat} (hk : k < (s.claims p).length) :
    (s.connecting p).accept k = .ok (s.claims p)[k] := by
  simp only [connecting, List.getElem?_eq_getElem hk]

variable {checks : Bool} {config : NetworkConfig}

theorem exists_address (hports : config.basePort + config.peerIps.length ≤ 2 ^ 16)
    (hi : i < config.peerIps.length) : ∃ address, config.address checks i = some address := by
  have hmod : i % 2 ^ 16 = i := Nat.mod_eq_of_lt (by omega)
  have hsum : config.basePort + i < 2 ^ 16 := by omega
  refine ⟨⟨config.peerIps[i], config.basePort + i⟩, ?_⟩
  rw [NetworkConfig.address, hmod, u16Add, if_pos hsum, List.getElem?_eq_getElem hi]
  rfl

theorem Inv.connects (h : s.Inv config.peerIps.length) (hports : config.basePort + config.peerIps.length ≤ 2 ^ 16)
    (hi : i < s.turn p) : Connects checks p config (s.connecting p) i := by
  refine ⟨fun _ => ?_, fun hlt => ?_⟩
  · obtain ⟨address, haddress⟩ := @exists_address i checks config hports (hi.trans_le (h.turn_le p))
    exact ⟨address, haddress, if_pos hi⟩
  · have hlen : i - (p + 1) < (s.claims p).length := by
      rw [h.claims]
      omega
    exact ⟨_, accept_connecting hlen⟩

theorem Inv.established (h : s.Inv config.peerIps.length) (hmax : s.Maximal config.peerIps.length)
    (hports : config.basePort + config.peerIps.length ≤ 2 ^ 16) (hp : p < config.peerIps.length) :
    Established checks p config (s.connecting p) (s.claims p) := by
  have hdone := h.done hmax hp
  refine ⟨?_, rfl, fun i hi => ?_, fun k hk => accept_connecting hk, ?_⟩
  · obtain ⟨address, haddress⟩ := @exists_address p checks config hports hp
    exact ⟨address, haddress, if_pos (bound_of_maximal hmax hp)⟩
  · exact (h.connects hports (by omega)).1 hi
  · rw [h.claims, hdone]
    omega

/-- **All parties create their networks**: a run of `n` parties has at most `n * (2 * n + 3)` steps, and the
loops of `create` get on with each state. Whatever has happened, it can go on until nothing more happens, and
then `create` has returned the intended network at each party. -/
theorem all_create (hports : config.basePort + config.peerIps.length ≤ 2 ^ 16) {events : List Event}
    (hrun : init.run config.peerIps.length events = some s) :
    events.length ≤ config.peerIps.length * (2 * config.peerIps.length + 3) ∧
    (∀ p < config.peerIps.length, ∃ connections,
      connectAll checks p config (s.connecting p) (List.range (s.turn p)) ⟨[], [], 0⟩ = some (.ok connections)) ∧
    (∃ more t, s.run config.peerIps.length more = some t ∧ t.Maximal config.peerIps.length) ∧
    (s.Maximal config.peerIps.length → ∀ p < config.peerIps.length, ∃ network,
      create checks p config (s.connecting p) = some (.ok network) ∧
        Intended checks p config (s.connecting p) network) := by
  have hinv : s.Inv config.peerIps.length := inv_init.run hrun
  refine ⟨?_, fun p hp => ?_, hinv.exists_maximal, fun hmax p hp => ?_⟩
  · have hlen := inv_init.length_run hrun
    rw [remaining_init] at hlen
    exact (Nat.le_add_right ..).trans hlen
  · exact ⟨_, connectAll_range.mpr ⟨fun i hi => hinv.connects hports hi, rfl⟩⟩
  · have hperm := hinv.claims_perm (hinv.done hmax hp)
    have hlen := hperm.length_eq
    rw [List.length_range'] at hlen
    rw [← hlen] at hperm
    obtain ⟨network, hnetwork⟩ := (hinv.established hmax hports hp).exists_network hperm
    exact ⟨network, hnetwork, intended_of_create hp hnetwork⟩

/-- Party 1 dials before party 0 accepts. -/
def twoParties : List Event :=
  [.binds 1, .binds 0, .dials 1, .loopsBack 0, .accepts 0, .greets 1, .reads 0, .loopsBack 1]

theorem all_create_two : ∃ s, init.run 2 twoParties = some s ∧ ∀ p < 2, ∃ network,
    create true p ⟨5000, [0, 0]⟩ (s.connecting p) = some (.ok network) ∧
      Intended true p ⟨5000, [0, 0]⟩ (s.connecting p) network := by
  have hports : 5000 + [0, 0].length ≤ 2 ^ 16 := by decide
  refine ⟨_, rfl, (@all_create _ true ⟨5000, [0, 0]⟩ hports twoParties rfl).2.2.2 fun event => ?_⟩
  cases event with
  | binds p | dials p | loopsBack p | accepts p | greets p | reads p =>
    match p with
    | 0 => rfl
    | 1 => rfl
    | p + 2 => rfl

end Mesh

end SclRs
