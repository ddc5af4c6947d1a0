import SclRs.Net.Async

/-!
# The network with clocks

What a delay model makes of the asynchronous network, in terms of no executor: each party has a clock, which
only a receive moves, to the arrival of the packet if that is later, and a packet arrives its delay after
the clock of its sender, but not before the packets sent before it on its link. Steps of different parties
commute as they do without clocks, so that all maximal schedules end with the same times
(`TimedNet.final_unique`). One schedule under two delay models gives related times, for every relation that
maxima and the two models keep (`TimedNet.run_related`).
-/

namespace SclRs

/-- The times of a network: clocks, the arrivals of the packets each link holds and of the last one sent on
it, and what each party's trace says. -/
@[ext] structure Timing where
  clocks : PartyId → Duration
  arrivals : Link → List Duration
  last : Link → Duration
  traces : PartyId → List Event

namespace Timing

def init : Timing := ⟨fun _ => 0, fun _ => [], fun _ => 0, fun _ => []⟩

variable (delay : Delay) (t : Timing)

def trace (party : PartyId) (event : Event) : PartyId → List Event :=
  Function.update t.traces party (t.traces party ++ [event])

def arrival (link : Link) (packet : Packet) : Duration :=
  max (t.clocks link.sender + delay link packet.size) (t.last link)

def sends (link : Link) (packet : Packet) : Timing where
  clocks := t.clocks
  arrivals := Function.update t.arrivals link (t.arrivals link ++ [t.arrival delay link packet])
  last := Function.update t.last link (t.arrival delay link packet)
  traces := t.trace link.sender (.sendData (t.clocks link.sender) link packet.size packet.composition)

def records (me : PartyId) (marker : Marker) : Timing :=
  { t with traces := t.trace me (marker.event (t.clocks me)) }

/-- The clock of the recipient of `link` when it has taken the next packet. -/
def heard (link : Link) : Duration := max (t.clocks link.recipient) ((t.arrivals link).headD 0)

def takes (link : Link) (packet : Packet) : Timing where
  clocks := Function.update t.clocks link.recipient (t.heard link)
  arrivals := Function.update t.arrivals link (t.arrivals link).tail
  last := t.last
  traces := t.trace link.recipient (.receiveData (t.heard link) link packet.size packet.composition)

def goes (me : PartyId) : NetOp → Timing
  | .sendTo partyId packet => t.sends delay ⟨me, partyId⟩ packet
  | .record marker => t.records me marker
  | _ => t

/-- The times after an act of the network. -/
def after {ρ : Type} (net : NetState ρ) (act : Act) : Timing :=
  match act.source with
  | none =>
    match net.progs act.party with
    | .call op _ => t.goes delay act.party op
    | _ => t
  | some sender =>
    match (net.channels ⟨sender, act.party⟩).head? with
    | some packet => t.takes ⟨sender, act.party⟩ packet
    | none => t

end Timing

structure TimedNet (ρ : Type) where
  net : NetState ρ
  timing : Timing

namespace TimedNet

variable {ρ : Type}

def init (program : PartyId → Prog ρ) : TimedNet ρ := ⟨.init program, .init⟩

variable (delay : Delay) (parties : List PartyId) (s : TimedNet ρ)

def step (act : Act) : Option (TimedNet ρ) :=
  (s.net.step parties act).map fun net => ⟨net, s.timing.after delay s.net act⟩

def run (s : TimedNet ρ) : List Act → Option (TimedNet ρ)
  | [] => some s
  | act :: schedule => do (← s.step delay parties act).run schedule

end TimedNet

/-! ### Acts of different parties -/

section
variable {κ α : Type} [DecidableEq κ] {m : κ → List α} {l l' : κ}

theorem update_push_comm (hl : l ≠ l') (a a' : α) :
    Function.update (Function.update m l (m l ++ [a])) l' (Function.update m l (m l ++ [a]) l' ++ [a']) =
      Function.update (Function.update m l' (m l' ++ [a'])) l (Function.update m l' (m l' ++ [a']) l ++ [a]) := by
  rw [Function.update_of_ne hl.symm, Function.update_of_ne hl, Function.update_comm hl]

theorem update_tail_comm (hl : l ≠ l') :
    Function.update (Function.update m l (m l).tail) l' (Function.update m l (m l).tail l').tail =
      Function.update (Function.update m l' (m l').tail) l (Function.update m l' (m l').tail l).tail := by
  rw [Function.update_of_ne hl.symm, Function.update_of_ne hl, Function.update_comm hl]

theorem update_push_tail (hne : m l ≠ []) (l' : κ) (a : α) :
    Function.update (Function.update m l' (m l' ++ [a])) l (Function.update m l' (m l' ++ [a]) l).tail =
      Function.update (Function.update m l (m l).tail) l' (Function.update m l (m l).tail l' ++ [a]) := by
  by_cases hl : l = l'
  · subst hl
    obtain ⟨b, rest, hm⟩ := List.exists_cons_of_ne_nil hne
    simp [hm]
  · rw [Function.update_of_ne hl, Function.update_of_ne (Ne.symm hl), Function.update_comm hl]

theorem headD_update_push (hne : m l ≠ []) (l' : κ) (a d : α) :
    (Function.update m l' (m l' ++ [a]) l).headD d = (m l).headD d := by
  by_cases hl : l = l'
  · subst hl
    obtain ⟨b, rest, hm⟩ := List.exists_cons_of_ne_nil hne
    simp [hm]
  · rw [Function.update_of_ne hl]

end

namespace Timing

variable {delay : Delay} {t : Timing} {link link' : Link} {packet packet' : Packet} {me me' : PartyId}

theorem sends_comm (hne : link.sender ≠ link'.sender) :
    (t.sends delay link packet).sends delay link' packet' =
      (t.sends delay link' packet').sends delay link packet := by
  have hl : link ≠ link' := fun h => hne (congrArg Link.sender h)
  have harrival : (t.sends delay link packet).arrival delay link' packet' = t.arrival delay link' packet' := by
    simp only [arrival, sends, Function.update_of_ne hl.symm]
  have harrival' : (t.sends delay link' packet').arrival delay link packet = t.arrival delay link packet := by
    simp only [arrival, sends, Function.update_of_ne hl]
  refine Timing.ext rfl ?_ ?_ (update_push_comm hne _ _)
  · simp only [sends] at harrival harrival' ⊢
    rw [harrival, harrival']
    exact update_push_comm hl _ _
  · simp only [sends] at harrival harrival' ⊢
    rw [harrival, harrival']
    exact Function.update_comm hl _ _ _

theorem takes_comm (hne : link.recipient ≠ link'.recipient) :
    (t.takes link packet).takes link' packet' = (t.takes link' packet').takes link packet := by
  have hl : link ≠ link' := fun h => hne (congrArg Link.recipient h)
  have hheard : (t.takes link packet).heard link' = t.heard link' := by
    simp only [heard, takes, Function.update_of_ne hl.symm, Function.update_of_ne hne.symm]
  have hheard' : (t.takes link' packet').heard link = t.heard link := by
    simp only [heard, takes, Function.update_of_ne hl, Function.update_of_ne hne]
  refine Timing.ext ?_ (update_tail_comm hl) rfl ?_
  · simp only [takes] at hheard hheard' ⊢
    rw [hheard, hheard']
    exact Function.update_comm hne _ _ _
  · simp only [takes, trace] at hheard hheard' ⊢
    rw [hheard, hheard']
    exact update_push_comm hne _ _

theorem sends_takes (hne : link.sender ≠ link'.recipient) (harrivals : t.arrivals link' ≠ []) :
    (t.sends delay link packet).takes link' packet' = (t.takes link' packet').sends delay link packet := by
  have hheard : (t.sends delay link packet).heard link' = t.heard link' := by
    simp only [heard, sends, headD_update_push harrivals]
  have harrival : (t.takes link' packet').arrival delay link packet = t.arrival delay link packet := by
    simp only [arrival, takes, Function.update_of_ne hne]
  have hclock : (t.takes link' packet').clocks link.sender = t.clocks link.sender := Function.update_of_ne hne _ _
  refine Timing.ext ?_ ?_ ?_ ?_
  · simp only [takes, sends] at hheard ⊢
    rw [hheard]
  · simp only [takes, sends] at harrival ⊢
    rw [harrival]
    exact update_push_tail harrivals _ _
  · simp only [takes, sends] at harrival ⊢
    rw [harrival]
  · simp only [takes, sends, trace] at hheard hclock ⊢
    rw [hheard, hclock]
    exact update_push_comm hne _ _

theorem records_sends (hne : me ≠ link.sender) (marker : Marker) :
    (t.records me marker).sends delay link packet = (t.sends delay link packet).records me marker :=
  Timing.ext rfl rfl rfl (update_push_comm hne _ _)

theorem records_comm (hne : me ≠ me') (marker marker' : Marker) :
    (t.records me marker).records me' marker' = (t.records me' marker').records me marker :=
  Timing.ext rfl rfl rfl (update_push_comm hne _ _)

theorem records_takes (hne : me ≠ link.recipient) (marker : Marker) :
    (t.records me marker).takes link packet = (t.takes link packet).records me marker := by
  have hclock : (t.takes link packet).clocks me = t.clocks me := Function.update_of_ne hne _ _
  refine Timing.ext rfl rfl rfl ?_
  simp only [takes, records, trace] at hclock ⊢
  rw [hclock]
  exact update_push_comm hne _ _

theorem goes_comm (hne : me ≠ me') (op op' : NetOp) :
    (t.goes delay me op).goes delay me' op' = (t.goes delay me' op').goes delay me op := by
  cases op with
  | sendTo =>
    cases op' with
    | sendTo => exact sends_comm hne
    | record => exact (records_sends hne.symm _).symm
    | recvFrom | recvAny | recvFromWithTimeout | recvAnyWithTimeout => rfl
  | record =>
    cases op' with
    | sendTo => exact records_sends hne _
    | record => exact records_comm hne _ _
    | recvFrom | recvAny | recvFromWithTimeout | recvAnyWithTimeout => rfl
  | recvFrom | recvAny | recvFromWithTimeout | recvAnyWithTimeout => rfl

theorem goes_takes (hne : me ≠ link.recipient) (harrivals : t.arrivals link ≠ []) (op : NetOp) :
    (t.goes delay me op).takes link packet = (t.takes link packet).goes delay me op := by
  cases op with
  | sendTo => exact sends_takes hne harrivals
  | record => exact records_takes hne _
  | recvFrom | recvAny | recvFromWithTimeout | recvAnyWithTimeout => rfl

theorem after_congr {ρ : Type} {net net' : NetState ρ} {act : Act} (hprog : net'.progs act.party = net.progs act.party)
    (hhead : ∀ sender, act.source = some sender →
      (net'.channels ⟨sender, act.party⟩).head? = (net.channels ⟨sender, act.party⟩).head?) :
    t.after delay net' act = t.after delay net act := by
  obtain ⟨me, source⟩ := act
  cases source with
  | none => simp only [after, hprog]
  | some sender => simp only [after, hhead sender rfl]

theorem after_goes {ρ : Type} {net : NetState ρ} {act : Act} {op : NetOp} {next : op.Out → Prog ρ}
    (hsource : act.source = none) (hprog : net.progs act.party = .call op next) :
    t.after delay net act = t.goes delay act.party op := by
  simp only [after, hsource, hprog]

theorem after_hears {ρ : Type} {net : NetState ρ} {act : Act} {sender : PartyId}
    (hsource : act.source = some sender) (hhead : (net.channels ⟨sender, act.party⟩).head? = some packet) :
    t.after delay net act = t.takes ⟨sender, act.party⟩ packet := by
  simp only [after, hsource, hhead]

end Timing

namespace NetState

variable {ρ : Type} {parties : List PartyId} {s a b : NetState ρ} {act act' : Act}

theorem Directed.step_congr (h : s.Directed parties) {parties' : List PartyId}
    (hparties : ∀ p, p ∈ parties' ↔ p ∈ parties) (act : Act) : s.step parties' act = s.step parties act := by
  unfold NetState.step
  by_cases hme : act.party ∈ parties
  · have hdirected := h act.party hme
    rw [if_pos hme, if_pos ((hparties _).mpr hme)]
    generalize s.progs act.party = prog at hdirected
    cases hdirected <;> rfl
  · rw [if_neg hme, if_neg (mt (hparties _).mp hme)]

theorem step_other (hne : act.party ≠ act'.party) (ha : s.step parties act = some a)
    (hb : s.step parties act' = some b) : a.progs act'.party = s.progs act'.party ∧
      ∀ sender, act'.source = some sender →
        (a.channels ⟨sender, act'.party⟩).head? = (s.channels ⟨sender, act'.party⟩).head? := by
  obtain ⟨-, op, next, -, ha⟩ := step_eq_some.mp ha
  obtain ⟨-, op', next', -, hb⟩ := step_eq_some.mp hb
  have hhead : ∀ sender, act'.source = some sender → ∃ packet,
      (s.channels ⟨sender, act'.party⟩).head? = some packet := by
    intro sender hsender
    obtain ⟨hnone, -⟩ | ⟨sender', packet, -, hsome, -, hhead, -⟩ := hb
    · cases hnone.symm.trans hsender
    · obtain rfl := Option.some.inj (hsome.symm.trans hsender)
      exact ⟨packet, hhead⟩
  obtain ⟨-, out, -, rfl⟩ | ⟨sender, packet, out, -, -, -, -, rfl⟩ := ha
  · refine ⟨Function.update_of_ne hne.symm _ _, fun sender' hsender' => ?_⟩
    obtain ⟨packet, hpacket⟩ := hhead sender' hsender'
    exact (head?_dispatch hpacket _ _).trans hpacket.symm
  · refine ⟨Function.update_of_ne hne.symm _ _, fun sender' _ => ?_⟩
    exact head?_dropPacket fun h => hne (congrArg Link.recipient h).symm

end NetState

namespace TimedNet

variable {ρ : Type} {delay : Delay} {parties : List PartyId} {s a b : TimedNet ρ} {act act' : Act}

theorem step_eq_some : s.step delay parties act = some a ↔
    s.net.step parties act = some a.net ∧ a.timing = s.timing.after delay s.net act := by
  rw [step, Option.map_eq_some_iff]
  constructor
  · rintro ⟨net, hnet, rfl⟩
    exact ⟨hnet, rfl⟩
  · rintro ⟨hnet, htiming⟩
    exact ⟨a.net, hnet, by rw [← htiming]⟩

/-- Every packet of a link has its arrival. -/
def Paired (s : TimedNet ρ) : Prop := ∀ link, (s.timing.arrivals link).length = (s.net.channels link).length

theorem Paired.init (program : PartyId → Prog ρ) : (init program).Paired := fun _ => rfl

theorem Paired.step (h : s.Paired) (ha : s.step delay parties act = some a) : a.Paired := by
  obtain ⟨hnet, htiming⟩ := step_eq_some.mp ha
  obtain ⟨-, op, next, hprog, hnet⟩ := NetState.step_eq_some.mp hnet
  intro link
  obtain ⟨hsource, out, -, hnet⟩ | ⟨sender, packet, out, hsource, -, hhead, -, hnet⟩ := hnet
  · rw [htiming, Timing.after_goes hsource hprog, hnet]
    cases op with
    | sendTo partyId packet =>
      change (Function.update s.timing.arrivals ⟨act.party, partyId⟩ _ link).length =
        (Function.update s.net.channels ⟨act.party, partyId⟩ _ link).length
      by_cases hl : link = ⟨act.party, partyId⟩
      · rw [hl, Function.update_self, Function.update_self, List.length_append, List.length_append, h]
        rfl
      · rw [Function.update_of_ne hl, Function.update_of_ne hl, h]
    | recvFrom | recvAny | recvFromWithTimeout | recvAnyWithTimeout | record => exact h link
  · rw [htiming, Timing.after_hears hsource hhead, hnet]
    change (Function.update s.timing.arrivals ⟨sender, act.party⟩ _ link).length =
      (Function.update s.net.channels ⟨sender, act.party⟩ _ link).length
    by_cases hl : link = ⟨sender, act.party⟩
    · rw [hl, Function.update_self, Function.update_self, List.length_tail, List.length_tail, h]
    · rw [Function.update_of_ne hl, Function.update_of_ne hl, h]

theorem Paired.arrivals_ne_nil (h : s.Paired) {link : Link} {packet : Packet}
    (hhead : (s.net.channels link).head? = some packet) : s.timing.arrivals link ≠ [] := by
  obtain ⟨rest, hrest⟩ := List.head?_eq_some_iff.mp hhead
  rw [← List.length_pos_iff, h, hrest]
  exact Nat.succ_pos _

theorem Paired.after_comm (h : s.Paired) (hne : act.party ≠ act'.party)
    (ha : s.net.step parties act = some a.net) (hb : s.net.step parties act' = some b.net) :
    (s.timing.after delay s.net act).after delay s.net act' =
      (s.timing.after delay s.net act').after delay s.net act := by
  obtain ⟨-, op, next, hprog, ha⟩ := NetState.step_eq_some.mp ha
  obtain ⟨-, op', next', hprog', hb⟩ := NetState.step_eq_some.mp hb
  obtain ⟨hsource, -⟩ | ⟨sender, packet, -, hsource, -, hhead, -⟩ := ha
  · obtain ⟨hsource', -⟩ | ⟨sender', packet', -, hsource', -, hhead', -⟩ := hb
    · simp only [Timing.after_goes hsource hprog, Timing.after_goes hsource' hprog']
      exact Timing.goes_comm hne op op'
    · simp only [Timing.after_goes hsource hprog, Timing.after_hears hsource' hhead']
      exact Timing.goes_takes hne (h.arrivals_ne_nil hhead') op
  · obtain ⟨hsource', -⟩ | ⟨sender', packet', -, hsource', -, hhead', -⟩ := hb
    · simp only [Timing.after_hears hsource hhead, Timing.after_goes hsource' hprog']
      exact (Timing.goes_takes hne.symm (h.arrivals_ne_nil hhead) op').symm
    · simp only [Timing.after_hears hsource hhead, Timing.after_hears hsource' hhead']
      exact Timing.takes_comm hne

def Steps (delay : Delay) (parties : List PartyId) (s a : TimedNet ρ) : Prop :=
  ∃ act, s.step delay parties act = some a

/-- **The diamond property**, with times. -/
theorem diamond (delay : Delay) (parties : List PartyId) :
    Lib.Confluence.Diamond (Steps (ρ := ρ) delay parties) fun s => s.net.Directed parties ∧ s.Paired where
  keeps := fun ⟨hdirected, hpaired⟩ ⟨_, hact⟩ =>
    ⟨hdirected.step (step_eq_some.mp hact).1, hpaired.step hact⟩
  joins := by
    rintro s a b ⟨hdirected, hpaired⟩ ⟨act, ha⟩ ⟨act', hb⟩
    obtain ⟨hnetA, htimeA⟩ := step_eq_some.mp ha
    obtain ⟨hnetB, htimeB⟩ := step_eq_some.mp hb
    by_cases hparty : act.party = act'.party
    · obtain rfl := hdirected.act_unique hparty hnetA hnetB
      exact .inl (Option.some.inj (ha.symm.trans hb))
    · obtain ⟨net, hnetA', hnetB'⟩ := NetState.step_comm hparty hnetA hnetB
      obtain ⟨hprogA, hheadA⟩ := NetState.step_other hparty hnetA hnetB
      obtain ⟨hprogB, hheadB⟩ := NetState.step_other (Ne.symm hparty) hnetB hnetA
      refine .inr ⟨⟨net, a.timing.after delay a.net act'⟩, ⟨act', step_eq_some.mpr ⟨hnetA', rfl⟩⟩, act,
        step_eq_some.mpr ⟨hnetB', ?_⟩⟩
      rw [Timing.after_congr hprogA hheadA, Timing.after_congr hprogB hheadB, htimeA, htimeB]
      exact hpaired.after_comm hparty hnetA hnetB

theorem run_cons {schedule : List Act} : s.run delay parties (act :: schedule) = some a ↔
    ∃ t, s.step delay parties act = some t ∧ t.run delay parties schedule = some a := by
  rw [run, Option.bind_eq_bind, Option.bind_eq_some_iff]

theorem run_append {schedule rest : List Act} (h : s.run delay parties schedule = some a) :
    s.run delay parties (schedule ++ rest) = a.run delay parties rest := by
  induction schedule generalizing s with
  | nil => exact congrArg (fun t => t.run delay parties rest) (Option.some.inj h)
  | cons act schedule ih =>
    obtain ⟨t, ht, h⟩ := run_cons.mp h
    rw [List.cons_append, run, ht]
    exact ih h

/-- The clocks hold no step of the network back. -/
theorem run_net {schedule : List Act} (h : s.run delay parties schedule = some a) :
    s.net.run parties schedule = some a.net := by
  induction schedule generalizing s with
  | nil => rw [← Option.some.inj h]; rfl
  | cons act schedule ih =>
    obtain ⟨t, ht, h⟩ := run_cons.mp h
    exact NetState.run_cons.mpr ⟨t.net, (step_eq_some.mp ht).1, ih h⟩

theorem exists_run {net : NetState ρ} {schedule : List Act} (h : s.net.run parties schedule = some net) :
    ∃ a, s.run delay parties schedule = some a ∧ a.net = net := by
  induction schedule generalizing s with
  | nil => exact ⟨s, rfl, Option.some.inj h⟩
  | cons act schedule ih =>
    obtain ⟨t, ht, h⟩ := NetState.run_cons.mp h
    obtain ⟨a, ha, hnet⟩ := @ih ⟨t, s.timing.after delay s.net act⟩ h
    exact ⟨a, run_cons.mpr ⟨_, step_eq_some.mpr ⟨ht, rfl⟩, ha⟩, hnet⟩

theorem stuck_iff : Lib.Confluence.Stuck (Steps delay parties) s ↔ s.net.Maximal parties := by
  constructor
  · intro h act
    refine Option.eq_none_iff_forall_ne_some.mpr fun net hnet => ?_
    exact h ⟨net, s.timing.after delay s.net act⟩ ⟨act, step_eq_some.mpr ⟨hnet, rfl⟩⟩
  · rintro h a ⟨act, hact⟩
    have hnet := (step_eq_some.mp hact).1
    rw [h act] at hnet
    cases hnet

theorem steps_of_run {schedule : List Act} (h : s.run delay parties schedule = some a) :
    Lib.Confluence.Steps (Steps delay parties) schedule.length s a := by
  induction schedule generalizing s with
  | nil => exact Option.some.inj h
  | cons act schedule ih =>
    obtain ⟨t, ht, h⟩ := run_cons.mp h
    exact ⟨t, ⟨act, ht⟩, ih h⟩

theorem run_congr (hdirected : s.net.Directed parties) {parties' : List PartyId}
    (hparties : ∀ p, p ∈ parties' ↔ p ∈ parties) {schedule : List Act} (h : s.run delay parties schedule = some a) :
    s.run delay parties' schedule = some a := by
  induction schedule generalizing s with
  | nil => exact h
  | cons act schedule ih =>
    obtain ⟨t, ht, h⟩ := run_cons.mp h
    obtain ⟨hnet, htiming⟩ := step_eq_some.mp ht
    refine run_cons.mpr ⟨t, step_eq_some.mpr ⟨?_, htiming⟩, ih (hdirected.step hnet) h⟩
    rw [hdirected.step_congr hparties, hnet]

/-- **All maximal schedules end with the same times.** -/
theorem final_unique (hdirected : s.net.Directed parties) (hpaired : s.Paired) {schedule schedule' : List Act}
    (ha : s.run delay parties schedule = some a) (hb : s.run delay parties schedule' = some b)
    (hmaxA : a.net.Maximal parties) (hmaxB : b.net.Maximal parties) : a = b :=
  ((diamond delay parties).stuck_unique ⟨hdirected, hpaired⟩ (steps_of_run ha) (stuck_iff.mpr hmaxA)
    (steps_of_run hb) (stuck_iff.mpr hmaxB)).symm

end TimedNet

/-! ### Two delay models -/

def Event.untimed : Event → Event
  | .start _ => .start 0
  | .stop _ => .stop 0
  | .sendData _ link size contentCount => .sendData 0 link size contentCount
  | .receiveData _ link size contentCount => .receiveData 0 link size contentCount
  | .output _ bytes => .output 0 bytes
  | .protocolBegin _ protocolName => .protocolBegin 0 protocolName
  | .protocolEnd _ protocolName => .protocolEnd 0 protocolName

/-- One event at related times. -/
def Event.Related (R : Duration → Duration → Prop) (e e' : Event) : Prop :=
  e.untimed = e'.untimed ∧ R e.timestamp e'.timestamp

theorem Event.related_marker {R : Duration → Duration → Prop} {a a' : Duration} (h : R a a') (marker : Marker) :
    (marker.event a).Related R (marker.event a') := by
  cases marker <;> exact ⟨rfl, h⟩

/-- Zero, maxima and the delays of the two models keep the relation. -/
structure Transfers (R : Duration → Duration → Prop) (delay delay' : Delay) : Prop where
  zero : R 0 0
  max : ∀ {a a' b b'}, R a a' → R b b' → R (Max.max a b) (Max.max a' b')
  delay : ∀ {a a'} link size, R a a' → R (a + delay link size) (a' + delay' link size)

structure Timing.Related (R : Duration → Duration → Prop) (t t' : Timing) : Prop where
  clocks : ∀ p, R (t.clocks p) (t'.clocks p)
  arrivals : ∀ link, List.Forall₂ R (t.arrivals link) (t'.arrivals link)
  last : ∀ link, R (t.last link) (t'.last link)
  traces : ∀ p, List.Forall₂ (Event.Related R) (t.traces p) (t'.traces p)

theorem rel_headD {α β : Type} {R : α → β → Prop} {l : List α} {l' : List β} (h : List.Forall₂ R l l') {a : α} {b : β}
    (hab : R a b) : R (l.headD a) (l'.headD b) := by
  cases h with
  | nil => exact hab
  | cons hhead _ => exact hhead

theorem rel_tail {α β : Type} {R : α → β → Prop} {l : List α} {l' : List β} (h : List.Forall₂ R l l') :
    List.Forall₂ R l.tail l'.tail := by
  cases h with
  | nil => exact .nil
  | cons _ htail => exact htail

namespace Timing.Related

variable {R : Duration → Duration → Prop} {delay delay' : Delay} {t t' : Timing}

theorem init (hR : Transfers R delay delay') : Related R .init .init :=
  ⟨fun _ => hR.zero, fun _ => .nil, fun _ => hR.zero, fun _ => .nil⟩

theorem trace (h : Related R t t') {e e' : Event} (he : e.Related R e') (me p : PartyId) :
    List.Forall₂ (Event.Related R) (t.trace me e p) (t'.trace me e' p) := by
  unfold Timing.trace
  by_cases hp : p = me
  · rw [hp, Function.update_self, Function.update_self]
    exact List.rel_append (h.traces me) (.cons he .nil)
  · rw [Function.update_of_ne hp, Function.update_of_ne hp]
    exact h.traces p

theorem arrival (hR : Transfers R delay delay') (h : Related R t t') (link : Link) (packet : Packet) :
    R (t.arrival delay link packet) (t'.arrival delay' link packet) :=
  hR.max (hR.delay link packet.size (h.clocks link.sender)) (h.last link)

theorem heard (hR : Transfers R delay delay') (h : Related R t t') (link : Link) :
    R (t.heard link) (t'.heard link) :=
  hR.max (h.clocks link.recipient) (rel_headD (h.arrivals link) hR.zero)

theorem sends (hR : Transfers R delay delay') (h : Related R t t') (link : Link) (packet : Packet) :
    Related R (t.sends delay link packet) (t'.sends delay' link packet) where
  clocks := h.clocks
  arrivals l := by
    unfold Timing.sends
    by_cases hl : l = link
    · subst hl
      simp only [Function.update_self]
      exact List.rel_append (h.arrivals l) (.cons (h.arrival hR l packet) .nil)
    · simp only [Function.update_of_ne hl]
      exact h.arrivals l
  last l := by
    unfold Timing.sends
    by_cases hl : l = link
    · subst hl
      simp only [Function.update_self]
      exact h.arrival hR l packet
    · simp only [Function.update_of_ne hl]
      exact h.last l
  traces := by
    have hevent : Event.Related R
        (.sendData (t.clocks link.sender) link packet.size packet.composition)
        (.sendData (t'.clocks link.sender) link packet.size packet.composition) := ⟨rfl, h.clocks link.sender⟩
    exact h.trace hevent link.sender

theorem takes (hR : Transfers R delay delay') (h : Related R t t') (link : Link) (packet : Packet) :
    Related R (t.takes link packet) (t'.takes link packet) where
  clocks p := by
    unfold Timing.takes
    by_cases hp : p = link.recipient
    · simp only [hp, Function.update_self]
      exact h.heard hR link
    · simp only [Function.update_of_ne hp]
      exact h.clocks p
  arrivals l := by
    unfold Timing.takes
    by_cases hl : l = link
    · subst hl
      simp only [Function.update_self]
      exact rel_tail (h.arrivals l)
    · simp only [Function.update_of_ne hl]
      exact h.arrivals l
  last := h.last
  traces := by
    have hevent : Event.Related R (.receiveData (t.heard link) link packet.size packet.composition)
        (.receiveData (t'.heard link) link packet.size packet.composition) := ⟨rfl, h.heard hR link⟩
    exact h.trace hevent link.recipient

theorem records (h : Related R t t') (me : PartyId) (marker : Marker) :
    Related R (t.records me marker) (t'.records me marker) :=
  ⟨h.clocks, h.arrivals, h.last, h.trace (Event.related_marker (h.clocks me) marker) me⟩

theorem after (hR : Transfers R delay delay') (h : Related R t t') {ρ : Type} (net : NetState ρ) (act : Act) :
    Related R (t.after delay net act) (t'.after delay' net act) := by
  unfold Timing.after
  split
  · split
    · rename_i op _ _
      cases op with
      | sendTo => exact h.sends hR _ _
      | record => exact h.records _ _
      | recvFrom | recvAny | recvFromWithTimeout | recvAnyWithTimeout => exact h
    · exact h
  · split
    · exact h.takes hR _ _
    · exact h

end Timing.Related

/-- **One schedule under two delay models** gives one state at related times. -/
theorem TimedNet.run_related {ρ : Type} {R : Duration → Duration → Prop} {delay delay' : Delay}
    {parties : List PartyId} (hR : Transfers R delay delay') {s s' a : TimedNet ρ} (hnet : s'.net = s.net)
    (h : s.timing.Related R s'.timing) {schedule : List Act} (ha : s.run delay parties schedule = some a) :
    ∃ a', s'.run delay' parties schedule = some a' ∧ a'.net = a.net ∧ a.timing.Related R a'.timing := by
  induction schedule generalizing s s' with
  | nil =>
    obtain rfl := Option.some.inj ha
    exact ⟨s', rfl, hnet, h⟩
  | cons act schedule ih =>
    obtain ⟨t, ht, ha⟩ := run_cons.mp ha
    obtain ⟨hstep, htiming⟩ := step_eq_some.mp ht
    obtain ⟨t', ht', hnet', hrelated⟩ : ∃ t', s'.step delay' parties act = some t' ∧ t'.net = t.net ∧
        t.timing.Related R t'.timing := by
      refine ⟨⟨t.net, s'.timing.after delay' s'.net act⟩, step_eq_some.mpr ⟨hnet ▸ hstep, rfl⟩, rfl, ?_⟩
      rw [htiming, hnet]
      exact h.after hR s.net act
    obtain ⟨a', ha', hfinal⟩ := ih hnet' hrelated ha
    exact ⟨a', run_cons.mpr ⟨t', ht', ha'⟩, hfinal⟩

end SclRs
