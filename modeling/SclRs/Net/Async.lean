import Mathlib.Data.DFinsupp.WellFounded
import Mathlib.SetTheory.Ordinal.Family
import SclRs.Lib.Confluence
import SclRs.Net.Simulation.Recv

/-!
# The asynchronous network

The network that protocols are written for: each directed link is FIFO and may hold a packet back for
any time. A step is a party's next operation, with the link it takes a packet from when it is a
receive; a timed receive may also time out whenever it likes. What a link has delivered to its
recipient's code is kept in `received`.

Parties that receive only from a named sender (`Prog.Directed`) have the diamond property, and code is
well founded, so that all schedules of such parties can be completed and end in one state
(`Directed.exists_final`).
-/

namespace SclRs

structure NetState (ρ : Type) where
  progs : PartyId → Prog ρ
  channels : Link → List Packet
  received : Link → List Packet

/-- Party `party` goes on, with the next packet of `source` when it receives. -/
structure Act where
  party : PartyId
  source : Option PartyId
deriving DecidableEq

def Act.goes (me : PartyId) : Act := ⟨me, none⟩

def Act.hears (me sender : PartyId) : Act := ⟨me, some sender⟩

/-- What an operation that takes no packet resolves to. -/
def NetOp.localOut : (op : NetOp) → Option op.Out
  | sendTo _ packet => some (.ok packet.size)
  | record _ => some ()
  | recvFromWithTimeout partyId _ => some (.error (.timeout (some partyId)))
  | recvAnyWithTimeout _ => some (.error (.timeout none))
  | recvFrom _ => none
  | recvAny => none

def pushPacket (channels : Link → List Packet) (link : Link) (packet : Packet) :
    Link → List Packet :=
  Function.update channels link (channels link ++ [packet])

def dropPacket (channels : Link → List Packet) (link : Link) : Link → List Packet :=
  Function.update channels link (channels link).tail

/-- The channels after party `me` has sent what the operation sends. -/
def NetOp.dispatch (me : PartyId) (channels : Link → List Packet) : NetOp → Link → List Packet
  | sendTo partyId packet => pushPacket channels ⟨me, partyId⟩ packet
  | _ => channels

namespace NetState

variable {ρ : Type}

def init (program : PartyId → Prog ρ) : NetState ρ := ⟨program, fun _ => [], fun _ => []⟩

/-- Party `me` has resolved its operation without a packet. -/
def proceed (s : NetState ρ) (me : PartyId) (op : NetOp) (prog : Prog ρ) : NetState ρ where
  progs := Function.update s.progs me prog
  channels := op.dispatch me s.channels
  received := s.received

/-- The recipient of `link` has resolved its operation with the packet. -/
def take (s : NetState ρ) (link : Link) (packet : Packet) (prog : Prog ρ) : NetState ρ where
  progs := Function.update s.progs link.recipient prog
  channels := dropPacket s.channels link
  received := pushPacket s.received link packet

/-- One step of the network. -/
def step (parties : List PartyId) (s : NetState ρ) (act : Act) : Option (NetState ρ) :=
  if act.party ∈ parties then
    match s.progs act.party with
    | .call op next =>
      match act.source with
      | none => op.localOut.map fun out => s.proceed act.party op (next out)
      | some sender =>
        if (⟨sender, act.party⟩ : Link) ∈ op.awaits act.party parties then do
          let packet ← (s.channels ⟨sender, act.party⟩).head?
          let out ← op.packetOut sender packet
          return s.take ⟨sender, act.party⟩ packet (next out)
        else none
    | .ret _ => none
    | .panic => none
  else none

def run (parties : List PartyId) (s : NetState ρ) : List Act → Option (NetState ρ)
  | [] => some s
  | act :: schedule => do (← s.step parties act).run parties schedule

/-- No schedule goes on from here. -/
def Maximal (parties : List PartyId) (s : NetState ρ) : Prop := ∀ act, s.step parties act = none

variable {parties : List PartyId} {s s' : NetState ρ}

/-- What a step can do. -/
theorem step_eq_some {act : Act} :
    s.step parties act = some s' ↔ act.party ∈ parties ∧
      ∃ op next, s.progs act.party = .call op next ∧
        ((act.source = none ∧ ∃ out, op.localOut = some out ∧
            s' = s.proceed act.party op (next out)) ∨
          ∃ sender packet out, act.source = some sender ∧
            (⟨sender, act.party⟩ : Link) ∈ op.awaits act.party parties ∧
            (s.channels ⟨sender, act.party⟩).head? = some packet ∧
            op.packetOut sender packet = some out ∧
            s' = s.take ⟨sender, act.party⟩ packet (next out)) := by
  obtain ⟨me, source⟩ := act
  rw [step]
  by_cases hme : me ∈ parties
  · cases hprog : s.progs me with
    | ret | panic => simp
    | call op next =>
      simp only [hme, if_true, true_and, Prog.call.injEq, and_assoc]
      cases source with
      | none =>
        simp only [Option.map_eq_some_iff, true_and, reduceCtorEq, false_and, exists_false, or_false]
        constructor
        · rintro ⟨out, hout, rfl⟩
          exact ⟨op, next, rfl, .rfl, out, hout, rfl⟩
        · rintro ⟨op', next', rfl, hnext, out, hout, rfl⟩
          obtain rfl := eq_of_heq hnext
          exact ⟨out, hout, rfl⟩
      | some sender =>
        simp only [reduceCtorEq, false_and, false_or, Option.some.injEq]
        constructor
        · intro h
          split_ifs at h with hmem
          simp only [Option.bind_eq_bind, Option.bind_eq_some_iff, Option.pure_def,
            Option.some.injEq] at h
          obtain ⟨packet, hhead, out, hout, rfl⟩ := h
          exact ⟨op, next, rfl, .rfl, sender, packet, out, rfl, hmem, hhead, hout, rfl⟩
        · rintro ⟨op', next', rfl, hnext, sender', packet, out, rfl, hmem, hhead, hout, rfl⟩
          obtain rfl := eq_of_heq hnext
          rw [if_pos hmem]
          simp [hhead, hout]
  · simp [hme]

theorem run_cons {act : Act} {schedule : List Act} :
    s.run parties (act :: schedule) = some s' ↔
      ∃ t, s.step parties act = some t ∧ t.run parties schedule = some s' := by
  rw [run, Option.bind_eq_bind, Option.bind_eq_some_iff]

theorem run_append {a b : List Act} {t : NetState ρ} (h : s.run parties a = some t) :
    s.run parties (a ++ b) = t.run parties b := by
  induction a generalizing s with
  | nil => exact congrArg (fun u => u.run parties b) (Option.some.inj h)
  | cons act a ih =>
    obtain ⟨u, hu, h⟩ := run_cons.mp h
    rw [List.cons_append, run, hu]
    exact ih h

theorem progs_of_run {p : PartyId} (hended : ∀ op next, s.progs p ≠ .call op next)
    {schedule : List Act} (hrun : s.run parties schedule = some s') : s'.progs p = s.progs p := by
  induction schedule generalizing s with
  | nil => rw [← Option.some.inj hrun]
  | cons act schedule ih =>
    obtain ⟨t, ht, hrun⟩ := run_cons.mp hrun
    obtain ⟨-, op, next, hprog, ht⟩ := step_eq_some.mp ht
    have hne : p ≠ act.party := by
      rintro rfl
      exact hended op next hprog
    have hkept : t.progs p = s.progs p := by
      obtain ⟨-, out, -, rfl⟩ | ⟨-, -, out, -, -, -, -, rfl⟩ := ht
      · exact Function.update_of_ne hne _ _
      · exact Function.update_of_ne hne _ _
    rw [ih (by rwa [hkept]) hrun, hkept]

def Steps (parties : List PartyId) (s s' : NetState ρ) : Prop :=
  ∃ act, s.step parties act = some s'

theorem stuck_iff : Lib.Confluence.Stuck (Steps parties) s ↔ s.Maximal parties := by
  constructor
  · intro h act
    exact Option.eq_none_iff_forall_ne_some.mpr fun s' hs' => h s' ⟨act, hs'⟩
  · rintro h s' ⟨act, hact⟩
    rw [h act] at hact
    cases hact

theorem steps_iff {n : Nat} : Lib.Confluence.Steps (Steps parties) n s s' ↔
    ∃ schedule : List Act, schedule.length = n ∧ s.run parties schedule = some s' := by
  induction n generalizing s with
  | zero =>
    constructor
    · rintro rfl
      exact ⟨[], rfl, rfl⟩
    · rintro ⟨schedule, hlen, hrun⟩
      obtain rfl := List.length_eq_zero_iff.mp hlen
      exact Option.some.inj hrun
  | succ n ih =>
    constructor
    · rintro ⟨t, ⟨act, hact⟩, hrest⟩
      obtain ⟨schedule, rfl, hrun⟩ := ih.mp hrest
      exact ⟨act :: schedule, rfl, run_cons.mpr ⟨t, hact, hrun⟩⟩
    · rintro ⟨schedule, hlen, hrun⟩
      obtain ⟨act, schedule, rfl⟩ := List.exists_cons_of_length_eq_add_one hlen
      obtain ⟨t, hact, hrun⟩ := run_cons.mp hrun
      exact ⟨t, ⟨act, hact⟩, ih.mpr ⟨schedule, by simpa using hlen, hrun⟩⟩

end NetState

/-! ### Parties that name their senders -/

/-- The code uses only `send_to` (as does `send_many`), `recv_from` and trace markers. -/
inductive Prog.Directed {ρ : Type} : Prog ρ → Prop
  | ret (result : ρ) : Directed (.ret result)
  | panic : Directed .panic
  | sendTo {partyId : PartyId} {packet : Packet} {next : _ → Prog ρ} :
      (∀ out, Directed (next out)) → Directed (.call (.sendTo partyId packet) next)
  | recvFrom {partyId : PartyId} {next : _ → Prog ρ} :
      (∀ out, Directed (next out)) → Directed (.call (.recvFrom partyId) next)
  | record {marker : Marker} {next : _ → Prog ρ} :
      (∀ out, Directed (next out)) → Directed (.call (.record marker) next)

namespace Prog.Directed

variable {ρ α β : Type}

theorem next {op : NetOp} {next : op.Out → Prog ρ} (h : Directed (.call op next)) (out : op.Out) :
    Directed (next out) := by
  cases h with
  | sendTo h | recvFrom h | record h => exact h out

theorem bind {p : Prog α} {f : α → Prog β} (hp : p.Directed) (hf : ∀ a, (f a).Directed) :
    (p >>= f).Directed := by
  induction hp with
  | ret a => exact hf a
  | panic => exact .panic
  | sendTo _ ih => exact .sendTo ih
  | recvFrom _ ih => exact .recvFrom ih
  | record _ ih => exact .record ih

theorem sendMany (messages : List (PartyId × Packet)) : (Prog.sendMany messages).Directed := by
  induction messages with
  | nil => exact .ret _
  | cons message messages ih =>
    refine .sendTo fun out => ?_
    cases out with
    | error e => exact .ret _
    | ok size => exact ih

theorem act_unique {op : NetOp} {next : op.Out → Prog ρ} (h : Directed (.call op next))
    {me sender : PartyId} {parties : List PartyId}
    (hmem : (⟨sender, me⟩ : Link) ∈ op.awaits me parties) : op = .recvFrom sender := by
  cases h with
  | sendTo | record => cases hmem
  | recvFrom => rw [show sender = _ from congrArg Link.sender (List.mem_singleton.mp hmem)]

theorem timeout?_eq_none {op : NetOp} {next : op.Out → Prog ρ} (h : Directed (.call op next)) :
    op.timeout? = none := by
  cases h <;> rfl

end Prog.Directed

/-! ### Steps of different parties commute -/

section
variable (channels : Link → List Packet)

theorem pushPacket_comm {l l' : Link} (hl : l ≠ l') (p p' : Packet) :
    pushPacket (pushPacket channels l p) l' p' = pushPacket (pushPacket channels l' p') l p := by
  simp only [pushPacket, Function.update_of_ne hl, Function.update_of_ne hl.symm]
  exact Function.update_comm hl _ _ _

theorem dropPacket_comm {l l' : Link} (hl : l ≠ l') :
    dropPacket (dropPacket channels l) l' = dropPacket (dropPacket channels l') l := by
  simp only [dropPacket, Function.update_of_ne hl, Function.update_of_ne hl.symm]
  exact Function.update_comm hl _ _ _

variable {channels}

theorem dropPacket_pushPacket {l : Link} {packet : Packet} (hhead : (channels l).head? = some packet)
    (l' : Link) (p : Packet) :
    dropPacket (pushPacket channels l' p) l = pushPacket (dropPacket channels l) l' p := by
  by_cases hl : l = l'
  · subst hl
    obtain ⟨rest, hrest⟩ := List.head?_eq_some_iff.mp hhead
    simp [dropPacket, pushPacket, hrest]
  · simp only [dropPacket, pushPacket, Function.update_of_ne hl, Function.update_of_ne (Ne.symm hl)]
    exact Function.update_comm (Ne.symm hl) _ _ _

theorem head?_pushPacket {l : Link} {packet : Packet} (hhead : (channels l).head? = some packet)
    (l' : Link) (p : Packet) : (pushPacket channels l' p l).head? = some packet := by
  by_cases hl : l = l'
  · subst hl
    simp [pushPacket, List.head?_append, hhead]
  · rwa [pushPacket, Function.update_of_ne hl]

theorem head?_dropPacket {l l' : Link} (hl : l ≠ l') :
    (dropPacket channels l' l).head? = (channels l).head? := by
  rw [dropPacket, Function.update_of_ne hl]

theorem head?_dispatch {l : Link} {packet : Packet} (hhead : (channels l).head? = some packet)
    (me : PartyId) (op : NetOp) : (op.dispatch me channels l).head? = some packet := by
  cases op with
  | sendTo => exact head?_pushPacket hhead _ _
  | recvFrom | recvAny | recvFromWithTimeout | recvAnyWithTimeout | record => exact hhead

theorem dispatch_comm {me me' : PartyId} (hne : me ≠ me') (op op' : NetOp) :
    op.dispatch me (op'.dispatch me' channels) = op'.dispatch me' (op.dispatch me channels) := by
  cases op with
  | sendTo =>
    cases op' with
    | sendTo => exact pushPacket_comm _ (fun h => hne (congrArg Link.sender h).symm) _ _
    | recvFrom | recvAny | recvFromWithTimeout | recvAnyWithTimeout | record => rfl
  | recvFrom | recvAny | recvFromWithTimeout | recvAnyWithTimeout | record => rfl

theorem dropPacket_dispatch {l : Link} {packet : Packet} (hhead : (channels l).head? = some packet)
    (me : PartyId) (op : NetOp) :
    dropPacket (op.dispatch me channels) l = op.dispatch me (dropPacket channels l) := by
  cases op with
  | sendTo => exact dropPacket_pushPacket hhead _ _
  | recvFrom | recvAny | recvFromWithTimeout | recvAnyWithTimeout | record => rfl

end

namespace NetState

variable {ρ : Type} {parties : List PartyId} {s a b : NetState ρ}

/-- **Steps of different parties commute.** -/
theorem step_comm {act act' : Act} (hne : act.party ≠ act'.party) (ha : s.step parties act = some a)
    (hb : s.step parties act' = some b) :
    ∃ t, a.step parties act' = some t ∧ b.step parties act = some t := by
  obtain ⟨hme, op, next, hprog, ha⟩ := step_eq_some.mp ha
  obtain ⟨hme', op', next', hprog', hb⟩ := step_eq_some.mp hb
  have hprogs : ∀ p p' : Prog ρ,
      Function.update (Function.update s.progs act.party p) act'.party p' =
        Function.update (Function.update s.progs act'.party p') act.party p :=
    fun p p' => Function.update_comm hne _ _ _
  obtain ⟨hsource, out, hout, rfl⟩ | ⟨sender, packet, out, hsource, hmem, hhead, hout, rfl⟩ := ha
  · obtain ⟨hsource', out', hout', rfl⟩ | ⟨sender', packet', out', hsource', hmem', hhead', hout', rfl⟩ :=
      hb
    · refine ⟨(s.proceed act.party op (next out)).proceed act'.party op' (next' out'), ?_, ?_⟩
      · refine step_eq_some.mpr ⟨hme', op', next', ?_, .inl ⟨hsource', out', hout', rfl⟩⟩
        exact (Function.update_of_ne hne.symm _ _).trans hprog'
      · refine step_eq_some.mpr ⟨hme, op, next, ?_, .inl ⟨hsource, out, hout, ?_⟩⟩
        · exact (Function.update_of_ne hne _ _).trans hprog
        · simp only [proceed, hprogs, dispatch_comm hne]
    · refine ⟨(s.proceed act.party op (next out)).take ⟨sender', act'.party⟩ packet' (next' out'), ?_, ?_⟩
      · refine step_eq_some.mpr ⟨hme', op', next', ?_, .inr ⟨sender', packet', out', hsource', hmem',
          head?_dispatch hhead' _ _, hout', rfl⟩⟩
        exact (Function.update_of_ne hne.symm _ _).trans hprog'
      · refine step_eq_some.mpr ⟨hme, op, next, ?_, .inl ⟨hsource, out, hout, ?_⟩⟩
        · exact (Function.update_of_ne hne _ _).trans hprog
        · simp only [proceed, take, hprogs, dropPacket_dispatch hhead']
  · obtain ⟨hsource', out', hout', rfl⟩ | ⟨sender', packet', out', hsource', hmem', hhead', hout', rfl⟩ :=
      hb
    · refine ⟨(s.proceed act'.party op' (next' out')).take ⟨sender, act.party⟩ packet (next out), ?_, ?_⟩
      · refine step_eq_some.mpr ⟨hme', op', next', ?_, .inl ⟨hsource', out', hout', ?_⟩⟩
        · exact (Function.update_of_ne hne.symm _ _).trans hprog'
        · simp only [proceed, take, hprogs, dropPacket_dispatch hhead]
      · refine step_eq_some.mpr ⟨hme, op, next, ?_, .inr ⟨sender, packet, out, hsource, hmem,
          head?_dispatch hhead _ _, hout, rfl⟩⟩
        exact (Function.update_of_ne hne _ _).trans hprog
    · have hl : (⟨sender, act.party⟩ : Link) ≠ ⟨sender', act'.party⟩ :=
        fun h => hne (congrArg Link.recipient h)
      refine ⟨(s.take ⟨sender, act.party⟩ packet (next out)).take ⟨sender', act'.party⟩ packet'
        (next' out'), ?_, ?_⟩
      · refine step_eq_some.mpr ⟨hme', op', next', ?_, .inr ⟨sender', packet', out', hsource', hmem',
          (head?_dropPacket hl.symm).trans hhead', hout', rfl⟩⟩
        exact (Function.update_of_ne hne.symm _ _).trans hprog'
      · refine step_eq_some.mpr ⟨hme, op, next, ?_, .inr ⟨sender, packet, out, hsource, hmem,
          (head?_dropPacket hl).trans hhead, hout, ?_⟩⟩
        · exact (Function.update_of_ne hne _ _).trans hprog
        · simp only [take, hprogs, dropPacket_comm _ hl, pushPacket_comm _ hl]

/-- Every party's code names its senders. -/
def Directed (parties : List PartyId) (s : NetState ρ) : Prop :=
  ∀ p ∈ parties, (s.progs p).Directed

theorem Directed.step (h : s.Directed parties) {act : Act} (ha : s.step parties act = some a) :
    a.Directed parties := by
  obtain ⟨hme, op, next, hprog, ha⟩ := step_eq_some.mp ha
  have hnext := (hprog ▸ h act.party hme).next
  have hprogs : ∀ out, ∀ p ∈ parties,
      (Function.update s.progs act.party (next out) p).Directed := by
    intro out p hp
    by_cases heq : p = act.party
    · rw [heq, Function.update_self]
      exact hnext out
    · rw [Function.update_of_ne heq]
      exact h p hp
  obtain ⟨-, out, -, rfl⟩ | ⟨-, -, out, -, -, -, -, rfl⟩ := ha
  · exact hprogs out
  · exact hprogs out

theorem Directed.run (h : s.Directed parties) {schedule : List Act}
    (hrun : s.run parties schedule = some a) : a.Directed parties := by
  induction schedule generalizing s with
  | nil => exact Option.some.inj hrun ▸ h
  | cons act schedule ih =>
    obtain ⟨t, hact, hrun⟩ := run_cons.mp hrun
    exact ih (h.step hact) hrun

theorem Directed.act_unique (h : s.Directed parties) {act act' : Act}
    (hparty : act.party = act'.party) (ha : s.step parties act = some a)
    (hb : s.step parties act' = some b) : act = act' := by
  obtain ⟨me, source⟩ := act
  obtain ⟨me', source'⟩ := act'
  obtain rfl : me = me' := hparty
  obtain ⟨hme, op, next, hprog, ha⟩ := step_eq_some.mp ha
  obtain ⟨-, op', next', hprog', hb⟩ := step_eq_some.mp hb
  obtain ⟨rfl, -⟩ := Prog.call.inj (hprog.symm.trans hprog')
  have hdirected := hprog ▸ h me hme
  obtain ⟨hsource, out, hout, -⟩ | ⟨sender, -, -, hsource, hmem, -⟩ := ha
  · obtain ⟨hsource', -⟩ | ⟨sender', -, -, -, hmem', -⟩ := hb
    · exact congrArg (Act.mk me) (hsource.trans hsource'.symm)
    · obtain rfl := hdirected.act_unique hmem'
      cases hout
  · obtain rfl := hdirected.act_unique hmem
    obtain ⟨-, out', hout', -⟩ | ⟨sender', -, -, hsource', hmem', -⟩ := hb
    · cases hout'
    · obtain rfl : sender = sender' := NetOp.recvFrom.inj (hdirected.act_unique hmem')
      exact congrArg (Act.mk me) (hsource.trans hsource'.symm)

theorem diamond (parties : List PartyId) :
    Lib.Confluence.Diamond (Steps (ρ := ρ) parties) (Directed parties) where
  keeps := fun h ⟨_, hact⟩ => h.step hact
  joins := by
    rintro s a b h ⟨act, ha⟩ ⟨act', hb⟩
    by_cases hparty : act.party = act'.party
    · obtain rfl := h.act_unique hparty ha hb
      exact .inl (Option.some.inj (ha.symm.trans hb))
    · obtain ⟨t, hat, hbt⟩ := step_comm hparty ha hb
      exact .inr ⟨t, ⟨act', hat⟩, ⟨act, hbt⟩⟩

end NetState

/-! ### Code is well founded -/

/-- The height of the code: that of its next operation is above that of every continuation. -/
noncomputable def Prog.rank {ρ : Type} : Prog ρ → Ordinal.{0}
  | .ret _ => 0
  | .panic => 0
  | .call _ next => ⨆ out, Order.succ (rank (next out))

theorem Prog.rank_next_lt {ρ : Type} {op : NetOp} (next : op.Out → Prog ρ) (out : op.Out) :
    (next out).rank < (Prog.call op next).rank :=
  (Order.lt_succ _).trans_le (Ordinal.le_iSup (fun out => Order.succ (next out).rank) out)

namespace NetState

variable {ρ : Type} {parties : List PartyId} {s a : NetState ρ}

noncomputable def ranks (parties : List PartyId) (s : NetState ρ) : {p // p ∈ parties} → Ordinal.{0} :=
  fun p => (s.progs p).rank

theorem ranks_lt (h : Steps parties s a) : a.ranks parties < s.ranks parties := by
  obtain ⟨act, hact⟩ := h
  obtain ⟨hme, op, next, hprog, ha⟩ := step_eq_some.mp hact
  have hprogs : ∃ out, a.progs = Function.update s.progs act.party (next out) := by
    obtain ⟨-, out, -, rfl⟩ | ⟨-, -, out, -, -, -, -, rfl⟩ := ha
    · exact ⟨out, rfl⟩
    · exact ⟨out, rfl⟩
  obtain ⟨out, hprogs⟩ := hprogs
  have hlt : (next out).rank < (s.progs act.party).rank := hprog ▸ Prog.rank_next_lt next out
  refine Pi.lt_def.mpr ⟨fun p => ?_, ⟨act.party, hme⟩, ?_⟩
  · rw [ranks, ranks, hprogs]
    by_cases hp : p.1 = act.party
    · rw [hp, Function.update_self]
      exact hlt.le
    · rw [Function.update_of_ne hp]
  · rw [ranks, ranks, hprogs, Function.update_self]
    exact hlt

/-- Every state has a maximal schedule. -/
theorem exists_maximal (parties : List PartyId) (s : NetState ρ) :
    ∃ schedule t, s.run parties schedule = some t ∧ t.Maximal parties := by
  obtain ⟨n, t, hrun, hstuck⟩ := Lib.Confluence.exists_stuck (I := fun _ => True)
    (ranks parties) (fun x y _ (h : Steps parties x y) => ⟨trivial, ranks_lt h⟩) (x := s) trivial
  obtain ⟨schedule, -, hrun⟩ := steps_iff.mp hrun
  exact ⟨schedule, t, hrun, stuck_iff.mp hstuck⟩

/-- **All schedules of directed parties end in one state**, if they are continued to where none goes
on, and none is longer than those. -/
theorem Directed.exists_final (h : s.Directed parties) :
    ∃ (n : Nat) (final : NetState ρ), final.Maximal parties ∧
      ∀ schedule t, s.run parties schedule = some t →
        schedule.length ≤ n ∧ (t.Maximal parties → t = final) ∧
        ∃ rest, t.run parties rest = some final := by
  obtain ⟨n, final, hrun, hstuck⟩ := Lib.Confluence.exists_stuck
    (I := Directed parties) (ranks parties)
    (fun x y hx hy => ⟨(diamond parties).keeps hx hy, ranks_lt hy⟩) h
  refine ⟨n, final, stuck_iff.mp hstuck, fun schedule t ht => ?_⟩
  have hsteps := steps_iff.mpr ⟨schedule, rfl, ht⟩
  obtain ⟨hle, hrest⟩ := (diamond parties).steps_remaining h hrun hstuck hsteps
  obtain ⟨rest, -, hrest⟩ := steps_iff.mp hrest
  exact ⟨hle, fun hmax => (diamond parties).stuck_unique h hrun hstuck hsteps (stuck_iff.mpr hmax),
    rest, hrest⟩

end NetState

end SclRs
