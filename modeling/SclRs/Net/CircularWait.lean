import SclRs.Net.Async

/-!
# Parties that wait for each other

Code that `Needs` a packet from one of a group of parties sends nothing and does not end before it has one.
If all code of the group does so, none of it ever sends, whatever the other parties do (`CircularWait.run`).
What the code of the group receives from others it must be able to read, which is ensured by what the
others send (`Prog.OnlySends`).
-/

namespace SclRs

namespace Prog

variable {ρ α β : Type}

/-- Whatever it receives, the code sends only packets with `P`. -/
inductive OnlySends (P : Packet → Prop) : Prog ρ → Prop
  | ret (result : ρ) : OnlySends P (.ret result)
  | panic : OnlySends P .panic
  | sendTo {partyId : PartyId} {packet : Packet} {next : _ → Prog ρ} :
      P packet → (∀ out, OnlySends P (next out)) → OnlySends P (.call (.sendTo partyId packet) next)
  | recvFrom {partyId : PartyId} {next : _ → Prog ρ} :
      (∀ out, OnlySends P (next out)) → OnlySends P (.call (.recvFrom partyId) next)
  | record {marker : Marker} {next : _ → Prog ρ} :
      (∀ out, OnlySends P (next out)) → OnlySends P (.call (.record marker) next)

/-- The code sends nothing and does not end before it receives a packet from one of `group`, while the
packets from others have `P`. -/
inductive Needs (P : Packet → Prop) (group : PartyId → Prop) : Prog ρ → Prop
  | waits {partyId : PartyId} {next : _ → Prog ρ} : group partyId → Needs P group (.call (.recvFrom partyId) next)
  | recvFrom {partyId : PartyId} {next : _ → Prog ρ} :
      (∀ packet, P packet → Needs P group (next (.ok packet))) → Needs P group (.call (.recvFrom partyId) next)
  | record {marker : Marker} {next : _ → Prog ρ} :
      Needs P group (next ()) → Needs P group (.call (.record marker) next)

variable {P : Packet → Prop} {group : PartyId → Prop}

theorem OnlySends.next {op : NetOp} {next : op.Out → Prog ρ} (h : OnlySends P (.call op next)) (out : op.Out) :
    OnlySends P (next out) := by
  cases h with
  | sendTo _ h | recvFrom h | record h => exact h out

theorem OnlySends.bind {p : Prog α} {f : α → Prog β} (hp : p.OnlySends P) (hf : ∀ a, (f a).OnlySends P) :
    (p >>= f).OnlySends P := by
  induction hp with
  | ret a => exact hf a
  | panic => exact .panic
  | sendTo hpacket _ ih => exact .sendTo hpacket ih
  | recvFrom _ ih => exact .recvFrom ih
  | record _ ih => exact .record ih

theorem onlySends_sendMany {messages : List (PartyId × Packet)} (h : ∀ message ∈ messages, P message.2) :
    (sendMany messages).OnlySends P := by
  induction messages with
  | nil => exact .ret _
  | cons message messages ih =>
    refine .sendTo (h message List.mem_cons_self) fun out => ?_
    cases out with
    | error e => exact .ret _
    | ok size => exact ih fun m hm => h m (List.mem_cons_of_mem _ hm)

theorem OnlySends.execute {id : ProtocolId} {run : Prog ρ} (h : run.OnlySends P) :
    (Prog.execute id run).OnlySends P :=
  .record fun _ => h.bind fun _ => .record fun _ => .ret _

theorem Needs.bind {p : Prog α} (h : p.Needs P group) (f : α → Prog β) : (p >>= f).Needs P group := by
  induction h with
  | waits hgroup => exact .waits hgroup
  | recvFrom _ ih => exact .recvFrom ih
  | record _ ih => exact .record ih

theorem Needs.execute {id : ProtocolId} {run : Prog ρ} (h : run.Needs P group) :
    (Prog.execute id run).Needs P group := .record (h.bind _)

theorem Needs.exists_call {prog : Prog ρ} (h : prog.Needs P group) : ∃ op next, prog = .call op next := by
  cases h with
  | waits | recvFrom | record => exact ⟨_, _, rfl⟩

end Prog

namespace NetState

variable {ρ : Type} {parties : List PartyId} {P : Packet → Prop} {group : PartyId → Prop} {s t : NetState ρ}

variable (parties P group) in
/-- The parties of `group` wait for each other, and have nothing on their way. -/
structure CircularWait (s : NetState ρ) : Prop where
  needs : ∀ p, group p → (s.progs p).Needs P group
  silent : ∀ p, group p → ∀ q, s.channels ⟨p, q⟩ = []
  sends : ∀ p ∈ parties, (s.progs p).OnlySends P
  channels : ∀ link, ∀ packet ∈ s.channels link, P packet

theorem circularWait_init {program : PartyId → Prog ρ} (hneeds : ∀ p, group p → (program p).Needs P group)
    (hsends : ∀ p ∈ parties, (program p).OnlySends P) : (init program).CircularWait parties P group :=
  ⟨hneeds, fun _ _ _ => rfl, hsends, fun _ _ h => absurd h List.not_mem_nil⟩

theorem CircularWait.of_update (h : s.CircularWait parties P group) {me : PartyId} {prog : Prog ρ}
    (hprogs : t.progs = Function.update s.progs me prog) (hneeds : group me → prog.Needs P group)
    (hsends : prog.OnlySends P) (hsilent : ∀ p, group p → ∀ q, t.channels ⟨p, q⟩ = [])
    (hchannels : ∀ link, ∀ packet ∈ t.channels link, P packet) : t.CircularWait parties P group := by
  refine ⟨fun p hp => ?_, hsilent, fun p hp => ?_, hchannels⟩
  · rw [hprogs]
    by_cases hme : p = me
    · subst hme
      rw [Function.update_self]
      exact hneeds hp
    · rw [Function.update_of_ne hme]
      exact h.needs p hp
  · rw [hprogs]
    by_cases hme : p = me
    · rwa [hme, Function.update_self]
    · rw [Function.update_of_ne hme]
      exact h.sends p hp

theorem CircularWait.sendTo (h : s.CircularWait parties P group) {me partyId : PartyId} {packet : Packet}
    {prog : Prog ρ} (hme : ¬ group me) (hpacket : P packet) (hsends : prog.OnlySends P) :
    (s.proceed me (.sendTo partyId packet) prog).CircularWait parties P group := by
  refine h.of_update rfl (fun hgroup => absurd hgroup hme) hsends (fun p hp q => ?_) fun link => ?_
  · have hne : (⟨p, q⟩ : Link) ≠ ⟨me, partyId⟩ := by
      intro heq
      obtain rfl : p = me := congrArg Link.sender heq
      exact hme hp
    exact (Function.update_of_ne hne _ _).trans (h.silent p hp q)
  · by_cases hlink : link = ⟨me, partyId⟩
    · subst hlink
      change ∀ q ∈ pushPacket s.channels _ packet _, P q
      rw [pushPacket, Function.update_self]
      intro q hq
      obtain hq | hq := List.mem_append.mp hq
      · exact h.channels _ q hq
      · exact List.mem_singleton.mp hq ▸ hpacket
    · change ∀ q ∈ pushPacket s.channels _ packet _, P q
      rw [pushPacket, Function.update_of_ne hlink]
      exact h.channels link

theorem CircularWait.take (h : s.CircularWait parties P group) {link : Link} {packet : Packet} {prog : Prog ρ}
    (hneeds : group link.recipient → prog.Needs P group) (hsends : prog.OnlySends P) :
    (s.take link packet prog).CircularWait parties P group := by
  have hmem : ∀ l, ∀ q ∈ dropPacket s.channels link l, q ∈ s.channels l := by
    intro l q hq
    rw [dropPacket] at hq
    by_cases hl : l = link
    · subst hl
      rw [Function.update_self] at hq
      exact List.mem_of_mem_tail hq
    · rwa [Function.update_of_ne hl] at hq
  refine h.of_update rfl hneeds hsends (fun p hp q => ?_) fun l q hq => h.channels l q (hmem l q hq)
  refine List.eq_nil_iff_forall_not_mem.mpr fun packet hpacket => ?_
  have hsent := hmem ⟨p, q⟩ packet hpacket
  rw [h.silent p hp q] at hsent
  exact List.not_mem_nil hsent

/-- **A step** of one of the group is a marker, or takes a packet from outside. -/
theorem CircularWait.step (h : s.CircularWait parties P group) {act : Act} (hstep : s.step parties act = some t) :
    t.CircularWait parties P group := by
  obtain ⟨hme, op, next, hprog, hstep⟩ := step_eq_some.mp hstep
  have hsends := h.sends act.party hme
  have hneeds := h.needs act.party
  rw [hprog] at hsends hneeds
  obtain ⟨-, out, hout, rfl⟩ | ⟨sender, packet, out, -, hmem, hhead, hout, rfl⟩ := hstep
  · cases hsends with
    | sendTo hpacket hnext =>
      refine h.sendTo (fun hgroup => ?_) hpacket (hnext out)
      cases hneeds hgroup
    | recvFrom => cases hout
    | record hnext =>
      refine h.of_update rfl (fun hgroup => ?_) (hnext out) h.silent h.channels
      cases hneeds hgroup with
      | record hneeds => exact hneeds
  · refine h.take (fun hgroup => ?_) (hsends.next out)
    cases hneeds hgroup with
    | waits hwaits =>
      obtain rfl : sender = _ := congrArg Link.sender (List.mem_singleton.mp hmem)
      rw [h.silent sender hwaits] at hhead
      cases hhead
    | recvFrom hnext =>
      obtain rfl := Option.some.inj hout
      exact hnext packet (h.channels _ packet (List.mem_of_head? hhead))
    | record => cases hmem

theorem CircularWait.run (h : s.CircularWait parties P group) {schedule : List Act}
    (hrun : s.run parties schedule = some t) : t.CircularWait parties P group := by
  induction schedule generalizing s with
  | nil => exact Option.some.inj hrun ▸ h
  | cons act schedule ih =>
    obtain ⟨u, hu, hrun⟩ := run_cons.mp hrun
    exact ih (h.step hu) hrun

/-- **A party of the group never ends**, in whatever order packets are delivered. -/
theorem CircularWait.exists_call (h : s.CircularWait parties P group) {schedule : List Act}
    (hrun : s.run parties schedule = some t) {p : PartyId} (hp : group p) :
    ∃ op next, t.progs p = .call op next := ((h.run hrun).needs p hp).exists_call

end NetState

end SclRs
