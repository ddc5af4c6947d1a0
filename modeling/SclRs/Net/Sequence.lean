import SclRs.Net.CircularWait
import SclRs.Net.Script

/-!
# Running protocols one after the other

When every party runs one protocol and then another, a party that is done with the first may send while
others still work on it. If the code of the first protocol names its senders and leaves no packet behind,
nobody notices: a state of the sequence splits into a state of each protocol (`Splits`), since on each link
the packets of the first come before those of the second, nothing is left for a party that is done
(`Completes.channels_of_ret`), and nobody waits for one that is (`Finishes.not_waitsInVain`). So every schedule
ends as the second protocol ends from the results of the first (`Completes.sequence`), and each link has
carried what the first has it carry and then what the second has it carry (`Carries.sequence`).
-/

namespace SclRs.NetState

/-! ### Parties that are done -/

section
variable {ρ : Type} {parties : List PartyId} {s t : NetState ρ} {p q : PartyId}

theorem run_concat {schedule : List Act} {act : Act} :
    s.run parties (schedule ++ [act]) = some t ↔
      ∃ u, s.run parties schedule = some u ∧ u.step parties act = some t := by
  induction schedule generalizing s with
  | nil => simp [run]
  | cons a schedule ih =>
    simp only [List.cons_append, run_cons, ih]
    constructor
    · rintro ⟨u, hu, w, hw, ht⟩
      exact ⟨w, ⟨u, hu, hw⟩, ht⟩
    · rintro ⟨w, ⟨u, hu, hw⟩, ht⟩
      exact ⟨u, hu, w, hw, ht⟩

theorem channels_prefix_of_step (hended : ∀ op next, s.progs p ≠ .call op next) {act : Act}
    (hstep : s.step parties act = some t) : s.channels ⟨q, p⟩ <+: t.channels ⟨q, p⟩ := by
  obtain ⟨-, op, next, hprog, hstep⟩ := step_eq_some.mp hstep
  have hne : act.party ≠ p := by
    rintro rfl
    exact hended op next hprog
  obtain ⟨-, out, -, rfl⟩ | ⟨sender, packet, out, -, -, -, -, rfl⟩ := hstep
  · cases op with
    | sendTo recipient packet =>
      change _ <+: pushPacket s.channels ⟨act.party, recipient⟩ packet ⟨q, p⟩
      by_cases hlink : (⟨q, p⟩ : Link) = ⟨act.party, recipient⟩
      · rw [hlink, pushPacket, Function.update_self]
        exact List.prefix_append _ _
      · rw [pushPacket, Function.update_of_ne hlink]
    | recvFrom | recvAny | recvFromWithTimeout | recvAnyWithTimeout | record => exact List.prefix_rfl
  · have hlink : (⟨q, p⟩ : Link) ≠ ⟨sender, act.party⟩ := fun h => hne (congrArg Link.recipient h).symm
    change _ <+: dropPacket s.channels ⟨sender, act.party⟩ ⟨q, p⟩
    rw [dropPacket, Function.update_of_ne hlink]

theorem progs_of_step (hended : ∀ op next, s.progs p ≠ .call op next) {act : Act}
    (hstep : s.step parties act = some t) : t.progs p = s.progs p := by
  have hrun : s.run parties [act] = some t := run_cons.mpr ⟨t, hstep, rfl⟩
  exact progs_of_run hended hrun

theorem channels_prefix_of_run (hended : ∀ op next, s.progs p ≠ .call op next) {schedule : List Act}
    (hrun : s.run parties schedule = some t) : s.channels ⟨q, p⟩ <+: t.channels ⟨q, p⟩ := by
  induction schedule generalizing s with
  | nil => rw [← Option.some.inj hrun]
  | cons act schedule ih =>
    obtain ⟨u, hu, hrun⟩ := run_cons.mp hrun
    have hkept := progs_of_step hended hu
    exact (channels_prefix_of_step hended hu).trans (ih (by rwa [hkept]) hrun)

/-- Party `p` waits for a packet of `q`, which is done and has left none. -/
structure WaitsInVain (s : NetState ρ) (p q : PartyId) : Prop where
  waits : ∃ next, s.progs p = .call (.recvFrom q) next
  ended : ∀ op next, s.progs q ≠ .call op next
  empty : s.channels ⟨q, p⟩ = []

theorem WaitsInVain.step (h : s.WaitsInVain p q) {act : Act} (hstep : s.step parties act = some t) :
    t.WaitsInVain p q := by
  obtain ⟨next, hnext⟩ := h.waits
  have hended := progs_of_step h.ended hstep
  obtain ⟨-, op, next', hprog, hstep⟩ := step_eq_some.mp hstep
  have hq : act.party ≠ q := by
    rintro rfl
    exact h.ended op next' hprog
  have hp : act.party ≠ p := by
    rintro rfl
    obtain ⟨rfl, -⟩ := Prog.call.inj (hprog.symm.trans hnext)
    obtain ⟨-, out, hout, -⟩ | ⟨sender, packet, -, -, hmem, hhead, -, -⟩ := hstep
    · cases hout
    · obtain rfl : sender = q := congrArg Link.sender (List.mem_singleton.mp hmem)
      rw [h.empty] at hhead
      cases hhead
  refine ⟨⟨next, ?_⟩, by rw [hended]; exact h.ended, ?_⟩
  · obtain ⟨-, out, -, rfl⟩ | ⟨-, -, out, -, -, -, -, rfl⟩ := hstep
    · exact (Function.update_of_ne hp.symm _ _).trans hnext
    · exact (Function.update_of_ne hp.symm _ _).trans hnext
  · obtain ⟨-, out, -, rfl⟩ | ⟨sender, -, out, -, -, -, -, rfl⟩ := hstep
    · cases op with
      | sendTo recipient packet =>
        have hlink : (⟨q, p⟩ : Link) ≠ ⟨act.party, recipient⟩ := fun h => hq (congrArg Link.sender h).symm
        exact (Function.update_of_ne hlink _ _).trans h.empty
      | recvFrom | recvAny | recvFromWithTimeout | recvAnyWithTimeout | record => exact h.empty
    · have hlink : (⟨q, p⟩ : Link) ≠ ⟨sender, act.party⟩ := fun h => hp (congrArg Link.recipient h).symm
      exact (Function.update_of_ne hlink _ _).trans h.empty

theorem WaitsInVain.run (h : s.WaitsInVain p q) {schedule : List Act}
    (hrun : s.run parties schedule = some t) : t.WaitsInVain p q := by
  induction schedule generalizing s with
  | nil => exact Option.some.inj hrun ▸ h
  | cons act schedule ih =>
    obtain ⟨u, hu, hrun⟩ := run_cons.mp hrun
    exact ih (h.step hu) hrun

variable {init : NetState ρ} {result : PartyId → ρ} {schedule : List Act}

/-- In a protocol that leaves nothing behind, nothing is left for a party that is done. -/
theorem Completes.channels_of_ret (h : init.Completes parties result)
    (hrun : init.run parties schedule = some s) {r : ρ} (hret : s.progs p = .ret r) :
    s.channels ⟨q, p⟩ = [] := by
  obtain ⟨rest, final, hrest, hmax⟩ := exists_maximal parties s
  have hprefix := channels_prefix_of_run (q := q) (p := p) (fun op next => by simp [hret]) hrest
  rw [h.empty (schedule ++ rest) final ((run_append hrun).trans hrest) hmax] at hprefix
  exact List.prefix_nil.mp hprefix

/-- In a protocol that finishes, nobody waits in vain. -/
theorem Finishes.not_waitsInVain (h : init.Finishes parties result)
    (hrun : init.run parties schedule = some s) (hp : p ∈ parties) : ¬ s.WaitsInVain p q := by
  intro hwaits
  obtain ⟨rest, final, hrest, hmax⟩ := exists_maximal parties s
  obtain ⟨next, hnext⟩ := (hwaits.run hrest).waits
  have hret := h.results (schedule ++ rest) final ((run_append hrun).trans hrest) hmax p hp
  rw [hnext] at hret
  cases hret

end

/-! ### Both protocols -/

section
variable {α β : Type} {parties : List PartyId} {rest : PartyId → α → Prog β} {result : PartyId → α}
  {s s' : NetState β} {s₁ : NetState α} {s₂ : NetState β}

variable (parties rest result) in
/-- The parties that are done with the first protocol are where `s₂` has them, and the others where `s₁`
has them. On each link the packets of the first protocol come first. -/
structure Splits (s : NetState β) (s₁ : NetState α) (s₂ : NetState β) : Prop where
  channels : ∀ link, s.channels link = s₁.channels link ++ s₂.channels link
  received : ∀ link, s.received link = s₁.received link ++ s₂.received link
  progs : ∀ p ∈ parties, s.progs p = s₁.progs p >>= rest p ∧ s₂.progs p = rest p (result p) ∨
    s₁.progs p = .ret (result p) ∧ s.progs p = s₂.progs p
  sender : ∀ p q, s₂.channels ⟨p, q⟩ ≠ [] → p ∈ parties ∧ s₁.progs p = .ret (result p)
  recipient : ∀ p q, s₂.received ⟨q, p⟩ ≠ [] → s₁.progs p = .ret (result p)

theorem splits_init (first : PartyId → Prog α) :
    Splits parties rest result (init fun p => first p >>= rest p) (init first)
      (init fun p => rest p (result p)) :=
  ⟨fun _ => rfl, fun _ => rfl, fun _ _ => .inl ⟨rfl, rfl⟩, fun _ _ h => absurd rfl h, fun _ _ h => absurd rfl h⟩

end

section
variable {c c₁ c₂ : Link → List Packet} (h : ∀ link, c link = c₁ link ++ c₂ link)

include h

theorem pushPacket_append_left {l : Link} (hnil : c₂ l = []) (packet : Packet) (link : Link) :
    pushPacket c l packet link = pushPacket c₁ l packet link ++ c₂ link := by
  simp only [pushPacket]
  by_cases hlink : link = l
  · subst hlink
    rw [Function.update_self, Function.update_self, h, hnil, List.append_nil, List.append_nil]
  · rw [Function.update_of_ne hlink, Function.update_of_ne hlink, h]

theorem pushPacket_append_right (l : Link) (packet : Packet) (link : Link) :
    pushPacket c l packet link = c₁ link ++ pushPacket c₂ l packet link := by
  simp only [pushPacket]
  by_cases hlink : link = l
  · subst hlink
    rw [Function.update_self, Function.update_self, h, List.append_assoc]
  · rw [Function.update_of_ne hlink, Function.update_of_ne hlink, h]

theorem dispatch_append_left {me : PartyId} (hnil : ∀ q, c₂ ⟨me, q⟩ = []) (op : NetOp) (link : Link) :
    op.dispatch me c link = op.dispatch me c₁ link ++ c₂ link := by
  cases op with
  | sendTo recipient packet => exact pushPacket_append_left h (hnil recipient) packet link
  | recvFrom | recvAny | recvFromWithTimeout | recvAnyWithTimeout | record => exact h link

theorem dispatch_append_right (me : PartyId) (op : NetOp) (link : Link) :
    op.dispatch me c link = c₁ link ++ op.dispatch me c₂ link := by
  cases op with
  | sendTo recipient packet => exact pushPacket_append_right h _ packet link
  | recvFrom | recvAny | recvFromWithTimeout | recvAnyWithTimeout | record => exact h link

theorem dropPacket_append_left {l : Link} (hne : c₁ l ≠ []) (link : Link) :
    dropPacket c l link = dropPacket c₁ l link ++ c₂ link := by
  simp only [dropPacket]
  by_cases hlink : link = l
  · subst hlink
    rw [Function.update_self, Function.update_self, h, List.tail_append_of_ne_nil hne]
  · rw [Function.update_of_ne hlink, Function.update_of_ne hlink, h]

theorem dropPacket_append_right {l : Link} (hnil : c₁ l = []) (link : Link) :
    dropPacket c l link = c₁ link ++ dropPacket c₂ l link := by
  simp only [dropPacket]
  by_cases hlink : link = l
  · subst hlink
    rw [Function.update_self, Function.update_self, h, hnil, List.nil_append, List.nil_append]
  · rw [Function.update_of_ne hlink, Function.update_of_ne hlink, h]

end

section
variable {α β : Type} {parties : List PartyId} {rest : PartyId → α → Prog β} {result : PartyId → α}
  {s s' : NetState β} {s₁ t₁ : NetState α} {s₂ t₂ : NetState β} {act : Act}

theorem Splits.channels_of_call (h : Splits parties rest result s s₁ s₂) {p : PartyId} {op : NetOp}
    {next : op.Out → Prog α} (hprog : s₁.progs p = .call op next) (q : PartyId) :
    s₂.channels ⟨p, q⟩ = [] := by
  by_contra hne
  have hret := (h.sender p q hne).2
  rw [hprog] at hret
  cases hret

theorem Splits.received_of_call (h : Splits parties rest result s s₁ s₂) {p : PartyId} {op : NetOp}
    {next : op.Out → Prog α} (hprog : s₁.progs p = .call op next) (q : PartyId) :
    s₂.received ⟨q, p⟩ = [] := by
  by_contra hne
  have hret := h.recipient p q hne
  rw [hprog] at hret
  cases hret

theorem Splits.code_of_call (h : Splits parties rest result s s₁ s₂) {p : PartyId} (hp : p ∈ parties)
    {op : NetOp} {next : op.Out → Prog α} (hprog : s₁.progs p = .call op next) :
    s.progs p = s₁.progs p >>= rest p := by
  obtain ⟨hcode, -⟩ | ⟨hret, -⟩ := h.progs p hp
  · exact hcode
  · rw [hprog] at hret
    cases hret

theorem Splits.code_of_ret (h : Splits parties rest result s s₁ s₂)
    (hret : ∀ p ∈ parties, s₁.progs p = .ret (result p)) {p : PartyId} (hp : p ∈ parties) :
    s.progs p = s₂.progs p := by
  obtain ⟨hcode, hrest⟩ | ⟨-, hcode⟩ := h.progs p hp
  · rw [hcode, hrest, hret p hp, Prog.ret_bind]
  · exact hcode

theorem Splits.first (h : Splits parties rest result s s₁ s₂) {p : PartyId} (hp : p ∈ parties) {op : NetOp}
    {next : op.Out → Prog α} (hprog : s₁.progs p = .call op next) {s₁' : NetState α} {prog : Prog α}
    (hprogs : s'.progs = Function.update s.progs p (prog >>= rest p))
    (hprogs₁ : s₁'.progs = Function.update s₁.progs p prog)
    (hchannels : ∀ link, s'.channels link = s₁'.channels link ++ s₂.channels link)
    (hreceived : ∀ link, s'.received link = s₁'.received link ++ s₂.received link) :
    Splits parties rest result s' s₁' s₂ := by
  have hkept : ∀ {q}, s₁.progs q = .ret (result q) → s₁'.progs q = .ret (result q) := by
    intro q hret
    have hqp : q ≠ p := by
      rintro rfl
      rw [hprog] at hret
      cases hret
    rw [hprogs₁, Function.update_of_ne hqp, hret]
  refine ⟨hchannels, hreceived, fun q hq => ?_, fun q r hne => ?_, fun q r hne => hkept (h.recipient q r hne)⟩
  · rw [hprogs, hprogs₁]
    by_cases hqp : q = p
    · subst hqp
      rw [Function.update_self, Function.update_self]
      obtain ⟨-, hrest⟩ | ⟨hret, -⟩ := h.progs q hq
      · exact .inl ⟨rfl, hrest⟩
      · rw [hprog] at hret
        cases hret
    · rw [Function.update_of_ne hqp, Function.update_of_ne hqp]
      exact h.progs q hq
  · exact ⟨(h.sender q r hne).1, hkept (h.sender q r hne).2⟩

theorem Splits.first_step (h : Splits parties rest result s s₁ s₂) {op : NetOp} {next : op.Out → Prog α}
    (hprog : s₁.progs act.party = .call op next)
    (hcode : s.progs act.party = s₁.progs act.party >>= rest act.party)
    (hapart : ∀ q, (⟨q, act.party⟩ : Link) ∈ op.awaits act.party parties →
      s₁.channels ⟨q, act.party⟩ = [] → s₂.channels ⟨q, act.party⟩ = [])
    (hstep : s.step parties act = some s') :
    ∃ s₁', s₁.step parties act = some s₁' ∧ Splits parties rest result s' s₁' s₂ := by
  have hnil := h.channels_of_call hprog
  rw [hprog, Prog.call_bind] at hcode
  obtain ⟨hp, op', next', hprog', hstep⟩ := step_eq_some.mp hstep
  obtain ⟨rfl, hnext⟩ := Prog.call.inj (hprog'.symm.trans hcode)
  obtain rfl := eq_of_heq hnext
  obtain ⟨hsource, out, hout, rfl⟩ | ⟨sender, packet, out, hsource, hmem, hhead, hout, rfl⟩ := hstep
  · refine ⟨s₁.proceed act.party op' (next out),
      step_eq_some.mpr ⟨hp, op', next, hprog, .inl ⟨hsource, out, hout, rfl⟩⟩, ?_⟩
    exact h.first hp hprog rfl rfl (dispatch_append_left h.channels hnil op') h.received
  · have hne : s₁.channels ⟨sender, act.party⟩ ≠ [] := by
      intro hempty
      rw [h.channels, hempty, hapart sender hmem hempty] at hhead
      cases hhead
    have hhead₁ : (s₁.channels ⟨sender, act.party⟩).head? = some packet := by
      rwa [h.channels, List.head?_append_of_ne_nil _ hne] at hhead
    refine ⟨s₁.take ⟨sender, act.party⟩ packet (next out), step_eq_some.mpr
      ⟨hp, op', next, hprog, .inr ⟨sender, packet, out, hsource, hmem, hhead₁, hout, rfl⟩⟩, ?_⟩
    exact h.first hp hprog rfl rfl (dropPacket_append_left h.channels hne)
      (pushPacket_append_left h.received (h.received_of_call hprog sender) packet)

theorem Splits.second (h : Splits parties rest result s s₁ s₂) {p : PartyId} (hp : p ∈ parties)
    (hret : s₁.progs p = .ret (result p)) {s₂' : NetState β} {prog : Prog β}
    (hprogs : s'.progs = Function.update s.progs p prog)
    (hprogs₂ : s₂'.progs = Function.update s₂.progs p prog)
    (hchannels : ∀ link, s'.channels link = s₁.channels link ++ s₂'.channels link)
    (hreceived : ∀ link, s'.received link = s₁.received link ++ s₂'.received link)
    (hsender : ∀ q r, s₂'.channels ⟨q, r⟩ ≠ [] → q = p ∨ s₂.channels ⟨q, r⟩ ≠ [])
    (hrecipient : ∀ q r, s₂'.received ⟨r, q⟩ ≠ [] → q = p ∨ s₂.received ⟨r, q⟩ ≠ []) :
    Splits parties rest result s' s₁ s₂' := by
  refine ⟨hchannels, hreceived, fun q hq => ?_, fun q r hne => ?_, fun q r hne => ?_⟩
  · rw [hprogs, hprogs₂]
    by_cases hqp : q = p
    · subst hqp
      rw [Function.update_self, Function.update_self]
      exact .inr ⟨hret, rfl⟩
    · rw [Function.update_of_ne hqp, Function.update_of_ne hqp]
      exact h.progs q hq
  · rcases hsender q r hne with rfl | hne
    · exact ⟨hp, hret⟩
    · exact h.sender q r hne
  · rcases hrecipient q r hne with rfl | hne
    · exact hret
    · exact h.recipient q r hne

theorem Splits.second_step (h : Splits parties rest result s s₁ s₂)
    (hret : s₁.progs act.party = .ret (result act.party)) (hcode : s.progs act.party = s₂.progs act.party)
    (hempty : ∀ q, s₁.channels ⟨q, act.party⟩ = []) (hstep : s.step parties act = some s') :
    ∃ s₂', s₂.step parties act = some s₂' ∧ Splits parties rest result s' s₁ s₂' := by
  obtain ⟨hp, op, next, hprog, hstep⟩ := step_eq_some.mp hstep
  have hprog₂ := hcode.symm.trans hprog
  obtain ⟨hsource, out, hout, rfl⟩ | ⟨sender, packet, out, hsource, hmem, hhead, hout, rfl⟩ := hstep
  · refine ⟨s₂.proceed act.party op (next out),
      step_eq_some.mpr ⟨hp, op, next, hprog₂, .inl ⟨hsource, out, hout, rfl⟩⟩, ?_⟩
    refine h.second hp hret rfl rfl (dispatch_append_right h.channels act.party op) h.received
      (fun q r hne => ?_) fun _ _ hne => .inr hne
    by_cases hq : q = act.party
    · exact .inl hq
    · refine .inr ?_
      cases op with
      | sendTo recipient packet =>
        have hlink : (⟨q, r⟩ : Link) ≠ ⟨act.party, recipient⟩ := fun h => hq (congrArg Link.sender h)
        simpa only [proceed, NetOp.dispatch, pushPacket, Function.update_of_ne hlink] using hne
      | recvFrom | recvAny | recvFromWithTimeout | recvAnyWithTimeout | record => exact hne
  · have hhead₂ : (s₂.channels ⟨sender, act.party⟩).head? = some packet := by
      rwa [h.channels, hempty, List.nil_append] at hhead
    refine ⟨s₂.take ⟨sender, act.party⟩ packet (next out), step_eq_some.mpr
      ⟨hp, op, next, hprog₂, .inr ⟨sender, packet, out, hsource, hmem, hhead₂, hout, rfl⟩⟩, ?_⟩
    refine h.second hp hret rfl rfl (dropPacket_append_right h.channels (hempty sender))
      (pushPacket_append_right h.received _ packet) (fun q r hne => .inr ?_) fun q r hne => ?_
    · by_cases hlink : (⟨q, r⟩ : Link) = ⟨sender, act.party⟩
      · rw [hlink]
        rintro hnil
        rw [hnil] at hhead₂
        cases hhead₂
      · simpa only [take, dropPacket, Function.update_of_ne hlink] using hne
    · by_cases hq : q = act.party
      · exact .inl hq
      · have hlink : (⟨r, q⟩ : Link) ≠ ⟨sender, act.party⟩ := fun h => hq (congrArg Link.recipient h)
        refine .inr ?_
        simpa only [take, pushPacket, Function.update_of_ne hlink] using hne

/-! ### Runs -/

variable {first : PartyId → Prog α} {schedule : List Act}

variable (parties first rest result) in
/-- No party in the first protocol has a packet of the second before it. -/
def Apart : Prop :=
  ∀ ⦃schedule₁ schedule₂ s s₁ s₂⦄, (init first).run parties schedule₁ = some s₁ →
    (init fun p => rest p (result p)).run parties schedule₂ = some s₂ →
    Splits parties rest result s s₁ s₂ → ∀ p ∈ parties, ∀ op next, s₁.progs p = .call op next →
    ∀ q, (⟨q, p⟩ : Link) ∈ op.awaits p parties → s₁.channels ⟨q, p⟩ = [] → s₂.channels ⟨q, p⟩ = []

/-- Code that names its senders waits only for those that are in the first protocol. -/
theorem apart_of_directed (hdirected : ∀ p ∈ parties, (first p).Directed)
    (hfirst : (init first).Finishes parties result) : Apart parties rest result first := by
  intro schedule₁ _ s s₁ s₂ hrun₁ _ h p hp op next hprog q hmem hempty
  have hinit : (init first).Directed parties := hdirected
  have hcode := hinit.run hrun₁ p hp
  rw [hprog] at hcode
  obtain rfl := hcode.act_unique hmem
  by_contra hlater
  have hret := (h.sender _ _ hlater).2
  exact hfirst.not_waitsInVain hrun₁ hp ⟨⟨next, hprog⟩, fun op next => by simp [hret], hempty⟩

theorem channels_of_silent {ρ : Type} {s t : NetState ρ}
    (hsilent : ∀ p ∈ parties, (s.progs p).OnlySends fun _ => False) (hempty : ∀ link, s.channels link = [])
    (hrun : s.run parties schedule = some t) (link : Link) : t.channels link = [] := by
  induction schedule generalizing s with
  | nil => exact Option.some.inj hrun ▸ hempty link
  | cons act schedule ih =>
    obtain ⟨u, hu, hrun⟩ := run_cons.mp hrun
    obtain ⟨hp, op, next, hprog, hu⟩ := step_eq_some.mp hu
    have hcode := hsilent act.party hp
    rw [hprog] at hcode
    obtain ⟨-, out, -, rfl⟩ | ⟨sender, packet, -, -, -, hhead, -, -⟩ := hu
    · refine ih (fun q hq => ?_) (fun link => ?_) hrun
      · by_cases hqp : q = act.party
        · subst hqp
          simp only [proceed, Function.update_self]
          exact hcode.next out
        · simp only [proceed, Function.update_of_ne hqp]
          exact hsilent q hq
      · cases hcode with
        | sendTo hfalse => exact hfalse.elim
        | recvFrom | record => exact hempty link
    · rw [hempty] at hhead
      cases hhead

theorem apart_of_silent (hsilent : ∀ p ∈ parties, (rest p (result p)).OnlySends fun _ => False) :
    Apart parties rest result first :=
  fun _ _ _ _ _ _ hrun₂ _ _ _ _ _ _ _ _ _ => channels_of_silent hsilent (fun _ => rfl) hrun₂ _

/-- **One step** of the sequence is a step of one of the two protocols. -/
theorem Splits.step (hapart : Apart parties rest result first)
    (hfirst : (init first).Completes parties result) {schedule₁ schedule₂ : List Act}
    (hrun₁ : (init first).run parties schedule₁ = some s₁)
    (hrun₂ : (init fun p => rest p (result p)).run parties schedule₂ = some s₂)
    (h : Splits parties rest result s s₁ s₂) (hstep : s.step parties act = some s') :
    (∃ s₁', s₁.step parties act = some s₁' ∧ Splits parties rest result s' s₁' s₂) ∨
      ∃ s₂', s₂.step parties act = some s₂' ∧ Splits parties rest result s' s₁ s₂' := by
  obtain ⟨hp, op, next, hprog, -⟩ := step_eq_some.mp hstep
  rcases h.progs act.party hp with ⟨hcode, hrest⟩ | ⟨hret, hcode⟩
  · cases hprog₁ : s₁.progs act.party with
    | ret r =>
      obtain rfl := hfirst.result_of_ret hrun₁ hp hprog₁
      rw [hprog₁, Prog.ret_bind] at hcode
      exact .inr (h.second_step hprog₁ (hcode.trans hrest.symm)
        (fun q => hfirst.channels_of_ret hrun₁ hprog₁) hstep)
    | panic =>
      rw [hprog₁] at hcode
      exact absurd (hprog.symm.trans hcode) (by rintro ⟨⟩)
    | call op₁ next₁ =>
      exact .inl (h.first_step hprog₁ hcode (hapart hrun₁ hrun₂ h _ hp op₁ next₁ hprog₁) hstep)
  · exact .inr (h.second_step hret hcode (fun q => hfirst.channels_of_ret hrun₁ hret) hstep)

/-- **A run** of the sequence is a run of each of the two protocols. -/
theorem exists_splits (hapart : Apart parties rest result first)
    (hfirst : (init first).Completes parties result) {t : NetState β}
    (hrun : (init fun p => first p >>= rest p).run parties schedule = some t) :
    ∃ schedule₁ schedule₂ t₁ t₂, (init first).run parties schedule₁ = some t₁ ∧
      (init fun p => rest p (result p)).run parties schedule₂ = some t₂ ∧
      Splits parties rest result t t₁ t₂ := by
  induction schedule using List.reverseRecOn generalizing t with
  | nil =>
    obtain rfl := Option.some.inj hrun
    exact ⟨[], [], _, _, rfl, rfl, splits_init first⟩
  | append_singleton schedule act ih =>
    obtain ⟨u, hu, hstep⟩ := run_concat.mp hrun
    obtain ⟨schedule₁, schedule₂, u₁, u₂, hrun₁, hrun₂, hsplits⟩ := ih hu
    obtain ⟨t₁, ht₁, hsplits'⟩ | ⟨t₂, ht₂, hsplits'⟩ := hsplits.step hapart hfirst hrun₁ hrun₂ hstep
    · exact ⟨schedule₁ ++ [act], schedule₂, t₁, u₂, run_concat.mpr ⟨u₁, hrun₁, ht₁⟩, hrun₂, hsplits'⟩
    · exact ⟨schedule₁, schedule₂ ++ [act], u₁, t₂, hrun₁, run_concat.mpr ⟨u₂, hrun₂, ht₂⟩, hsplits'⟩

theorem Maximal.ne_some {ρ : Type} {s t : NetState ρ} (h : s.Maximal parties) :
    s.step parties act ≠ some t := by
  rw [h act]
  exact (Option.some_ne_none _).symm

theorem Splits.exists_step_first (h : Splits parties rest result s s₁ s₂)
    (hstep : s₁.step parties act = some t₁) : ∃ t, s.step parties act = some t := by
  obtain ⟨hp, op, next, hprog, hstep⟩ := step_eq_some.mp hstep
  have hcode := h.code_of_call hp hprog
  rw [hprog, Prog.call_bind] at hcode
  obtain ⟨hsource, out, hout, -⟩ | ⟨sender, packet, out, hsource, hmem, hhead, hout, -⟩ := hstep
  · exact ⟨_, step_eq_some.mpr ⟨hp, op, _, hcode, .inl ⟨hsource, out, hout, rfl⟩⟩⟩
  · have hhead' : (s.channels ⟨sender, act.party⟩).head? = some packet := by
      rw [h.channels, List.head?_append, hhead]
      rfl
    exact ⟨_, step_eq_some.mpr ⟨hp, op, _, hcode, .inr ⟨sender, packet, out, hsource, hmem, hhead', hout, rfl⟩⟩⟩

theorem Splits.exists_step_second (h : Splits parties rest result s s₁ s₂)
    (hret : ∀ p ∈ parties, s₁.progs p = .ret (result p)) (hempty : ∀ link, s₁.channels link = [])
    (hstep : s₂.step parties act = some t₂) : ∃ t, s.step parties act = some t := by
  obtain ⟨hp, op, next, hprog, hstep⟩ := step_eq_some.mp hstep
  have hcode := (h.code_of_ret hret hp).trans hprog
  obtain ⟨hsource, out, hout, -⟩ | ⟨sender, packet, out, hsource, hmem, hhead, hout, -⟩ := hstep
  · exact ⟨_, step_eq_some.mpr ⟨hp, op, next, hcode, .inl ⟨hsource, out, hout, rfl⟩⟩⟩
  · have hhead' : (s.channels ⟨sender, act.party⟩).head? = some packet := by
      rwa [h.channels, hempty, List.nil_append]
    exact ⟨_, step_eq_some.mpr ⟨hp, op, next, hcode, .inr ⟨sender, packet, out, hsource, hmem, hhead', hout, rfl⟩⟩⟩

theorem Splits.maximal_first (h : Splits parties rest result s s₁ s₂) (hmax : s.Maximal parties) :
    s₁.Maximal parties := by
  intro act
  rw [Option.eq_none_iff_forall_ne_some]
  intro t₁ ht₁
  obtain ⟨t, ht⟩ := h.exists_step_first ht₁
  exact hmax.ne_some ht

theorem Splits.maximal_second (h : Splits parties rest result s s₁ s₂) (hmax : s.Maximal parties)
    (hret : ∀ p ∈ parties, s₁.progs p = .ret (result p)) (hempty : ∀ link, s₁.channels link = []) :
    s₂.Maximal parties := by
  intro act
  rw [Option.eq_none_iff_forall_ne_some]
  intro t₂ ht₂
  obtain ⟨t, ht⟩ := h.exists_step_second hret hempty ht₂
  exact hmax.ne_some ht

/-- **The end** of the sequence is an end of each of the two protocols. -/
theorem exists_splits_final (hapart : Apart parties rest result first)
    (hfirst : (init first).Completes parties result) {t : NetState β}
    (hrun : (init fun p => first p >>= rest p).run parties schedule = some t) (hmax : t.Maximal parties) :
    ∃ schedule₁ schedule₂ t₁ t₂, (init first).run parties schedule₁ = some t₁ ∧ t₁.Maximal parties ∧
      (init fun p => rest p (result p)).run parties schedule₂ = some t₂ ∧ t₂.Maximal parties ∧
      Splits parties rest result t t₁ t₂ := by
  obtain ⟨schedule₁, schedule₂, t₁, t₂, hrun₁, hrun₂, hsplits⟩ := exists_splits hapart hfirst hrun
  have hmax₁ := hsplits.maximal_first hmax
  have hmax₂ := hsplits.maximal_second hmax (hfirst.results schedule₁ t₁ hrun₁ hmax₁)
    (hfirst.empty schedule₁ t₁ hrun₁ hmax₁)
  exact ⟨schedule₁, schedule₂, t₁, t₂, hrun₁, hmax₁, hrun₂, hmax₂, hsplits⟩

theorem Splits.run_first (h : Splits parties rest result s s₁ s₂) (hempty : ∀ link, s₂.channels link = [])
    (hrun : s₁.run parties schedule = some t₁) :
    ∃ t, s.run parties schedule = some t ∧ Splits parties rest result t t₁ s₂ := by
  induction schedule generalizing s s₁ with
  | nil => exact ⟨s, rfl, Option.some.inj hrun ▸ h⟩
  | cons act schedule ih =>
    obtain ⟨u₁, hu₁, hrun⟩ := run_cons.mp hrun
    obtain ⟨hp, op, next, hprog, -⟩ := step_eq_some.mp hu₁
    obtain ⟨u, hu⟩ := h.exists_step_first hu₁
    obtain ⟨u₁', hu₁', hsplits⟩ := h.first_step hprog (h.code_of_call hp hprog) (fun q _ _ => hempty _) hu
    obtain rfl := Option.some.inj (hu₁'.symm.trans hu₁)
    obtain ⟨t, ht, hsplits⟩ := ih hsplits hrun
    exact ⟨t, run_cons.mpr ⟨u, hu, ht⟩, hsplits⟩

theorem Splits.run_second (h : Splits parties rest result s s₁ s₂)
    (hret : ∀ p ∈ parties, s₁.progs p = .ret (result p)) (hempty : ∀ link, s₁.channels link = [])
    (hrun : s₂.run parties schedule = some t₂) :
    ∃ t, s.run parties schedule = some t ∧ Splits parties rest result t s₁ t₂ := by
  induction schedule generalizing s s₂ with
  | nil => exact ⟨s, rfl, Option.some.inj hrun ▸ h⟩
  | cons act schedule ih =>
    obtain ⟨u₂, hu₂, hrun⟩ := run_cons.mp hrun
    have hp := (step_eq_some.mp hu₂).1
    obtain ⟨u, hu⟩ := h.exists_step_second hret hempty hu₂
    obtain ⟨u₂', hu₂', hsplits⟩ := h.second_step (hret _ hp) (h.code_of_ret hret hp) (fun q => hempty _) hu
    obtain rfl := Option.some.inj (hu₂'.symm.trans hu₂)
    obtain ⟨t, ht, hsplits⟩ := ih hsplits hrun
    exact ⟨t, run_cons.mpr ⟨u, hu, ht⟩, hsplits⟩

/-- **Any two ends** make an end of the sequence. -/
theorem exists_final_splits (hapart : Apart parties rest result first)
    (hfirst : (init first).Completes parties result) {schedule₁ schedule₂ : List Act}
    (hrun₁ : (init first).run parties schedule₁ = some t₁) (hmax₁ : t₁.Maximal parties)
    (hrun₂ : (init fun p => rest p (result p)).run parties schedule₂ = some t₂) (hmax₂ : t₂.Maximal parties) :
    ∃ schedule t, (init fun p => first p >>= rest p).run parties schedule = some t ∧ t.Maximal parties ∧
      Splits parties rest result t t₁ t₂ := by
  obtain ⟨u, hu, hsplits⟩ := (splits_init first).run_first (fun _ => rfl) hrun₁
  obtain ⟨t, ht, hsplits⟩ := hsplits.run_second (hfirst.results schedule₁ t₁ hrun₁ hmax₁)
    (hfirst.empty schedule₁ t₁ hrun₁ hmax₁) hrun₂
  refine ⟨schedule₁ ++ schedule₂, t, (run_append hu).trans ht, fun act => ?_, hsplits⟩
  rw [Option.eq_none_iff_forall_ne_some]
  intro t' ht'
  obtain ⟨_, hstep, -⟩ | ⟨_, hstep, -⟩ := hsplits.step hapart hfirst hrun₁ hrun₂ ht'
  · exact hmax₁.ne_some hstep
  · exact hmax₂.ne_some hstep

variable (rest) in
/-- **Protocols in sequence.** -/
theorem Finishes.sequence {result' : PartyId → β} (hapart : Apart parties rest result first)
    (hfirst : (init first).Completes parties result)
    (hrest : (init fun p => rest p (result p)).Finishes parties result') :
    (init fun p => first p >>= rest p).Finishes parties result' where
  finite states _ := not_forall_steps states
  results schedule t hrun hmax p hp := by
    obtain ⟨schedule₁, schedule₂, t₁, t₂, hrun₁, hmax₁, hrun₂, hmax₂, hsplits⟩ :=
      exists_splits_final hapart hfirst hrun hmax
    rw [← hrest.results schedule₂ t₂ hrun₂ hmax₂ p hp]
    exact hsplits.code_of_ret (hfirst.results schedule₁ t₁ hrun₁ hmax₁) hp

variable (rest) in
theorem Completes.sequence {result' : PartyId → β} (hapart : Apart parties rest result first)
    (hfirst : (init first).Completes parties result)
    (hrest : (init fun p => rest p (result p)).Completes parties result') :
    (init fun p => first p >>= rest p).Completes parties result' where
  toFinishes := Finishes.sequence rest hapart hfirst hrest.toFinishes
  empty schedule t hrun hmax link := by
    obtain ⟨schedule₁, schedule₂, t₁, t₂, hrun₁, hmax₁, hrun₂, hmax₂, hsplits⟩ :=
      exists_splits_final hapart hfirst hrun hmax
    rw [hsplits.channels, hfirst.empty schedule₁ t₁ hrun₁ hmax₁, hrest.empty schedule₂ t₂ hrun₂ hmax₂]
    rfl

/-- A protocol that completes with the same packets on each link in every schedule. -/
structure Carries {ρ : Type} (parties : List PartyId) (s : NetState ρ) (result : PartyId → ρ)
    (traffic : Link → List Packet) : Prop extends s.Completes parties result where
  carried : ∀ schedule t, s.run parties schedule = some t → t.Maximal parties →
    ∀ link, t.received link = traffic link

variable (rest) in
/-- **The traffic of a sequence** is that of the first protocol and then that of the second. -/
theorem Carries.sequence {result' : PartyId → β} {traffic traffic' : Link → List Packet}
    (hapart : Apart parties rest result first) (hfirst : (init first).Carries parties result traffic)
    (hrest : (init fun p => rest p (result p)).Carries parties result' traffic') :
    (init fun p => first p >>= rest p).Carries parties result' fun link => traffic link ++ traffic' link where
  toCompletes := Completes.sequence rest hapart hfirst.toCompletes hrest.toCompletes
  carried schedule t hrun hmax link := by
    obtain ⟨schedule₁, schedule₂, t₁, t₂, hrun₁, hmax₁, hrun₂, hmax₂, hsplits⟩ :=
      exists_splits_final hapart hfirst.toCompletes hrun hmax
    rw [hsplits.received, hfirst.carried schedule₁ t₁ hrun₁ hmax₁, hrest.carried schedule₂ t₂ hrun₂ hmax₂]

theorem carries_of_follows {ρ : Type} {program : PartyId → Prog ρ} {script : Script} {result : PartyId → ρ}
    (hunread : ∀ link, script.unread link = 0)
    (hlinks : ∀ link, script.packets link ≠ [] → link.sender ∈ parties ∧ link.recipient ∈ parties)
    (h : ∀ p ∈ parties, (program p).Follows script parties anyone p (· = result p) (fun _ => 0)
      (fun _ => 0) 0) : (init program).Carries parties result script.packets where
  toCompletes := completes_of_follows hunread hlinks h
  carried schedule t hrun hmax link := by
    have hscripted := (scripted_init h).run hrun (runPermits_anyone schedule)
    exact (hscripted.carried_of_halted hmax.halted hunread hlinks link).1

variable (parties) in
/-- The network can end in `t`. -/
def Ends {ρ : Type} (s t : NetState ρ) : Prop :=
  ∃ schedule, s.run parties schedule = some t ∧ t.Maximal parties

variable (parties) in
/-- The end `t` is the end `t₂` after the end `t₁`. -/
structure EndsAfter (t : NetState β) (t₁ : NetState α) (t₂ : NetState β) : Prop where
  progs : ∀ p ∈ parties, t.progs p = t₂.progs p
  channels : ∀ link, t.channels link = t₂.channels link
  received : ∀ link, t.received link = t₁.received link ++ t₂.received link

theorem Splits.endsAfter (h : Splits parties rest result s s₁ s₂)
    (hret : ∀ p ∈ parties, s₁.progs p = .ret (result p)) (hempty : ∀ link, s₁.channels link = []) :
    EndsAfter parties s s₁ s₂ :=
  ⟨fun _ => h.code_of_ret hret, fun link => by rw [h.channels, hempty, List.nil_append], h.received⟩

variable (rest) in
/-- **Protocols compose in sequence**: after one whose parties name their senders and leave nothing
behind, another one ends as it can end on its own, and its packets come after those of the first. -/
theorem sequential_composition (hdirected : ∀ p ∈ parties, (first p).Directed)
    (hfirst : (init first).Completes parties result) (result' : PartyId → β) :
    ((init fun p => rest p (result p)).Finishes parties result' →
      (init fun p => first p >>= rest p).Finishes parties result') ∧
    ((init fun p => rest p (result p)).Completes parties result' →
      (init fun p => first p >>= rest p).Completes parties result') ∧
    (∀ traffic traffic', (init first).Carries parties result traffic →
      (init fun p => rest p (result p)).Carries parties result' traffic' →
      (init fun p => first p >>= rest p).Carries parties result' fun link => traffic link ++ traffic' link) ∧
    (∀ t, Ends parties (init fun p => first p >>= rest p) t → ∃ t₁ t₂, Ends parties (init first) t₁ ∧
      Ends parties (init fun p => rest p (result p)) t₂ ∧ EndsAfter parties t t₁ t₂) ∧
    ∀ t₁ t₂, Ends parties (init first) t₁ → Ends parties (init fun p => rest p (result p)) t₂ →
      ∃ t, Ends parties (init fun p => first p >>= rest p) t ∧ EndsAfter parties t t₁ t₂ := by
  have hapart : Apart parties rest result first := apart_of_directed hdirected hfirst.toFinishes
  refine ⟨.sequence rest hapart hfirst, .sequence rest hapart hfirst, fun _ _ => .sequence rest hapart, ?_, ?_⟩
  · rintro t ⟨schedule, hrun, hmax⟩
    obtain ⟨schedule₁, schedule₂, t₁, t₂, hrun₁, hmax₁, hrun₂, hmax₂, hsplits⟩ :=
      exists_splits_final hapart hfirst hrun hmax
    exact ⟨t₁, t₂, ⟨schedule₁, hrun₁, hmax₁⟩, ⟨schedule₂, hrun₂, hmax₂⟩,
      hsplits.endsAfter (hfirst.results schedule₁ t₁ hrun₁ hmax₁) (hfirst.empty schedule₁ t₁ hrun₁ hmax₁)⟩
  · rintro t₁ t₂ ⟨schedule₁, hrun₁, hmax₁⟩ ⟨schedule₂, hrun₂, hmax₂⟩
    obtain ⟨schedule, t, hrun, hmax, hsplits⟩ :=
      exists_final_splits hapart hfirst hrun₁ hmax₁ hrun₂ hmax₂
    exact ⟨t, ⟨schedule, hrun, hmax⟩,
      hsplits.endsAfter (hfirst.results schedule₁ t₁ hrun₁ hmax₁) (hfirst.empty schedule₁ t₁ hrun₁ hmax₁)⟩

end

/-! ### Two swaps -/

/-- Each of two parties sends an empty packet and receives one. -/
def swap (me : PartyId) : Prog (Except NetworkError Packet) := do
  let _ ← Prog.op (.sendTo (1 - me) .empty)
  Prog.op (.recvFrom (1 - me))

theorem swap_directed (me : PartyId) : (swap me).Directed :=
  .sendTo fun _ => .recvFrom fun _ => .ret _

def swapScript : Script :=
  ⟨fun link => if link = ⟨0, 1⟩ ∨ link = ⟨1, 0⟩ then [.empty] else [], fun _ _ => 0, fun _ => 0⟩

theorem swap_follows {p : PartyId} (hp : p ∈ [0, 1]) :
    (swap p).Follows swapScript [0, 1] anyone p (· = .ok .empty) (fun _ => 0) (fun _ => 0) 0 := by
  have hends : ∀ p q : PartyId, p = 0 ∧ q = 1 ∨ p = 1 ∧ q = 0 → ∀ r : PartyId,
      Function.update (fun _ => 0) q 1 r = (swapScript.packets ⟨p, r⟩).length ∧
        Function.update (fun _ => 0) q 1 r + 0 = (swapScript.packets ⟨r, p⟩).length := by
    rintro p q (⟨rfl, rfl⟩ | ⟨rfl, rfl⟩) r <;> by_cases hr : r = 0 <;> by_cases hr' : r = 1 <;>
      simp [swapScript, hr, hr']
  rcases List.mem_pair.mp hp with rfl | rfl
  · exact .sendTo rfl le_rfl (.recvFrom (by decide) trivial rfl (.ret rfl
      (fun r => (hends 0 1 (by decide) r).1) fun r => (hends 0 1 (by decide) r).2))
  · exact .sendTo rfl le_rfl (.recvFrom (by decide) trivial rfl (.ret rfl
      (fun r => (hends 1 0 (by decide) r).1) fun r => (hends 1 0 (by decide) r).2))

theorem swap_carries : (init swap).Carries [0, 1] (fun _ => .ok .empty) swapScript.packets := by
  refine carries_of_follows (fun _ => rfl) (fun link hlink => ?_) fun _ => swap_follows
  by_cases h : link = ⟨0, 1⟩ ∨ link = ⟨1, 0⟩
  · rcases h with rfl | rfl <;> decide
  · exact absurd (if_neg h) hlink

def await (me : PartyId) : Prog (Except NetworkError Packet) := Prog.op (.recvFrom (1 - me))

theorem await_maximal : (init await).Maximal [0, 1] := by
  intro act
  rw [Option.eq_none_iff_forall_ne_some]
  intro t ht
  obtain ⟨-, op, next, hprog, ht⟩ := step_eq_some.mp ht
  obtain ⟨rfl, -⟩ := Prog.call.inj hprog
  obtain ⟨-, out, hout, -⟩ | ⟨sender, packet, out, -, -, hhead, -⟩ := ht
  · cases hout
  · cases hhead

/-- Two swaps in a row, and a swap before a deadlock. -/
theorem sequential_composition_swap :
    ((init fun p => swap p >>= fun _ => swap p).Finishes [0, 1] (fun _ => .ok .empty) ∧
      (init fun p => swap p >>= fun _ => swap p).Completes [0, 1] (fun _ => .ok .empty) ∧
      (init fun p => swap p >>= fun _ => swap p).Carries [0, 1] (fun _ => .ok .empty)
        fun link => swapScript.packets link ++ swapScript.packets link) ∧
      ∃ t₁ t, Ends [0, 1] (init swap) t₁ ∧ Ends [0, 1] (init fun p => swap p >>= fun _ => await p) t ∧
        EndsAfter [0, 1] t t₁ (init await) := by
  have h := sequential_composition (fun p _ => swap p) (fun p _ => swap_directed p) swap_carries.toCompletes
    fun _ => .ok .empty
  have h' := sequential_composition (fun p _ => await p) (fun p _ => swap_directed p) swap_carries.toCompletes
    fun _ => .ok .empty
  obtain ⟨schedule, t₁, hrun, hmax⟩ := exists_maximal [0, 1] (init swap)
  obtain ⟨t, ht, hafter⟩ := h'.2.2.2.2 t₁ _ ⟨schedule, hrun, hmax⟩ ⟨[], rfl, await_maximal⟩
  exact ⟨⟨h.1 swap_carries.toFinishes, h.2.1 swap_carries.toCompletes,
    h.2.2.1 _ _ swap_carries swap_carries⟩, t₁, t, ⟨schedule, hrun, hmax⟩, ht, hafter⟩

end SclRs.NetState
