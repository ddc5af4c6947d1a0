import SclRs.Net.Async

/-!
# One schedule decides

Parties that name their senders have one outcome, so that one schedule to where none goes on shows what all
lead to (`Directed.all_of_reaches`). The schedule is given act by act (`Reaches.goes`, `Reaches.hears`).
-/

namespace SclRs.NetState

variable {ρ : Type} {parties : List PartyId} {s t : NetState ρ} {Q : NetState ρ → Prop}

/-- Some schedule leads to a state in `Q`. -/
def Reaches (parties : List PartyId) (s : NetState ρ) (Q : NetState ρ → Prop) : Prop :=
  ∃ schedule t, s.run parties schedule = some t ∧ Q t

theorem Reaches.here (h : Q s) : s.Reaches parties Q := ⟨[], s, rfl, h⟩

theorem Reaches.goes (me : PartyId) (op : NetOp) (next : op.Out → Prog ρ) {out : op.Out} (hme : me ∈ parties)
    (hprog : s.progs me = .call op next) (hout : op.localOut = some out)
    (h : (s.proceed me op (next out)).Reaches parties Q) : s.Reaches parties Q := by
  obtain ⟨schedule, t, hrun, ht⟩ := h
  refine ⟨.goes me :: schedule, t, run_cons.mpr ⟨_, step_eq_some.mpr ?_, hrun⟩, ht⟩
  exact ⟨hme, op, next, hprog, .inl ⟨rfl, out, hout, rfl⟩⟩

theorem Reaches.hears (me sender : PartyId) (next : Except NetworkError Packet → Prog ρ) (packet : Packet)
    (hme : me ∈ parties) (hprog : s.progs me = .call (.recvFrom sender) next)
    (hhead : (s.channels ⟨sender, me⟩).head? = some packet)
    (h : (s.take ⟨sender, me⟩ packet (next (.ok packet))).Reaches parties Q) : s.Reaches parties Q := by
  obtain ⟨schedule, t, hrun, ht⟩ := h
  refine ⟨.hears me sender :: schedule, t, run_cons.mpr ⟨_, step_eq_some.mpr ?_, hrun⟩, ht⟩
  exact ⟨hme, .recvFrom sender, next, hprog, .inr ⟨sender, packet, .ok packet, rfl,
    List.mem_singleton_self _, hhead, rfl, rfl⟩⟩

theorem maximal_of_blocked (h : ∀ p ∈ parties, (∃ r, s.progs p = .ret r) ∨
    ∃ q next, s.progs p = .call (.recvFrom q) next ∧ s.channels ⟨q, p⟩ = []) : s.Maximal parties := by
  intro act
  rw [Option.eq_none_iff_forall_not_mem]
  intro t ht
  obtain ⟨hp, op, next, hprog, hstep⟩ := step_eq_some.mp ht
  obtain ⟨r, hr⟩ | ⟨q, next', hwaits, hempty⟩ := h act.party hp
  · rw [hr] at hprog
    cases hprog
  · rw [hwaits] at hprog
    obtain ⟨rfl, -⟩ := Prog.call.inj hprog
    obtain ⟨-, out, hout, -⟩ | ⟨sender, packet, -, -, hmem, hhead, -, -⟩ := hstep
    · cases hout
    · obtain rfl : sender = q := congrArg Link.sender (List.mem_singleton.mp hmem)
      rw [hempty] at hhead
      cases hhead

/-- **What one maximal schedule leads to** all lead to. -/
theorem Directed.all_of_reaches (h : s.Directed parties)
    (hreaches : s.Reaches parties fun t => t.Maximal parties ∧ Q t) {schedule : List Act}
    (hrun : s.run parties schedule = some t) (hmax : t.Maximal parties) : Q t := by
  obtain ⟨schedule', t', hrun', hmax', hQ⟩ := hreaches
  obtain ⟨n, final, -, hfinal⟩ := h.exists_final
  rwa [(hfinal schedule t hrun).2.1 hmax, ← (hfinal schedule' t' hrun').2.1 hmax']

end SclRs.NetState
