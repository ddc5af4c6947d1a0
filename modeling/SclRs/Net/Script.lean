import SclRs.Net.Async

/-!
# Protocols with a script

In a protocol of honest parties it is known in advance what each link will carry. A `Script` lists it,
with a time for each packet, and `Prog.Follows` says of the code of one party that it sends what the
script has it send, whenever it is given what the script has it receive, and that every packet is sent
later than those received before it. If the code of every party follows the script, then in every
schedule each link has carried a beginning of its script (`Scripted.step`), and no schedule gets stuck
before all parties are done (`Scripted.finished`): of the packets that parties wait for, the earliest
comes from a party that waits for an earlier one.

A receive from any party is followed only for the senders that `may` be heard next; it is `True` for a
protocol that follows its script whomever it hears.
-/

namespace SclRs

/-- What each link carries and when, and how many of the packets at its end nobody takes. -/
structure Script where
  packets : Link → List Packet
  time : Link → Nat → Nat
  unread : Link → Nat

/-- May party `me`, with so many packets received from each party, hear `sender` next? -/
abbrev Hearing := (me : PartyId) → (received : PartyId → Nat) → (sender : PartyId) → Prop

section
variable {ρ : Type} (script : Script) (parties : List PartyId) (may : Hearing) (me : PartyId)
  (result : ρ → Prop)

/-- The code, run by `me` after so many packets sent and received and not sending before `time`, follows
the script to a `result`. -/
inductive Prog.Follows : Prog ρ → (sent received : PartyId → Nat) → (time : Nat) → Prop
  | ret {sent received : PartyId → Nat} {time : Nat} {r : ρ} : result r →
      (∀ p, sent p = (script.packets ⟨me, p⟩).length) →
      (∀ p, received p + script.unread ⟨p, me⟩ = (script.packets ⟨p, me⟩).length) →
      Follows (.ret r) sent received time
  | sendTo {sent received : PartyId → Nat} {time : Nat} {partyId : PartyId} {packet : Packet}
      {next : _ → Prog ρ} :
      (script.packets ⟨me, partyId⟩)[sent partyId]? = some packet →
      time ≤ script.time ⟨me, partyId⟩ (sent partyId) →
      Follows (next (.ok packet.size)) (Function.update sent partyId (sent partyId + 1)) received
        time →
      Follows (.call (.sendTo partyId packet) next) sent received time
  | recvFrom {sent received : PartyId → Nat} {time : Nat} {partyId : PartyId} {packet : Packet}
      {next : _ → Prog ρ} :
      partyId ∈ parties → may me received partyId →
      (script.packets ⟨partyId, me⟩)[received partyId]? = some packet →
      Follows (next (.ok packet)) sent (Function.update received partyId (received partyId + 1))
        (max time (script.time ⟨partyId, me⟩ (received partyId) + 1)) →
      Follows (.call (.recvFrom partyId) next) sent received time
  | recvAny {sent received : PartyId → Nat} {time : Nat} {next : _ → Prog ρ} :
      (∃ p ∈ parties, may me received p ∧ received p < (script.packets ⟨p, me⟩).length) →
      (∀ p ∈ parties, ∀ packet, may me received p →
        (script.packets ⟨p, me⟩)[received p]? = some packet →
        Follows (next (.ok (p, packet))) sent (Function.update received p (received p + 1))
          (max time (script.time ⟨p, me⟩ (received p) + 1))) →
      Follows (.call .recvAny next) sent received time
  | record {sent received : PartyId → Nat} {time : Nat} {marker : Marker} {next : _ → Prog ρ} :
      Follows (next ()) sent received time → Follows (.call (.record marker) next) sent received time

variable {script parties may me result}

theorem Prog.Follows.time_le {prog : Prog ρ} {sent received : PartyId → Nat} {time : Nat}
    (h : prog.Follows script parties may me result sent received time) {p : PartyId} {i : Nat}
    (hsent : sent p ≤ i) (hi : i < (script.packets ⟨me, p⟩).length) :
    time ≤ script.time ⟨me, p⟩ i := by
  induction h with
  | ret _ hdone =>
    have := hdone p
    omega
  | @sendTo sent _ _ partyId _ _ _ htime _ ih =>
    by_cases hp : p = partyId
    · subst hp
      by_cases hi' : sent p = i
      · exact hi' ▸ htime
      · refine ih ?_
        rw [Function.update_self]
        omega
    · refine ih ?_
      rwa [Function.update_of_ne hp]
  | recvFrom _ _ _ _ ih => exact (le_max_left _ _).trans (ih hsent)
  | recvAny hsome _ ih =>
    obtain ⟨q, hq, hmay, hlt⟩ := hsome
    exact (le_max_left _ _).trans (ih q hq _ hmay (List.getElem?_eq_getElem hlt) hsent)
  | record _ ih => exact ih hsent

end

/-! ### What a schedule keeps -/

namespace NetState

variable {ρ : Type}

/-- How many packets party `me` has sent to each party. -/
def sent (s : NetState ρ) (me p : PartyId) : Nat := (s.received ⟨me, p⟩ ++ s.channels ⟨me, p⟩).length

/-- How many packets party `me` has received from each party. -/
def got (s : NetState ρ) (me p : PartyId) : Nat := (s.received ⟨p, me⟩).length

variable (script : Script) (parties : List PartyId) (may : Hearing) (result : PartyId → ρ → Prop)

/-- Each link has carried a beginning of its script, and each party's code follows the rest. -/
structure Scripted (s : NetState ρ) : Prop where
  carried : ∀ link, s.received link ++ s.channels link <+: script.packets link
  follows : ∀ p ∈ parties, ∃ time,
    (s.progs p).Follows script parties may p (result p) (s.sent p) (s.got p) time

/-- The act is no receive, or from a sender that may be heard. -/
def Permits (s : NetState ρ) (act : Act) : Prop :=
  ∀ sender, act.source = some sender → may act.party (s.got act.party) sender

/-- Every act of the schedule is permitted where it is taken. -/
def RunPermits (s : NetState ρ) : List Act → Prop
  | [] => True
  | act :: schedule => s.Permits may act ∧ ∀ t, s.step parties act = some t → RunPermits t schedule

variable {script parties may result} {s s' : NetState ρ}

theorem isPrefix_concat {α : Type} {l m : List α} {a : α} (h : l <+: m) (ha : m[l.length]? = some a) :
    l ++ [a] <+: m := by
  obtain ⟨rest, rfl⟩ := h
  rw [List.getElem?_append_right le_rfl, Nat.sub_self] at ha
  obtain ⟨rest, rfl⟩ := List.head?_eq_some_iff.mp ((List.head?_eq_getElem? (l := rest)).trans ha)
  exact ⟨rest, by rw [List.append_assoc, List.singleton_append]⟩

theorem Scripted.of_update (h : s.Scripted script parties may result) {me : PartyId} {prog : Prog ρ}
    (hprogs : s'.progs = Function.update s.progs me prog)
    (hcarried : ∀ link, s'.received link ++ s'.channels link <+: script.packets link)
    (hsent : ∀ p ≠ me, s'.sent p = s.sent p) (hgot : ∀ p ≠ me, s'.got p = s.got p)
    (hme : ∃ time, prog.Follows script parties may me (result me) (s'.sent me) (s'.got me) time) :
    s'.Scripted script parties may result := by
  refine ⟨hcarried, fun p hp => ?_⟩
  rw [hprogs]
  by_cases hpme : p = me
  · subst hpme
    rwa [Function.update_self]
  · rw [Function.update_of_ne hpme, hsent p hpme, hgot p hpme]
    exact h.follows p hp

theorem Scripted.sendTo (h : s.Scripted script parties may result) {me partyId : PartyId}
    {packet : Packet} {prog : Prog ρ} {time : Nat}
    (hpacket : (script.packets ⟨me, partyId⟩)[s.sent me partyId]? = some packet)
    (hprog : prog.Follows script parties may me (result me)
      (Function.update (s.sent me) partyId (s.sent me partyId + 1)) (s.got me) time) :
    (s.proceed me (.sendTo partyId packet) prog).Scripted script parties may result := by
  have hcarried : ∀ link, (s.proceed me (.sendTo partyId packet) prog).received link ++
      (s.proceed me (.sendTo partyId packet) prog).channels link =
      (s.received link ++ s.channels link) ++ if link = ⟨me, partyId⟩ then [packet] else [] := by
    intro link
    change s.received link ++ pushPacket s.channels _ _ link = _
    by_cases hlink : link = ⟨me, partyId⟩
    · subst hlink
      rw [pushPacket, Function.update_self, if_pos rfl, List.append_assoc]
    · rw [pushPacket, Function.update_of_ne hlink, if_neg hlink, List.append_nil]
  have hsent : ∀ p q, (s.proceed me (.sendTo partyId packet) prog).sent p q =
      s.sent p q + if (⟨p, q⟩ : Link) = ⟨me, partyId⟩ then 1 else 0 := by
    intro p q
    rw [sent, hcarried, List.length_append]
    split_ifs <;> rfl
  refine h.of_update rfl (fun link => ?_) (fun p hp => funext fun q => ?_) (fun _ _ => rfl)
    ⟨time, ?_⟩
  · rw [hcarried]
    split_ifs with hlink
    · subst hlink
      exact isPrefix_concat (h.carried _) hpacket
    · rw [List.append_nil]
      exact h.carried link
  · rw [hsent, if_neg fun heq => hp (congrArg Link.sender heq), Nat.add_zero]
  · have hme : (s.proceed me (.sendTo partyId packet) prog).sent me =
        Function.update (s.sent me) partyId (s.sent me partyId + 1) := by
      funext q
      rw [hsent]
      by_cases hq : q = partyId
      · subst hq
        rw [Function.update_self, if_pos rfl]
      · rw [Function.update_of_ne hq, if_neg fun heq => hq (congrArg Link.recipient heq), Nat.add_zero]
    rw [hme]
    exact hprog

theorem Scripted.head (h : s.Scripted script parties may result) {p me : PartyId} {packet : Packet}
    (hhead : (s.channels ⟨p, me⟩).head? = some packet) :
    (script.packets ⟨p, me⟩)[s.got me p]? = some packet := by
  obtain ⟨rest, hrest⟩ := h.carried ⟨p, me⟩
  obtain ⟨queue, hqueue⟩ := List.head?_eq_some_iff.mp hhead
  rw [← hrest, hqueue, List.append_assoc, got, List.getElem?_append_right le_rfl, Nat.sub_self]
  rfl

theorem Scripted.take (h : s.Scripted script parties may result) {me p : PartyId}
    {packet : Packet} {prog : Prog ρ} {time : Nat} (hhead : (s.channels ⟨p, me⟩).head? = some packet)
    (hprog : prog.Follows script parties may me (result me) (s.sent me)
      (Function.update (s.got me) p (s.got me p + 1)) time) :
    (s.take ⟨p, me⟩ packet prog).Scripted script parties may result := by
  obtain ⟨queue, hqueue⟩ := List.head?_eq_some_iff.mp hhead
  have hcarried : ∀ link, (s.take ⟨p, me⟩ packet prog).received link ++
      (s.take ⟨p, me⟩ packet prog).channels link = s.received link ++ s.channels link := by
    intro link
    change pushPacket s.received _ _ link ++ dropPacket s.channels _ link = _
    by_cases hlink : link = ⟨p, me⟩
    · subst hlink
      rw [pushPacket, dropPacket, Function.update_self, Function.update_self, hqueue, List.tail_cons,
        List.append_assoc, List.singleton_append]
    · rw [pushPacket, dropPacket, Function.update_of_ne hlink, Function.update_of_ne hlink]
  have hsent : (s.take ⟨p, me⟩ packet prog).sent = s.sent :=
    funext fun _ => funext fun _ => congrArg List.length (hcarried _)
  have hgot : ∀ q r, (s.take ⟨p, me⟩ packet prog).got q r =
      s.got q r + if (⟨r, q⟩ : Link) = ⟨p, me⟩ then 1 else 0 := by
    intro q r
    change (pushPacket s.received _ _ _).length = _
    by_cases hlink : (⟨r, q⟩ : Link) = ⟨p, me⟩
    · rw [if_pos hlink, hlink, pushPacket, Function.update_self, List.length_append, got, ← hlink]
      rfl
    · rw [pushPacket, Function.update_of_ne hlink, if_neg hlink]
      rfl
  refine h.of_update rfl (fun link => hcarried link ▸ h.carried link) (fun q _ => congrFun hsent q)
    (fun q hq => funext fun r => ?_) ⟨time, ?_⟩
  · rw [hgot, if_neg fun heq => hq (congrArg Link.recipient heq), Nat.add_zero]
  · have hme : (s.take ⟨p, me⟩ packet prog).got me =
        Function.update (s.got me) p (s.got me p + 1) := by
      funext r
      rw [hgot]
      by_cases hr : r = p
      · subst hr
        rw [Function.update_self, if_pos rfl]
      · rw [Function.update_of_ne hr, if_neg fun heq => hr (congrArg Link.sender heq), Nat.add_zero]
    rw [hme, hsent]
    exact hprog

/-- **A permitted step keeps to the script.** -/
theorem Scripted.step (h : s.Scripted script parties may result) {act : Act}
    (hstep : s.step parties act = some s') (hmay : s.Permits may act) :
    s'.Scripted script parties may result := by
  obtain ⟨hme, op, next, hprog, hstep⟩ := step_eq_some.mp hstep
  obtain ⟨time, hfollows⟩ := h.follows act.party hme
  rw [hprog] at hfollows
  cases hfollows with
  | sendTo hpacket _ hnext =>
    obtain ⟨-, out, hout, rfl⟩ | ⟨sender, -, -, -, hmem, -⟩ := hstep
    · obtain rfl := Option.some.inj hout
      exact h.sendTo hpacket hnext
    · cases hmem
  | recvFrom _ _ hpacket hnext =>
    obtain ⟨-, out, hout, -⟩ | ⟨sender, packet, out, -, hmem, hhead, hout, rfl⟩ := hstep
    · cases hout
    · obtain rfl : sender = _ := congrArg Link.sender (List.mem_singleton.mp hmem)
      obtain rfl := Option.some.inj ((h.head hhead).symm.trans hpacket)
      obtain rfl := Option.some.inj hout
      exact h.take hhead hnext
  | recvAny _ hnext =>
    obtain ⟨-, out, hout, -⟩ | ⟨sender, packet, out, hsource, hmem, hhead, hout, rfl⟩ := hstep
    · cases hout
    · obtain ⟨p, hp, hlink⟩ := List.mem_map.mp hmem
      obtain rfl : p = sender := congrArg Link.sender hlink
      obtain rfl := Option.some.inj hout
      exact h.take hhead (hnext p hp packet (hmay p hsource) (h.head hhead))
  | record hnext =>
    obtain ⟨-, out, -, rfl⟩ | ⟨sender, -, -, -, hmem, -⟩ := hstep
    · exact h.of_update rfl h.carried (fun _ _ => rfl) (fun _ _ => rfl) ⟨time, hnext⟩
    · cases hmem

theorem Scripted.run (h : s.Scripted script parties may result) {schedule : List Act}
    (hrun : s.run parties schedule = some s') (hmay : s.RunPermits parties may schedule) :
    s'.Scripted script parties may result := by
  induction schedule generalizing s with
  | nil => exact Option.some.inj hrun ▸ h
  | cons act schedule ih =>
    obtain ⟨t, ht, hrun⟩ := run_cons.mp hrun
    exact ih (h.step ht hmay.1) hrun (hmay.2 t ht)

theorem Scripted.result_of_ret (h : s.Scripted script parties may result) {p : PartyId}
    (hp : p ∈ parties) {r : ρ} (hret : s.progs p = .ret r) : result p r := by
  obtain ⟨time, hfollows⟩ := h.follows p hp
  rw [hret] at hfollows
  cases hfollows with
  | ret hresult => exact hresult

/-! ### Where a schedule ends -/

variable (script parties) in
/-- Party `p` waits for the packet that the script has at `time`, and sends nothing before it. -/
def Waits (s : NetState ρ) (p : PartyId) (time : Nat) : Prop :=
  ∃ q ∈ parties, s.channels ⟨q, p⟩ = [] ∧ s.got p q < (script.packets ⟨q, p⟩).length ∧
    script.time ⟨q, p⟩ (s.got p q) = time ∧
    ∀ r i, s.sent p r ≤ i → i < (script.packets ⟨p, r⟩).length → time < script.time ⟨p, r⟩ i

variable (script parties may) in
/-- No step is possible that is permitted. -/
def Halted (s : NetState ρ) : Prop :=
  ∀ act, s.Permits may act → s.step parties act = none

variable (script result) in
/-- Party `p` is done, and all that its links are to carry has been sent and, if it is to be, received. -/
structure Done (s : NetState ρ) (p : PartyId) : Prop where
  finished : ∃ r, s.progs p = .ret r ∧ result p r
  sent : ∀ q, s.sent p q = (script.packets ⟨p, q⟩).length
  got : ∀ q, s.got p q + script.unread ⟨q, p⟩ = (script.packets ⟨q, p⟩).length

theorem Halted.ne_some (h : s.Halted parties may) {act : Act} (hmay : s.Permits may act) :
    s.step parties act ≠ some s' := by
  rw [h act hmay]
  exact (Option.some_ne_none _).symm

theorem permits_none (p : PartyId) : s.Permits may ⟨p, none⟩ := by
  rintro _ ⟨⟩

theorem Halted.waits (h : s.Halted parties may) {p q : PartyId} (hp : p ∈ parties) {op : NetOp}
    {next : op.Out → Prog ρ} (hprog : s.progs p = .call op next) (hq : q ∈ parties)
    (hmay : may p (s.got p) q) (hmem : (⟨q, p⟩ : Link) ∈ op.awaits p parties)
    (hout : ∀ packet, ∃ out, op.packetOut q packet = some out)
    (hlt : s.got p q < (script.packets ⟨q, p⟩).length) {prog : Prog ρ} {received : PartyId → Nat}
    {time : Nat} (hnext : prog.Follows script parties may p (result p) (s.sent p) received
      (max time (script.time ⟨q, p⟩ (s.got p q) + 1))) :
    s.Waits script parties p (script.time ⟨q, p⟩ (s.got p q)) := by
  refine ⟨q, hq, ?_, hlt, rfl, fun r i hsent hi => ?_⟩
  · cases hchannel : s.channels ⟨q, p⟩ with
    | nil => rfl
    | cons packet queue =>
      obtain ⟨out, hout⟩ := hout packet
      have hpermits : s.Permits may ⟨p, some q⟩ := fun sender hsender =>
        Option.some.inj hsender ▸ hmay
      refine absurd (step_eq_some.mpr ⟨hp, op, next, hprog, .inr ⟨q, packet, out, rfl, hmem, ?_, hout,
        rfl⟩⟩) (h.ne_some hpermits)
      change (s.channels ⟨q, p⟩).head? = some packet
      rw [hchannel]
      rfl
  · exact (le_max_right _ _).trans (hnext.time_le hsent hi)

theorem Scripted.done_or_waits (h : s.Scripted script parties may result)
    (hhalted : s.Halted parties may) {p : PartyId} (hp : p ∈ parties) :
    s.Done script result p ∨ ∃ time, s.Waits script parties p time := by
  obtain ⟨time, hfollows⟩ := h.follows p hp
  generalize hprog : s.progs p = prog at hfollows
  cases hfollows with
  | ret hresult hsent hgot => exact .inl ⟨⟨_, hprog, hresult⟩, hsent, hgot⟩
  | sendTo =>
    exact absurd (step_eq_some.mpr ⟨hp, _, _, hprog, .inl ⟨rfl, _, rfl, rfl⟩⟩)
      (hhalted.ne_some (permits_none p))
  | record =>
    exact absurd (step_eq_some.mpr ⟨hp, _, _, hprog, .inl ⟨rfl, _, rfl, rfl⟩⟩)
      (hhalted.ne_some (permits_none p))
  | recvFrom hq hmay hpacket hnext =>
    exact .inr ⟨_, hhalted.waits hp hprog hq hmay (List.mem_singleton.mpr rfl) (fun _ => ⟨_, rfl⟩)
      (List.getElem?_eq_some_iff.mp hpacket).1 hnext⟩
  | recvAny hsome hnext =>
    obtain ⟨q, hq, hmay, hlt⟩ := hsome
    exact .inr ⟨_, hhalted.waits hp hprog hq hmay (List.mem_map.mpr ⟨q, hq, rfl⟩)
      (fun _ => ⟨_, rfl⟩) hlt (hnext q hq _ hmay (List.getElem?_eq_getElem hlt))⟩

/-- Nobody waits: the sender of the packet would itself wait for an earlier one. -/
theorem Scripted.not_waits (h : s.Scripted script parties may result)
    (hhalted : s.Halted parties may) (time : Nat) {p : PartyId} : ¬ s.Waits script parties p time := by
  induction time using Nat.strong_induction_on generalizing p with
  | h time ih =>
    rintro ⟨q, hq, hempty, hlt, rfl, -⟩
    have hsent : s.sent q p = s.got p q := by
      rw [NetState.sent, hempty, List.append_nil, got]
    rcases h.done_or_waits hhalted hq with hdone | ⟨time', hwaits⟩
    · have := hdone.sent p
      omega
    · have hlater := hwaits
      obtain ⟨-, -, -, -, -, hlater⟩ := hlater
      exact ih time' (hlater p _ hsent.le hlt) hwaits

/-- **Where no permitted step is possible, every party is done.** -/
theorem Scripted.done (h : s.Scripted script parties may result) (hhalted : s.Halted parties may)
    {p : PartyId} (hp : p ∈ parties) : s.Done script result p :=
  (h.done_or_waits hhalted hp).resolve_right fun ⟨time, hwaits⟩ => h.not_waits hhalted time hwaits

theorem Scripted.carried_all (h : s.Scripted script parties may result) {p q : PartyId}
    (hp : s.Done script result p) (hq : s.Done script result q)
    (hread : script.unread ⟨p, q⟩ = 0) :
    s.received ⟨p, q⟩ = script.packets ⟨p, q⟩ ∧ s.channels ⟨p, q⟩ = [] := by
  have hsent := hp.sent q
  have hgot := hq.got p
  rw [NetState.sent, List.length_append] at hsent
  rw [got, hread, Nat.add_zero] at hgot
  have hempty : s.channels ⟨p, q⟩ = [] := List.length_eq_zero_iff.mp (by omega)
  have hcarried := h.carried ⟨p, q⟩
  rw [hempty, List.append_nil] at hcarried
  exact ⟨hcarried.eq_of_length hgot, hempty⟩

/-- Where no permitted step is possible, each link has carried its script and holds nothing, if only links
between parties carry anything and everything is read. -/
theorem Scripted.carried_of_halted (h : s.Scripted script parties may result)
    (hhalted : s.Halted parties may) (hunread : ∀ link, script.unread link = 0)
    (hlinks : ∀ link, script.packets link ≠ [] → link.sender ∈ parties ∧ link.recipient ∈ parties)
    (link : Link) : s.received link = script.packets link ∧ s.channels link = [] := by
  by_cases hpackets : script.packets link = []
  · have hcarried := h.carried link
    rw [hpackets, List.prefix_nil, List.append_eq_nil_iff] at hcarried
    exact ⟨hcarried.1.trans hpackets.symm, hcarried.2⟩
  · obtain ⟨hsender, hrecipient⟩ := hlinks link hpackets
    exact h.carried_all (h.done hhalted hsender) (h.done hhalted hrecipient) (hunread link)

/-! ### Protocols that follow their script whomever they hear -/

def anyone : Hearing := fun _ _ _ => True

theorem runPermits_anyone (schedule : List Act) : s.RunPermits parties anyone schedule := by
  induction schedule generalizing s with
  | nil => trivial
  | cons act schedule ih => exact ⟨fun _ _ => trivial, fun _ _ => ih⟩

theorem maximal_of_ret (h : ∀ p ∈ parties, ∃ r, s.progs p = .ret r) : s.Maximal parties := by
  intro act
  rw [Option.eq_none_iff_forall_not_mem]
  intro t ht
  obtain ⟨hp, op, next, hprog, -⟩ := step_eq_some.mp ht
  obtain ⟨r, hr⟩ := h act.party hp
  rw [hr] at hprog
  cases hprog

theorem Maximal.halted (h : s.Maximal parties) : s.Halted parties may := fun act _ => h act

theorem scripted_init {program : PartyId → Prog ρ}
    (h : ∀ p ∈ parties, (program p).Follows script parties may p (result p) (fun _ => 0) (fun _ => 0) 0) :
    (init program).Scripted script parties may result :=
  ⟨fun _ => List.nil_prefix, fun p hp => ⟨0, h p hp⟩⟩

/-- No schedule goes on for ever, and one that cannot go on has brought every party to its result. -/
structure Finishes (parties : List PartyId) (s : NetState ρ) (result : PartyId → ρ) : Prop where
  finite : ∀ states : Nat → NetState ρ, states 0 = s →
    ¬ ∀ i, Steps parties (states i) (states (i + 1))
  results : ∀ schedule t, s.run parties schedule = some t → t.Maximal parties →
    ∀ p ∈ parties, t.progs p = .ret (result p)

theorem Finishes.ret_of_ended {result : PartyId → ρ} (h : s.Finishes parties result)
    {schedule : List Act} {t : NetState ρ} (hrun : s.run parties schedule = some t) {p : PartyId}
    (hp : p ∈ parties) (hended : ∀ op next, t.progs p ≠ .call op next) :
    t.progs p = .ret (result p) := by
  obtain ⟨rest, final, hrest, hmax⟩ := exists_maximal parties t
  rw [← progs_of_run hended hrest]
  exact h.results (schedule ++ rest) final ((run_append hrun).trans hrest) hmax p hp

theorem Finishes.result_of_ret {result : PartyId → ρ} (h : s.Finishes parties result)
    {schedule : List Act} {t : NetState ρ} (hrun : s.run parties schedule = some t) {p : PartyId}
    (hp : p ∈ parties) {r : ρ} (hret : t.progs p = .ret r) : r = result p := by
  have hresult := h.ret_of_ended hrun hp fun op next => by simp [hret]
  rwa [hret, Prog.ret.injEq] at hresult

theorem Finishes.not_error {α ε : Type} {s : NetState (Except ε α)} {output : PartyId → α}
    (h : s.Finishes parties fun p => .ok (output p)) {schedule : List Act} {p : PartyId} (hp : p ∈ parties) :
    (s.run parties schedule).map (fun t => (t.progs p).result?.map Except.toOption) ≠ some (some none) := by
  intro hrun
  obtain ⟨t, ht, hresult⟩ := Option.map_eq_some_iff.mp hrun
  obtain ⟨r, hr, herror⟩ := Option.map_eq_some_iff.mp hresult
  obtain rfl := h.result_of_ret ht hp (Prog.result?_eq_some hr)
  cases herror

theorem Finishes.ne_panic {result : PartyId → ρ} (h : s.Finishes parties result) {p : PartyId}
    (hp : p ∈ parties) : s.progs p ≠ .panic := by
  intro hpanic
  have hresult := @ret_of_ended _ _ _ _ h [] s rfl p hp fun op next => by simp [hpanic]
  rw [hpanic] at hresult
  cases hresult

/-- Code is well founded, so schedules are finite. -/
theorem not_forall_steps (states : Nat → NetState ρ) :
    ¬ ∀ i, Steps parties (states i) (states (i + 1)) := by
  intro h
  exact (RelEmbedding.natGT (fun i => (states i).ranks parties) fun i => ranks_lt (h i)).not_wellFounded
    wellFounded_lt

/-- **A protocol whose parties follow a script finishes.** -/
theorem finishes_of_follows {program : PartyId → Prog ρ} {result : PartyId → ρ}
    (h : ∀ p ∈ parties, (program p).Follows script parties anyone p (· = result p) (fun _ => 0)
      (fun _ => 0) 0) :
    Finishes parties (init program) result where
  finite states _ := not_forall_steps states
  results schedule t hrun hmax p hp := by
    have hscripted := (scripted_init h).run hrun (runPermits_anyone schedule)
    obtain ⟨_, hret, rfl⟩ := (hscripted.done hmax.halted hp).finished
    exact hret

/-- A protocol that finishes and leaves no packet on any link. -/
structure Completes (parties : List PartyId) (s : NetState ρ) (result : PartyId → ρ) : Prop
    extends s.Finishes parties result where
  empty : ∀ schedule t, s.run parties schedule = some t → t.Maximal parties → ∀ link, t.channels link = []

/-- **A protocol whose parties follow a script that leaves nothing behind** leaves nothing behind. -/
theorem completes_of_follows {program : PartyId → Prog ρ} {result : PartyId → ρ}
    (hunread : ∀ link, script.unread link = 0)
    (hlinks : ∀ link, script.packets link ≠ [] → link.sender ∈ parties ∧ link.recipient ∈ parties)
    (h : ∀ p ∈ parties, (program p).Follows script parties anyone p (· = result p) (fun _ => 0)
      (fun _ => 0) 0) :
    Completes parties (init program) result where
  toFinishes := finishes_of_follows h
  empty schedule t hrun hmax link := by
    have hscripted := (scripted_init h).run hrun (runPermits_anyone schedule)
    exact (hscripted.carried_of_halted hmax.halted hunread hlinks link).2

end NetState

end SclRs
