import SclRs.Net.Script

/-!
# Following a script piece by piece

`Leads p σ Q σ'`: run by `me` where `σ` says how many packets it has exchanged, the code `p` keeps to the
script until it ends, with a result in `Q` and the progress `σ'`. Pieces compose (`Leads.bind`), and the
pieces of a whole program add up to `Prog.Follows` (`Leads.follows`). There is a rule for each operation,
whose premises say what the script has next.
-/

namespace SclRs

/-- The packets that a party has sent to and received from each party, and a time before which it does
not send. -/
structure Progress where
  sent : PartyId → Nat
  received : PartyId → Nat
  time : Nat

namespace Progress

def start : Progress := ⟨fun _ => 0, fun _ => 0, 0⟩

/-- One more packet has been sent to each of `ps`. -/
def sends (σ : Progress) (ps : List PartyId) : Progress :=
  { σ with sent := fun p => σ.sent p + ps.count p }

/-- One more packet has been received from each of `ps`. -/
def receives (σ : Progress) (ps : List PartyId) (time : Nat) : Progress :=
  ⟨σ.sent, fun p => σ.received p + ps.count p, time⟩

variable (σ : Progress) (p : PartyId)

@[simp] theorem sends_nil : σ.sends [] = σ := rfl

@[simp] theorem sends_sent (ps : List PartyId) : (σ.sends ps).sent p = σ.sent p + ps.count p := rfl

@[simp] theorem sends_received (ps : List PartyId) : (σ.sends ps).received p = σ.received p := rfl

@[simp] theorem sends_time (ps : List PartyId) : (σ.sends ps).time = σ.time := rfl

@[simp] theorem receives_sent (ps : List PartyId) (time : Nat) :
    (σ.receives ps time).sent p = σ.sent p := rfl

@[simp] theorem receives_received (ps : List PartyId) (time : Nat) :
    (σ.receives ps time).received p = σ.received p + ps.count p := rfl

@[simp] theorem receives_time (ps : List PartyId) (time : Nat) : (σ.receives ps time).time = time := rfl

variable {σ p} in
theorem sends_sent_of_notMem {ps : List PartyId} (h : p ∉ ps) : (σ.sends ps).sent p = σ.sent p := by
  rw [sends_sent, List.count_eq_zero_of_not_mem h, Nat.add_zero]

variable {σ p} in
theorem receives_received_of_notMem {ps : List PartyId} (h : p ∉ ps) (time : Nat) :
    (σ.receives ps time).received p = σ.received p := by
  rw [receives_received, List.count_eq_zero_of_not_mem h, Nat.add_zero]

theorem sends_singleton_sent :
    (σ.sends [p]).sent = Function.update σ.sent p (σ.sent p + 1) := by
  funext q
  by_cases h : q = p
  · simp [sends, h]
  · simp [sends, h, List.count_singleton, Ne.symm h]

theorem receives_singleton_received (time : Nat) :
    (σ.receives [p] time).received = Function.update σ.received p (σ.received p + 1) := by
  funext q
  by_cases h : q = p
  · simp [receives, h]
  · simp [receives, h, List.count_singleton, Ne.symm h]

theorem sends_sends (ps qs : List PartyId) : (σ.sends ps).sends qs = σ.sends (ps ++ qs) := by
  simp only [sends, List.count_append, add_assoc]

theorem receives_receives (ps qs : List PartyId) (time time' : Nat) :
    (σ.receives ps time).receives qs time' = σ.receives (ps ++ qs) time' := by
  simp only [receives, List.count_append, add_assoc]

theorem sends_perm {ps qs : List PartyId} (h : ps.Perm qs) : σ.sends ps = σ.sends qs := by
  simp only [sends, h.count_eq]

theorem receives_perm {ps qs : List PartyId} (h : ps.Perm qs) (time : Nat) :
    σ.receives ps time = σ.receives qs time := by
  simp only [receives, h.count_eq]

end Progress

/-! ### Later sends -/

section
variable {ρ : Type} {script : Script} {parties : List PartyId} {may : Hearing} {me : PartyId}
  {result : ρ → Prop}

theorem Prog.Follows.mono {prog : Prog ρ} {sent received : PartyId → Nat} {time time' : Nat}
    (h : prog.Follows script parties may me result sent received time) (hle : time' ≤ time) :
    prog.Follows script parties may me result sent received time' := by
  induction h generalizing time' with
  | ret hresult hsent hreceived => exact .ret hresult hsent hreceived
  | sendTo hpacket htime _ ih => exact .sendTo hpacket (hle.trans htime) (ih hle)
  | recvFrom hp hmay hpacket _ ih => exact .recvFrom hp hmay hpacket (ih (max_le_max_right _ hle))
  | recvAny hsome _ ih =>
    exact .recvAny hsome fun p hp packet hmay hpacket => ih p hp packet hmay hpacket (max_le_max_right _ hle)
  | record _ ih => exact .record (ih hle)

/-- `me` follows the script from `σ` on. -/
abbrev Prog.FollowsFrom (script : Script) (parties : List PartyId) (may : Hearing) (me : PartyId)
    (result : ρ → Prop) (prog : Prog ρ) (σ : Progress) : Prop :=
  prog.Follows script parties may me result σ.sent σ.received σ.time

end

namespace Prog

variable (script : Script) (parties : List PartyId) (may : Hearing) (me : PartyId)

/-- The code keeps to the script from `σ` to `σ'`, where it ends with a result in `Q`. -/
def Leads {α : Type} (p : Prog α) (σ : Progress) (Q : α → Prop) (σ' : Progress) : Prop :=
  ∀ ⦃ρ : Type⦄ ⦃result : ρ → Prop⦄ ⦃f : α → Prog ρ⦄,
    (∀ a, Q a → (f a).FollowsFrom script parties may me result σ') →
    (p >>= f).FollowsFrom script parties may me result σ

variable {script parties may me} {α β : Type} {p : Prog α} {σ σ' σ'' : Progress} {Q R : α → Prop}

theorem Leads.ret {a : α} (h : Q a) : (Prog.ret a).Leads script parties may me σ Q σ :=
  fun _ _ _ hf => hf a h

theorem Leads.bind {g : α → Prog β} {R : β → Prop} (hp : p.Leads script parties may me σ Q σ')
    (hg : ∀ a, Q a → (g a).Leads script parties may me σ' R σ'') :
    (p >>= g).Leads script parties may me σ R σ'' := by
  intro ρ result f hf
  rw [bind_assoc]
  exact hp fun a ha => hg a ha hf

theorem Leads.imp (hp : p.Leads script parties may me σ Q σ') (h : ∀ a, Q a → R a) :
    p.Leads script parties may me σ R σ' :=
  fun _ _ _ hf => hp fun a ha => hf a (h a ha)

theorem Leads.later {time : Nat} (hle : σ.time ≤ time)
    (hp : p.Leads script parties may me (σ.receives [] time) Q σ') :
    p.Leads script parties may me σ Q σ' :=
  fun _ _ _ hf => (hp hf).mono hle

theorem Leads.wait {time : Nat} (hp : p.Leads script parties may me σ Q σ') (hle : σ'.time ≤ time) :
    p.Leads script parties may me σ Q (σ'.receives [] time) :=
  fun _ _ _ hf => hp fun a ha => (hf a ha).mono hle

/-- A whole program, in pieces. -/
theorem Leads.follows (hp : p.Leads script parties may me .start Q σ')
    (hsent : ∀ q, σ'.sent q = (script.packets ⟨me, q⟩).length)
    (hreceived : ∀ q, σ'.received q + script.unread ⟨q, me⟩ = (script.packets ⟨q, me⟩).length) :
    p.Follows script parties may me Q (fun _ => 0) (fun _ => 0) 0 := by
  have h := @hp _ Q Prog.ret fun a ha => .ret ha hsent hreceived
  rwa [bind_ret] at h

/-! ### Operations -/

theorem leads_record {marker : Marker} {R : Unit → Prop} (h : R ()) :
    (op (.record marker)).Leads script parties may me σ R σ :=
  fun _ _ _ hf => .record (hf () h)

theorem Leads.execute {id : ProtocolId} (hp : p.Leads script parties may me σ Q σ') :
    (Prog.execute id p).Leads script parties may me σ Q σ' := by
  refine Leads.bind (leads_record (R := fun _ => True) trivial) fun _ _ => ?_
  refine Leads.bind hp fun a ha => ?_
  exact Leads.bind (leads_record (R := fun _ => True) trivial) fun _ _ => Leads.ret ha

theorem leads_sendTo {q : PartyId} {packet : Packet}
    (hpacket : (script.packets ⟨me, q⟩)[σ.sent q]? = some packet)
    (htime : σ.time ≤ script.time ⟨me, q⟩ (σ.sent q)) :
    (op (.sendTo q packet)).Leads script parties may me σ (· = .ok packet.size) (σ.sends [q]) := by
  intro ρ result f hf
  refine .sendTo hpacket htime ?_
  rw [← Progress.sends_singleton_sent]
  exact hf _ rfl

theorem leads_recvFrom {q : PartyId} {packet : Packet} {time : Nat} (hq : q ∈ parties)
    (hmay : may me σ.received q) (hpacket : (script.packets ⟨q, me⟩)[σ.received q]? = some packet)
    (htime : σ.time ≤ time) (hlt : script.time ⟨q, me⟩ (σ.received q) < time) :
    (op (.recvFrom q)).Leads script parties may me σ (· = .ok packet) (σ.receives [q] time) := by
  intro ρ result f hf
  refine .recvFrom hq hmay hpacket (.mono ?_ (max_le htime hlt))
  rw [← Progress.receives_singleton_received σ q time]
  exact hf _ rfl

theorem follows_recvAny
    (hsome : ∃ q ∈ parties, may me σ.received q ∧ σ.received q < (script.packets ⟨q, me⟩).length)
    {ρ : Type} {result : ρ → Prop} {f : _ → Prog ρ}
    (hf : ∀ q ∈ parties, ∀ packet, may me σ.received q →
      (script.packets ⟨q, me⟩)[σ.received q]? = some packet →
      ∃ time, σ.time ≤ time ∧ script.time ⟨q, me⟩ (σ.received q) < time ∧
        (f (.ok (q, packet))).FollowsFrom script parties may me result (σ.receives [q] time)) :
    (op .recvAny >>= f).FollowsFrom script parties may me result σ := by
  refine .recvAny hsome fun q hq packet hmay hpacket => ?_
  obtain ⟨time, htime, hlt, hfollows⟩ := hf q hq packet hmay hpacket
  refine .mono ?_ (max_le htime hlt)
  rw [← Progress.receives_singleton_received σ q time]
  exact hfollows

theorem leads_sendMany {messages : List (PartyId × Packet)} (hnodup : (messages.map Prod.fst).Nodup)
    (hpacket : ∀ m ∈ messages, (script.packets ⟨me, m.1⟩)[σ.sent m.1]? = some m.2)
    (htime : ∀ m ∈ messages, σ.time ≤ script.time ⟨me, m.1⟩ (σ.sent m.1)) :
    (sendMany messages).Leads script parties may me σ (· = .ok ())
      (σ.sends (messages.map Prod.fst)) := by
  induction messages generalizing σ with
  | nil => exact fun _ _ _ hf => hf _ rfl
  | cons message messages ih =>
    obtain ⟨q, packet⟩ := message
    rw [List.map_cons, List.nodup_cons] at hnodup
    have hsent : ∀ m ∈ messages, (σ.sends [q]).sent m.1 = σ.sent m.1 := by
      intro m hm
      have hmem : m.1 ∈ messages.map Prod.fst := List.mem_map_of_mem hm
      exact Progress.sends_sent_of_notMem (List.mem_singleton.not.mpr (ne_of_mem_of_not_mem hmem hnodup.1))
    have hrest := ih (σ := σ.sends [q]) hnodup.2
      (fun m hm => by rw [hsent m hm]; exact hpacket m (List.mem_cons_of_mem _ hm))
      fun m hm => by rw [hsent m hm]; exact htime m (List.mem_cons_of_mem _ hm)
    rw [Progress.sends_sends] at hrest
    refine (leads_sendTo (hpacket _ List.mem_cons_self) (htime _ List.mem_cons_self)).bind ?_
    rintro _ rfl
    exact hrest

end Prog

end SclRs
