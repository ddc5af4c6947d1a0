import SclRs.Math.Matrix
import SclRs.Net.CircularWait
import SclRs.Net.Leads

/-!
# Protocols

The code of a protocol at one party: a `Prog` that ends with an output or an `Error` of
`protocol/mod.rs`. The local party, the connected parties and the generator of its environment are
parameters of it. `Proto.Leads` is `Prog.Leads` for code that does not fail.
-/

namespace SclRs

/-- The errors that `Error::Share` boxes. -/
inductive BoxedError (V : Type)
  | share (error : ShareError V)
  | matrix (error : MatrixError)
  | vector (error : VectorError)

/-- `Error` of `protocol/mod.rs`. -/
inductive ProtocolError (V : Type)
  | network (error : NetworkError)
  | share (error : BoxedError V)
  | input

/-- The parties that `me` exchanges packets with. -/
def peers (parties : List PartyId) (me : PartyId) : List PartyId := parties.filter (· ≠ me)

theorem mem_peers {parties : List PartyId} {me q : PartyId} : q ∈ peers parties me ↔ q ∈ parties ∧ q ≠ me := by
  simp [peers]

theorem nodup_peers {parties : List PartyId} (hnodup : parties.Nodup) (me : PartyId) :
    (peers parties me).Nodup := hnodup.filter _

theorem cons_peers_perm {parties : List PartyId} {me : PartyId} (hnodup : parties.Nodup)
    (hme : me ∈ parties) : (me :: peers parties me).Perm parties := by
  rw [List.perm_ext_iff_of_nodup
    (List.nodup_cons.mpr ⟨fun h => (mem_peers.mp h).2 rfl, nodup_peers hnodup me⟩) hnodup]
  intro q
  rw [List.mem_cons, mem_peers]
  constructor
  · rintro (rfl | h)
    exacts [hme, h.1]
  · intro hq
    by_cases h : q = me
    exacts [.inl h, .inr ⟨hq, h⟩]

/-- Code of a party that may fail. -/
abbrev Proto (V : Type) := ExceptT (ProtocolError V) Prog

namespace Proto

variable {V α β : Type}

/-- A computation that panics where it answers `none`. -/
def ofOption : Option α → Proto V α
  | some a => pure a
  | none => ExceptT.mk .panic

/-- `?` on a result of the network. -/
def ofNetwork : Except NetworkError α → Proto V α
  | .ok a => pure a
  | .error e => throw (.network e)

/-- An operation of the network, with `?`. -/
def network (p : Prog (Except NetworkError α)) : Proto V α := do
  ofNetwork (← ExceptT.lift p)

/-- `?` on a result whose error `box` puts into an `Error::Share`. -/
def ofShare {ε : Type} (box : ε → BoxedError V) : Except ε α → Proto V α
  | .ok a => pure a
  | .error e => throw (.share (box e))

/-- `?` on the result of a protocol's constructor. -/
def ofResult : Except (ProtocolError V) α → Proto V α
  | .ok a => pure a
  | .error e => throw e

def execute (id : String) (run : Proto V α) : Proto V α := ExceptT.mk (Prog.execute id run.run)

/-- The loop over parties that receives a value from each other party, in their order; `own` stands
for the value of `me`. -/
def recvEach (me : PartyId) (own : β) (decode : Packet → Except NetworkError β)
    (parties : List PartyId) : Proto V (List β) :=
  parties.mapM fun party =>
    if party ≠ me then do
      let pkt ← network (Prog.op (.recvFrom party))
      ofNetwork (decode pkt)
    else pure own

/-- The loop that sends a packet to each of the parties. -/
def sendEach (packet : Packet) (parties : List PartyId) : Proto V Unit :=
  parties.forM fun party => do
    let _ ← network (Prog.op (.sendTo party packet))

/-! ### Rules -/

section
variable (script : Script) (parties : List PartyId) (may : Hearing) (me : PartyId)

/-- The code keeps to the script from `σ` to `σ'` and succeeds there with a result in `Q`. -/
def Leads (x : Proto V α) (σ : Progress) (Q : α → Prop) (σ' : Progress) : Prop :=
  Prog.Leads script parties may me x.run σ (fun r => ∃ a, r = .ok a ∧ Q a) σ'

/-- The code keeps to the script from `σ` to `σ'` and fails there. -/
def Fails (x : Proto V α) (σ σ' : Progress) : Prop :=
  Prog.Leads script parties may me x.run σ (fun r => ∃ e, r = .error e) σ'

variable {script parties may me} {σ σ' σ'' : Progress} {Q : α → Prop} {x : Proto V α}

theorem leads_pure {a : α} (h : Q a) :
    (pure a : Proto V α).Leads script parties may me σ Q σ := Prog.Leads.ret ⟨a, rfl, h⟩

theorem Leads.bind {g : α → Proto V β} {R : β → Prop} (hx : x.Leads script parties may me σ Q σ')
    (hg : ∀ a, Q a → (g a).Leads script parties may me σ' R σ'') :
    (x >>= g).Leads script parties may me σ R σ'' := by
  apply Prog.Leads.bind hx
  rintro _ ⟨a, rfl, ha⟩
  exact hg a ha

theorem Leads.imp {R : α → Prop} (hx : x.Leads script parties may me σ Q σ') (h : ∀ a, Q a → R a) :
    x.Leads script parties may me σ R σ' :=
  Prog.Leads.imp hx fun _ ⟨a, hr, ha⟩ => ⟨a, hr, h a ha⟩

theorem leads_ofOption {o : Option α} {a : α} (h : o = some a) :
    (ofOption o : Proto V α).Leads script parties may me σ (· = a) σ := by
  subst h
  exact leads_pure rfl

theorem leads_ofShare {ε : Type} {box : ε → BoxedError V} {r : Except ε α} {a : α} (h : r = .ok a) :
    (ofShare box r).Leads script parties may me σ (· = a) σ := by
  subst h
  exact leads_pure rfl

theorem leads_ofNetwork {r : Except NetworkError α} {a : α} (h : r = .ok a) :
    (ofNetwork r : Proto V α).Leads script parties may me σ (· = a) σ := by
  subst h
  exact leads_pure rfl

theorem leads_ofResult {r : Except (ProtocolError V) α} {a : α} (h : r = .ok a) :
    (ofResult r).Leads script parties may me σ (· = a) σ := by
  subst h
  exact leads_pure rfl

theorem leads_network {p : Prog (Except NetworkError α)} {a : α}
    (hp : p.Leads script parties may me σ (· = .ok a) σ') :
    (network p : Proto V α).Leads script parties may me σ (· = a) σ' := by
  have hlift : Proto.Leads script parties may me (ExceptT.lift p : Proto V (Except NetworkError α)) σ
      (· = .ok a) σ' := Prog.Leads.bind hp fun r hr => Prog.Leads.ret ⟨r, rfl, hr⟩
  apply Leads.bind hlift
  rintro _ rfl
  exact leads_pure rfl

theorem Leads.execute {id : String} (hx : x.Leads script parties may me σ Q σ') :
    (Proto.execute id x).Leads script parties may me σ Q σ' := Prog.Leads.execute hx

theorem leads_recvAny_bind {time : Nat} {g : PartyId × Packet → Proto V β} {R : β → Prop}
    (htime : σ.time ≤ time)
    (hsome : ∃ q ∈ parties, may me σ.received q ∧ σ.received q < (script.packets ⟨q, me⟩).length)
    (hg : ∀ q ∈ parties, ∀ packet, may me σ.received q →
      (script.packets ⟨q, me⟩)[σ.received q]? = some packet →
      script.time ⟨q, me⟩ (σ.received q) < time ∧
        (g (q, packet)).Leads script parties may me (σ.receives [q] time) R σ') :
    (network (Prog.op .recvAny) >>= g).Leads script parties may me σ R σ' := by
  intro ρ result f hf
  refine Prog.follows_recvAny hsome fun q hq packet hmay hpacket => ?_
  obtain ⟨hlt, hleads⟩ := hg q hq packet hmay hpacket
  exact ⟨time, htime, hlt, hleads hf⟩

theorem leads_sendMany {l : List PartyId} {packet : PartyId → Packet} (hnodup : l.Nodup)
    (hsend : ∀ q ∈ l, (script.packets ⟨me, q⟩)[σ.sent q]? = some (packet q) ∧
      σ.time ≤ script.time ⟨me, q⟩ (σ.sent q)) :
    (network (Prog.sendMany (l.map fun q => (q, packet q))) : Proto V Unit).Leads script parties may
      me σ (fun _ => True) (σ.sends l) := by
  have hfst : (l.map fun q => (q, packet q)).map Prod.fst = l := by
    rw [List.map_map]
    exact List.map_id l
  have hmany : (Prog.sendMany (l.map fun q => (q, packet q))).Leads script parties may me σ
      (· = .ok ()) (σ.sends ((l.map fun q => (q, packet q)).map Prod.fst)) :=
    Prog.leads_sendMany (by rwa [hfst]) (List.forall_mem_map.mpr fun q hq => (hsend q hq).1)
      (List.forall_mem_map.mpr fun q hq => (hsend q hq).2)
  rw [hfst] at hmany
  exact (leads_network hmany).imp fun _ _ => trivial

theorem leads_sendTo {q : PartyId} {packet : Packet}
    (hpacket : (script.packets ⟨me, q⟩)[σ.sent q]? = some packet)
    (htime : σ.time ≤ script.time ⟨me, q⟩ (σ.sent q)) :
    (network (Prog.op (.sendTo q packet)) : Proto V Nat).Leads script parties may me σ
      (fun _ => True) (σ.sends [q]) :=
  (leads_network (Prog.leads_sendTo hpacket htime)).imp fun _ _ => trivial

theorem leads_recvFrom {q : PartyId} {packet : Packet} {time : Nat} (hq : q ∈ parties)
    (hmay : may me σ.received q) (hpacket : (script.packets ⟨q, me⟩)[σ.received q]? = some packet)
    (htime : σ.time ≤ time) (hlt : script.time ⟨q, me⟩ (σ.received q) < time) :
    (network (Prog.op (.recvFrom q)) : Proto V Packet).Leads script parties may me σ (· = packet)
      (σ.receives [q] time) :=
  leads_network (Prog.leads_recvFrom hq hmay hpacket htime hlt)

theorem leads_sendEach {packet : Packet} {l : List PartyId} (hnodup : l.Nodup)
    (hsend : ∀ q ∈ l, (script.packets ⟨me, q⟩)[σ.sent q]? = some packet ∧
      σ.time ≤ script.time ⟨me, q⟩ (σ.sent q)) :
    (sendEach packet l : Proto V Unit).Leads script parties may me σ (fun _ => True) (σ.sends l) := by
  induction l generalizing σ with
  | nil => exact leads_pure trivial
  | cons q l ih =>
    rw [List.nodup_cons] at hnodup
    have hsent : ∀ p ∈ l, (σ.sends [q]).sent p = σ.sent p := by
      intro p hp
      exact Progress.sends_sent_of_notMem (List.mem_singleton.not.mpr (ne_of_mem_of_not_mem hp hnodup.1))
    have hrest := ih (σ := σ.sends [q]) hnodup.2 fun p hp => by
      rw [hsent p hp]
      exact hsend p (List.mem_cons_of_mem _ hp)
    rw [Progress.sends_sends] at hrest
    obtain ⟨hpacket, htime⟩ := hsend q List.mem_cons_self
    have hfirst : (do let _ ← network (Prog.op (.sendTo q packet)) : Proto V Unit).Leads script parties
        may me σ (fun _ => True) (σ.sends [q]) :=
      (leads_sendTo hpacket htime).bind fun _ _ => leads_pure trivial
    exact hfirst.bind fun _ _ => hrest

theorem Leads.mapM_cons {f : α → Proto V β} (value : α → β) {a : α} {l : List α}
    (hfirst : (f a).Leads script parties may me σ (· = value a) σ')
    (hrest : (l.mapM f).Leads script parties may me σ' (· = l.map value) σ'') :
    ((a :: l).mapM f).Leads script parties may me σ (· = (a :: l).map value) σ'' := by
  rw [List.mapM_cons]
  apply hfirst.bind
  rintro _ rfl
  apply hrest.bind
  rintro _ rfl
  exact leads_pure rfl

theorem Leads.mapM_append {f : α → Proto V β} {value : α → β} {l l' : List α}
    (hfirst : (l.mapM f).Leads script parties may me σ (· = l.map value) σ')
    (hrest : (l'.mapM f).Leads script parties may me σ' (· = l'.map value) σ'') :
    ((l ++ l').mapM f).Leads script parties may me σ (· = (l ++ l').map value) σ'' := by
  rw [List.mapM_append]
  apply hfirst.bind
  rintro _ rfl
  apply hrest.bind
  rintro _ rfl
  exact leads_pure List.map_append.symm

theorem leads_recvEach {own : β} {decode : Packet → Except NetworkError β} (value : PartyId → β)
    {t : Nat} {l : List PartyId} (hnodup : l.Nodup) (hown : me ∈ l → value me = own)
    (hrecv : ∀ q ∈ peers l me, q ∈ parties ∧ ∃ packet,
      (script.packets ⟨q, me⟩)[σ.received q]? = some packet ∧ decode packet = .ok (value q) ∧
        script.time ⟨q, me⟩ (σ.received q) < t) (htime : σ.time ≤ t) :
    (recvEach me own decode l : Proto V (List β)).Leads script parties NetState.anyone me σ
      (· = l.map value) (σ.receives (peers l me) t) := by
  induction l generalizing σ with
  | nil => exact Prog.Leads.wait (leads_pure rfl) htime
  | cons q l ih =>
    rw [List.nodup_cons] at hnodup
    rw [recvEach]
    by_cases hq : q = me
    · subst hq
      obtain rfl := hown List.mem_cons_self
      have hpeers : peers (q :: l) q = peers l q := List.filter_cons_of_neg (by simp)
      rw [hpeers] at hrecv ⊢
      refine .mapM_cons value ?_ (ih hnodup.2 (fun h => absurd h hnodup.1) hrecv htime)
      rw [if_neg (not_not_intro rfl)]
      exact leads_pure rfl
    · have hpeers : peers (q :: l) me = q :: peers l me := List.filter_cons_of_pos (by simpa using hq)
      rw [hpeers] at hrecv ⊢
      obtain ⟨hmem, packet, hpacket, hdecode, hlt⟩ := hrecv q List.mem_cons_self
      have hreceived : ∀ p ∈ peers l me, (σ.receives [q] t).received p = σ.received p := by
        intro p hp
        have hne : p ≠ q := ne_of_mem_of_not_mem (mem_peers.mp hp).1 hnodup.1
        exact Progress.receives_received_of_notMem (List.mem_singleton.not.mpr hne) t
      have hrest := @ih (σ.receives [q] t) hnodup.2
        (fun h => hown (List.mem_cons_of_mem _ h))
        (fun p hp => by
          rw [hreceived p hp]
          exact hrecv p (List.mem_cons_of_mem _ hp)) le_rfl
      rw [Progress.receives_receives] at hrest
      refine .mapM_cons value ?_ hrest
      rw [if_pos hq]
      apply (leads_recvFrom hmem trivial hpacket htime hlt).bind
      rintro _ rfl
      exact leads_ofNetwork hdecode

/-! ### Failures -/

theorem fails_ofShare {ε : Type} {box : ε → BoxedError V} {r : Except ε α} {e : ε} (h : r = .error e) :
    (ofShare box r).Fails script parties may me σ σ := by
  subst h
  exact Prog.Leads.ret ⟨_, rfl⟩

theorem Leads.bind_fails {g : α → Proto V β} (hx : x.Leads script parties may me σ Q σ')
    (hg : ∀ a, Q a → (g a).Fails script parties may me σ' σ'') :
    (x >>= g).Fails script parties may me σ σ'' := by
  apply Prog.Leads.bind hx
  rintro _ ⟨a, rfl, ha⟩
  exact hg a ha

theorem Fails.bind {g : α → Proto V β} (hx : x.Fails script parties may me σ σ') :
    (x >>= g).Fails script parties may me σ σ' := by
  apply Prog.Leads.bind hx
  rintro _ ⟨e, rfl⟩
  exact Prog.Leads.ret ⟨e, rfl⟩

theorem Fails.execute {id : String} (hx : x.Fails script parties may me σ σ') :
    (Proto.execute id x).Fails script parties may me σ σ' := Prog.Leads.execute hx

/-! ### Whole protocols -/

theorem Leads.follows {a : α} (hx : x.Leads script parties may me .start (· = a) σ')
    (hsent : ∀ q, σ'.sent q = (script.packets ⟨me, q⟩).length)
    (hreceived : ∀ q, σ'.received q + script.unread ⟨q, me⟩ = (script.packets ⟨q, me⟩).length) :
    x.run.Follows script parties may me (· = .ok a) (fun _ => 0) (fun _ => 0) 0 :=
  Prog.Leads.follows (Prog.Leads.imp hx fun _ ⟨_, hr, ha⟩ => ha ▸ hr) hsent hreceived

end

/-! ### What is sent -/

section
variable {P : Packet → Prop} {x : Proto V α}

theorem onlySends_bind {f : α → Proto V β} (hx : x.run.OnlySends P) (hf : ∀ a, (f a).run.OnlySends P) :
    (x >>= f).run.OnlySends P := by
  apply Prog.OnlySends.bind hx
  intro r
  cases r with
  | ok a => exact hf a
  | error e => exact .ret _

theorem onlySends_ofNetwork (r : Except NetworkError α) : (ofNetwork r : Proto V α).run.OnlySends P := by
  cases r <;> exact .ret _

theorem onlySends_network {p : Prog (Except NetworkError α)} (hp : p.OnlySends P) :
    (network p : Proto V α).run.OnlySends P :=
  onlySends_bind (hp.bind fun _ => .ret _) onlySends_ofNetwork

theorem onlySends_mapM {f : α → Proto V β} (hf : ∀ a, (f a).run.OnlySends P) (l : List α) :
    (l.mapM f).run.OnlySends P := by
  induction l with
  | nil => exact .ret _
  | cons a l ih =>
    rw [List.mapM_cons]
    exact onlySends_bind (hf a) fun _ => onlySends_bind ih fun _ => .ret _

end

end Proto

end SclRs
