import SclRs.Protocol

/-!
# Opening shares

`protocol/share/open.rs`: every party sends its share to its peers, and a party that learns the secret
collects shares in order of arrival until it has as many as there are parties. Nothing in the loop asks
whether a peer has already given its share: that each is heard once is a condition on the order of
arrival (`HearsEach`), and under it the collected shares are those of all parties (`collect_leads`).
-/

namespace SclRs

structure PassiveOpenShr (S : Type) where
  myShare : S

structure PassiveOpenToParty (S : Type) where
  receiver : PartyId
  myShare : S

section
variable {S V Threshold : Type} [LinearShare S V Threshold] [Abbreviate S] (codec : Postcard S)
  (checks : Bool) (parties : List PartyId) (me : PartyId)

/-- The loop that collects shares until there are `n`. -/
def collect (n : Nat) (shares : List S) (senders : List PartyId) :
    Proto V (List S × List PartyId) :=
  if shares.length < n then do
    let (sender, pkt) ← Proto.network (Prog.op .recvAny)
    let share ← Proto.ofNetwork (pkt.pop codec)
    collect n (shares ++ [share]) (senders ++ [sender])
  else pure (shares, senders)
termination_by n - shares.length
decreasing_by
  rw [List.length_append, List.length_singleton]
  omega

/-- The secret of the shares that are collected. -/
def collectSecret (myShare : S) : Proto V V := do
  let (shares, senders) ← collect codec parties.length [myShare] [me]
  let secret ← Proto.ofOption (LinearShare.secretFromShares checks shares senders)
  Proto.ofShare .share secret

def PassiveOpenShr.run (protocol : PassiveOpenShr S) : Proto V V := do
  let messages := (parties.filter (· ≠ me)).map fun party =>
    (party, Packet.labeled codec protocol.myShare)
  Proto.network (Prog.sendMany messages)
  collectSecret codec checks parties me protocol.myShare

def PassiveOpenShr.execute (protocol : PassiveOpenShr S) : Proto V V :=
  Proto.execute "PassiveOpenLinearShr" (protocol.run codec checks parties me)

def PassiveOpenToParty.run (protocol : PassiveOpenToParty S) : Proto V (Option V) :=
  if protocol.receiver ≠ me then do
    let _ ← Proto.network
      (Prog.op (.sendTo protocol.receiver (Packet.labeled codec protocol.myShare)))
    return none
  else do
    let secret ← collectSecret codec checks parties me protocol.myShare
    return some secret

def PassiveOpenToParty.execute (protocol : PassiveOpenToParty S) : Proto V (Option V) :=
  Proto.execute "PassiveOpenToPartyLinearShr" (protocol.run codec checks parties me)

end

/-! ### Whom a party hears -/

/-- From `σ` on, party `me` has a packet before `time` to come from each of its peers, and hears each
once before it can hear anyone else. -/
structure HearsEach (script : Script) (parties : List PartyId) (may : Hearing) (me : PartyId)
    (σ : Progress) (packet : PartyId → Packet) (time : Nat) : Prop where
  packets : ∀ q ∈ peers parties me, (script.packets ⟨q, me⟩)[σ.received q]? = some (packet q) ∧
    script.time ⟨q, me⟩ (σ.received q) < time
  heard {heard : List PartyId} {q : PartyId} : heard.Nodup → heard ⊆ peers parties me →
    q ∈ peers parties me → q ∉ heard →
    (∃ p ∈ peers parties me, p ∉ heard ∧ may me (σ.receives heard time).received p) ∧
      ∀ p ∈ parties, may me (σ.receives heard time).received p →
        (σ.receives heard time).received p < (script.packets ⟨p, me⟩).length →
        p ∈ peers parties me ∧ p ∉ heard

section
variable {S V Threshold : Type} [LinearShare S V Threshold] [Abbreviate S] {codec : Postcard S}
  {checks : Bool} {parties : List PartyId} {me : PartyId} {script : Script} {may : Hearing}
  {σ : Progress} {time : Nat} {held : PartyId → S}

/-- **The loop collects the shares of all parties**, once it has those of the peers in `heard`. -/
theorem collect_leads
    (h : HearsEach script parties may me σ (fun q => Packet.labeled codec (held q)) time)
    (hnodup : parties.Nodup) (hme : me ∈ parties) {heard : List PartyId} (hheard : heard.Nodup)
    (hsub : heard ⊆ peers parties me) :
    (collect codec parties.length ((me :: heard).map held) (me :: heard) :
        Proto V (List S × List PartyId)).Leads script parties may me (σ.receives heard time)
      (fun r => ∃ senders : List PartyId, senders.Perm parties ∧ r = (senders.map held, senders))
      (σ.receives (peers parties me) time) := by
  have hpeers := nodup_peers hnodup me
  have hlen : parties.length = (peers parties me).length + 1 :=
    (cons_peers_perm hnodup hme).length_eq.symm
  rw [collect]
  split_ifs with hlt
  · have hlt' : heard.length < (peers parties me).length := by
      rw [List.length_map, List.length_cons] at hlt
      omega
    obtain ⟨q, hq, hqheard⟩ : ∃ q ∈ peers parties me, q ∉ heard := by
      by_contra hall
      push Not at hall
      exact absurd (hpeers.subperm hall).length_le (by omega)
    obtain ⟨⟨p, hp, hpheard, hmay⟩, honly⟩ := h.heard hheard hsub hq hqheard
    refine Proto.leads_recvAny_bind le_rfl ⟨p, (mem_peers.mp hp).1, hmay, ?_⟩ ?_
    · rw [Progress.receives_received_of_notMem hpheard]
      exact (List.getElem?_eq_some_iff.mp (h.packets p hp).1).1
    · intro sender hsender packet hmay hpacket
      obtain ⟨hpeer, hnew⟩ := honly sender hsender hmay (List.getElem?_eq_some_iff.mp hpacket).1
      rw [Progress.receives_received_of_notMem hnew] at hpacket ⊢
      obtain ⟨hnext, hbefore⟩ := h.packets sender hpeer
      obtain rfl := Option.some.inj (hpacket.symm.trans hnext)
      refine ⟨hbefore, ?_⟩
      refine (Proto.leads_ofNetwork (Packet.pop_labeled codec _)).bind ?_
      rintro _ rfl
      have hrest := collect_leads h hnodup hme
        (List.nodup_append.mpr ⟨hheard, List.nodup_singleton _, by
          rintro a ha _ hb rfl
          exact hnew (List.mem_singleton.mp hb ▸ ha)⟩)
        (List.append_subset.mpr ⟨hsub, List.forall_mem_singleton.mpr hpeer⟩)
      rw [Progress.receives_receives]
      simpa using hrest
  · have hperm : heard.Perm (peers parties me) := by
      refine (hheard.subperm hsub).perm_of_length_le ?_
      rw [List.length_map, List.length_cons] at hlt
      omega
    rw [σ.receives_perm hperm]
    exact Proto.leads_pure ⟨_, (hperm.cons me).trans (cons_peers_perm hnodup hme), rfl⟩
termination_by parties.length - heard.length
decreasing_by
  rw [List.length_append, List.length_singleton]
  omega

theorem HearsEach.sends {packet : PartyId → Packet} (h : HearsEach script parties may me σ packet time)
    (ps : List PartyId) : HearsEach script parties may me (σ.sends ps) packet time :=
  ⟨h.packets, h.heard⟩

theorem collect_own_leads
    (h : HearsEach script parties may me σ (fun q => Packet.labeled codec (held q)) time)
    (hnodup : parties.Nodup) (hme : me ∈ parties) (htime : σ.time ≤ time) :
    (collect codec parties.length [held me] [me] : Proto V (List S × List PartyId)).Leads script
      parties may me σ
      (fun r => ∃ senders : List PartyId, senders.Perm parties ∧ r = (senders.map held, senders))
      (σ.receives (peers parties me) time) :=
  Prog.Leads.later htime (collect_leads h hnodup hme .nil (List.nil_subset _))

theorem collectSecret_leads {secret : V}
    (h : HearsEach script parties may me σ (fun q => Packet.labeled codec (held q)) time)
    (hnodup : parties.Nodup) (hme : me ∈ parties) (htime : σ.time ≤ time)
    (hsecret : ∀ senders : List PartyId, senders.Perm parties →
      LinearShare.secretFromShares checks (senders.map held) senders = some (.ok secret)) :
    (collectSecret codec checks parties me (held me)).Leads script parties may me σ (· = secret)
      (σ.receives (peers parties me) time) := by
  refine (collect_own_leads h hnodup hme htime).bind ?_
  rintro _ ⟨senders, hperm, rfl⟩
  refine (Proto.leads_ofOption (hsecret senders hperm)).bind ?_
  rintro _ rfl
  exact Proto.leads_ofShare rfl

theorem collectSecret_fails
    (h : HearsEach script parties may me σ (fun q => Packet.labeled codec (held q)) time)
    (hnodup : parties.Nodup) (hme : me ∈ parties) (htime : σ.time ≤ time)
    (herror : ∀ senders : List PartyId, senders.Perm parties →
      ∃ e, LinearShare.secretFromShares checks (senders.map held) senders = some (.error e)) :
    (collectSecret codec checks parties me (held me)).Fails script parties may me σ
      (σ.receives (peers parties me) time) := by
  refine (collect_own_leads h hnodup hme htime).bind_fails ?_
  rintro _ ⟨senders, hperm, rfl⟩
  obtain ⟨e, he⟩ := herror senders hperm
  refine (Proto.leads_ofOption he).bind_fails ?_
  rintro _ rfl
  exact Proto.fails_ofShare rfl

/-- **One opening**: the party has sent its share to each peer and heard each once. -/
theorem PassiveOpenShr.execute_leads {secret : V}
    (h : HearsEach script parties may me σ (fun q => Packet.labeled codec (held q)) time)
    (hnodup : parties.Nodup) (hme : me ∈ parties) (htime : σ.time ≤ time)
    (hsend : ∀ q ∈ peers parties me,
      (script.packets ⟨me, q⟩)[σ.sent q]? = some (Packet.labeled codec (held me)) ∧
        σ.time ≤ script.time ⟨me, q⟩ (σ.sent q))
    (hsecret : ∀ senders : List PartyId, senders.Perm parties →
      LinearShare.secretFromShares checks (senders.map held) senders = some (.ok secret)) :
    ((⟨held me⟩ : PassiveOpenShr S).execute codec checks parties me).Leads script parties may me σ
      (· = secret) ((σ.sends (peers parties me)).receives (peers parties me) time) :=
  .execute ((Proto.leads_sendMany (nodup_peers hnodup me) hsend).bind fun _ _ =>
    collectSecret_leads (h.sends _) hnodup hme htime hsecret)

theorem PassiveOpenShr.execute_fails
    (h : HearsEach script parties may me σ (fun q => Packet.labeled codec (held q)) time)
    (hnodup : parties.Nodup) (hme : me ∈ parties) (htime : σ.time ≤ time)
    (hsend : ∀ q ∈ peers parties me,
      (script.packets ⟨me, q⟩)[σ.sent q]? = some (Packet.labeled codec (held me)) ∧
        σ.time ≤ script.time ⟨me, q⟩ (σ.sent q))
    (herror : ∀ senders : List PartyId, senders.Perm parties →
      ∃ e, LinearShare.secretFromShares checks (senders.map held) senders = some (.error e)) :
    ((⟨held me⟩ : PassiveOpenShr S).execute codec checks parties me).Fails script parties may me σ
      ((σ.sends (peers parties me)).receives (peers parties me) time) :=
  .execute ((Proto.leads_sendMany (nodup_peers hnodup me) hsend).bind_fails fun _ _ =>
    collectSecret_fails (h.sends _) hnodup hme htime herror)

theorem PassiveOpenToParty.sender_leads {receiver : PartyId} {share : S} (hne : receiver ≠ me)
    (hsend : (script.packets ⟨me, receiver⟩)[σ.sent receiver]? = some (Packet.labeled codec share) ∧
      σ.time ≤ script.time ⟨me, receiver⟩ (σ.sent receiver)) :
    ((⟨receiver, share⟩ : PassiveOpenToParty S).execute codec checks parties me).Leads script parties
      may me σ (· = none) (σ.sends [receiver]) := by
  refine .execute ?_
  rw [run, if_pos (by exact hne)]
  exact (Proto.leads_sendTo hsend.1 hsend.2).bind fun _ _ => Proto.leads_pure rfl

theorem PassiveOpenToParty.receiver_leads {secret : V}
    (h : HearsEach script parties may me σ (fun q => Packet.labeled codec (held q)) time)
    (hnodup : parties.Nodup) (hme : me ∈ parties) (htime : σ.time ≤ time)
    (hsecret : ∀ senders : List PartyId, senders.Perm parties →
      LinearShare.secretFromShares checks (senders.map held) senders = some (.ok secret)) :
    ((⟨me, held me⟩ : PassiveOpenToParty S).execute codec checks parties me).Leads script parties may
      me σ (· = some secret) (σ.receives (peers parties me) time) := by
  refine .execute ?_
  rw [run, if_neg (by simp)]
  refine (collectSecret_leads h hnodup hme htime hsecret).bind ?_
  rintro _ rfl
  exact Proto.leads_pure rfl

theorem PassiveOpenToParty.receiver_fails
    (h : HearsEach script parties may me σ (fun q => Packet.labeled codec (held q)) time)
    (hnodup : parties.Nodup) (hme : me ∈ parties) (htime : σ.time ≤ time)
    (herror : ∀ senders : List PartyId, senders.Perm parties →
      ∃ e, LinearShare.secretFromShares checks (senders.map held) senders = some (.error e)) :
    ((⟨me, held me⟩ : PassiveOpenToParty S).execute codec checks parties me).Fails script parties may
      me σ (σ.receives (peers parties me) time) := by
  refine .execute ?_
  rw [run, if_neg (by simp)]
  exact (collectSecret_fails h hnodup hme htime herror).bind

end

end SclRs
