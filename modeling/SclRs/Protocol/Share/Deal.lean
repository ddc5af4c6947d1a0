import SclRs.Protocol

/-!
# Dealing shares

`protocol/share/deal.rs`: the dealer splits a secret and sends a share to each receiver; everybody, the
dealer included, receives its share from the dealer.
-/

namespace SclRs

/-- `DealerInfo`: what only the dealer holds. -/
structure DealerInfo (S V Threshold : Type) where
  secret : V
  receivers : List PartyId
  threshold : Threshold

structure PassiveDealShr (S V Threshold : Type) where
  dealer : PartyId
  secretInfo : Option (DealerInfo S V Threshold)

namespace PassiveDealShr

variable {S V Threshold : Type}

/-- `PassiveDealShr::dealer`. -/
def ofDealer (dealer : PartyId) (secret : V) (receivers : List PartyId) (threshold : Threshold) :
    PassiveDealShr S V Threshold := ⟨dealer, some ⟨secret, receivers, threshold⟩⟩

def receiver (dealer : PartyId) : PassiveDealShr S V Threshold := ⟨dealer, none⟩

section
variable [LinearShare S V Threshold] [Abbreviate S] (codec : Postcard S) (checks : Bool)
  (rng : Nat → V) (me : PartyId)

/-- What the dealer does before it receives its share. -/
def scatter : Option (DealerInfo S V Threshold) → Proto V Unit
  | none => throw .input
  | some info => do
    let shares ← Proto.ofOption
      (LinearShare.sharesFromSecret checks info.secret info.receivers info.threshold rng)
    let shares ← Proto.ofShare .share shares
    let messages := (info.receivers.zip shares).map fun (recv, share) =>
      (recv, Packet.labeled codec share)
    Proto.network (Prog.sendMany messages)

def run (protocol : PassiveDealShr S V Threshold) : Proto V S := do
  if protocol.dealer = me then
    scatter codec checks rng protocol.secretInfo
  let pkt ← Proto.network (Prog.op (.recvFrom protocol.dealer))
  Proto.ofNetwork (pkt.pop codec)

def execute (protocol : PassiveDealShr S V Threshold) : Proto V S :=
  Proto.execute "PassiveDealLinearShr" (protocol.run codec checks rng me)

end

/-! ### At the dealer and at a receiver -/

section
variable [LinearShare S V Threshold] [Abbreviate S] {codec : Postcard S} {checks : Bool}
  {rng : Nat → V} {me : PartyId} {script : Script} {parties : List PartyId} {may : Hearing}
  {σ : Progress} {time : Nat}

theorem leads_recv {dealer : PartyId} {share : S} (hdealer : dealer ∈ parties)
    (hmay : may me σ.received dealer)
    (hpacket : (script.packets ⟨dealer, me⟩)[σ.received dealer]? = some (Packet.labeled codec share))
    (htime : σ.time ≤ time) (hlt : script.time ⟨dealer, me⟩ (σ.received dealer) < time) :
    (do
      let pkt ← Proto.network (Prog.op (.recvFrom dealer))
      Proto.ofNetwork (pkt.pop codec) : Proto V S).Leads script parties may me σ (· = share)
      (σ.receives [dealer] time) := by
  refine (Proto.leads_recvFrom hdealer hmay hpacket htime hlt).bind ?_
  rintro _ rfl
  exact Proto.leads_ofNetwork (Packet.pop_labeled codec share)

theorem receiver_leads {dealer : PartyId} {share : S} (hme : dealer ≠ me) (hdealer : dealer ∈ parties)
    (hmay : may me σ.received dealer)
    (hpacket : (script.packets ⟨dealer, me⟩)[σ.received dealer]? = some (Packet.labeled codec share))
    (htime : σ.time ≤ time) (hlt : script.time ⟨dealer, me⟩ (σ.received dealer) < time) :
    ((receiver dealer : PassiveDealShr S V Threshold).execute codec checks rng me).Leads script parties
      may me σ (· = share) (σ.receives [dealer] time) := by
  refine Proto.Leads.execute ?_
  rw [run, if_neg (by exact hme)]
  exact leads_recv hdealer hmay hpacket htime hlt

theorem ofDealer_leads {secret : V} {receivers : List PartyId} {threshold : Threshold}
    {shares : PartyId → S}
    (hshares : LinearShare.sharesFromSecret checks secret receivers threshold rng =
      some (.ok (receivers.map shares)))
    (hnodup : receivers.Nodup) (hme : me ∈ parties) (hmay : may me σ.received me)
    (hsend : ∀ q ∈ receivers,
      (script.packets ⟨me, q⟩)[σ.sent q]? = some (Packet.labeled codec (shares q)) ∧
        σ.time ≤ script.time ⟨me, q⟩ (σ.sent q))
    (hpacket : (script.packets ⟨me, me⟩)[σ.received me]? = some (Packet.labeled codec (shares me)))
    (htime : σ.time ≤ time) (hlt : script.time ⟨me, me⟩ (σ.received me) < time) :
    ((ofDealer me secret receivers threshold : PassiveDealShr S V Threshold).execute codec checks rng
      me).Leads script parties may me σ (· = shares me) ((σ.sends receivers).receives [me] time) := by
  have hmessages : (receivers.zip (receivers.map shares)).map
      (fun (recv, share) => (recv, Packet.labeled codec share)) =
      receivers.map fun q => (q, Packet.labeled codec (shares q)) := by
    rw [zip_map_self, List.map_map]
    rfl
  have hscatter : (scatter codec checks rng
      (some (⟨secret, receivers, threshold⟩ : DealerInfo S V Threshold))).Leads script parties may me σ
      (fun _ => True) (σ.sends receivers) := by
    refine (Proto.leads_ofOption hshares).bind ?_
    rintro _ rfl
    refine (Proto.leads_ofShare rfl).bind ?_
    rintro _ rfl
    simp only [hmessages]
    exact Proto.leads_sendMany hnodup hsend
  refine Proto.Leads.execute ?_
  rw [run, if_pos (by rfl)]
  exact hscatter.bind fun _ _ => leads_recv hme hmay hpacket htime hlt

end

end PassiveDealShr

end SclRs
