import SclRs.Math.Field.Mersenne61
import SclRs.Protocol.PassiveShamir.Phases
import SclRs.Ss.Additive

/-!
# Secure summation with additive shares

`examples/additive_shr_secure_sum.rs`: every party deals its input additively to all parties, itself
included, adds up the shares that it holds, and sends the sum to all parties, which add these up again.
Both protocols put one packet on each link. A party goes through the parties in an order of its own, and so
do the others (`secure_sum`).
-/

namespace SclRs

open LawfulRing NetState

section
variable {R : Type} [RingOps R] (codec : Postcard (AdditiveSS R)) (checks : Bool) (partyIds : List PartyId)

/-- The loop that receives a share from each party. -/
def recvShares : Proto R (List (AdditiveSS R)) :=
  partyIds.mapM fun partyId => do
    let sharePacket ← Proto.network (Prog.op (.recvFrom partyId))
    Proto.ofNetwork (sharePacket.pop codec)

structure DistrAdditiveShr (R : Type) where
  secret : R

namespace DistrAdditiveShr

variable (rng : Nat → R) (protocol : DistrAdditiveShr R)

def run : Proto R (List (AdditiveSS R)) := do
  let shares := AdditiveSS.sharesFromSecret protocol.secret partyIds rng
  let messages := (partyIds.zip shares).map fun (partyId, share) => (partyId, Packet.labeled codec share)
  Proto.network (Prog.sendMany messages)
  recvShares codec partyIds

def execute : Proto R (List (AdditiveSS R)) :=
  Proto.execute "DistAdditiveShr" (protocol.run codec partyIds rng)

end DistrAdditiveShr

structure ReconstrAdditiveShr (R : Type) where
  share : AdditiveSS R

namespace ReconstrAdditiveShr

variable (protocol : ReconstrAdditiveShr R)

def run : Proto R R := do
  let messages := partyIds.map fun party => (party, Packet.labeled codec protocol.share)
  Proto.network (Prog.sendMany messages)
  let shares ← recvShares codec partyIds
  return AdditiveSS.secretFromShares shares

def execute : Proto R R := Proto.execute "ReconstrAdditiveShr" (protocol.run codec partyIds)

end ReconstrAdditiveShr

structure SecureAddition (R : Type) where
  input : R

namespace SecureAddition

variable (rng : Nat → R) (protocol : SecureAddition R)

def run : Proto R R := do
  let shares ← (⟨protocol.input⟩ : DistrAdditiveShr R).execute codec partyIds rng
  let shareSum ← Proto.ofOption (sumShares checks shares)
  (⟨shareSum⟩ : ReconstrAdditiveShr R).execute codec partyIds

def execute : Proto R R := Proto.execute "SecSumAdditiveShr" (protocol.run codec checks partyIds rng)

def net (codec : Postcard (AdditiveSS R)) (checks : Bool) (partyIds : PartyId → List PartyId)
    (rng : PartyId → Nat → R) (input : PartyId → R) : NetState (Except (ProtocolError R) R) :=
  Proto.net fun p => (⟨input p⟩ : SecureAddition R).execute codec checks (partyIds p) (rng p)

end SecureAddition

end

/-! ### One packet on each link -/

section
variable {R : Type} [RingOps R] {codec : Postcard (AdditiveSS R)} {parties list : List PartyId} {me : PartyId}
  {sent : PartyId → PartyId → AdditiveSS R}

omit [RingOps R] in
theorem recvShares_directed : (recvShares codec list).Directed :=
  Proto.directed_mapM fun _ _ => (Proto.directed_recvFrom _).bind fun _ => Proto.directed_ofNetwork _

omit [RingOps R] in
theorem recvShares_leads {script : Script} {σ : Progress} {value : PartyId → AdditiveSS R} {t : Nat}
    {l : List PartyId} (hnodup : l.Nodup)
    (hrecv : ∀ q ∈ l, q ∈ parties ∧
      (script.packets ⟨q, me⟩)[σ.received q]? = some (Packet.labeled codec (value q)) ∧
      script.time ⟨q, me⟩ (σ.received q) < t) (htime : σ.time ≤ t) :
    (recvShares codec l).Leads script parties anyone me σ (· = l.map value) (σ.receives l t) := by
  induction l generalizing σ with
  | nil => exact Prog.Leads.wait (Proto.leads_pure rfl) htime
  | cons q l ih =>
    rw [List.nodup_cons] at hnodup
    obtain ⟨hmem, hpacket, hlt⟩ := hrecv q List.mem_cons_self
    have hreceived : ∀ p ∈ l, (σ.receives [q] t).received p = σ.received p := by
      intro p hp
      exact Progress.receives_received_of_notMem
        (List.mem_singleton.not.mpr (ne_of_mem_of_not_mem hp hnodup.1)) t
    have hrest := @ih (σ.receives [q] t) hnodup.2 (fun p hp => by
      rw [hreceived p hp]
      exact hrecv p (List.mem_cons_of_mem _ hp)) le_rfl
    rw [Progress.receives_receives] at hrest
    refine .mapM_cons value ?_ hrest
    refine (Proto.leads_recvFrom hmem trivial hpacket htime hlt).bind ?_
    rintro _ rfl
    exact Proto.leads_ofNetwork (Packet.pop_labeled codec _)

omit [RingOps R] in
variable (codec sent) in
theorem exchange_leads (hnodup : parties.Nodup) (hlist : list.Perm parties) (hme : me ∈ parties) :
    (do Proto.network (Prog.sendMany (list.map fun q => (q, Packet.labeled codec (sent me q))))
        recvShares codec list : Proto R (List (AdditiveSS R))).Leads (dealScript codec parties [sent])
      parties anyone me .start (· = list.map fun q => sent q me) (dealtTo parties 1) := by
  have hlistNodup := hlist.nodup_iff.mpr hnodup
  rw [← dealtTo_zero parties, ← dealtTo_succ hnodup hlist hlist]
  have hat : ∀ q ∈ list, (dealtTo parties 0).sent q = 0 ∧ (dealtTo parties 0).received q = 0 :=
    fun q hq => ⟨if_pos (hlist.mem_iff.mp hq), if_pos (hlist.mem_iff.mp hq)⟩
  refine (Proto.leads_sendMany hlistNodup fun q hq => ?_).bind fun _ _ => ?_
  · rw [(hat q hq).1]
    exact ⟨dealScript_get rfl hme (hlist.mem_iff.mp hq), le_rfl⟩
  · refine recvShares_leads hlistNodup (fun q hq => ⟨hlist.mem_iff.mp hq, ?_, ?_⟩) (Nat.zero_le 1)
    · rw [Progress.sends_received, (hat q hq).2]
      exact dealScript_get rfl (hlist.mem_iff.mp hq) hme
    · rw [Progress.sends_received, (hat q hq).2]
      exact Nat.zero_lt_one

end

/-! ### The two protocols -/

section
variable {R : Type} [RingOps R] {K : Type} [CommRing K] [LawfulRing R K] {codec : Postcard (AdditiveSS R)}
  {checks : Bool} {parties : List PartyId} {lists : PartyId → List PartyId}

theorem min?_of_perm {l l' : List PartyId} (h : l.Perm l') : l.min? = l'.min? := by
  cases hl : l.min? with
  | none =>
    rw [List.min?_eq_none_iff] at hl
    subst hl
    rw [List.nil_perm.mp h]
    rfl
  | some a =>
    rw [List.min?_eq_some_iff] at hl
    exact (List.min?_eq_some_iff.mpr ⟨h.mem_iff.mp hl.1, fun b hb => hl.2 b (h.mem_iff.mpr hb)⟩).symm

theorem AdditiveSS.IsSharing.perm {l l' : List PartyId} {x : PartyId → AdditiveSS R} {a : R}
    (h : IsSharing l x a) (hperm : l.Perm l') : IsSharing l' x a where
  nonempty hnil := h.nonempty (List.perm_nil.mp (hnil ▸ hperm))
  nodup := hperm.nodup_iff.mp h.nodup
  belongs p hp := by
    obtain ⟨hparty, hleader, hvalid⟩ := h.belongs p (hperm.mem_iff.mpr hp)
    exact ⟨hparty, by rw [hleader, min?_of_perm hperm], hvalid⟩
  valid := h.valid
  sum := h.sum.trans (hperm.map _).sum_eq

theorem AdditiveSS.exists_foldlM {me : PartyId} {s : AdditiveSS R} {l : List (AdditiveSS R)}
    (hs : s.Belongs parties me) (hl : ∀ x ∈ l, x.Belongs parties me) :
    ∃ z : AdditiveSS R, l.foldlM (LinearShare.add checks) s = some z ∧ z.Belongs parties me ∧
      val z.value = val s.value + (l.map fun x => val x.value).sum := by
  induction l generalizing s with
  | nil => exact ⟨s, rfl, hs, by simp⟩
  | cons x l ih =>
    obtain ⟨hx, hl⟩ := List.forall_mem_cons.mp hl
    have hadd : LinearShare.add checks s x = some { s with value := RingOps.add s.value x.value } := by
      simp [LinearShare.add, debugAssert, hs.party, hx.party, hs.isLeader, hx.isLeader]
    obtain ⟨z, hz, hbelongs, hval⟩ := ih (s := { s with value := RingOps.add s.value x.value })
      ⟨hs.party, hs.isLeader, valid_add hs.valid hx.valid⟩ hl
    refine ⟨z, ?_, hbelongs, ?_⟩
    · rw [List.foldlM_cons, hadd]
      exact hz
    · rw [hval, val_add hs.valid hx.valid, List.map_cons, List.sum_cons, add_assoc]

variable (checks) in
theorem AdditiveSS.exists_sumShares {me : PartyId} {l : List (AdditiveSS R)} (hne : l ≠ [])
    (hl : ∀ x ∈ l, x.Belongs parties me) :
    ∃ z : AdditiveSS R, sumShares checks l = some z ∧ z.Belongs parties me ∧
      val z.value = (l.map fun x => val x.value).sum := by
  cases l with
  | nil => exact absurd rfl hne
  | cons s l =>
    obtain ⟨hs, hl⟩ := List.forall_mem_cons.mp hl
    exact AdditiveSS.exists_foldlM hs hl

theorem DistrAdditiveShr.exists_dealings (hnodup : parties.Nodup) (hne : parties ≠ [])
    (hlists : ∀ p ∈ parties, (lists p).Perm parties) {rng : PartyId → Nat → R} {input : PartyId → R}
    (hinput : ∀ p ∈ parties, Valid (input p)) (hrng : ∀ p ∈ parties, ∀ i, Valid (rng p i)) :
    ∃ dealt : PartyId → PartyId → AdditiveSS R, ∀ p ∈ parties,
      AdditiveSS.sharesFromSecret (input p) (lists p) (rng p) = (lists p).map (dealt p) ∧
        AdditiveSS.IsSharing parties (dealt p) (input p) := by
  have hdeal : ∀ p, ∃ dealt : PartyId → AdditiveSS R, p ∈ parties →
      AdditiveSS.sharesFromSecret (input p) (lists p) (rng p) = (lists p).map dealt ∧
        AdditiveSS.IsSharing parties dealt (input p) := by
    intro p
    by_cases hp : p ∈ parties
    · have hperm := hlists p hp
      have hne' : lists p ≠ [] := fun hnil => hne (List.nil_perm.mp (hnil ▸ hperm))
      obtain ⟨dealt, hdealt, hsharing⟩ := AdditiveSS.sharesFromSecret_isSharing hne'
        (hperm.nodup_iff.mpr hnodup) (hinput p hp) (hrng p hp)
      exact ⟨dealt, fun _ => ⟨hdealt, hsharing.perm hperm⟩⟩
    · exact ⟨fun _ => ⟨RingOps.zero, 0, false⟩, fun h => absurd h hp⟩
  choose dealt hdeal using hdeal
  exact ⟨dealt, hdeal⟩

variable (codec) in
theorem DistrAdditiveShr.carries (hnodup : parties.Nodup) (hlists : ∀ p ∈ parties, (lists p).Perm parties)
    {rng : PartyId → Nat → R} {input : PartyId → R} {dealt : PartyId → PartyId → AdditiveSS R}
    (hdealt : ∀ p ∈ parties,
      AdditiveSS.sharesFromSecret (input p) (lists p) (rng p) = (lists p).map (dealt p)) :
    (Proto.net fun p => (⟨input p⟩ : DistrAdditiveShr R).execute codec (lists p) (rng p)).Carries parties
      (fun p => .ok ((lists p).map fun q => dealt q p)) (dealScript codec parties [dealt]).packets := by
  refine Proto.carries_execute _ (carries_of_dealings codec [dealt] fun p hp => ?_)
  have hexchange := exchange_leads codec dealt hnodup (hlists p hp) hp
  rwa [run, hdealt p hp, zip_map_self, List.map_map]

variable (codec) in
theorem ReconstrAdditiveShr.carries (hnodup : parties.Nodup)
    (hlists : ∀ p ∈ parties, (lists p).Perm parties) {z : PartyId → AdditiveSS R} {total : R}
    (hz : AdditiveSS.IsSharing parties z total) :
    (Proto.net fun p => (⟨z p⟩ : ReconstrAdditiveShr R).execute codec (lists p)).Carries parties
      (fun _ => .ok total) (dealScript codec parties [fun p _ => z p]).packets := by
  refine Proto.carries_execute _ (carries_of_dealings codec [fun p _ => z p] fun p hp => ?_)
  have hexchange := exchange_leads codec (fun p _ => z p) hnodup (hlists p hp) hp
  have hbind := Proto.Leads.bind (g := fun shares => pure (AdditiveSS.secretFromShares shares))
    (R := (· = total)) hexchange fun shares hshares => by
      subst hshares
      exact Proto.leads_pure (hz.secretFromShares_perm (hlists p hp))
  rwa [bind_assoc] at hbind

namespace SecureAddition

/-- What the parties hold after the dealings `dealt` of their inputs: shares of the sum. -/
structure Sums (checks : Bool) (parties : List PartyId) (lists : PartyId → List PartyId)
    (dealt : PartyId → PartyId → AdditiveSS R) (z : PartyId → AdditiveSS R) (total : R) : Prop where
  sum : ∀ p ∈ parties, sumShares checks ((lists p).map fun q => dealt q p) = some (z p)
  value : ∀ p ∈ parties, val (z p).value = (parties.map fun q => val (dealt q p).value).sum
  sharing : AdditiveSS.IsSharing parties z total

variable (checks) in
theorem exists_sums (hnodup : parties.Nodup) (hne : parties ≠ [])
    (hlists : ∀ p ∈ parties, (lists p).Perm parties) {input : PartyId → R}
    {dealt : PartyId → PartyId → AdditiveSS R}
    (hdealt : ∀ p ∈ parties, AdditiveSS.IsSharing parties (dealt p) (input p)) :
    ∃ z total, Sums checks parties lists dealt z total ∧
      val total = (parties.map fun p => val (input p)).sum := by
  have hsum : ∀ p, ∃ z : AdditiveSS R, p ∈ parties →
      sumShares checks ((lists p).map fun q => dealt q p) = some z ∧ z.Belongs parties p ∧
        val z.value = (parties.map fun q => val (dealt q p).value).sum := by
    intro p
    by_cases hp : p ∈ parties
    · have hperm := hlists p hp
      have hne' : (lists p).map (fun q => dealt q p) ≠ [] := by
        rw [Ne, List.map_eq_nil_iff]
        exact fun hnil => hne (List.nil_perm.mp (hnil ▸ hperm))
      have hbelongs : ∀ x ∈ (lists p).map fun q => dealt q p, x.Belongs parties p :=
        List.forall_mem_map.mpr fun q hq => (hdealt q (hperm.mem_iff.mp hq)).belongs p hp
      obtain ⟨z, hz, hbelongs, hval⟩ := AdditiveSS.exists_sumShares checks hne' hbelongs
      refine ⟨z, fun _ => ⟨hz, hbelongs, ?_⟩⟩
      rw [hval, List.map_map]
      exact (hperm.map _).sum_eq
    · exact ⟨⟨RingOps.zero, 0, false⟩, fun h => absurd h hp⟩
  choose z hz using hsum
  obtain ⟨total, htotal, hval⟩ := val_surj (R := R) (parties.map fun p => val (input p)).sum
  refine ⟨z, total, ⟨fun p hp => (hz p hp).1, fun p hp => (hz p hp).2.2, hne, hnodup,
    fun p hp => (hz p hp).2.1, htotal, ?_⟩, hval⟩
  have hinputs : (parties.map fun p => val (input p)) =
      parties.map fun p => (parties.map fun q => val (dealt p q).value).sum :=
    List.map_congr_left fun p hp => (hdealt p hp).sum
  have hshares : (parties.map fun p => val (z p).value) =
      parties.map fun p => (parties.map fun q => val (dealt q p).value).sum :=
    List.map_congr_left fun p hp => (hz p hp).2.2
  rw [hval, hinputs, hshares]
  simpa using Multiset.sum_map_sum_map (parties : Multiset PartyId) (parties : Multiset PartyId)
    (f := fun p q => val (dealt p q).value)

theorem carries (hnodup : parties.Nodup) (hlists : ∀ p ∈ parties, (lists p).Perm parties)
    {rng : PartyId → Nat → R} {input : PartyId → R} {dealt : PartyId → PartyId → AdditiveSS R}
    {z : PartyId → AdditiveSS R} {total : R}
    (hdealt : ∀ p ∈ parties,
      AdditiveSS.sharesFromSecret (input p) (lists p) (rng p) = (lists p).map (dealt p))
    (hsums : Sums checks parties lists dealt z total) :
    (net codec checks lists rng input).Carries parties (fun _ => .ok total) fun link =>
      (dealScript codec parties [dealt]).packets link ++
        (dealScript codec parties [fun p _ => z p]).packets link := by
  refine Proto.carries_execute _ (Proto.carries_bind (fun p _ => ?_)
    (DistrAdditiveShr.carries codec hnodup hlists hdealt) ?_)
  · refine Proto.Directed.execute ?_
    exact (Proto.directed_sendMany _).bind fun _ => recvShares_directed
  · exact Proto.carries_ofOption_bind hsums.sum (ReconstrAdditiveShr.carries codec hnodup hlists hsums.sharing)

variable (codec checks) in
theorem exists_carries (hnodup : parties.Nodup) (hne : parties ≠ [])
    (hlists : ∀ p ∈ parties, (lists p).Perm parties) {rng : PartyId → Nat → R} {input : PartyId → R}
    (hinput : ∀ p ∈ parties, Valid (input p)) (hrng : ∀ p ∈ parties, ∀ i, Valid (rng p i)) :
    ∃ (dealt : PartyId → PartyId → AdditiveSS R) (z : PartyId → AdditiveSS R) (total : R),
      (∀ p ∈ parties, AdditiveSS.sharesFromSecret (input p) (lists p) (rng p) = (lists p).map (dealt p) ∧
        AdditiveSS.IsSharing parties (dealt p) (input p)) ∧
      Sums checks parties lists dealt z total ∧ val total = (parties.map fun p => val (input p)).sum ∧
      (net codec checks lists rng input).Carries parties (fun _ => .ok total) fun link =>
        (dealScript codec parties [dealt]).packets link ++
          (dealScript codec parties [fun p _ => z p]).packets link := by
  obtain ⟨dealt, hdealt⟩ := DistrAdditiveShr.exists_dealings hnodup hne hlists hinput hrng
  obtain ⟨z, total, hsums, hval⟩ := exists_sums checks hnodup hne hlists fun p hp => (hdealt p hp).2
  exact ⟨dealt, z, total, hdealt, hsums, hval, carries hnodup hlists (fun p hp => (hdealt p hp).1) hsums⟩

/-- **Every schedule ends with the sum of the inputs**, at every party and whatever the order in which each
goes through the parties. -/
theorem secure_sum (hnodup : parties.Nodup) (hne : parties ≠ [])
    (hlists : ∀ p ∈ parties, (lists p).Perm parties) {rng : PartyId → Nat → R} {input : PartyId → R}
    (hinput : ∀ p ∈ parties, Valid (input p)) (hrng : ∀ p ∈ parties, ∀ i, Valid (rng p i)) :
    ∃ total : R, Valid total ∧ val total = (parties.map fun p => val (input p)).sum ∧
      (net codec checks lists rng input).Completes parties fun _ => .ok total := by
  obtain ⟨_, _, total, -, hsums, hval, hcarries⟩ := exists_carries codec checks hnodup hne hlists hinput hrng
  exact ⟨total, hsums.sharing.valid, hval, hcarries.toCompletes⟩

end SecureAddition

end

theorem SecureAddition.secure_sum_three :
    ∃ total : Mersenne61, Valid total ∧
      val total = ([0, 1, 2].map fun p => val (if p = 1 then ⟨9⟩ else ⟨5⟩ : Mersenne61)).sum ∧
      (net (.ofCodec (AdditiveSS.codec Mersenne61.codec)) true (fun p => if p = 1 then [2, 1, 0] else [0, 1, 2])
        (fun _ _ => ⟨7⟩) fun p => if p = 1 then ⟨9⟩ else ⟨5⟩).Completes [0, 1, 2] fun _ => .ok total := by
  have hvalid : ∀ p : PartyId, Valid (if p = 1 then ⟨9⟩ else ⟨5⟩ : Mersenne61) := by
    intro p
    split_ifs <;> exact show Mersenne61.Canonical _ by decide
  exact secure_sum (by decide) (by decide) (by decide) (fun p _ => hvalid p)
    fun _ _ _ => show Mersenne61.Canonical _ by decide

end SclRs
