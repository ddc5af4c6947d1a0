import SclRs.Protocol
import SclRs.Ss.ShamirLinear

/-!
# Opening a batch through the king

`protocol/passive_shamir/open_king.rs`: every party sends its shares to the king, which opens the
sharings one by one and sends the secrets back. Between the king and each other party there is one
packet each way (`kingScript`), and everybody ends with the secrets (`execute_leads`).
-/

namespace SclRs

instance : Abbreviate Mersenne61 := ⟨"field elem."⟩

structure BatchedPassiveOpenToKing (F : Type) where
  king : PartyId
  parties : List PartyId
  ownShares : List (ShamirSS F)

namespace BatchedPassiveOpenToKing

variable {F : Type} [DecidableEq F] [FieldOps F] [FromU64 F] [Abbreviate F]

section
variable (shareCodec : Postcard (ShamirSS F)) (codec : Postcard F) (checks : Bool) (me : PartyId)
  (protocol : BatchedPassiveOpenToKing F)

/-- What the king does for the sharing with number `i`. -/
def openAt (sharesPerParty : List (List (ShamirSS F))) (i : Nat) : Proto F F := do
  let shares ← Proto.ofOption (sharesPerParty.mapM fun shareList => shareList[i]?)
  let secret ← Proto.ofOption (LinearShare.secretFromShares checks shares protocol.parties)
  Proto.ofShare .share secret

def run : Proto F (List F) :=
  let nShares := protocol.ownShares.length
  if me = protocol.king then do
    let sharesPerParty ← Proto.recvEach me protocol.ownShares (Packet.readAll shareCodec nShares)
      protocol.parties
    let secrets ← (List.range nShares).mapM (protocol.openAt checks sharesPerParty)
    Proto.sendEach (Packet.manyLabeled codec secrets)
      (protocol.parties.filter (· ≠ protocol.king))
    return secrets
  else do
    let _ ← Proto.network
      (Prog.op (.sendTo protocol.king (Packet.manyLabeled shareCodec protocol.ownShares)))
    let pkt ← Proto.network (Prog.op (.recvFrom protocol.king))
    Proto.ofNetwork (pkt.readAll codec nShares)

def execute : Proto F (List F) :=
  Proto.execute "BatchedPassiveOpenToKing" (protocol.run shareCodec codec checks me)

end

/-! ### The script -/

/-- The shares of each party on its link to the king, and the secrets on the way back. -/
def kingScript (shareCodec : Postcard (ShamirSS F)) (codec : Postcard F) (parties : List PartyId)
    (king : PartyId) (shares : PartyId → List (ShamirSS F)) (secrets : List F) : Script where
  packets link :=
    if link.recipient = king ∧ link.sender ∈ peers parties king then
      [Packet.manyLabeled shareCodec (shares link.sender)]
    else if link.sender = king ∧ link.recipient ∈ peers parties king then
      [Packet.manyLabeled codec secrets]
    else []
  time link _ := if link.recipient = king then 0 else 1
  unread _ := 0

/-- What party `me` has exchanged in one opening. -/
def opened (parties : List PartyId) (king me : PartyId) : Progress :=
  if me = king then (Progress.start.receives (peers parties king) 1).sends (peers parties king)
  else (Progress.start.sends [king]).receives [king] 2

variable {shareCodec : Postcard (ShamirSS F)} {codec : Postcard F} {checks : Bool}
  {parties sorted : List PartyId} {king me : PartyId} {shares : PartyId → List (ShamirSS F)}
  {secrets : List F}

omit [DecidableEq F] [FieldOps F] [FromU64 F] in
theorem kingScript_toKing {q : PartyId} (hq : q ∈ peers parties king) :
    (kingScript shareCodec codec parties king shares secrets).packets ⟨q, king⟩ =
      [Packet.manyLabeled shareCodec (shares q)] := if_pos ⟨rfl, hq⟩

omit [DecidableEq F] [FieldOps F] [FromU64 F] in
theorem kingScript_fromKing {q : PartyId} (hq : q ∈ peers parties king) :
    (kingScript shareCodec codec parties king shares secrets).packets ⟨king, q⟩ =
      [Packet.manyLabeled codec secrets] := by
  have hne : ¬ (q = king ∧ king ∈ peers parties king) := fun h => (mem_peers.mp hq).2 h.1
  exact (if_neg hne).trans (if_pos ⟨rfl, hq⟩)

omit [DecidableEq F] [FieldOps F] [FromU64 F] in
theorem opened_exhausts (hnodup : parties.Nodup) (hme : me ∈ parties) (q : PartyId) :
    (opened parties king me).sent q =
        ((kingScript shareCodec codec parties king shares secrets).packets ⟨me, q⟩).length ∧
      (opened parties king me).received q =
        ((kingScript shareCodec codec parties king shares secrets).packets ⟨q, me⟩).length := by
  have hcount := (nodup_peers hnodup king).count (a := q)
  have hsingle := (List.nodup_singleton king).count (a := q)
  by_cases hking : me = king
  · subst hking
    rw [opened, if_pos rfl]
    simp only [Progress.sends_sent, Progress.receives_sent, Progress.sends_received,
      Progress.receives_received, hcount, kingScript, mem_peers]
    by_cases hq : q ∈ parties <;> by_cases hne : q = me <;> simp [Progress.start, hq, hne]
  · rw [opened, if_neg hking]
    simp only [Progress.sends_sent, Progress.receives_sent, Progress.sends_received,
      Progress.receives_received, hsingle, kingScript, mem_peers]
    by_cases hne : q = king <;> simp [Progress.start, hne, hking, hme]

/-! ### At the king and at the others -/

omit [Abbreviate F] in
theorem openAt_eq {l : List ((PartyId → ShamirSS F) × F)} {i : Nat} {x : (PartyId → ShamirSS F) × F}
    {ownShares : List (ShamirSS F)} (hx : l[i]? = some x)
    (hsecret : LinearShare.secretFromShares checks (sorted.map x.1) sorted = some (.ok x.2)) :
    openAt checks ⟨king, sorted, ownShares⟩ (sorted.map fun p => l.map fun y => y.1 p) i =
      (pure x.2 : Proto F F) := by
  have hshares : (sorted.map fun p => l.map fun y => y.1 p).mapM (fun shareList => shareList[i]?) =
      some (sorted.map x.1) := by
    rw [List.mapM_map]
    refine Matrix.mapM_eq_map fun p _ => ?_
    rw [Function.comp_apply, List.getElem?_map, hx]
    rfl
  rw [openAt, hshares]
  simp only [Proto.ofOption, pure_bind, hsecret]
  rfl

variable {l : List ((PartyId → ShamirSS F) × F)}

/-- **The king** opens every sharing. -/
theorem king_leads (hnodup : parties.Nodup) (hsorted : sorted.Perm parties)
    (hsecret : ∀ x ∈ l, LinearShare.secretFromShares checks (sorted.map x.1) sorted = some (.ok x.2)) :
    (execute shareCodec codec checks king ⟨king, sorted, l.map fun x => x.1 king⟩).Leads
      (kingScript shareCodec codec parties king (fun p => l.map fun x => x.1 p) (l.map Prod.snd)) parties
      NetState.anyone king .start (· = l.map Prod.snd) (opened parties king king) := by
  have hpeers : (peers sorted king).Perm (peers parties king) := hsorted.filter _
  have hsortedNodup := hsorted.nodup_iff.mpr hnodup
  have htime : Progress.start.time ≤ 1 := Nat.zero_le 1
  have hopen : (List.range l.length).mapM (openAt checks ⟨king, sorted, l.map fun x => x.1 king⟩
      (sorted.map fun p => l.map fun x => x.1 p)) = (pure (l.map Prod.snd) : Proto F (List F)) := by
    have hall := mapM_range_eq (f := openAt checks ⟨king, sorted, l.map fun x => x.1 king⟩
      (sorted.map fun p => l.map fun x => x.1 p)) (l := l.map Prod.snd) fun i secret hi => by
        rw [List.getElem?_map, Option.map_eq_some_iff] at hi
        obtain ⟨x, hx, rfl⟩ := hi
        exact openAt_eq hx (hsecret x (List.mem_of_getElem? hx))
    rwa [List.length_map] at hall
  refine Proto.Leads.execute ?_
  rw [run, if_pos rfl, opened, if_pos rfl, ← Progress.receives_perm _ hpeers, ← Progress.sends_perm _ hpeers]
  simp only [List.length_map]
  refine (Proto.leads_recvEach (fun p => l.map fun x => x.1 p) hsortedNodup (fun _ => rfl)
    (fun q hq => ?_) htime).bind ?_
  · have hq := hpeers.mem_iff.mp hq
    have hread := Packet.readAll_manyLabeled shareCodec (l.map fun x => x.1 q)
    rw [List.length_map] at hread
    exact ⟨(mem_peers.mp hq).1, _, congrArg (·[0]?) (kingScript_toKing hq), hread,
      (if_pos rfl).trans_lt Nat.zero_lt_one⟩
  · rintro _ rfl
    rw [hopen, pure_bind]
    refine (Proto.leads_sendEach (nodup_peers hsortedNodup king) fun q hq => ?_).bind
      fun _ _ => Proto.leads_pure rfl
    have hq := hpeers.mem_iff.mp hq
    exact ⟨congrArg (·[0]?) (kingScript_fromKing hq), (if_neg (mem_peers.mp hq).2).ge⟩

theorem other_leads (hking : king ∈ parties) (hme : me ∈ parties) (hne : me ≠ king) :
    (execute shareCodec codec checks me ⟨king, sorted, l.map fun x => x.1 me⟩).Leads
      (kingScript shareCodec codec parties king (fun p => l.map fun x => x.1 p) (l.map Prod.snd)) parties
      NetState.anyone me .start (· = l.map Prod.snd) (opened parties king me) := by
  have hpeer : me ∈ peers parties king := mem_peers.mpr ⟨hme, hne⟩
  have hread := Packet.readAll_manyLabeled codec (l.map Prod.snd)
  rw [List.length_map] at hread
  refine Proto.Leads.execute ?_
  rw [run, if_neg hne, opened, if_neg hne]
  simp only [List.length_map]
  refine (Proto.leads_sendTo (congrArg (·[0]?) (kingScript_toKing hpeer)) (Nat.zero_le _)).bind fun _ _ => ?_
  refine (Proto.leads_recvFrom hking trivial (congrArg (·[0]?) (kingScript_fromKing hpeer))
    (Nat.zero_le 2) ((if_neg hne).trans_lt Nat.one_lt_two)).bind ?_
  rintro _ rfl
  exact Proto.leads_ofNetwork hread

/-- **Everybody** ends with the secrets. -/
theorem execute_leads (hnodup : parties.Nodup) (hsorted : sorted.Perm parties) (hking : king ∈ parties)
    (hme : me ∈ parties)
    (hsecret : ∀ x ∈ l, LinearShare.secretFromShares checks (sorted.map x.1) sorted = some (.ok x.2)) :
    (execute shareCodec codec checks me ⟨king, sorted, l.map fun x => x.1 me⟩).Leads
      (kingScript shareCodec codec parties king (fun p => l.map fun x => x.1 p) (l.map Prod.snd)) parties
      NetState.anyone me .start (· = l.map Prod.snd) (opened parties king me) := by
  by_cases hne : me = king
  · subst hne
    exact king_leads hnodup hsorted hsecret
  · exact other_leads hking hme hne

omit [DecidableEq F] [FieldOps F] [FromU64 F] in
theorem follows {α : Type} {x : Proto F α} {a : α} (hnodup : parties.Nodup) (hme : me ∈ parties)
    (hx : x.Leads (kingScript shareCodec codec parties king shares secrets) parties NetState.anyone me
      .start (· = a) (opened parties king me)) :
    x.run.Follows (kingScript shareCodec codec parties king shares secrets) parties NetState.anyone me
      (· = .ok a) (fun _ => 0) (fun _ => 0) 0 :=
  hx.follows (fun q => (opened_exhausts hnodup hme q).1) fun q => (opened_exhausts hnodup hme q).2

end BatchedPassiveOpenToKing

end SclRs
