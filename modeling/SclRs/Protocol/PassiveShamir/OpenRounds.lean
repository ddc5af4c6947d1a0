import SclRs.Protocol.PassiveShamir.Triple
import SclRs.Protocol.Share.Sequential

/-!
# Opening one by one through the king

`PassiveOpenToKing`, which opens one sharing, run for one sharing after the other. In each round there is
one packet each way between the king and every other party (`roundsScript`), and a party that is slow has
its packets wait on its links, in order. So the rounds end with the secrets that the batch gives in one
round (`batched_agrees`).
-/

namespace SclRs

structure PassiveOpenToKing (F : Type) where
  king : PartyId
  parties : List PartyId
  ownShare : ShamirSS F

namespace PassiveOpenToKing

variable {F : Type} [DecidableEq F] [FieldOps F] [FromU64 F] [Abbreviate F]

section
variable (shareCodec : Postcard (ShamirSS F)) (codec : Postcard F) (checks : Bool) (me : PartyId)

def run (protocol : PassiveOpenToKing F) : Proto F F :=
  if me = protocol.king then do
    let shares ← Proto.recvEach me protocol.ownShare (Packet.pop shareCodec) protocol.parties
    let secret ← Proto.ofOption (LinearShare.secretFromShares checks shares protocol.parties)
    let secret ← Proto.ofShare .share secret
    Proto.sendEach (Packet.labeled codec secret) (protocol.parties.filter (· ≠ protocol.king))
    return secret
  else do
    let _ ← Proto.network
      (Prog.op (.sendTo protocol.king (Packet.labeled shareCodec protocol.ownShare)))
    let pkt ← Proto.network (Prog.op (.recvFrom protocol.king))
    Proto.ofNetwork (pkt.pop codec)

def execute (protocol : PassiveOpenToKing F) : Proto F F :=
  Proto.execute "PassiveOpenToKing" (protocol.run shareCodec codec checks me)

/-- The protocol, once for each share. -/
def openRounds (king : PartyId) (parties : List PartyId) (shares : List (ShamirSS F)) : Proto F (List F) :=
  openEach (fun share => (⟨king, parties, share⟩ : PassiveOpenToKing F).execute shareCodec codec checks me)
    shares

end

/-! ### The script -/

/-- The shares of each party on its link to the king, and the secrets on the way back, in the order of the
rounds. -/
def roundsScript (shareCodec : Postcard (ShamirSS F)) (codec : Postcard F) (parties : List PartyId)
    (king : PartyId) (l : List ((PartyId → ShamirSS F) × F)) : Script where
  packets link :=
    if link.recipient = king ∧ link.sender ∈ peers parties king then
      l.map fun x => Packet.labeled shareCodec (x.1 link.sender)
    else if link.sender = king ∧ link.recipient ∈ peers parties king then
      l.map fun x => Packet.labeled codec x.2
    else []
  time link i := if link.recipient = king then 2 * i else 2 * i + 1
  unread _ := 0

/-- The parties that `me` exchanges packets with. -/
def partners (parties : List PartyId) (king me : PartyId) : List PartyId :=
  if me = king then peers parties king else [king]

/-- After `i` rounds with a packet each way to and from `ps`. -/
def exchanged (ps : List PartyId) (i : Nat) : Progress :=
  ⟨fun p => i * ps.count p, fun p => i * ps.count p, 2 * i⟩

theorem exchanged_zero (ps : List PartyId) : exchanged ps 0 = .start := by simp [exchanged, Progress.start]

theorem exchanged_succ_king (ps : List PartyId) (i : Nat) :
    (((exchanged ps i).receives ps (2 * i + 1)).sends ps).receives [] (2 * (i + 1)) = exchanged ps (i + 1) := by
  simp [exchanged, Progress.sends, Progress.receives, Nat.succ_mul]

theorem exchanged_succ_other (ps : List PartyId) (i : Nat) :
    ((exchanged ps i).sends ps).receives ps (2 * (i + 1)) = exchanged ps (i + 1) := by
  simp [exchanged, Progress.sends, Progress.receives, Nat.succ_mul]

theorem nodup_partners {parties : List PartyId} (hnodup : parties.Nodup) (king me : PartyId) :
    (partners parties king me).Nodup := by
  unfold partners
  split_ifs
  exacts [nodup_peers hnodup king, List.nodup_singleton king]

variable {shareCodec : Postcard (ShamirSS F)} {codec : Postcard F} {checks : Bool} {parties : List PartyId}
  {king me : PartyId} {l : List ((PartyId → ShamirSS F) × F)} {x : (PartyId → ShamirSS F) × F} {i : Nat}

omit [DecidableEq F] [FieldOps F] [FromU64 F] in
theorem roundsScript_packets (p q : PartyId) :
    (roundsScript shareCodec codec parties king l).packets ⟨p, q⟩ =
      if q = king ∧ p ∈ peers parties king then l.map fun x => Packet.labeled shareCodec (x.1 p)
      else if p = king ∧ q ∈ peers parties king then l.map fun x => Packet.labeled codec x.2
      else [] := rfl

omit [DecidableEq F] [FieldOps F] [FromU64 F] in
theorem roundsScript_toKing {q : PartyId} (hq : q ∈ peers parties king) (hi : l[i]? = some x) :
    ((roundsScript shareCodec codec parties king l).packets ⟨q, king⟩)[i]? =
      some (Packet.labeled shareCodec (x.1 q)) := by
  rw [roundsScript_packets, if_pos ⟨rfl, hq⟩, List.getElem?_map, hi]
  rfl

omit [DecidableEq F] [FieldOps F] [FromU64 F] in
theorem roundsScript_fromKing {q : PartyId} (hq : q ∈ peers parties king) (hi : l[i]? = some x) :
    ((roundsScript shareCodec codec parties king l).packets ⟨king, q⟩)[i]? =
      some (Packet.labeled codec x.2) := by
  have hne : ¬ (q = king ∧ king ∈ peers parties king) := fun h => (mem_peers.mp hq).2 h.1
  rw [roundsScript_packets, if_neg hne, if_pos ⟨rfl, hq⟩, List.getElem?_map, hi]
  rfl

omit [DecidableEq F] [FieldOps F] [FromU64 F] in
theorem roundsScript_length (p q : PartyId) :
    ((roundsScript shareCodec codec parties king l).packets ⟨p, q⟩).length =
      if q = king ∧ p ∈ peers parties king ∨ p = king ∧ q ∈ peers parties king then l.length else 0 := by
  by_cases hto : q = king ∧ p ∈ peers parties king
  · rw [roundsScript_packets, if_pos hto, if_pos (.inl hto), List.length_map]
  · by_cases hfrom : p = king ∧ q ∈ peers parties king
    · rw [roundsScript_packets, if_neg hto, if_pos hfrom, if_pos (.inr hfrom), List.length_map]
    · rw [roundsScript_packets, if_neg hto, if_neg hfrom, if_neg (not_or.mpr ⟨hto, hfrom⟩)]
      rfl

theorem mem_partners (hme : me ∈ parties) {q : PartyId} :
    q ∈ partners parties king me ↔
      q = king ∧ me ∈ peers parties king ∨ me = king ∧ q ∈ peers parties king := by
  unfold partners
  by_cases hking : me = king
  · simp [hking, mem_peers]
  · simp [hking, mem_peers, hme]

omit [DecidableEq F] [FieldOps F] [FromU64 F] in
theorem exchanged_exhausts (hnodup : parties.Nodup) (hme : me ∈ parties) (q : PartyId) :
    (exchanged (partners parties king me) l.length).sent q =
        ((roundsScript shareCodec codec parties king l).packets ⟨me, q⟩).length ∧
      (exchanged (partners parties king me) l.length).received q =
        ((roundsScript shareCodec codec parties king l).packets ⟨q, me⟩).length := by
  rw [roundsScript_length, roundsScript_length, exchanged]
  simp only [mul_count_eq (nodup_partners hnodup king me), mem_partners hme, true_and]
  exact if_congr or_comm rfl rfl

/-! ### At the king and at the others -/

/-- **The king**, in one round. -/
theorem king_leads (hnodup : parties.Nodup) (hi : l[i]? = some x)
    (hsecret : LinearShare.secretFromShares checks (parties.map x.1) parties = some (.ok x.2)) :
    (execute shareCodec codec checks king ⟨king, parties, x.1 king⟩).Leads
      (roundsScript shareCodec codec parties king l) parties NetState.anyone king
      (exchanged (peers parties king) i) (· = x.2) (exchanged (peers parties king) (i + 1)) := by
  have hpeers := nodup_peers hnodup king
  have hcount : ∀ q ∈ peers parties king, i * (peers parties king).count q = i := fun q hq => by
    rw [mul_count_eq hpeers, if_pos hq]
  rw [← exchanged_succ_king]
  refine Proto.Leads.execute (Prog.Leads.wait ?_ (Nat.le_succ (2 * i + 1)))
  rw [run, if_pos rfl]
  refine (Proto.leads_recvEach x.1 (t := 2 * i + 1) hnodup (fun _ => rfl) (fun q hq => ?_)
    (Nat.le_succ (2 * i))).bind ?_
  · have hreceived : (exchanged (peers parties king) i).received q = i := hcount q hq
    rw [hreceived]
    refine ⟨(mem_peers.mp hq).1, _, roundsScript_toKing hq hi, Packet.pop_labeled .., ?_⟩
    exact (if_pos rfl).trans_lt (Nat.lt_succ_self (2 * i))
  · rintro _ rfl
    apply (Proto.leads_ofOption hsecret).bind
    rintro _ rfl
    apply (Proto.leads_ofShare rfl).bind
    rintro _ rfl
    refine (Proto.leads_sendEach hpeers fun q hq => ?_).bind fun _ _ => Proto.leads_pure rfl
    have hsent : ((exchanged (peers parties king) i).receives (peers parties king) (2 * i + 1)).sent q = i :=
      hcount q hq
    rw [hsent]
    exact ⟨roundsScript_fromKing hq hi, (if_neg (mem_peers.mp hq).2).ge⟩

theorem other_leads (hking : king ∈ parties) (hme : me ∈ parties) (hne : me ≠ king)
    (hi : l[i]? = some x) :
    (execute shareCodec codec checks me ⟨king, parties, x.1 me⟩).Leads
      (roundsScript shareCodec codec parties king l) parties NetState.anyone me
      (exchanged [king] i) (· = x.2) (exchanged [king] (i + 1)) := by
  have hpeer : me ∈ peers parties king := mem_peers.mpr ⟨hme, hne⟩
  have hcount : i * [king].count king = i := by rw [List.count_singleton_self, Nat.mul_one]
  have hsent : (exchanged [king] i).sent king = i := hcount
  have hreceived : ((exchanged [king] i).sends [king]).received king = i := hcount
  rw [← exchanged_succ_other]
  apply Proto.Leads.execute
  rw [run, if_neg hne]
  refine (Proto.leads_sendTo ?_ ?_).bind fun _ _ => ?_
  · rw [hsent]
    exact roundsScript_toKing hpeer hi
  · rw [hsent]
    exact (if_pos rfl).ge
  have hrecv : (Proto.network (Prog.op (.recvFrom king)) : Proto F Packet).Leads
      (roundsScript shareCodec codec parties king l) parties NetState.anyone me
      ((exchanged [king] i).sends [king]) (· = Packet.labeled codec x.2)
      (((exchanged [king] i).sends [king]).receives [king] (2 * (i + 1))) := by
    refine Proto.leads_recvFrom hking trivial ?_ (Nat.mul_le_mul_left 2 (Nat.le_succ i)) ?_
    · rw [hreceived]
      exact roundsScript_fromKing hpeer hi
    · rw [hreceived]
      exact (if_neg hne).trans_lt (Nat.lt_succ_self (2 * i + 1))
  apply hrecv.bind
  rintro _ rfl
  exact Proto.leads_ofNetwork (Packet.pop_labeled ..)

theorem openRounds_follows (hnodup : parties.Nodup) (hking : king ∈ parties) (hme : me ∈ parties)
    (hsecret : ∀ x ∈ l, LinearShare.secretFromShares checks (parties.map x.1) parties = some (.ok x.2)) :
    (openRounds shareCodec codec checks me king parties (l.map fun x => x.1 me)).run.Follows
      (roundsScript shareCodec codec parties king l) parties NetState.anyone me
      (· = .ok (l.map Prod.snd)) (fun _ => 0) (fun _ => 0) 0 := by
  have hleads : (openRounds shareCodec codec checks me king parties (l.map fun x => x.1 me)).Leads
      (roundsScript shareCodec codec parties king l) parties NetState.anyone me
      (exchanged (partners parties king me) 0) (· = l.map Prod.snd)
      (exchanged (partners parties king me) (0 + l.length)) := by
    refine openEach_leads fun i x hi => ?_
    rw [Nat.zero_add]
    by_cases hne : me = king
    · subst hne
      rw [partners, if_pos rfl]
      exact king_leads hnodup hi (hsecret x (List.mem_of_getElem? hi))
    · rw [partners, if_neg hne]
      exact other_leads hking hme hne hi
  rw [exchanged_zero, Nat.zero_add] at hleads
  exact hleads.follows (fun q => (exchanged_exhausts hnodup hme q).1)
    fun q => (exchanged_exhausts hnodup hme q).2

/-! ### The batch and the rounds -/

section
variable (F : Type) {K : Type} [FieldOps F] [FromU64 F] [Field K] [LawfulField F K]

/-- A Shamir sharing of a secret, of a degree below the number of the parties. -/
structure Sharing (checks : Bool) (parties : List PartyId) where
  shares : PartyId → ShamirSS F
  secret : F
  degree : Nat
  degree_lt : degree < parties.length
  valid : LawfulRing.Valid secret
  shared : ShamirSS.SharedBy checks parties degree shares (LawfulRing.val secret)

end

section
variable {F K : Type} [DecidableEq F] [FieldOps F] [FromU64 F] [Abbreviate F] [Field K] [LawfulField F K]
  {checks : Bool} {parties : List PartyId}

def batchedNet (shareCodec : Postcard (ShamirSS F)) (codec : Postcard F) (king : PartyId)
    (sharings : List (Sharing F checks parties)) : NetState (Except (ProtocolError F) (List F)) :=
  NetState.init fun p => (BatchedPassiveOpenToKing.execute shareCodec codec checks p
    ⟨king, parties, sharings.map (·.shares p)⟩).run

def roundsNet (shareCodec : Postcard (ShamirSS F)) (codec : Postcard F) (king : PartyId)
    (sharings : List (Sharing F checks parties)) : NetState (Except (ProtocolError F) (List F)) :=
  NetState.init fun p =>
    (openRounds shareCodec codec checks p king parties (sharings.map (·.shares p))).run

variable {shareCodec : Postcard (ShamirSS F)} {codec : Postcard F} {king : PartyId}

theorem mem_of_link {p q : PartyId} (hking : king ∈ parties)
    (h : q = king ∧ p ∈ peers parties king ∨ p = king ∧ q ∈ peers parties king) : p ∈ parties ∧ q ∈ parties := by
  rcases h with ⟨rfl, hp⟩ | ⟨rfl, hq⟩
  exacts [⟨(mem_peers.mp hp).1, hking⟩, ⟨hking, (mem_peers.mp hq).1⟩]

/-- **Opening a batch and opening one by one** give every party the secrets, and leave no packet behind. -/
theorem batched_agrees [LawfulFromU64 F] (hking : king ∈ parties) (hsize : parties.length < 2 ^ 64)
    (hpoints : ShamirSS.DistinctPoints F checks parties) (sharings : List (Sharing F checks parties)) :
    (batchedNet shareCodec codec king sharings).Completes parties
        (fun _ => .ok (sharings.map Sharing.secret)) ∧
      (roundsNet shareCodec codec king sharings).Completes parties
        (fun _ => .ok (sharings.map Sharing.secret)) := by
  let l := sharings.map fun x => (x.shares, x.secret)
  have hshares : ∀ p, sharings.map (·.shares p) = l.map fun x => x.1 p := fun p => by
    rw [List.map_map]
    rfl
  have hsecrets : sharings.map Sharing.secret = l.map Prod.snd := by
    rw [List.map_map]
    rfl
  have hsecret : ∀ x ∈ l, LinearShare.secretFromShares checks (parties.map x.1) parties = some (.ok x.2) := by
    refine List.forall_mem_map.mpr fun x _ => ?_
    obtain ⟨r, hvalid, hval, hr⟩ := x.shared.opens hpoints x.degree_lt hsize
    rw [hr parties (.refl _), LawfulRing.val_inj hvalid x.valid hval]
  simp only [batchedNet, roundsNet, hshares, hsecrets]
  constructor
  · refine NetState.completes_of_follows (fun _ => rfl) (fun link hlink => ?_) fun p hp =>
      BatchedPassiveOpenToKing.follows hpoints.nodup hp
        (BatchedPassiveOpenToKing.execute_leads hpoints.nodup (.refl _) hking hp hsecret)
    refine mem_of_link hking (by_contra fun h => hlink ?_)
    rw [not_or] at h
    exact (if_neg h.1).trans (if_neg h.2)
  · refine NetState.completes_of_follows (fun _ => rfl) (fun link hlink => ?_) fun p hp =>
      openRounds_follows hpoints.nodup hking hp hsecret
    refine mem_of_link hking (by_contra fun h => hlink ?_)
    rw [not_or] at h
    exact (if_neg h.1).trans (if_neg h.2)

end

/-- Everybody holds a share of five, of some degree. -/
def five (parties : List PartyId) (t : Nat) (ht : t < parties.length)
    (hpoints : ∀ p ∈ parties, ∃ α : Mersenne61, ShamirSS.encodeParty true p = some α) :
    Sharing Mersenne61 true parties where
  shares _ := ⟨⟨5⟩, t⟩
  secret := ⟨5⟩
  degree := t
  degree_lt := ht
  valid := show Mersenne61.Canonical _ by decide
  shared := PassiveTriple.sharedBy_five parties t hpoints

/-- Three parties hold a secret on a line, with some degree. -/
def onLine (secret slope : Fin 10) (t : Nat) (hpos : 0 < t) (ht : t < [0, 1, 2].length) :
    Sharing Mersenne61 true [0, 1, 2] where
  shares := Mersenne61.line (.digit secret) slope t
  secret := .digit secret
  degree := t
  degree_lt := ht
  valid := Mersenne61.canonical_digit secret
  shared := Mersenne61.sharedBy_line hpos (Mersenne61.canonical_digit secret) slope

theorem batched_agrees_three :
    (batchedNet (.ofCodec (ShamirSS.codec Mersenne61.codec)) (.ofCodec Mersenne61.codec) 1
      [onLine 5 2 1 (by decide) (by decide), onLine 8 3 2 (by decide) (by decide)]).Completes [0, 1, 2]
        (fun _ => .ok [⟨5⟩, ⟨8⟩]) ∧
      (roundsNet (.ofCodec (ShamirSS.codec Mersenne61.codec)) (.ofCodec Mersenne61.codec) 1
        [onLine 5 2 1 (by decide) (by decide), onLine 8 3 2 (by decide) (by decide)]).Completes [0, 1, 2]
          (fun _ => .ok [⟨5⟩, ⟨8⟩]) :=
  batched_agrees (by decide) (by decide) ⟨[1, 2, 3].map FromU64.fromU64, rfl, by decide +kernel⟩ _

/-- The other party sends its share to the king, party 0, which cannot open the sharing. -/
def collidingSchedule : List Act :=
  [.goes mersenneModulus, .goes mersenneModulus, .goes 0, .hears 0 mersenneModulus, .goes 0]

/-- **Parties whose points collide** open nothing. -/
theorem open_colliding : [0, mersenneModulus].Nodup ∧
    ¬ ∃ secrets, (batchedNet (.ofCodec (ShamirSS.codec Mersenne61.codec)) (.ofCodec Mersenne61.codec) 0
      [five [0, mersenneModulus] 0 (by decide) PassiveTriple.encodeParty_colliding]).Completes
        [0, mersenneModulus] (fun _ => .ok secrets) := by
  refine ⟨by decide, fun ⟨secrets, h⟩ => ?_⟩
  have hrun : ((batchedNet (.ofCodec (ShamirSS.codec Mersenne61.codec)) (.ofCodec Mersenne61.codec) 0
      [five [0, mersenneModulus] 0 (by decide) PassiveTriple.encodeParty_colliding]).run [0, mersenneModulus]
      collidingSchedule).map (fun t => (t.progs 0).result?.map Except.toOption) = some (some none) := by
    decide +kernel
  exact h.not_error List.mem_cons_self hrun

end PassiveOpenToKing

end SclRs
