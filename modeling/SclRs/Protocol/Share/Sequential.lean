import SclRs.Protocol.Share.Open

/-!
# Openings in a row

The parties open a list of sharings, one after the other. Each link then carries the shares of its sender
in the order of the openings (`openScript`), and the code keeps to it as long as a party hears a peer only
when it has heard no other peer less often (`inOrder`): the peers heard so far in one opening are then
those that have been heard once more than the rest (`hearsEach_inOrder`). A peer that is heard out of
order has its share for a later opening taken into an earlier one.
-/

namespace SclRs

section
variable {S V α : Type}

/-- A protocol, once for each share. -/
def openEach (run : S → Proto V α) : List S → Proto V (List α)
  | [] => pure []
  | share :: shares => do
    let output ← run share
    let outputs ← openEach run shares
    return output :: outputs

variable {Threshold : Type} [LinearShare S V Threshold] [Abbreviate S] (codec : Postcard S)
  (checks : Bool) (parties : List PartyId) (me : PartyId)

def openAll (shares : List S) : Proto V (List V) :=
  openEach (fun share => (⟨share⟩ : PassiveOpenShr S).execute codec checks parties me) shares

def openAllToParty (receiver : PartyId) (shares : List S) : Proto V (List (Option V)) :=
  openEach (fun share => (⟨receiver, share⟩ : PassiveOpenToParty S).execute codec checks parties me)
    shares

end

/-- A peer is heard when no peer has been heard less often. -/
def inOrder (parties : List PartyId) : Hearing := fun me received sender =>
  ∀ q ∈ peers parties me, received sender ≤ received q

/-- On the links that carry anything, the shares of the sender in the order of the openings, the last
`unread` of which nobody takes. -/
def openScript {S : Type} [Abbreviate S] (codec : Postcard S) (carries : PartyId → List PartyId)
    (sharings : List (PartyId → S)) (unread : Nat) : Script where
  packets link := if link.recipient ∈ carries link.sender then
    sharings.map fun shares => Packet.labeled codec (shares link.sender) else []
  time _ i := i
  unread link := if link.recipient ∈ carries link.sender then unread else 0

/-- After `rounds` rounds of sending to `ps` and receiving from `qs`. -/
def Progress.rounds (ps qs : List PartyId) (rounds : Nat) : Progress :=
  ⟨fun p => rounds * ps.count p, fun p => rounds * qs.count p, rounds⟩

theorem Progress.rounds_zero (ps qs : List PartyId) : rounds ps qs 0 = start := by
  simp [rounds, start]

theorem Progress.rounds_succ (ps qs : List PartyId) (n : Nat) :
    ((rounds ps qs n).sends ps).receives qs (n + 1) = rounds ps qs (n + 1) := by
  simp [rounds, sends, receives, Nat.succ_mul]

theorem mul_count_eq {l : List PartyId} (hnodup : l.Nodup) (n : Nat) (q : PartyId) :
    n * l.count q = if q ∈ l then n else 0 := by
  split_ifs with h
  · rw [List.count_eq_one_of_mem hnodup h, Nat.mul_one]
  · rw [List.count_eq_zero_of_not_mem h, Nat.mul_zero]

theorem Progress.rounds_sent {ps : List PartyId} (qs : List PartyId) (hnodup : ps.Nodup) (n : Nat)
    (q : PartyId) : (rounds ps qs n).sent q = if q ∈ ps then n else 0 := mul_count_eq hnodup n q

theorem Progress.rounds_received (ps : List PartyId) {qs : List PartyId} (hnodup : qs.Nodup) (n : Nat)
    (q : PartyId) : (rounds ps qs n).received q = if q ∈ qs then n else 0 := mul_count_eq hnodup n q

/-- Heard in order, peers of which each has been heard as often are heard each once. -/
theorem hearsEach_inOrder {script : Script} {parties : List PartyId} {me : PartyId} {σ : Progress}
    {packet : PartyId → Packet} {i time : Nat} (hself : script.packets ⟨me, me⟩ = [])
    (hreceived : ∀ q ∈ peers parties me, σ.received q = i)
    (hpackets : ∀ q ∈ peers parties me, (script.packets ⟨q, me⟩)[i]? = some (packet q) ∧
      script.time ⟨q, me⟩ i < time) :
    HearsEach script parties (inOrder parties) me σ packet time where
  packets q hq := by
    rw [hreceived q hq]
    exact hpackets q hq
  heard {heard q} _ hsub hq hqheard := by
    have hcount : ∀ p ∈ peers parties me, (σ.receives heard time).received p = i + heard.count p :=
      fun p hp => congrArg (· + _) (hreceived p hp)
    have hqcount := hcount q hq
    rw [List.count_eq_zero_of_not_mem hqheard, Nat.add_zero] at hqcount
    refine ⟨⟨q, hq, hqheard, fun p hp => ?_⟩, fun p hp hmay hlt => ⟨?_, fun hmem => ?_⟩⟩
    · rw [hqcount, hcount p hp]
      exact Nat.le_add_right _ _
    · refine mem_peers.mpr ⟨hp, ?_⟩
      rintro rfl
      rw [hself] at hlt
      exact absurd hlt (Nat.not_lt_zero _)
    · have hle := hmay q hq
      rw [hqcount, hcount p (hsub hmem)] at hle
      have hpos := List.count_pos_iff.mpr hmem
      omega

section
variable {S V α ι : Type} {script : Script} {parties : List PartyId} {may : Hearing} {me : PartyId}

theorem openEach_leads {run : S → Proto V α} {σ : Nat → Progress} {l : List ι} {share : ι → S}
    {output : ι → α} {j : Nat}
    (h : ∀ i x, l[i]? = some x →
      (run (share x)).Leads script parties may me (σ (j + i)) (· = output x) (σ (j + i + 1))) :
    (openEach run (l.map share)).Leads script parties may me (σ j) (· = l.map output)
      (σ (j + l.length)) := by
  induction l generalizing j with
  | nil => exact Proto.leads_pure rfl
  | cons x l ih =>
    refine (h 0 x rfl).bind ?_
    rintro _ rfl
    have hrest : ∀ i y, l[i]? = some y → (run (share y)).Leads script parties may me
        (σ (j + 1 + i)) (· = output y) (σ (j + 1 + i + 1)) := by
      intro i y hy
      have hnext := h (i + 1) y hy
      rwa [← Nat.add_assoc, Nat.add_right_comm j i 1] at hnext
    have hlen : j + (x :: l).length = j + 1 + l.length := by
      rw [List.length_cons]
      omega
    rw [hlen]
    refine (ih hrest).bind ?_
    rintro _ rfl
    exact Proto.leads_pure rfl

end

/-! ### One party -/

section
variable {S V Threshold : Type} [LinearShare S V Threshold] [Abbreviate S] {codec : Postcard S}
  {checks : Bool} {parties : List PartyId} {me : PartyId} {unread : Nat}

/-- Every party sends to its peers. -/
def toPeers (parties : List PartyId) (p : PartyId) : List PartyId :=
  if p ∈ parties then peers parties p else []

/-- The peers of the receiver send to it. -/
def toReceiver (parties : List PartyId) (receiver p : PartyId) : List PartyId :=
  if p ∈ peers parties receiver then [receiver] else []

/-- Any order of the shares of all parties gives the secret. -/
def Reconstructs (checks : Bool) (parties : List PartyId) (shares : PartyId → S) (secret : V) : Prop :=
  ∀ senders : List PartyId, senders.Perm parties →
    LinearShare.secretFromShares checks (senders.map shares) senders = some (.ok secret)

/-- No order of the shares of all parties gives a secret. -/
def NeverReconstructs (checks : Bool) (parties : List PartyId) (shares : PartyId → S) : Prop :=
  ∀ senders : List PartyId, senders.Perm parties →
    ∃ e, LinearShare.secretFromShares checks (senders.map shares) senders = some (.error e)

omit [LinearShare S V Threshold] in
theorem openScript_packets (carries : PartyId → List PartyId) (sharings : List (PartyId → S))
    (p q : PartyId) : (openScript codec carries sharings unread).packets ⟨p, q⟩ =
      if q ∈ carries p then sharings.map fun shares => Packet.labeled codec (shares p) else [] := rfl

omit [LinearShare S V Threshold] in
theorem openScript_getElem {carries : PartyId → List PartyId} {sharings : List (PartyId → S)}
    {p q : PartyId} {i : Nat} {shares : PartyId → S} (hq : q ∈ carries p)
    (hi : sharings[i]? = some shares) :
    ((openScript codec carries sharings unread).packets ⟨p, q⟩)[i]? = some (Packet.labeled codec (shares p)) := by
  rw [openScript_packets, if_pos hq, List.getElem?_map, hi]
  rfl

omit [LinearShare S V Threshold] in
theorem openScript_length (carries : PartyId → List PartyId) (sharings : List (PartyId → S))
    (p q : PartyId) : ((openScript codec carries sharings unread).packets ⟨p, q⟩).length =
      if q ∈ carries p then sharings.length else 0 := by
  rw [openScript_packets]
  split_ifs
  · exact List.length_map _
  · rfl

omit [LinearShare S V Threshold] in
theorem openScript_unread (carries : PartyId → List PartyId) (sharings : List (PartyId → S))
    (p q : PartyId) : (openScript codec carries sharings unread).unread ⟨p, q⟩ =
      if q ∈ carries p then unread else 0 := rfl

theorem mem_toPeers_comm {p q : PartyId} : p ∈ toPeers parties q ↔ q ∈ toPeers parties p := by
  unfold toPeers
  split_ifs with hq hp hp <;> simp [mem_peers, *, eq_comm]

theorem hearsEach_openScript {carries : PartyId → List PartyId} {sharings : List (PartyId → S)}
    {shares : PartyId → S} {ps : List PartyId} {i : Nat} (hnodup : parties.Nodup)
    (hself : me ∉ carries me) (hcarries : ∀ q ∈ peers parties me, me ∈ carries q)
    (hi : sharings[i]? = some shares) :
    HearsEach (openScript codec carries sharings unread) parties (inOrder parties) me
      (.rounds ps (peers parties me) i) (fun q => Packet.labeled codec (shares q)) (i + 1) := by
  refine hearsEach_inOrder (i := i) (if_neg hself) (fun q hq => ?_)
    fun q hq => ⟨openScript_getElem (hcarries q hq) hi, Nat.lt_succ_self i⟩
  rw [Progress.rounds_received ps (nodup_peers hnodup me), if_pos hq]

theorem round_script {sharings : List (PartyId → S)} {shares : PartyId → S} {i : Nat}
    (hnodup : parties.Nodup) (hme : me ∈ parties) (hi : sharings[i]? = some shares) :
    HearsEach (openScript codec (toPeers parties) sharings 0) parties (inOrder parties) me
        (.rounds (peers parties me) (peers parties me) i) (fun q => Packet.labeled codec (shares q))
        (i + 1) ∧
      ∀ q ∈ peers parties me,
        ((openScript codec (toPeers parties) sharings 0).packets ⟨me, q⟩)[
            (Progress.rounds (peers parties me) (peers parties me) i).sent q]? =
          some (Packet.labeled codec (shares me)) ∧
        i ≤ (Progress.rounds (peers parties me) (peers parties me) i).sent q := by
  have hcarries : toPeers parties me = peers parties me := if_pos hme
  refine ⟨hearsEach_openScript hnodup ?_ (fun q hq => ?_) hi, fun q hq => ?_⟩
  · rw [hcarries, mem_peers]
    exact fun h => h.2 rfl
  · rw [mem_toPeers_comm, hcarries]
    exact hq
  · rw [Progress.rounds_sent _ (nodup_peers hnodup me), if_pos hq]
    exact ⟨openScript_getElem (hcarries ▸ hq) hi, le_rfl⟩

theorem round_done {sharings : List (PartyId → S)} {n : Nat} (hnodup : parties.Nodup) (hme : me ∈ parties)
    (hn : n = sharings.length) (q : PartyId) :
    (Progress.rounds (peers parties me) (peers parties me) n).sent q =
        ((openScript codec (toPeers parties) sharings 0).packets ⟨me, q⟩).length ∧
      (Progress.rounds (peers parties me) (peers parties me) n).received q +
          (openScript codec (toPeers parties) sharings 0).unread ⟨q, me⟩ =
        ((openScript codec (toPeers parties) sharings 0).packets ⟨q, me⟩).length := by
  have hcarries : toPeers parties me = peers parties me := if_pos hme
  have hpeers := nodup_peers hnodup me
  rw [Progress.rounds_sent _ hpeers, Progress.rounds_received _ hpeers, openScript_length,
    openScript_length, openScript_unread, ite_self, Nat.add_zero, ← hcarries, hn]
  simp only [mem_toPeers_comm, and_self]

/-- **Every party opens all sharings**, each after the one before. -/
theorem openAll_follows {l : List ((PartyId → S) × V)} (hnodup : parties.Nodup) (hme : me ∈ parties)
    (hsecret : ∀ x ∈ l, Reconstructs checks parties x.1 x.2) :
    (openAll codec checks parties me (l.map fun x => x.1 me)).run.Follows
      (openScript codec (toPeers parties) (l.map Prod.fst) 0) parties (inOrder parties) me
      (· = .ok (l.map Prod.snd)) (fun _ => 0) (fun _ => 0) 0 := by
  have hleads : (openAll codec checks parties me (l.map fun x => x.1 me)).Leads
      (openScript codec (toPeers parties) (l.map Prod.fst) 0) parties (inOrder parties) me
      (.rounds (peers parties me) (peers parties me) 0) (· = l.map Prod.snd)
      (.rounds (peers parties me) (peers parties me) (0 + l.length)) := by
    refine openEach_leads fun i x hi => ?_
    have hi' : (l.map Prod.fst)[i]? = some x.1 := by
      rw [List.getElem?_map, hi]
      rfl
    rw [Nat.zero_add, ← Progress.rounds_succ]
    exact PassiveOpenShr.execute_leads (round_script hnodup hme hi').1 hnodup hme (Nat.le_succ i)
      (round_script hnodup hme hi').2 (hsecret x (List.mem_of_getElem? hi))
  rw [Progress.rounds_zero, Nat.zero_add] at hleads
  have hlen : l.length = (l.map Prod.fst).length := (List.length_map _).symm
  exact hleads.follows (fun q => (round_done hnodup hme hlen q).1)
    fun q => (round_done hnodup hme hlen q).2

theorem openAll_fails_follows {shares : PartyId → S} {rest : List S} (hnodup : parties.Nodup)
    (hme : me ∈ parties) (herror : NeverReconstructs checks parties shares) :
    (openAll codec checks parties me (shares me :: rest)).run.Follows
      (openScript codec (toPeers parties) [shares] 0) parties (inOrder parties) me
      (fun r => ∃ e, r = .error e) (fun _ => 0) (fun _ => 0) 0 := by
  have hzero : [shares][0]? = some shares := rfl
  have hfails : (openAll codec checks parties me (shares me :: rest)).Fails
      (openScript codec (toPeers parties) [shares] 0) parties (inOrder parties) me
      (.rounds (peers parties me) (peers parties me) 0)
      (((Progress.rounds (peers parties me) (peers parties me) 0).sends (peers parties me)).receives
        (peers parties me) (0 + 1)) :=
    (PassiveOpenShr.execute_fails (round_script hnodup hme hzero).1 hnodup hme (Nat.le_succ 0)
      (round_script hnodup hme hzero).2 herror).bind
  rw [Progress.rounds_succ, Progress.rounds_zero] at hfails
  have hlen : 0 + 1 = [shares].length := rfl
  exact Prog.Leads.follows hfails (fun q => (round_done hnodup hme hlen q).1)
    fun q => (round_done hnodup hme hlen q).2

theorem receiver_script {sharings : List (PartyId → S)} {shares : PartyId → S} {i : Nat}
    (hnodup : parties.Nodup) (hi : sharings[i]? = some shares) :
    HearsEach (openScript codec (toReceiver parties me) sharings unread) parties (inOrder parties) me
      (.rounds [] (peers parties me) i) (fun q => Packet.labeled codec (shares q)) (i + 1) := by
  refine hearsEach_openScript hnodup ?_ (fun q hq => ?_) hi
  · rw [toReceiver, if_neg fun h => (mem_peers.mp h).2 rfl]
    exact List.not_mem_nil
  · rw [toReceiver, if_pos hq]
    exact List.mem_singleton_self me

theorem mem_toReceiver {receiver p q : PartyId} :
    q ∈ toReceiver parties receiver p ↔ p ∈ peers parties receiver ∧ q = receiver := by
  rw [toReceiver]
  split_ifs with h <;> simp [h]

theorem receiver_done {sharings : List (PartyId → S)} {n : Nat} (hnodup : parties.Nodup)
    (hn : n + unread = sharings.length) (q : PartyId) :
    (Progress.rounds [] (peers parties me) n).sent q =
        ((openScript codec (toReceiver parties me) sharings unread).packets ⟨me, q⟩).length ∧
      (Progress.rounds [] (peers parties me) n).received q +
          (openScript codec (toReceiver parties me) sharings unread).unread ⟨q, me⟩ =
        ((openScript codec (toReceiver parties me) sharings unread).packets ⟨q, me⟩).length := by
  rw [Progress.rounds_sent _ .nil, Progress.rounds_received _ (nodup_peers hnodup me), openScript_length,
    openScript_length, openScript_unread, ← hn]
  simp only [mem_toReceiver, mem_peers, and_true]
  refine ⟨by simp, ?_⟩
  split_ifs
  exacts [rfl, rfl]

theorem openAllToParty_receiver_follows {l : List ((PartyId → S) × V)} (hnodup : parties.Nodup)
    (hme : me ∈ parties) (hsecret : ∀ x ∈ l, Reconstructs checks parties x.1 x.2) :
    (openAllToParty codec checks parties me me (l.map fun x => x.1 me)).run.Follows
      (openScript codec (toReceiver parties me) (l.map Prod.fst) 0) parties (inOrder parties) me
      (· = .ok (l.map fun x => some x.2)) (fun _ => 0) (fun _ => 0) 0 := by
  have hleads : (openAllToParty codec checks parties me me (l.map fun x => x.1 me)).Leads
      (openScript codec (toReceiver parties me) (l.map Prod.fst) 0) parties (inOrder parties) me
      (.rounds [] (peers parties me) 0) (· = l.map fun x => some x.2)
      (.rounds [] (peers parties me) (0 + l.length)) := by
    refine openEach_leads fun i x hi => ?_
    rw [Nat.zero_add, ← Progress.rounds_succ, Progress.sends_nil]
    exact PassiveOpenToParty.receiver_leads
      (receiver_script hnodup (by rw [List.getElem?_map, hi]; rfl)) hnodup hme (Nat.le_succ i)
      (hsecret x (List.mem_of_getElem? hi))
  rw [Progress.rounds_zero, Nat.zero_add] at hleads
  have hlen : l.length + 0 = (l.map Prod.fst).length := (List.length_map _).symm
  exact hleads.follows (fun q => (receiver_done hnodup hlen q).1)
    fun q => (receiver_done hnodup hlen q).2

theorem openAllToParty_fails_follows (codec : Postcard S) {shares : PartyId → S}
    (rest : List (PartyId → S)) (hnodup : parties.Nodup) (hme : me ∈ parties)
    (herror : NeverReconstructs checks parties shares) :
    (openAllToParty codec checks parties me me ((shares :: rest).map fun x => x me)).run.Follows
      (openScript codec (toReceiver parties me) (shares :: rest) rest.length) parties (inOrder parties)
      me (fun r => ∃ e, r = .error e) (fun _ => 0) (fun _ => 0) 0 := by
  have hfails : (openAllToParty codec checks parties me me ((shares :: rest).map fun x => x me)).Fails
      (openScript codec (toReceiver parties me) (shares :: rest) rest.length) parties (inOrder parties)
      me (.rounds [] (peers parties me) 0)
      ((Progress.rounds [] (peers parties me) 0).receives (peers parties me) (0 + 1)) :=
    (PassiveOpenToParty.receiver_fails (receiver_script hnodup rfl) hnodup hme
      (Nat.le_succ 0) herror).bind
  rw [← (Progress.rounds [] (peers parties me) 0).sends_nil, Progress.rounds_succ,
    Progress.rounds_zero] at hfails
  have hlen : 0 + 1 + rest.length = (shares :: rest).length := by
    rw [List.length_cons]
    omega
  exact Prog.Leads.follows hfails (fun q => (receiver_done hnodup hlen q).1)
    fun q => (receiver_done hnodup hlen q).2

theorem openAllToParty_sender_follows (codec : Postcard S) (checks : Bool) {receiver : PartyId}
    (sharings : List (PartyId → S)) (unread : Nat) (hme : me ∈ peers parties receiver) :
    (openAllToParty codec checks parties me receiver (sharings.map fun x => x me)).run.Follows
      (openScript codec (toReceiver parties receiver) sharings unread) parties (inOrder parties) me
      (· = .ok (sharings.map fun _ => none)) (fun _ => 0) (fun _ => 0) 0 := by
  have hcarries : toReceiver parties receiver me = [receiver] := if_pos hme
  have hleads : (openAllToParty codec checks parties me receiver (sharings.map fun x => x me)).Leads
      (openScript codec (toReceiver parties receiver) sharings unread) parties (inOrder parties) me
      (.rounds [receiver] [] 0) (· = sharings.map fun _ => none)
      (.rounds [receiver] [] (0 + sharings.length)) := by
    refine openEach_leads fun i x hi => ?_
    have hsent : (Progress.rounds [receiver] [] i).sent receiver = i := by
      rw [Progress.rounds_sent _ (List.nodup_singleton _), if_pos (List.mem_singleton_self _)]
    rw [Nat.zero_add, ← Progress.rounds_succ]
    refine Prog.Leads.wait (PassiveOpenToParty.sender_leads (mem_peers.mp hme).2.symm ?_) (Nat.le_succ i)
    rw [hsent]
    exact ⟨openScript_getElem (hcarries ▸ List.mem_singleton_self _) hi, le_rfl⟩
  rw [Progress.rounds_zero, Nat.zero_add] at hleads
  refine hleads.follows (fun q => ?_) fun q => ?_
  · rw [Progress.rounds_sent _ (List.nodup_singleton _), openScript_length, hcarries]
  · have hno : me ∉ toReceiver parties receiver q := fun h =>
      (mem_peers.mp hme).2 (mem_toReceiver.mp h).2
    rw [Progress.rounds_received _ .nil, openScript_length, openScript_unread, if_neg hno, if_neg hno,
      if_neg List.not_mem_nil]

end

end SclRs
