import Mathlib.Logic.Relation
import SclRs.Net.TcpNetwork

/-!
# One packet from each party

`TcpNetwork::recv` asks as many parties as there are streams left, from party 0 on. It returns the next
packets of all parties unless the streams left are those of parties `0` to `m - 1` for some `m` below the
number of the parties: these answer without the others (`recv_accounts_iff`). So it is after a poll of the
`StreamMap` has dropped the streams of the parties with the highest ids, and after `close`.
-/

namespace SclRs.TcpNetwork

open Lib.Insertions

section
variable (net : TcpBackend) (party : PartyId)

def next : Option (Except NetworkError Packet) := (net.stream party).bind (·.unread.head?)

/-- The party's stream has ended with nothing left to read, and may be dropped. -/
def Ended : Prop := net.stream party = none ∨ net.stream party = some ⟨[], true⟩

/-- Nothing has arrived from the party. -/
def Waits : Prop := net.stream party = some ⟨[], false⟩

/-- No packet is read next from the party. -/
def Fails : Prop := net.Ended party ∨ ∃ e, net.next party = some (.error e)

/-- No packet will be read next from the party while nothing is sent. -/
def Withholds : Prop := net.Fails party ∨ net.Waits party ∧ party = net.localPartyId

end

/-- `recv` returns the next packet of each of `n` parties, and an error where a stream has ended with
nothing left; it does so once it is polled often enough, unless it waits for a party before. -/
structure Accounts (n : Nat) (net : TcpBackend) : Prop where
  packets : ∀ events packets, (net.recv events).1 = some (.ok packets) → packets.length = n ∧
    ∀ i (hi : i < packets.length), (net.arriveAll (events.filterMap id)).next i = some (.ok packets[i])
  error : ∀ i < n, net.Ended i → ∀ events,
    (∀ r, (net.recv events).1 = some r → ∃ e, r = .error e) ∧
    ((∀ j < i, ¬ net.Waits j) → n ≤ events.countP Option.isNone → ∃ e, (net.recv events).1 = some (.error e))

/-- The streams that are left are not just those of parties `0` to `m - 1` for some `m < n`, unless one of
these parties withholds its packet. -/
def Notices (n : Nat) (net : TcpBackend) : Prop :=
  ∀ m < n, (net.receivers.map Prod.fst).Perm (List.range m) → ∃ j < m, net.Withholds j

/-- The operations on the network, and what its peers do. -/
inductive Step (codec : Postcard (List (List UInt8))) (net : TcpBackend) : TcpBackend → Prop
  | arrive (arrival) : Step codec net (net.arrive arrival)
  | send (sockets packet) : Step codec net (net.send codec sockets packet).2
  | sendTo (sockets party packet) : Step codec net (net.sendTo codec sockets party packet).2
  | sendMany (sockets messages) : Step codec net (net.sendMany codec sockets messages).2
  | recv (events) : Step codec net (net.recv events).2
  | recvFrom (party) : Step codec net (net.recvFrom party).2
  | recvFromWithTimeout (elapsed party) : Step codec net (net.recvFromWithTimeout elapsed party).2
  | recvAny (order) : order.Perm (net.receivers.map Prod.fst) → Step codec net (net.recvAny order).2
  | recvAnyWithTimeout (elapsed order) : order.Perm (net.receivers.map Prod.fst) →
      Step codec net (net.recvAnyWithTimeout elapsed order).2
  | close (shutdown) : Step codec net (net.close shutdown).2

/-! ### What operations keep -/

/-- The parties of `net'` are those of `net`, and it has no other streams. -/
structure Keeps (net net' : TcpBackend) : Prop where
  streams : (net'.receivers.map Prod.fst).Sublist (net.receivers.map Prod.fst)
  partyIds : net'.partyIds = net.partyIds
  localPartyId : net'.localPartyId = net.localPartyId

variable {codec : Postcard (List (List UInt8))} {sockets : PartyId → Except NetworkError Unit}
  {net net' : TcpBackend} {party : PartyId}

theorem Keeps.refl (net : TcpBackend) : Keeps net net := ⟨List.Sublist.refl _, rfl, rfl⟩

theorem Keeps.trans {net'' : TcpBackend} (h : Keeps net net') (h' : Keeps net' net'') : Keeps net net'' :=
  ⟨h'.streams.trans h.streams, h'.partyIds.trans h.partyIds, h'.localPartyId.trans h.localPartyId⟩

theorem keeps_setStream (net : TcpBackend) (party : PartyId) (stream : PacketStream) :
    Keeps net (net.setStream party stream) := by
  refine ⟨?_, rfl, rfl⟩
  rw [setStream, keys_modify]

theorem keeps_dropStream (net : TcpBackend) (party : PartyId) : Keeps net (net.dropStream party) :=
  ⟨keys_remove_sublist net.receivers party, rfl, rfl⟩

theorem keeps_writers (net : TcpBackend) (party : PartyId) (writer : PeerWriter) :
    Keeps net { net with writers := modify net.writers party fun _ => writer } :=
  ⟨List.Sublist.refl _, keys_modify net.writers party fun _ => writer, rfl⟩

theorem keeps_arrive (net : TcpBackend) (arrival : Arrival) : Keeps net (net.arrive arrival) := by
  rw [arrive]
  split
  · exact .refl net
  · refine ⟨?_, rfl, rfl⟩
    rw [keys_modify]

theorem keeps_sendTo (net : TcpBackend) (party : PartyId) (packet : Packet) :
    Keeps net (net.sendTo codec sockets party packet).2 := by
  rw [sendTo]
  split
  · exact .refl net
  · rename_i writer hwriter
    have hwritten := keeps_writers net party (writer.send codec packet).1
    cases writer with
    | loopBack channel =>
      simp only [write]
      split
      · exact .refl net
      · exact hwritten.trans (keeps_setStream ..)
    | socket bytes =>
      simp only [write]
      split
      · exact .refl net
      · exact hwritten

theorem keeps_sendEach (net : TcpBackend) (messages : List (PartyId × Packet)) (bytesSent : Nat) :
    Keeps net (net.sendEach codec sockets messages bytesSent).2 := by
  induction messages generalizing net bytesSent with
  | nil => exact .refl net
  | cons message messages ih =>
    obtain ⟨party, packet⟩ := message
    have hfirst := @keeps_sendTo codec sockets net party packet
    rw [sendEach]
    split
    · rename_i e net' heq
      rwa [heq] at hfirst
    · rename_i size net' heq
      rw [heq] at hfirst
      exact hfirst.trans (ih net' size)

theorem keeps_recvFrom (net : TcpBackend) (party : PartyId) : Keeps net (net.recvFrom party).2 := by
  rw [recvFrom]
  split
  · exact .refl net
  · split
    · exact keeps_setStream ..
    · exact .refl net
    · exact .refl net

theorem keeps_pollReceivers (net : TcpBackend) (order : List PartyId) :
    Keeps net (net.pollReceivers order).2 := by
  induction order generalizing net with
  | nil => exact .refl net
  | cons party order ih =>
    rw [pollReceivers]
    split
    · exact ih net
    · split
      · exact keeps_setStream ..
      · exact (keeps_dropStream net party).trans (ih _)
      · exact ih net

theorem keeps_recvAny (net : TcpBackend) (order : List PartyId) : Keeps net (net.recvAny order).2 := by
  have hpoll := keeps_pollReceivers net order
  rw [recvAny]
  split <;> rename_i heq <;> rwa [heq] at hpoll

theorem keeps_recvLoop (net : TcpBackend) (left : List PartyId) (packets : List Packet)
    (events : List (Option Arrival)) : Keeps net (net.recvLoop left packets events).2 := by
  induction events generalizing net left packets with
  | nil => cases left <;> exact .refl net
  | cons event events ih =>
    cases left with
    | nil => exact .refl net
    | cons i left =>
      cases event with
      | some arrival => exact (keeps_arrive net arrival).trans (ih ..)
      | none =>
        have hfirst := keeps_recvFrom net i
        rw [recvLoop]
        split
        all_goals
          rename_i heq
          rw [heq] at hfirst
        · exact hfirst.trans (ih ..)
        · exact hfirst
        · exact hfirst.trans (ih ..)

theorem Step.keeps (h : Step codec net net') : Keeps net net' := by
  cases h with
  | arrive arrival => exact keeps_arrive net arrival
  | send sockets packet => exact keeps_sendEach ..
  | sendTo sockets party packet => exact keeps_sendTo ..
  | sendMany sockets messages =>
    rw [TcpNetwork.sendMany]
    split
    · exact .refl net
    · have heach := @keeps_sendEach codec sockets net
        (net.partyIds.filterMap fun party => messages.find? (·.1 = party)) 0
      split <;> rename_i heq <;> rwa [heq] at heach
  | recv events => exact keeps_recvLoop ..
  | recvFrom party => exact keeps_recvFrom ..
  | recvFromWithTimeout elapsed party =>
    have hfirst := keeps_recvFrom net party
    rw [TcpNetwork.recvFromWithTimeout]
    split
    · rename_i heq
      rwa [heq] at hfirst
    · exact hfirst
  | recvAny order => exact keeps_recvAny ..
  | recvAnyWithTimeout elapsed order =>
    have hfirst := keeps_recvAny net order
    rw [TcpNetwork.recvAnyWithTimeout]
    split
    · rename_i heq
      rwa [heq] at hfirst
    · exact hfirst
  | close shutdown =>
    cases shutdown with
    | error e => exact .refl net
    | ok => exact ⟨List.nil_sublist _, rfl, rfl⟩

theorem keeps_of_steps (h : Relation.ReflTransGen (Step codec) net net') : Keeps net net' := by
  induction h with
  | refl => exact .refl net
  | tail _ hstep ih => exact ih.trans hstep.keeps

/-! ### Streams while packets arrive -/

theorem stream_setStream (net : TcpBackend) (party p : PartyId) (stream : PacketStream) :
    (net.setStream party stream).stream p =
      if p = party then (net.stream p).map fun _ => stream else net.stream p :=
  lookup_modify net.receivers party p fun _ => stream

theorem stream_setStream_of_ne {p : PartyId} (h : p ≠ party) (stream : PacketStream) :
    (net.setStream party stream).stream p = net.stream p := by rw [stream_setStream, if_neg h]

theorem stream_arrive (net : TcpBackend) (arrival : Arrival) (p : PartyId) :
    (net.arrive arrival).stream p =
      if arrival.party ≠ net.localPartyId ∧ p = arrival.party then (net.stream p).map (·.arrive arrival)
      else net.stream p := by
  rw [arrive]
  by_cases hlocal : arrival.party = net.localPartyId
  · simp [hlocal]
  · simpa [hlocal, stream] using lookup_modify net.receivers arrival.party p (·.arrive arrival)

theorem stream_arrive_of_ne {arrival : Arrival} {p : PartyId} (h : p ≠ arrival.party) :
    (net.arrive arrival).stream p = net.stream p := by
  rw [stream_arrive, if_neg fun hand => h hand.2]

theorem next_arrive_packet (h : net.Waits party) (hlocal : party ≠ net.localPartyId)
    (packet : Except NetworkError Packet) : (net.arrive (.packet party packet)).next party = some packet := by
  rw [next, stream_arrive, if_pos ⟨hlocal, rfl⟩, h]
  rfl

theorem localPartyId_arrive (net : TcpBackend) (arrival : Arrival) :
    (net.arrive arrival).localPartyId = net.localPartyId := by
  rw [arrive]
  split <;> rfl

theorem stream_arriveAll_congr {arrivals : List Arrival} (h : net.stream party = net'.stream party)
    (hlocal : net.localPartyId = net'.localPartyId) :
    (net.arriveAll arrivals).stream party = (net'.arriveAll arrivals).stream party := by
  induction arrivals generalizing net net' with
  | nil => exact h
  | cons arrival arrivals ih =>
    refine ih ?_ ?_
    · rw [stream_arrive, stream_arrive, h, hlocal]
    · rw [localPartyId_arrive, localPartyId_arrive, hlocal]

theorem next_arrive {packet : Except NetworkError Packet} (h : net.next party = some packet)
    (arrival : Arrival) : (net.arrive arrival).next party = some packet := by
  obtain ⟨s, hs, hhead⟩ := Option.bind_eq_some_iff.mp h
  obtain ⟨rest, hrest⟩ := List.head?_eq_some_iff.mp hhead
  have harrive : (s.arrive arrival).unread.head? = some packet := by
    cases arrival with
    | packet party item =>
      rw [PacketStream.arrive]
      split
      · exact hhead
      · simp [hrest]
    | closed party => exact hhead
  rw [next, stream_arrive]
  split
  · rw [hs, Option.map_some, Option.bind_some, harrive]
  · exact h

theorem Ended.arrive (h : net.Ended party) (arrival : Arrival) : (net.arrive arrival).Ended party := by
  have hend : (⟨[], true⟩ : PacketStream).arrive arrival = ⟨[], true⟩ := by
    cases arrival with
    | packet | closed => rfl
  rw [Ended, stream_arrive]
  split
  · obtain h | h := h
    · exact .inl (by rw [h, Option.map_none])
    · exact .inr (by rw [h, Option.map_some, hend])
  · exact h

theorem Fails.arrive (h : net.Fails party) (arrival : Arrival) : (net.arrive arrival).Fails party := by
  obtain h | ⟨e, he⟩ := h
  · exact .inl (h.arrive arrival)
  · exact .inr ⟨e, next_arrive he arrival⟩

theorem Withholds.arrive (h : net.Withholds party) (arrival : Arrival) : (net.arrive arrival).Withholds party := by
  obtain h | ⟨hwaits, hlocal⟩ := h
  · exact .inl (h.arrive arrival)
  · refine .inr ⟨?_, hlocal.trans (localPartyId_arrive net arrival).symm⟩
    have hne : ¬ (arrival.party ≠ net.localPartyId ∧ party = arrival.party) :=
      fun ⟨hne, heq⟩ => hne (heq.symm.trans hlocal)
    rw [Waits, stream_arrive, if_neg hne]
    exact hwaits

theorem not_waits_arrive (h : ¬ net.Waits party) (arrival : Arrival) : ¬ (net.arrive arrival).Waits party := by
  rw [Waits, stream_arrive]
  split
  · intro hwaits
    obtain ⟨s, hs, harrive⟩ := Option.map_eq_some_iff.mp hwaits
    refine h (hs.trans (congrArg some ?_))
    obtain ⟨unread, ended⟩ := s
    cases arrival with
    | packet p item =>
      cases ended with
      | true => exact harrive
      | false => simp [PacketStream.arrive] at harrive
    | closed p => simp [PacketStream.arrive] at harrive
  · exact h

theorem arriveAll_induction {P : TcpBackend → Prop} (hstep : ∀ net arrival, P net → P (net.arrive arrival))
    (h : P net) (arrivals : List Arrival) : P (net.arriveAll arrivals) := by
  induction arrivals generalizing net with
  | nil => exact h
  | cons arrival arrivals ih => exact ih (hstep net arrival h)

theorem next_arriveAll {packet : Except NetworkError Packet} (h : net.next party = some packet)
    (arrivals : List Arrival) : (net.arriveAll arrivals).next party = some packet :=
  arriveAll_induction (P := (next · party = some packet)) (fun _ arrival h => next_arrive h arrival) h arrivals

theorem Withholds.arriveAll (h : net.Withholds party) (arrivals : List Arrival) :
    (net.arriveAll arrivals).Withholds party :=
  arriveAll_induction (P := (Withholds · party)) (fun _ arrival h => h.arrive arrival) h arrivals

theorem Withholds.next_ne (h : net.Withholds party) (packet : Packet) : net.next party ≠ some (.ok packet) := by
  obtain ((h | h) | ⟨e, he⟩) | ⟨h, -⟩ := h
  · simp [next, h]
  · simp [next, h]
  · simp [he]
  · rw [Waits] at h
    simp [next, h]

theorem withholds_congr (h : net.stream party = net'.stream party)
    (hlocal : net.localPartyId = net'.localPartyId) : net.Withholds party ↔ net'.Withholds party := by
  simp only [Withholds, Fails, Ended, Waits, next, h, hlocal]

theorem fails_congr (h : net.stream party = net'.stream party) : net.Fails party ↔ net'.Fails party := by
  simp only [Fails, Ended, next, h]

/-! ### The loop -/

theorem recvFrom_eq (net : TcpBackend) (party : PartyId) :
    (net.Ended party ∧ ∃ e, net.recvFrom party = (some (.error e), net)) ∨
    (net.Waits party ∧ net.recvFrom party = (none, net)) ∨
    ∃ packet stream, net.next party = some packet ∧
      net.recvFrom party = (some packet, net.setStream party stream) := by
  cases hstream : net.stream party with
  | none => exact .inl ⟨.inl hstream, _, by rw [recvFrom, hstream]⟩
  | some s =>
    obtain ⟨unread, ended⟩ := s
    cases unread with
    | cons packet unread =>
      refine .inr (.inr ⟨packet, ⟨unread, ended⟩, ?_, ?_⟩)
      · rw [next, hstream]
        rfl
      · rw [recvFrom, hstream]
        rfl
    | nil =>
      cases ended with
      | true => exact .inl ⟨.inr hstream, _, by rw [recvFrom, hstream]; rfl⟩
      | false => exact .inr (.inl ⟨hstream, by rw [recvFrom, hstream]; rfl⟩)

theorem recvFrom_of_next {packet : Except NetworkError Packet} (h : net.next party = some packet) :
    ∃ stream, net.recvFrom party = (some packet, net.setStream party stream) := by
  obtain ⟨hended | hended, -⟩ | ⟨hwaits, -⟩ | ⟨packet', stream, hnext, hpoll⟩ := recvFrom_eq net party
  · simp [next, hended] at h
  · simp [next, hended] at h
  · rw [Waits] at hwaits
    simp [next, hwaits] at h
  · obtain rfl := Option.some.inj (hnext.symm.trans h)
    exact ⟨stream, hpoll⟩

theorem Fails.recvFrom (h : net.Fails party) : ∃ e net', net.recvFrom party = (some (.error e), net') := by
  obtain (hended | hended) | ⟨e, he⟩ := h
  · exact ⟨_, net, by rw [TcpNetwork.recvFrom, hended]⟩
  · exact ⟨_, net, by rw [TcpNetwork.recvFrom, hended]; rfl⟩
  · obtain ⟨stream, hpoll⟩ := recvFrom_of_next he
    exact ⟨e, _, hpoll⟩

/-- **A loop that succeeds** has read the next packet of each party. -/
theorem recvLoop_ok {left : List PartyId} (hnodup : left.Nodup) {packets received : List Packet}
    {events : List (Option Arrival)} (h : (net.recvLoop left packets events).1 = some (.ok received)) :
    ∃ rest, received = packets ++ rest ∧ List.Forall₂
      (fun i packet => (net.arriveAll (events.filterMap id)).next i = some (.ok packet)) left rest := by
  induction events generalizing net left packets with
  | nil =>
    cases left with
    | nil => exact ⟨[], by simpa [recvLoop, eq_comm] using h, .nil⟩
    | cons => simp [recvLoop] at h
  | cons event events ih =>
    cases left with
    | nil => exact ⟨[], by simpa [recvLoop, eq_comm] using h, .nil⟩
    | cons i left =>
      cases event with
      | some arrival => exact ih hnodup h
      | none =>
        obtain ⟨hi, hleft⟩ := List.nodup_cons.mp hnodup
        rw [recvLoop] at h
        obtain ⟨-, e, hpoll⟩ | ⟨-, hpoll⟩ | ⟨packet, stream, hnext, hpoll⟩ := recvFrom_eq net i
        · simp [hpoll] at h
        · rw [hpoll] at h
          exact ih hnodup h
        · rw [hpoll] at h
          cases packet with
          | error e => simp at h
          | ok packet =>
            obtain ⟨rest, rfl, hrest⟩ := ih hleft h
            have hne : ∀ j ∈ left, j ≠ i := fun j hj heq => hi (heq ▸ hj)
            refine ⟨packet :: rest, by simp, .cons (next_arriveAll hnext _) ?_⟩
            refine ((List.forall₂_and_left left rest).mpr ⟨hne, hrest⟩).imp fun j q ⟨hne, hq⟩ => ?_
            rwa [next, stream_arriveAll_congr (stream_setStream_of_ne hne stream) rfl] at hq

theorem exists_recvLoop_ok {left : List PartyId} (hnodup : left.Nodup)
    (h : ∀ i ∈ left, ¬ net.Withholds i) (packets : List Packet) :
    ∃ events received, (net.recvLoop left packets events).1 = some (.ok received) := by
  induction left generalizing net packets with
  | nil => exact ⟨[], packets, rfl⟩
  | cons i left ih =>
    obtain ⟨hi, hleft⟩ := List.nodup_cons.mp hnodup
    have hothers : ∀ net' : TcpBackend, net'.localPartyId = net.localPartyId →
        (∀ j ≠ i, net'.stream j = net.stream j) → ∀ j ∈ left, ¬ net'.Withholds j := by
      intro net' hlocal hsame j hj
      have hne : j ≠ i := fun heq => hi (heq ▸ hj)
      rw [withholds_congr (hsame j hne) hlocal]
      exact h j (List.mem_cons_of_mem _ hj)
    have hfirst := h i List.mem_cons_self
    obtain ⟨hended, -⟩ | ⟨hwaits, -⟩ | ⟨packet, stream, hnext, hpoll⟩ := recvFrom_eq net i
    · exact absurd (.inl (.inl hended)) hfirst
    · -- A packet arrives, and is read.
      have hlocal : i ≠ net.localPartyId := fun hlocal => hfirst (.inr ⟨hwaits, hlocal⟩)
      obtain ⟨stream, hpoll⟩ := recvFrom_of_next (next_arrive_packet hwaits hlocal (.ok .empty))
      let arrival : Arrival := .packet i (.ok .empty)
      obtain ⟨events, received, hrest⟩ := ih hleft
        (hothers ((net.arrive arrival).setStream i stream) (localPartyId_arrive net arrival) fun j hj =>
          (stream_setStream_of_ne hj stream).trans (stream_arrive_of_ne hj)) (packets ++ [.empty])
      refine ⟨some arrival :: none :: events, received, ?_⟩
      rw [recvLoop, recvLoop, hpoll]
      exact hrest
    · cases packet with
      | error e => exact absurd (.inl (.inr ⟨e, hnext⟩)) hfirst
      | ok packet =>
        obtain ⟨events, received, hrest⟩ := ih hleft
          (hothers (net.setStream i stream) rfl fun j hj => stream_setStream_of_ne hj stream) (packets ++ [packet])
        refine ⟨none :: events, received, ?_⟩
        rw [recvLoop, hpoll]
        exact hrest

theorem recvLoop_error {before after : List PartyId} {i : PartyId} (hnodup : (before ++ i :: after).Nodup)
    (hfails : net.Fails i) (hbefore : ∀ j ∈ before, ¬ net.Waits j) {packets : List Packet}
    {events : List (Option Arrival)} (hpolls : before.length < events.countP Option.isNone) :
    ∃ e, (net.recvLoop (before ++ i :: after) packets events).1 = some (.error e) := by
  induction events generalizing net before packets with
  | nil => simp at hpolls
  | cons event events ih =>
    cases event with
    | some arrival =>
      have hpolls : before.length < events.countP Option.isNone := by simpa using hpolls
      obtain ⟨e, he⟩ := ih hnodup (hfails.arrive arrival) (fun j hj => not_waits_arrive (hbefore j hj) arrival)
        hpolls
      cases before with
      | nil => exact ⟨e, he⟩
      | cons => exact ⟨e, he⟩
    | none =>
      cases before with
      | nil =>
        obtain ⟨e, net', hpoll⟩ := hfails.recvFrom
        exact ⟨e, by rw [List.nil_append, recvLoop, hpoll]⟩
      | cons j before =>
        have hpolls : before.length < events.countP Option.isNone := by simpa using hpolls
        obtain ⟨hj, hrest⟩ := List.nodup_cons.mp hnodup
        obtain ⟨-, e, hpoll⟩ | ⟨hwaits, -⟩ | ⟨packet, stream, hnext, hpoll⟩ := recvFrom_eq net j
        · exact ⟨e, by rw [List.cons_append, recvLoop, hpoll]⟩
        · exact absurd hwaits (hbefore j List.mem_cons_self)
        · cases packet with
          | error e => exact ⟨e, by rw [List.cons_append, recvLoop, hpoll]⟩
          | ok packet =>
            have hsame : ∀ k ∈ before ++ i :: after, (net.setStream j stream).stream k = net.stream k := by
              intro k hk
              refine stream_setStream_of_ne ?_ stream
              rintro rfl
              exact hj hk
            rw [List.cons_append, recvLoop, hpoll]
            refine ih hrest ((fails_congr (hsame i (by simp))).mpr hfails) (fun k hk => ?_) hpolls
            rw [Waits, hsame k (List.mem_append_left _ hk)]
            exact hbefore k (List.mem_cons_of_mem _ hk)

/-! ### All parties -/

/-- There is at most one stream for each of `n` parties. -/
structure Streams (n : Nat) (net : TcpBackend) : Prop where
  nodup : (net.receivers.map Prod.fst).Nodup
  lt : ∀ i ∈ net.receivers.map Prod.fst, i < n

theorem Streams.keeps {n : Nat} (h : Streams n net) (hkeeps : Keeps net net') : Streams n net' :=
  ⟨h.nodup.sublist hkeeps.streams, fun i hi => h.lt i (hkeeps.streams.subset hi)⟩

theorem Streams.length_le {n : Nat} (h : Streams n net) : net.receivers.length ≤ n := by
  have hle := (List.subperm_of_subset h.nodup fun i hi => List.mem_range.mpr (h.lt i hi)).length_le
  rwa [List.length_map, List.length_range] at hle

theorem stream_eq_none_iff : net.stream party = none ↔ party ∉ net.receivers.map Prod.fst :=
  lookup_eq_none_iff_notMem

theorem perm_range (h : ∀ i < net.receivers.length, net.stream i ≠ none) :
    (net.receivers.map Prod.fst).Perm (List.range net.receivers.length) :=
  perm_of_forall_mem List.nodup_range
    (fun i hi => not_not.mp (stream_eq_none_iff.not.mp (h i (List.mem_range.mp hi)))) (by simp)

theorem recv_ok {events : List (Option Arrival)} {packets : List Packet}
    (h : (net.recv events).1 = some (.ok packets)) : packets.length = net.receivers.length ∧
      ∀ i (hi : i < packets.length), (net.arriveAll (events.filterMap id)).next i = some (.ok packets[i]) := by
  obtain ⟨rest, rfl, hrest⟩ := recvLoop_ok List.nodup_range h
  obtain ⟨hlen, hget⟩ := List.forall₂_iff_get.mp hrest
  rw [List.length_range] at hlen
  exact ⟨hlen.symm, fun i hi => by simpa using hget i (by rwa [List.length_range, hlen]) hi⟩

theorem recv_error {i : Nat} (hi : i < net.receivers.length) (hfails : net.Fails i)
    (hbefore : ∀ j < i, ¬ net.Waits j) {events : List (Option Arrival)}
    (hpolls : i < events.countP Option.isNone) : ∃ e, (net.recv events).1 = some (.error e) := by
  obtain ⟨d, hd⟩ := Nat.exists_eq_add_of_le (Nat.succ_le_of_lt hi)
  have hrange : List.range net.receivers.length = List.range i ++ i :: List.range' (i + 1) d := by
    rw [hd, range_eq_append, List.range_succ, List.append_assoc]
    rfl
  rw [recv, hrange]
  refine recvLoop_error ?_ hfails (fun j hj => hbefore j (List.mem_range.mp hj)) (by simpa using hpolls)
  rw [← hrange]
  exact List.nodup_range

theorem exists_fails {n i : Nat} (hnotices : Notices n net) (hi : i < n) (hended : net.Ended i)
    (hbefore : ∀ j < i, ¬ net.Waits j) : ∃ k ≤ i, k < net.receivers.length ∧ net.Fails k := by
  rcases Nat.lt_or_ge i net.receivers.length with hlt | hge
  · exact ⟨i, le_rfl, hlt, .inl hended⟩
  · by_cases hall : ∀ k < net.receivers.length, net.stream k ≠ none
    · obtain ⟨j, hj, hfails | ⟨hwaits, -⟩⟩ := hnotices _ (hge.trans_lt hi) (perm_range hall)
      · exact ⟨j, hj.le.trans hge, hj, hfails⟩
      · exact absurd hwaits (hbefore j (hj.trans_le hge))
    · push Not at hall
      obtain ⟨k, hk, hnone⟩ := hall
      exact ⟨k, hk.le.trans hge, hk, .inl (.inl hnone)⟩

theorem accounts_of_notices {n : Nat} (hstreams : Streams n net) (hnotices : Notices n net) : Accounts n net := by
  have hpackets : ∀ events packets, (net.recv events).1 = some (.ok packets) → packets.length = n ∧
      ∀ i (hi : i < packets.length), (net.arriveAll (events.filterMap id)).next i = some (.ok packets[i]) := by
    intro events packets h
    obtain ⟨hlen, hnext⟩ := recv_ok h
    have hsends : ∀ i < net.receivers.length, ¬ net.Withholds i := fun i hi hwithholds =>
      (hwithholds.arriveAll (events.filterMap id)).next_ne _ (hnext i (hlen ▸ hi))
    have hall : ∀ i < net.receivers.length, net.stream i ≠ none := fun i hi hnone =>
      hsends i hi (.inl (.inl (.inl hnone)))
    refine ⟨?_, hnext⟩
    obtain hlt | heq := (hlen ▸ hstreams.length_le).lt_or_eq
    · obtain ⟨j, hj, hwithholds⟩ := hnotices _ (hlen ▸ hlt) (perm_range hall)
      exact absurd hwithholds (hsends j hj)
    · exact heq
  refine ⟨hpackets, fun i hi hended events => ⟨fun r hr => ?_, fun hbefore hpolls => ?_⟩⟩
  · cases r with
    | error e => exact ⟨e, rfl⟩
    | ok packets =>
      obtain ⟨hlen, hnext⟩ := hpackets events packets hr
      have hwithholds : net.Withholds i := .inl (.inl hended)
      exact absurd (hnext i (hlen ▸ hi)) ((hwithholds.arriveAll _).next_ne _)
  · obtain ⟨k, hk, hlt, hfails⟩ := exists_fails hnotices hi hended hbefore
    exact recv_error hlt hfails (fun j hj => hbefore j (hj.trans_le hk)) (by omega)

theorem notices_of_accounts {n : Nat} (h : Accounts n net) : Notices n net := by
  intro m hm hperm
  by_contra hnone
  push Not at hnone
  have hlen : net.receivers.length = m := by simpa using hperm.length_eq
  obtain ⟨events, packets, hok⟩ := exists_recvLoop_ok (List.nodup_range (n := m))
    (fun i hi => hnone i (List.mem_range.mp hi)) []
  rw [← hlen] at hok
  have hall := (h.packets events packets hok).1
  have hleft := (recv_ok hok).1
  omega

section
variable {checks : Bool} {id : Nat} {config : NetworkConfig} {env : Connecting}
  {network : TcpNetwork Connection Connection}

theorem streams_opened (hid : id < config.peerIps.length)
    (hcreate : create checks id config env = some (.ok network)) :
    Streams config.peerIps.length network.opened := by
  have hintended := intended_of_create hid hcreate
  have hkeys : (network.opened.receivers.map Prod.fst).Perm (List.range config.peerIps.length) := by
    rw [opened, List.map_map, hintended.receivers]
    exact hintended.writers
  exact ⟨hkeys.nodup_iff.mpr List.nodup_range, fun i hi => List.mem_range.mp (hkeys.mem_iff.mp hi)⟩

/-- **`recv` accounts for every party** in each state that a created network reaches, if and only if the
streams that are left are not just those of the first parties, or one of these withholds its packet. -/
theorem recv_accounts_iff (hid : id < config.peerIps.length)
    (hcreate : create checks id config env = some (.ok network))
    (hsteps : Relation.ReflTransGen (Step codec) network.opened net) :
    Accounts config.peerIps.length net ↔ Notices config.peerIps.length net :=
  ⟨notices_of_accounts, accounts_of_notices ((streams_opened hid hcreate).keeps (keeps_of_steps hsteps))⟩

end

/-- Party 0 of two accepts party 1. -/
def twoParties : Connecting where
  bind _ := .ok ()
  configureTls := .ok ()
  dial _ _ := .ok ()
  accept _ := .ok 1

def twoConnected : TcpNetwork Connection Connection :=
  ⟨0, [(0, .loopBack), (1, .accepted 0)], [(0, .loopBack), (1, .accepted 0)]⟩

theorem recv_accounts_two :
    Accounts 2 (twoConnected.opened.arrive (.closed 1)) ↔ Notices 2 (twoConnected.opened.arrive (.closed 1)) :=
  @recv_accounts_iff packetCodec _ true 0 ⟨5000, [0, 0]⟩ twoParties twoConnected (by decide) rfl
    (.single (.arrive (.closed 1)))

/-- **A party that is gone is not noticed**: party 1 closes its stream, a poll of the map observes that, and
party 0 sends itself a packet, which is all that `recv` returns. -/
theorem recv_short : ∃ net packet, create true 0 ⟨5000, [0, 0]⟩ twoParties = some (.ok twoConnected) ∧
    Relation.ReflTransGen (Step packetCodec) twoConnected.opened net ∧
    net.Ended 1 ∧ (net.recv [none]).1 = some (.ok [packet]) ∧ ¬ Accounts 2 net := by
  let closed := twoConnected.opened.arrive (.closed 1)
  let polled := (closed.recvAny [1, 0]).2
  let sent := (polled.sendTo packetCodec (fun _ => .ok ()) 0 .empty).2
  have hsteps : Relation.ReflTransGen (Step packetCodec) twoConnected.opened sent :=
    .tail (.tail (.single (.arrive (.closed 1))) (.recvAny [1, 0] (by decide))) (.sendTo ..)
  have hshort : (sent.recv [none]).1 = some (.ok [.empty]) := rfl
  refine ⟨sent, .empty, rfl, hsteps, .inl rfl, hshort, fun h => ?_⟩
  have hlen : [Packet.empty].length = 2 := (h.packets [none] [.empty] hshort).1
  cases hlen

end SclRs.TcpNetwork
