import SclRs.Net.TcpRecv

/-!
# Sending to many parties at once

`TcpNetwork` overrides `send_many`: it looks for unknown targets first and then has all writers send at the
same time, in whatever order its map has them, where the default sends one message after the other. A
message changes what belongs to its target only (`Reception`), so that messages to different targets commute.
With distinct targets both therefore succeed on the same networks, and leave the same behind. Of several
messages to one target the override sends the first only (`sendMany_agrees`).
-/

namespace SclRs.TcpNetwork

open Lib.Insertions

section
variable (codec : Postcard (List (List UInt8))) (sockets : PartyId → Except NetworkError Unit)

/-- The default `send_many`. -/
def sendManyDefault (net : TcpBackend) : List (PartyId × Packet) → Except NetworkError Unit × TcpBackend
  | [] => (.ok (), net)
  | (party, packet) :: messages =>
    match net.sendTo codec sockets party packet with
    | (.error e, net) => (.error e, net)
    | (.ok _, net) => sendManyDefault net messages

variable (net : TcpBackend)

/-- What belongs to the target of a message: its writer, and the loop-back stream if the message goes there. -/
abbrev Reception := PeerWriter × Option PacketStream

/-- The target after a message, or `none` where sending it fails. -/
def reception (message : PartyId × Packet) : Option Reception :=
  match net.writers.lookup message.1 with
  | none => none
  | some (.loopBack channel) =>
    (net.stream message.1).map fun stream =>
      (((PeerWriter.loopBack channel).send codec message.2).1,
        some { stream with unread := stream.unread ++ [.ok message.2] })
  | some (.socket stream) =>
    match sockets message.1 with
    | .error _ => none
    | .ok () => some (((PeerWriter.socket stream).send codec message.2).1, none)

def put (party : PartyId) (reception : Reception) : TcpBackend where
  localPartyId := net.localPartyId
  writers := modify net.writers party fun _ => reception.1
  receivers := (reception.2.map fun stream => modify net.receivers party fun _ => stream).getD net.receivers

/-- The network after a message, or `none` where sending it fails. -/
def afterMessage (message : PartyId × Packet) : Option TcpBackend :=
  (net.reception codec sockets message).map (net.put message.1)

end

variable {codec : Postcard (List (List UInt8))} {sockets : PartyId → Except NetworkError Unit}
  {net net' : TcpBackend} {message message' : PartyId × Packet} {messages : List (PartyId × Packet)}
  {party party' : PartyId} {packet : Packet}

/-! ### One message -/

theorem sendTo_eq_ok :
    (∃ bytesSent, net.sendTo codec sockets party packet = (.ok bytesSent, net')) ↔
      net.afterMessage codec sockets (party, packet) = some net' := by
  rw [sendTo, afterMessage, reception]
  cases hlookup : net.writers.lookup party with
  | none => simp
  | some writer =>
    cases writer with
    | loopBack channel =>
      cases hstream : net.stream party with
      | none => simp [write, hstream]
      | some stream =>
        simp only [write, hstream, Option.map_some, Option.some.injEq, Prod.mk.injEq, Except.ok.injEq]
        exact exists_eq_left'
    | socket stream =>
      cases hsocket : sockets party with
      | error e => simp [write, hsocket]
      | ok =>
        simp only [write, hsocket, Option.map_some, Option.some.injEq, Prod.mk.injEq, Except.ok.injEq]
        exact exists_eq_left'

theorem sendTo_eq_error (h : net.afterMessage codec sockets (party, packet) = none) :
    ∃ e net', net.sendTo codec sockets party packet = (.error e, net') := by
  obtain ⟨r, net', hsend⟩ : ∃ r net', net.sendTo codec sockets party packet = (r, net') := ⟨_, _, rfl⟩
  cases r with
  | error e => exact ⟨e, net', hsend⟩
  | ok bytesSent =>
    rw [sendTo_eq_ok.mp ⟨bytesSent, hsend⟩] at h
    cases h

theorem partyIds_put (reception : Reception) : (net.put party reception).partyIds = net.partyIds :=
  keys_modify net.writers party fun _ => reception.1

theorem partyIds_afterMessage (h : net.afterMessage codec sockets message = some net') :
    net'.partyIds = net.partyIds := by
  obtain ⟨reception, -, rfl⟩ := Option.map_eq_some_iff.mp h
  exact partyIds_put reception

theorem afterMessage_eq_none (h : message.1 ∉ net.partyIds) : net.afterMessage codec sockets message = none := by
  rw [afterMessage, reception, lookup_eq_none_iff_notMem.mpr h]
  rfl

/-! ### Messages to different parties -/

theorem stream_put (hne : party' ≠ party) (reception : Reception) :
    (net.put party reception).stream party' = net.stream party' := by
  obtain ⟨writer, stream⟩ := reception
  cases stream with
  | none => rfl
  | some stream =>
    change (modify net.receivers party fun _ => stream).lookup party' = _
    rw [lookup_modify, if_neg hne]
    rfl

theorem reception_put (hne : message.1 ≠ party) (r : Reception) :
    (net.put party r).reception codec sockets message = net.reception codec sockets message := by
  have hlookup : (net.put party r).writers.lookup message.1 = net.writers.lookup message.1 := by
    change (modify net.writers party fun _ => r.1).lookup message.1 = _
    rw [lookup_modify, if_neg hne]
  rw [reception, reception, hlookup, stream_put hne]

theorem put_comm (hne : party ≠ party') (r r' : Reception) :
    (net.put party r).put party' r' = (net.put party' r').put party r := by
  have hwriters := modify_comm net.writers hne (fun _ => r.1) fun _ => r'.1
  have hreceivers : ((net.put party r).put party' r').receivers = ((net.put party' r').put party r).receivers := by
    obtain ⟨writer, stream⟩ := r
    obtain ⟨writer', stream'⟩ := r'
    cases stream with
    | none => cases stream' <;> rfl
    | some stream =>
      cases stream' with
      | none => rfl
      | some stream' => exact modify_comm net.receivers hne (fun _ => stream) fun _ => stream'
  rw [put, put, put, put] at *
  simp only [TcpNetwork.mk.injEq, true_and]
  exact ⟨hwriters, hreceivers⟩

theorem afterMessage_comm (net : TcpBackend) (hne : message.1 ≠ message'.1) :
    ((net.afterMessage codec sockets message).bind fun net => net.afterMessage codec sockets message') =
      (net.afterMessage codec sockets message').bind fun net => net.afterMessage codec sockets message := by
  rw [afterMessage, Option.bind_map, afterMessage, Option.bind_map]
  cases hr : net.reception codec sockets message with
  | none =>
    cases hr' : net.reception codec sockets message' with
    | none => rfl
    | some r' =>
      rw [Option.bind_none, Option.bind_some, Function.comp_apply, afterMessage, reception_put hne, hr]
      rfl
  | some r =>
    rw [Option.bind_some, Function.comp_apply, afterMessage, reception_put hne.symm]
    cases hr' : net.reception codec sockets message' with
    | none => rfl
    | some r' =>
      rw [Option.bind_some, Function.comp_apply, afterMessage, reception_put hne, hr, Option.map_some,
        Option.map_some, put_comm hne]

/-! ### All messages -/

theorem sendManyDefault_eq_ok :
    net.sendManyDefault codec sockets messages = (.ok (), net') ↔
      messages.foldlM (fun net => net.afterMessage codec sockets) net = some net' := by
  induction messages generalizing net with
  | nil => simp [sendManyDefault]
  | cons message messages ih =>
    obtain ⟨party, packet⟩ := message
    rw [sendManyDefault, List.foldlM_cons]
    cases hafter : net.afterMessage codec sockets (party, packet) with
    | none =>
      obtain ⟨e, net₁, hsend⟩ := sendTo_eq_error hafter
      simp [hsend]
    | some net₁ =>
      obtain ⟨bytesSent, hsend⟩ := sendTo_eq_ok.mpr hafter
      simp only [hsend]
      exact ih

theorem sendEach_eq_ok (sent : Nat) :
    (∃ bytesSent, net.sendEach codec sockets messages sent = (.ok bytesSent, net')) ↔
      messages.foldlM (fun net => net.afterMessage codec sockets) net = some net' := by
  induction messages generalizing net sent with
  | nil => simp [sendEach]
  | cons message messages ih =>
    obtain ⟨party, packet⟩ := message
    rw [sendEach, List.foldlM_cons]
    cases hafter : net.afterMessage codec sockets (party, packet) with
    | none =>
      obtain ⟨e, net₁, hsend⟩ := sendTo_eq_error hafter
      simp [hsend]
    | some net₁ =>
      obtain ⟨bytesSent, hsend⟩ := sendTo_eq_ok.mpr hafter
      simp only [hsend]
      exact ih bytesSent

theorem foldlM_eq_none (h : ∃ message ∈ messages, message.1 ∉ net.partyIds) :
    messages.foldlM (fun net => net.afterMessage codec sockets) net = none := by
  induction messages generalizing net with
  | nil => simp at h
  | cons message messages ih =>
    rw [List.foldlM_cons]
    cases hafter : net.afterMessage codec sockets message with
    | none => rfl
    | some net₁ =>
      refine ih ?_
      obtain ⟨m, hm, hunknown⟩ := h
      obtain rfl | hm := List.mem_cons.mp hm
      · rw [afterMessage_eq_none hunknown] at hafter
        cases hafter
      · exact ⟨m, hm, partyIds_afterMessage hafter ▸ hunknown⟩

theorem find?_eq_some_iff (hnodup : (messages.map Prod.fst).Nodup) :
    messages.find? (·.1 = party) = some message ↔ message ∈ messages ∧ message.1 = party := by
  induction messages with
  | nil => simp
  | cons first messages ih =>
    rw [List.map_cons, List.nodup_cons] at hnodup
    rw [List.find?_cons, List.mem_cons]
    by_cases hfirst : first.1 = party
    · simp only [hfirst, decide_true, Option.some.injEq]
      refine ⟨fun h => ⟨.inl h.symm, h ▸ hfirst⟩, fun ⟨h, hparty⟩ => ?_⟩
      obtain rfl | hmem := h
      · rfl
      · exact absurd (hfirst.trans hparty.symm ▸ List.mem_map_of_mem hmem) hnodup.1
    · simp only [hfirst, decide_false]
      rw [ih hnodup.2]
      refine ⟨fun ⟨hmem, hparty⟩ => ⟨.inr hmem, hparty⟩, fun ⟨h, hparty⟩ => ⟨?_, hparty⟩⟩
      obtain rfl | hmem := h
      · exact absurd hparty hfirst
      · exact hmem

/-- The message that each writer takes. -/
def matched (ids : List PartyId) (messages : List (PartyId × Packet)) : List (PartyId × Packet) :=
  ids.filterMap fun party => messages.find? (·.1 = party)

theorem matched_perm {ids : List PartyId} (hids : ids.Nodup) (hnodup : (messages.map Prod.fst).Nodup)
    (hknown : ∀ message ∈ messages, message.1 ∈ ids) : (matched ids messages).Perm messages := by
  refine (List.perm_ext_iff_of_nodup ?_ (List.Nodup.of_map _ hnodup)).mpr fun message => ?_
  · refine hids.filterMap fun party party' message hm hm' => ?_
    rw [← ((find?_eq_some_iff hnodup).mp hm).2, ← ((find?_eq_some_iff hnodup).mp hm').2]
  · rw [matched, List.mem_filterMap]
    constructor
    · rintro ⟨party, -, hfind⟩
      exact ((find?_eq_some_iff hnodup).mp hfind).1
    · exact fun hmem => ⟨message.1, hknown message hmem, (find?_eq_some_iff hnodup).mpr ⟨hmem, rfl⟩⟩

theorem sendMany_eq_ok :
    net.sendMany codec sockets messages = (.ok (), net') ↔
      (∀ message ∈ messages, message.1 ∈ net.partyIds) ∧
        (matched net.partyIds messages).foldlM (fun net => net.afterMessage codec sockets) net = some net' := by
  rw [sendMany]
  cases hfind : messages.find? (·.1 ∉ net.partyIds) with
  | some message =>
    have htarget : message.1 ∉ net.partyIds := by simpa using List.find?_some hfind
    exact iff_of_false (by simp) fun h => htarget (h.1 message (List.mem_of_find?_eq_some hfind))
  | none =>
    have hknown : ∀ message ∈ messages, message.1 ∈ net.partyIds := by
      simpa using List.find?_eq_none.mp hfind
    rw [and_iff_right hknown, ← sendEach_eq_ok 0]
    dsimp only
    cases hsend : net.sendEach codec sockets (matched net.partyIds messages) 0 with
    | mk r net₁ =>
      rw [matched] at hsend
      rw [hsend]
      cases r with
      | error e => simp
      | ok bytesSent => simp

/-! ### Several messages to one party -/

/-- How much a writer has taken: packets, or bytes. -/
def taken : PeerWriter → Nat
  | .loopBack channel => channel.length
  | .socket stream => stream.length

theorem taken_lt_send (writer : PeerWriter) (packet : Packet) : taken writer < taken (writer.send codec packet).1 := by
  cases writer with
  | loopBack channel =>
    change channel.length < (channel ++ [packet]).length
    rw [List.length_append]
    exact Nat.lt_succ_self _
  | socket stream =>
    change stream.length < (stream ++ socketCodec.head _ ++ _).length
    rw [List.length_append, List.length_append, Lib.LengthDelimited.length_head]
    have hfield : socketCodec.fieldLength = 8 := rfl
    omega

theorem taken_lt_sendAll (writer : PeerWriter) {packets : List Packet} (h : packets ≠ []) :
    taken writer < taken (writer.sendAll codec packets) := by
  induction packets generalizing writer with
  | nil => exact absurd rfl h
  | cons packet packets ih =>
    have hfirst := @taken_lt_send codec writer packet
    cases packets with
    | nil => exact hfirst
    | cons packet' packets => exact hfirst.trans (ih _ (List.cons_ne_nil _ _))

def packetsFor (party : PartyId) (messages : List (PartyId × Packet)) : List Packet :=
  (messages.filter (·.1 = party)).map Prod.snd

theorem packetsFor_cons (party : PartyId) (message : PartyId × Packet) (messages : List (PartyId × Packet)) :
    packetsFor party (message :: messages) = packetsFor party [message] ++ packetsFor party messages := by
  rw [packetsFor, ← List.singleton_append, List.filter_append, List.map_append]
  rfl

theorem packetsFor_singleton (party : PartyId) (message : PartyId × Packet) :
    packetsFor party [message] = if message.1 = party then [message.2] else [] := by
  rw [packetsFor, List.filter_singleton]
  by_cases h : message.1 = party
  · simp [h]
  · simp [h]

theorem lookup_afterMessage (h : net.afterMessage codec sockets message = some net') (party : PartyId) :
    net'.writers.lookup party =
      (net.writers.lookup party).map fun writer => writer.sendAll codec (packetsFor party [message]) := by
  obtain ⟨r, hr, rfl⟩ := Option.map_eq_some_iff.mp h
  change (modify net.writers message.1 fun _ => r.1).lookup party = _
  rw [lookup_modify, packetsFor_singleton]
  split_ifs with hparty hparty' hparty'
  · rw [hparty]
    rw [reception] at hr
    cases hlookup : net.writers.lookup message.1 with
    | none => rfl
    | some writer =>
      rw [hlookup] at hr
      cases writer with
      | loopBack channel =>
        obtain ⟨stream, -, rfl⟩ := Option.map_eq_some_iff.mp hr
        rfl
      | socket stream =>
        cases hsocket : sockets message.1 with
        | error e => simp [hsocket] at hr
        | ok =>
          simp only [hsocket, Option.some.injEq] at hr
          rw [← hr]
          rfl
  · exact absurd hparty.symm hparty'
  · exact absurd hparty'.symm hparty
  · cases net.writers.lookup party <;> rfl

theorem lookup_foldlM (h : messages.foldlM (fun net => net.afterMessage codec sockets) net = some net')
    (party : PartyId) :
    net'.writers.lookup party =
      (net.writers.lookup party).map fun writer => writer.sendAll codec (packetsFor party messages) := by
  induction messages generalizing net with
  | nil =>
    rw [← Option.some.inj h]
    cases net.writers.lookup party <;> rfl
  | cons message messages ih =>
    rw [List.foldlM_cons] at h
    obtain ⟨net₁, hafter, hrest⟩ := Option.bind_eq_some_iff.mp h
    rw [ih hrest, lookup_afterMessage hafter, Option.map_map, packetsFor_cons party message messages]
    refine congrArg (fun f => (net.writers.lookup party).map f) (funext fun writer => ?_)
    exact List.foldl_append.symm

theorem matched_eq_default (hids : net.partyIds.Nodup) (hnodup : (messages.map Prod.fst).Nodup)
    (hknown : ∀ message ∈ messages, message.1 ∈ net.partyIds) :
    (matched net.partyIds messages).foldlM (fun net => net.afterMessage codec sockets) net =
      messages.foldlM (fun net => net.afterMessage codec sockets) net := by
  have hperm := matched_perm hids hnodup hknown
  exact @foldlM_perm _ _ (fun net => afterMessage codec sockets net) (fun m m' : PartyId × Packet => m.1 ≠ m'.1)
    (fun _ _ => Ne.symm) (fun net _ _ => afterMessage_comm net) _ _ hperm
    (List.pairwise_map.mp ((hperm.map Prod.fst).nodup_iff.mpr hnodup)) net

theorem packetsFor_find? (party : PartyId) (messages : List (PartyId × Packet)) :
    packetsFor party (messages.find? (·.1 = party)).toList = (packetsFor party messages).take 1 := by
  induction messages with
  | nil => rfl
  | cons message messages ih =>
    rw [List.find?_cons, packetsFor_cons party message messages, packetsFor_singleton]
    by_cases h : message.1 = party
    · simp [h, packetsFor_singleton]
    · simp [h, ih]

theorem packetsFor_matched {ids : List PartyId} (hids : ids.Nodup) (party : PartyId) :
    packetsFor party (matched ids messages) = if party ∈ ids then (packetsFor party messages).take 1 else [] := by
  induction ids with
  | nil => rfl
  | cons id ids ih =>
    obtain ⟨hid, hids⟩ := List.nodup_cons.mp hids
    have hcons : packetsFor party (matched (id :: ids) messages) =
        packetsFor party (messages.find? (·.1 = id)).toList ++ packetsFor party (matched ids messages) := by
      rw [matched, List.filterMap_cons]
      cases messages.find? (·.1 = id) with
      | none => rfl
      | some message => exact packetsFor_cons party message _
    rw [hcons, ih hids]
    by_cases hparty : party = id
    · rw [hparty, packetsFor_find?, if_neg hid, if_pos List.mem_cons_self, List.append_nil]
    · have hnone : packetsFor party (messages.find? (·.1 = id)).toList = [] := by
        cases hfind : messages.find? (·.1 = id) with
        | none => rfl
        | some message =>
          have htarget : message.1 = id := by simpa using List.find?_some hfind
          rw [Option.toList_some, packetsFor_singleton, htarget, if_neg (Ne.symm hparty)]
      rw [hnone, List.nil_append]
      simp only [List.mem_cons, hparty, false_or]

theorem exists_repeated (h : ¬ (messages.map Prod.fst).Nodup) :
    ∃ party first second rest, packetsFor party messages = first :: second :: rest := by
  obtain ⟨party, hcount⟩ : ∃ party, 1 < (packetsFor party messages).length := by
    by_contra hall
    refine h (List.nodup_iff_count_le_one.mpr fun party => ?_)
    have hle := not_lt.mp fun h => hall ⟨party, h⟩
    rw [packetsFor, List.length_map, ← List.countP_eq_length_filter] at hle
    rw [List.count, List.countP_map]
    exact hle
  cases hpackets : packetsFor party messages with
  | nil => simp [hpackets] at hcount
  | cons first packets =>
    cases packets with
    | nil => simp [hpackets] at hcount
    | cons second rest => exact ⟨party, first, second, rest, hpackets⟩

/-- **The override agrees with the default** where there is at most one message for each party: `send_many`
succeeds where sending one message after the other does, and leaves the same network behind. Where there are
several messages for a party, it never does what the default does. -/
theorem sendMany_agrees (hids : net.partyIds.Nodup) :
    ((messages.map Prod.fst).Nodup → (net.sendMany codec sockets messages = (.ok (), net') ↔
        net.sendManyDefault codec sockets messages = (.ok (), net'))) ∧
      (¬ (messages.map Prod.fst).Nodup → net.sendManyDefault codec sockets messages = (.ok (), net') →
        net.sendMany codec sockets messages ≠ (.ok (), net')) := by
  constructor
  · intro hnodup
    rw [sendManyDefault_eq_ok, sendMany_eq_ok]
    by_cases hknown : ∀ message ∈ messages, message.1 ∈ net.partyIds
    · rw [and_iff_right hknown, matched_eq_default hids hnodup hknown]
    · have hunknown : ∃ message ∈ messages, message.1 ∉ net.partyIds := by simpa using hknown
      rw [foldlM_eq_none hunknown]
      exact iff_of_false (fun h => hknown h.1) (by simp)
  · intro hrepeated hdefault hoverride
    rw [sendManyDefault_eq_ok] at hdefault
    obtain ⟨hknown, hoverride⟩ := sendMany_eq_ok.mp hoverride
    obtain ⟨party, first, second, rest, hpackets⟩ := exists_repeated hrepeated
    have hparty : party ∈ net.partyIds := by
      by_contra hunknown
      refine List.cons_ne_nil first (second :: rest) (hpackets.symm.trans ?_)
      rw [packetsFor, List.map_eq_nil_iff, List.filter_eq_nil_iff]
      intro message hmem htarget
      exact hunknown (of_decide_eq_true htarget ▸ hknown message hmem)
    obtain ⟨writer, hwriter⟩ : ∃ writer, net.writers.lookup party = some writer :=
      Option.ne_none_iff_exists'.mp fun hnone => lookup_eq_none_iff_notMem.mp hnone hparty
    -- the writer of the party has taken one packet, and more than one
    have hlookup := (lookup_foldlM hoverride party).symm.trans (lookup_foldlM hdefault party)
    rw [packetsFor_matched hids, if_pos hparty, hpackets, hwriter] at hlookup
    have hsame : writer.sendAll codec [first] = (writer.sendAll codec [first]).sendAll codec (second :: rest) :=
      Option.some.inj hlookup
    have hlt := @taken_lt_sendAll codec (writer.sendAll codec [first]) _ (List.cons_ne_nil second rest)
    rw [← hsame] at hlt
    exact lt_irrefl _ hlt

theorem sendMany_agrees_two : ∃ net',
    twoConnected.opened.sendMany packetCodec (fun _ => .ok ()) [(1, .empty), (0, .empty)] = (.ok (), net') ∧
      twoConnected.opened.sendManyDefault packetCodec (fun _ => .ok ()) [(1, .empty), (0, .empty)] =
        (.ok (), net') := by
  obtain ⟨net', hdefault⟩ : ∃ net', twoConnected.opened.sendManyDefault packetCodec (fun _ => .ok ())
      [(1, .empty), (0, .empty)] = (.ok (), net') := ⟨_, rfl⟩
  exact ⟨net', ((sendMany_agrees (by decide)).1 (by decide)).mpr hdefault, hdefault⟩

end SclRs.TcpNetwork
