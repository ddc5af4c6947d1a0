import SclRs.Net.Simulation.Timing
import SclRs.Net.Sockets

/-!
# Sockets carry the asynchronous network

`Shows` reads a state of the network off the processes and their sockets: a link's packets are those that can
be read, then those whose frames are not complete. Each step of portable code is one step of the network, and
bytes that arrive are none. When nothing more happens, all bytes have arrived and the network has no step
either. So what is proved of all schedules of the network holds on sockets (`sockets_refine`).
-/

namespace SclRs

open Lib TcpNetwork

namespace Prog.Alike

variable {ρ : Type} {parties : List PartyId} {prog' : Prog ρ}

theorem within {op : NetOp} {next : op.Out → Prog ρ} (h : (Prog.call op next).Alike parties prog') :
    op.Within parties := by
  cases h with
  | sendTo hmem | recvFrom hmem | recvFromWithTimeout hmem => exact hmem
  | recvAny | recvAnyWithTimeout | record => trivial

theorem sent {partyId : PartyId} {packet : Packet} {next : _ → Prog ρ}
    (h : (Prog.call (.sendTo partyId packet) next).Alike parties prog') :
    ∃ packet' next', prog' = .call (.sendTo partyId packet') next' ∧ packet.Equal packet' ∧
      (next (.ok packet.size)).Alike parties (next' (.ok packet'.size)) := by
  cases h with
  | sendTo hmem heq hnext => exact ⟨_, _, rfl, heq, hnext⟩

theorem received {op : NetOp} {next : op.Out → Prog ρ} (h : (Prog.call op next).Alike parties prog')
    {q : PartyId} {packet packet' : Packet} {out : op.Out} (hq : q ∈ parties) (heq : packet.Equal packet')
    (hout : op.packetOut q packet = some out) :
    ∃ next' out', prog' = .call op next' ∧ op.packetOut q packet' = some out' ∧
      (next out).Alike parties (next' out') := by
  cases h with
  | sendTo | record => cases hout
  | recvFrom hmem hnext | recvFromWithTimeout hmem hnext =>
    obtain rfl := Option.some.inj hout
    exact ⟨_, _, rfl, rfl, hnext packet packet' heq⟩
  | recvAny hnext | recvAnyWithTimeout hnext =>
    obtain rfl := Option.some.inj hout
    exact ⟨_, _, rfl, rfl, hnext q hq packet packet' heq⟩

theorem goes {op : NetOp} {next : op.Out → Prog ρ} (h : (Prog.call op next).Alike parties prog') {out : op.Out}
    (hsend : ∀ q packet, op ≠ .sendTo q packet) (hout : op.localOut = some out) :
    ∃ next', prog' = .call op next' ∧ (next out).Alike parties (next' out) := by
  cases h with
  | sendTo => exact absurd rfl (hsend _ _)
  | recvFrom | recvAny => cases hout
  | recvFromWithTimeout hmem hnext htimeout | recvAnyWithTimeout hnext htimeout =>
    obtain rfl := Option.some.inj hout
    exact ⟨_, rfl, htimeout⟩
  | record hnext =>
    obtain rfl := Option.some.inj hout
    exact ⟨_, rfl, hnext⟩

theorem call {op' : NetOp} {next' : op'.Out → Prog ρ} {prog : Prog ρ} (h : prog.Alike parties (.call op' next')) :
    ∃ op next, prog = .call op next ∧ (op.localOut = none → op'.localOut = none) ∧
      ∀ me, op'.awaits me parties = op.awaits me parties := by
  cases h with
  | sendTo | recvFrom | recvAny | recvFromWithTimeout | recvAnyWithTimeout | record =>
    refine ⟨_, _, rfl, ?_, fun _ => rfl⟩
    simp [NetOp.localOut]

end Prog.Alike

namespace Deployment

variable {ρ : Type}

section
variable (codec : Postcard (List (List UInt8)))
  (feed : List UInt8 → List (Except NetworkError (List UInt8)) × List UInt8) (parties : List PartyId)

/-- The packets of `ready` can be read, and the frames of those `left` are not complete. -/
structure OnWay (unread : List (Except NetworkError Packet)) (buffer transit : List UInt8)
    (ready left : List Packet) : Prop where
  unread : List.Forall₂ (fun r packet => ∃ packet', r = .ok packet' ∧ packet'.Equal packet) unread ready
  bytes : buffer ++ transit = (left.map (Packet.toAllocvec codec)).flatMap socketCodec.frame
  buffered : feed buffer = ([], buffer)
  sendable : ∀ packet ∈ left, packet.Sendable

/-- The packets of a channel are on their way. -/
def Holds (unread : List (Except NetworkError Packet)) (buffer transit : List UInt8) (channel : List Packet) :
    Prop :=
  ∃ ready left, channel = ready ++ left ∧ OnWay codec feed unread buffer transit ready left

/-- The processes and their sockets are those of a state of the network. -/
structure Shows (d : Deployment ρ) (s : NetState ρ) : Prop where
  progs : ∀ p ∈ parties, (d.progs p).Alike parties (s.progs p)
  nets : ∀ p ∈ parties, (d.nets p).Open parties p
  arrived : ∀ p ∈ parties, ∀ q ∈ parties, d.arrived ⟨p, q⟩ ≤ ((d.nets p).written q).length
  links : ∀ p ∈ parties, ∀ q ∈ parties,
    Holds codec feed ((d.nets q).unread p) (d.buffers ⟨p, q⟩) (d.transit ⟨p, q⟩) (s.channels ⟨p, q⟩)

end

variable {codec : Postcard (List (List UInt8))}
  {feed : List UInt8 → List (Except NetworkError (List UInt8)) × List UInt8} {parties : List PartyId}
  {unread : List (Except NetworkError Packet)} {buffer transit : List UInt8} {channel ready left : List Packet}
  {packet packet' : Packet} {d d' : Deployment ρ} {s s' : NetState ρ} {me q : PartyId}

theorem fits_of_sendable (hwire : WireSized codec) (h : packet.Sendable) :
    socketCodec.Fits (packet.toAllocvec codec) := by
  have hmax : packet.wireSize ≤ socketCodec.maxLength := h
  have hfield : socketCodec.maxLength < 256 ^ socketCodec.fieldLength := by decide
  rw [LengthDelimited.Builder.Fits, length_toAllocvec hwire]
  exact ⟨Nat.lt_of_le_of_lt hmax hfield, hmax⟩

theorem OnWay.carry (hwire : WireSized codec) (hfeed : LengthDelimited.Feeds socketCodec feed)
    (h : OnWay codec feed unread buffer transit ready left) (n : Nat) :
    ∃ done left' rest, left = done ++ left' ∧
      feed (buffer ++ transit.take n) = ((done.map (Packet.toAllocvec codec)).map .ok, rest) ∧
      OnWay codec feed (unread ++ done.map fun packet => .ok packet.received) rest (transit.drop n)
        (ready ++ done) left' ∧ (transit.drop n = [] → left' = []) := by
  have hbytes : (buffer ++ transit.take n) ++ transit.drop n =
      (left.map (Packet.toAllocvec codec)).flatMap socketCodec.frame := by
    rw [List.append_assoc, List.take_append_drop, h.bytes]
  obtain ⟨payloads, payloads', rest, hsplit, hread, hrest, hleft, hend⟩ :=
    hfeed.feed_eq (List.forall_mem_map.mpr fun packet hpacket => fits_of_sendable hwire (h.sendable packet hpacket))
      hbytes
  obtain ⟨done, left', rfl, rfl, rfl⟩ := List.map_eq_append_iff.mp hsplit
  refine ⟨done, left', rest, rfl, hread, ⟨?_, hleft, hrest, fun packet hpacket => ?_⟩, fun hnil => ?_⟩
  · refine List.rel_append h.unread ?_
    rw [List.forall₂_map_left_iff, List.forall₂_same]
    exact fun packet _ => ⟨packet.received, rfl, packet.received_equal.symm⟩
  · exact h.sendable packet (List.mem_append_right _ hpacket)
  · exact List.map_eq_nil_iff.mp (hend hnil)

theorem OnWay.left_eq_nil (hwire : WireSized codec) (hfeed : LengthDelimited.Feeds socketCodec feed)
    (h : OnWay codec feed unread buffer [] ready left) : left = [] := by
  obtain ⟨done, left', rest, rfl, hread, -, hend⟩ := h.carry hwire hfeed 0
  rw [List.take_zero, List.append_nil, h.buffered] at hread
  have hdone : done = [] := by
    simpa using (congrArg Prod.fst hread).symm
  rw [hdone, hend rfl, List.append_nil]

theorem OnWay.push (h : OnWay codec feed unread buffer transit ready left) (hsendable : packet.Sendable) :
    OnWay codec feed unread buffer (transit ++ socketCodec.frame (packet.toAllocvec codec)) ready
      (left ++ [packet]) where
  unread := h.unread
  bytes := by
    rw [← List.append_assoc, h.bytes, List.map_append, List.flatMap_append]
    exact congrArg _ (List.append_nil _).symm
  buffered := h.buffered
  sendable p hp := by
    obtain hp | hp := List.mem_append.mp hp
    · exact h.sendable p hp
    · exact List.mem_singleton.mp hp ▸ hsendable

/-! ### A party goes on -/

theorem progs_goes (d : Deployment ρ) (prog : Prog ρ) (net : TcpBackend) (p : PartyId) :
    (d.goes me prog net).progs p = if p = me then prog else d.progs p := Function.update_apply ..

theorem nets_goes (d : Deployment ρ) (prog : Prog ρ) (net : TcpBackend) (q : PartyId) :
    (d.goes me prog net).nets q = if q = me then net else d.nets q := Function.update_apply ..

theorem transit_goes (d : Deployment ρ) (prog : Prog ρ) (net : TcpBackend) (p q : PartyId) :
    (d.goes me prog net).transit ⟨p, q⟩ =
      if p = me then (net.written q).drop (d.arrived ⟨p, q⟩) else d.transit ⟨p, q⟩ := by
  rw [transit, nets_goes, transit]
  split_ifs <;> rfl

theorem Shows.goes (h : d.Shows codec feed parties s) {prog prog' : Prog ρ} (halike : prog.Alike parties prog')
    {net : TcpBackend} (hopen : net.Open parties me)
    (harrived : ∀ q ∈ parties, ((d.nets me).written q).length ≤ (net.written q).length)
    (hprogs : s'.progs = Function.update s.progs me prog')
    (hlinks : ∀ p ∈ parties, ∀ q ∈ parties, Holds codec feed (((d.goes me prog net).nets q).unread p)
      (d.buffers ⟨p, q⟩) ((d.goes me prog net).transit ⟨p, q⟩) (s'.channels ⟨p, q⟩)) :
    (d.goes me prog net).Shows codec feed parties s' where
  progs p hp := by
    rw [hprogs, progs_goes, Function.update_apply]
    split_ifs
    · exact halike
    · exact h.progs p hp
  nets p hp := by
    rw [nets_goes]
    split_ifs with hme
    · exact hme ▸ hopen
    · exact h.nets p hp
  arrived p hp q hq := by
    rw [nets_goes]
    split_ifs with hme
    · exact (h.arrived p hp q hq).trans (hme ▸ harrived q hq)
    · exact h.arrived p hp q hq
  links := hlinks

theorem Shows.sent (h : d.Shows codec feed parties s) (hsendable : packet'.Sendable)
    (heq : packet.Equal packet') {prog prog' : Prog ρ}
    (halike : prog.Alike parties prog') {net : TcpBackend}
    (hnet : net.Contains parties me (Function.update (d.nets me).written q
      ((d.nets me).written q ++ socketCodec.frame (packet.toAllocvec codec))) (d.nets me).unread) :
    (d.goes me prog net).Shows codec feed parties (s.proceed me (.sendTo q packet') prog') := by
  refine h.goes halike hnet.toOpen (fun r hr => ?_) rfl fun p hp r hr => ?_
  · rw [hnet.written_eq, Function.update_apply]
    split_ifs with hrq
    · rw [hrq, List.length_append]
      exact Nat.le_add_right _ _
    · rfl
  · have hunread : ((d.goes me prog net).nets r).unread p = (d.nets r).unread p := by
      rw [nets_goes]
      split_ifs with hrme
      · rw [hnet.unread_eq, hrme]
      · rfl
    obtain ⟨ready, left, hchannel, hon⟩ := h.links p hp r hr
    rw [hunread, transit_goes]
    by_cases hlink : (⟨p, r⟩ : Link) = ⟨me, q⟩
    · obtain ⟨rfl, rfl⟩ := Link.mk.inj hlink
      refine ⟨ready, left ++ [packet'], ?_, ?_⟩
      · rw [← List.append_assoc, ← hchannel]
        exact Function.update_self _ _ _
      · rw [if_pos rfl, hnet.written_eq, Function.update_self, List.drop_append_of_le_length (h.arrived p hp r hr),
          heq.toAllocvec]
        exact hon.push hsendable
    · refine ⟨ready, left, (Function.update_of_ne hlink _ _).trans hchannel, ?_⟩
      split_ifs with hpme
      · have hrq : r ≠ q := fun hrq => hlink (by rw [hpme, hrq])
        rw [hnet.written_eq, Function.update_of_ne hrq, ← hpme]
        exact hon
      · exact hon

theorem Shows.left_eq_nil (hwire : WireSized codec) (hfeed : LengthDelimited.Feeds socketCodec feed)
    (h : d.Shows codec feed parties s) (hme : me ∈ parties)
    (hon : OnWay codec feed unread (d.buffers ⟨me, me⟩) (d.transit ⟨me, me⟩) ready left) : left = [] := by
  obtain ⟨channel, hchannel⟩ := (h.nets me hme).loopBack
  have hwritten : (d.nets me).written me = [] := by
    rw [TcpNetwork.written, hchannel]
    rfl
  rw [transit, hwritten, List.drop_nil] at hon
  exact hon.left_eq_nil hwire hfeed

theorem Shows.kept (hwire : WireSized codec) (hfeed : LengthDelimited.Feeds socketCodec feed)
    (h : d.Shows codec feed parties s) (hme : me ∈ parties) (heq : packet.Equal packet') {prog prog' : Prog ρ}
    (halike : prog.Alike parties prog') {net : TcpBackend}
    (hnet : net.Contains parties me (d.nets me).written
      (Function.update (d.nets me).unread me ((d.nets me).unread me ++ [.ok packet]))) :
    (d.goes me prog net).Shows codec feed parties (s.proceed me (.sendTo me packet') prog') := by
  refine h.goes halike hnet.toOpen (fun r _ => le_of_eq (by rw [hnet.written_eq])) rfl fun p hp r hr => ?_
  have htransit : (d.goes me prog net).transit ⟨p, r⟩ = d.transit ⟨p, r⟩ := by
    rw [transit_goes]
    split_ifs with hpme
    · rw [hnet.written_eq, ← hpme]
      rfl
    · rfl
  obtain ⟨ready, left, hchannel, hon⟩ := h.links p hp r hr
  rw [htransit, nets_goes]
  by_cases hlink : (⟨p, r⟩ : Link) = ⟨me, me⟩
  · obtain ⟨rfl, rfl⟩ := Link.mk.inj hlink
    obtain rfl := h.left_eq_nil hwire hfeed hp hon
    refine ⟨ready ++ [packet'], [], ?_, ?_⟩
    · rw [List.append_nil] at hchannel ⊢
      rw [← hchannel]
      exact Function.update_self _ _ _
    · rw [if_pos rfl, hnet.unread_eq, Function.update_self]
      refine { hon with unread := List.rel_append hon.unread (.cons ⟨packet, rfl, heq⟩ .nil) }
  · refine ⟨ready, left, (Function.update_of_ne hlink _ _).trans hchannel, ?_⟩
    split_ifs with hrme
    · have hpme : p ≠ me := fun hpme => hlink (by rw [hpme, hrme])
      rw [hnet.unread_eq, Function.update_of_ne hpme, ← hrme]
      exact hon
    · exact hon

theorem Shows.taken (h : d.Shows codec feed parties s) (hme : me ∈ parties) (hq : q ∈ parties)
    {r : Except NetworkError Packet} {rest : List (Except NetworkError Packet)}
    (hunread : (d.nets me).unread q = r :: rest) :
    ∃ packet packet', r = .ok packet ∧ packet.Equal packet' ∧ (s.channels ⟨q, me⟩).head? = some packet' ∧
      ∀ {prog prog' : Prog ρ}, prog.Alike parties prog' → ∀ {net : TcpBackend},
        net.Contains parties me (d.nets me).written (Function.update (d.nets me).unread q rest) →
        (d.goes me prog net).Shows codec feed parties (s.take ⟨q, me⟩ packet' prog') := by
  obtain ⟨ready, left, hchannel, hon⟩ := h.links q hq me hme
  have hread := hon.unread
  rw [hunread] at hread
  obtain ⟨packet', ready, ⟨packet, rfl, heq⟩, hrest, rfl⟩ := List.forall₂_cons_left_iff.mp hread
  refine ⟨packet, packet', rfl, heq, by rw [hchannel]; rfl, fun {prog prog'} halike {net} hnet => ?_⟩
  refine h.goes halike hnet.toOpen (fun r _ => le_of_eq (by rw [hnet.written_eq])) rfl fun p hp r hr => ?_
  have htransit : (d.goes me prog net).transit ⟨p, r⟩ = d.transit ⟨p, r⟩ := by
    rw [transit_goes]
    split_ifs with hpme
    · rw [hnet.written_eq, ← hpme]
      rfl
    · rfl
  rw [htransit, nets_goes]
  by_cases hlink : (⟨p, r⟩ : Link) = ⟨q, me⟩
  · obtain ⟨rfl, rfl⟩ := Link.mk.inj hlink
    refine ⟨ready, left, ?_, ?_⟩
    · refine (Function.update_self _ _ _).trans ?_
      rw [hchannel]
      rfl
    · rw [if_pos rfl, hnet.unread_eq, Function.update_self]
      exact { hon with unread := hrest }
  · obtain ⟨ready', left', hchannel', hon'⟩ := h.links p hp r hr
    refine ⟨ready', left', (Function.update_of_ne hlink _ _).trans hchannel', ?_⟩
    split_ifs with hrme
    · have hpq : p ≠ q := fun hpq => hlink (by rw [hpq, hrme])
      rw [hnet.unread_eq, Function.update_of_ne hpq, ← hrme]
      exact hon'
    · exact hon'

theorem Shows.proceeds (h : d.Shows codec feed parties s) (hme : me ∈ parties) {op : NetOp}
    (hsend : ∀ q packet, op ≠ .sendTo q packet) {prog prog' : Prog ρ} (halike : prog.Alike parties prog') :
    (d.goes me prog (d.nets me)).Shows codec feed parties (s.proceed me op prog') := by
  have hdispatch : op.dispatch me s.channels = s.channels := by
    cases op with
    | sendTo q packet => exact absurd rfl (hsend q packet)
    | recvFrom | recvAny | recvFromWithTimeout | recvAnyWithTimeout | record => rfl
  refine h.goes halike (h.nets me hme) (fun r _ => le_rfl) rfl fun p hp r hr => ?_
  have hnets : ∀ q, (d.goes me prog (d.nets me)).nets q = d.nets q := by
    intro q
    rw [nets_goes]
    split_ifs with hq
    · rw [hq]
    · rfl
  have htransit : (d.goes me prog (d.nets me)).transit ⟨p, r⟩ = d.transit ⟨p, r⟩ := by
    rw [transit, transit, hnets]
    rfl
  rw [htransit, hnets, NetState.proceed, hdispatch]
  exact h.links p hp r hr

/-! ### Bytes arrive -/

theorem ofFrame_toAllocvec (packet : Packet) :
    Packet.ofFrame codec (.ok (packet.toAllocvec codec)) = .ok packet.received := by
  simp only [Packet.ofFrame, Packet.toAllocvec, bind, Except.bind, codec.fromBytes_toAllocvec, Packet.received,
    List.map_map]
  rfl

theorem Shows.carried (hwire : WireSized codec) (hfeed : LengthDelimited.Feeds socketCodec feed)
    (h : d.Shows codec feed parties s) {p : PartyId} (hp : p ∈ parties) (hq : q ∈ parties) {n : Nat} (hn : 0 < n)
    (hle : n ≤ (d.transit ⟨p, q⟩).length) : (d.carry codec feed ⟨p, q⟩ n).Shows codec feed parties s := by
  obtain ⟨ready, left, hchannel, hon⟩ := h.links p hp q hq
  have hne : p ≠ q := by
    rintro rfl
    obtain rfl := h.left_eq_nil hwire hfeed hp hon
    have hnil := (List.append_eq_nil_iff.mp hon.bytes).2
    rw [hnil] at hle
    exact absurd hle (Nat.not_le.mpr hn)
  obtain ⟨done, left, rest, rfl, hread, hon, -⟩ := hon.carry hwire hfeed n
  have harrivals : ((done.map (Packet.toAllocvec codec)).map Except.ok).map
      (fun frame => Arrival.packet p (Packet.ofFrame codec frame)) =
      (done.map fun packet => .ok packet.received).map (.packet p) := by
    rw [List.map_map, List.map_map, List.map_map]
    exact List.map_congr_left fun packet _ => congrArg (Arrival.packet p) (ofFrame_toAllocvec packet)
  have hnet := (h.nets q hq).arriveAll hp hne (done.map fun packet => .ok packet.received)
  obtain ⟨net, hdef⟩ : ∃ net, net = (d.nets q).arriveAll ((done.map fun packet => .ok packet.received).map
    (.packet p)) := ⟨_, rfl⟩
  rw [← hdef] at hnet
  have hcarry : d.carry codec feed ⟨p, q⟩ n =
      { d with
        nets := Function.update d.nets q net
        buffers := Function.update d.buffers ⟨p, q⟩ rest
        arrived := Function.update d.arrived ⟨p, q⟩ (d.arrived ⟨p, q⟩ + n) } := by
    rw [carry, hread, hdef, ← harrivals]
  have hwritten : ∀ r, (Function.update d.nets q net r).written = (d.nets r).written := by
    intro r
    rw [Function.update_apply]
    split_ifs with hr
    · rw [hnet.written_eq, hr]
    · rfl
  have hlength : d.arrived ⟨p, q⟩ + n ≤ ((d.nets p).written q).length := by
    have hlen : (d.transit ⟨p, q⟩).length = ((d.nets p).written q).length - d.arrived ⟨p, q⟩ := List.length_drop
    have := h.arrived p hp q hq
    omega
  rw [hcarry]
  refine ⟨h.progs, fun r hr => ?_, fun a ha b hb => ?_, fun a ha b hb => ?_⟩
  · change (Function.update d.nets q net r).Open parties r
    rw [Function.update_apply]
    split_ifs with hrq
    · exact hrq ▸ hnet.toOpen
    · exact h.nets r hr
  · change Function.update d.arrived ⟨p, q⟩ (d.arrived ⟨p, q⟩ + n) ⟨a, b⟩ ≤
      ((Function.update d.nets q net a).written b).length
    rw [hwritten, Function.update_apply]
    split_ifs with hlink
    · obtain ⟨rfl, rfl⟩ := Link.mk.inj hlink
      exact hlength
    · exact h.arrived a ha b hb
  · change Holds codec feed ((Function.update d.nets q net b).unread a)
      (Function.update d.buffers ⟨p, q⟩ rest ⟨a, b⟩) (((Function.update d.nets q net a).written b).drop
        (Function.update d.arrived ⟨p, q⟩ (d.arrived ⟨p, q⟩ + n) ⟨a, b⟩)) (s.channels ⟨a, b⟩)
    rw [hwritten]
    by_cases hlink : (⟨a, b⟩ : Link) = ⟨p, q⟩
    · obtain ⟨rfl, rfl⟩ := Link.mk.inj hlink
      rw [Function.update_self, Function.update_self, Function.update_self, hnet.unread_eq, Function.update_self,
        ← List.drop_drop]
      exact ⟨ready ++ done, left, by rw [hchannel, List.append_assoc], hon⟩
    · rw [Function.update_of_ne hlink, Function.update_of_ne hlink]
      have hunread : (Function.update d.nets q net b).unread a = (d.nets b).unread a := by
        rw [Function.update_apply]
        split_ifs with hbq
        · have hap : a ≠ p := fun hap => hlink (by rw [hap, hbq])
          rw [hnet.unread_eq, Function.update_of_ne hap, hbq]
        · rfl
      rw [hunread]
      exact h.links a ha b hb

/-! ### Steps -/

theorem step_cases {event : Event} (hstep : d.step codec feed parties event = some d') :
    (∃ me ∈ parties, ∃ order elapsed op next out net, order.Perm ((d.nets me).receivers.map Prod.fst) ∧
      d.progs me = .call op next ∧ (d.nets me).perform codec order elapsed op = (some out, net) ∧
      d' = d.goes me (next out) net) ∨
    ∃ p ∈ parties, ∃ q ∈ parties, ∃ n, 0 < n ∧ n ≤ (d.transit ⟨p, q⟩).length ∧
      d' = d.carry codec feed ⟨p, q⟩ n := by
  cases event with
  | acts me order elapsed =>
    rw [step] at hstep
    split_ifs at hstep with hguard
    cases hprog : d.progs me with
    | ret | panic =>
      rw [hprog] at hstep
      cases hstep
    | call op next =>
      rw [hprog] at hstep
      simp only at hstep
      obtain ⟨out, net, hperform⟩ : ∃ out net, (d.nets me).perform codec order elapsed op = (out, net) := ⟨_, _, rfl⟩
      rw [hperform] at hstep
      cases out with
      | none => cases hstep
      | some out =>
        exact .inl ⟨me, hguard.1, order, elapsed, op, next, out, net, hguard.2, hprog, hperform,
          (Option.some.inj hstep).symm⟩
  | carries link n =>
    rw [step] at hstep
    split_ifs at hstep with hguard
    obtain ⟨p, q⟩ := link
    obtain ⟨hp, hq, hn, hle⟩ := hguard
    exact .inr ⟨p, hp, q, hq, n, hn, hle, (Option.some.inj hstep).symm⟩

/-- **One step** on sockets is one step of the network, or none. -/
theorem Shows.step (hwire : WireSized codec) (hfeed : LengthDelimited.Feeds socketCodec feed)
    (h : d.Shows codec feed parties s) (hfits : s.Fits parties) {event : Event}
    (hstep : d.step codec feed parties event = some d') :
    d'.Shows codec feed parties s ∨ ∃ act s', s.step parties act = some s' ∧ d'.Shows codec feed parties s' := by
  obtain ⟨me, hme, order, elapsed, op, next, out, net, horder, hprog, hperform, rfl⟩ |
    ⟨p, hp, q, hq, n, hn, hle, rfl⟩ := step_cases hstep
  · have hopen := h.nets me hme
    have halike := h.progs me hme
    rw [hprog] at halike
    have hperforms := hopen.performs hme (horder.trans hopen.keys) halike.within hperform
    refine .inr ?_
    cases hperforms with
    | @sent q packet _ hne hnet =>
      obtain ⟨packet', next', hprog', heq, hnext⟩ := halike.sent
      have hact : s.step parties (.goes me) = some (s.proceed me (.sendTo q packet') (next' (.ok packet'.size))) :=
        NetState.step_eq_some.mpr ⟨hme, _, next', hprog', .inl ⟨rfl, _, rfl, rfl⟩⟩
      have hmem : packet' ∈ pushPacket s.channels ⟨me, q⟩ packet' ⟨me, q⟩ := by
        rw [pushPacket, Function.update_self]
        exact List.mem_append_right _ (List.mem_singleton_self _)
      exact ⟨.goes me, _, hact, h.sent (hfits.step hact [] _ rfl _ _ hmem) heq hnext hnet⟩
    | kept hnet =>
      obtain ⟨packet', next', hprog', heq, hnext⟩ := halike.sent
      refine ⟨.goes me, _, NetState.step_eq_some.mpr ⟨hme, _, next', hprog', .inl ⟨rfl, _, rfl, rfl⟩⟩, ?_⟩
      exact h.kept hwire hfeed hme heq hnext hnet
    | @received _ q r rest _ _ hq hawaits hunread hout hnet =>
      obtain ⟨packet, packet', rfl, heq, hhead, htaken⟩ := h.taken hme hq hunread
      obtain ⟨next', out', hprog', hout', hnext⟩ := halike.received hq heq (hout packet rfl)
      refine ⟨.hears me q, _, NetState.step_eq_some.mpr ⟨hme, op, next', hprog',
        .inr ⟨q, packet', out', rfl, hawaits, hhead, hout', rfl⟩⟩, ?_⟩
      exact htaken hnext hnet
    | goes hsend hout =>
      obtain ⟨next', hprog', hnext⟩ := halike.goes hsend hout
      refine ⟨.goes me, _, NetState.step_eq_some.mpr ⟨hme, op, next', hprog', .inl ⟨rfl, out, hout, rfl⟩⟩, ?_⟩
      exact h.proceeds hme hsend hnext
  · exact .inl (h.carried hwire hfeed hp hq hn hle)

/-- **A run** on sockets is a schedule of the network. -/
theorem Shows.run (hwire : WireSized codec) (hfeed : LengthDelimited.Feeds socketCodec feed)
    (h : d.Shows codec feed parties s) (hfits : s.Fits parties) {events : List Event}
    (hrun : d.run codec feed parties events = some d') :
    ∃ schedule s', s.run parties schedule = some s' ∧ d'.Shows codec feed parties s' := by
  induction events generalizing d s with
  | nil => exact ⟨[], s, rfl, Option.some.inj hrun ▸ h⟩
  | cons event events ih =>
    obtain ⟨d₁, hstep, hrun⟩ := Option.bind_eq_some_iff.mp hrun
    obtain hshows | ⟨act, s₁, hact, hshows⟩ := h.step hwire hfeed hfits hstep
    · exact ih hshows hfits hrun
    · obtain ⟨schedule, s', hschedule, hshows'⟩ := ih hshows (hfits.step hact) hrun
      exact ⟨act :: schedule, s', NetState.run_cons.mpr ⟨s₁, hact, hschedule⟩, hshows'⟩

/-! ### Where nothing more happens -/

theorem Maximal.transit_eq_nil (hmax : d.Maximal codec feed parties) {p : PartyId} (hp : p ∈ parties)
    (hq : q ∈ parties) : d.transit ⟨p, q⟩ = [] := by
  by_contra hne
  have hnone := hmax (.carries ⟨p, q⟩ 1)
  rw [step, if_pos ⟨hp, hq, Nat.one_pos, List.length_pos_of_ne_nil hne⟩] at hnone
  cases hnone

theorem Shows.unread_of_maximal (hwire : WireSized codec) (hfeed : LengthDelimited.Feeds socketCodec feed)
    (h : d.Shows codec feed parties s) (hmax : d.Maximal codec feed parties) {p : PartyId} (hp : p ∈ parties)
    (hq : q ∈ parties) :
    List.Forall₂ (fun r packet => ∃ packet', r = .ok packet' ∧ packet'.Equal packet) ((d.nets q).unread p)
      (s.channels ⟨p, q⟩) := by
  obtain ⟨ready, left, hchannel, hon⟩ := h.links p hp q hq
  rw [hmax.transit_eq_nil hp hq] at hon
  obtain rfl := hon.left_eq_nil hwire hfeed
  rw [hchannel, List.append_nil]
  exact hon.unread

/-- **Where nothing more happens on sockets**, no schedule goes on. -/
theorem Shows.maximal (hwire : WireSized codec) (hfeed : LengthDelimited.Feeds socketCodec feed)
    (h : d.Shows codec feed parties s) (hmax : d.Maximal codec feed parties) : s.Maximal parties := by
  intro act
  rw [Option.eq_none_iff_forall_ne_some]
  intro s' hs'
  obtain ⟨hme, op', next', hprog', hstep⟩ := NetState.step_eq_some.mp hs'
  have halike := h.progs act.party hme
  rw [hprog'] at halike
  obtain ⟨op, next, hprog, hlocal, hawaits⟩ := halike.call
  have hwithin : op.Within parties := (hprog ▸ h.progs act.party hme).within
  have hready : op.localOut ≠ none ∨
      ∃ q ∈ parties, (⟨q, act.party⟩ : Link) ∈ op.awaits act.party parties ∧ (d.nets act.party).unread q ≠ [] := by
    obtain ⟨-, out, hout, -⟩ | ⟨sender, packet, -, -, hmem, hhead, -, -⟩ := hstep
    · refine .inl fun hnone => ?_
      rw [hlocal hnone] at hout
      cases hout
    · rw [hawaits] at hmem
      have hsender : sender ∈ parties := by
        cases op with
        | sendTo | record => cases hmem
        | recvFrom | recvFromWithTimeout =>
          obtain rfl := congrArg Link.sender (List.mem_singleton.mp hmem)
          exact hwithin
        | recvAny | recvAnyWithTimeout =>
          obtain ⟨p, hp, heq⟩ := List.mem_map.mp hmem
          obtain rfl := congrArg Link.sender heq
          exact hp
      refine .inr ⟨sender, hsender, hmem, fun hnil => ?_⟩
      have hunread := h.unread_of_maximal hwire hfeed hmax hsender hme
      rw [hnil, List.forall₂_nil_left_iff] at hunread
      rw [hunread] at hhead
      cases hhead
  have hopen := h.nets act.party hme
  obtain ⟨elapsed, out, net, hperform⟩ := @TcpNetwork.Open.exists_perform codec _ _ _ hopen hme _ hwithin hready
  have hnone := hmax (.acts act.party parties elapsed)
  rw [Deployment.step, if_pos ⟨hme, hopen.keys.symm⟩, hprog] at hnone
  simp only [hperform] at hnone
  cases hnone

/-! ### The beginning -/

section
variable {checks : Bool} {config : NetworkConfig} {env : Connecting} {network : TcpNetwork Connection Connection}

theorem open_opened {id : Nat} (hid : id < config.peerIps.length)
    (hcreate : create checks id config env = some (.ok network)) :
    network.opened.Open (List.range config.peerIps.length) id ∧ (∀ q, network.opened.written q = []) ∧
      ∀ q, network.opened.unread q = [] := by
  have hintended := intended_of_create hid hcreate
  have hkeys : (network.opened.writers.map Prod.fst).Perm (List.range config.peerIps.length) := by
    rw [opened, List.map_map]
    exact hintended.writers
  have hkeys' : (network.opened.receivers.map Prod.fst).Perm (List.range config.peerIps.length) := by
    rw [opened, List.map_map, hintended.receivers]
    exact hintended.writers
  have hwriter : ∀ {q connection}, (q, connection) ∈ network.writers →
      network.opened.writers.lookup q = some connection.writer := fun {q connection} hmem =>
    Insertions.lookup_of_mem (hkeys.nodup_iff.mpr List.nodup_range)
      (List.mem_map_of_mem (f := fun e : PartyId × Connection => (e.1, e.2.writer)) hmem)
  have hstreams : ∀ e ∈ network.opened.receivers, e.2 = ⟨[], false⟩ := by
    intro e he
    obtain ⟨e', -, rfl⟩ := List.mem_map.mp he
    rfl
  have hstream : ∀ q stream, network.opened.stream q = some stream → stream = ⟨[], false⟩ := by
    intro q stream hlookup
    obtain ⟨l, l', heq, -⟩ := List.lookup_eq_some_iff.mp hlookup
    exact hstreams (q, stream) (heq ▸ List.mem_append_right _ List.mem_cons_self)
  have hunread : ∀ q, network.opened.unread q = [] := by
    intro q
    rw [TcpNetwork.unread]
    cases hlookup : network.opened.stream q with
    | none => rfl
    | some stream =>
      rw [hstream q stream hlookup]
      rfl
  refine ⟨⟨hintended.localPartyId, fun q hq hne => ?_, ⟨[], hwriter hintended.loopBack⟩, hkeys', fun q hq => ?_⟩,
    fun q => ?_, hunread⟩
  · refine ⟨[], ?_⟩
    obtain hlt | hlt := Nat.lt_or_gt_of_ne hne
    · obtain ⟨_, -, hmem⟩ := hintended.dialled q hlt
      exact hwriter hmem
    · obtain ⟨_, -, hmem⟩ := hintended.accepted q hlt (List.mem_range.mp hq)
      exact hwriter hmem
  · cases hlookup : network.opened.stream q with
    | none => exact absurd (hkeys'.mem_iff.mpr hq) (stream_eq_none_iff.mp hlookup)
    | some stream => rw [hstream q stream hlookup, hunread]
  · rw [TcpNetwork.written]
    cases hlookup : network.opened.writers.lookup q with
    | none => rfl
    | some writer =>
      obtain ⟨l, l', heq, -⟩ := List.lookup_eq_some_iff.mp hlookup
      have hmem : (q, writer) ∈ network.opened.writers := heq ▸ List.mem_append_right _ List.mem_cons_self
      obtain ⟨⟨q', connection⟩, -, heq⟩ := List.mem_map.mp hmem
      obtain ⟨-, rfl⟩ := Prod.mk.inj heq
      cases connection <;> rfl

end

section
variable {checks : Bool} {config : NetworkConfig} {env : PartyId → Connecting}
  {networks : PartyId → TcpNetwork Connection Connection} {program : PartyId → Prog ρ}

theorem shows_connected (hfeed : LengthDelimited.Feeds socketCodec feed)
    (hcreate : ∀ p < config.peerIps.length, create checks p config (env p) = some (.ok (networks p)))
    (hportable : ∀ p < config.peerIps.length, (program p).Portable (List.range config.peerIps.length)) :
    (connected networks program).Shows codec feed (List.range config.peerIps.length) (.init program) where
  progs p hp := hportable p (List.mem_range.mp hp)
  nets p hp := (open_opened (List.mem_range.mp hp) (hcreate p (List.mem_range.mp hp))).1
  arrived p hp q hq := Nat.zero_le _
  links p hp q hq := by
    obtain ⟨-, hwritten, -⟩ := open_opened (List.mem_range.mp hp) (hcreate p (List.mem_range.mp hp))
    obtain ⟨-, -, hunread⟩ := open_opened (List.mem_range.mp hq) (hcreate q (List.mem_range.mp hq))
    refine ⟨[], [], rfl, ?_, ?_, hfeed.nil, by simp⟩
    · change List.Forall₂ _ ((networks q).opened.unread p) []
      rw [hunread]
      exact .nil
    · change [] ++ ((networks p).opened.written q).drop 0 = _
      rw [hwritten]
      rfl

end

/-! ### The end -/

theorem writers_arriveAll (net : TcpBackend) (arrivals : List Arrival) :
    (net.arriveAll arrivals).writers = net.writers :=
  arriveAll_induction (P := fun net' => net'.writers = net.writers) (fun net' arrival h => by
    rw [TcpNetwork.arrive]
    split
    · exact h
    · exact h) rfl arrivals

theorem transit_carry (d : Deployment ρ) (link link' : Link) (n : Nat) :
    (d.carry codec feed link n).transit link' =
      if link' = link then (d.transit link).drop n else d.transit link' := by
  have hwritten : ∀ p q, ((d.carry codec feed link n).nets p).written q = (d.nets p).written q := by
    intro p q
    rw [carry, TcpNetwork.written, TcpNetwork.written]
    simp only [Function.update_apply]
    split_ifs with hp
    · rw [writers_arriveAll, hp]
    · rfl
  rw [transit, hwritten, carry]
  simp only [Function.update_apply]
  split_ifs with hlink
  · rw [hlink, transit, List.drop_drop]
  · rfl

variable (parties) in
def onTheWay (d : Deployment ρ) : Nat :=
  (parties.map fun p => (parties.map fun q => (d.transit ⟨p, q⟩).length).sum).sum

theorem onTheWay_carry (d : Deployment ρ) {p : PartyId} (hp : p ∈ parties) (hq : q ∈ parties) {n : Nat}
    (hn : 0 < n) (hle : n ≤ (d.transit ⟨p, q⟩).length) :
    (d.carry codec feed ⟨p, q⟩ n).onTheWay parties < d.onTheWay parties := by
  have hlink : ∀ a b, ((d.carry codec feed ⟨p, q⟩ n).transit ⟨a, b⟩).length ≤ (d.transit ⟨a, b⟩).length := by
    intro a b
    rw [transit_carry]
    split_ifs with h
    · rw [h, List.length_drop]
      exact Nat.sub_le _ _
    · rfl
  refine List.sum_lt_sum _ _ (fun a _ => List.sum_le_sum fun b _ => hlink a b) ⟨p, hp, ?_⟩
  refine List.sum_lt_sum _ _ (fun b _ => hlink p b) ⟨q, hq, ?_⟩
  rw [transit_carry, if_pos rfl, List.length_drop]
  omega

variable (parties) in
noncomputable def ranks (d : Deployment ρ) : {p // p ∈ parties} → Ordinal.{0} := fun p => (d.progs p).rank

theorem ranks_goes (hme : me ∈ parties) {op : NetOp} {next : op.Out → Prog ρ} (hprog : d.progs me = .call op next)
    (out : op.Out) (net : TcpBackend) : (d.goes me (next out) net).ranks parties < d.ranks parties := by
  have hlt : (next out).rank < (d.progs me).rank := hprog ▸ Prog.rank_next_lt next out
  refine Pi.lt_def.mpr ⟨fun p => ?_, ⟨me, hme⟩, ?_⟩
  · rw [ranks, ranks, progs_goes]
    split_ifs with hp
    · exact hp ▸ hlt.le
    · rfl
  · rw [ranks, ranks, progs_goes, if_pos rfl]
    exact hlt

theorem measure_lt {event : Event} (hstep : d.step codec feed parties event = some d') :
    toLex (d'.ranks parties, d'.onTheWay parties) < toLex (d.ranks parties, d.onTheWay parties) := by
  obtain ⟨me, hme, -, -, op, next, out, net, -, hprog, -, rfl⟩ | ⟨p, hp, q, hq, n, hn, hle, rfl⟩ := step_cases hstep
  · exact Prod.Lex.toLex_lt_toLex.mpr (.inl (ranks_goes hme hprog out net))
  · exact Prod.Lex.toLex_lt_toLex.mpr (.inr ⟨rfl, onTheWay_carry d hp hq hn hle⟩)

theorem exists_maximal (d : Deployment ρ) :
    ∃ events d', d.run codec feed parties events = some d' ∧ d'.Maximal codec feed parties := by
  induction hμ : toLex (d.ranks parties, d.onTheWay parties) using WellFoundedLT.induction generalizing d with
  | ind a ih =>
    subst hμ
    by_cases hmax : d.Maximal codec feed parties
    · exact ⟨[], d, rfl, hmax⟩
    · obtain ⟨event, hevent⟩ := not_forall.mp hmax
      obtain ⟨d', hstep⟩ := Option.ne_none_iff_exists'.mp hevent
      obtain ⟨events, d'', hrun, hmax'⟩ := ih _ (measure_lt hstep) d' rfl
      refine ⟨event :: events, d'', ?_, hmax'⟩
      rw [run, hstep]
      exact hrun

/-! ### All runs -/

section
variable {checks : Bool} {config : NetworkConfig} {env : PartyId → Connecting}
  {networks : PartyId → TcpNetwork Connection Connection}

/-- **Sockets carry the asynchronous network.** Whatever portable code does on created networks, and however
bytes arrive, it does in a schedule of the network. Every run can be continued until nothing more happens;
then the schedule is maximal too, and what is left to be read is what is left on the network's links. -/
theorem sockets_refine {program : PartyId → Prog ρ} (hwire : WireSized codec)
    (hfeed : LengthDelimited.Feeds socketCodec feed)
    (hcreate : ∀ p < config.peerIps.length, create checks p config (env p) = some (.ok (networks p)))
    (hportable : ∀ p < config.peerIps.length, (program p).Portable (List.range config.peerIps.length))
    (hfits : (NetState.init program).Fits (List.range config.peerIps.length)) {events : List Event}
    (hrun : (connected networks program).run codec feed (List.range config.peerIps.length) events = some d) :
    (∃ rest d', d.run codec feed (List.range config.peerIps.length) rest = some d' ∧
        d'.Maximal codec feed (List.range config.peerIps.length)) ∧
      ∃ schedule s, (NetState.init program).run (List.range config.peerIps.length) schedule = some s ∧
        (∀ p < config.peerIps.length, ∀ r, d.progs p = .ret r ↔ s.progs p = .ret r) ∧
        (d.Maximal codec feed (List.range config.peerIps.length) →
          s.Maximal (List.range config.peerIps.length) ∧
          ∀ p < config.peerIps.length, ∀ q < config.peerIps.length,
            List.Forall₂ (fun r packet => ∃ packet', r = .ok packet' ∧ packet'.Equal packet)
              ((d.nets q).unread p) (s.channels ⟨p, q⟩)) := by
  obtain ⟨schedule, s, hschedule, hshows⟩ := (shows_connected hfeed hcreate hportable).run hwire hfeed hfits hrun
  refine ⟨exists_maximal d, schedule, s, hschedule, fun p hp r => ?_, fun hmax => ⟨?_, fun p hp q hq => ?_⟩⟩
  · exact (hshows.progs p (List.mem_range.mpr hp)).ret_iff r
  · exact hshows.maximal hwire hfeed hmax
  · exact hshows.unread_of_maximal hwire hfeed hmax (List.mem_range.mpr hp) (List.mem_range.mpr hq)

theorem ends_of_carries {program : PartyId → Prog ρ} {result : PartyId → ρ} {traffic : Link → List Packet}
    (hwire : WireSized codec) (hfeed : LengthDelimited.Feeds socketCodec feed)
    (hcreate : ∀ p < config.peerIps.length, create checks p config (env p) = some (.ok (networks p)))
    (hportable : ∀ p < config.peerIps.length, (program p).Portable (List.range config.peerIps.length))
    (hcarries : (NetState.init program).Carries (List.range config.peerIps.length) result traffic)
    (hsendable : ∀ link, ∀ packet ∈ traffic link, packet.Sendable) {events : List Event}
    (hrun : (connected networks program).run codec feed (List.range config.peerIps.length) events = some d) :
    (∃ rest d', d.run codec feed (List.range config.peerIps.length) rest = some d' ∧
        d'.Maximal codec feed (List.range config.peerIps.length)) ∧
      (d.Maximal codec feed (List.range config.peerIps.length) → ∀ p < config.peerIps.length,
        d.progs p = .ret (result p) ∧ ∀ q < config.peerIps.length, (d.nets p).unread q = []) := by
  obtain ⟨schedule, s, hschedule, hshows⟩ :=
    (shows_connected hfeed hcreate hportable).run hwire hfeed (hcarries.fits hsendable) hrun
  refine ⟨exists_maximal d, fun hmax p hp => ?_⟩
  have hmax' := hshows.maximal hwire hfeed hmax
  refine ⟨?_, fun q hq => ?_⟩
  · rw [(hshows.progs p (List.mem_range.mpr hp)).ret_iff]
    exact hcarries.results schedule s hschedule hmax' p (List.mem_range.mpr hp)
  · have hunread := hshows.unread_of_maximal hwire hfeed hmax (List.mem_range.mpr hq) (List.mem_range.mpr hp)
    rwa [hcarries.empty schedule s hschedule hmax', List.forall₂_nil_right_iff] at hunread

/-- **The simulator predicts what happens on sockets.** Code that names its senders has the same results in a
simulation that ends, with any delays, and on created networks when nothing more happens there; and the same
packets are left. -/
theorem simulation_predicts_sockets (sim : Simulation ρ) (hparties : sim.parties = List.range config.peerIps.length)
    (hdirected : (NetState.init sim.program).Directed sim.parties) (hwire : WireSized codec)
    (hfeed : LengthDelimited.Feeds socketCodec feed)
    (hcreate : ∀ p < config.peerIps.length, create checks p config (env p) = some (.ok (networks p)))
    (hportable : ∀ p < config.peerIps.length, (sim.program p).Portable (List.range config.peerIps.length))
    (hfits : (NetState.init sim.program).Fits (List.range config.peerIps.length)) {k : Nat} {s : SimState ρ}
    (hsteps : (SimState.init sim).steps sim k = some s) (hstops : s.Stops sim) {events : List Event}
    (hrun : (connected networks sim.program).run codec feed (List.range config.peerIps.length) events = some d)
    (hmax : d.Maximal codec feed (List.range config.peerIps.length)) :
    (∀ p < config.peerIps.length, ∀ r, s.outputs p = some r ↔ d.progs p = .ret r) ∧
      ∀ p < config.peerIps.length, ∀ q < config.peerIps.length,
        List.Forall₂ (fun r packet => ∃ packet', r = .ok packet' ∧ packet'.Equal packet)
          ((d.nets q).unread p) (s.sb.pending ⟨p, q⟩) := by
  have hreach := Reachable.init.steps hsteps
  have hended := hreach.ended hstops
  obtain ⟨schedule, N, hschedule, hN⟩ := hreach.refines hdirected
  have hdirN := hdirected.run hschedule
  obtain ⟨schedule', t, hschedule', hshows⟩ := (shows_connected hfeed hcreate hportable).run hwire hfeed hfits hrun
  -- both are the final state of the network
  obtain ⟨n, final, -, hfinal⟩ := hdirected.exists_final
  have hmaxN : N = final := (hfinal schedule N hschedule).2.1 (hN.maximal hreach.wake hended hdirN)
  have hmaxt : t = final := by
    rw [hparties] at hfinal
    exact (hfinal schedule' t hschedule').2.1 (hshows.maximal hwire hfeed hmax)
  obtain rfl : N = t := hmaxN.trans hmaxt.symm
  refine ⟨fun p hp r => ?_, fun p hp q hq => ?_⟩
  · have hp' : p ∈ sim.parties := hparties ▸ List.mem_range.mpr hp
    rw [(hN.shows hreach hended hdirN).outputs p hp' r, (hshows.progs p (List.mem_range.mpr hp)).ret_iff r]
  · rw [← hN.channels]
    exact hshows.unread_of_maximal hwire hfeed hmax (List.mem_range.mpr hp) (List.mem_range.mpr hq)

end

/-! ### Two parties -/

/-- What the two parties create: party 0 accepts party 1. -/
def pairNetworks : PartyId → TcpNetwork Connection Connection
  | 0 => twoConnected
  | _ => ⟨1, [(0, .dialled ⟨0, 5000⟩), (1, .loopBack)], [(0, .dialled ⟨0, 5000⟩), (1, .loopBack)]⟩

theorem create_pairNetworks : ∀ p < 2, create true p ⟨5000, [0, 0]⟩ twoParties = some (.ok (pairNetworks p))
  | 0, _ => rfl
  | 1, _ => rfl

/-- Each of two parties sends the other its id. -/
def introduction : Simulation (Except NetworkError Nat) where
  parties := [0, 1]
  distinct := nodup_pair
  delay _ _ := 0
  program me := .call (.sendTo (1 - me) (Packet.empty.writeLabeled (.ofCodec .varint) me "id")) fun _ =>
    .call (.recvFrom (1 - me)) fun
      | .error e => .ret (.error e)
      | .ok packet => .ret (packet.pop (.ofCodec .varint))

theorem sockets_feed : LengthDelimited.Feeds socketCodec (LengthDelimited.feed socketCodec NetworkError.ioError) :=
  LengthDelimited.feeds_feed _ (by decide)

theorem introduction_directed : (NetState.init introduction.program).Directed introduction.parties :=
  fun _ _ => .sendTo fun _ => .recvFrom fun
    | .error _ => .ret _
    | .ok _ => .ret _

theorem introduction_portable : ∀ p < 2, (introduction.program p).Portable (List.range 2) := by
  intro p hp
  have hmem : 1 - p ∈ List.range 2 := List.mem_range.mpr (by omega)
  refine .sendTo hmem (.refl _) (.recvFrom hmem fun packet packet' heq => ?_)
  dsimp only
  rw [heq.pop]
  exact .ret _

theorem introduction_fits : (NetState.init introduction.program).Fits (List.range 2) := by
  refine NetState.fits_of_onlySends fun p hp => .sendTo ?_ fun _ => .recvFrom fun
    | .error _ => .ret _
    | .ok _ => .ret _
  have hsendable : ∀ p < 2, (Packet.empty.writeLabeled (.ofCodec .varint) p "id").wireSize ≤ 8 * 1024 * 1024 := by
    decide +kernel
  exact hsendable p (List.mem_range.mp hp)

theorem sockets_refine_introduction : ∃ events d,
    (connected pairNetworks introduction.program).run packetCodec
      (LengthDelimited.feed socketCodec NetworkError.ioError) (List.range 2) events = some d ∧
    ∃ schedule s, (NetState.init introduction.program).run (List.range 2) schedule = some s ∧
      s.Maximal (List.range 2) ∧ ∀ p < 2, ∀ r, d.progs p = .ret r ↔ s.progs p = .ret r := by
  obtain ⟨events, d, hrun, hmax⟩ := exists_maximal (connected pairNetworks introduction.program)
  obtain ⟨-, schedule, s, hschedule, hresults, hend⟩ := @sockets_refine _ _ _ _ true ⟨5000, [0, 0]⟩
    (fun _ => twoParties) pairNetworks _ wireSized_packetCodec sockets_feed create_pairNetworks
    introduction_portable introduction_fits _ hrun
  exact ⟨events, d, hrun, schedule, s, hschedule, (hend hmax).1, hresults⟩

theorem simulation_predicts_introduction : ∃ s, (SimState.init introduction).steps introduction 14 = some s ∧
    ∃ events d, (connected pairNetworks introduction.program).run packetCodec
        (LengthDelimited.feed socketCodec NetworkError.ioError) (List.range 2) events = some d ∧
      ∀ p < 2, ∀ r, s.outputs p = some r ↔ d.progs p = .ret r := by
  have hs := (Option.some_get (x := (SimState.init introduction).steps introduction 14) rfl).symm
  obtain ⟨events, d, hrun, hmax⟩ := exists_maximal (connected pairNetworks introduction.program)
  have hpredicts := @simulation_predicts_sockets _ _ _ _ true ⟨5000, [0, 0]⟩ (fun _ => twoParties) pairNetworks
    introduction rfl introduction_directed wireSized_packetCodec sockets_feed create_pairNetworks
    introduction_portable introduction_fits _ _ hs (.inl rfl) _ hrun hmax
  exact ⟨_, hs, events, d, hrun, hpredicts.1⟩

end Deployment

end SclRs
