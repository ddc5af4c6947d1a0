import SclRs.Math.Ec
import SclRs.Math.Ec.Order
import SclRs.Net.Addressing
import SclRs.Net.Outcome
import SclRs.Protocol.Sequence
import SclRs.Ss.FeldmanWire

/-!
# Schnorr's proof of knowledge

`examples/schnorr_pok.rs`: the prover commits to a nonce, the verifier draws a challenge, the prover
responds, and the verifier compares. What a party draws is a parameter of its code. The commitment crosses
the wire as a point, which its decoding checks: the nonce zero commits to the point at infinity, which the
verifier cannot read.
-/

namespace SclRs

/-- `postcard`'s view of a type whose decoding may reject what its encoding writes. -/
structure Serde (α : Type) where
  toAllocvec : α → List UInt8
  fromBytes : List UInt8 → Option α

namespace Serde

variable {α : Type} (serde : Serde α)

/-- A packet with one labelled object. -/
def labeled [Abbreviate α] (obj : α) : Packet :=
  ⟨[⟨serde.toAllocvec obj, some (Abbreviate.abbreviation α)⟩]⟩

def pop (p : Packet) : Except NetworkError α :=
  match p.elements.getLast? with
  | none => .error .emptyPacket
  | some e =>
    match serde.fromBytes e.bytes with
    | none => .error .serializationError
    | some obj => .ok obj

theorem pop_labeled [Abbreviate α] {obj obj' : α}
    (h : serde.fromBytes (serde.toAllocvec obj) = some obj') :
    serde.pop (serde.labeled obj) = .ok obj' := by
  simp [pop, labeled, h]

theorem pop_labeled_error [Abbreviate α] {obj : α} (h : serde.fromBytes (serde.toAllocvec obj) = none) :
    serde.pop (serde.labeled obj) = .error .serializationError := by
  simp [pop, labeled, h]

end Serde

instance {m : Nat} : Abbreviate (ModUint m) := ⟨"field elem."⟩

instance : Abbreviate Secp256k1 := ⟨"EC elem."⟩

/-- Points, with the check of `try_from`. -/
def Secp256k1.serde [CryptoBigint] (codec : Postcard Coordinates) : Serde Secp256k1 :=
  ⟨serialize codec, deserialize codec⟩

/-- `SchnorrPok`: the prover is the party that holds a witness. -/
structure SchnorrPok (C S : Type) where
  x : Option S
  h : C

namespace SchnorrPok

section
variable {C S : Type}

def prover (x : S) (h : C) : SchnorrPok C S := ⟨some x, h⟩

def verifier (h : C) : SchnorrPok C S := ⟨none, h⟩

variable [EllipticCurve C S] [RingOps S] [Abbreviate C] [Abbreviate S] (serde : Serde C)
  (codec : Postcard S)

/-- The prover's moves, with the nonce `r`. -/
def prove (other : PartyId) (r x : S) : Proto S (Option Bool) := do
  let u ← Proto.ofOption (EllipticCurve.scalarMul (EllipticCurve.gen : C) r)
  let _ ← Proto.network (Prog.op (.sendTo other (serde.labeled u)))
  let pktC ← Proto.network (Prog.op (.recvFrom other))
  let c ← Proto.ofNetwork (pktC.pop codec)
  let z := RingOps.add r (RingOps.mul c x)
  let _ ← Proto.network (Prog.op (.sendTo other (Packet.labeled codec z)))
  return none

/-- The verifier's final check; `none` where a multiplication panics. -/
def check (h u : C) (c z : S) : Option Bool := do
  let leftSide ← EllipticCurve.scalarMul (EllipticCurve.gen : C) z
  let rightSide := EllipticCurve.add u (← EllipticCurve.scalarMul h c)
  return EllipticCurve.eq leftSide rightSide

/-- The verifier's moves, with the challenge `c`. -/
def verify (other : PartyId) (c : S) (h : C) : Proto S (Option Bool) := do
  let recvUPkt ← Proto.network (Prog.op (.recvFrom other))
  let u ← Proto.ofNetwork (serde.pop recvUPkt)
  let _ ← Proto.network (Prog.op (.sendTo other (Packet.labeled codec c)))
  let pktZ ← Proto.network (Prog.op (.recvFrom other))
  let z ← Proto.ofNetwork (pktZ.pop codec)
  let verdict ← Proto.ofOption (check h u c z)
  return some verdict

/-- `run`, where the party draws `random`. -/
def run (checks : Bool) (network : SimNetwork) (random : S) (protocol : SchnorrPok C S) :
    Proto S (Option Bool) := do
  let other ← Proto.ofOption (network.other checks)
  let other ← Proto.ofNetwork other
  match protocol.x with
  | some x => prove serde codec other random x
  | none => verify serde codec other random protocol.h

def execute (checks : Bool) (network : SimNetwork) (random : S) (protocol : SchnorrPok C S) :
    Proto S (Option Bool) :=
  Proto.execute "SchnorrPok" (protocol.run serde codec checks network random)

def net (checks : Bool) (parties : List PartyId) (p : PartyId) (h : C) (x r c : S) :
    NetState (Except (ProtocolError S) (Option Bool)) :=
  NetState.init fun me =>
    ((if me = p then prover x h else verifier h).execute serde codec checks ⟨me, parties⟩
      (if me = p then r else c)).run

end

/-! ### The three moves -/

section
variable {C S : Type} [EllipticCurve C S] [RingOps S] [Abbreviate C] [Abbreviate S] {serde : Serde C}
  {codec : Postcard S} {checks : Bool} {parties : List PartyId} {p v : PartyId} {h u : C} {x r c : S}
  {verdict : Bool}

/-- Commitment and response one way, the challenge the other. -/
def script (serde : Serde C) (codec : Postcard S) (p v : PartyId) (u : C) (c z : S) : Script where
  packets link :=
    if link = ⟨p, v⟩ then [serde.labeled u, Packet.labeled codec z]
    else if link = ⟨v, p⟩ then [Packet.labeled codec c]
    else []
  time link i := if link = ⟨p, v⟩ then 2 * i else 1
  unread _ := 0

omit [EllipticCurve C S] [RingOps S] in
theorem script_prover (z : S) : (script serde codec p v u c z).packets ⟨p, v⟩ =
    [serde.labeled u, Packet.labeled codec z] := if_pos rfl

omit [EllipticCurve C S] [RingOps S] in
theorem script_verifier (hne : v ≠ p) (z : S) :
    (script serde codec p v u c z).packets ⟨v, p⟩ = [Packet.labeled codec c] := by
  have hlink : (⟨v, p⟩ : Link) ≠ ⟨p, v⟩ := fun h => hne (congrArg Link.sender h)
  simp [script, hlink]

omit [EllipticCurve C S] [RingOps S] in
theorem script_time_verifier (hne : v ≠ p) (z : S) (i : Nat) :
    (script serde codec p v u c z).time ⟨v, p⟩ i = 1 :=
  if_neg fun h => hne (congrArg Link.sender h)

omit [EllipticCurve C S] [RingOps S] in
theorem script_length (z : S) (link : Link) :
    ((script serde codec p v u c z).packets link).length =
      if link = ⟨p, v⟩ then 2 else if link = ⟨v, p⟩ then 1 else 0 := by
  simp only [script]
  split_ifs <;> rfl

theorem prove_leads (hv : v ∈ parties) (hne : v ≠ p)
    (hu : EllipticCurve.scalarMul (EllipticCurve.gen : C) r = some u) :
    (prove serde codec v r x).Leads
      (script serde codec p v u c (RingOps.add r (RingOps.mul c x))) parties NetState.anyone p .start
      (· = none) (((Progress.start.sends [v]).receives [v] 2).sends [v]) := by
  refine (Proto.leads_ofOption hu).bind ?_
  rintro _ rfl
  refine (Proto.leads_sendTo (congrArg (·[0]?) (script_prover _)) (Nat.zero_le _)).bind fun _ _ => ?_
  refine (Proto.leads_recvFrom hv trivial (congrArg (·[0]?) (script_verifier hne _)) (Nat.zero_le 2)
    ?_).bind ?_
  · rw [script_time_verifier hne]
    exact Nat.one_lt_two
  · rintro _ rfl
    refine (Proto.leads_ofNetwork (Packet.pop_labeled codec c)).bind ?_
    rintro _ rfl
    refine (Proto.leads_sendTo ?_ ?_).bind fun _ _ => Proto.leads_pure rfl
    · have hsent : ((Progress.start.sends [v]).receives [v] 2).sent v = 1 := by simp [Progress.start]
      rw [hsent, script_prover]
      rfl
    · have hsent : ((Progress.start.sends [v]).receives [v] 2).sent v = 1 := by simp [Progress.start]
      rw [hsent]
      exact (if_pos rfl).ge

theorem verify_leads (hp : p ∈ parties) (hne : v ≠ p)
    (hwire : serde.fromBytes (serde.toAllocvec u) = some u)
    (hcheck : check h u c (RingOps.add r (RingOps.mul c x)) = some verdict) :
    (verify serde codec p c h).Leads
      (script serde codec p v u c (RingOps.add r (RingOps.mul c x))) parties NetState.anyone v .start
      (· = some verdict) (((Progress.start.receives [p] 1).sends [p]).receives [p] 3) := by
  have hreceived : ((Progress.start.receives [p] 1).sends [p]).received p = 1 := by simp [Progress.start]
  have hpacket : ((script serde codec p v u c (RingOps.add r (RingOps.mul c x))).packets ⟨p, v⟩)[((
      Progress.start.receives [p] 1).sends [p]).received p]? =
      some (Packet.labeled codec (RingOps.add r (RingOps.mul c x))) := by
    rw [hreceived, script_prover]
    rfl
  refine (Proto.leads_recvFrom hp trivial (congrArg (·[0]?) (script_prover _)) (Nat.zero_le 1)
    ((if_pos rfl).trans_lt Nat.zero_lt_one)).bind ?_
  rintro _ rfl
  refine (Proto.leads_ofNetwork (serde.pop_labeled hwire)).bind ?_
  rintro _ rfl
  refine (Proto.leads_sendTo (congrArg (·[0]?) (script_verifier hne _))
    (script_time_verifier hne _ _).ge).bind fun _ _ => ?_
  refine (Proto.leads_recvFrom hp trivial hpacket (show 1 ≤ 3 by decide) ?_).bind ?_
  · rw [hreceived]
    exact (if_pos rfl).trans_lt (show 2 * 1 < 3 by decide)
  · rintro _ rfl
    refine (Proto.leads_ofNetwork (Packet.pop_labeled codec _)).bind ?_
    rintro _ rfl
    refine (Proto.leads_ofOption hcheck).bind ?_
    rintro _ rfl
    exact Proto.leads_pure rfl

theorem prove_follows (hv : v ∈ parties) (hne : v ≠ p)
    (hu : EllipticCurve.scalarMul (EllipticCurve.gen : C) r = some u) :
    (Proto.execute "SchnorrPok" (prove serde codec v r x)).run.Follows
      (script serde codec p v u c (RingOps.add r (RingOps.mul c x))) parties NetState.anyone p
      (· = .ok none) (fun _ => 0) (fun _ => 0) 0 := by
  refine (prove_leads hv hne hu).execute.follows (fun q => ?_) fun q => ?_
  · rw [script_length]
    obtain rfl | hq := eq_or_ne q v
    · simp [Progress.start]
    · simp [Progress.start, hq, hne.symm, List.count_eq_zero_of_not_mem]
  · rw [script_length]
    obtain rfl | hq := eq_or_ne q v
    · simp [Progress.start, script, hne]
    · simp [Progress.start, script, hq, hne.symm, List.count_eq_zero_of_not_mem]

theorem verify_follows (hp : p ∈ parties) (hne : v ≠ p)
    (hwire : serde.fromBytes (serde.toAllocvec u) = some u)
    (hcheck : check h u c (RingOps.add r (RingOps.mul c x)) = some verdict) :
    (Proto.execute "SchnorrPok" (verify serde codec p c h)).run.Follows
      (script serde codec p v u c (RingOps.add r (RingOps.mul c x))) parties NetState.anyone v
      (· = .ok (some verdict)) (fun _ => 0) (fun _ => 0) 0 := by
  refine (verify_leads hp hne hwire hcheck).execute.follows (fun q => ?_) fun q => ?_
  · rw [script_length]
    obtain rfl | hq := eq_or_ne q p
    · simp [Progress.start, hne]
    · simp [Progress.start, hq, hne, List.count_eq_zero_of_not_mem]
  · rw [script_length]
    obtain rfl | hq := eq_or_ne q p
    · simp [Progress.start, script]
    · simp [Progress.start, script, hq, hne, List.count_eq_zero_of_not_mem]

theorem execute_directed {network : SimNetwork} {random : S} {protocol : SchnorrPok C S} :
    (protocol.execute serde codec checks network random).Directed := by
  refine Proto.Directed.execute ((Proto.directed_ofOption _).bind fun _ =>
    (Proto.directed_ofNetwork _).bind fun other => ?_)
  cases protocol.x with
  | some x =>
    refine (Proto.directed_ofOption _).bind fun u => (Proto.directed_sendTo _ _).bind fun _ => ?_
    refine (Proto.directed_recvFrom _).bind fun _ => (Proto.directed_ofNetwork _).bind fun c => ?_
    exact (Proto.directed_sendTo _ _).bind fun _ => Proto.directed_pure _
  | none =>
    refine (Proto.directed_recvFrom _).bind fun _ => (Proto.directed_ofNetwork _).bind fun u => ?_
    refine (Proto.directed_sendTo _ _).bind fun _ => (Proto.directed_recvFrom _).bind fun _ => ?_
    exact (Proto.directed_ofNetwork _).bind fun z => (Proto.directed_ofOption _).bind fun _ =>
      Proto.directed_pure _

variable (serde codec v x) in
theorem prove_begins (hu : EllipticCurve.scalarMul (EllipticCurve.gen : C) r = some u) :
    ∃ next, (Proto.execute "SchnorrPok" (prove serde codec v r x)).run =
        .call (.record (.protocolBegin "SchnorrPok")) (fun _ => .call (.sendTo v (serde.labeled u)) next) ∧
      ∀ n, ∃ rest, next (.ok n) = .call (.recvFrom v) rest := by
  rw [prove, hu]
  exact ⟨_, rfl, fun n => ⟨_, rfl⟩⟩

variable (codec p c h) in
omit [RingOps S] in
theorem verify_begins (hwire : serde.fromBytes (serde.toAllocvec u) = none) :
    ∃ next : Except NetworkError Packet → Prog (Except (ProtocolError S) (Option Bool)),
      (Proto.execute "SchnorrPok" (verify serde codec p c h)).run =
        .call (.record (.protocolBegin "SchnorrPok")) (fun _ => .call (.recvFrom p) next) ∧
      next (.ok (serde.labeled u)) = .call (.record (.protocolEnd "SchnorrPok")) fun _ =>
        .ret (.error (.network .serializationError)) := by
  refine ⟨_, rfl, ?_⟩
  change ((Proto.ofNetwork (serde.pop (serde.labeled u)) >>= _ : Proto S _).run >>= _) = _
  rw [serde.pop_labeled_error hwire]
  rfl

/-- The verifier has failed to read the commitment, and the prover waits for a challenge. -/
structure Unread (p v : PartyId) (t : NetState (Except (ProtocolError S) (Option Bool))) : Prop where
  failed : t.progs v = .ret (.error (.network .serializationError))
  waits : ∃ next, t.progs p = .call (.recvFrom v) next

theorem reaches_unread (hp : p ∈ parties) (hv : v ∈ parties) (hparties : ∀ q ∈ parties, q = p ∨ q = v)
    (hne : v ≠ p) (hu : EllipticCurve.scalarMul (EllipticCurve.gen : C) r = some u)
    (hwire : serde.fromBytes (serde.toAllocvec u) = none)
    {s : NetState (Except (ProtocolError S) (Option Bool))}
    (hprover : s.progs p = (Proto.execute "SchnorrPok" (prove serde codec v r x)).run)
    (hverifier : s.progs v = (Proto.execute "SchnorrPok" (verify serde codec p c h)).run)
    (hempty : ∀ link, s.channels link = []) :
    s.Reaches parties fun t => t.Maximal parties ∧ Unread p v t := by
  obtain ⟨next, hbegin, hwaits⟩ := prove_begins serde codec v x hu
  obtain ⟨next', hbegin', hfails⟩ := verify_begins codec p h c hwire
  obtain ⟨rest, hrest⟩ := hwaits (serde.labeled u).size
  rw [hbegin] at hprover
  rw [hbegin'] at hverifier
  refine .goes p _ _ hp hprover rfl (.goes p _ _ hp (Function.update_self ..) rfl ?_)
  refine .goes v (.record (.protocolBegin "SchnorrPok")) (fun _ => .call (.recvFrom p) next') hv ?_ rfl ?_
  · simp [NetState.proceed, hne, hverifier]
  · refine .hears v p next' (serde.labeled u) hv ?_ ?_ ?_
    · simp [NetState.proceed]
    · simp [NetState.proceed, NetOp.dispatch, pushPacket, hempty]
    · rw [hfails]
      refine .goes v (.record (.protocolEnd "SchnorrPok")) _ hv (Function.update_self ..) rfl (.here ?_)
      have hlink : (⟨v, p⟩ : Link) ≠ ⟨p, v⟩ := fun h => hne (congrArg Link.sender h)
      refine ⟨NetState.maximal_of_blocked fun q hq => ?_, Function.update_self .., rest, ?_⟩
      · obtain rfl | rfl := hparties q hq
        · refine .inr ⟨v, rest, ?_, ?_⟩
          · simp [NetState.proceed, NetState.take, hne.symm, hrest]
          · simp [NetState.proceed, NetState.take, NetOp.dispatch, pushPacket, dropPacket, hlink, hempty]
        · exact .inl ⟨_, Function.update_self ..⟩
      · simp [NetState.proceed, NetState.take, hne.symm, hrest]

end

/-! ### Over secp256k1 -/

section
open ModUint Secp256k1

variable [CryptoBigint] {codec : Postcard Coordinates} {scalars : Postcard Secp256k1ScalarField}
  {checks : Bool} {parties : List PartyId} {p v : PartyId} {h u : Secp256k1} {H U : Secp256k1.Point}
  {x r c z c' z' : Secp256k1ScalarField}

theorem check_spec (hh : h.Represents H) (hu : u.Represents U) (hc : c.Canonical) (hz : z.Canonical) :
    ∃ verdict, check h u c z = some verdict ∧
      (verdict = true ↔ z.toZMod • genPoint = U + c.toZMod • H) := by
  obtain ⟨left, hleft, hleftRep⟩ := gen_represents.smul hz
  obtain ⟨right, hright, hrightRep⟩ := hh.smul hc
  refine ⟨left.eq (u.add right), ?_, hleftRep.eq_iff (hu.add hrightRep)⟩
  change (gen.scalarMul z).bind (fun l => (h.scalarMul c).bind fun m => some (l.eq (u.add m))) = _
  rw [hleft, hright]
  rfl

theorem response_spec (hr : r.Canonical) :
    (RingOps.add r (RingOps.mul c x)).Canonical ∧
      (RingOps.add r (RingOps.mul c x)).toZMod = r.toZMod + c.toZMod * x.toZMod := by
  have hmul := mul_spec c x
  have hadd := add_spec hr hmul.1
  rw [hmul.2] at hadd
  exact hadd

omit [CryptoBigint] in
theorem smul_gen_eq_zero (hr : r.Canonical) : r.toZMod • genPoint = 0 ↔ r = zero := by
  rw [toZMod, Nat.cast_smul_eq_nsmul, nsmul_gen_eq_zero]
  constructor
  · exact fun h => congrArg ModUint.mk (hr.toZMod_eq_zero.mp h)
  · rintro rfl
    exact toZMod_zero

omit [CryptoBigint] in
theorem smul_eq_smul_iff (hc : c.Canonical) {A B : Secp256k1.Point} :
    c.toZMod • A = c.toZMod • B ↔ c = zero ∨ A = B := by
  by_cases hzero : c = zero
  · subst hzero
    simp only [toZMod_zero, zero_smul_point, true_or]
  · have hunit : IsUnit c.toZMod :=
      .mk0 _ fun h => hzero (congrArg ModUint.mk (hc.toZMod_eq_zero.mp h))
    rw [hunit.smul_left_cancel, or_iff_right hzero]

variable (codec) in
theorem wire_commitment (hu : u.Represents U) :
    (Secp256k1.serde codec).fromBytes ((Secp256k1.serde codec).toAllocvec u) =
      if u.isPointAtInfinity = false then some u else none := by
  change (codec.fromBytes (codec.toAllocvec u.coordinates)).bind
    (fun value => (tryFrom value).toOption) = _
  rw [codec.fromBytes_toAllocvec, Option.bind_some, hu.tryFrom]

/-! ### Runs -/

omit [CryptoBigint] in
theorem ne_of_addsUp {p v : Nat} (hadd : SimNetwork.AddsUp checks p v) : v ≠ p := by
  rintro rfl
  have hsum : v + v = 1 ∨ checks = false ∧ v + v = 2 ^ 64 + 1 := hadd
  omega

omit [CryptoBigint] in
theorem addsUp_comm (hadd : SimNetwork.AddsUp checks p v) : SimNetwork.AddsUp checks v p := by
  rw [SimNetwork.AddsUp, Nat.add_comm v p]
  exact hadd

theorem net_prover (hwidth : ∀ q ∈ parties, q < 2 ^ 64) (hperm : parties.Perm [p, v])
    (hadd : SimNetwork.AddsUp checks p v) :
    (net (Secp256k1.serde codec) scalars checks parties p h x r c).progs p =
      (Proto.execute "SchnorrPok" (prove (C := Secp256k1) (Secp256k1.serde codec) scalars v r x)).run := by
  have hother : (⟨p, parties⟩ : SimNetwork).other checks = some (.ok v) :=
    (SimNetwork.other_eq_ok_iff hwidth hperm).mpr hadd
  simp only [net, NetState.init, if_true]
  rw [execute, run, hother]
  rfl

theorem net_verifier (hwidth : ∀ q ∈ parties, q < 2 ^ 64) (hperm : parties.Perm [p, v])
    (hadd : SimNetwork.AddsUp checks p v) :
    (net (Secp256k1.serde codec) scalars checks parties p h x r c).progs v =
      (Proto.execute "SchnorrPok" (verify (Secp256k1.serde codec) scalars p c h)).run := by
  have hother : (⟨v, parties⟩ : SimNetwork).other checks = some (.ok p) :=
    (SimNetwork.other_eq_ok_iff hwidth (hperm.trans (List.Perm.swap _ _ _))).mpr (addsUp_comm hadd)
  have hne := ne_of_addsUp hadd
  simp only [net, NetState.init, if_neg hne]
  rw [execute, run, hother]
  rfl

/-- **Every run ends with a verdict**, if the nonce is not zero: the verifier accepts the witness of the
statement, and no other unless the challenge is zero. -/
theorem completeness (hwidth : ∀ q ∈ parties, q < 2 ^ 64) (hperm : parties.Perm [p, v])
    (hadd : SimNetwork.AddsUp checks p v) (hh : h.Valid) (hx : x.Canonical) (hr : r.Canonical)
    (hc : c.Canonical) (hnonce : r ≠ zero) :
    ∃ verdict, (verdict = true ↔ c = zero ∨ ∃ y, gen.scalarMul x = some y ∧ y.eq h = true) ∧
      (net (Secp256k1.serde codec) scalars checks parties p h x r c).Completes parties fun me =>
        .ok (if me = p then none else some verdict) := by
  obtain ⟨H, hH⟩ := hh.exists_represents
  obtain ⟨u, hu, hU⟩ := gen_represents.smul hr
  obtain ⟨y, hy, hY⟩ := gen_represents.smul hx
  have hz := response_spec (c := c) (x := x) hr
  obtain ⟨verdict, hverdict, hiff⟩ := check_spec hH hU hc hz.1
  have hne := ne_of_addsUp hadd
  have hfinite : u.isPointAtInfinity = false := by
    rw [← Bool.not_eq_true, hU.isPointAtInfinity, smul_gen_eq_zero hr]
    exact hnonce
  have hwire := wire_commitment codec hU
  rw [if_pos hfinite] at hwire
  have hp : p ∈ parties := hperm.mem_iff.mpr (by simp)
  have hv : v ∈ parties := hperm.mem_iff.mpr (by simp)
  have hiff' : verdict = true ↔ c = zero ∨ ∃ y, gen.scalarMul x = some y ∧ y.eq h = true := by
    rw [hiff, hz.2, add_smul, add_right_inj, mul_smul, hy]
    simp only [Option.some.injEq, exists_eq_left', hY.eq_iff hH]
    exact smul_eq_smul_iff hc
  have hfollows : ∀ me ∈ parties, ((net (Secp256k1.serde codec) scalars checks parties p h x r c).progs me).Follows
      (script (Secp256k1.serde codec) scalars p v u c (RingOps.add r (RingOps.mul c x))) parties NetState.anyone
      me (· = .ok (if me = p then none else some verdict)) (fun _ => 0) (fun _ => 0) 0 := by
    intro me hme
    have hme' := hperm.mem_iff.mp hme
    simp only [List.mem_cons, List.not_mem_nil, or_false] at hme'
    obtain rfl | rfl := hme'
    · rw [net_prover hwidth hperm hadd, if_pos rfl]
      exact prove_follows hv hne hu
    · rw [net_verifier hwidth hperm hadd, if_neg hne]
      exact verify_follows hp hne hwire hverdict
  refine ⟨verdict, hiff', NetState.completes_of_follows (fun _ => rfl) (fun link hlink => ?_) hfollows⟩
  by_contra hout
  refine hlink ((if_neg ?_).trans (if_neg ?_))
  · rintro rfl
    exact hout ⟨hp, hv⟩
  · rintro rfl
    exact hout ⟨hv, hp⟩

omit [CryptoBigint] in
theorem completeness_gen :
    letI := CryptoBigint.reference
    ∃ verdict, (verdict = true ↔ (one : Secp256k1ScalarField) = zero ∨
        ∃ y, gen.scalarMul one = some y ∧ y.eq gen = true) ∧
      (net (Secp256k1.serde (.ofCodec coordinatesCodec)) (.ofCodec (fieldCodec _)) true [0, 1] 0 gen one one
        one).Completes [0, 1] fun me => .ok (if me = 0 then none else some verdict) := by
  let := CryptoBigint.reference
  exact completeness (v := 1) (by decide) (.refl _) (.inl rfl) gen_valid canonical_one canonical_one
    canonical_one (by decide)

/-- **The nonce zero** stops every run: the verifier cannot read the commitment, and the prover waits for a
challenge for ever. -/
theorem zero_nonce (hwidth : ∀ q ∈ parties, q < 2 ^ 64) (hperm : parties.Perm [p, v])
    (hadd : SimNetwork.AddsUp checks p v) {schedule : List Act}
    {t : NetState (Except (ProtocolError Secp256k1ScalarField) (Option Bool))}
    (hrun : (net (Secp256k1.serde codec) scalars checks parties p h x zero c).run parties schedule = some t)
    (hmax : t.Maximal parties) : Unread p v t := by
  obtain ⟨u, hu, hU⟩ := gen_represents.smul (k := (zero : Secp256k1ScalarField)) canonical_zero
  rw [toZMod_zero, zero_smul_point] at hU
  have hwire := wire_commitment codec hU
  rw [hU.isPointAtInfinity.mpr rfl, if_neg Bool.noConfusion] at hwire
  have hne := ne_of_addsUp hadd
  have hp : p ∈ parties := hperm.mem_iff.mpr (by simp)
  have hv : v ∈ parties := hperm.mem_iff.mpr (by simp)
  have hdirected : (net (Secp256k1.serde codec) scalars checks parties p h x zero c).Directed parties :=
    fun _ _ => execute_directed
  refine hdirected.all_of_reaches (reaches_unread hp hv (fun q hq => ?_) hne hu hwire
    (net_prover hwidth hperm hadd) (net_verifier hwidth hperm hadd) fun _ => rfl) hrun hmax
  simpa using hperm.mem_iff.mp hq

omit [CryptoBigint] in
theorem zero_nonce_gen :
    letI := CryptoBigint.reference
    ∃ schedule t, (net (Secp256k1.serde (.ofCodec coordinatesCodec)) (.ofCodec (fieldCodec _)) true [0, 1] 0 gen
        one zero one).run [0, 1] schedule = some t ∧ t.Maximal [0, 1] ∧ Unread 0 1 t := by
  let := CryptoBigint.reference
  obtain ⟨schedule, t, hrun, hmax⟩ := NetState.exists_maximal [0, 1]
    (net (Secp256k1.serde (.ofCodec coordinatesCodec)) (.ofCodec (fieldCodec _)) true [0, 1] 0 gen one zero one)
  exact ⟨schedule, t, hrun, hmax, zero_nonce (by decide) (.refl _) (.inl rfl) hrun hmax⟩

/-! ### What a transcript shows -/

theorem check_iff (hh : h.Represents H) (hu : u.Represents U) (hc : c.Canonical) (hz : z.Canonical) :
    check h u c z = some true ↔ z.toZMod • genPoint = U + c.toZMod • H := by
  obtain ⟨verdict, hverdict, hiff⟩ := check_spec hh hu hc hz
  rw [hverdict, Option.some.injEq, hiff]

/-- **Two answers to one commitment give the witness away.** It is `(z - z') / (c - c')`, and there is no
other. -/
theorem special_soundness (hh : h.Valid) (hu : u.Valid) (hc : c.Canonical) (hz : z.Canonical)
    (hc' : c'.Canonical) (hz' : z'.Canonical) (hne : c ≠ c') (haccept : check h u c z = some true)
    (haccept' : check h u c' z' = some true) :
    ∃ w : Secp256k1ScalarField, w.Canonical ∧ (z - z').div (c - c') = some (.ok w) ∧
      (∃ y, gen.scalarMul w = some y ∧ y.eq h = true) ∧
      ∀ k : Secp256k1ScalarField, k.Canonical → (∃ y, gen.scalarMul k = some y ∧ y.eq h = true) → k = w := by
  obtain ⟨H, hH⟩ := hh.exists_represents
  obtain ⟨U, hU⟩ := hu.exists_represents
  rw [check_iff hH hU hc hz] at haccept
  rw [check_iff hH hU hc' hz'] at haccept'
  have hdiff : (z.toZMod - z'.toZMod) • genPoint = (c.toZMod - c'.toZMod) • H := by
    rw [sub_smul, sub_smul, haccept, haccept', add_sub_add_left_eq_sub]
  have hne' : (c - c').toZMod ≠ 0 := by
    rw [(sub_spec hc hc').2, sub_ne_zero]
    exact fun h => hne (hc.ext hc' h)
  obtain ⟨d, hd, -, hdval⟩ := inverse_ok hne'
  have hw := mul_spec (z - z') d
  have hwH : ((z - z') * d).toZMod • genPoint = H := by
    rw [hw.2, hdval, mul_comm, mul_smul, (sub_spec hz hz').2, hdiff, ← (sub_spec hc hc').2, smul_smul,
      inv_mul_cancel₀ hne', one_smul]
  have hdiv : (z - z').div (c - c') = some (.ok ((z - z') * d)) := by
    rw [div, hd]
    rfl
  obtain ⟨y, hy, hyrep⟩ := gen_represents.smul hw.1
  rw [hwH] at hyrep
  refine ⟨(z - z') * d, hw.1, hdiv, ⟨y, hy, (hyrep.eq_iff hH).mpr rfl⟩, fun k hk hlog => ?_⟩
  obtain ⟨y', hy', heq⟩ := hlog
  obtain ⟨y'', hy'', hrep⟩ := gen_represents.smul hk
  obtain rfl := Option.some.inj (hy'.symm.trans hy'')
  exact hk.ext hw.1 (smul_gen_injective (((hrep.eq_iff hH).mp heq).trans hwH.symm))

omit [CryptoBigint] in
/-- The answers to one and to zero, by a prover with witness and nonce one. -/
theorem special_soundness_gen :
    letI := CryptoBigint.reference
    ∃ w : Secp256k1ScalarField, w.Canonical ∧ (one + one - one).div (one - zero) = some (.ok w) ∧
      (∃ y, gen.scalarMul w = some y ∧ y.eq gen = true) ∧
      ∀ k : Secp256k1ScalarField, k.Canonical → (∃ y, gen.scalarMul k = some y ∧ y.eq gen = true) →
        k = w := by
  let := CryptoBigint.reference
  have htwo := add_spec (m := scalarModulus) canonical_one canonical_one
  refine special_soundness (u := gen) gen_valid gen_valid canonical_one htwo.1 canonical_zero canonical_one
    (by decide) ?_ ?_
  · rw [check_iff gen_represents gen_represents canonical_one htwo.1, htwo.2, add_smul, toZMod_one, one_smul]
  · rw [check_iff gen_represents gen_represents canonical_zero canonical_one, toZMod_zero, zero_smul_point,
      add_zero, toZMod_one, one_smul]

/-- The commitment that a simulator chooses for a challenge and a response. -/
def simulate (h : Secp256k1) (c z : Secp256k1ScalarField) : Option Secp256k1 := do
  return (← gen.scalarMul z).sub (← h.scalarMul c)

theorem simulate_spec (hh : h.Represents H) (hc : c.Canonical) (hz : z.Canonical) :
    ∃ u, simulate h c z = some u ∧ u.Represents (z.toZMod • genPoint - c.toZMod • H) := by
  obtain ⟨gz, hgz, hgzRep⟩ := gen_represents.smul hz
  obtain ⟨hc', hhc, hhcRep⟩ := hh.smul hc
  refine ⟨gz.sub hc', ?_, hgzRep.sub hhcRep⟩
  rw [simulate, hgz, hhc]
  rfl

theorem bijOn_response (a : Secp256k1ScalarField) (ha : a.Canonical) :
    Set.BijOn (fun r : Secp256k1ScalarField => r + a) {r | r.Canonical} {z | z.Canonical} := by
  refine ⟨fun r hr => (add_spec hr ha).1, fun r hr r' hr' heq => ?_, fun z hz => ?_⟩
  · refine hr.ext hr' (add_right_cancel (b := a.toZMod) ?_)
    rw [← (add_spec hr ha).2, ← (add_spec hr' ha).2]
    exact congrArg toZMod heq
  · have hsub := sub_spec hz ha
    refine ⟨z - a, hsub.1, (add_spec hsub.1 ha).1.ext hz ?_⟩
    rw [(add_spec hsub.1 ha).2, hsub.2, sub_add_cancel]

/-- **Transcripts can be simulated without the witness**: the simulator's commitment to a challenge and a
response always passes the check, the prover's responses run through all scalars once when its nonces do,
and the transcript that it makes with a nonce is the simulator's for its response. -/
theorem honest_verifier_zero_knowledge (hh : h.Valid) (hc : c.Canonical) :
    (∀ z : Secp256k1ScalarField, z.Canonical →
      ∃ u, simulate h c z = some u ∧ u.Valid ∧ check h u c z = some true) ∧
    ∀ x : Secp256k1ScalarField, (∃ y, gen.scalarMul x = some y ∧ y.eq h = true) → x.Canonical →
      Set.BijOn (fun r : Secp256k1ScalarField => r + c * x) {r | r.Canonical} {z | z.Canonical} ∧
        ∀ r : Secp256k1ScalarField, r.Canonical →
          ∃ u u', gen.scalarMul r = some u ∧ simulate h c (r + c * x) = some u' ∧ u.eq u' = true := by
  obtain ⟨H, hH⟩ := hh.exists_represents
  constructor
  · intro z hz
    obtain ⟨u, hu, hU⟩ := simulate_spec hH hc hz
    refine ⟨u, hu, hU.valid, ?_⟩
    rw [check_iff hH hU hc hz, sub_add_cancel]
  · rintro x ⟨y, hy, heq⟩ hx
    refine ⟨bijOn_response _ (mul_spec c x).1, fun r hr => ?_⟩
    obtain ⟨u, hu, hU⟩ := gen_represents.smul hr
    obtain ⟨u', hu', hU'⟩ := simulate_spec hH hc (add_spec hr (mul_spec c x).1).1
    obtain ⟨y', hy', hY⟩ := gen_represents.smul hx
    obtain rfl := Option.some.inj (hy.symm.trans hy')
    refine ⟨u, u', hu, hu', (hU.eq_iff hU').mpr ?_⟩
    rw [(add_spec hr (mul_spec c x).1).2, (mul_spec c x).2, add_smul, mul_smul, (hY.eq_iff hH).mp heq,
      add_sub_cancel_right]

omit [CryptoBigint] in
theorem honest_verifier_zero_knowledge_gen :
    letI := CryptoBigint.reference
    (∀ z : Secp256k1ScalarField, z.Canonical →
      ∃ u, simulate gen one z = some u ∧ u.Valid ∧ check gen u one z = some true) ∧
    ∀ x : Secp256k1ScalarField, (∃ y, gen.scalarMul x = some y ∧ y.eq gen = true) → x.Canonical →
      Set.BijOn (fun r : Secp256k1ScalarField => r + one * x) {r | r.Canonical} {z | z.Canonical} ∧
        ∀ r : Secp256k1ScalarField, r.Canonical →
          ∃ u u', gen.scalarMul r = some u ∧ simulate gen one (r + one * x) = some u' ∧ u.eq u' = true := by
  let := CryptoBigint.reference
  exact honest_verifier_zero_knowledge gen_valid canonical_one

end

end SchnorrPok

end SclRs
