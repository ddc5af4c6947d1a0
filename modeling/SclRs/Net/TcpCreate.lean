import Mathlib.Algebra.Ring.Nat
import Mathlib.Data.Nat.Basic
import Mathlib.Order.Basic
import SclRs.Lib.Insertions
import SclRs.Net.Packet

/-!
# Creating a network

`TcpNetwork::create` dials the parties below its own, adds the loop-back channel, and accepts as many
connections as there are parties above, each under the id that it claims. What the operating system and
TLS answer is the environment `Connecting`. There is one insertion for each party, so that the final check
that every party is present leaves no room for a claim out of range or a claim made twice
(`create_intended`).
-/

namespace SclRs

open Lib.Insertions

structure SocketAddr where
  ip : BitVec 32
  port : Nat
deriving DecidableEq

/-- The fields of `NetworkConfig` that say where the parties are. -/
structure NetworkConfig where
  basePort : Nat
  peerIps : List (BitVec 32)

/-- `TcpNetwork`. Nothing may be read off the order of `writers`, a `HashMap`. -/
structure TcpNetwork (Writer Reader : Type) where
  localPartyId : PartyId
  writers : List (PartyId × Writer)
  receivers : List (PartyId × Reader)

/-- How a connection has come about; `accepted k` is the one that is accepted after `k` others. -/
inductive Connection
  | dialled (remoteAddress : SocketAddr)
  | loopBack
  | accepted (k : Nat)
deriving DecidableEq

/-- What the calls of `create` answer: `dial i` is `connect_as_client` for party `i`, and `accept k` is
`accept_connection` after `k` others, with the id that its peer claims. -/
structure Connecting where
  bind : SocketAddr → Except NetworkError Unit
  configureTls : Except NetworkError Unit
  dial : Nat → SocketAddr → Except NetworkError Unit
  accept : Nat → Except NetworkError PartyId

def u16Add (checks : Bool) (a b : Nat) : Option Nat :=
  if a + b < 2 ^ 16 then some (a + b) else if checks then none else some ((a + b) % 2 ^ 16)

/-- Where party `i` listens. -/
def NetworkConfig.address (checks : Bool) (config : NetworkConfig) (i : Nat) : Option SocketAddr := do
  let port ← u16Add checks config.basePort (i % 2 ^ 16)
  let ip ← config.peerIps[i]?
  return ⟨ip, port⟩

namespace TcpNetwork

/-- The maps that the loop fills, and how many connections have been accepted. -/
structure Connections where
  writers : List (PartyId × Connection)
  readers : List (PartyId × Connection)
  accepted : Nat

def Connections.insert (s : Connections) (party : PartyId) (connection : Connection) : Connections :=
  { s with
    readers := Lib.Insertions.insert s.readers party connection
    writers := Lib.Insertions.insert s.writers party connection }

section
variable (checks : Bool) (id : Nat) (config : NetworkConfig) (env : Connecting)

/-- One turn of the loop. -/
def connect (i : Nat) (s : Connections) : Option (Except NetworkError Connections) :=
  if i < id then do
    let remoteAddress ← config.address checks i
    match env.dial i remoteAddress with
    | .error e => return .error e
    | .ok () => return .ok (s.insert i (.dialled remoteAddress))
  else if id < i then
    match env.accept s.accepted with
    | .error e => some (.error e)
    | .ok remoteId =>
      some (.ok { s.insert remoteId (.accepted s.accepted) with accepted := s.accepted + 1 })
  else some (.ok (s.insert id .loopBack))

def connectAll : List Nat → Connections → Option (Except NetworkError Connections)
  | [], s => some (.ok s)
  | i :: is, s =>
    match connect checks id config env i s with
    | some (.ok s) => connectAll is s
    | r => r

def create : Option (Except NetworkError (TcpNetwork Connection Connection)) := do
  let serverAddress ← config.address checks id
  match env.bind serverAddress with
  | .error e => return .error e
  | .ok () =>
    match env.configureTls with
    | .error e => return .error e
    | .ok () =>
      match ← connectAll checks id config env (List.range config.peerIps.length) ⟨[], [], 0⟩ with
      | .error e => return .error e
      | .ok s =>
        match (List.range config.peerIps.length).find? (· ∉ s.writers.map Prod.fst) with
        | some i => return .error (.partyNotFound i)
        | none => return .ok ⟨id, s.writers, s.readers⟩

/-- One connection for each party: the parties below the own one are dialled, the own one is the
loop-back, and those above are accepted and have claimed their ids. -/
structure Intended (network : TcpNetwork Connection Connection) : Prop where
  localPartyId : network.localPartyId = id
  writers : (network.writers.map Prod.fst).Perm (List.range config.peerIps.length)
  receivers : network.receivers = network.writers
  dialled : ∀ i < id, ∃ remoteAddress, config.address checks i = some remoteAddress ∧
    (i, .dialled remoteAddress) ∈ network.writers
  loopBack : (id, .loopBack) ∈ network.writers
  accepted : ∀ i, id < i → i < config.peerIps.length → ∃ k, env.accept k = .ok i ∧
    (i, .accepted k) ∈ network.writers

/-- All connections are established, those accepted with these claims. -/
structure Established (claims : List PartyId) : Prop where
  bind : ∃ address, config.address checks id = some address ∧ env.bind address = .ok ()
  configureTls : env.configureTls = .ok ()
  dial : ∀ i < id, ∃ address, config.address checks i = some address ∧ env.dial i address = .ok ()
  accept : ∀ k (hk : k < claims.length), env.accept k = .ok claims[k]
  length : id + 1 + claims.length = config.peerIps.length

end

/-! ### The loop -/

section
variable {checks : Bool} {id : Nat} {config : NetworkConfig} {env : Connecting}

variable (checks id config env) in
/-- What the turn for party `i` inserts. -/
def entry (i : Nat) : PartyId × Connection :=
  if i < id then (i, .dialled ((config.address checks i).getD ⟨0, 0⟩))
  else if id < i then ((env.accept (i - (id + 1))).toOption.getD 0, .accepted (i - (id + 1)))
  else (id, .loopBack)

variable (checks id config env) in
/-- After the turns for the parties below `i`. -/
def connected (i : Nat) : Connections :=
  ⟨insertAll ((List.range i).map (entry checks id config env)),
    insertAll ((List.range i).map (entry checks id config env)), i - (id + 1)⟩

variable (checks id config env) in
/-- The turn for party `i` establishes a connection. -/
def Connects (i : Nat) : Prop :=
  (i < id → ∃ address, config.address checks i = some address ∧ env.dial i address = .ok ()) ∧
    (id < i → ∃ remoteId, env.accept (i - (id + 1)) = .ok remoteId)

theorem connected_succ (i : Nat) : connected checks id config env (i + 1) =
    { (connected checks id config env i).insert (entry checks id config env i).1 (entry checks id config env i).2 with
      accepted := i + 1 - (id + 1) } := by
  simp only [connected, Connections.insert, List.range_succ, List.map_append, List.map_singleton, insertAll_concat]

theorem connect_eq_ok {i : Nat} {s : Connections} :
    connect checks id config env i (connected checks id config env i) = some (.ok s) ↔
      Connects checks id config env i ∧ s = connected checks id config env (i + 1) := by
  rw [connected_succ, connect, entry, Connects]
  rcases lt_trichotomy i id with hlt | rfl | hlt
  · have haccepted : (connected checks id config env i).accepted = i + 1 - (id + 1) := by
      simp only [connected]
      omega
    simp only [hlt, hlt.not_gt, if_true, forall_const, IsEmpty.forall_iff, and_true, ← haccepted]
    cases haddress : config.address checks i with
    | none => simp
    | some address =>
      cases hdial : env.dial i address with
      | error e => simp [hdial]
      | ok => simp [hdial, Connections.insert, eq_comm]
  · have haccepted : (connected checks i config env i).accepted = i + 1 - (i + 1) := by
      simp only [connected]
      omega
    simp only [lt_self_iff_false, if_false, IsEmpty.forall_iff, and_true, true_and, ← haccepted,
      Option.some.injEq, Except.ok.injEq]
    exact eq_comm
  · have haccepted : (connected checks id config env i).accepted = i - (id + 1) := rfl
    simp only [hlt, hlt.not_gt, if_true, if_false, forall_const, IsEmpty.forall_iff, true_and, haccepted]
    cases haccept : env.accept (i - (id + 1)) with
    | error e => simp
    | ok remoteId =>
      have hsucc : i + 1 - (id + 1) = i - (id + 1) + 1 := by omega
      simp [hsucc, Except.toOption, eq_comm]

theorem connectAll_eq_ok {i m : Nat} {s : Connections} :
    connectAll checks id config env (List.range' i m) (connected checks id config env i) = some (.ok s) ↔
      (∀ j, i ≤ j → j < i + m → Connects checks id config env j) ∧ s = connected checks id config env (i + m) := by
  induction m generalizing i with
  | zero =>
    simp only [List.range'_zero, connectAll, Option.some.injEq, Except.ok.injEq, Nat.add_zero]
    exact ⟨fun h => ⟨fun j hj hlt => absurd hlt (not_lt.mpr hj), h.symm⟩, fun h => h.2.symm⟩
  | succ m ih =>
    rw [List.range'_succ, connectAll]
    constructor
    · intro h
      split at h
      · rename_i s' hs'
        obtain ⟨hconnects, rfl⟩ := connect_eq_ok.mp hs'
        obtain ⟨hrest, rfl⟩ := ih.mp h
        refine ⟨fun j hj hlt => ?_, by rw [Nat.add_right_comm, Nat.add_assoc]⟩
        obtain rfl | hj := hj.eq_or_lt
        · exact hconnects
        · exact hrest j hj (by omega)
      · rename_i hne
        exact absurd h (hne s)
    · rintro ⟨hall, rfl⟩
      have hfirst := connect_eq_ok.mpr ⟨hall i le_rfl (by omega), rfl⟩
      simp only [hfirst]
      refine ih.mpr ⟨fun j hj hlt => hall j (by omega) (by omega), ?_⟩
      rw [Nat.add_right_comm, Nat.add_assoc]

theorem connectAll_range {n : Nat} {s : Connections} :
    connectAll checks id config env (List.range n) ⟨[], [], 0⟩ = some (.ok s) ↔
      (∀ i < n, Connects checks id config env i) ∧ s = connected checks id config env n := by
  have hinit : connected checks id config env 0 = ⟨[], [], 0⟩ := by
    simp [connected, insertAll]
  have h := @connectAll_eq_ok checks id config env 0 n s
  rw [hinit, ← List.range_eq_range', Nat.zero_add] at h
  simpa using h

/-! ### Counting -/

variable (id env) in
/-- The claims of the connections that are accepted, of `m`. -/
def claimed (m : Nat) : List PartyId := (List.range m).map fun k => (env.accept k).toOption.getD 0

theorem keys_eq (m : Nat) :
    ((List.range (id + 1 + m)).map (entry checks id config env)).map Prod.fst =
      List.range (id + 1) ++ claimed env m := by
  rw [List.range_add, List.map_append, List.map_append, List.map_map, List.map_map, List.map_map]
  refine congrArg₂ _ ((List.map_congr_left fun i hi => ?_).trans (List.map_id _))
    (List.map_congr_left fun k _ => ?_)
  · rw [List.mem_range] at hi
    obtain hlt | rfl : i < id ∨ i = id := by omega
    · simp [entry, hlt]
    · simp [entry]
  · have hge : ¬ id + 1 + k < id := by omega
    have hlt : id < id + 1 + k := by omega
    simp [entry, hge, hlt]

theorem range_eq_append (i m : Nat) : List.range (i + 1 + m) = List.range (i + 1) ++ List.range' (i + 1) m := by
  rw [List.range_eq_range', List.range_eq_range', ← List.range'_append_1, Nat.zero_add]

/-- **As many claims as parties above**: all parties are present just when the claims are these parties. -/
theorem present_iff (m : Nat) :
    (∀ i < id + 1 + m, i ∈ (connected checks id config env (id + 1 + m)).writers.map Prod.fst) ↔
      (claimed env m).Perm (List.range' (id + 1) m) := by
  have hkeys : ∀ i, i ∈ (connected checks id config env (id + 1 + m)).writers.map Prod.fst ↔
      i ∈ List.range (id + 1) ++ claimed env m := fun i => by
    rw [connected, mem_keys_insertAll, keys_eq]
  simp only [hkeys]
  constructor
  · intro h
    have hperm : (List.range (id + 1) ++ claimed env m).Perm (List.range (id + 1 + m)) :=
      perm_of_forall_mem List.nodup_range (fun i hi => h i (List.mem_range.mp hi)) (by simp [claimed])
    rw [range_eq_append] at hperm
    exact (List.perm_append_left_iff _).mp hperm
  · intro h i hi
    have hperm := h.append_left (List.range (id + 1))
    rw [← range_eq_append] at hperm
    exact hperm.mem_iff.mpr (List.mem_range.mpr hi)

theorem connected_writers {m : Nat} (h : (claimed env m).Perm (List.range' (id + 1) m)) :
    (connected checks id config env (id + 1 + m)).writers =
      (List.range (id + 1 + m)).map (entry checks id config env) := by
  apply insertAll_of_nodup
  have hperm := h.append_left (List.range (id + 1))
  rw [← range_eq_append] at hperm
  rw [keys_eq, hperm.nodup_iff]
  exact List.nodup_range

/-! ### What is created -/

theorem create_eq_ok {network : TcpNetwork Connection Connection} :
    create checks id config env = some (.ok network) ↔
      (∃ address, config.address checks id = some address ∧ env.bind address = .ok ()) ∧
      env.configureTls = .ok () ∧ (∀ i < config.peerIps.length, Connects checks id config env i) ∧
      (∀ i < config.peerIps.length,
        i ∈ (connected checks id config env config.peerIps.length).writers.map Prod.fst) ∧
      network = ⟨id, (connected checks id config env config.peerIps.length).writers,
        (connected checks id config env config.peerIps.length).readers⟩ := by
  constructor
  · intro h
    obtain ⟨address, haddress, h⟩ := Option.bind_eq_some_iff.mp h
    cases hbind : env.bind address with
    | error e => simp [hbind] at h
    | ok =>
      cases htls : env.configureTls with
      | error e => simp [hbind, htls] at h
      | ok =>
        simp only [hbind, htls] at h
        obtain ⟨r, hr, h⟩ := Option.bind_eq_some_iff.mp h
        cases r with
        | error e => cases h
        | ok s =>
          obtain ⟨hconnects, rfl⟩ := connectAll_range.mp hr
          simp only at h
          split at h
          · cases h
          · rename_i hfind
            refine ⟨⟨address, haddress, hbind⟩, rfl, hconnects, fun i hi => ?_,
              (Except.ok.inj (Option.some.inj h)).symm⟩
            simpa using List.find?_eq_none.mp hfind i (List.mem_range.mpr hi)
  · rintro ⟨⟨address, haddress, hbind⟩, htls, hconnects, hpresent, rfl⟩
    have hall := connectAll_range.mpr ⟨hconnects, rfl⟩
    have hfind : (List.range config.peerIps.length).find?
        (· ∉ (connected checks id config env config.peerIps.length).writers.map Prod.fst) = none :=
      List.find?_eq_none.mpr fun i hi => by simpa using hpresent i (List.mem_range.mp hi)
    rw [create, haddress]
    simp only [Option.bind_eq_bind, Option.bind_some, hbind, htls, hall, hfind]
    rfl

theorem create_missing {claims : List PartyId} (h : Established checks id config env claims)
    (hconnects : ∀ i < config.peerIps.length, Connects checks id config env i)
    (hmissing : ¬ ∀ i < config.peerIps.length,
      i ∈ (connected checks id config env config.peerIps.length).writers.map Prod.fst) :
    ∃ i < config.peerIps.length, create checks id config env = some (.error (.partyNotFound i)) := by
  obtain ⟨address, haddress, hbind⟩ := h.bind
  have hall := connectAll_range.mpr ⟨hconnects, rfl⟩
  cases hfind : (List.range config.peerIps.length).find?
      (· ∉ (connected checks id config env config.peerIps.length).writers.map Prod.fst) with
  | none =>
    refine absurd (fun i hi => ?_) hmissing
    simpa using List.find?_eq_none.mp hfind i (List.mem_range.mpr hi)
  | some i =>
    refine ⟨i, List.mem_range.mp (List.mem_of_find?_eq_some hfind), ?_⟩
    rw [create, haddress]
    simp only [Option.bind_eq_bind, Option.bind_some, hbind, h.configureTls, hall, hfind]
    rfl

theorem Established.connects {claims : List PartyId} (h : Established checks id config env claims) {i : Nat}
    (hi : i < config.peerIps.length) : Connects checks id config env i := by
  refine ⟨h.dial i, fun hlt => ⟨_, h.accept (i - (id + 1)) ?_⟩⟩
  have hlen := h.length
  omega

theorem Established.claimed {claims : List PartyId} (h : Established checks id config env claims) :
    claimed env claims.length = claims := by
  refine List.ext_getElem (by simp [TcpNetwork.claimed]) fun k hk hk' => ?_
  simp [TcpNetwork.claimed, h.accept k hk', Except.toOption]

theorem Established.exists_network {claims : List PartyId} (h : Established checks id config env claims)
    (hperm : claims.Perm (List.range' (id + 1) claims.length)) :
    ∃ network, create checks id config env = some (.ok network) := by
  have hpresent := @present_iff checks id config env claims.length
  rw [h.length, h.claimed] at hpresent
  exact ⟨_, create_eq_ok.mpr ⟨h.bind, h.configureTls, fun i hi => h.connects hi, hpresent.mpr hperm, rfl⟩⟩

theorem intended_of_perm {m : Nat} (hlen : config.peerIps.length = id + 1 + m)
    (hconnects : ∀ i < config.peerIps.length, Connects checks id config env i)
    (hperm : (TcpNetwork.claimed env m).Perm (List.range' (id + 1) m)) :
    Intended checks id config env ⟨id, (connected checks id config env config.peerIps.length).writers,
      (connected checks id config env config.peerIps.length).readers⟩ := by
  have hwriters := @connected_writers checks id config env m hperm
  rw [← hlen] at hwriters
  have hmem : ∀ i < config.peerIps.length, entry checks id config env i ∈
      (connected checks id config env config.peerIps.length).writers := fun i hi => by
    rw [hwriters]
    exact List.mem_map_of_mem (List.mem_range.mpr hi)
  refine ⟨rfl, ?_, rfl, fun i hi => ?_, ?_, fun i hi hlt => ?_⟩
  · rw [hwriters, hlen, keys_eq, range_eq_append]
    exact hperm.append_left _
  · obtain ⟨address, haddress, -⟩ := (hconnects i (by omega)).1 hi
    have hentry := hmem i (by omega)
    rw [entry, if_pos hi, haddress] at hentry
    exact ⟨address, haddress, hentry⟩
  · have hentry := hmem id (by omega)
    rwa [entry, if_neg (lt_irrefl _), if_neg (lt_irrefl _)] at hentry
  · have hclaimed : i ∈ TcpNetwork.claimed env m :=
      hperm.mem_iff.mpr (List.mem_range'_1.mpr ⟨hi, by omega⟩)
    obtain ⟨k, hk, hclaim⟩ := List.mem_map.mp hclaimed
    rw [List.mem_range] at hk
    have hindex : id + 1 + k - (id + 1) = k := Nat.add_sub_cancel_left ..
    obtain ⟨remoteId, haccept⟩ := (hconnects (id + 1 + k) (by omega)).2 (by omega)
    have hentry := hmem (id + 1 + k) (by omega)
    rw [hindex] at haccept
    rw [entry, if_neg (by omega), if_pos (by omega), hindex, hclaim] at hentry
    rw [haccept] at hclaim
    exact ⟨k, haccept.trans (congrArg _ hclaim), hentry⟩

theorem intended_of_create (hid : id < config.peerIps.length) {network : TcpNetwork Connection Connection}
    (h : create checks id config env = some (.ok network)) : Intended checks id config env network := by
  obtain ⟨-, -, hconnects, hpresent, rfl⟩ := create_eq_ok.mp h
  obtain ⟨m, hm⟩ := Nat.exists_eq_add_of_le (Nat.succ_le_of_lt hid)
  have hlen : config.peerIps.length = id + 1 + m := hm
  rw [hlen] at hpresent
  exact intended_of_perm hlen hconnects ((present_iff m).mp hpresent)

/-- **`create` succeeds only with the intended parties**: where it succeeds, the network is the intended
one, and the claims are the parties above the own one; with any other claims a party is missing. -/
theorem create_intended (hid : id < config.peerIps.length) :
    (∀ network, create checks id config env = some (.ok network) →
      Intended checks id config env network) ∧
    ∀ claims, Established checks id config env claims →
      ((∃ network, create checks id config env = some (.ok network)) ↔
        claims.Perm (List.range' (id + 1) claims.length)) ∧
      (¬ claims.Perm (List.range' (id + 1) claims.length) →
        ∃ i < config.peerIps.length, create checks id config env = some (.error (.partyNotFound i))) := by
  constructor
  · exact fun network h => intended_of_create hid h
  · intro claims h
    have hpresent := @present_iff checks id config env claims.length
    rw [h.length, h.claimed] at hpresent
    refine ⟨⟨fun ⟨network, hnetwork⟩ => ?_, h.exists_network⟩, fun hperm => ?_⟩
    · exact hpresent.mp (create_eq_ok.mp hnetwork).2.2.2.1
    · exact create_missing h (fun i hi => h.connects hi) fun hall => hperm (hpresent.mp hall)

end

/-- Party 1 of four accepts parties 3 and 2, in this order. -/
def fourParties : Connecting where
  bind _ := .ok ()
  configureTls := .ok ()
  dial _ _ := .ok ()
  accept k := .ok (3 - k)

theorem create_intended_four :
    (∀ network, create true 1 ⟨5000, List.replicate 4 0⟩ fourParties = some (.ok network) →
      Intended true 1 ⟨5000, List.replicate 4 0⟩ fourParties network) ∧
    ∃ network, create true 1 ⟨5000, List.replicate 4 0⟩ fourParties = some (.ok network) := by
  have h := @create_intended true 1 ⟨5000, List.replicate 4 0⟩ fourParties (by decide)
  refine ⟨h.1, (h.2 [3, 2] ⟨⟨⟨0, 5001⟩, rfl, rfl⟩, rfl, ?_, ?_, rfl⟩).1.mpr (by decide)⟩
  · intro i hi
    obtain rfl := Nat.lt_one_iff.mp hi
    exact ⟨⟨0, 5000⟩, rfl, rfl⟩
  · decide

end TcpNetwork

end SclRs
