import SclRs.Ss.Share

/-!
# Additive secret sharing

`ss/additive.rs`: the shares of a secret are random ring elements that sum to it. Public constants are
added to the share of one party, the leader.
-/

namespace SclRs

open RingOps

structure AdditiveSS (T : Type) where
  value : T
  party : PartyId
  isLeader : Bool
deriving DecidableEq

instance (T : Type) : Abbreviate (AdditiveSS T) := ⟨"add. shr."⟩

namespace AdditiveSS

/-- `postcard`'s encoding of the derived `Serialize`. -/
def codec {T : Type} (value : Lib.Codec T) : Lib.Codec (AdditiveSS T) :=
  (value.prod (Lib.Codec.varint.prod Lib.Codec.bool)).map (fun s => (s.value, s.party, s.isLeader))
    (fun t => ⟨t.1, t.2.1, t.2.2⟩) fun _ => rfl

variable {T : Type} [RingOps T]

def sharesFromSecret (secret : T) (parties : List PartyId) (rng : Nat → T) : List (AdditiveSS T) :=
  let leader := parties.min?
  let values := (List.range (parties.length - 1)).map rng
  let randAcc := values.foldl add zero
  (parties.zip (values ++ [sub secret randAcc])).map fun (party, value) =>
    ⟨value, party, some party == leader⟩

def secretFromShares (shares : List (AdditiveSS T)) : T :=
  shares.foldl (fun acc share => add acc share.value) zero

instance : LinearShare (AdditiveSS T) T Unit where
  add checks x y := do
    debugAssert checks (x.party == y.party)
    debugAssert checks (x.isLeader == y.isLeader)
    return { x with value := add x.value y.value }
  sub checks x y := do
    debugAssert checks (x.party == y.party)
    debugAssert checks (x.isLeader == y.isLeader)
    return { x with value := sub x.value y.value }
  neg x := { x with value := negate x.value }
  addConst x c := { x with value := if x.isLeader then add x.value c else x.value }
  subConst x c := { x with value := if x.isLeader then sub x.value c else x.value }
  mulConst x c := { x with value := mul x.value c }
  encodeParty _ _ := some zero
  sharesFromSecret _ secret parties _ rng := some (.ok (sharesFromSecret secret parties rng))
  secretFromShares _ shares parties :=
    if shares.length ≠ parties.length then
      some (.error (.lengthMismatch parties.length shares.length))
    else some (.ok (secretFromShares shares))

section
variable {K : Type} [CommRing K] [LawfulRing T K]

open LawfulRing

theorem foldl_add {l : List T} (hl : ∀ a ∈ l, Valid a) {acc : T} (hacc : Valid acc) :
    Valid (l.foldl add acc) ∧ val (l.foldl add acc) = val acc + (l.map val).sum := by
  induction l generalizing acc with
  | nil => exact ⟨hacc, by simp⟩
  | cons a l ih =>
    obtain ⟨ha, hl⟩ := List.forall_mem_cons.mp hl
    obtain ⟨hvalid, hval⟩ := ih hl (valid_add hacc ha)
    refine ⟨hvalid, hval.trans ?_⟩
    rw [val_add hacc ha, List.map_cons, List.sum_cons, add_assoc]

theorem secretFromShares_spec {shares : List (AdditiveSS T)} (hshares : ∀ s ∈ shares, Valid s.value) :
    Valid (secretFromShares shares) ∧
      val (secretFromShares shares) = (shares.map fun s => val s.value).sum := by
  obtain ⟨hvalid, hval⟩ := foldl_add (l := shares.map value) (List.forall_mem_map.mpr hshares) valid_zero
  rw [List.foldl_map] at hvalid hval
  refine ⟨hvalid, ?_⟩
  rw [secretFromShares, hval, val_zero, zero_add, List.map_map]
  rfl

/-! ### Additive sharings -/

/-- The share of the party `me` among `parties`, with a valid value. -/
structure Belongs (parties : List PartyId) (me : PartyId) (s : AdditiveSS T) : Prop where
  party : s.party = me
  isLeader : s.isLeader = (some me == parties.min?)
  valid : Valid s.value

/-- The shares belong to the parties and their values sum to the secret. -/
structure IsSharing (parties : List PartyId) (shares : PartyId → AdditiveSS T) (secret : T) : Prop where
  nonempty : parties ≠ []
  nodup : parties.Nodup
  belongs : ∀ p ∈ parties, (shares p).Belongs parties p
  valid : Valid secret
  sum : val secret = (parties.map fun p => val (shares p).value).sum

variable {parties : List PartyId} {x y : PartyId → AdditiveSS T} {a b c : T}

theorem sharesFromSecret_isSharing {rng : Nat → T} (hnonempty : parties ≠ []) (hnodup : parties.Nodup)
    (ha : Valid a) (hrng : ∀ i, Valid (rng i)) :
    ∃ shares : PartyId → AdditiveSS T, sharesFromSecret a parties rng = parties.map shares ∧
      IsSharing parties shares a := by
  let values := (List.range (parties.length - 1)).map rng
  let last := sub a (values.foldl add zero)
  have hvalues : ∀ v ∈ values, Valid v := by
    intro v hv
    obtain ⟨i, -, rfl⟩ := List.mem_map.mp hv
    exact hrng i
  obtain ⟨hacc, haccVal⟩ := foldl_add hvalues valid_zero
  have hlast : Valid last := valid_sub ha hacc
  have hlen : parties.length = (values ++ [last]).length := by
    have := List.length_pos_iff.mpr hnonempty
    simp only [values, List.length_append, List.length_map, List.length_range, List.length_singleton]
    omega
  obtain ⟨v, hv⟩ := exists_eq_map hnodup hlen zero
  refine ⟨fun p => ⟨v p, p, some p == parties.min?⟩, ?_, hnonempty, hnodup, fun p hp => ⟨rfl, rfl, ?_⟩,
    ha, ?_⟩
  · change ((parties.zip (values ++ [last])).map _) = _
    rw [hv, zip_map_self, List.map_map]
    rfl
  · have hmem : v p ∈ values ++ [last] := hv ▸ List.mem_map_of_mem hp
    rcases List.mem_append.mp hmem with hmem | hmem
    · exact hvalues _ hmem
    · exact (List.mem_singleton.mp hmem).symm ▸ hlast
  · have hsum : (parties.map fun p => val (v p)) = (values ++ [last]).map val := by
      rw [hv, List.map_map]
      rfl
    rw [hsum, List.map_append, List.sum_append, List.map_singleton, List.sum_singleton,
      show val last = val a - _ from val_sub ha hacc, haccVal, val_zero]
    ring

theorem IsSharing.linear {f : T → T → T} {u w : K}
    (hf : ∀ {a b}, Valid a → Valid b → Valid (f a b) ∧ val (f a b) = u * val a + w * val b)
    (hx : IsSharing parties x a) (hy : IsSharing parties y b) :
    IsSharing parties (fun p => { x p with value := f (x p).value (y p).value }) (f a b) where
  nonempty := hx.nonempty
  nodup := hx.nodup
  belongs p hp := ⟨(hx.belongs p hp).party, (hx.belongs p hp).isLeader,
    (hf (hx.belongs p hp).valid (hy.belongs p hp).valid).1⟩
  valid := (hf hx.valid hy.valid).1
  sum := by
    rw [(hf hx.valid hy.valid).2, hx.sum, hy.sum, ← List.sum_map_mul_left, ← List.sum_map_mul_left,
      ← List.sum_map_add]
    exact congrArg List.sum (List.map_congr_left fun p hp =>
      (hf (hx.belongs p hp).valid (hy.belongs p hp).valid).2.symm)

theorem sum_map_leader {leader : PartyId} (hnodup : parties.Nodup) (hleader : parties.min? = some leader)
    (k : K) : (parties.map fun p => if some p == parties.min? then k else 0).sum = k := by
  have hmem : leader ∈ parties := List.min?_mem hleader
  rw [List.sum_map_eq_nsmul_single leader _ fun p hp _ => ?_, List.count_eq_one_of_mem hnodup hmem,
    one_smul, hleader, if_pos (beq_self_eq_true _)]
  rw [hleader, if_neg]
  rintro h
  exact hp (Option.some.inj (eq_of_beq h))

theorem IsSharing.atLeader {f : T → T → T} {w : K}
    (hf : ∀ {a}, Valid a → Valid (f a c) ∧ val (f a c) = val a + w) (hx : IsSharing parties x a) :
    IsSharing parties
      (fun p => { x p with value := if (x p).isLeader then f (x p).value c else (x p).value }) (f a c) where
  nonempty := hx.nonempty
  nodup := hx.nodup
  belongs p hp := by
    refine ⟨(hx.belongs p hp).party, (hx.belongs p hp).isLeader, ?_⟩
    simp only
    split_ifs
    · exact (hf (hx.belongs p hp).valid).1
    · exact (hx.belongs p hp).valid
  valid := (hf hx.valid).1
  sum := by
    obtain ⟨leader, hleader⟩ := Option.isSome_iff_exists.mp (List.isSome_min?_iff.mpr hx.nonempty)
    rw [(hf hx.valid).2, hx.sum, ← sum_map_leader hx.nodup hleader w, ← List.sum_map_add]
    refine congrArg List.sum (List.map_congr_left fun p hp => ?_)
    rw [← (hx.belongs p hp).isLeader]
    split_ifs
    · exact (hf (hx.belongs p hp).valid).2.symm
    · rw [add_zero]

theorem IsSharing.secretFromShares_perm (hx : IsSharing parties x a) {senders : List PartyId}
    (hperm : senders.Perm parties) : secretFromShares (senders.map x) = a := by
  have hshares : ∀ s ∈ senders.map x, Valid s.value := by
    intro s hs
    obtain ⟨p, hp, rfl⟩ := List.mem_map.mp hs
    exact (hx.belongs p (hperm.mem_iff.mp hp)).valid
  obtain ⟨hresult, hval⟩ := secretFromShares_spec hshares
  refine val_inj hresult hx.valid ?_
  rw [hval, hx.sum, List.map_map]
  exact (hperm.map _).sum_eq

instance : LawfulLinearShare (AdditiveSS T) where
  Admits _ parties _ := parties ≠ [] ∧ parties.Nodup
  IsSharing _ parties _ := IsSharing parties
  deal := fun ⟨hnonempty, hnodup⟩ hsecret hrng =>
    (sharesFromSecret_isSharing hnonempty hnodup hsecret hrng).imp fun _ h =>
      ⟨congrArg (fun shares => some (Except.ok shares)) h.1, h.2⟩
  add := fun {checks parties _ x y _ _} hx hy => by
    refine ⟨_, fun p hp => ?_, hx.linear (f := add) (u := 1) (w := 1)
      (fun ha hb => ⟨valid_add ha hb, by rw [val_add ha hb]; ring⟩) hy⟩
    simp [LinearShare.add, debugAssert, (hx.belongs p hp).party, (hy.belongs p hp).party,
      (hx.belongs p hp).isLeader, (hy.belongs p hp).isLeader]
  sub := fun {checks parties _ x y _ _} hx hy => by
    refine ⟨_, fun p hp => ?_, hx.linear (f := sub) (u := 1) (w := -1)
      (fun ha hb => ⟨valid_sub ha hb, by rw [val_sub ha hb]; ring⟩) hy⟩
    simp [LinearShare.sub, debugAssert, (hx.belongs p hp).party, (hy.belongs p hp).party,
      (hx.belongs p hp).isLeader, (hy.belongs p hp).isLeader]
  neg hx := hx.linear (f := fun a _ => negate a) (u := -1) (w := 0)
    (fun ha _ => ⟨valid_negate ha, by rw [val_negate ha]; ring⟩) hx
  addConst hx hc := hx.atLeader fun ha => ⟨valid_add ha hc, val_add ha hc⟩
  subConst hx hc := hx.atLeader fun ha => ⟨valid_sub ha hc, by rw [val_sub ha hc, sub_eq_add_neg]⟩
  mulConst := fun {_ _ _ _ _ c} hx hc => hx.linear (f := fun a _ => mul a c) (u := val c) (w := 0)
    (fun ha _ => ⟨valid_mul ha hc, by rw [val_mul ha hc]; ring⟩) hx
  secretFromShares_perm := fun {_ _ senders _ shares _} hx hperm => by
    change (if (senders.map shares).length ≠ senders.length then _ else _) = _
    rw [if_neg (by simp), hx.secretFromShares_perm hperm]

end

end AdditiveSS

end SclRs
