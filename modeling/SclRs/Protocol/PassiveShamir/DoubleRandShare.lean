import SclRs.Protocol.PassiveShamir.RandShare

/-!
# Random double sharings

`protocol/passive_shamir/double_rand_share.rs`: everybody deals one secret twice, first at degree `t` and
then at degree `2 * t`. The dealings are those of two rounds on the same links, and one matrix extracts
both, so that the two halves share the same combinations of the secrets (`random_sharings`).
-/

namespace SclRs

structure PassiveRandDoubleShr (F : Type) where
  t : Nat
  parties : List PartyId
  vandermonde : Matrix F

namespace PassiveRandDoubleShr

section
variable {F : Type} [DecidableEq F] [FieldOps F] [FromU64 F]

def new (checks : Bool) (t : Nat) (parties : List PartyId) :
    Option (Except (ProtocolError F) (PassiveRandDoubleShr F)) := do
  let n := parties.length
  if (← usizeMul checks 2 t) ≥ n then
    return .error .input
  let sorted := parties.insertionSort (· ≤ ·)
  return .ok ⟨t, sorted, ← extractionMatrix checks sorted (← usizeSub checks n t)⟩

variable (codec : Postcard (ShamirSS F)) (checks : Bool) (rng : Nat → F) (me : PartyId)

/-- `run`: the first random element is the party's secret, and the first dealing draws the `t + 1` next
ones. -/
def run (protocol : PassiveRandDoubleShr F) : Proto F (List (DoubleShare F)) := do
  let s := rng 0
  let sharesT ← dealAll codec checks me (fun i => rng (i + 1)) s protocol.parties protocol.t
  let twice ← Proto.ofOption (usizeMul checks 2 protocol.t)
  let shares2t ← dealAll codec checks me (fun i => rng (i + (protocol.t + 2))) s protocol.parties twice
  let rSharesT ← Proto.ofOption (protocol.vandermonde.mulShares checks sharesT)
  let rSharesT ← Proto.ofShare .matrix rSharesT
  let rShares2t ← Proto.ofOption (protocol.vandermonde.mulShares checks shares2t)
  let rShares2t ← Proto.ofShare .matrix rShares2t
  Proto.ofOption ((rSharesT.zip rShares2t).mapM fun (rT, r2t) => DoubleShare.new checks rT r2t)

def execute (protocol : PassiveRandDoubleShr F) : Proto F (List (DoubleShare F)) :=
  Proto.execute "PassiveRandDoubleShr" (protocol.run codec checks rng me)

def party (t : Nat) (parties : List PartyId) : Proto F (List (DoubleShare F)) := do
  let protocol ← Proto.ofOption (new checks t parties)
  let protocol ← Proto.ofResult protocol
  protocol.execute codec checks rng me

def net (t : Nat) (lists : PartyId → List PartyId) (rng : PartyId → Nat → F) :
    NetState (Except (ProtocolError F) (List (DoubleShare F))) :=
  NetState.init fun p => (party codec checks (rng p) p t (lists p)).run

end

section
variable {F K : Type} [DecidableEq F] [FieldOps F] [FromU64 F] [Field K] [LawfulField F K]
  {codec : Postcard (ShamirSS F)} {checks : Bool} {parties list : List PartyId} {rng : Nat → F}
  {t : Nat} {me : PartyId} {m : Matrix F} {dealtT dealt2t : PartyId → PartyId → ShamirSS F}
  {zT z2t : List (ShamirSS F)} {double : List (DoubleShare F)}

omit [DecidableEq F] in
theorem new_eq (hlist : list.Perm parties) (ht : 2 * t < parties.length) (hsize : parties.length < 2 ^ 64)
    (hm : extractionMatrix checks (parties.insertionSort (· ≤ ·)) (parties.length - t) = some m) :
    new checks t list = some (.ok ⟨t, parties.insertionSort (· ≤ ·), m⟩) := by
  rw [new, insertionSort_of_perm hlist, hlist.length_eq, usizeMul_of_lt (by omega),
    usizeSub_of_le (by omega)]
  simp only [Option.bind_eq_bind, Option.bind_some, hm]
  rw [if_neg (by omega)]
  rfl

theorem party_leads (hnodup : parties.Nodup) (hme : me ∈ parties) (hlist : list.Perm parties)
    (ht : 2 * t < parties.length) (hsize : parties.length < 2 ^ 64)
    (hm : extractionMatrix checks (parties.insertionSort (· ≤ ·)) (parties.length - t) = some m)
    (hdealT : LinearShare.sharesFromSecret checks (rng 0) (parties.insertionSort (· ≤ ·)) t
      (fun i => rng (i + 1)) = some (.ok ((parties.insertionSort (· ≤ ·)).map (dealtT me))))
    (hdeal2t : LinearShare.sharesFromSecret checks (rng 0) (parties.insertionSort (· ≤ ·)) (2 * t)
      (fun i => rng (i + (t + 2))) = some (.ok ((parties.insertionSort (· ≤ ·)).map (dealt2t me))))
    (hmulT : m.mulShares checks ((parties.insertionSort (· ≤ ·)).map fun p => dealtT p me) =
      some (.ok zT))
    (hmul2t : m.mulShares checks ((parties.insertionSort (· ≤ ·)).map fun p => dealt2t p me) =
      some (.ok z2t))
    (hdouble : (zT.zip z2t).mapM (fun (rT, r2t) => DoubleShare.new checks rT r2t) = some double) :
    (party codec checks rng me t list).Leads (dealScript codec parties [dealtT, dealt2t]) parties
      NetState.anyone me .start (· = double) (dealtTo parties 2) := by
  have hsorted := List.perm_insertionSort (· ≤ ·) parties
  have htwice : 2 * t < 2 ^ 64 := by omega
  refine (Proto.leads_ofOption (new_eq hlist ht hsize hm)).bind ?_
  rintro _ rfl
  refine (Proto.leads_ofResult rfl).bind ?_
  rintro _ rfl
  refine Proto.Leads.execute ?_
  rw [← dealtTo_zero parties]
  refine (dealAll_leads (k := 0) rfl hnodup hsorted hme hdealT).bind ?_
  rintro _ rfl
  refine (Proto.leads_ofOption (usizeMul_of_lt htwice)).bind ?_
  rintro _ rfl
  refine (dealAll_leads (k := 1) rfl hnodup hsorted hme hdeal2t).bind ?_
  rintro _ rfl
  refine (Proto.leads_ofOption hmulT).bind ?_
  rintro _ rfl
  refine (Proto.leads_ofShare rfl).bind ?_
  rintro _ rfl
  refine (Proto.leads_ofOption hmul2t).bind ?_
  rintro _ rfl
  refine (Proto.leads_ofShare rfl).bind ?_
  rintro _ rfl
  exact Proto.leads_ofOption hdouble

omit [DecidableEq F] [FieldOps F] [FromU64 F] in
theorem mapM_doubleShare {outputs : Nat} {zT z2t : Nat → ShamirSS F}
    (hT : ∀ k < outputs, (zT k).degree = t) (h2t : ∀ k < outputs, (z2t k).degree = 2 * t)
    (hsize : 2 * t < 2 ^ 64) :
    (((List.range outputs).map zT).zip ((List.range outputs).map z2t)).mapM
        (fun (rT, r2t) => DoubleShare.new checks rT r2t) =
      some ((List.range outputs).map fun k => ⟨zT k, z2t k⟩) := by
  rw [List.zip_map', List.mapM_map]
  refine Matrix.mapM_eq_map fun k hk => ?_
  have hk := List.mem_range.mp hk
  exact DoubleShare.new_eq_some (by rw [hT k hk, h2t k hk]) (by rwa [hT k hk])

/-- **Double-Random**: every schedule ends with shares of the same combinations at both degrees. -/
theorem double_rand_share [LawfulFromU64 F] {lists : PartyId → List PartyId} {rng : PartyId → Nat → F}
    {point : PartyId → F} (hnodup : parties.Nodup) (hlists : ∀ p ∈ parties, (lists p).Perm parties)
    (hpoint : ∀ p ∈ parties, ShamirSS.encodeParty checks p = some (point p))
    (ht : 2 * t < parties.length) (hsize : parties.length * (parties.length - t) < 2 ^ 64)
    (hrng : ∀ p ∈ parties, ∀ i, LawfulRing.Valid (rng p i)) :
    ∃ zT z2t : Nat → PartyId → ShamirSS F,
      (net codec checks t lists rng).Finishes parties
          (fun p => .ok ((List.range (parties.length - t)).map fun k => ⟨zT k p, z2t k p⟩)) ∧
        ∀ k < parties.length - t,
          ShamirSS.SharedBy checks parties t (zT k)
            (parties.map fun p => LawfulRing.val (point p) ^ k * LawfulRing.val (rng p 0)).sum ∧
          ShamirSS.SharedBy checks parties (2 * t) (z2t k)
            (parties.map fun p => LawfulRing.val (point p) ^ k * LawfulRing.val (rng p 0)).sum := by
  have hsorted := List.perm_insertionSort (· ≤ ·) parties
  have hlt : t < parties.length := by omega
  have hlength := length_lt_of_mul_lt hlt hsize
  have hsecret := fun p hp => hrng p hp 0
  obtain ⟨m, hm, his⟩ := exists_extractionMatrix hpoint hlt hsize
  obtain ⟨dealtT, zT, hdealT, hmulT, hsharedT⟩ := exists_extracted his hnodup hsorted hpoint hlt
    (by omega) hsecret fun p hp i => hrng p hp (i + 1)
  obtain ⟨dealt2t, z2t, hdeal2t, hmul2t, hshared2t⟩ := exists_extracted his hnodup hsorted hpoint ht
    (by omega) hsecret fun p hp i => hrng p hp (i + (t + 2))
  have hdouble : ∀ p ∈ parties, (((List.range (parties.length - t)).map fun k => zT k p).zip
      ((List.range (parties.length - t)).map fun k => z2t k p)).mapM
        (fun (rT, r2t) => DoubleShare.new checks rT r2t) =
      some ((List.range (parties.length - t)).map fun k => ⟨zT k p, z2t k p⟩) := fun p hp =>
    mapM_doubleShare (fun k hk => (hsharedT k hk).degree hp) (fun k hk => (hshared2t k hk).degree hp)
      (by omega)
  exact ⟨zT, z2t, NetState.finishes_of_follows fun p hp => dealScript_follows hp
    (party_leads hnodup hp (hlists p hp) ht hlength hm (hdealT p hp) (hdeal2t p hp) (hmulT p hp)
      (hmul2t p hp) (hdouble p hp)), fun k hk => ⟨hsharedT k hk, hshared2t k hk⟩⟩

end

end PassiveRandDoubleShr

/-- **Random and Double-Random** produce consistent sharings. -/
theorem random_sharings {F K : Type} [DecidableEq F] [FieldOps F] [FromU64 F] [Field K] [LawfulField F K]
    [LawfulFromU64 F] {codec : Postcard (ShamirSS F)} {checks : Bool} {parties : List PartyId}
    {lists : PartyId → List PartyId} {rng : PartyId → Nat → F} {point : PartyId → F} {t : Nat}
    (hnodup : parties.Nodup) (hlists : ∀ p ∈ parties, (lists p).Perm parties)
    (hpoint : ∀ p ∈ parties, ShamirSS.encodeParty checks p = some (point p))
    (hsize : parties.length * (parties.length - t) < 2 ^ 64)
    (hrng : ∀ p ∈ parties, ∀ i, LawfulRing.Valid (rng p i)) :
    (t < parties.length → ∃ z : Nat → PartyId → ShamirSS F,
      (PassiveRandShr.net codec checks t lists rng).Finishes parties
          (fun p => .ok ((List.range (parties.length - t)).map fun k => z k p)) ∧
        ∀ k < parties.length - t, ShamirSS.SharedBy checks parties t (z k)
          (parties.map fun p => LawfulRing.val (point p) ^ k * LawfulRing.val (rng p 0)).sum) ∧
    (2 * t < parties.length → ∃ zT z2t : Nat → PartyId → ShamirSS F,
      (PassiveRandDoubleShr.net codec checks t lists rng).Finishes parties
          (fun p => .ok ((List.range (parties.length - t)).map fun k => ⟨zT k p, z2t k p⟩)) ∧
        ∀ k < parties.length - t,
          ShamirSS.SharedBy checks parties t (zT k)
            (parties.map fun p => LawfulRing.val (point p) ^ k * LawfulRing.val (rng p 0)).sum ∧
          ShamirSS.SharedBy checks parties (2 * t) (z2t k)
            (parties.map fun p => LawfulRing.val (point p) ^ k * LawfulRing.val (rng p 0)).sum) :=
  ⟨fun ht => PassiveRandShr.rand_share hnodup hlists hpoint ht hsize hrng,
    fun ht => PassiveRandDoubleShr.double_rand_share hnodup hlists hpoint ht hsize hrng⟩

theorem random_sharings_three :
    (∃ z : Nat → PartyId → ShamirSS Mersenne61,
      (PassiveRandShr.net (.ofCodec (ShamirSS.codec Mersenne61.codec)) true 1
        (fun p => if p = 1 then [2, 1, 0] else [0, 1, 2]) fun p _ => if p = 1 then ⟨5⟩ else ⟨7⟩).Finishes
          [0, 1, 2] (fun p => .ok ((List.range 2).map fun k => z k p)) ∧
        ∀ k < 2, ShamirSS.SharedBy true [0, 1, 2] 1 (z k) ([0, 1, 2].map fun p =>
          LawfulRing.val (FromU64.fromU64 (p + 1) : Mersenne61) ^ k *
            LawfulRing.val (if p = 1 then ⟨5⟩ else ⟨7⟩ : Mersenne61)).sum) ∧
    ∃ zT z2t : Nat → PartyId → ShamirSS Mersenne61,
      (PassiveRandDoubleShr.net (.ofCodec (ShamirSS.codec Mersenne61.codec)) true 1
        (fun p => if p = 1 then [2, 1, 0] else [0, 1, 2]) fun p _ => if p = 1 then ⟨5⟩ else ⟨7⟩).Finishes
          [0, 1, 2] (fun p => .ok ((List.range 2).map fun k => ⟨zT k p, z2t k p⟩)) ∧
        ∀ k < 2,
          ShamirSS.SharedBy true [0, 1, 2] 1 (zT k) ([0, 1, 2].map fun p =>
            LawfulRing.val (FromU64.fromU64 (p + 1) : Mersenne61) ^ k *
              LawfulRing.val (if p = 1 then ⟨5⟩ else ⟨7⟩ : Mersenne61)).sum ∧
          ShamirSS.SharedBy true [0, 1, 2] 2 (z2t k) ([0, 1, 2].map fun p =>
            LawfulRing.val (FromU64.fromU64 (p + 1) : Mersenne61) ^ k *
              LawfulRing.val (if p = 1 then ⟨5⟩ else ⟨7⟩ : Mersenne61)).sum := by
  have hpoint : ∀ p ∈ [0, 1, 2], ShamirSS.encodeParty true p =
      some (FromU64.fromU64 (p + 1) : Mersenne61) := by
    simp [ShamirSS.encodeParty, usizeAdd]
  have hrng : ∀ p ∈ [0, 1, 2], ∀ _ : Nat,
      LawfulRing.Valid (if p = 1 then ⟨5⟩ else ⟨7⟩ : Mersenne61) := by
    intro p _ _
    split_ifs <;> exact show Mersenne61.Canonical _ by decide
  exact (random_sharings (t := 1) (by decide) (by decide) hpoint (by decide) hrng).imp
    (fun h => h (by decide)) fun h => h (by decide)

/-- **The last party identifier** has no point where overflow is checked: its code panics. -/
theorem rand_share_overflows : ¬ ∃ z : Nat → PartyId → ShamirSS Mersenne61,
    (PassiveRandShr.net (.ofCodec (ShamirSS.codec Mersenne61.codec)) true 0 (fun _ => [2 ^ 64 - 1])
      fun _ _ => ⟨7⟩).Finishes [2 ^ 64 - 1] (fun p => .ok ((List.range 1).map fun k => z k p)) := by
  rintro ⟨z, h⟩
  exact h.ne_panic List.mem_cons_self rfl

end SclRs
