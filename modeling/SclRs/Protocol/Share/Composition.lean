import SclRs.Protocol.Share.Sequential
import SclRs.Ss.Additive
import SclRs.Ss.ShamirLinear

/-!
# Openings in a row compose in order

All parties open the same sharings in a row. In a schedule in which every party hears its peers in order,
the opening with number `j` gives the secret with that number to everyone who outputs one
(`sequential_openings`): each party's code keeps to its script, which leaves it no other output. A schedule
in which a party hears a fast peer twice makes it add up shares of different sharings (`fastPeer_outputs`).
-/

namespace SclRs

section
variable {S V Threshold α : Type} [LinearShare S V Threshold] [Abbreviate S] {codec : Postcard S}
  {checks : Bool} {parties : List PartyId}

/-- Where hearings in order lead, a party that has output something has output what is expected. -/
def OutputsInOrder (parties : List PartyId) (program : PartyId → Proto V α)
    (expected : PartyId → α) : Prop :=
  ∀ schedule t, (NetState.init fun p => (program p).run).run parties schedule = some t →
    (NetState.init fun p => (program p).run).RunPermits parties (inOrder parties) schedule →
    ∀ p ∈ parties, ∀ output, t.progs p = .ret (.ok output) → output = expected p

/-- Where hearings in order lead and no other is possible, every party has output what is expected. -/
def FinishesInOrder (parties : List PartyId) (program : PartyId → Proto V α)
    (expected : PartyId → α) : Prop :=
  ∀ schedule t, (NetState.init fun p => (program p).run).run parties schedule = some t →
    (NetState.init fun p => (program p).run).RunPermits parties (inOrder parties) schedule →
    t.Halted parties (inOrder parties) → ∀ p ∈ parties, t.progs p = .ret (.ok (expected p))

theorem outputsInOrder_of_follows {program : PartyId → Proto V α} {expected : PartyId → α}
    {script : Script} {result : PartyId → Except (ProtocolError V) α → Prop}
    (h : ∀ p ∈ parties, (program p).run.Follows script parties (inOrder parties) p (result p)
      (fun _ => 0) (fun _ => 0) 0)
    (hresult : ∀ p ∈ parties, ∀ output, result p (.ok output) → output = expected p) :
    OutputsInOrder parties program expected := by
  intro schedule t hrun hpermits p hp output hret
  have hscripted := (NetState.scripted_init h).run hrun hpermits
  exact hresult p hp output (hscripted.result_of_ret hp hret)

theorem finishesInOrder_of_follows {program : PartyId → Proto V α} {expected : PartyId → α}
    {script : Script}
    (h : ∀ p ∈ parties, (program p).run.Follows script parties (inOrder parties) p
      (· = .ok (expected p)) (fun _ => 0) (fun _ => 0) 0) :
    FinishesInOrder parties program expected := by
  intro schedule t hrun hpermits hhalted p hp
  have hscripted := (NetState.scripted_init h).run hrun hpermits
  obtain ⟨_, hret, rfl⟩ := (hscripted.done hhalted hp).finished
  exact hret

variable (codec checks parties) in
/-- The openings of `sharings` in a row, by all parties and towards one, give the secrets where the
parties are heard in order; and they give them to everyone if the sharings reconstruct. -/
structure OpeningsCompose (sharings : List ((PartyId → S) × V)) (reconstructs : Prop) : Prop where
  outputs : OutputsInOrder parties
    (fun p => openAll codec checks parties p (sharings.map fun x => x.1 p))
    fun _ => sharings.map Prod.snd
  finishes : reconstructs → FinishesInOrder parties
    (fun p => openAll codec checks parties p (sharings.map fun x => x.1 p))
    fun _ => sharings.map Prod.snd
  outputsToParty : ∀ receiver ∈ parties, OutputsInOrder parties
    (fun p => openAllToParty codec checks parties p receiver (sharings.map fun x => x.1 p))
    fun p => sharings.map fun x => if p = receiver then some x.2 else none
  finishesToParty : reconstructs → ∀ receiver ∈ parties, FinishesInOrder parties
    (fun p => openAllToParty codec checks parties p receiver (sharings.map fun x => x.1 p))
    fun p => sharings.map fun x => if p = receiver then some x.2 else none

theorem openAllToParty_follows {l : List ((PartyId → S) × V)} {receiver me : PartyId}
    (hnodup : parties.Nodup) (hme : me ∈ parties)
    (hsecret : ∀ x ∈ l, Reconstructs checks parties x.1 x.2) :
    (openAllToParty codec checks parties me receiver (l.map fun x => x.1 me)).run.Follows
      (openScript codec (toReceiver parties receiver) (l.map Prod.fst) 0) parties (inOrder parties) me
      (· = .ok (l.map fun x => if me = receiver then some x.2 else none)) (fun _ => 0) (fun _ => 0)
      0 := by
  by_cases hreceiver : me = receiver
  · subst hreceiver
    simpa using openAllToParty_receiver_follows hnodup hme hsecret
  · have h := openAllToParty_sender_follows codec checks (l.map Prod.fst) 0
      (mem_peers.mpr ⟨hme, hreceiver⟩)
    simpa [hreceiver, Function.comp_def] using h

theorem OpeningsCompose.of_reconstructs {sharings : List ((PartyId → S) × V)} {reconstructs : Prop}
    (hnodup : parties.Nodup) (hsecret : ∀ x ∈ sharings, Reconstructs checks parties x.1 x.2) :
    OpeningsCompose codec checks parties sharings reconstructs where
  outputs := outputsInOrder_of_follows (fun _ hp => openAll_follows hnodup hp hsecret) (by simp)
  finishes _ := finishesInOrder_of_follows fun _ hp => openAll_follows hnodup hp hsecret
  outputsToParty _ _ :=
    outputsInOrder_of_follows (fun _ hp => openAllToParty_follows hnodup hp hsecret) (by simp)
  finishesToParty _ _ _ :=
    finishesInOrder_of_follows fun _ hp => openAllToParty_follows hnodup hp hsecret

theorem OpeningsCompose.of_neverReconstructs {x : (PartyId → S) × V} {rest : List ((PartyId → S) × V)}
    {reconstructs : Prop} (hnodup : parties.Nodup) (herror : NeverReconstructs checks parties x.1)
    (hreconstructs : ¬ reconstructs) :
    OpeningsCompose codec checks parties (x :: rest) reconstructs where
  outputs := outputsInOrder_of_follows (fun _ hp => openAll_fails_follows hnodup hp herror) (by simp)
  finishes h := absurd h hreconstructs
  outputsToParty receiver hreceiver := by
    have hfollows : ∀ p ∈ parties,
        (openAllToParty codec checks parties p receiver ((x :: rest).map fun y => y.1 p)).run.Follows
          (openScript codec (toReceiver parties receiver) (x.1 :: rest.map Prod.fst)
            (rest.map Prod.fst).length) parties (inOrder parties) p
          (fun r => if p = receiver then ∃ e, r = .error e else r = .ok ((x :: rest).map fun _ => none))
          (fun _ => 0) (fun _ => 0) 0 := by
      intro p hp
      by_cases hp' : p = receiver
      · subst hp'
        have h := openAllToParty_fails_follows codec (rest.map Prod.fst) hnodup hp herror
        simpa [Function.comp_def] using h
      · have h := openAllToParty_sender_follows codec checks (x.1 :: rest.map Prod.fst)
          (rest.map Prod.fst).length (mem_peers.mpr ⟨hp, hp'⟩)
        simpa [hp', Function.comp_def] using h
    refine outputsInOrder_of_follows hfollows fun p hp output h => ?_
    split_ifs at h ⊢ with hp'
    · obtain ⟨e, he⟩ := h
      cases he
    · exact Except.ok.inj h
  finishesToParty h := absurd h hreconstructs

end

section

open LawfulRing

variable {T K : Type} [RingOps T] [CommRing K] [LawfulRing T K] {F L : Type} [DecidableEq F]
  [FieldOps F] [FromU64 F] [Field L] [LawfulField F L] [LawfulFromU64 F] {checks : Bool}
  {parties : List PartyId}

theorem AdditiveSS.IsSharing.reconstructs {shares : PartyId → AdditiveSS T} {secret : T}
    (h : AdditiveSS.IsSharing parties shares secret) : Reconstructs checks parties shares secret := by
  have hsharing : LawfulLinearShare.IsSharing checks parties () shares secret := h
  exact fun _ hperm => LawfulLinearShare.secretFromShares_perm hsharing hperm

theorem ShamirSS.SharedBy.reconstructs {t : Nat} {shares : PartyId → ShamirSS F} {secret : F}
    (h : ShamirSS.SharedBy checks parties t shares (val secret)) (hsecret : Valid secret)
    (hpoints : ShamirSS.DistinctPoints F checks parties) (ht : t < parties.length)
    (hsize : parties.length < 2 ^ 64) : Reconstructs checks parties shares secret := by
  intro senders hperm
  have hlen := hperm.length_eq
  obtain ⟨r, hr, hvalid, hval⟩ := h.secretFromShares hpoints hperm.subperm (by omega) (by omega)
  rw [hr, val_inj hvalid hsecret hval]

/-- **Openings in a row compose** when every party hears its peers in order, in both schemes. -/
theorem sequential_openings (hnodup : parties.Nodup) (hsize : parties.length < 2 ^ 64) :
    (∀ (codec : Postcard (AdditiveSS T)) (sharings : List ((PartyId → AdditiveSS T) × T)),
      (∀ x ∈ sharings, AdditiveSS.IsSharing parties x.1 x.2) →
      OpeningsCompose codec checks parties sharings True) ∧
    ∀ (codec : Postcard (ShamirSS F)) (sharings : List ((PartyId → ShamirSS F) × F)),
      (∀ x ∈ sharings, Valid x.2 ∧
        ∃ t < parties.length, ShamirSS.SharedBy checks parties t x.1 (val x.2)) →
      OpeningsCompose codec checks parties sharings (ShamirSS.DistinctPoints F checks parties) := by
  constructor
  · intro codec sharings hsharings
    exact .of_reconstructs hnodup fun x hx => (hsharings x hx).reconstructs
  · intro codec sharings hsharings
    by_cases hpoints : ShamirSS.DistinctPoints F checks parties
    · refine .of_reconstructs hnodup fun x hx => ?_
      obtain ⟨hvalid, t, ht, hshared⟩ := hsharings x hx
      exact hshared.reconstructs hvalid hpoints ht hsize
    · cases sharings with
      | nil => exact .of_reconstructs hnodup fun x hx => absurd hx List.not_mem_nil
      | cons x rest =>
        obtain ⟨-, t, ht, hshared⟩ := hsharings x List.mem_cons_self
        exact .of_neverReconstructs hnodup
          (fun _ hperm => hshared.secretFromShares_error hpoints ht hsize hperm) hpoints

end

/-! ### A fast peer -/

/-- Two sharings among three parties. -/
def fastSharings : List ((PartyId → AdditiveSS Mersenne61) × Mersenne61) :=
  [(fun p => ⟨⟨UInt64.ofNat (p + 1)⟩, p, p == 0⟩, ⟨6⟩),
    (fun p => ⟨⟨UInt64.ofNat (10 * (p + 1))⟩, p, p == 0⟩, ⟨60⟩)]

/-- Party 1 has sent both its shares to party 0 before party 2 is heard there. -/
def fastSchedule : List Act :=
  [.goes 0, .goes 0, .goes 0, .goes 1, .goes 1, .goes 1, .goes 2, .goes 2, .goes 2,
    .hears 1 0, .hears 1 2, .goes 1, .goes 1, .goes 1, .goes 1,
    .hears 0 1, .hears 0 1, .goes 0, .goes 0, .goes 0, .goes 0,
    .hears 2 0, .hears 2 1, .goes 2, .goes 2, .goes 2, .goes 2,
    .hears 0 2, .hears 0 2, .goes 0]

def fastNet : NetState (Except (ProtocolError Mersenne61) (List Mersenne61)) :=
  NetState.init fun p => (openAll (.ofCodec (AdditiveSS.codec Mersenne61.codec)) true [0, 1, 2] p
    (fastSharings.map fun x => x.1 p)).run

theorem isSharing_of_toNat {v : PartyId → UInt64} {secret : UInt64}
    (hv : ∀ p ∈ [0, 1, 2], (v p).toNat < mersenneModulus) (hsecret : secret.toNat < mersenneModulus)
    (hsum : secret.toNat = (v 0).toNat + ((v 1).toNat + (v 2).toNat)) :
    AdditiveSS.IsSharing [0, 1, 2] (fun p => ⟨⟨v p⟩, p, p == 0⟩) (⟨secret⟩ : Mersenne61) where
  nonempty := by decide
  nodup := by decide
  belongs p hp := ⟨rfl, rfl, hv p hp⟩
  valid := hsecret
  sum := by
    change ((secret.toNat : Nat) : ZMod mersenneModulus) = ((v 0).toNat : ZMod mersenneModulus) +
      (((v 1).toNat : ZMod mersenneModulus) + (((v 2).toNat : ZMod mersenneModulus) + 0))
    rw [hsum]
    push_cast
    ring

theorem fastSharings_isSharing : ∀ x ∈ fastSharings, AdditiveSS.IsSharing [0, 1, 2] x.1 x.2 :=
  List.forall_mem_cons.mpr ⟨isSharing_of_toNat (by decide) (by decide) (by decide),
    List.forall_mem_singleton.mpr (isSharing_of_toNat (by decide) (by decide) (by decide))⟩

/-- **A fast peer is heard twice**, and party 0 outputs sums of shares of different sharings. -/
theorem fastPeer_outputs :
    (∀ x ∈ fastSharings, AdditiveSS.IsSharing [0, 1, 2] x.1 x.2) ∧
      ¬ ∀ schedule t, fastNet.run [0, 1, 2] schedule = some t → ∀ p ∈ [0, 1, 2], ∀ output,
        t.progs p = .ret (.ok output) → output = fastSharings.map Prod.snd := by
  refine ⟨fastSharings_isSharing, fun h => ?_⟩
  have hrun : (fastNet.run [0, 1, 2] fastSchedule).bind
      (fun t => (t.progs 0).result?.map Except.toOption) = some (some [⟨23⟩, ⟨43⟩]) := by
    decide +kernel
  obtain ⟨t, ht, hresult⟩ := Option.bind_eq_some_iff.mp hrun
  obtain ⟨result, hresult, houtput⟩ := Option.map_eq_some_iff.mp hresult
  cases result with
  | error => cases houtput
  | ok output =>
    obtain rfl := Option.some.inj houtput
    have heq := h fastSchedule t ht 0 (by decide) _ (Prog.result?_eq_some hresult)
    revert heq
    decide

theorem sequential_openings_three :
    OpeningsCompose (.ofCodec (AdditiveSS.codec Mersenne61.codec)) true [0, 1, 2] fastSharings True ∧
      ∃ shares : PartyId → ShamirSS Mersenne61,
        LinearShare.sharesFromSecret true (⟨5⟩ : Mersenne61) [0, 1, 2] 1 (fun _ => ⟨7⟩) =
          some (.ok ([0, 1, 2].map shares)) ∧
        OpeningsCompose (.ofCodec (ShamirSS.codec Mersenne61.codec)) true [0, 1, 2]
          [(shares, ⟨5⟩), (shares, ⟨5⟩)] (ShamirSS.DistinctPoints Mersenne61 true [0, 1, 2]) := by
  have hseven : ∀ _ : Nat, LawfulRing.Valid (⟨7⟩ : Mersenne61) := fun _ =>
    (show Mersenne61.Canonical ⟨7⟩ by decide)
  have hadmits : LawfulLinearShare.Admits (S := ShamirSS Mersenne61) true [0, 1, 2] 1 :=
    ⟨by decide, by decide, [1, 2, 3].map FromU64.fromU64, rfl, by decide +kernel⟩
  obtain ⟨shares, hdeal, hsharing⟩ := LawfulLinearShare.deal hadmits
    (show Mersenne61.Canonical ⟨5⟩ by decide) hseven
  have hsharing : ShamirSS.IsSharing true [0, 1, 2] 1 shares ⟨5⟩ := hsharing
  refine ⟨(sequential_openings (T := Mersenne61) (F := Mersenne61) (by decide) (by decide)).1 _ _
      fastSharings_isSharing, shares, hdeal,
    (sequential_openings (T := Mersenne61) (F := Mersenne61) (by decide) (by decide)).2 _ _
      fun x hx => ?_⟩
  obtain rfl : x = (shares, ⟨5⟩) := by simpa using hx
  exact ⟨hsharing.valid, 1, by decide, hsharing.shared⟩

end SclRs
