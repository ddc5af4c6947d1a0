import SclRs.Examples.SecureSum
import SclRs.Net.View
import SclRs.Ss.AdditivePrivacy
import SclRs.Ss.Draws

/-!
# Secure summation reveals the sum only

Let a coalition leave out some party `h`. If an honest party changes its input, it can change the share that
it deals to `h` by as much and keep the others, which takes a permutation of its draws (`redraw`). If all
honest parties do so and the sum of the inputs stays, then so does the share of the sum that `h` holds, and
the coalition receives the same packets (`SecureAddition.reveals_sum_only`).
-/

namespace SclRs

open RingOps LawfulRing NetState Lib

namespace AdditiveSS

variable {R K : Type} [RingOps R] [CommRing K] [LawfulRing R K] {parties : List PartyId} {k : Nat}

theorem Belongs.eq_of_val {x y : AdditiveSS R} {me : PartyId} (hx : x.Belongs parties me)
    (hy : y.Belongs parties me) (hval : val x.value = val y.value) : x = y := by
  obtain ⟨value, party, isLeader⟩ := x
  obtain ⟨value', party', isLeader'⟩ := y
  obtain rfl : value = value' := val_inj hx.valid hy.valid hval
  obtain rfl : party = party' := hx.party.trans hy.party.symm
  obtain rfl : isLeader = isLeader' := hx.isLeader.trans hy.isLeader.symm
  rfl

/-- The draws with which a dealing of `secret'` differs from that of `secret` at position `i` only. -/
noncomputable def redraw (secret secret' : R) (i : Fin (k + 1)) :
    (Fin k → {x : R // Valid x}) ≃ (Fin k → {x : R // Valid x}) :=
  ((Equiv.refl _).arrowCongr validEquiv).trans <|
    (FixedSum.moveEquiv (val secret) (val secret') i).trans ((Equiv.refl _).arrowCongr validEquiv).symm

theorem redraw_self (secret : R) (i : Fin (k + 1)) (draws : Fin k → {x : R // Valid x}) :
    redraw secret secret i draws = draws := by
  rw [redraw, Equiv.trans_apply, Equiv.trans_apply, FixedSum.moveEquiv_self, Equiv.symm_apply_apply]

theorem val_redraw (secret secret' : R) (i : Fin (k + 1)) (draws : Fin k → {x : R // Valid x}) :
    (fun d => val (redraw secret secret' i draws d).1) =
      FixedSum.moveEquiv (val secret) (val secret') i fun d => val (draws d).1 :=
  ((Equiv.refl _).arrowCongr validEquiv).apply_symm_apply _

variable {secret secret' : R} {draws : Fin k → {x : R // Valid x}} {dealt dealt' : PartyId → AdditiveSS R}

theorem val_dealt (hlen : parties.length = k + 1) (hsecret : Valid secret)
    (hdealt : sharesFromSecret secret parties (drawn draws) = parties.map dealt) {j : Fin (k + 1)} {q : PartyId}
    (hq : parties[(j : Nat)]? = some q) :
    val (dealt q).value = (FixedSum.snocEquiv (val secret) fun d => val (draws d).1).1 j := by
  obtain ⟨x, hx, -, hval⟩ := value_eq hlen hsecret draws j
  change (sharesFromSecret secret parties (drawn draws))[(j : Nat)]?.map value = some x at hx
  rw [hdealt, List.getElem?_map, hq] at hx
  obtain rfl : (dealt q).value = x := Option.some.inj hx
  exact hval

theorem val_dealt_redraw (hlen : parties.length = k + 1) (hsecret : Valid secret) (hsecret' : Valid secret')
    {h q : PartyId} {i : Fin (k + 1)} (hi : (i : Nat) = parties.idxOf h) (hq : q ∈ parties) (hne : q ≠ h)
    (hdealt : sharesFromSecret secret parties (drawn draws) = parties.map dealt)
    (hdealt' : sharesFromSecret secret' parties (drawn (redraw secret secret' i draws)) = parties.map dealt') :
    val (dealt' q).value = val (dealt q).value := by
  have hlt : parties.idxOf q < k + 1 := hlen ▸ List.idxOf_lt_length_of_mem hq
  have hat : parties[((⟨parties.idxOf q, hlt⟩ : Fin (k + 1)) : Nat)]? = some q :=
    List.getElem?_idxOf hq
  have hji : (⟨parties.idxOf q, hlt⟩ : Fin (k + 1)) ≠ i := by
    intro heq
    exact hne ((List.idxOf_inj hq).mp ((congrArg Fin.val heq).trans hi))
  rw [val_dealt hlen hsecret' hdealt' hat, val_dealt hlen hsecret hdealt hat, val_redraw,
    FixedSum.snocEquiv_moveEquiv _ _ _ _ hji]

end AdditiveSS

theorem eq_of_sum_eq {K : Type} [AddCommGroup K] {parties : List PartyId} {f g : PartyId → K} {h : PartyId}
    (hnodup : parties.Nodup) (hmem : h ∈ parties) (hne : ∀ p ∈ parties, p ≠ h → f p = g p)
    (hsum : (parties.map f).sum = (parties.map g).sum) : f h = g h := by
  have hperm := List.perm_cons_erase hmem
  rw [(hperm.map f).sum_eq, (hperm.map g).sum_eq, List.map_cons, List.map_cons, List.sum_cons, List.sum_cons]
    at hsum
  have hrest : (parties.erase h).map f = (parties.erase h).map g := by
    refine List.map_congr_left fun p hp => ?_
    exact hne p (List.mem_of_mem_erase hp) (hnodup.mem_erase_iff.mp hp).1
  rw [hrest] at hsum
  exact add_right_cancel hsum

namespace SecureAddition

section
variable {R K : Type} [RingOps R] [CommRing K] [LawfulRing R K] {parties : List PartyId} {k : Nat}

theorem draws_eq (c : Draws R parties k) {p : PartyId} (hp : p ∈ parties) :
    draws c p = AdditiveSS.drawn (c ⟨p, hp⟩) := by
  funext i
  by_cases hi : i < k
  · rw [draws_lt c hp hi, AdditiveSS.drawn, dif_pos hi]
  · rw [draws, dif_neg fun h => hi h.2, AdditiveSS.drawn, dif_neg hi]

variable {codec : Postcard (AdditiveSS R)} {checks : Bool} {lists : PartyId → List PartyId}
  {coalition : List PartyId} {input input' : PartyId → R}

/-- The draws of all parties, so that only the shares for `h` differ. -/
noncomputable def redrawAll (parties : List PartyId) (lists : PartyId → List PartyId) (input input' : PartyId → R)
    (h : PartyId) : Equiv.Perm (Draws R parties k) :=
  Equiv.piCongrRight fun p =>
    AdditiveSS.redraw (input p.1) (input' p.1) (Fin.ofNat (k + 1) ((lists p.1).idxOf h))

theorem looksAlike_redrawAll (hlen : parties.length = k + 1) (hnodup : parties.Nodup)
    (hlists : ∀ p ∈ parties, (lists p).Perm parties) (hinput : ∀ p ∈ parties, Valid (input p))
    (hinput' : ∀ p ∈ parties, Valid (input' p)) (hcoalition : ∀ p ∈ coalition, p ∈ parties) {h : PartyId}
    (hmem : h ∈ parties) (hhonest : h ∉ coalition) (hknown : ∀ p ∈ coalition, input p = input' p)
    (hsum : (parties.map fun p => val (input p)).sum = (parties.map fun p => val (input' p)).sum) :
    LooksAlike parties coalition (fun p (c : Draws R parties k) => draws c p)
      (fun c => net codec checks lists (draws c) input) (fun c => net codec checks lists (draws c) input')
      (redrawAll parties lists input input' h) := by
  have hne : parties ≠ [] := List.ne_nil_of_length_eq_add_one hlen
  refine looksAlike_of_carries hcoalition (fun c p hp => ?_) fun c => ?_
  · refine draws_congr fun _ => ?_
    simp only [redrawAll, Equiv.piCongrRight_apply, Pi.map_apply, hknown p hp, AdditiveSS.redraw_self]
  · obtain ⟨dealt, z, total, hdealt, hsums, hval, hcarries⟩ := exists_carries codec checks hnodup hne hlists
      hinput fun p _ => valid_draws c p
    obtain ⟨dealt', z', total', hdealt', hsums', hval', hcarries'⟩ := exists_carries codec checks hnodup hne
      hlists hinput' fun p _ => valid_draws (redrawAll parties lists input input' h c) p
    have hvalue : ∀ p ∈ parties, ∀ q ∈ parties, q ≠ h → val (dealt p q).value = val (dealt' p q).value := by
      intro p hp q hq hqh
      have hperm := hlists p hp
      have hlt : (lists p).idxOf h < k + 1 := by
        rw [← hlen, ← hperm.length_eq]
        exact List.idxOf_lt_length_of_mem (hperm.mem_iff.mpr hmem)
      have hdeal' := (hdealt' p hp).1
      have hdeal := (hdealt p hp).1
      rw [draws_eq _ hp] at hdeal hdeal'
      exact (AdditiveSS.val_dealt_redraw (hperm.length_eq.trans hlen) (hinput p hp) (hinput' p hp)
        (Nat.mod_eq_of_lt hlt) (hperm.mem_iff.mpr hq) hqh hdeal hdeal').symm
    have hheld : ∀ p ∈ parties, p ≠ h → val (z p).value = val (z' p).value := by
      intro p hp hph
      rw [hsums.value p hp, hsums'.value p hp]
      exact congrArg List.sum (List.map_congr_left fun q hq => hvalue q hq p hp hph)
    have htotal : val total = val total' := hval.trans (hsum.trans hval'.symm)
    have hlast : val (z h).value = val (z' h).value :=
      eq_of_sum_eq hnodup hmem hheld (hsums.sharing.sum.symm.trans (htotal.trans hsums'.sharing.sum))
    have hz : ∀ p ∈ parties, z p = z' p := by
      intro p hp
      refine (hsums.sharing.belongs p hp).eq_of_val (hsums'.sharing.belongs p hp) ?_
      by_cases hph : p = h
      · exact hph ▸ hlast
      · exact hheld p hp hph
    -- a party of the coalition deals the same shares
    have hown : ∀ p ∈ coalition, ∀ q ∈ parties, dealt p q = dealt' p q := by
      intro p hp q hq
      have hp' := hcoalition p hp
      have hdraws : redrawAll parties lists input input' h c ⟨p, hp'⟩ = c ⟨p, hp'⟩ := by
        simp only [redrawAll, Equiv.piCongrRight_apply, Pi.map_apply, hknown p hp, AdditiveSS.redraw_self]
      have hdeal := (hdealt p hp').1
      have hdeal' := (hdealt' p hp').1
      rw [draws_eq _ hp', hdraws, ← draws_eq _ hp', ← hknown p hp, hdeal] at hdeal'
      exact List.map_inj_left.mp hdeal' q ((hlists p hp').mem_iff.mpr hq)
    refine ⟨_, _, _, _, hcarries, hcarries', fun p hp => ⟨?_, fun q => ⟨?_, ?_⟩⟩⟩
    · rw [val_inj hsums.sharing.valid hsums'.sharing.valid htotal]
    · have hp' := hcoalition p hp
      have hph : p ≠ h := ne_of_mem_of_not_mem hp hhonest
      by_cases hq : q ∈ parties
      · have hdealtEq : dealt q p = dealt' q p := ((hdealt q hq).2.belongs p hp').eq_of_val
          ((hdealt' q hq).2.belongs p hp') (hvalue q hq p hp' hph)
        simp only [dealScript_packets hq hp', List.map_cons, List.map_nil, hdealtEq, hz q hq]
      · simp only [dealScript, hq, false_and, if_false]
    · by_cases hq : q ∈ parties
      · simp only [dealScript_packets (hcoalition p hp) hq, List.map_cons, List.map_nil, hown p hp q hq,
          hz p (hcoalition p hp)]
      · simp only [dealScript, hq, and_false, if_false]

/-- **Secure summation reveals the sum and nothing else**: to a coalition that leaves out some party, two
assignments of inputs, the same to the coalition, look alike just when they have the same sum. -/
theorem reveals_sum_only (hlen : parties.length = k + 1) (hnodup : parties.Nodup)
    (hlists : ∀ p ∈ parties, (lists p).Perm parties) (hinput : ∀ p ∈ parties, Valid (input p))
    (hinput' : ∀ p ∈ parties, Valid (input' p)) (hcoalition : ∀ p ∈ coalition, p ∈ parties)
    (hnonempty : coalition ≠ []) {h : PartyId} (hmem : h ∈ parties) (hhonest : h ∉ coalition)
    (hknown : ∀ p ∈ coalition, input p = input' p) :
    (∃ φ, LooksAlike parties coalition (fun p (c : Draws R parties k) => draws c p)
      (fun c => net codec checks lists (draws c) input) (fun c => net codec checks lists (draws c) input') φ) ↔
      (parties.map fun p => val (input p)).sum = (parties.map fun p => val (input' p)).sum := by
  have hne : parties ≠ [] := List.ne_nil_of_length_eq_add_one hlen
  refine ⟨fun ⟨φ, hφ⟩ => ?_, fun hsum =>
    ⟨_, looksAlike_redrawAll hlen hnodup hlists hinput hinput' hcoalition hmem hhonest hknown hsum⟩⟩
  -- the results alone tell different sums apart
  let c : Draws R parties k := fun _ _ => ⟨zero, valid_zero⟩
  obtain ⟨p, hp⟩ := List.exists_mem_of_ne_nil coalition hnonempty
  obtain ⟨_, _, total, -, -, hval, hcarries⟩ := exists_carries codec checks hnodup hne hlists hinput
    fun p _ => valid_draws c p
  obtain ⟨_, _, total', -, -, hval', hcarries'⟩ := exists_carries codec checks hnodup hne hlists hinput'
    fun p _ => valid_draws (φ c) p
  obtain ⟨schedule, t, hrun, hmax⟩ := exists_maximal parties (net codec checks lists (draws c) input)
  obtain ⟨schedule', t', hrun', hmax'⟩ := exists_maximal parties (net codec checks lists (draws (φ c)) input')
  have hsame := (hφ.views c schedule schedule' t t' hrun hmax hrun' hmax').results p hp
  rw [hcarries.results schedule t hrun hmax p (hcoalition p hp),
    hcarries'.results schedule' t' hrun' hmax' p (hcoalition p hp)] at hsame
  obtain rfl : total = total' := Except.ok.inj (Prog.ret.inj hsame)
  exact hval.symm.trans hval'

end

/-- Three parties, of which `q` has the input 9 and the others 5. -/
def threeParties (q : PartyId) (c : Draws Mersenne61 [0, 1, 2] 2) :
    NetState (Except (ProtocolError Mersenne61) Mersenne61) :=
  net (.ofCodec (AdditiveSS.codec Mersenne61.codec)) true (fun _ => [0, 1, 2]) (draws c)
    fun p => if p = q then ⟨9⟩ else ⟨5⟩

/-- Whether it is the second or the third makes each view of the first as likely. -/
theorem reveals_sum_only_three :
    (∃ φ, LooksAlike [0, 1, 2] [0] (fun p c => draws c p) (threeParties 1) (threeParties 2) φ) ∧
      ∀ k v, Nat.card {c // Sees [0, 1, 2] [0] (fun p c => draws c p) (threeParties 1) k v c} =
        Nat.card {c // Sees [0, 1, 2] [0] (fun p c => draws c p) (threeParties 2) k v c} := by
  have hvalid : ∀ q p : PartyId, Valid (if p = q then ⟨9⟩ else ⟨5⟩ : Mersenne61) := by
    intro q p
    split_ifs <;> exact show Mersenne61.Canonical _ by decide
  have hiff : (∃ φ, LooksAlike [0, 1, 2] [0] (fun p c => draws c p) (threeParties 1) (threeParties 2) φ) ↔ _ :=
    reveals_sum_only rfl (by decide) (by decide) (fun p _ => hvalid 1 p) (fun p _ => hvalid 2 p) (by decide)
      (by decide) (h := 2) (by decide) (by decide) (by decide)
  obtain ⟨φ, hφ⟩ := hiff.mpr (by simp [add_comm])
  exact ⟨⟨φ, hφ⟩, hφ.card_eq⟩

end SecureAddition

end SclRs
