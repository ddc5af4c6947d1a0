import SclRs.Lib.FixedSum
import SclRs.Math.Field.Mersenne61
import SclRs.Ss.Additive

/-!
# Additive dealing is private

The values of a dealing are the draws and what completes their sum to the secret (`value_eq`), a vector
with the secret as its sum. Leaving out the last value gives the draws back; leaving out any other one is
as good, so that the draws and the values of all parties but one determine each other (`additive_sharing`).
-/

namespace SclRs

open RingOps LawfulRing Lib

namespace AdditiveSS

variable {T K : Type} [RingOps T] [CommRing K] [LawfulRing T K] {parties : List PartyId} {secret : T}

/-- Positional shares that sum to the secret, with one leader, the smallest party. -/
structure IsDealing (parties : List PartyId) (secret : T) (shares : List (AdditiveSS T)) : Prop where
  party : shares.map AdditiveSS.party = parties
  valid : ∀ s ∈ shares, Valid s.value
  sum : (shares.map fun s => val s.value).sum = val secret
  secretFromShares : AdditiveSS.secretFromShares shares = secret
  leader : ∃ p ∈ parties, (∀ q ∈ parties, p ≤ q) ∧ (shares.filter isLeader).map AdditiveSS.party = [p]

theorem sharesFromSecret_isDealing (hne : parties ≠ []) (hnodup : parties.Nodup) (hsecret : Valid secret)
    {rng : Nat → T} (hrng : ∀ i, Valid (rng i)) :
    IsDealing parties secret (sharesFromSecret secret parties rng) := by
  obtain ⟨x, hx, hsharing⟩ := sharesFromSecret_isSharing hne hnodup hsecret hrng
  rw [hx]
  obtain ⟨leader, hleader⟩ := Option.isSome_iff_exists.mp (List.isSome_min?_iff.mpr hne)
  refine ⟨?_, List.forall_mem_map.mpr fun p hp => (hsharing.belongs p hp).valid, ?_,
    hsharing.secretFromShares_perm (.refl _), leader, List.min?_mem hleader,
    (List.min?_eq_some_iff.mp hleader).2, ?_⟩
  · rw [List.map_map]
    exact (List.map_congr_left fun p hp => (hsharing.belongs p hp).party).trans (List.map_id parties)
  · rw [List.map_map]
    exact hsharing.sum.symm
  · have hfilter : parties.filter (fun p => (x p).isLeader) = [leader] := by
      have hcongr : parties.filter (fun p => (x p).isLeader) = parties.filter (· == leader) :=
        List.filter_congr fun p hp => by rw [(hsharing.belongs p hp).isLeader, hleader]; rfl
      rw [hcongr, List.filter_beq, List.count_eq_one_of_mem hnodup (List.min?_mem hleader)]
      rfl
    rw [List.filter_map, List.map_map]
    change (parties.filter (fun p => (x p).isLeader)).map _ = _
    rw [hfilter]
    exact congrArg (· :: []) (hsharing.belongs leader (List.min?_mem hleader)).party

/-- The generator that draws these elements. -/
def drawn {k : Nat} (draws : Fin k → {x : T // Valid x}) (i : Nat) : T :=
  if h : i < k then (draws ⟨i, h⟩).1 else zero

theorem valid_drawn {k : Nat} (draws : Fin k → {x : T // Valid x}) (i : Nat) : Valid (drawn draws i) := by
  rw [drawn]
  split_ifs with hi
  · exact (draws ⟨i, hi⟩).2
  · exact valid_zero

omit [CommRing K] [LawfulRing T K] in
theorem map_value (hne : parties ≠ []) (rng : Nat → T) :
    (sharesFromSecret secret parties rng).map value = (List.range (parties.length - 1)).map rng ++
      [sub secret (((List.range (parties.length - 1)).map rng).foldl add zero)] := by
  have hlen := List.length_pos_iff.mpr hne
  rw [sharesFromSecret, List.map_map]
  apply List.map_snd_zip
  rw [List.length_append, List.length_map, List.length_range, List.length_singleton]
  omega

variable {k : Nat}

theorem map_drawn (draws : Fin k → {x : T // Valid x}) :
    (List.range k).map (drawn draws) = List.ofFn fun d => (draws d).1 := by
  refine List.ext_getElem (by simp) fun d hd hd' => ?_
  rw [List.length_ofFn] at hd'
  rw [List.getElem_map, List.getElem_range, List.getElem_ofFn, drawn, dif_pos hd']

/-- **The values of a dealing** are the draws and what completes their sum. -/
theorem value_eq (hlen : parties.length = k + 1) (hsecret : Valid secret)
    (draws : Fin k → {x : T // Valid x}) (j : Fin (k + 1)) :
    ∃ x, (sharesFromSecret secret parties (drawn draws))[j]?.map value = some x ∧ Valid x ∧
      val x = (FixedSum.snocEquiv (val secret) fun d => val (draws d).1).1 j := by
  have hvalid : ∀ v ∈ List.ofFn fun d => (draws d).1, Valid v := by
    intro v hv
    obtain ⟨d, rfl⟩ := List.mem_ofFn.mp hv
    exact (draws d).2
  obtain ⟨hacc, haccVal⟩ := foldl_add hvalid valid_zero
  change ∃ x, (sharesFromSecret secret parties (drawn draws))[(j : Nat)]?.map value = some x ∧ _
  rw [← List.getElem?_map, map_value (List.ne_nil_of_length_eq_add_one hlen), hlen, Nat.add_sub_cancel,
    map_drawn]
  cases j using Fin.lastCases with
  | last =>
    refine ⟨_, ?_, valid_sub hsecret hacc, ?_⟩
    · have hlast := @List.getElem?_concat_length _ (List.ofFn fun d => (draws d).1)
        (sub secret ((List.ofFn fun d => (draws d).1).foldl add zero))
      rwa [List.length_ofFn] at hlast
    · rw [val_sub hsecret hacc, haccVal, val_zero, zero_add, List.map_ofFn, List.sum_ofFn]
      simp only [FixedSum.snocEquiv, Equiv.coe_fn_mk, Fin.snoc_last, Function.comp_apply]
  | cast j =>
    refine ⟨(draws j).1, ?_, (draws j).2, ?_⟩
    · rw [Fin.val_castSucc, List.getElem?_append_left (by rw [List.length_ofFn]; exact j.2),
        List.getElem?_ofFn, dif_pos j.2]
    · simp only [FixedSum.snocEquiv, Equiv.coe_fn_mk, Fin.snoc_castSucc]

/-- **Additive sharing is correct, has one leader, and is private**. -/
theorem additive_sharing (hlen : parties.length = k + 1) (hnodup : parties.Nodup)
    (hsecret : Valid secret) :
    (∀ rng : Nat → T, (∀ i, Valid (rng i)) →
      IsDealing parties secret (sharesFromSecret secret parties rng)) ∧
    ∀ i : Fin (k + 1), ∃ f : (Fin k → {x : T // Valid x}) → {j // j ≠ i} → {x : T // Valid x},
      Function.Bijective f ∧ ∀ draws j,
        (sharesFromSecret secret parties (drawn draws))[j.1]?.map value = some (f draws j).1 := by
  refine ⟨fun rng hrng => sharesFromSecret_isDealing (List.ne_nil_of_length_eq_add_one hlen) hnodup hsecret hrng,
    fun i => ?_⟩
  let e : (Fin k → {x : T // Valid x}) ≃ ({j // j ≠ i} → {x : T // Valid x}) :=
    (Equiv.arrowCongr (.refl _) validEquiv).trans <| (FixedSum.snocEquiv (val secret)).trans <|
      (FixedSum.othersEquiv (val secret) i).trans (Equiv.arrowCongr (.refl _) validEquiv.symm)
  refine ⟨e, e.bijective, fun draws j => ?_⟩
  obtain ⟨x, hx, hvalid, hval⟩ := value_eq hlen hsecret draws j
  rw [hx, val_inj hvalid (e draws j).2 (hval.trans ?_)]
  exact (Equiv.apply_symm_apply validEquiv _).symm

theorem additive_sharing_three :
    IsDealing [4, 0, 2] (⟨5⟩ : Mersenne61) (sharesFromSecret ⟨5⟩ [4, 0, 2] fun _ => ⟨7⟩) ∧
    ∀ i : Fin 3, ∃ f : (Fin 2 → {x : Mersenne61 // Valid x}) → {j // j ≠ i} → {x : Mersenne61 // Valid x},
      Function.Bijective f ∧ ∀ draws j,
        (sharesFromSecret ⟨5⟩ [4, 0, 2] (drawn draws))[j.1]?.map value = some (f draws j).1 := by
  have h := @additive_sharing Mersenne61 _ _ _ _ [4, 0, 2] ⟨5⟩ 2 rfl (by decide)
    (show Mersenne61.Canonical ⟨5⟩ by decide)
  exact ⟨h.1 _ fun _ => (show Mersenne61.Canonical ⟨7⟩ by decide), h.2⟩

end AdditiveSS

end SclRs
