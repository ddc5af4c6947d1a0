import SclRs.Ss.Share

/-!
# The draws of all parties

In a protocol in which each party draws `k` random elements, these are what its run depends on besides the
order of delivery. `draws c p` is the generator of party `p` that gives the elements `c p`.
-/

namespace SclRs

open RingOps LawfulRing

variable {R K : Type} [RingOps R] [CommRing K] [LawfulRing R K] {parties : List PartyId} {k : Nat}

/-- What the parties draw, `k` elements each. -/
abbrev Draws (R : Type) {K : Type} [RingOps R] [CommRing K] [LawfulRing R K] (parties : List PartyId)
    (k : Nat) : Type := {p // p ∈ parties} → Fin k → {x : R // Valid x}

def draws (c : Draws R parties k) (p : PartyId) (i : Nat) : R :=
  if h : p ∈ parties ∧ i < k then (c ⟨p, h.1⟩ ⟨i, h.2⟩).1 else zero

theorem draws_lt (c : Draws R parties k) {p : PartyId} (hp : p ∈ parties) {i : Nat} (hi : i < k) :
    draws c p i = (c ⟨p, hp⟩ ⟨i, hi⟩).1 := dif_pos ⟨hp, hi⟩

theorem valid_draws (c : Draws R parties k) (p : PartyId) (i : Nat) : Valid (draws c p i) := by
  rw [draws]
  split_ifs with h
  · exact (c ⟨p, h.1⟩ ⟨i, h.2⟩).2
  · exact valid_zero

theorem draws_congr {c c' : Draws R parties k} {p : PartyId} (h : ∀ hp : p ∈ parties, c ⟨p, hp⟩ = c' ⟨p, hp⟩) :
    draws c p = draws c' p := by
  funext i
  rw [draws, draws]
  split_ifs with hi
  · rw [h hi.1]
  · rfl

end SclRs
