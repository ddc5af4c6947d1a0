import Mathlib.SetTheory.Cardinal.Finite
import SclRs.Net.Sequence

/-!
# What a coalition sees

The parties of a coalition follow the protocol and compare notes: the random choices that they made, the
packets that they sent and received, and their results. Two networks look alike to them under a permutation
`φ` of the choices of all parties if `φ` keeps those of the coalition and what it sends, receives and learns
(`LooksAlike`). Then each view comes from as many choices in the one network as in the other
(`LooksAlike.card_eq`). For networks with the same packets in every schedule it is enough to compare these
(`looksAlike_of_carries`).
-/

namespace SclRs.NetState

variable {ρ : Type}

/-- The packets that were sent on a link. -/
def packetsOn (t : NetState ρ) (link : Link) : List Packet := t.received link ++ t.channels link

/-- The two states, of networks that are done, are the same to the coalition. -/
structure SameView (coalition : List PartyId) (t t' : NetState ρ) : Prop where
  results : ∀ p ∈ coalition, t.progs p = t'.progs p
  received : ∀ p ∈ coalition, ∀ q, t.received ⟨q, p⟩ = t'.received ⟨q, p⟩
  sent : ∀ p ∈ coalition, ∀ q, t.packetsOn ⟨p, q⟩ = t'.packetsOn ⟨p, q⟩

variable {parties coalition : List PartyId} {t t' u : NetState ρ}

theorem SameView.symm (h : SameView coalition t t') : SameView coalition t' t :=
  ⟨fun p hp => (h.results p hp).symm, fun p hp q => (h.received p hp q).symm, fun p hp q => (h.sent p hp q).symm⟩

theorem SameView.trans (h : SameView coalition t t') (h' : SameView coalition t' u) : SameView coalition t u :=
  ⟨fun p hp => (h.results p hp).trans (h'.results p hp),
    fun p hp q => (h.received p hp q).trans (h'.received p hp q),
    fun p hp q => (h.sent p hp q).trans (h'.sent p hp q)⟩

variable {Coins C : Type} {part : PartyId → Coins → C} {s s' : Coins → NetState ρ} {φ : Equiv.Perm Coins}

variable (parties coalition part s s' φ) in
/-- The coalition cannot tell `s` from `s'` with the choices renamed; `part p` are those of party `p`. -/
structure LooksAlike : Prop where
  part : ∀ c, ∀ p ∈ coalition, part p (φ c) = part p c
  views : ∀ c schedule schedule' t t', (s c).run parties schedule = some t → t.Maximal parties →
    (s' (φ c)).run parties schedule' = some t' → t'.Maximal parties → SameView coalition t t'

theorem Carries.packetsOn_eq {s : NetState ρ} {result : PartyId → ρ} {traffic : Link → List Packet}
    (h : s.Carries parties result traffic) {schedule : List Act} (hrun : s.run parties schedule = some t)
    (hmax : t.Maximal parties) {link : Link} : t.packetsOn link = traffic link := by
  rw [packetsOn, h.carried schedule t hrun hmax, h.empty schedule t hrun hmax, List.append_nil]

/-- Networks that carry the same packets to the coalition and from it. -/
theorem looksAlike_of_carries (hcoalition : ∀ p ∈ coalition, p ∈ parties)
    (hpart : ∀ c, ∀ p ∈ coalition, part p (φ c) = part p c)
    (h : ∀ c, ∃ result result' traffic traffic', (s c).Carries parties result traffic ∧
      (s' (φ c)).Carries parties result' traffic' ∧
      ∀ p ∈ coalition, result p = result' p ∧
        ∀ q, traffic ⟨q, p⟩ = traffic' ⟨q, p⟩ ∧ traffic ⟨p, q⟩ = traffic' ⟨p, q⟩) :
    LooksAlike parties coalition part s s' φ where
  part := hpart
  views c schedule schedule' t t' hrun hmax hrun' hmax' := by
    obtain ⟨result, result', traffic, traffic', hs, hs', hsame⟩ := h c
    refine ⟨fun p hp => ?_, fun p hp q => ?_, fun p hp q => ?_⟩
    · rw [hs.results schedule t hrun hmax p (hcoalition p hp), (hsame p hp).1,
        hs'.results schedule' t' hrun' hmax' p (hcoalition p hp)]
    · rw [hs.carried schedule t hrun hmax, ((hsame p hp).2 q).1, hs'.carried schedule' t' hrun' hmax']
    · rw [hs.packetsOn_eq hrun hmax, ((hsame p hp).2 q).2, hs'.packetsOn_eq hrun' hmax']

variable (parties coalition part s) in
/-- With the choices `c` the coalition makes the choices `k` and sees what it sees in `v`. -/
def Sees (k : PartyId → C) (v : NetState ρ) (c : Coins) : Prop :=
  (∀ p ∈ coalition, part p c = k p) ∧
    ∀ schedule t, (s c).run parties schedule = some t → t.Maximal parties → SameView coalition v t

/-- **Every view is as likely** in the one network as in the other. -/
theorem LooksAlike.card_eq (h : LooksAlike parties coalition part s s' φ) (k : PartyId → C) (v : NetState ρ) :
    Nat.card {c // Sees parties coalition part s k v c} =
      Nat.card {c // Sees parties coalition part s' k v c} := by
  refine Nat.card_congr (φ.subtypeEquiv fun c => ?_)
  obtain ⟨schedule, t, hrun, hmax⟩ := exists_maximal parties (s c)
  obtain ⟨schedule', t', hrun', hmax'⟩ := exists_maximal parties (s' (φ c))
  refine and_congr (forall₂_congr fun p hp => by rw [h.part c p hp]) ⟨fun hv => ?_, fun hv => ?_⟩
  · intro final u hu humax
    exact (hv schedule t hrun hmax).trans (h.views c schedule final t u hrun hmax hu humax)
  · intro final u hu humax
    exact (hv schedule' t' hrun' hmax').trans (h.views c final schedule' u t' hu humax hrun' hmax').symm

end SclRs.NetState
