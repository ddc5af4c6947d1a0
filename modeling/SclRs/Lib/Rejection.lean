import Mathlib.Data.Set.Card
import Mathlib.Logic.Equiv.Basic

/-!
# Rejection sampling

A sampler reads words from a source until one is accepted, and answers with its image. Where different
accepted words have different images, the sampler is unbiased: exchanging two accepted words everywhere
in a stream exchanges their images in the answer, so that both are the answer on equally many streams.
-/

namespace SclRs.Lib.Rejection

variable {W α : Type*} {words : Set W} {sample : List W → Option α} {support : Set α}

/-- The streams of `k` words of the source on which the sampler answers `a`. -/
def streams (words : Set W) (sample : List W → Option α) (k : Nat) (a : α) : Set (List W) :=
  {draws | draws.length = k ∧ (∀ v ∈ draws, v ∈ words) ∧ sample draws = some a}

/-- The answers are in the support, and each of it is the answer on the same number of streams. -/
structure Unbiased (words : Set W) (sample : List W → Option α) (support : Set α) : Prop where
  range : ∀ draws a, (∀ v ∈ draws, v ∈ words) → sample draws = some a → a ∈ support
  uniform : ∀ k, ∀ a ∈ support, ∀ b ∈ support,
    (streams words sample k a).ncard = (streams words sample k b).ncard

theorem streams_one (a : α) :
    streams words sample 1 a = (fun v => [v]) '' {v | v ∈ words ∧ sample [v] = some a} := by
  ext draws
  constructor
  · rintro ⟨hlen, hmem, ha⟩
    obtain ⟨v, rfl⟩ := List.length_eq_one_iff.mp hlen
    exact ⟨v, ⟨hmem v List.mem_cons_self, ha⟩, rfl⟩
  · rintro ⟨v, ⟨hv, ha⟩, rfl⟩
    exact ⟨rfl, fun u hu => List.mem_singleton.mp hu ▸ hv, ha⟩

theorem ncard_streams_one (a : α) :
    (streams words sample 1 a).ncard = {v | v ∈ words ∧ sample [v] = some a}.ncard := by
  rw [streams_one]
  exact Set.ncard_image_of_injective _ fun u v h => (List.cons_eq_cons.mp h).1

variable {accepts : W → Bool}

theorem image_streams_find? (σ : Equiv.Perm W) (hwords : ∀ v, σ v ∈ words ↔ v ∈ words)
    (haccepts : ∀ v, accepts (σ v) = accepts v) (k : Nat) (v : W) :
    List.map σ '' streams words (List.find? accepts) k v =
      streams words (List.find? accepts) k (σ v) := by
  have hcomp : accepts ∘ σ = accepts := funext haccepts
  have hfind : ∀ draws, List.find? accepts (draws.map σ) = (List.find? accepts draws).map σ := by
    intro draws
    rw [List.find?_map, hcomp]
  apply Set.Subset.antisymm
  · rintro _ ⟨draws, ⟨hlen, hmem, hv⟩, rfl⟩
    refine ⟨by rw [List.length_map, hlen], ?_, by rw [hfind, hv]; rfl⟩
    intro u hu
    obtain ⟨u, hu', rfl⟩ := List.mem_map.mp hu
    exact (hwords u).mpr (hmem u hu')
  · intro draws ⟨hlen, hmem, hv⟩
    have hinverse : (draws.map σ.symm).map σ = draws := by simp
    refine ⟨draws.map σ.symm, ⟨by rw [List.length_map, hlen], ?_, ?_⟩, hinverse⟩
    · intro u hu
      obtain ⟨u, hu', rfl⟩ := List.mem_map.mp hu
      rw [← hwords, σ.apply_symm_apply]
      exact hmem u hu'
    · rw [← hinverse, hfind] at hv
      obtain ⟨u, hu, huv⟩ := Option.map_eq_some_iff.mp hv
      rw [hu, σ.injective huv]

/-- **Two accepted words** are the first accepted one on equally many streams. -/
theorem ncard_streams_find? {x y : W} (hx : x ∈ words) (hy : y ∈ words) (hax : accepts x = true)
    (hay : accepts y = true) (k : Nat) :
    (streams words (List.find? accepts) k x).ncard = (streams words (List.find? accepts) k y).ncard := by
  classical
  have hwords : ∀ v, Equiv.swap x y v ∈ words ↔ v ∈ words := by
    intro v
    rw [Equiv.swap_apply_def]
    split_ifs with hvx hvy
    · exact iff_of_true hy (hvx ▸ hx)
    · exact iff_of_true hx (hvy ▸ hy)
    · exact Iff.rfl
  have haccepts : ∀ v, accepts (Equiv.swap x y v) = accepts v := by
    intro v
    rw [Equiv.swap_apply_def]
    split_ifs with hvx hvy
    · rw [hvx, hax, hay]
    · rw [hvy, hax, hay]
    · rfl
  rw [← Set.ncard_image_of_injective _ (List.map_injective_iff.mpr (Equiv.swap x y).injective),
    image_streams_find? _ hwords haccepts, Equiv.swap_apply_left]

/-- **Rejection sampling is unbiased.** -/
theorem unbiased_of_find? {f : W → α} (hinj : Set.InjOn f {v | v ∈ words ∧ accepts v = true})
    (hsample : ∀ draws, (∀ v ∈ draws, v ∈ words) → sample draws = (List.find? accepts draws).map f) :
    Unbiased words sample (f '' {v | v ∈ words ∧ accepts v = true}) := by
  have hfirst : ∀ draws v, (∀ u ∈ draws, u ∈ words) → List.find? accepts draws = some v →
      v ∈ words ∧ accepts v = true := by
    intro draws v hmem hv
    exact ⟨hmem v (List.mem_of_find?_eq_some hv), List.find?_some hv⟩
  have hstreams : ∀ k v, v ∈ words ∧ accepts v = true →
      streams words sample k (f v) = streams words (List.find? accepts) k v := by
    intro k v hv
    ext draws
    refine and_congr_right fun _ => and_congr_right fun hmem => ?_
    rw [hsample draws hmem, Option.map_eq_some_iff]
    constructor
    · rintro ⟨u, hu, huv⟩
      rw [hu, hinj (hfirst draws u hmem hu) hv huv]
    · exact fun h => ⟨v, h, rfl⟩
  refine ⟨fun draws a hmem ha => ?_, ?_⟩
  · rw [hsample draws hmem] at ha
    obtain ⟨v, hv, rfl⟩ := Option.map_eq_some_iff.mp ha
    exact ⟨v, hfirst draws v hmem hv, rfl⟩
  · rintro k _ ⟨x, hx, rfl⟩ _ ⟨y, hy, rfl⟩
    rw [hstreams k x hx, hstreams k y hy]
    exact ncard_streams_find? hx.1 hy.1 hx.2 hy.2 k

end SclRs.Lib.Rejection
