import Mathlib.Data.Finset.Card
import Mathlib.Logic.Relation

/-!
# Ranks along an acyclic relation

In a finite set, the elements that are reached from an element can be counted. Where no element reaches
itself the count falls along the relation.
-/

namespace SclRs.Lib.Acyclic

open Relation

variable {α : Type*} {r : α → α → Prop} {s : Finset α} {a b : α}

open scoped Classical in
/-- How many elements of `s` are reached from `a`. -/
noncomputable def rank (r : α → α → Prop) (s : Finset α) (a : α) : Nat := (s.filter (TransGen r a)).card

theorem rank_le_card (a : α) : rank r s a ≤ s.card := by
  classical exact Finset.card_filter_le ..

theorem rank_lt (hab : r a b) (hb : b ∈ s) (hacyclic : ¬ TransGen r b b) : rank r s b < rank r s a := by
  classical
  refine Finset.card_lt_card ((Finset.ssubset_iff_of_subset fun c hc => ?_).mpr ⟨b, ?_, ?_⟩)
  · rw [Finset.mem_filter] at hc ⊢
    exact ⟨hc.1, .head hab hc.2⟩
  · rw [Finset.mem_filter]
    exact ⟨hb, .single hab⟩
  · rw [Finset.mem_filter]
    exact fun h => hacyclic h.2

theorem exists_next (h : TransGen r a a) : ∃ b, r a b ∧ TransGen r b b := by
  obtain ⟨b, hab, hba⟩ := TransGen.head'_iff.mp h
  exact ⟨b, hab, .tail' hba hab⟩

end SclRs.Lib.Acyclic
