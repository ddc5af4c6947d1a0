import Mathlib.Data.List.Sort
import Mathlib.Data.Prod.Lex
import Mathlib.Order.Basic

/-!
# Priority queues as lists in pop order

A queue is the list of its elements in the order in which they will be popped, ordered strictly by
a `key` into a linear order. `push` inserts at the element's place, popping takes the head.

* `ordered_push`: pushing an element with a new key keeps the queue ordered.
* `filterMap_push_last`: what a projection `f` sees of the queue grows at its end when the pushed
  element orders after every element `f` sees.
* `head_key_le`: the head has the least key.
-/

namespace SclRs.Lib.TimeQueue

variable {ε κ α : Type*} [LinearOrder κ] (key : ε → κ)

def push (e : ε) (q : List ε) : List ε := q.orderedInsert (fun a b => key a ≤ key b) e

/-- The queue is in pop order, without ties. -/
def Ordered (q : List ε) : Prop := q.Pairwise fun a b => key a < key b

@[simp] theorem mem_push {a e : ε} {q : List ε} : a ∈ push key e q ↔ a = e ∨ a ∈ q :=
  List.mem_orderedInsert _

@[simp] theorem length_push (e : ε) (q : List ε) : (push key e q).length = q.length + 1 :=
  List.orderedInsert_length _ _ _

theorem ordered_nil : Ordered key ([] : List ε) := List.Pairwise.nil

theorem Ordered.tail {e : ε} {q : List ε} (h : Ordered key (e :: q)) : Ordered key q :=
  (List.pairwise_cons.mp h).2

/-- Nothing orders before the head. -/
theorem Ordered.head_key_le {e : ε} {q : List ε} (h : Ordered key (e :: q)) :
    ∀ a ∈ e :: q, key e ≤ key a := by
  intro a ha
  rcases List.mem_cons.mp ha with rfl | ha
  · exact le_rfl
  · exact le_of_lt ((List.pairwise_cons.mp h).1 a ha)

theorem ordered_push {e : ε} {q : List ε} (h : Ordered key q) (hnew : ∀ a ∈ q, key a ≠ key e) :
    Ordered key (push key e q) := by
  induction q with
  | nil => exact List.pairwise_singleton _ _
  | cons x q ih =>
    obtain ⟨hx, hq⟩ := List.pairwise_cons.mp h
    unfold push
    rw [List.orderedInsert_cons]
    split_ifs with hle
    · have hlt : key e < key x := lt_of_le_of_ne hle (Ne.symm (hnew x (by simp)))
      refine List.pairwise_cons.mpr ⟨fun a ha => ?_, h⟩
      rcases List.mem_cons.mp ha with rfl | ha
      · exact hlt
      · exact hlt.trans (hx a ha)
    · refine List.pairwise_cons.mpr ⟨fun a ha => ?_, ih hq fun a ha => hnew a (by simp [ha])⟩
      rcases (mem_push key).mp ha with rfl | ha
      · exact not_le.mp hle
      · exact hx a ha

theorem filterMap_push_none (f : ε → Option α) {e : ε} (q : List ε) (he : f e = none) :
    (push key e q).filterMap f = q.filterMap f := by
  induction q with
  | nil => simp [push, he]
  | cons x q ih =>
    unfold push at ih ⊢
    rw [List.orderedInsert_cons]
    split_ifs
    · simp [he]
    · simp only [List.filterMap_cons, ih]

/-- The pushed element comes last among those the projection sees. -/
theorem filterMap_push_last (f : ε → Option α) {e : ε} {q : List ε} {v : α} (h : Ordered key q)
    (he : f e = some v) (hlast : ∀ a ∈ q, f a ≠ none → key a < key e) :
    (push key e q).filterMap f = q.filterMap f ++ [v] := by
  induction q with
  | nil => simp [push, he]
  | cons x q ih =>
    obtain ⟨hx, hq⟩ := List.pairwise_cons.mp h
    unfold push at ih ⊢
    rw [List.orderedInsert_cons]
    split_ifs with hle
    · -- everything from `x` on orders after `e`, so `f` sees none of it
      have hunseen : ∀ a ∈ x :: q, f a = none := by
        intro a ha
        by_contra hseen
        have hxa : key x ≤ key a := Ordered.head_key_le key h a ha
        exact absurd (hlast a ha hseen) (not_lt.mpr (hle.trans hxa))
      have hnil : (x :: q).filterMap f = [] := List.filterMap_eq_nil_iff.mpr hunseen
      rw [List.filterMap_cons, he, hnil]
      rfl
    · have htail := ih hq fun a ha => hlast a (by simp [ha])
      simp only [List.filterMap_cons, htail]
      cases f x <;> rfl

end SclRs.Lib.TimeQueue
