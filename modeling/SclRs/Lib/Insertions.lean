import Mathlib.Data.List.Induction
import Mathlib.Data.List.Perm.Subperm

/-!
# Insertions into a map

A map is the list of its entries; an insertion replaces the entry of its key. After several insertions
the keys are those inserted, each of them once, and if these are distinct nothing has been replaced.
Insertions as many as the keys that are found afterwards have distinct keys (`perm_of_forall_mem`).
A value can be changed in its place (`modify`), which is seen at its key only, and an entry can be
removed. Changes at different keys commute, and what commutes can be done in any order (`foldlM_perm`).
-/

namespace SclRs.Lib.Insertions

variable {κ ν : Type*} [DecidableEq κ]

/-- The entry of the key is replaced, or there is one more. -/
def insert (m : List (κ × ν)) (k : κ) (v : ν) : List (κ × ν) := m.filter (·.1 ≠ k) ++ [(k, v)]

def insertAll (es : List (κ × ν)) : List (κ × ν) := es.foldl (fun m e => insert m e.1 e.2) []

theorem insertAll_concat (es : List (κ × ν)) (e : κ × ν) :
    insertAll (es ++ [e]) = insert (insertAll es) e.1 e.2 := by rw [insertAll, List.foldl_concat]; rfl

theorem mem_keys_insert {m : List (κ × ν)} {k k' : κ} {v : ν} :
    k' ∈ (insert m k v).map Prod.fst ↔ k' ∈ m.map Prod.fst ∨ k' = k := by
  by_cases h : k' = k
  · simp [insert, h]
  · simp [insert, h]

theorem mem_keys_insertAll {es : List (κ × ν)} {k : κ} :
    k ∈ (insertAll es).map Prod.fst ↔ k ∈ es.map Prod.fst := by
  induction es using List.reverseRecOn with
  | nil => rfl
  | append_singleton es e ih =>
    rw [insertAll_concat, mem_keys_insert, ih, List.map_append, List.mem_append, List.map_singleton,
      List.mem_singleton]

theorem insertAll_of_nodup {es : List (κ × ν)} (hnodup : (es.map Prod.fst).Nodup) : insertAll es = es := by
  induction es using List.reverseRecOn with
  | nil => rfl
  | append_singleton es e ih =>
    rw [List.map_append, List.map_singleton, List.nodup_append] at hnodup
    have hkeep : es.filter (·.1 ≠ e.1) = es := List.filter_eq_self.mpr fun e' he' => by
      simpa using hnodup.2.2 _ (List.mem_map_of_mem he') _ (List.mem_singleton_self _)
    rw [insertAll_concat, ih hnodup.1, insert, hkeep]

/-- A list that contains distinct elements, as many as it has, is these. -/
theorem perm_of_forall_mem {α : Type*} {l m : List α} (hnodup : m.Nodup) (hmem : ∀ a ∈ m, a ∈ l)
    (hlen : l.length = m.length) : l.Perm m :=
  ((List.subperm_of_subset hnodup hmem).perm_of_length_le (Nat.le_of_eq hlen)).symm

/-! ### Entries that are changed and removed -/

def modify (m : List (κ × ν)) (k : κ) (f : ν → ν) : List (κ × ν) :=
  m.map fun e => (e.1, if e.1 = k then f e.2 else e.2)

def remove (m : List (κ × ν)) (k : κ) : List (κ × ν) := m.filter (·.1 ≠ k)

@[simp] theorem keys_modify (m : List (κ × ν)) (k : κ) (f : ν → ν) :
    (modify m k f).map Prod.fst = m.map Prod.fst := by
  rw [modify, List.map_map]
  rfl

theorem keys_remove_sublist (m : List (κ × ν)) (k : κ) :
    ((remove m k).map Prod.fst).Sublist (m.map Prod.fst) := List.filter_sublist.map _

theorem lookup_modify (m : List (κ × ν)) (k k' : κ) (f : ν → ν) :
    (modify m k f).lookup k' = if k' = k then (m.lookup k').map f else m.lookup k' := by
  induction m with
  | nil => simp [modify]
  | cons e m ih =>
    obtain ⟨a, v⟩ := e
    rw [modify, List.map_cons, ← modify, List.lookup_cons, List.lookup_cons, ih]
    by_cases ha : k' = a
    · subst ha
      by_cases hk : k' = k
      · simp [hk]
      · simp [hk]
    · simp only [beq_false_of_ne ha]

theorem lookup_eq_none_iff_notMem {m : List (κ × ν)} {k : κ} : m.lookup k = none ↔ k ∉ m.map Prod.fst := by
  rw [List.lookup_eq_none_iff, List.mem_map, not_exists]
  refine forall_congr' fun e => ?_
  rw [not_and, bne_iff_ne, ne_comm]

theorem lookup_of_mem {m : List (κ × ν)} (hnodup : (m.map Prod.fst).Nodup) {k : κ} {v : ν} (h : (k, v) ∈ m) :
    m.lookup k = some v := by
  induction m with
  | nil => cases h
  | cons e m ih =>
    obtain ⟨k', v'⟩ := e
    rw [List.map_cons, List.nodup_cons] at hnodup
    rw [List.lookup_cons]
    obtain heq | hmem := List.mem_cons.mp h
    · obtain ⟨rfl, rfl⟩ := Prod.mk.inj heq
      rw [beq_self_eq_true]
    · have hne : k ≠ k' := by
        rintro rfl
        have hkey : k ∈ m.map Prod.fst := List.mem_map_of_mem hmem
        exact hnodup.1 hkey
      rw [beq_false_of_ne hne]
      exact ih hnodup.2 hmem

/-! ### The order of changes -/

theorem modify_comm (m : List (κ × ν)) {k k' : κ} (hne : k ≠ k') (f g : ν → ν) :
    modify (modify m k f) k' g = modify (modify m k' g) k f := by
  rw [modify, modify, modify, modify, List.map_map, List.map_map]
  refine List.map_congr_left fun e _ => Prod.ext rfl ?_
  by_cases hk : e.1 = k
  · simp [hk, hne]
  · simp [hk]

/-- **Any order** of steps that commute, one of which may fail, has the same outcome. -/
theorem foldlM_perm {σ α : Type*} {step : σ → α → Option σ} {R : α → α → Prop} (hsymm : ∀ a b, R a b → R b a)
    (hcomm : ∀ s a b, R a b → ((step s a).bind fun s => step s b) = (step s b).bind fun s => step s a)
    {l l' : List α} (h : l.Perm l') (hR : l.Pairwise R) (s : σ) : l.foldlM step s = l'.foldlM step s := by
  induction h generalizing s with
  | nil => rfl
  | cons a h ih =>
    rw [List.foldlM_cons, List.foldlM_cons]
    exact congrArg _ (funext fun s => ih (List.pairwise_cons.mp hR).2 s)
  | swap a b l =>
    obtain ⟨hb, -⟩ := List.pairwise_cons.mp hR
    have hab := congrArg (·.bind fun s => l.foldlM step s) (hcomm s b a (hb a List.mem_cons_self))
    simpa only [List.foldlM_cons, Option.bind_eq_bind, Option.bind_assoc] using hab
  | trans h h' ih ih' =>
    exact (ih hR s).trans (ih' (h.pairwise hR fun hr => hsymm _ _ hr) s)

end SclRs.Lib.Insertions
