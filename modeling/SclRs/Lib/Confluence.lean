import Mathlib.Order.RelClasses

/-!
# Maximal runs under the diamond property

If two different steps from a state can always be followed by one step each to a common state, then no
choice along a run matters: once one run from a state ends where no step is possible, every run from
it can be continued to that end and has the same length when it gets there. The property is only asked
for on an invariant.
-/

namespace SclRs.Lib.Confluence

variable {σ : Type*} (step : σ → σ → Prop)

/-- `n` steps lead from the first state to the second. -/
def Steps : Nat → σ → σ → Prop
  | 0, x, y => x = y
  | n + 1, x, z => ∃ y, step x y ∧ Steps n y z

def Stuck (x : σ) : Prop := ∀ y, ¬ step x y

/-- On the states of `I`, which steps do not leave, two steps are the same or can be joined. -/
structure Diamond (I : σ → Prop) : Prop where
  keeps : ∀ {x y}, I x → step x y → I y
  joins : ∀ {x y z}, I x → step x y → step x z → y = z ∨ ∃ w, step y w ∧ step z w

variable {step} {I : σ → Prop}

theorem Steps.tail {n : Nat} {x y z : σ} (h : Steps step n x y) (hz : step y z) :
    Steps step (n + 1) x z := by
  induction n generalizing x with
  | zero => exact ⟨z, h ▸ hz, rfl⟩
  | succ n ih =>
    obtain ⟨w, hw, hrest⟩ := h
    exact ⟨w, hw, ih hrest⟩

/-- A first step can be taken out of any run that ends stuck. -/
theorem Diamond.steps_of_step (h : Diamond step I) {n : Nat} {x y z : σ} (hx : I x)
    (hrun : Steps step n x z) (hstuck : Stuck step z) (hy : step x y) :
    ∃ m, n = m + 1 ∧ Steps step m y z := by
  induction n generalizing x y with
  | zero => exact absurd hy (hrun ▸ hstuck y)
  | succ n ih =>
    obtain ⟨x', hx', hrest⟩ := hrun
    rcases h.joins hx hy hx' with rfl | ⟨w, hyw, hw⟩
    · exact ⟨n, rfl, hrest⟩
    · obtain ⟨m, rfl, hm⟩ := ih (h.keeps hx hx') hrest hw
      exact ⟨m + 1, rfl, w, hyw, hm⟩

/-- **Every run leads to the end of any maximal one**, in the steps that remain. -/
theorem Diamond.steps_remaining (h : Diamond step I) {n m : Nat} {x y z : σ} (hx : I x)
    (hrun : Steps step n x z) (hstuck : Stuck step z) (hy : Steps step m x y) :
    m ≤ n ∧ Steps step (n - m) y z := by
  induction m generalizing n x with
  | zero => exact ⟨Nat.zero_le n, hy ▸ hrun⟩
  | succ m ih =>
    obtain ⟨x', hx', hrest⟩ := hy
    obtain ⟨n, rfl, hn⟩ := h.steps_of_step hx hrun hstuck hx'
    obtain ⟨hle, hsteps⟩ := ih (h.keeps hx hx') hn hrest
    exact ⟨Nat.succ_le_succ hle, by rwa [Nat.add_sub_add_right]⟩

theorem Diamond.stuck_unique (h : Diamond step I) {n m : Nat} {x y z : σ} (hx : I x)
    (hrun : Steps step n x z) (hstuck : Stuck step z) (hy : Steps step m x y)
    (hstuck' : Stuck step y) : y = z := by
  obtain ⟨-, hsteps⟩ := h.steps_remaining hx hrun hstuck hy
  cases hk : n - m with
  | zero =>
    rw [hk] at hsteps
    exact hsteps
  | succ k =>
    rw [hk] at hsteps
    obtain ⟨w, hw, -⟩ := hsteps
    exact absurd hw (hstuck' w)

theorem exists_stuck {α : Type*} [LT α] [WellFoundedLT α] (μ : σ → α)
    (hμ : ∀ x y, I x → step x y → I y ∧ μ y < μ x) {x : σ} (hx : I x) :
    ∃ n z, Steps step n x z ∧ Stuck step z := by
  induction hm : μ x using WellFoundedLT.induction generalizing x with
  | ind a ih =>
    subst hm
    by_cases hstuck : Stuck step x
    · exact ⟨0, x, rfl, hstuck⟩
    · obtain ⟨y, hy⟩ : ∃ y, step x y := by
        simpa [Stuck] using hstuck
      obtain ⟨hI, hlt⟩ := hμ x y hx hy
      obtain ⟨n, z, hrun, hz⟩ := ih (μ y) hlt hI rfl
      exact ⟨n + 1, z, ⟨y, hy, hrun⟩, hz⟩

end SclRs.Lib.Confluence
