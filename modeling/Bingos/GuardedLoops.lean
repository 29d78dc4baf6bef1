import Mathlib

set_option autoImplicit false

/-! Loops that repeat a step while a condition holds: when they end, and what a
definition that counts rounds down computes. -/
namespace Bingos.GuardedLoops

variable {σ β : Type} {step : σ → σ} {goes : σ → Prop} {s : σ} {k : ℕ}

/-- The loop does not leave in its first `k` rounds. -/
def Passes (step : σ → σ) (goes : σ → Prop) (s : σ) (k : ℕ) : Prop :=
  ∀ j < k, goes (step^[j] s)

def Ends (step : σ → σ) (goes : σ → Prop) (s : σ) : Prop := ∃ k, ¬ goes (step^[k] s)

theorem Passes.succ (h : Passes step goes s k) (hk : goes (step^[k] s)) :
    Passes step goes s (k + 1) := by
  intro j hj
  rcases Nat.lt_succ_iff_lt_or_eq.mp hj with hlt | rfl
  · exact h j hlt
  · exact hk

theorem Ends.exists_first (h : Ends step goes s) :
    ∃ k, Passes step goes s k ∧ ¬ goes (step^[k] s) := by
  classical
  refine ⟨Nat.find h, fun j hj => ?_, Nat.find_spec h⟩
  exact not_not.mp (Nat.find_min h hj)

theorem passes_of_not_ends (h : ¬ Ends step goes s) (k : ℕ) : Passes step goes s k := by
  intro j _
  by_contra hj
  exact h ⟨j, hj⟩

theorem Ends.of_measure (μ : σ → ℕ) (first : ℕ) (h : ∀ k, first ≤ k → Passes step goes s k →
      goes (step^[k] s) → μ (step^[k + 1] s) < μ (step^[k] s)) :
    Ends step goes s := by
  by_contra hnot
  have hpass := passes_of_not_ends hnot
  have hsum : ∀ k, μ (step^[first + k] s) + k ≤ μ (step^[first] s) := by
    intro k
    induction k with
    | zero => exact le_refl _
    | succ k ih =>
      have hless := h (first + k) (Nat.le_add_right _ _) (hpass _)
        (hpass (first + k + 1) _ (Nat.lt_succ_self _))
      change μ (step^[first + k + 1] s) + (k + 1) ≤ _
      omega
  have hlast := hsum (μ (step^[first] s) + 1)
  omega

theorem not_ends_of_fixed (hpass : Passes step goes s k) (hgoes : goes (step^[k] s))
    (hfixed : step (step^[k] s) = step^[k] s) : ¬ Ends step goes s := by
  have hstay : ∀ n, step^[n] (step^[k] s) = step^[k] s := fun n => Function.iterate_fixed hfixed n
  rintro ⟨j, hj⟩
  rcases Nat.lt_or_ge j k with hlt | hge
  · exact hj (hpass j hlt)
  · have hsplit := Function.iterate_add_apply step (j - k) k s
    rw [Nat.sub_add_cancel hge, hstay] at hsplit
    rw [hsplit] at hj
    exact hj hgoes

section Fuel
variable {f : ℕ → σ → Option β} (hzero : ∀ s, f 0 s = none)
  (hstep : ∀ fuel s, goes s → f (fuel + 1) s = f fuel (step s))
include hstep

theorem fuel_passes (hpass : Passes step goes s k) (fuel : ℕ) :
    f (k + fuel) s = f fuel (step^[k] s) := by
  induction k generalizing fuel with
  | zero =>
    rw [Nat.zero_add]
    rfl
  | succ k ih =>
    have hlast : goes (step^[k] s) := hpass k (Nat.lt_succ_self k)
    have hcount : k + 1 + fuel = k + (fuel + 1) := by omega
    rw [hcount, ih (fun j hj => hpass j (by omega)), hstep fuel _ hlast,
      Function.iterate_succ_apply']

include hzero in
theorem fuel_running (hpass : Passes step goes s k) : f k s = none := by
  have hrun := fuel_passes hstep hpass 0
  rwa [Nat.add_zero, hzero] at hrun

end Fuel

end Bingos.GuardedLoops
