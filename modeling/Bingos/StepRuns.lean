import Mathlib

set_option autoImplicit false

/-! Finite runs of a labelled step relation, with the labels kept in
chronological order so that properties of the history can be read off them. -/
namespace Bingos.StepRuns

variable {σ ℓ : Type}

inductive Reach (step : σ → ℓ → σ → Prop) (init : σ) : List ℓ → σ → Prop where
  | start : Reach step init [] init
  | next {ls : List ℓ} {s t : σ} {l : ℓ} (past : Reach step init ls s) (h : step s l t) :
      Reach step init (ls ++ [l]) t

variable {ls : List ℓ} {init s : σ} {step : σ → ℓ → σ → Prop}

theorem Reach.invariant (I : List ℓ → σ → Prop) (h : Reach step init ls s) (h0 : I [] init)
    (hstep : ∀ ls s l t, Reach step init ls s → I ls s → step s l t → I (ls ++ [l]) t) :
    I ls s := by
  induction h with
  | start => exact h0
  | next past hs ih => exact hstep _ _ _ _ past ih hs

theorem Reach.trans {t : σ} {ls' : List ℓ}
    (h : Reach step init ls s) (h' : Reach step s ls' t) : Reach step init (ls ++ ls') t := by
  induction h' with
  | start => rwa [List.append_nil]
  | next _ hs ih =>
    rw [← List.append_assoc]
    exact ih.next hs

def Guarded (guard : σ → ℓ → Prop) (step : σ → ℓ → σ → Prop) (s : σ) (l : ℓ) (t : σ) : Prop :=
  guard s l ∧ step s l t

theorem Reach.forget {guard : σ → ℓ → Prop}
    (h : Reach (Guarded guard step) init ls s) : Reach step init ls s := by
  induction h with
  | start => exact .start
  | next _ hs ih => exact .next ih hs.2

theorem Reach.of_foldlM {f : σ → ℓ → Option σ} (hf : ∀ s l t, f s l = some t → step s l t) {t : σ}
    (h : ls.foldlM f s = some t) : Reach step s ls t := by
  induction ls using List.reverseRecOn generalizing t with
  | nil =>
    cases h
    exact .start
  | append_singleton ls l ih =>
    rw [List.foldlM_append] at h
    obtain ⟨u, hu, hlast⟩ := Option.bind_eq_some_iff.mp h
    rw [List.foldlM_cons] at hlast
    obtain ⟨v, hv, hend⟩ := Option.bind_eq_some_iff.mp hlast
    cases hend
    exact .next (ih hu) (hf _ _ _ hv)

end Bingos.StepRuns
