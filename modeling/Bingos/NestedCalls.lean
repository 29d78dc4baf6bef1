import Mathlib

set_option autoImplicit false

/-! Functions that call themselves on whatever a relation leads to: how deep their calls nest. -/
namespace Bingos.NestedCalls
open Relation

section Depth
variable {α : Type*} {r : α → α → Prop} {x y : α} {d : ℕ}

def Within (r : α → α → Prop) : ℕ → α → Prop
  | 0, _ => False
  | d + 1, x => ∀ y, r x y → Within r d y

theorem Within.step (h : Within r d x) (hxy : r x y) : ∃ d' < d, Within r d' y := by
  cases d with
  | zero => exact h.elim
  | succ d => exact ⟨d, Nat.lt_succ_self d, h y hxy⟩

theorem Within.descend (h : Within r d x) (hxy : TransGen r x y) : ∃ d' < d, Within r d' y := by
  induction hxy with
  | single hxy => exact h.step hxy
  | tail _ hyz ih =>
    obtain ⟨d₁, h₁, hy⟩ := ih
    obtain ⟨d₂, h₂, hz⟩ := hy.step hyz
    exact ⟨d₂, h₂.trans h₁, hz⟩

theorem Within.not_cycle (h : Within r d x) : ¬ TransGen r x x := by
  intro hcycle
  induction d using Nat.strong_induction_on with
  | _ d ih =>
    obtain ⟨d', hlt, h'⟩ := h.descend hcycle
    exact ih d' hlt h'

theorem Within.reachable (h : Within r d x) (hxy : ReflTransGen r x y) : ∃ d', Within r d' y := by
  rcases reflTransGen_iff_eq_or_transGen.mp hxy with rfl | hxy
  · exact ⟨d, h⟩
  · obtain ⟨d', _, h'⟩ := h.descend hxy
    exact ⟨d', h'⟩

section Rank
open Classical in
noncomputable def rank (r : α → α → Prop) (S : Finset α) (x : α) : ℕ :=
  (S.filter fun y => TransGen r x y).card

variable {S : Finset α} (hS : ∀ x y, r x y → y ∈ S)
include hS

theorem rank_lt (hxy : r x y) (hy : ¬ TransGen r y y) : rank r S y < rank r S x := by
  classical
  apply Finset.card_lt_card
  rw [Finset.ssubset_iff_of_subset]
  · refine ⟨y, Finset.mem_filter.mpr ⟨hS x y hxy, .single hxy⟩, ?_⟩
    intro hmem
    exact hy (Finset.mem_filter.mp hmem).2
  · intro z hz
    rw [Finset.mem_filter] at hz ⊢
    exact ⟨hz.1, .head hxy hz.2⟩

theorem within_rank (h : ∀ y, ReflTransGen r x y → ¬ TransGen r y y) {d : ℕ}
    (hd : rank r S x < d) : Within r d x := by
  induction d generalizing x with
  | zero => exact absurd hd (Nat.not_lt_zero _)
  | succ d ih =>
    intro y hxy
    apply ih
    · intro z hyz
      exact h z (.head hxy hyz)
    · have hlt := rank_lt hS hxy (h y (.single hxy))
      omega

theorem within_of_acyclic (h : ∀ y, ReflTransGen r x y → ¬ TransGen r y y) (hd : S.card < d) :
    Within r d x := by
  classical
  apply within_rank hS h
  exact (Finset.card_filter_le _ _).trans_lt hd

end Rank

end Depth

end Bingos.NestedCalls
