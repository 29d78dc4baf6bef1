import Mathlib

set_option autoImplicit false

/-! Ranges of addresses, given by a start and a length. -/
namespace Bingos.DisjointRanges

def Apart (x y : ℕ × ℕ) : Prop := x.1 + x.2 ≤ y.1 ∨ y.1 + y.2 ≤ x.1

theorem sum_length_le {l : List (ℕ × ℕ)} {s : Finset ℕ} (hd : l.Pairwise Apart)
    (hs : ∀ x ∈ l, Finset.Ico x.1 (x.1 + x.2) ⊆ s) : (l.map Prod.snd).sum ≤ s.card := by
  induction l generalizing s with
  | nil => simp
  | cons x l ih =>
    obtain ⟨hx, hd⟩ := List.pairwise_cons.mp hd
    have hrest : ∀ y ∈ l, Finset.Ico y.1 (y.1 + y.2) ⊆ s \ Finset.Ico x.1 (x.1 + x.2) := by
      intro y hy a ha
      refine Finset.mem_sdiff.mpr ⟨hs y (by simp [hy]) ha, fun hax => ?_⟩
      rw [Finset.mem_Ico] at ha hax
      have hap := hx y hy
      unfold Apart at hap
      omega
    have hle := ih hd hrest
    have hsub := hs x (by simp)
    have hcard := Finset.card_sdiff_add_card_eq_card hsub
    rw [Nat.card_Ico] at hcard
    rw [List.map_cons, List.sum_cons]
    omega

end Bingos.DisjointRanges
