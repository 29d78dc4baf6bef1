import Mathlib

set_option autoImplicit false

/-! Loops over a list of rounds, whose bodies may have no result. -/
namespace Bingos.ListLoops

variable {σ ι β : Type*}

theorem foldl_iff {P : σ → Prop} {f : σ → ι → σ} {q : ι → Prop}
    (h : ∀ s i, P (f s i) ↔ P s ∧ q i) (l : List ι) (s : σ) :
    P (l.foldl f s) ↔ P s ∧ ∀ i ∈ l, q i := by
  induction l generalizing s with
  | nil => simp
  | cons i l ih => rw [List.foldl_cons, ih, h, List.forall_mem_cons, and_assoc]

theorem bind_isSome_iff {Q : Prop} {x : Option σ} {g : σ → Option σ} (h : ∀ s, (g s).isSome ↔ Q) :
    (x.bind g).isSome ↔ x.isSome ∧ Q := by
  cases x with
  | none => simp
  | some s =>
    rw [Option.bind_some, h, Option.isSome_some]
    exact (and_iff_right rfl).symm

theorem foldlM_isSome_iff {P : ι → Prop} {g : σ → ι → Option σ} (l : List ι)
    (h : ∀ x ∈ l, ∀ s, (g s x).isSome ↔ P x) (s : σ) :
    (l.foldlM g s).isSome ↔ ∀ x ∈ l, P x := by
  induction l generalizing s with
  | nil => simp
  | cons x l ih =>
    have hrest := ih fun y hy => h y (List.mem_cons_of_mem x hy)
    rw [List.foldlM_cons, List.forall_mem_cons, ← h x List.mem_cons_self s]
    exact bind_isSome_iff hrest

theorem foldlM_eq_foldl {f : σ → ι → Option σ} {g : σ → ι → σ} (l : List ι)
    (h : ∀ x ∈ l, ∀ s, f s x = some (g s x)) (s : σ) : l.foldlM f s = some (l.foldl g s) := by
  induction l generalizing s with
  | nil => rfl
  | cons x l ih =>
    rw [List.foldlM_cons, h x List.mem_cons_self]
    exact ih (fun y hy => h y (List.mem_cons_of_mem x hy)) _

theorem foldl_writes (write : σ → ι → σ) (read : σ → ι → β) (val : ι → β) (inv : σ → Prop)
    (P : ι → Prop) (hinv : ∀ s i, inv s → inv (write s i))
    (hself : ∀ s i, inv s → P i → read (write s i) i = val i)
    (hother : ∀ s i j, inv s → P i → P j → i ≠ j → read (write s j) i = read s i)
    (l : List ι) (hl : ∀ i ∈ l, P i) {s : σ} (hs : inv s) :
    inv (l.foldl write s) ∧ ∀ i ∈ l, read (l.foldl write s) i = val i := by
  induction l using List.reverseRecOn with
  | nil => exact ⟨hs, List.forall_mem_nil _⟩
  | append_singleton l a ih =>
    obtain ⟨hinv', hval⟩ := ih fun i hi => hl i (List.mem_append_left [a] hi)
    have ha : P a := hl a List.mem_concat_self
    rw [List.foldl_append]
    refine ⟨hinv _ _ hinv', fun i hi => ?_⟩
    by_cases heq : i = a
    · subst heq
      exact hself _ _ hinv' ha
    · have hmem : i ∈ l := by
        rcases List.mem_append.mp hi with hmem | hmem
        · exact hmem
        · exact absurd (List.mem_singleton.mp hmem) heq
      exact (hother _ _ _ hinv' (hl i hi) ha heq).trans (hval i hmem)

end Bingos.ListLoops
