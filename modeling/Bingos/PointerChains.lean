import Mathlib.Data.Finset.Lattice.Fold
import Mathlib.Data.List.Nodup
import Mathlib.Logic.Function.Basic
import Mathlib.Order.Lattice.Nat

set_option autoImplicit false

/-! Null-terminated chains of links. -/
namespace Bingos.PointerChains

variable {α : Type*} {null : α} {next next' : α → α}

/-- Following `next` from `a` visits the elements of the list and ends in `null`. -/
def Chain (null : α) (next : α → α) : α → List α → Prop
  | a, [] => a = null
  | a, b :: l => a = b ∧ b ≠ null ∧ Chain null next (next b) l

variable {l l₁ l₂ : List α} {a x : α}

@[simp] theorem chain_nil : Chain null next a [] ↔ a = null := Iff.rfl

@[simp] theorem chain_cons {b : α} :
    Chain null next a (b :: l) ↔ a = b ∧ b ≠ null ∧ Chain null next (next b) l := Iff.rfl

theorem Chain.congr (h : Chain null next a l)
    (heq : ∀ x ∈ l, next' x = next x) : Chain null next' a l := by
  induction l generalizing a with
  | nil => exact h
  | cons b l ih =>
    obtain ⟨rfl, hb, ht⟩ := h
    refine ⟨rfl, hb, ?_⟩
    rw [heq a (by simp)]
    exact ih ht (fun x hx => heq x (by simp [hx]))

theorem Chain.ne_null (h : Chain null next a l) : ∀ x ∈ l, x ≠ null := by
  induction l generalizing a with
  | nil => simp
  | cons b l ih =>
    obtain ⟨_, hb, ht⟩ := h
    intro x hx
    rcases List.mem_cons.mp hx with rfl | hx
    · exact hb
    · exact ih ht x hx

theorem Chain.eq_null_iff (h : Chain null next a l) : a = null ↔ l = [] := by
  cases l with
  | nil => simpa using h
  | cons b l =>
    obtain ⟨rfl, hb, _⟩ := h
    simp [hb]

theorem Chain.unique {l' : List α} (h : Chain null next a l)
    (h' : Chain null next a l') : l = l' := by
  induction l generalizing a l' with
  | nil => exact ((h'.eq_null_iff).mp h).symm
  | cons b l ih =>
    obtain ⟨rfl, hb, ht⟩ := h
    cases l' with
    | nil => exact absurd h' hb
    | cons c l' =>
      obtain ⟨rfl, _, ht'⟩ := h'
      rw [ih ht ht']

theorem Chain.from_mem (h : Chain null next a l) (hx : x ∈ l) :
    ∃ l', Chain null next x l' ∧ l'.length ≤ l.length := by
  induction l generalizing a with
  | nil => simp at hx
  | cons b l ih =>
    obtain ⟨rfl, hb, ht⟩ := h
    rcases List.mem_cons.mp hx with rfl | hx
    · exact ⟨x :: l, ⟨rfl, hb, ht⟩, Nat.le_refl _⟩
    · obtain ⟨l', hl', hle⟩ := ih ht hx
      exact ⟨l', hl', Nat.le_trans hle (by simp)⟩

theorem Chain.nodup (h : Chain null next a l) : l.Nodup := by
  induction l generalizing a with
  | nil => exact List.nodup_nil
  | cons b l ih =>
    obtain ⟨rfl, hb, ht⟩ := h
    refine List.nodup_cons.mpr ⟨fun hmem => ?_, ih ht⟩
    obtain ⟨l', hl', hle⟩ := ht.from_mem hmem
    have heq := Chain.unique (l := a :: l) ⟨rfl, hb, ht⟩ hl'
    rw [← heq, List.length_cons] at hle
    omega

theorem Chain.after (h : Chain null next a (l₁ ++ x :: l₂)) :
    x ≠ null ∧ Chain null next (next x) l₂ := by
  induction l₁ generalizing a with
  | nil => exact h.2
  | cons b l₁ ih => exact ih h.2.2

/-- A loop along the chain that passes the elements of `l₁`, with the one before at hand. -/
theorem Chain.skip {β : Type*} {f : ℕ → α → α → β} {fuel : ℕ}
    (h : Chain null next a (l₁ ++ x :: l₂))
    (hstep : ∀ z ∈ l₁, ∀ fuel p, next z ≠ null → f (fuel + 1) p z = f fuel z (next z))
    (hfuel : l₁.length < fuel) (p : α) :
    ∃ fuel', f fuel p a = f (fuel' + 1) (l₁.getLast?.getD p) x := by
  induction l₁ generalizing a fuel p with
  | nil =>
    obtain ⟨fuel, rfl⟩ := Nat.exists_eq_succ_of_ne_zero (Nat.ne_zero_of_lt hfuel)
    exact ⟨fuel, by rw [h.1]; rfl⟩
  | cons b l₁ ih =>
    obtain ⟨fuel, rfl⟩ := Nat.exists_eq_succ_of_ne_zero (Nat.ne_zero_of_lt hfuel)
    obtain ⟨rfl, _, hrest⟩ := h
    have hn : next a ≠ null := mt hrest.eq_null_iff.mp (by simp)
    obtain ⟨fuel', hrun⟩ := ih hrest (fun z hz => hstep z (List.mem_cons_of_mem _ hz))
      (Nat.lt_of_succ_lt_succ hfuel) a
    exact ⟨fuel', by rw [hstep a (by simp) _ _ hn, hrun, List.getLast?_cons, Option.getD_some]⟩

theorem Chain.eq_head (h : Chain null next a l) : a = l.head?.getD null := by
  cases l with
  | nil => exact h
  | cons b l => exact h.1

theorem Chain.start_mem (h : Chain null next a l) (ha : a ≠ null) : a ∈ l := by
  cases l with
  | nil => exact absurd h ha
  | cons b l => exact List.mem_cons.mpr (Or.inl h.1)

theorem Chain.right (h : Chain null next a (l₁ ++ l₂)) :
    Chain null next (l₂.head?.getD null) l₂ := by
  induction l₁ generalizing a with
  | nil => exact h.eq_head ▸ h
  | cons b l₁ ih => exact ih h.2.2

theorem Chain.getLast?_ne {y : α} (h : Chain null next a (l₁ ++ l₂))
    (hy : y ∈ l₂) : l₁.getLast? ≠ some y := fun hlast =>
  (List.nodup_append.mp h.nodup).2.2 y (List.mem_of_getLast? hlast) y hy rfl

theorem Chain.relink {c : α} {l₃ : List α} (h : Chain null next a (l₁ ++ l₂))
    (hc : Chain null next' c l₃) (hlast : ∀ y, l₁.getLast? = some y → next' y = c)
    (hother : ∀ y ∈ l₁, l₁.getLast? ≠ some y → next' y = next y) :
    Chain null next' (if l₁ = [] then c else a) (l₁ ++ l₃) := by
  induction l₁ generalizing a with
  | nil =>
    rw [if_pos rfl]
    exact hc
  | cons b l₁ ih =>
    have hnot := (List.nodup_cons.mp h.nodup).1
    obtain ⟨rfl, hb, ht⟩ := h
    rw [if_neg (List.cons_ne_nil _ _)]
    refine ⟨rfl, hb, ?_⟩
    cases l₁ with
    | nil =>
      rw [hlast a (by simp)]
      exact hc
    | cons d l₁ =>
      have hnotlast : (a :: d :: l₁).getLast? ≠ some a := by
        intro hya
        have hmem : a ∈ d :: l₁ := List.mem_of_getLast? (by simpa using hya)
        exact hnot (List.mem_append_left _ hmem)
      rw [hother a (by simp) hnotlast]
      have hrest := ih ht (fun y hy => hlast y (by simpa using hy))
        (fun y hy hne => hother y (List.mem_cons_of_mem _ hy) (by simpa using hne))
      rwa [if_neg (List.cons_ne_nil _ _)] at hrest

theorem Chain.remove (h : Chain null next a (l₁ ++ x :: l₂))
    (hlast : ∀ y, l₁.getLast? = some y → next' y = next x)
    (hother : ∀ y ∈ l₁ ++ l₂, l₁.getLast? ≠ some y → next' y = next y) :
    Chain null next' (if l₁ = [] then next x else a) (l₁ ++ l₂) := by
  refine h.relink (h.after.2.congr fun y hy => ?_) hlast fun y hy => ?_
  · exact hother y (List.mem_append_right _ hy) (h.getLast?_ne (List.mem_cons_of_mem _ hy))
  · exact hother y (List.mem_append_left _ hy)

theorem Chain.insert (h : Chain null next a (l₁ ++ l₂)) (hx : x ≠ null)
    (hnext : next' x = l₂.head?.getD null) (hlast : ∀ y, l₁.getLast? = some y → next' y = x)
    (hother : ∀ y ∈ l₁ ++ l₂, l₁.getLast? ≠ some y → next' y = next y) :
    Chain null next' (if l₁ = [] then x else a) (l₁ ++ x :: l₂) := by
  refine h.relink ⟨rfl, hx, ?_⟩ hlast fun y hy => hother y (List.mem_append_left _ hy)
  rw [hnext]
  exact h.right.congr fun y hy => hother y (List.mem_append_right _ hy) (h.getLast?_ne hy)

theorem Chain.snoc (h : Chain null next a l) (hx : x ≠ null)
    (hend : next' x = null) (hlast : ∀ y, l.getLast? = some y → next' y = x)
    (hother : ∀ y ∈ l, l.getLast? ≠ some y → next' y = next y) :
    Chain null next' (if l = [] then x else a) (l ++ [x]) := by
  rw [← List.append_nil l] at h
  exact h.insert hx hend hlast (fun y hy => hother y (by simpa using hy))

def firstAbove (live : Finset ℕ) : ℕ := live.sup id + 1

theorem firstAbove_ne_zero (live : Finset ℕ) : firstAbove live ≠ 0 := Nat.succ_ne_zero _

theorem firstAbove_notMem (live : Finset ℕ) : firstAbove live ∉ live := fun h =>
  Nat.not_succ_le_self _ (Finset.le_sup (f := id) h)

end Bingos.PointerChains
