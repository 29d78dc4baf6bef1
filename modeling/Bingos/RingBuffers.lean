import Mathlib

set_option autoImplicit false

/-! The occupied window of a circular array: `k` cells from position `r`,
wrapping at `n`. A queue over such an array appends at the end of the window
and removes from its front. -/
namespace Bingos.RingBuffers

variable {α : Type}

def window (buf : ℕ → α) (n r k : ℕ) : List α :=
  (List.range k).map (fun i => buf ((r + i) % n))

@[simp] theorem window_zero (buf : ℕ → α) (n r : ℕ) : window buf n r 0 = [] := rfl

@[simp] theorem window_length (buf : ℕ → α) (n r k : ℕ) : (window buf n r k).length = k := by
  simp [window]

theorem window_snoc (buf : ℕ → α) (n r k : ℕ) :
    window buf n r (k + 1) = window buf n r k ++ [buf ((r + k) % n)] := by
  simp [window, List.range_succ]

theorem window_cons (buf : ℕ → α) (n r k : ℕ) :
    window buf n r (k + 1) = buf (r % n) :: window buf n ((r + 1) % n) k := by
  unfold window
  rw [List.range_succ_eq_map, List.map_cons, List.map_map]
  congr 1
  apply List.map_congr_left
  intro i _
  change buf ((r + (i + 1)) % n) = buf (((r + 1) % n + i) % n)
  rw [Nat.mod_add_mod]
  congr 2
  omega

theorem offset_injective {n r i j : ℕ} (hi : i < n) (hj : j < n)
    (h : (r + i) % n = (r + j) % n) : i = j := by
  have hm : i ≡ j [MOD n] := Nat.ModEq.add_left_cancel' r h
  exact Nat.ModEq.eq_of_lt_of_lt hm hi hj

theorem window_update (buf : ℕ → α) (n r k : ℕ) (x : α) (hk : k < n) :
    window (Function.update buf ((r + k) % n) x) n r k = window buf n r k := by
  unfold window
  apply List.map_congr_left
  intro i hi
  have hik : i < k := List.mem_range.mp hi
  apply Function.update_of_ne
  intro h
  have := offset_injective (hik.trans hk) hk h
  omega

theorem window_push (buf : ℕ → α) (n r k : ℕ) (x : α) (hk : k < n) :
    window (Function.update buf ((r + k) % n) x) n r (k + 1) = window buf n r k ++ [x] := by
  rw [window_snoc, window_update buf n r k x hk, Function.update_self]

end Bingos.RingBuffers
