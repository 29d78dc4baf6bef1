import Mathlib

set_option autoImplicit false

/-! A terminal with rows of a fixed width and no last row. -/
namespace Bingos.Terminals

structure Terminal (α : Type*) where
  cell : ℕ → ℕ → α
  row : ℕ
  col : ℕ

inductive Key (α : Type*) where
  | backspace
  | tab
  | carriageReturn
  | newline
  | graphic (a : α)
  | ignored

namespace Terminal
variable {α : Type*}

def empty (blank : α) : Terminal α := ⟨fun _ _ => blank, 0, 0⟩

def newRow (t : Terminal α) : Terminal α := { t with row := t.row + 1, col := 0 }

def put (t : Terminal α) (a : α) : Terminal α where
  cell := fun r c => if r = t.row ∧ c = t.col then a else t.cell r c
  row := t.row
  col := t.col + 1

def act (t : Terminal α) : Key α → Terminal α
  | .backspace => { t with col := t.col - 1 }
  | .tab => { t with col := (t.col / 8 + 1) * 8 }
  | .carriageReturn => { t with col := 0 }
  | .newline => t.newRow
  | .graphic a => t.put a
  | .ignored => t

def wrap (width : ℕ) (t : Terminal α) : Terminal α := if width ≤ t.col then t.newRow else t

def step (width : ℕ) (t : Terminal α) (k : Key α) : Terminal α := wrap width (t.act k)

def run (width : ℕ) (blank : α) (ks : List (Key α)) : Terminal α :=
  ks.foldl (step width) (empty blank)

def lastRows (height : ℕ) (t : Terminal α) (y x : ℕ) : α := t.cell (t.row + 1 - height + y) x

/-- Rows not yet reached are blank, and the cursor is inside its row. -/
structure Sound (width : ℕ) (blank : α) (t : Terminal α) : Prop where
  col_lt : t.col < width
  below : ∀ r, t.row < r → ∀ c, t.cell r c = blank

variable {width : ℕ} {blank : α} {t : Terminal α}

theorem act_cell_of_lt (k : Key α) {r : ℕ} (hr : t.row < r) (c : ℕ) :
    (t.act k).cell r c = t.cell r c := by
  cases k with
  | graphic a => exact if_neg fun heq => hr.ne' heq.1
  | _ => rfl

theorem row_le_act (t : Terminal α) (k : Key α) : t.row ≤ (t.act k).row := by
  cases k with
  | newline => exact Nat.le_succ t.row
  | _ => exact le_rfl

theorem step_cell_of_lt (k : Key α) {r : ℕ} (hr : t.row < r) (c : ℕ) :
    (t.step width k).cell r c = t.cell r c := by
  unfold step wrap
  split_ifs
  · exact act_cell_of_lt k hr c
  · exact act_cell_of_lt k hr c

theorem row_le_step (t : Terminal α) (k : Key α) : t.row ≤ (t.step width k).row := by
  have hact := row_le_act t k
  unfold step wrap
  split_ifs
  · exact hact.trans (Nat.le_succ _)
  · exact hact

theorem Sound.step (hwidth : 0 < width) (h : Sound width blank t) (k : Key α) :
    Sound width blank (t.step width k) where
  col_lt := by
    unfold Terminal.step wrap
    split_ifs with hwrap
    · exact hwidth
    · exact Nat.lt_of_not_le hwrap
  below := by
    intro r hr c
    have hlt := (row_le_step t k).trans_lt hr
    rw [step_cell_of_lt k hlt c, h.below r hlt c]

end Terminal

end Bingos.Terminals
