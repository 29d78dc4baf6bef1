import Bingos.CharacterConsoles
import Bingos.Terminals

set_option autoImplicit false
set_option maxRecDepth 4096

/-! The text console of `kernel/vga.c`: 25 rows of 80 cells, with a cursor of two
bytes, against a terminal without a last row. -/
namespace Bingos.Vga
open CStrings Consoles Terminals

/-- The text buffer, the indices of the cells written so far, and the place of the
hardware cursor. -/
structure Cells where
  buffer : ℕ → ℕ
  written : List ℕ
  hardwareCursor : ℕ

def Cells.set (m : Cells) (i a : ℕ) : Cells :=
  { m with buffer := Function.update m.buffer i a, written := m.written ++ [i] }

abbrev Screen := Console Cells

def vgaMoveCursor (s : Screen) : Screen :=
  { s with surface := { s.surface with hardwareCursor := s.cursorY * 80 + s.cursorX } }

def fillLoop (value : Cells → ℕ → ℕ) : ℕ → ℕ → Cells → Cells
  | 0, _, m => m
  | n + 1, i, m => fillLoop value n (i + 1) (m.set i (value m i))

def moveLoop : ℕ → ℕ → Cells → Cells := fillLoop fun m i => m.buffer (i + 80)

def blankLoop (blank : ℕ) : ℕ → ℕ → Cells → Cells := fillLoop fun _ _ => blank

def vgaScrollScreen (blank : ℕ) (s : Screen) : Screen :=
  if 25 ≤ s.cursorY then
    { s with surface := blankLoop blank 80 (24 * 80) (moveLoop (24 * 80) 0 s.surface), cursorY := 24 }
  else s

def vgaClearScreen (blank : ℕ) (s : Screen) : Screen :=
  vgaMoveCursor
    { s with surface := blankLoop blank (80 * 25) 0 s.surface, cursorX := 0, cursorY := 0 }

def vgaAttribute : ℕ := 0x0f00

def device : Device Cells where
  columns := 80
  tab := 8
  erase _ _ m := m
  draw c x y m := m.set (y * 80 + x) (c.toNat ||| vgaAttribute)

def vgaPrintc (blank : ℕ) (s : Screen) (c : UInt8) : Screen :=
  vgaMoveCursor (printc device (vgaScrollScreen blank) s c)

def vgaPrintln (blank : ℕ) : Screen → Bytes → Screen := println (vgaPrintc blank)

inductive Call where
  | printc (c : UInt8)
  | println (msg : Bytes)

def Call.run (blank : ℕ) (s : Screen) : Call → Screen
  | .printc c => vgaPrintc blank s c
  | .println msg => vgaPrintln blank s msg

def Call.characters : Call → Bytes
  | .printc c => [c]
  | .println msg => cstr msg 0 ++ [0x0a]

def keyOf (c : UInt8) : Key ℕ :=
  if c = 0x08 then .backspace
  else if c = 0x09 then .tab
  else if c = 0x0d then .carriageReturn
  else if c = 0x0a then .newline
  else if 0x20 ≤ c ∧ c < 0x80 then .graphic (c.toNat ||| vgaAttribute)
  else .ignored

variable {m : Cells} {value : Cells → ℕ → ℕ} {c : UInt8} {i : ℕ}

section Loops
variable {blank : ℕ}

theorem fillLoop_buffer
    (hlater : ∀ m i a j, i < j → value (m.set i a) j = value m j) (n i : ℕ) (m : Cells) (j : ℕ) :
    (fillLoop value n i m).buffer j = if i ≤ j ∧ j < i + n then value m j else m.buffer j := by
  induction n generalizing i m with
  | zero => rw [fillLoop, if_neg (by omega)]
  | succ n ih =>
    rw [fillLoop, ih]
    by_cases hrest : i + 1 ≤ j ∧ j < i + 1 + n
    · rw [if_pos hrest, if_pos (by omega), hlater _ _ _ _ (by omega)]
    · rw [if_neg hrest]
      simp only [Cells.set]
      by_cases hj : j = i
      · rw [hj, Function.update_self, if_pos (by omega)]
      · rw [Function.update_of_ne hj, if_neg (by omega)]

theorem moveLoop_buffer (n i : ℕ) (m : Cells) (j : ℕ) :
    (moveLoop n i m).buffer j = if i ≤ j ∧ j < i + n then m.buffer (j + 80) else m.buffer j :=
  fillLoop_buffer (fun _ _ _ _ hlt => Function.update_of_ne (by omega) _ _) n i m j

theorem blankLoop_buffer (n i : ℕ) (m : Cells) (j : ℕ) :
    (blankLoop blank n i m).buffer j = if i ≤ j ∧ j < i + n then blank else m.buffer j :=
  fillLoop_buffer (fun _ _ _ _ _ => rfl) n i m j

def Inside (m : Cells) : Prop := ∀ i ∈ m.written, i < 2000

theorem Inside.set (h : Inside m) (hi : i < 2000) (a : ℕ) : Inside (m.set i a) := by
  intro j hj
  rcases List.mem_append.mp hj with hold | hnew
  · exact h j hold
  · rw [List.mem_singleton.mp hnew]
    exact hi

theorem Inside.fillLoop (h : Inside m) {n : ℕ}
    (hn : i + n ≤ 2000) : Inside (fillLoop value n i m) := by
  induction n generalizing i m with
  | zero => exact h
  | succ n ih => exact ih (h.set (by omega) _) (by omega)

end Loops

structure ShowsFrom (top : ℕ) (s : Screen) (t : Terminal ℕ) : Prop where
  inside : Inside s.surface
  col : s.cursorX = t.col
  row : top + s.cursorY = t.row
  cells : ∀ y < 25, ∀ x < 80, s.surface.buffer (y * 80 + x) = t.cell (top + y) x

section Steps
variable {blank top : ℕ} {s : Screen} {t : Terminal ℕ}

theorem tab_eq {x : ℕ} (h : x < 80) : (x + 8) &&& 0xf8 = (x / 8 + 1) * 8 := by
  have hall : ∀ x < 80, (x + 8) &&& 0xf8 = (x / 8 + 1) * 8 := by decide
  exact hall x h

theorem ShowsFrom.put (h : ShowsFrom top s t) (hx : s.cursorX < 80) (hy : s.cursorY < 25) (a : ℕ) :
    ShowsFrom top ⟨s.surface.set (s.cursorY * 80 + s.cursorX) a, s.cursorX + 1, s.cursorY⟩
      (t.put a) where
  inside := h.inside.set (by omega) a
  col := congrArg (· + 1) h.col
  row := h.row
  cells := by
    intro y hy' x hx'
    have hcol := h.col
    have hrow := h.row
    simp only [Cells.set, Terminal.put]
    by_cases hat : y = s.cursorY ∧ x = s.cursorX
    · rw [hat.1, hat.2, Function.update_self, if_pos (by omega)]
    · rw [Function.update_of_ne (by omega), if_neg (by omega)]
      exact h.cells y hy' x hx'

theorem keyOf_graphic (h : 0x20 ≤ c ∧ c < 0x80) :
    keyOf c = .graphic (c.toNat ||| vgaAttribute) := by
  have hne : ∀ a : UInt8, a < 0x20 → c ≠ a := by
    rintro a ha rfl
    exact absurd h.1 (by simpa using ha)
  rw [keyOf, if_neg (hne _ (by decide)), if_neg (hne _ (by decide)), if_neg (hne _ (by decide)),
    if_neg (hne _ (by decide)), if_pos h]

/-- A character moves the cursor and sets a cell as on the terminal; the row
changes at a newline only. -/
theorem ShowsFrom.typed (h : ShowsFrom top s t) (hx : s.cursorX < 80) (hy : s.cursorY < 25)
    {s' : Screen} (htyped : Typed device s c s') :
    ShowsFrom top s' (t.act (keyOf c)) ∧ s'.cursorX ≤ 80 ∧
      (s'.cursorY = s.cursorY ∨ s'.cursorY = s.cursorY + 1 ∧ s'.cursorX = 0) := by
  have hcol := h.col
  cases htyped with
  | backspace =>
    exact ⟨⟨h.inside, congrArg (· - 1) hcol, h.row, h.cells⟩, by simp only; omega, Or.inl rfl⟩
  | atStart hzero =>
    have hkept : s.cursorX = t.col - 1 := by omega
    exact ⟨⟨h.inside, hkept, h.row, h.cells⟩, by omega, Or.inl rfl⟩
  | tab =>
    have hnext : (s.cursorX + device.tab) &&& (256 - device.tab) = (s.cursorX / 8 + 1) * 8 :=
      tab_eq hx
    refine ⟨⟨h.inside, ?_, h.row, h.cells⟩, by simp only; omega, Or.inl rfl⟩
    exact hnext.trans (by rw [hcol]; rfl)
  | carriageReturn => exact ⟨⟨h.inside, rfl, h.row, h.cells⟩, Nat.zero_le 80, Or.inl rfl⟩
  | newline =>
    have hmod : (s.cursorY + 1) % 256 = s.cursorY + 1 := Nat.mod_eq_of_lt (by omega)
    rw [hmod]
    exact ⟨⟨h.inside, rfl, congrArg (· + 1) h.row, h.cells⟩, Nat.zero_le 80, Or.inr ⟨rfl, rfl⟩⟩
  | graphic hgraphic =>
    have hmod : (s.cursorX + 1) % 256 = s.cursorX + 1 := Nat.mod_eq_of_lt (by omega)
    rw [hmod, keyOf_graphic hgraphic]
    exact ⟨h.put hx hy _, by simp only; omega, Or.inl rfl⟩
  | ignored hback htab hreturn hnew hplain =>
    have hkey : keyOf c = .ignored := by
      rw [keyOf, if_neg hback, if_neg htab, if_neg hreturn, if_neg hnew, if_neg hplain]
    rw [hkey]
    exact ⟨h, by omega, Or.inl rfl⟩

theorem ShowsFrom.wrapped (h : ShowsFrom top s t) (hx : s.cursorX < 80) (hy : s.cursorY < 25)
    (c : UInt8) :
    ShowsFrom top (wrapLine device (typeChar device c s)) (t.step 80 (keyOf c)) ∧
      s.cursorY ≤ (wrapLine device (typeChar device c s)).cursorY ∧
      (wrapLine device (typeChar device c s)).cursorY ≤ s.cursorY + 1 := by
  obtain ⟨htyped, hle, hrow⟩ := h.typed hx hy (typeChar_typed device s c)
  unfold wrapLine Terminal.step Terminal.wrap
  rw [← htyped.col, show device.columns = 80 from rfl]
  by_cases hwrap : 80 ≤ (typeChar device c s).cursorX
  · have hsame : (typeChar device c s).cursorY = s.cursorY := by omega
    have hmod : ((typeChar device c s).cursorY + 1) % 256 = s.cursorY + 1 := by omega
    rw [if_pos hwrap, if_pos hwrap, hmod]
    refine ⟨⟨htyped.inside, rfl, ?_, htyped.cells⟩, Nat.le_succ _, le_rfl⟩
    have hrow' := htyped.row
    simp only [Terminal.newRow]
    omega
  · rw [if_neg hwrap, if_neg hwrap]
    exact ⟨htyped, by omega, by omega⟩

theorem ShowsFrom.scrolled (h : ShowsFrom top s t) (hy : s.cursorY = 25)
    (hblank : ∀ x, t.cell t.row x = blank) :
    ShowsFrom (top + 1) (vgaScrollScreen blank s) t := by
  have hinside : Inside (blankLoop blank 80 (24 * 80) (moveLoop (24 * 80) 0 s.surface)) := by
    apply Inside.fillLoop
    · exact h.inside.fillLoop (by omega)
    · omega
  rw [vgaScrollScreen, if_pos hy.ge]
  refine ⟨hinside, h.col, ?_, ?_⟩
  · have hrow := h.row
    simp only
    omega
  · intro y hy' x hx
    simp only
    rw [blankLoop_buffer, moveLoop_buffer]
    by_cases hlast : y = 24
    · have hrow : top + 1 + y = t.row := by
        have := h.row
        omega
      rw [if_pos (by omega), hrow, hblank]
    · have hnext : y * 80 + x + 80 = (y + 1) * 80 + x := by omega
      rw [if_neg (by omega), if_pos (by omega), hnext, h.cells (y + 1) (by omega) x hx,
        Nat.add_assoc, Nat.add_comm 1 y]

theorem ShowsFrom.moveCursor (h : ShowsFrom top s t) : ShowsFrom top (vgaMoveCursor s) t :=
  ⟨h.inside, h.col, h.row, h.cells⟩

end Steps

/-- The screen shows the last 25 rows of the terminal, whose other rows are not
yet reached. -/
structure Shows (blank : ℕ) (s : Screen) (t : Terminal ℕ) : Prop where
  window : ShowsFrom (t.row - 24) s t
  sound : t.Sound 80 blank

section Runs
variable {blank : ℕ} {s : Screen} {t : Terminal ℕ}

theorem Shows.cursor (h : Shows blank s t) : s.cursorX < 80 ∧ s.cursorY < 25 := by
  have hrow := h.window.row
  have hcol := h.window.col
  have hlt := h.sound.col_lt
  omega

theorem Shows.printc (h : Shows blank s t) (c : UInt8) :
    Shows blank (vgaPrintc blank s c) (t.step 80 (keyOf c)) := by
  obtain ⟨hx, hy⟩ := h.cursor
  obtain ⟨hwrapped, hlo, hhi⟩ := h.window.wrapped hx hy c
  have hrow := h.window.row
  have hrow' := hwrapped.row
  have hwindow : ShowsFrom ((t.step 80 (keyOf c)).row - 24)
      (vgaScrollScreen blank (wrapLine device (typeChar device c s))) (t.step 80 (keyOf c)) := by
    by_cases hscroll : (wrapLine device (typeChar device c s)).cursorY = 25
    · have htop : (t.step 80 (keyOf c)).row - 24 = t.row - 24 + 1 := by omega
      rw [htop]
      apply hwrapped.scrolled hscroll
      intro x
      have hlt : t.row < (t.step 80 (keyOf c)).row := by omega
      rw [Terminal.step_cell_of_lt _ hlt, h.sound.below _ hlt]
    · have htop : (t.step 80 (keyOf c)).row - 24 = t.row - 24 := by omega
      rw [htop, vgaScrollScreen, if_neg (by omega)]
      exact hwrapped
  exact ⟨hwindow.moveCursor, h.sound.step (by decide) _⟩

theorem shows_clear (blank : ℕ) (s : Screen) (h : Inside s.surface) :
    Shows blank (vgaClearScreen blank s) (Terminal.empty blank) := by
  have hinside : Inside (blankLoop blank (80 * 25) 0 s.surface) := h.fillLoop (by omega)
  refine ⟨ShowsFrom.moveCursor ⟨hinside, rfl, rfl, fun y hy x hx => ?_⟩, Nat.succ_pos 79,
    fun _ _ _ => rfl⟩
  dsimp only
  rw [blankLoop_buffer, if_pos (by omega), Terminal.empty]

theorem Shows.run (h : Shows blank s t) (cs : Bytes) :
    Shows blank (cs.foldl (vgaPrintc blank) s) ((cs.map keyOf).foldl (Terminal.step 80) t) := by
  induction cs generalizing s t with
  | nil => exact h
  | cons c cs ih => exact ih (h.printc c)

theorem runCalls_eq (s : Screen) (calls : List Call) :
    calls.foldl (Call.run blank) s = (calls.flatMap Call.characters).foldl (vgaPrintc blank) s := by
  refine foldl_calls (fun s call => ?_) s calls
  cases call with
  | printc c => rfl
  | println msg => exact println_eq (vgaPrintc blank) s msg

end Runs

/-- The cursor is on the screen, every cell written so far was, and the screen
shows the last 25 rows of the terminal. -/
structure Displays (s : Screen) (t : Terminal ℕ) : Prop where
  cursorX_lt : s.cursorX < 80
  cursorY_lt : s.cursorY < 25
  written_lt : ∀ i ∈ s.surface.written, i < 2000
  rows : ∀ y < 25, ∀ x < 80, s.surface.buffer (y * 80 + x) = t.lastRows 25 y x

/-- Calls after a clear print their characters one by one, and before and after
each of them the screen displays the terminal that got the same characters. -/
theorem vga_refines_terminal (blank x y hardware : ℕ) (buffer : ℕ → ℕ) (calls : List Call) :
    calls.foldl (Call.run blank) (vgaClearScreen blank ⟨⟨buffer, [], hardware⟩, x, y⟩) =
        (calls.flatMap Call.characters).foldl (vgaPrintc blank)
          (vgaClearScreen blank ⟨⟨buffer, [], hardware⟩, x, y⟩) ∧
      ∀ cs, cs <+: calls.flatMap Call.characters →
        Displays
          (cs.foldl (vgaPrintc blank) (vgaClearScreen blank ⟨⟨buffer, [], hardware⟩, x, y⟩))
          (Terminal.run 80 blank (cs.map keyOf)) := by
  have hclear := shows_clear blank ⟨⟨buffer, [], hardware⟩, x, y⟩ fun i hi => nomatch hi
  generalize vgaClearScreen blank ⟨⟨buffer, [], hardware⟩, x, y⟩ = s at hclear ⊢
  refine ⟨runCalls_eq s calls, fun cs _ => ?_⟩
  have hshows := hclear.run cs
  obtain ⟨hx, hy⟩ := hshows.cursor
  exact ⟨hx, hy, hshows.window.inside, hshows.window.cells⟩

end Bingos.Vga
