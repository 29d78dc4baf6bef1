import Bingos.CStrings

set_option autoImplicit false

/-! What the consoles of `vga.c` and `vesa.c` share: a cursor of two bytes, and how
characters move it and draw. -/
namespace Bingos.Consoles
open CStrings

variable {σ : Type}

structure Console (σ : Type) where
  surface : σ
  cursorX : ℕ
  cursorY : ℕ

/-- What the two differ in: the width, the step of a tab, what a backspace does to the
cell it moves to, and how a character is drawn into a cell. -/
structure Device (σ : Type) where
  columns : ℕ
  tab : ℕ
  erase : ℕ → ℕ → σ → σ
  draw : UInt8 → ℕ → ℕ → σ → σ

/-- The branch of `printc` for a character. A `char` is signed, so `c >= ' '`
leaves out the bytes from 128 on. -/
def typeChar (d : Device σ) (c : UInt8) (s : Console σ) : Console σ :=
  if c = 0x08 ∧ s.cursorX ≠ 0 then
    ⟨d.erase (s.cursorX - 1) s.cursorY s.surface, s.cursorX - 1, s.cursorY⟩
  else if c = 0x09 then { s with cursorX := (s.cursorX + d.tab) &&& (256 - d.tab) }
  else if c = 0x0d then { s with cursorX := 0 }
  else if c = 0x0a then { s with cursorX := 0, cursorY := (s.cursorY + 1) % 256 }
  else if 0x20 ≤ c ∧ c < 0x80 then
    ⟨d.draw c s.cursorX s.cursorY s.surface, (s.cursorX + 1) % 256, s.cursorY⟩
  else s

def wrapLine (d : Device σ) (s : Console σ) : Console σ :=
  if d.columns ≤ s.cursorX then { s with cursorX := 0, cursorY := (s.cursorY + 1) % 256 } else s

def printc (d : Device σ) (scroll : Console σ → Console σ) (s : Console σ) (c : UInt8) : Console σ :=
  scroll (wrapLine d (typeChar d c s))

def println (put : Console σ → UInt8 → Console σ) (s : Console σ) : Bytes → Console σ
  | [] => put s 0x0a
  | c :: msg => if c = 0 then put s 0x0a else println put (put s c) msg

theorem println_eq (put : Console σ → UInt8 → Console σ) (s : Console σ) (msg : Bytes) :
    println put s msg = (cstr msg 0 ++ [0x0a]).foldl put s :=
  eq_foldl_cstr (fun _ => rfl) (fun _ _ _ => rfl) s msg

theorem foldl_calls {ι ε : Type} {run : σ → ι → σ} {events : ι → List ε} {step : σ → ε → σ}
    (h : ∀ s i, run s i = (events i).foldl step s) (s : σ) (calls : List ι) :
    calls.foldl run s = (calls.flatMap events).foldl step s := by
  induction calls generalizing s with
  | nil => rfl
  | cons i calls ih => rw [List.foldl_cons, ih, h, List.flatMap_cons, List.foldl_append]

inductive Typed (d : Device σ) (s : Console σ) : UInt8 → Console σ → Prop where
  | backspace (h : s.cursorX ≠ 0) :
      Typed d s 0x08 ⟨d.erase (s.cursorX - 1) s.cursorY s.surface, s.cursorX - 1, s.cursorY⟩
  | atStart (h : s.cursorX = 0) : Typed d s 0x08 s
  | tab : Typed d s 0x09 { s with cursorX := (s.cursorX + d.tab) &&& (256 - d.tab) }
  | carriageReturn : Typed d s 0x0d { s with cursorX := 0 }
  | newline : Typed d s 0x0a { s with cursorX := 0, cursorY := (s.cursorY + 1) % 256 }
  | graphic {c : UInt8} (h : 0x20 ≤ c ∧ c < 0x80) :
      Typed d s c ⟨d.draw c s.cursorX s.cursorY s.surface, (s.cursorX + 1) % 256, s.cursorY⟩
  | ignored {c : UInt8} (hback : c ≠ 0x08) (htab : c ≠ 0x09) (hreturn : c ≠ 0x0d) (hnew : c ≠ 0x0a)
      (h : ¬(0x20 ≤ c ∧ c < 0x80)) : Typed d s c s

theorem typeChar_typed (d : Device σ) (s : Console σ) (c : UInt8) :
    Typed d s c (typeChar d c s) := by
  unfold typeChar
  split_ifs with hback htab hreturn hnew hgraphic
  · rw [hback.1]
    exact .backspace hback.2
  · exact htab ▸ .tab
  · exact hreturn ▸ .carriageReturn
  · exact hnew ▸ .newline
  · exact .graphic hgraphic
  · by_cases hc : c = 0x08
    · exact hc ▸ .atStart (not_not.mp (not_and.mp hback hc))
    · exact .ignored hc htab hreturn hnew hgraphic

end Bingos.Consoles
