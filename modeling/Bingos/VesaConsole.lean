import Bingos.CharacterConsoles
import Bingos.ListLoops

set_option autoImplicit false
set_option maxRecDepth 4096

/-! The frame-buffer console of `kernel/vesa.c` with characters of 16 by 22 pixels,
and which pixels it draws. -/
namespace Bingos.Vesa
open CStrings Consoles ListLoops

def charHeight : ℕ := 22

def charWidth : ℕ := 16

structure Mode where
  width : ℕ
  height : ℕ
  pitch : ℕ
  width_ge : 16 ≤ width
  height_ge : 22 ≤ height
  columns_lt : width / charWidth + 1 < 256
  rows_lt : height / charHeight < 256

def Mode.consoleHeight (mode : Mode) : ℕ := mode.height / charHeight

def Mode.consoleWidth (mode : Mode) : ℕ := mode.width / charWidth + 1

structure Pixel where
  x : ℕ
  y : ℕ
  foreground : Bool

structure Copy where
  dst : ℕ
  src : ℕ
  len : ℕ

structure Frame where
  pixels : List Pixel
  copies : List Copy

def Frame.drawPixel (f : Frame) (p : Pixel) : Frame := { f with pixels := f.pixels ++ [p] }

def Frame.memcpy (f : Frame) (c : Copy) : Frame := { f with copies := f.copies ++ [c] }

def drawChar (font : UInt8 → ℕ → Bool) (c : UInt8) (x y : ℕ) (f : Frame) : Frame :=
  (List.range charHeight).foldl (fun f h =>
    (List.range charWidth).foldl (fun f v =>
      f.drawPixel ⟨x + v, y + h, font c (h * charWidth + v)⟩) f) f

abbrev Screen := Console Frame

section Source
variable (mode : Mode) (font : UInt8 → ℕ → Bool)

def vesaScrollScreen (s : Screen) : Screen :=
  if mode.consoleHeight ≤ s.cursorY then
    let moved := (List.range (mode.consoleHeight - 1)).foldl (fun f i =>
      f.memcpy ⟨i * mode.pitch * charHeight, (i + 1) * mode.pitch * charHeight,
        mode.pitch * charHeight⟩) s.surface
    { s with
      surface := (List.range mode.consoleWidth).foldl (fun f i =>
        drawChar font 0x20 (i * charWidth) ((mode.consoleHeight - 1) * charHeight) f) moved
      cursorY := mode.consoleHeight - 1 }
  else s

def device : Device Frame where
  columns := mode.consoleWidth
  tab := charWidth
  erase x y := drawChar font 0x20 (x * charWidth) (y * charHeight)
  draw c x y := drawChar font c (x * charWidth) (y * charHeight)

def vesaPrintc : Screen → UInt8 → Screen := printc (device mode font) (vesaScrollScreen mode font)

def vesaPrintln : Screen → Bytes → Screen := println (vesaPrintc mode font)

def vesaClearScreen (s : Screen) : Screen where
  surface := (List.range mode.consoleWidth).foldl (fun f i =>
    (List.range (mode.consoleHeight + 1)).foldl (fun f j =>
      drawChar font 0x20 (i * charWidth) (j * charHeight) f) f) s.surface
  cursorX := 0
  cursorY := 0

inductive Call where
  | clear
  | printc (c : UInt8)
  | println (msg : Bytes)

def Call.run (s : Screen) : Call → Screen
  | .clear => vesaClearScreen mode font s
  | .printc c => vesaPrintc mode font s c
  | .println msg => vesaPrintln mode font s msg

end Source

def initial : Screen := ⟨⟨[], []⟩, 0, 0⟩

inductive Event where
  | clear
  | char (c : UInt8)

def Event.step (mode : Mode) (font : UInt8 → ℕ → Bool) (s : Screen) : Event → Screen
  | .clear => vesaClearScreen mode font s
  | .char c => vesaPrintc mode font s c

def Call.events : Call → List Event
  | .clear => [.clear]
  | .printc c => [.char c]
  | .println msg => (cstr msg 0).map .char ++ [.char 0x0a]

def CopiesInside (mode : Mode) (f : Frame) : Prop :=
  ∀ c ∈ f.copies,
    c.dst + c.len ≤ mode.height * mode.pitch ∧ c.src + c.len ≤ mode.height * mode.pitch

structure Inside (mode : Mode) (f : Frame) : Prop where
  pixels : ∀ p ∈ f.pixels, p.x < mode.width ∧ p.y < mode.height
  copies : CopiesInside mode f

section Frames
variable {mode : Mode} {font : UInt8 → ℕ → Bool} {f : Frame}

theorem inside_drawPixel {p : Pixel} :
    Inside mode (f.drawPixel p) ↔ Inside mode f ∧ p.x < mode.width ∧ p.y < mode.height := by
  constructor
  · intro h
    refine ⟨⟨fun q hq => ?_, h.copies⟩, ?_⟩
    · exact h.pixels q (List.mem_append_left _ hq)
    · exact h.pixels p (List.mem_append_right _ List.mem_cons_self)
  · rintro ⟨h, hp⟩
    refine ⟨fun q hq => ?_, h.copies⟩
    rcases List.mem_append.mp hq with hold | hnew
    · exact h.pixels q hold
    · rw [List.mem_singleton.mp hnew]
      exact hp

theorem inside_drawChar (c : UInt8) (i j : ℕ) :
    Inside mode (drawChar font c (i * charWidth) (j * charHeight) f) ↔
      Inside mode f ∧ i < mode.width / charWidth ∧ j < mode.consoleHeight := by
  have hrow : ∀ (f : Frame) (h : ℕ),
      Inside mode ((List.range charWidth).foldl (fun f v => f.drawPixel
        ⟨i * charWidth + v, j * charHeight + h, font c (h * charWidth + v)⟩) f) ↔
      Inside mode f ∧ ∀ v ∈ List.range charWidth,
        i * charWidth + v < mode.width ∧ j * charHeight + h < mode.height :=
    fun f h => foldl_iff (P := Inside mode) (fun f v => inside_drawPixel
      (p := ⟨i * charWidth + v, j * charHeight + h, font c (h * charWidth + v)⟩)) _ f
  unfold drawChar
  rw [foldl_iff hrow]
  apply and_congr_right
  intro _
  simp only [List.mem_range, Mode.consoleHeight, charHeight, charWidth]
  constructor
  · intro h
    have hlast := h 21 (by decide) 15 (by decide)
    omega
  · intro h r hr v hv
    omega

theorem inside_scroll (s : Screen) :
    Inside mode (vesaScrollScreen mode font s).surface ↔
      Inside mode s.surface ∧ s.cursorY < mode.consoleHeight := by
  unfold vesaScrollScreen
  by_cases hscroll : mode.consoleHeight ≤ s.cursorY
  · rw [if_pos hscroll]
    simp only
    rw [foldl_iff fun f i => inside_drawChar 0x20 i (mode.consoleHeight - 1)]
    constructor
    · rintro ⟨-, h⟩
      have hlast := h (mode.width / charWidth) (List.mem_range.mpr (Nat.lt_succ_self _))
      exact absurd hlast.1 (Nat.lt_irrefl _)
    · rintro ⟨-, hlt⟩
      omega
  · rw [if_neg hscroll, and_iff_left (Nat.not_le.mp hscroll)]

variable (mode font) in
theorem not_inside_clear (s : Screen) : ¬Inside mode (vesaClearScreen mode font s).surface := by
  unfold vesaClearScreen
  have hcolumn : ∀ (f : Frame) (i : ℕ),
      Inside mode ((List.range (mode.consoleHeight + 1)).foldl (fun f j =>
        drawChar font 0x20 (i * charWidth) (j * charHeight) f) f) ↔
      Inside mode f ∧ ∀ j ∈ List.range (mode.consoleHeight + 1),
        i < mode.width / charWidth ∧ j < mode.consoleHeight :=
    fun f i => foldl_iff (P := Inside mode) (fun _ j => inside_drawChar 0x20 i j) _ f
  rw [foldl_iff hcolumn]
  rintro ⟨-, h⟩
  have hlast := h (mode.width / charWidth) (List.mem_range.mpr (Nat.lt_succ_self _)) 0
    (List.mem_range.mpr (Nat.succ_pos _))
  exact absurd hlast.1 (Nat.lt_irrefl _)

end Frames

structure Placed (mode : Mode) (s : Screen) : Prop where
  column : s.cursorX < mode.consoleWidth
  row : s.cursorY < mode.consoleHeight

/-- The events that draw on the screen only: no clear, no character in the column
behind the last whole one, and no new line in the last row. -/
def Fits (mode : Mode) (s : Screen) : Event → Prop
  | .clear => False
  | .char c => (0x20 ≤ c ∧ c < 0x80 → s.cursorX < mode.width / charWidth) ∧
      (c = 0x0a ∨ c = 0x09 ∧ mode.consoleWidth ≤ (s.cursorX + charWidth) &&& 0xf0 →
        s.cursorY + 1 < mode.consoleHeight)

variable {s s' : Screen} {c : UInt8}

section Steps
variable {mode : Mode} {font : UInt8 → ℕ → Bool}

theorem Mode.consoleHeight_bounds (mode : Mode) :
    0 < mode.consoleHeight ∧ mode.consoleHeight < 256 := by
  have hge := mode.height_ge
  have hlt := mode.rows_lt
  unfold Mode.consoleHeight
  unfold charHeight at hlt ⊢
  omega

def Advances (mode : Mode) (s : Screen) (c : UInt8) : Prop :=
  c = 0x0a ∨ c = 0x09 ∧ mode.consoleWidth ≤ (s.cursorX + charWidth) &&& 0xf0 ∨
    (0x20 ≤ c ∧ c < 0x80) ∧ mode.consoleWidth ≤ s.cursorX + 1

theorem wrapLine_surface (s : Screen) : (wrapLine (device mode font) s).surface = s.surface := by
  unfold wrapLine
  split_ifs
  · rfl
  · rfl

theorem wrapLine_eq (s : Screen) (hy : s.cursorY < mode.consoleHeight) :
    (wrapLine (device mode font) s).cursorX < mode.consoleWidth ∧
      ((wrapLine (device mode font) s).cursorY < mode.consoleHeight ↔
        (mode.consoleWidth ≤ s.cursorX → s.cursorY + 1 < mode.consoleHeight)) := by
  have hbounds := mode.consoleHeight_bounds
  rw [wrapLine, show (device mode font).columns = mode.consoleWidth from rfl]
  by_cases hwrap : mode.consoleWidth ≤ s.cursorX
  · rw [if_pos hwrap]
    refine ⟨Nat.succ_pos _, ?_⟩
    simp only [hwrap, true_imp_iff]
    omega
  · rw [if_neg hwrap]
    exact ⟨Nat.not_le.mp hwrap, iff_of_true hy fun h => absurd h hwrap⟩

theorem same_row (h : Placed mode s) (hy : s'.cursorY = s.cursorY)
    (hx : mode.consoleWidth ≤ s'.cursorX ↔ Advances mode s c) :
    (wrapLine (device mode font) s').cursorX < mode.consoleWidth ∧
      ((wrapLine (device mode font) s').cursorY < mode.consoleHeight ↔
        (Advances mode s c → s.cursorY + 1 < mode.consoleHeight)) := by
  have hrow := @wrapLine_eq mode font s' (hy ▸ h.row)
  rwa [hx, hy] at hrow

theorem typed_char (h : Placed mode s) (htyped : Typed (device mode font) s c s') :
    (Inside mode s'.surface ↔
      Inside mode s.surface ∧ (0x20 ≤ c ∧ c < 0x80 → s.cursorX < mode.width / charWidth)) ∧
    (wrapLine (device mode font) s').cursorX < mode.consoleWidth ∧
    ((wrapLine (device mode font) s').cursorY < mode.consoleHeight ↔
      (Advances mode s c → s.cursorY + 1 < mode.consoleHeight)) := by
  have hx := h.column
  have hy := h.row
  have hbounds := mode.consoleHeight_bounds
  have hcolumns : mode.consoleWidth < 256 := mode.columns_lt
  have hwidth : mode.consoleWidth = mode.width / charWidth + 1 := rfl
  -- a character below the space draws nothing but the blank of a backspace
  have hkept : ∀ {c : UInt8}, ¬(0x20 ≤ c ∧ c < 0x80) → (Inside mode s.surface ↔
      Inside mode s.surface ∧ (0x20 ≤ c ∧ c < 0x80 → s.cursorX < mode.width / charWidth)) :=
    fun hplain => (and_iff_left fun hc => absurd hc hplain).symm
  cases htyped with
  | backspace hne =>
    refine ⟨?_, same_row h rfl (iff_of_false (by simp only; omega) (by simp [Advances]))⟩
    rw [← hkept (by decide)]
    exact (inside_drawChar 0x20 _ _).trans (and_iff_left ⟨by omega, hy⟩)
  | atStart hzero =>
    exact ⟨hkept (by decide), same_row h rfl (iff_of_false (by omega) (by simp [Advances]))⟩
  | tab => exact ⟨hkept (by decide), same_row h rfl (by simp [Advances, device, charWidth])⟩
  | carriageReturn =>
    exact ⟨hkept (by decide), same_row h rfl (iff_of_false (by simp only; omega) (by simp [Advances]))⟩
  | newline =>
    have hnowrap : ¬(device mode font).columns ≤ 0 := Nat.not_le.mpr (Nat.succ_pos _)
    have hmod : (s.cursorY + 1) % 256 = s.cursorY + 1 := Nat.mod_eq_of_lt (by omega)
    rw [wrapLine, if_neg hnowrap, hmod]
    exact ⟨hkept (by decide), Nat.succ_pos _, ⟨fun hlt _ => hlt, fun hlt => hlt (Or.inl rfl)⟩⟩
  | graphic hgraphic =>
    have hmod : (s.cursorX + 1) % 256 = s.cursorX + 1 := Nat.mod_eq_of_lt (by omega)
    have hne : ∀ a : UInt8, a < 0x20 → c ≠ a := by
      rintro a ha rfl
      exact absurd hgraphic.1 (by simpa using ha)
    rw [hmod]
    refine ⟨?_, same_row h rfl ?_⟩
    · rw [imp_iff_right hgraphic]
      exact (inside_drawChar c _ _).trans (and_congr_right fun _ => and_iff_left hy)
    · simp only [Advances, hne 0x0a (by decide), hne 0x09 (by decide), false_and, false_or,
        and_iff_right hgraphic]
  | ignored _ htab _ hnew hplain =>
    have hadvance : ¬Advances mode s c := by simp [Advances, hnew, htab, hplain]
    exact ⟨hkept hplain, same_row h rfl (iff_of_false (Nat.not_le.mpr hx) hadvance)⟩

theorem Placed.printc (h : Placed mode s) (c : UInt8) : Placed mode (vesaPrintc mode font s c) := by
  have hcolumn := (typed_char h (typeChar_typed (device mode font) s c)).2.1
  have hbounds := mode.consoleHeight_bounds
  unfold vesaPrintc Consoles.printc vesaScrollScreen
  split_ifs with hscroll
  · exact ⟨hcolumn, Nat.sub_lt hbounds.1 Nat.one_pos⟩
  · exact ⟨hcolumn, Nat.not_le.mp hscroll⟩

theorem inside_printc (h : Placed mode s) (c : UInt8) :
    Inside mode (vesaPrintc mode font s c).surface ↔ Inside mode s.surface ∧ Fits mode s (.char c) := by
  obtain ⟨hframe, -, hrow⟩ := typed_char h (typeChar_typed (device mode font) s c)
  rw [vesaPrintc, printc, inside_scroll, wrapLine_surface, hframe, hrow, and_assoc]
  apply and_congr_right
  intro _
  apply and_congr_right
  intro hprint
  unfold Advances
  constructor
  · intro hadvance hline
    exact hadvance (hline.imp_right Or.inl)
  · intro hline hadvance
    rcases hadvance with hnew | htab | ⟨hgraphic, hwide⟩
    · exact hline (Or.inl hnew)
    · exact hline (Or.inr htab)
    · have hlt := hprint hgraphic
      unfold Mode.consoleWidth at hwide
      omega

end Steps

def AllFit (mode : Mode) (font : UInt8 → ℕ → Bool) : Screen → List Event → Prop
  | _, [] => True
  | s, e :: es => Fits mode s e ∧ AllFit mode font (e.step mode font s) es

section Runs
variable {mode : Mode} {font : UInt8 → ℕ → Bool}

theorem Placed.step (h : Placed mode s) (e : Event) : Placed mode (e.step mode font s) := by
  cases e with
  | clear => exact ⟨Nat.succ_pos _, mode.consoleHeight_bounds.1⟩
  | char c => exact h.printc c

theorem inside_step (h : Placed mode s) (e : Event) :
    Inside mode (e.step mode font s).surface ↔ Inside mode s.surface ∧ Fits mode s e := by
  cases e with
  | clear => exact iff_of_false (not_inside_clear mode font s) fun hfit => hfit.2
  | char c => exact inside_printc h c

theorem inside_run (h : Placed mode s) (es : List Event) :
    Inside mode (es.foldl (Event.step mode font) s).surface ↔
      Inside mode s.surface ∧ AllFit mode font s es := by
  induction es generalizing s with
  | nil => rw [List.foldl_nil, AllFit, and_true]
  | cons e es ih => rw [List.foldl_cons, ih (h.step e), inside_step h, AllFit, and_assoc]

theorem runCalls_eq (s : Screen) (calls : List Call) :
    calls.foldl (Call.run mode font) s =
      (calls.flatMap Call.events).foldl (Event.step mode font) s := by
  refine foldl_calls (fun s call => ?_) s calls
  cases call with
  | clear => rfl
  | printc c => rfl
  | println msg =>
    rw [Call.events, List.foldl_append, List.foldl_map]
    exact (println_eq _ s msg).trans List.foldl_append

end Runs

section Copies
variable {mode : Mode} {font : UInt8 → ℕ → Bool} {f : Frame}

theorem CopiesInside.memcpy (h : CopiesInside mode f) {i : ℕ} (hi : i + 1 < mode.consoleHeight) :
    CopiesInside mode (f.memcpy ⟨i * mode.pitch * charHeight, (i + 1) * mode.pitch * charHeight,
      mode.pitch * charHeight⟩) := by
  have hrows : ∀ j, j < mode.consoleHeight →
      j * mode.pitch * charHeight + mode.pitch * charHeight ≤ mode.height * mode.pitch := by
    intro j hj
    have hle : (j + 1) * charHeight ≤ mode.height :=
      (Nat.le_div_iff_mul_le (by decide)).mp hj
    calc j * mode.pitch * charHeight + mode.pitch * charHeight
        = (j + 1) * charHeight * mode.pitch := by ring
      _ ≤ mode.height * mode.pitch := Nat.mul_le_mul_right _ hle
  intro c hc
  rcases List.mem_append.mp hc with hold | hnew
  · exact h c hold
  · rw [List.mem_singleton.mp hnew]
    exact ⟨hrows i (by omega), hrows (i + 1) hi⟩

theorem CopiesInside.drawChar (h : CopiesInside mode f) (c : UInt8) (x y : ℕ) :
    CopiesInside mode (drawChar font c x y f) := by
  refine List.foldlRecOn (motive := CopiesInside mode) _ _ h fun g hg r _ => ?_
  exact List.foldlRecOn (motive := CopiesInside mode) _ _ hg fun g' hg' v _ => hg'

theorem CopiesInside.clear (h : CopiesInside mode s.surface) :
    CopiesInside mode (vesaClearScreen mode font s).surface := by
  refine List.foldlRecOn (motive := CopiesInside mode) _ _ h fun g hg i _ => ?_
  exact List.foldlRecOn (motive := CopiesInside mode) _ _ hg fun g' hg' j _ => hg'.drawChar _ _ _

theorem CopiesInside.scroll (h : CopiesInside mode s.surface) :
    CopiesInside mode (vesaScrollScreen mode font s).surface := by
  unfold vesaScrollScreen
  split_ifs
  · refine List.foldlRecOn (motive := CopiesInside mode) _ _ ?_ fun g hg i _ => hg.drawChar _ _ _
    refine List.foldlRecOn (motive := CopiesInside mode) _ _ h fun g hg i hi => ?_
    rw [List.mem_range] at hi
    exact hg.memcpy (by omega)
  · exact h

theorem CopiesInside.printc (h : CopiesInside mode s.surface) (c : UInt8) :
    CopiesInside mode (vesaPrintc mode font s c).surface := by
  have htyped := typeChar_typed (device mode font) s c
  rw [vesaPrintc, Consoles.printc]
  generalize typeChar (device mode font) c s = s' at htyped ⊢
  apply CopiesInside.scroll
  rw [wrapLine_surface]
  cases htyped with
  | backspace => exact h.drawChar _ _ _
  | graphic => exact h.drawChar _ _ _
  | _ => exact h

theorem scroll_copies_inside (mode : Mode) (font : UInt8 → ℕ → Bool) (calls : List Call) :
    CopiesInside mode (calls.foldl (Call.run mode font) initial).surface := by
  rw [runCalls_eq]
  refine List.foldlRecOn (motive := fun s : Screen => CopiesInside mode s.surface) _ _ nofun
    fun s hs e _ => ?_
  cases e with
  | clear => exact hs.clear
  | char c => exact hs.printc c

end Copies

/-- All that calls draw and copy is inside the frame buffer exactly if all their
events fit. -/
theorem vesa_on_screen_iff (mode : Mode) (font : UInt8 → ℕ → Bool) (calls : List Call) :
    Inside mode (calls.foldl (Call.run mode font) initial).surface ↔
      AllFit mode font initial (calls.flatMap Call.events) := by
  have hplaced : Placed mode initial := ⟨Nat.succ_pos _, mode.consoleHeight_bounds.1⟩
  have hempty : Inside mode initial.surface :=
    ⟨fun p hp => absurd hp List.not_mem_nil, fun c hc => absurd hc List.not_mem_nil⟩
  rw [runCalls_eq, inside_run hplaced, and_iff_right hempty]

def mode640 : Mode := ⟨640, 480, 1920, by decide, by decide, by decide, by decide⟩

/-- The first clear in a mode of 640 by 480 pixels draws outside of it. -/
theorem clear_draws_off_screen :
    ∃ p ∈ ([Call.clear].foldl (Call.run mode640 fun _ _ => false) initial).surface.pixels,
      640 ≤ p.x ∨ 480 ≤ p.y := by
  by_contra hnone
  have hout := not_inside_clear mode640 (fun _ _ => false) initial
  apply hout
  refine ⟨fun p hp => ?_, fun c hc => ?_⟩
  · have hin : ¬(640 ≤ p.x ∨ 480 ≤ p.y) := fun hp' => hnone ⟨p, hp, hp'⟩
    simp only [mode640]
    omega
  · exact scroll_copies_inside mode640 _ [.clear] c hc

end Bingos.Vesa
