import Bingos.FontGenerator
import Bingos.ListLoops

set_option autoImplicit false

/-! `draw_pixel` and `draw_char` of `kernel/drawing.c`, and the pixels of a font that the generator
packed. -/
namespace Bingos.Fonts
open CStrings ListLoops Print

structure Color where
  red : UInt8
  green : UInt8
  blue : UInt8
  alpha : UInt8

/-- The frame buffer, and how many bits a pixel and how many bytes a line of it takes. -/
structure Screen where
  buffer : ℕ → UInt8
  bpp : ℕ
  pitch : ℕ

def Screen.place (s : Screen) (x y : ℤ) : ℕ := ((x * (s.bpp / 8 : ℕ) + y * s.pitch) % 2 ^ 32).toNat

def Screen.drawPixel (s : Screen) (x y : ℤ) (color : Color) : Screen :=
  let place := s.place x y
  { s with
    buffer := Function.update (Function.update (Function.update s.buffer place color.blue)
      ((place + 1) % 2 ^ 32) color.green) ((place + 2) % 2 ^ 32) color.red }

/-- `fonts_system_large[c].data[k]`; a `char` is signed. -/
def fontData (font : List ℕ) (glyphBytes : ℕ) (c : BitVec 8) (k : ℕ) : Option ℕ :=
  if c.toInt < 0 ∨ glyphBytes ≤ k then none else font[c.toInt.toNat * glyphBytes + k]?

def drawChar (charHeight charWidth : UInt8) (font : List ℕ) (glyphBytes : ℕ) (c : BitVec 8) (x y : ℤ)
    (fg bg : Color) (s : Screen) : Option Screen :=
  (List.range charHeight.toNat).foldlM (fun s h =>
    (List.range charWidth.toNat).foldlM (fun s v =>
      (fontData font glyphBytes c ((h * charWidth.toNat + v) / 8)).map fun byte =>
        if byte &&& (1 <<< ((h * charWidth.toNat + v) % 8)) ≠ 0 then s.drawPixel (x + v) (y + h) fg
        else s.drawPixel (x + v) (y + h) bg) s) s

def cellPixels (h w : ℕ) : List (ℕ × ℕ) :=
  (List.range h).flatMap fun r => (List.range w).map fun v => (r, v)

def paintCell (x y : ℤ) (h w : ℕ) (color : ℕ × ℕ → Color) (s : Screen) : Screen :=
  (cellPixels h w).foldl (fun s p => s.drawPixel (x + p.2) (y + p.1) (color p)) s

theorem mem_cellPixels {h w : ℕ} {p : ℕ × ℕ} : p ∈ cellPixels h w ↔ p.1 < h ∧ p.2 < w := by
  rw [cellPixels, List.mem_flatMap]
  constructor
  · rintro ⟨r, hr, hp⟩
    obtain ⟨v, hv, rfl⟩ := List.mem_map.mp hp
    exact ⟨List.mem_range.mp hr, List.mem_range.mp hv⟩
  · rintro ⟨hr, hv⟩
    exact ⟨p.1, List.mem_range.mpr hr, List.mem_map.mpr ⟨p.2, List.mem_range.mpr hv, rfl⟩⟩

variable {c : BitVec 8} {font : List ℕ} {glyphBytes r v : ℕ} {x y : ℤ}

theorem drawChar_eq {charHeight charWidth : UInt8}
    {star : ℕ → ℕ → Bool}
    (hbits : ∀ r < charHeight.toNat, ∀ v < charWidth.toNat, ∃ b,
      fontData font glyphBytes c ((r * charWidth.toNat + v) / 8) = some b ∧
        b.testBit ((r * charWidth.toNat + v) % 8) = star r v) (x y : ℤ) (fg bg : Color) (s : Screen) :
    drawChar charHeight charWidth font glyphBytes c x y fg bg s =
      some (paintCell x y charHeight.toNat charWidth.toNat
        (fun p => if star p.1 p.2 then fg else bg) s) := by
  rw [paintCell, cellPixels, List.foldl_flatMap, drawChar]
  apply foldlM_eq_foldl
  intro r hr s
  rw [List.foldl_map]
  apply foldlM_eq_foldl
  intro v hv s
  obtain ⟨b, hb, hbit⟩ := hbits r (List.mem_range.mp hr) v (List.mem_range.mp hv)
  have hmask : b &&& 1 <<< ((r * charWidth.toNat + v) % 8) ≠ 0 ↔ star r v = true := by
    rw [← hbit, Nat.one_shiftLeft, Nat.and_two_pow]
    cases b.testBit ((r * charWidth.toNat + v) % 8) <;> simp
  rw [hb, Option.map_some]
  dsimp only
  by_cases hstar : star r v = true
  · rw [if_pos (hmask.mpr hstar), if_pos hstar]
  · rw [if_neg (mt hmask.mp hstar), if_neg hstar]

/-- A character is drawn only if the table has all its bytes. -/
theorem drawChar_isSome {charHeight charWidth : UInt8} (x y : ℤ) (fg bg : Color) (s : Screen) :
    (drawChar charHeight charWidth font glyphBytes c x y fg bg s).isSome ↔
      ∀ r ∈ List.range charHeight.toNat, ∀ v ∈ List.range charWidth.toNat,
        (fontData font glyphBytes c ((r * charWidth.toNat + v) / 8)).isSome := by
  apply foldlM_isSome_iff
  intro r _ s
  apply foldlM_isSome_iff
  intro v _ s
  rw [Option.isSome_map]

/-! What the frame buffer shows. -/
section Memory

def Screen.colorAt (s : Screen) (x y : ℤ) : UInt8 × UInt8 × UInt8 :=
  let place := s.place x y
  (s.buffer place, s.buffer ((place + 1) % 2 ^ 32), s.buffer ((place + 2) % 2 ^ 32))

def Color.bytes (color : Color) : UInt8 × UInt8 × UInt8 := (color.blue, color.green, color.red)

/-- The cell lies in the frame buffer, a pixel takes three bytes or more, and the lines of the buffer
do not overlap. -/
structure OnScreen (s : Screen) (x y : ℤ) (h w : ℕ) : Prop where
  left : 0 ≤ x
  top : 0 ≤ y
  pixel : 3 ≤ s.bpp / 8
  line : (x + w) * (s.bpp / 8 : ℕ) ≤ s.pitch
  size : (y + h) * s.pitch ≤ 2 ^ 32

variable {s : Screen} {h w : ℕ}

theorem OnScreen.place_eq (hon : OnScreen s x y h w) (hr : r < h) (hv : v < w) :
    s.place (x + v) (y + r) = (x.toNat + v) * (s.bpp / 8) + (y.toNat + r) * s.pitch ∧
      (x.toNat + v + 1) * (s.bpp / 8) ≤ s.pitch ∧ (y.toNat + r + 1) * s.pitch ≤ 2 ^ 32 := by
  obtain ⟨X, rfl⟩ := Int.eq_ofNat_of_zero_le hon.left
  obtain ⟨Y, rfl⟩ := Int.eq_ofNat_of_zero_le hon.top
  have hline : (X + w) * (s.bpp / 8) ≤ s.pitch := by exact_mod_cast hon.line
  have hsize : (Y + h) * s.pitch ≤ 2 ^ 32 := by exact_mod_cast hon.size
  have hcolumn : (X + v + 1) * (s.bpp / 8) ≤ s.pitch :=
    (Nat.mul_le_mul_right _ (by omega)).trans hline
  have hrow : (Y + r + 1) * s.pitch ≤ 2 ^ 32 := (Nat.mul_le_mul_right _ (by omega)).trans hsize
  refine ⟨?_, hcolumn, hrow⟩
  have hpixel := hon.pixel
  have hlt : (X + v) * (s.bpp / 8) + (Y + r) * s.pitch < 2 ^ 32 := by
    rw [Nat.succ_mul] at hcolumn hrow
    omega
  have hcast : ((X : ℤ) + v) * (s.bpp / 8 : ℕ) + ((Y : ℤ) + r) * s.pitch =
      (((X + v) * (s.bpp / 8) + (Y + r) * s.pitch : ℕ) : ℤ) := by
    push_cast
    ring
  rw [Screen.place, hcast, Int.toNat_natCast, Int.toNat_natCast]
  omega

theorem OnScreen.place_lt (hon : OnScreen s x y h w) (hr : r < h) (hv : v < w) :
    s.place (x + v) (y + r) + 3 ≤ 2 ^ 32 := by
  obtain ⟨hplace, hcolumn, hrow⟩ := hon.place_eq hr hv
  have hpixel := hon.pixel
  rw [Nat.succ_mul] at hcolumn hrow
  omega

theorem OnScreen.place_apart (hon : OnScreen s x y h w) {r' v' : ℕ} (hr : r < h) (hv : v < w)
    (hr' : r' < h) (hv' : v' < w) (hlt : r < r' ∨ r = r' ∧ v < v') :
    s.place (x + v) (y + r) + 3 ≤ s.place (x + v') (y + r') := by
  obtain ⟨hplace, hcolumn, -⟩ := hon.place_eq hr hv
  obtain ⟨hplace', -, -⟩ := hon.place_eq hr' hv'
  have hpixel := hon.pixel
  rw [Nat.succ_mul] at hcolumn
  rw [hplace, hplace']
  rcases hlt with hlt | ⟨rfl, hlt⟩
  · have hrow : (y.toNat + r + 1) * s.pitch ≤ (y.toNat + r') * s.pitch :=
      Nat.mul_le_mul_right _ (by omega)
    rw [Nat.succ_mul] at hrow
    omega
  · have hnext : (x.toNat + v + 1) * (s.bpp / 8) ≤ (x.toNat + v') * (s.bpp / 8) :=
      Nat.mul_le_mul_right _ (by omega)
    rw [Nat.succ_mul] at hnext
    omega

theorem drawPixel_buffer (hplace : s.place x y + 3 ≤ 2 ^ 32) (color : Color) (k : ℕ) :
    (s.drawPixel x y color).buffer k =
      if k = s.place x y + 2 then color.red
      else if k = s.place x y + 1 then color.green
      else if k = s.place x y then color.blue else s.buffer k := by
  have hgreen : (s.place x y + 1) % 2 ^ 32 = s.place x y + 1 := Nat.mod_eq_of_lt (by omega)
  have hred : (s.place x y + 2) % 2 ^ 32 = s.place x y + 2 := Nat.mod_eq_of_lt (by omega)
  simp only [Screen.drawPixel, hgreen, hred, Function.update_apply]

theorem Screen.colorAt_eq (s : Screen) (hplace : s.place x y + 3 ≤ 2 ^ 32) :
    s.colorAt x y = (s.buffer (s.place x y), s.buffer (s.place x y + 1), s.buffer (s.place x y + 2)) := by
  have hgreen : (s.place x y + 1) % 2 ^ 32 = s.place x y + 1 := Nat.mod_eq_of_lt (by omega)
  have hred : (s.place x y + 2) % 2 ^ 32 = s.place x y + 2 := Nat.mod_eq_of_lt (by omega)
  rw [Screen.colorAt, hgreen, hred]

theorem drawPixel_place (color : Color) (x y x' y' : ℤ) :
    (s.drawPixel x' y' color).place x y = s.place x y := rfl

theorem colorAt_drawPixel (hplace : s.place x y + 3 ≤ 2 ^ 32) (color : Color) :
    (s.drawPixel x y color).colorAt x y = color.bytes := by
  rw [Screen.colorAt_eq (s.drawPixel x y color) hplace, drawPixel_place, drawPixel_buffer hplace,
    drawPixel_buffer hplace,
    drawPixel_buffer hplace, if_neg (by omega), if_neg (by omega), if_pos rfl, if_neg (by omega),
    if_pos rfl, if_pos rfl]
  rfl

theorem colorAt_drawPixel_apart {x' y' : ℤ} (hplace : s.place x y + 3 ≤ 2 ^ 32)
    (hplace' : s.place x' y' + 3 ≤ 2 ^ 32)
    (hapart : s.place x y + 3 ≤ s.place x' y' ∨ s.place x' y' + 3 ≤ s.place x y) (color : Color) :
    (s.drawPixel x' y' color).colorAt x y = s.colorAt x y := by
  have hkept : ∀ k, s.place x y ≤ k → k ≤ s.place x y + 2 →
      (s.drawPixel x' y' color).buffer k = s.buffer k := by
    intro k hlow hhigh
    rw [drawPixel_buffer hplace', if_neg (by omega), if_neg (by omega), if_neg (by omega)]
  rw [Screen.colorAt_eq s hplace, Screen.colorAt_eq (s.drawPixel x' y' color) hplace, drawPixel_place,
    hkept _ (by omega) (by omega), hkept _ (by omega) (by omega), hkept _ (by omega) (by omega)]

theorem OnScreen.painted (hon : OnScreen s x y h w) (color : ℕ × ℕ → Color) (hr : r < h)
    (hv : v < w) : (paintCell x y h w color s).colorAt (x + v) (y + r) = (color (r, v)).bytes := by
  have hwrites := foldl_writes
    (fun s (p : ℕ × ℕ) => Screen.drawPixel s (x + p.2) (y + p.1) (color p))
    (fun s p => Screen.colorAt s (x + p.2) (y + p.1)) (fun p => (color p).bytes)
    (fun s => OnScreen s x y h w) (fun p => p.1 < h ∧ p.2 < w)
    (fun s p hs => ⟨hs.left, hs.top, hs.pixel, hs.line, hs.size⟩)
    (fun s p hs hp => colorAt_drawPixel (hs.place_lt hp.1 hp.2) (color p)) ?_ (cellPixels h w)
    (fun p hp => mem_cellPixels.mp hp) hon
  · exact hwrites.2 (r, v) (mem_cellPixels.mpr ⟨hr, hv⟩)
  · rintro s ⟨r₁, v₁⟩ ⟨r₂, v₂⟩ hs hp hq hne
    apply colorAt_drawPixel_apart (hs.place_lt hp.1 hp.2) (hs.place_lt hq.1 hq.2)
    rcases lt_trichotomy r₁ r₂ with hlt | rfl | hgt
    · exact Or.inl (hs.place_apart hp.1 hp.2 hq.1 hq.2 (Or.inl hlt))
    · rcases lt_trichotomy v₁ v₂ with hlt | rfl | hgt
      · exact Or.inl (hs.place_apart hp.1 hp.2 hq.1 hq.2 (Or.inr ⟨rfl, hlt⟩))
      · exact absurd rfl hne
      · exact Or.inr (hs.place_apart hq.1 hq.2 hp.1 hp.2 (Or.inr ⟨rfl, hgt⟩))
    · exact Or.inr (hs.place_apart hq.1 hq.2 hp.1 hp.2 (Or.inl hgt))

end Memory

/-- `draw_pixel` was called once for each pixel of the cell, with these colours, and on a screen with
room for the cell each pixel shows its colour. -/
structure Painted (s s' : Screen) (x y : ℤ) (h w : ℕ) (color : ℕ × ℕ → Color) : Prop where
  calls : s' = paintCell x y h w color s
  shown : OnScreen s x y h w → ∀ r < h, ∀ v < w,
    s'.colorAt (x + v) (y + r) = (color (r, v)).bytes

theorem fontData_eq {k : ℕ} (hc : 0 ≤ c.toInt)
    (hk : k < glyphBytes) : fontData font glyphBytes c k = font[c.toInt.toNat * glyphBytes + k]? :=
  if_neg (by omega)

theorem pixel_place {n h w k : ℕ} (h8 : 8 ∣ h * w) :
    (n * (h * w) + k) / 8 = n * (h * w / 8) + k / 8 ∧ (n * (h * w) + k) % 8 = k % 8 := by
  obtain ⟨size, hsize⟩ := h8
  rw [hsize, Nat.mul_div_cancel_left _ (by decide), Nat.mul_left_comm]
  omega

def Drawn (fresh : ℕ → UInt8) (lines : List Bytes) (glyphs : List (List Bytes))
    (charHeight charWidth : UInt8) : Prop :=
  ∃ out table, generateFont fresh lines charHeight.toNat charWidth.toNat = some out ∧
    out.glyphBytes = charHeight.toNat * charWidth.toNat / 8 ∧ out.table = some table ∧
    ∀ (c : BitVec 8) (glyph : List Bytes), 0 ≤ c.toInt → glyphs[c.toInt.toNat]? = some glyph →
      ∀ (x y : ℤ) (fg bg : Color) (s : Screen),
        ∃ s', drawChar charHeight charWidth table out.glyphBytes c x y fg bg s = some s' ∧
          Painted s s' x y charHeight.toNat charWidth.toNat
            fun p => if isStar glyph p.1 p.2 then fg else bg

section Table
variable {lines : List Bytes} {glyphs : List (List Bytes)} {charHeight charWidth : UInt8}
  (hsource : FontSource charHeight.toNat charWidth.toNat lines glyphs)
  (h8 : 8 ∣ charHeight.toNat * charWidth.toNat)

theorem cell_bound (charHeight charWidth : UInt8) :
    charHeight.toNat * charWidth.toNat < 2 ^ 31 :=
  (Nat.mul_lt_mul'' charHeight.toNat_lt charWidth.toNat_lt).trans_le (by decide)

theorem charWidth_le (charWidth : UInt8) : charWidth.toNat ≤ 4096 :=
  charWidth.toNat_lt.le.trans (by decide)

include hsource h8

theorem drawn_of_kept (hint : (keptRows lines).length * charWidth.toNat ≤ 2 ^ 31 - 8)
    (hkept : ∀ n < 128, n < glyphs.length → (n + 1) * (charHeight.toNat * charWidth.toNat) ≤
      (keptRows lines).length * charWidth.toNat) (fresh : ℕ → UInt8) :
    Drawn fresh lines glyphs charHeight charWidth := by
  obtain ⟨out, table, hout, hsize, htable, hlen, hbits⟩ :=
    generateFont_eq hsource (charWidth_le _) (cell_bound charHeight charWidth) fresh hint
  refine ⟨out, table, hout, hsize, htable, fun c glyph hc hglyph x y fg bg s => ?_⟩
  have hn : c.toInt.toNat < 128 := by
    have := c.toInt_lt
    omega
  have hrows := hkept _ hn (List.getElem?_eq_some_iff.mp hglyph).1
  have hdata : ∀ r < charHeight.toNat, ∀ v < charWidth.toNat, ∃ b,
      fontData table out.glyphBytes c ((r * charWidth.toNat + v) / 8) = some b ∧
        b.testBit ((r * charWidth.toNat + v) % 8) = isStar glyph r v := by
    intro r hr v hv
    have hheight := Nat.le_of_mul_le_mul_right (Nat.mul_assoc _ _ _ ▸ hrows)
      (Nat.zero_lt_of_lt hv)
    rw [Nat.succ_mul] at hheight
    have hrow : c.toInt.toNat * charHeight.toNat + r < (keptRows lines).length := by omega
    have hcell := hsource.cell hglyph hr hv hrow
    obtain ⟨hbyte, hbit⟩ := @pixel_place c.toInt.toNat charHeight.toNat charWidth.toNat
      (r * charWidth.toNat + v) h8
    have hplace : c.toInt.toNat * (charHeight.toNat * charWidth.toNat) +
        (r * charWidth.toNat + v) < (keptRows lines).length * charWidth.toNat := by
      have hlt := cell_lt hrow hv
      rw [Nat.add_mul, Nat.mul_assoc] at hlt
      omega
    have hchar : ∃ char, (cells charWidth.toNat lines)[c.toInt.toNat *
        (charHeight.toNat * charWidth.toNat) + (r * charWidth.toNat + v)]? = some char :=
      ⟨_, List.getElem?_eq_getElem (by rw [hsource.length_cells]; exact hplace)⟩
    obtain ⟨char, hchar⟩ := hchar
    obtain ⟨b, hb, hstar⟩ := hbits _ (show (c.toInt.toNat * (charHeight.toNat * charWidth.toNat) +
      (r * charWidth.toNat + v)) / 8 < table.length by omega)
    have hlt := cell_lt hr hv
    refine ⟨b, ?_, ?_⟩
    · rw [fontData_eq hc (by omega), hsize, ← hbyte, hb]
    · rw [← hbit, hstar _ (Nat.mod_lt _ (by decide)), Nat.div_add_mod, rowMemory,
        List.getD_eq_getElem?_getD, hchar, Option.getD_some, isStar, ← hcell, hchar]
      simp only [Option.some.injEq]
  exact ⟨_, drawChar_eq hdata x y fg bg s, rfl, fun hon r hr v hv => hon.painted _ hr hv⟩

theorem Drawn.lost_pixel {u : UInt8} (h : Drawn (fun _ => u) lines glyphs charHeight charWidth)
    {n : ℕ} (hn : n < 128) {glyph : List Bytes} (hglyph : glyphs[n]? = some glyph)
    (hr : r < charHeight.toNat) (hpos : 0 < charWidth.toNat)
    (hlost : (keptRows lines).length ≤ n * charHeight.toNat + r) :
    isStar glyph r 0 = decide (u = ch '*') := by
  obtain ⟨out, table, hout, hsize, htable, hdraw⟩ := h
  have hint := generateFont_kept_le hsource (charWidth_le _) hout
  obtain ⟨out', table', hout', -, htable', -, hbits⟩ :=
    generateFont_eq hsource (charWidth_le _) (cell_bound charHeight charWidth) (fun _ => u) hint
  obtain rfl : out = out' := Option.some.inj (hout.symm.trans hout')
  obtain rfl : table = table' := Option.some.inj (htable.symm.trans htable')
  have hc : (BitVec.ofNat 8 n).toInt = n := by
    rw [BitVec.toInt_eq_toNat_of_lt (by rw [BitVec.toNat_ofNat]; omega), BitVec.toNat_ofNat,
      Nat.mod_eq_of_lt (by omega)]
  have hhigh := charHeight.toNat_lt
  have hwide := charWidth.toNat_lt
  have hon : OnScreen ⟨fun _ => 0, 24, 765⟩ 0 0 charHeight.toNat charWidth.toNat := by
    refine ⟨le_rfl, le_rfl, by decide, ?_, ?_⟩
    · change (0 + (charWidth.toNat : ℤ)) * 3 ≤ 765
      omega
    · change (0 + (charHeight.toNat : ℤ)) * 765 ≤ 2 ^ 32
      omega
  obtain ⟨s', hs', -, hshown⟩ := hdraw (BitVec.ofNat 8 n) glyph (by omega)
    (by rw [hc, Int.toNat_natCast]; exact hglyph) 0 0 ⟨1, 1, 1, 0⟩ ⟨0, 0, 0, 0⟩ ⟨fun _ => 0, 24, 765⟩
  have hall := (drawChar_isSome 0 0 ⟨1, 1, 1, 0⟩ ⟨0, 0, 0, 0⟩ ⟨fun _ => 0, 24, 765⟩).mp
    (by rw [hs']; rfl : (drawChar charHeight charWidth table out.glyphBytes (BitVec.ofNat 8 n) 0 0
      ⟨1, 1, 1, 0⟩ ⟨0, 0, 0, 0⟩ ⟨fun _ => 0, 24, 765⟩).isSome)
  have hpainted := @drawChar_eq (BitVec.ofNat 8 n) table out.glyphBytes charHeight charWidth
    (fun r v => ((fontData table out.glyphBytes (BitVec.ofNat 8 n)
      ((r * charWidth.toNat + v) / 8)).getD 0).testBit ((r * charWidth.toNat + v) % 8))
    (fun r hr v hv => by
      obtain ⟨b, hb⟩ := Option.isSome_iff_exists.mp
        (hall r (List.mem_range.mpr hr) v (List.mem_range.mpr hv))
      exact ⟨b, hb, by rw [hb]; rfl⟩) 0 0 ⟨1, 1, 1, 0⟩ ⟨0, 0, 0, 0⟩ ⟨fun _ => 0, 24, 765⟩
  obtain rfl := Option.some.inj (hs'.symm.trans hpainted)
  have hcolor := (hon.painted _ hr hpos).symm.trans (hshown hon r hr 0 hpos)
  obtain ⟨b, hb⟩ := Option.isSome_iff_exists.mp
    (hall r (List.mem_range.mpr hr) 0 (List.mem_range.mpr hpos))
  have hlt := cell_lt hr hpos
  obtain ⟨hbyte, hbit⟩ := @pixel_place n charHeight.toNat charWidth.toNat
    (r * charWidth.toNat + 0) h8
  have hget := hb
  rw [fontData_eq (by omega) (by omega), hc, Int.toNat_natCast, hsize, ← hbyte] at hget
  obtain ⟨b', hb', hstar⟩ := hbits _ (List.getElem?_eq_some_iff.mp hget).1
  obtain rfl : b = b' := Option.some.inj (hget.symm.trans hb')
  have hmem : (keptRows lines).length * charWidth.toNat ≤
      n * (charHeight.toNat * charWidth.toNat) + (r * charWidth.toNat + 0) := by
    have hle := Nat.mul_le_mul_right charWidth.toNat hlost
    rw [Nat.add_mul, Nat.mul_assoc] at hle
    omega
  have hfresh : b.testBit ((r * charWidth.toNat + 0) % 8) = decide (u = ch '*') := by
    rw [← hbit, hstar _ (Nat.mod_lt _ (by decide)), Nat.div_add_mod, rowMemory,
      List.getD_eq_default _ _ (by rw [hsource.length_cells]; exact hmem)]
  simp only [hb, Option.getD_some, hfresh] at hcolor
  cases hleft : isStar glyph r 0 <;> cases hright : decide (u = ch '*') <;>
    simp_all [Color.bytes]

/-- Every character of the table shows its glyph, whatever the memory for the rows held, exactly if
the cells of the glyphs that a `char` has are kept, and no more cells are kept than `i` can count. -/
theorem font_table_drawn_iff :
    (∀ fresh, Drawn fresh lines glyphs charHeight charWidth) ↔
      (keptRows lines).length * charWidth.toNat ≤ 2 ^ 31 - 8 ∧ ∀ n < 128, n < glyphs.length →
        (n + 1) * (charHeight.toNat * charWidth.toNat) ≤
          (keptRows lines).length * charWidth.toNat := by
  constructor
  · intro h
    obtain ⟨out, table, hout, -⟩ := h fun _ => 0
    refine ⟨generateFont_kept_le hsource (charWidth_le _) hout, fun n hn hglyphs => ?_⟩
    by_contra hshort
    have hglyph : glyphs[n]? = some glyphs[n] := List.getElem?_eq_getElem hglyphs
    have hpos : 0 < charWidth.toNat := Nat.pos_of_ne_zero fun hzero => hshort (by rw [hzero]; rfl)
    have hhigh : 0 < charHeight.toNat := by
      refine Nat.pos_of_ne_zero fun hzero => hshort ?_
      rw [hzero, Nat.zero_mul]
      exact Nat.zero_le _
    rw [← Nat.mul_assoc, Nat.mul_le_mul_right_iff hpos, Nat.succ_mul] at hshort
    have hstar := (h fun _ => ch '*').lost_pixel hsource h8 hn hglyph
      (r := (keptRows lines).length - n * charHeight.toNat) (by omega) hpos (by omega)
    have hblank := (h fun _ => 0).lost_pixel hsource h8 hn hglyph
      (r := (keptRows lines).length - n * charHeight.toNat) (by omega) hpos (by omega)
    exact absurd (hstar.symm.trans hblank) (by decide)
  · rintro ⟨hint, hkept⟩ fresh
    exact drawn_of_kept hsource h8 hint hkept fresh

end Table

def sampleRow : Bytes := [ch '*', ch '.', ch '.', ch '*', ch '.', ch '.', ch '.', ch '*', 0x0a]

def sampleLines : List Bytes := [[ch 'g', ch 'l', ch 'y', ch 'p', ch 'h', 0x0a], sampleRow, [0x0a]]

theorem sampleLines_source : FontSource 1 8 sampleLines [[sampleRow]] where
  rows := by decide
  height := by decide
  width := by decide

theorem sample_drawn : FontSource 1 8 sampleLines [[sampleRow]] ∧
    ∀ fresh, Drawn fresh sampleLines [[sampleRow]] 1 8 :=
  ⟨sampleLines_source, (@font_table_drawn_iff _ _ 1 8 sampleLines_source (by decide)).mpr
    (by decide)⟩

def longRow : Bytes := ch '*' :: (List.replicate (2 ^ 32 - 3) (ch '*') ++ [0x0a])

theorem length_longRow : longRow.length = 2 ^ 32 - 1 := by
  rw [longRow, List.length_cons, List.length_append, List.length_replicate, List.length_singleton]
  norm_num

theorem longRow_source : FontSource 1 8 [longRow] [[longRow]] where
  rows := by
    have hkept : isSkipped longRow = false := rfl
    rw [List.filter_cons_of_pos (by rw [hkept]; rfl)]
    rfl
  height := by
    intro glyph hglyph
    rw [List.mem_singleton.mp hglyph]
    rfl
  width := by
    intro glyph hglyph row hrow
    rw [List.mem_singleton.mp hglyph, List.mem_singleton] at hrow
    rw [hrow, length_longRow]
    decide

theorem nread_of_length {line : Bytes} (h : line.length = 2 ^ 32 - 1) : nread line = -1 := by
  unfold nread
  rw [Int.bmod_def]
  split_ifs <;> omega

/-- Its length in an `int` is -1, which ends the loop as the end of the file does. -/
theorem long_row_lost : FontSource 1 8 [longRow] [[longRow]] ∧ nread longRow = -1 ∧
    ∀ fresh, ∃ out, generateFont fresh [longRow] 1 8 = some out ∧ out.table = some [] ∧
      ∀ (x y : ℤ) (fg bg : Color) (s : Screen),
        drawChar 1 8 [] out.glyphBytes 0 x y fg bg s = none := by
  have hread : nread longRow = -1 := nread_of_length length_longRow
  have hbuffer : readLoop 8 [longRow] 4096 [] = some [] := by
    rw [readLoop, if_pos hread]
  refine ⟨longRow_source, hread, fun fresh => ⟨⟨1, [ch '\x7d', ch ';']⟩, ?_, rfl,
    fun x y fg bg s => rfl⟩⟩
  rw [generateFont, if_neg (by decide), hbuffer, Option.bind_some, printLoop, if_neg (by decide)]
  rfl

end Bingos.Fonts
