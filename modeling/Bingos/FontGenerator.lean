import Bingos.PrintModel

set_option autoImplicit false

/-! `tools/generate_font.c`, which packs the rows of a font into a table of bytes. It runs on a host
with 64-bit sizes and 32-bit `int`; that an `int` overflows has no result. What the memory for the
rows holds at first is not known. -/
namespace Bingos.Fonts
open CStrings Print

def nread (line : Bytes) : ℤ := Int.bmod line.length (2 ^ 32)

def isSkipped (line : Bytes) : Bool :=
  line.head? = some (ch 'h') ∨ line.head? = some (ch 'g') ∨ line.head? = some 0x0d ∨
    line.head? = some 0x0a

/-- The loop over the lines. `wbuf` is what was copied so far, `offset` its length, and `size` that of
the memory for it. Bytes behind the end of a line are not known. -/
def readLoop (width : ℕ) : List Bytes → ℕ → Bytes → Option Bytes
  | [], _, wbuf => some wbuf
  | line :: lines, size, wbuf =>
    if nread line = -1 then some wbuf
    else
      let size := if wbuf.length + width > size then size + 4096 else size
      if isSkipped line then readLoop width lines size wbuf
      else if line.length < width ∨ size < wbuf.length + width then none
      else readLoop width lines size (wbuf ++ line.take width)

/-- The memory for the rows, behind those that were copied as `fresh` left it. -/
def rowMemory (wbuf : Bytes) (fresh : ℕ → UInt8) (k : ℕ) : UInt8 := wbuf.getD k (fresh k)

/-- The inner loop of the output: eight cells from `i` on, the first one in the lowest bit. -/
def packByte (mem : ℕ → UInt8) (i : ℕ) : ℕ :=
  (List.range 8).foldl (fun ret j => if mem (i + j) = ch '*' then ret ||| 1 <<< j else ret) 0

def hexDigit (d : ℕ) : UInt8 := UInt8.ofNat (if d < 10 then 48 + d else 87 + d)

def hexText (ret : ℕ) : Bytes :=
  ch '0' :: ch 'x' :: (if ret < 16 then [hexDigit ret] else [hexDigit (ret / 16), hexDigit (ret % 16)])

def printLoop (mem : ℕ → UInt8) (offset i : ℕ) : Option Bytes :=
  if i < offset then
    if 2 ^ 31 ≤ i + 8 then none
    else
      (printLoop mem offset (i + 8)).map fun text =>
        hexText (packByte mem i) ++ (if i + 8 = offset then [] else [ch ',', ch ' ']) ++ text
  else some []
termination_by offset - i

/-- The size in the declaration of the type, and the text from the initialisers on. -/
structure Output where
  glyphBytes : ℕ
  text : Bytes

def generateFont (fresh : ℕ → UInt8) (lines : List Bytes) (height width : ℕ) : Option Output :=
  if 2 ^ 31 ≤ height * width then none
  else
    (readLoop width lines 4096 []).bind fun wbuf =>
      (printLoop (rowMemory wbuf fresh) wbuf.length 0).map fun text =>
        ⟨height * width / 8, text ++ [ch '\x7d', ch ';']⟩

/-! The table that a compiler makes of the text. -/
section Initialisers

def digitValue (c : UInt8) : Option ℕ :=
  if 48 ≤ c ∧ c < 58 then some (c.toNat - 48)
  else if 97 ≤ c ∧ c < 103 then some (c.toNat - 87)
  else none

/-- `value` is the constant read so far. The `x` in front of the digits and blanks are skipped. -/
def initialisers : Bytes → Option ℕ → Option (List ℕ)
  | [], _ => none
  | c :: text, value =>
    if c = ch '\x7d' then some value.toList
    else if c = ch ',' then (initialisers text none).map (value.toList ++ ·)
    else
      match digitValue c with
      | some d => initialisers text (some (16 * value.getD 0 + d))
      | none => initialisers text value

def Output.table (out : Output) : Option (List ℕ) := initialisers out.text none

theorem initialisers_hexDigit {d : ℕ} (h : d < 16) (text : Bytes) (value : Option ℕ) :
    initialisers (hexDigit d :: text) value = initialisers text (some (16 * value.getD 0 + d)) := by
  rw [initialisers]
  have hdigit : hexDigit d ≠ ch '\x7d' ∧ hexDigit d ≠ ch ',' ∧ digitValue (hexDigit d) = some d := by
    interval_cases d <;> decide
  rw [if_neg hdigit.1, if_neg hdigit.2.1, hdigit.2.2]

theorem initialisers_hexText {ret : ℕ} (h : ret < 256) (text : Bytes) :
    initialisers (hexText ret ++ text) none = initialisers text (some ret) := by
  have hmark : ∀ text, initialisers (ch '0' :: ch 'x' :: text) none = initialisers text (some 0) := by
    intro text
    rfl
  rw [hexText, List.cons_append, List.cons_append, hmark]
  by_cases hsmall : ret < 16
  · rw [if_pos hsmall, List.singleton_append, initialisers_hexDigit hsmall, Option.getD_some,
      Nat.mul_zero, Nat.zero_add]
  · rw [if_neg hsmall, List.cons_append, List.singleton_append, initialisers_hexDigit (by omega),
      initialisers_hexDigit (by omega), Option.getD_some, Option.getD_some]
    congr 2
    omega

/-- The bytes of a table as the generator writes them, with a comma behind the last one if that is
not full. -/
def tableText (full : Bool) : List ℕ → Bytes
  | [] => []
  | b :: table =>
    hexText b ++ (if full ∧ table = [] then [] else [ch ',', ch ' ']) ++ tableText full table

theorem initialisers_tableText (full : Bool) (table : List ℕ) (h : ∀ b ∈ table, b < 256) :
    initialisers (tableText full table ++ [ch '\x7d', ch ';']) none = some table := by
  induction table with
  | nil => rfl
  | cons b table ih =>
    have hrest := ih fun x hx => h x (List.mem_cons_of_mem b hx)
    rw [tableText, List.append_assoc, List.append_assoc,
      initialisers_hexText (h b List.mem_cons_self)]
    by_cases hlast : full = true ∧ table = []
    · rw [if_pos hlast, hlast.2]
      rfl
    · rw [if_neg hlast]
      change (initialisers (tableText full table ++ [ch '\x7d', ch ';']) none).map ([b] ++ ·) = _
      rw [hrest]
      rfl

end Initialisers

/-! The bits of the table. -/
section Packing
variable {mem : ℕ → UInt8} {offset i : ℕ}

theorem packBits_eq (mem : ℕ → UInt8) (i n : ℕ) :
    let ret := (List.range n).foldl
      (fun ret j => if mem (i + j) = ch '*' then ret ||| 1 <<< j else ret) 0
    ret < 2 ^ n ∧ ∀ j < n, ret.testBit j = decide (mem (i + j) = ch '*') := by
  induction n with
  | zero => exact ⟨Nat.one_pos, fun j hj => absurd hj (Nat.not_lt_zero j)⟩
  | succ n ih =>
    obtain ⟨hlt, hbits⟩ := ih
    have hpow : 2 ^ n < 2 ^ (n + 1) := Nat.pow_lt_pow_right (by decide) (Nat.lt_succ_self n)
    rw [List.range_succ, List.foldl_append, List.foldl_cons, List.foldl_nil]
    generalize (List.range n).foldl _ 0 = ret at hlt hbits ⊢
    have hhigh : ret.testBit n = false := Nat.testBit_lt_two_pow hlt
    refine ⟨?_, fun j hj => ?_⟩
    · split_ifs
      · rw [Nat.one_shiftLeft]
        exact Nat.or_lt_two_pow (hlt.trans hpow) hpow
      · exact hlt.trans hpow
    · rcases Nat.lt_succ_iff_lt_or_eq.mp hj with hlow | rfl
      · rw [← hbits j hlow]
        split_ifs
        · rw [Nat.testBit_or, Nat.one_shiftLeft, Nat.testBit_two_pow_of_ne hlow.ne', Bool.or_false]
        · rfl
      · split_ifs with hstar
        · rw [Nat.testBit_or, Nat.one_shiftLeft, Nat.testBit_two_pow_self, Bool.or_true, hstar]
          simp
        · rw [hhigh]
          simp [hstar]

theorem packByte_eq (mem : ℕ → UInt8) (i : ℕ) :
    packByte mem i < 256 ∧
      ∀ j < 8, (packByte mem i).testBit j = decide (mem (i + j) = ch '*') :=
  packBits_eq mem i 8

structure Packs (mem : ℕ → UInt8) (i m : ℕ) (table : List ℕ) : Prop where
  length_eq : table.length = m
  byte : ∀ b ∈ table, b < 256
  bit : ∀ k < m, ∃ b, table[k]? = some b ∧
    ∀ j < 8, b.testBit j = decide (mem (i + 8 * k + j) = ch '*')

theorem printLoop_eq {m : ℕ} (hend : offset ≤ i + 8 * m) (hlast : i + 8 * m < offset + 8)
    (hint : i + 8 * m < 2 ^ 31) :
    ∃ table, printLoop mem offset i = some (tableText (offset = i + 8 * m) table) ∧
      Packs mem i m table := by
  induction m generalizing i with
  | zero =>
    refine ⟨[], ?_, rfl, List.forall_mem_nil _, fun k hk => absurd hk (Nat.not_lt_zero k)⟩
    rw [printLoop, if_neg (by omega)]
    rfl
  | succ m ih =>
    have hnext : i + 8 * (m + 1) = i + 8 + 8 * m := by omega
    rw [hnext] at hend hlast hint ⊢
    obtain ⟨table, htext, hpacks⟩ := ih hend hlast hint
    obtain ⟨hlt, hfirst⟩ := packByte_eq mem i
    have hcomma : i + 8 = offset ↔ decide (offset = i + 8 + 8 * m) = true ∧ table = [] := by
      rw [← List.length_eq_zero_iff, hpacks.length_eq, decide_eq_true_eq]
      omega
    refine ⟨packByte mem i :: table, ?_, ?_, List.forall_mem_cons.mpr ⟨hlt, hpacks.byte⟩,
      fun k hk => ?_⟩
    · rw [printLoop, if_pos (by omega), if_neg (by omega), htext, Option.map_some, tableText]
      simp only [hcomma]
    · rw [List.length_cons, hpacks.length_eq]
    · cases k with
      | zero => exact ⟨packByte mem i, rfl, hfirst⟩
      | succ k =>
        obtain ⟨b, hb, hbit⟩ := hpacks.bit k (by omega)
        refine ⟨b, hb, fun j hj => ?_⟩
        have hplace : i + 8 * (k + 1) + j = i + 8 + 8 * k + j := by omega
        rw [hbit j hj, hplace]

theorem printLoop_offset_le {text : Bytes} (h : printLoop mem offset i = some text) (h8 : 8 ∣ i) :
    offset ≤ i ∨ offset ≤ 2 ^ 31 - 8 := by
  induction hleft : offset - i using Nat.strongRecOn generalizing i text with
  | ind n ih =>
    by_cases hmore : i < offset
    · rw [printLoop, if_pos hmore] at h
      by_cases hover : 2 ^ 31 ≤ i + 8
      · rw [if_pos hover] at h
        cases h
      · rw [if_neg hover] at h
        obtain ⟨rest, hrest, -⟩ := Option.map_eq_some_iff.mp h
        rcases ih (offset - (i + 8)) (by omega) hrest (h8.add (dvd_refl 8)) rfl with hle | hle
        · exact Or.inr (by omega)
        · exact Or.inr hle
    · exact Or.inl (Nat.le_of_not_lt hmore)

end Packing

variable {α : Type} {r v w : ℕ}

/-! The rows of a font. -/
section Rows

/-- A source with glyphs of `h` rows of at least `w` characters; all other lines are skipped. -/
structure FontSource (h w : ℕ) (lines : List Bytes) (glyphs : List (List Bytes)) : Prop where
  rows : lines.filter (fun line => !isSkipped line) = glyphs.flatten
  height : ∀ glyph ∈ glyphs, glyph.length = h
  width : ∀ glyph ∈ glyphs, ∀ row ∈ glyph, w ≤ row.length

def keptRows (lines : List Bytes) : List Bytes :=
  (lines.takeWhile fun line => nread line ≠ -1).filter fun line => !isSkipped line

theorem keptRows_isPrefix (lines : List Bytes) :
    keptRows lines <+: lines.filter fun line => !isSkipped line :=
  (List.takeWhile_prefix _).filter _

theorem readLoop_eq {width : ℕ} (hwidth : width ≤ 4096) (lines : List Bytes)
    (hrows : ∀ row ∈ keptRows lines, width ≤ row.length) {size : ℕ} {wbuf : Bytes}
    (hsize : wbuf.length ≤ size) :
    readLoop width lines size wbuf =
      some (wbuf ++ ((keptRows lines).map (List.take width)).flatten) := by
  induction lines generalizing size wbuf with
  | nil => simp [readLoop, keptRows]
  | cons line lines ih =>
    rw [readLoop]
    by_cases hread : nread line = -1
    · rw [if_pos hread, keptRows, List.takeWhile_cons_of_neg (by simpa using hread)]
      simp
    · have hgrown : wbuf.length + width ≤
          if wbuf.length + width > size then size + 4096 else size := by
        split_ifs <;> omega
      rw [if_neg hread]
      rw [keptRows, List.takeWhile_cons_of_pos (by simpa using hread)] at hrows ⊢
      dsimp only
      by_cases hskip : isSkipped line = true
      · rw [List.filter_cons_of_neg (by simpa using hskip)] at hrows ⊢
        rw [if_pos hskip]
        exact ih hrows (by omega)
      · rw [List.filter_cons_of_pos (by simpa using hskip)] at hrows ⊢
        obtain ⟨hline, hrows'⟩ := List.forall_mem_cons.mp hrows
        have hfits : ¬ (line.length < width ∨
            (if wbuf.length + width > size then size + 4096 else size) < wbuf.length + width) := by
          omega
        rw [if_neg hskip, if_neg hfits, ih hrows', List.map_cons, List.flatten_cons,
          List.append_assoc, keptRows]
        · rw [List.length_append, List.length_take]
          omega

theorem getElem?_flatten (ls : List (List α)) (h : ∀ l ∈ ls, l.length = w) (i : ℕ) (hv : v < w) :
    ls.flatten[i * w + v]? = ls[i]?.bind fun l => l[v]? := by
  induction ls generalizing i with
  | nil => rfl
  | cons l ls ih =>
    have hl : l.length = w := h l List.mem_cons_self
    rw [List.flatten_cons]
    cases i with
    | zero =>
      rw [Nat.zero_mul, Nat.zero_add, List.getElem?_append_left (by omega)]
      rfl
    | succ i =>
      have hplace : (i + 1) * w + v = l.length + (i * w + v) := by
        rw [hl, Nat.succ_mul]
        omega
      rw [hplace, List.getElem?_append_right (Nat.le_add_right _ _), Nat.add_sub_cancel_left,
        ih fun x hx => h x (List.mem_cons_of_mem l hx), List.getElem?_cons_succ]

theorem length_flatten_of (ls : List (List α)) (h : ∀ l ∈ ls, l.length = w) :
    ls.flatten.length = ls.length * w := by
  rw [List.length_flatten, List.map_congr_left h, List.map_const', List.sum_replicate, smul_eq_mul]

def isStar (glyph : List Bytes) (row column : ℕ) : Bool :=
  (glyph[row]?.bind fun chars => chars[column]?) = some (ch '*')

variable {h : ℕ} {lines : List Bytes} {glyphs : List (List Bytes)}

def cells (w : ℕ) (lines : List Bytes) : Bytes := ((keptRows lines).map (List.take w)).flatten

theorem FontSource.le_length_row (hsource : FontSource h w lines glyphs) :
    ∀ row ∈ keptRows lines, w ≤ row.length := by
  intro row hrow
  have hmem := (keptRows_isPrefix lines).subset hrow
  rw [hsource.rows] at hmem
  obtain ⟨glyph, hglyph, hrow⟩ := List.mem_flatten.mp hmem
  exact hsource.width glyph hglyph row hrow

theorem FontSource.length_row (hsource : FontSource h w lines glyphs) :
    ∀ row ∈ (keptRows lines).map (List.take w), row.length = w := by
  intro row hrow
  obtain ⟨line, hline, rfl⟩ := List.mem_map.mp hrow
  rw [List.length_take, min_eq_left (hsource.le_length_row line hline)]

theorem FontSource.length_cells (hsource : FontSource h w lines glyphs) :
    (cells w lines).length = (keptRows lines).length * w := by
  rw [cells, length_flatten_of _ hsource.length_row, List.length_map]

theorem FontSource.cell (hsource : FontSource h w lines glyphs) {n : ℕ} {glyph : List Bytes}
    (hglyph : glyphs[n]? = some glyph) (hr : r < h) (hv : v < w)
    (hkept : n * h + r < (keptRows lines).length) :
    (cells w lines)[n * (h * w) + (r * w + v)]? = glyph[r]?.bind fun chars => chars[v]? := by
  have hplace : n * (h * w) + (r * w + v) = (n * h + r) * w + v := by
    rw [Nat.add_mul, Nat.mul_assoc]
    omega
  have hrow : (keptRows lines)[n * h + r]? = glyph[r]? := by
    obtain ⟨lost, hlost⟩ := keptRows_isPrefix lines
    rw [← List.getElem?_append_left hkept, hlost, hsource.rows,
      getElem?_flatten _ hsource.height _ hr, hglyph, Option.bind_some]
  rw [cells, hplace, getElem?_flatten _ hsource.length_row _ hv, List.getElem?_map, hrow]
  cases glyph[r]? with
  | none => rfl
  | some line => exact List.getElem?_take_of_lt hv

theorem cell_lt {h : ℕ} (hr : r < h) (hv : v < w) : r * w + v < h * w := by
  have hle : (r + 1) * w ≤ h * w := Nat.mul_le_mul_right w hr
  rw [Nat.succ_mul] at hle
  omega

theorem generateFont_eq (hsource : FontSource h w lines glyphs) (hw : w ≤ 4096)
    (hcell : h * w < 2 ^ 31) (fresh : ℕ → UInt8) (hint : (keptRows lines).length * w ≤ 2 ^ 31 - 8) :
    ∃ out table, generateFont fresh lines h w = some out ∧ out.glyphBytes = h * w / 8 ∧
      out.table = some table ∧ table.length = ((keptRows lines).length * w + 7) / 8 ∧
      ∀ k < table.length, ∃ b, table[k]? = some b ∧ ∀ j < 8,
        b.testBit j = decide (rowMemory (cells w lines) fresh (8 * k + j) = ch '*') := by
  have hempty : ([] : Bytes).length ≤ 4096 := Nat.zero_le _
  have hbuffer := readLoop_eq hw lines hsource.le_length_row hempty
  rw [List.nil_append, ← cells] at hbuffer
  have hlen := hsource.length_cells
  obtain ⟨table, htext, hpacks⟩ := @printLoop_eq (rowMemory (cells w lines) fresh)
    (cells w lines).length 0 (((keptRows lines).length * w + 7) / 8) (by omega) (by omega)
    (by omega)
  obtain ⟨full, htext⟩ : ∃ full, printLoop (rowMemory (cells w lines) fresh)
    (cells w lines).length 0 = some (tableText full table) := ⟨_, htext⟩
  refine ⟨⟨h * w / 8, tableText full table ++ [ch '\x7d', ch ';']⟩, table, ?_, rfl,
    initialisers_tableText full table hpacks.byte, hpacks.length_eq, fun k hk => ?_⟩
  · rw [generateFont, if_neg (not_le.mpr hcell), hbuffer, Option.bind_some, htext, Option.map_some]
  · obtain ⟨b, hb, hbit⟩ := hpacks.bit k (hpacks.length_eq ▸ hk)
    exact ⟨b, hb, fun j hj => by rw [hbit j hj, Nat.zero_add]⟩

/-- A table is printed only if `i` does not overflow. -/
theorem generateFont_kept_le (hsource : FontSource h w lines glyphs) (hw : w ≤ 4096)
    {fresh : ℕ → UInt8} {out : Output} (hout : generateFont fresh lines h w = some out) :
    (keptRows lines).length * w ≤ 2 ^ 31 - 8 := by
  have hempty : ([] : Bytes).length ≤ 4096 := Nat.zero_le _
  have hbuffer := readLoop_eq hw lines hsource.le_length_row hempty
  rw [List.nil_append, ← cells] at hbuffer
  rw [generateFont] at hout
  split_ifs at hout
  rw [hbuffer, Option.bind_some] at hout
  obtain ⟨text, htext, -⟩ := Option.map_eq_some_iff.mp hout
  have hle := printLoop_offset_le htext (dvd_zero 8)
  rw [hsource.length_cells] at hle
  omega

end Rows

end Bingos.Fonts
