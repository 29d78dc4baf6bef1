import Bingos.MachineWords
import Bingos.PackedBits

set_option autoImplicit false

/-! The physical frame allocator: a bitmap with one bit a frame, searched from
its first word, and a separate count of the frames in use. -/
namespace Bingos.Frames
open MachineWords

structure FrameMap where
  frameMap : PackedBits.Words
  usedFrames : ℕ
  maxFrames : ℕ

def bitmapSet (m : FrameMap) (bit : ℕ) : FrameMap :=
  { m with frameMap := PackedBits.set m.frameMap bit }

def bitmapUnset (m : FrameMap) (bit : ℕ) : FrameMap :=
  { m with frameMap := PackedBits.clear m.frameMap bit }

def bitmapTest (m : FrameMap) (bit : ℕ) : Bool := PackedBits.test m.frameMap bit

/-- The first clear bit of a word, among the `n` bits from `j` on. -/
def scanBits (w : BitVec 32) : ℕ → ℕ → Option ℕ
  | _, 0 => none
  | j, n + 1 => if w &&& 1#32 <<< j = 0#32 then some j else scanBits w (j + 1) n

def scanWords (m : PackedBits.Words) : ℕ → ℕ → Option ℕ
  | _, 0 => none
  | i, n + 1 =>
    if m i = 0xffffffff#32 then scanWords m (i + 1) n
    else match scanBits (m i) 0 32 with
      | some j => some (i * 32 + j)
      | none => scanWords m (i + 1) n

/-- The source bounds the word index by the number of frames. A search that
finds nothing falls off the end of the function without a result. -/
def getFirstFrame (m : FrameMap) : Option ℕ :=
  (scanWords m.frameMap 0 m.maxFrames).map (· % 2 ^ 32)

/-- `none` is a panic, or the missing result of the search. -/
def allocFrame (m : FrameMap) : Option (ℕ × FrameMap) :=
  if m.maxFrames = 0 then none
  else match getFirstFrame m with
    | none => none
    | some frame =>
      if frame = 2 ^ 32 - 1 then none
      else some (frame, { bitmapSet m frame with usedFrames := add32 m.usedFrames 1 })

/-- `none` is a failed assertion. -/
def getFrame (m : FrameMap) (frame : ℕ) : Option FrameMap :=
  if m.maxFrames < frame then some m
  else if bitmapTest m frame then none
  else some { bitmapSet m frame with usedFrames := add32 m.usedFrames 1 }

def freeFrame (m : FrameMap) (frame : ℕ) : FrameMap :=
  { bitmapUnset m frame with usedFrames := sub32 m.usedFrames 1 }

def freePages (m : FrameMap) : ℕ := sub32 m.maxFrames m.usedFrames

def preAlloc (placement size : ℕ) (align : Bool) : ℕ × ℕ :=
  let start := if align ∧ placement % 4096 ≠ 0 then add32 (placement / 4096 * 4096) 0x1000
    else placement
  (start, add32 start size)

@[simp] theorem bitmapTest_freeFrame (m : FrameMap) (frame f : ℕ) :
    bitmapTest (freeFrame m frame) f = (bitmapTest m f && decide (f ≠ frame)) :=
  PackedBits.test_clear m.frameMap frame f

@[simp] theorem freeFrame_maxFrames (m : FrameMap) (frame : ℕ) :
    (freeFrame m frame).maxFrames = m.maxFrames := rfl

theorem and_shift_eq_zero_iff (w : BitVec 32) {j : ℕ} (hj : j < 32) :
    w &&& 1#32 <<< j = 0#32 ↔ w.getLsbD j = false := by
  have h := PackedBits.test_eq (fun _ => w) j
  simp only [PackedBits.test, PackedBits.mask, Nat.mod_eq_of_lt hj] at h
  rw [← h, bne_eq_false_iff_eq]

theorem scanBits_finds (w : BitVec 32) (j n : ℕ) (hn : j + n ≤ 32) :
    PackedBits.Finds w.getLsbD j (j + n) (scanBits w j n) := by
  induction n generalizing j with
  | zero =>
    intro i hi hlt
    omega
  | succ n ih =>
    have hbit := and_shift_eq_zero_iff w (show j < 32 by omega)
    unfold scanBits
    split_ifs with hz
    · exact ⟨le_refl j, by omega, hbit.mp hz, fun i h1 h2 => by omega⟩
    · have hset : w.getLsbD j = true := by simpa [hbit] using hz
      have hnext := ih (j + 1) (by omega)
      rw [show j + 1 + n = j + (n + 1) by omega] at hnext
      refine hnext.skip (by omega) ?_
      intro g h1 h2
      rwa [show g = j by omega]

theorem scanWords_finds (m : PackedBits.Words) (i n : ℕ) :
    PackedBits.Finds (PackedBits.test m) (32 * i) (32 * (i + n)) (scanWords m i n) := by
  induction n generalizing i with
  | zero =>
    intro g hg hlt
    omega
  | succ n ih =>
    have hnext := ih (i + 1)
    rw [show i + 1 + n = i + (n + 1) by omega] at hnext
    have hword : ∀ g, 32 * i ≤ g → g < 32 * (i + 1) →
        PackedBits.test m g = (m i).getLsbD (g - 32 * i) := by
      intro g h1 h2
      rw [PackedBits.test_eq, show g / 32 = i by omega, show g % 32 = g - 32 * i by omega]
    have hbits := scanBits_finds (m i) 0 32 (by decide)
    unfold scanWords
    split_ifs with hfull
    · refine hnext.skip (by omega) ?_
      intro g h1 h2
      have hb := (PackedBits.allOnes_iff m i).mp hfull (g - 32 * i) (by omega)
      rwa [show 32 * i + (g - 32 * i) = g by omega] at hb
    · cases hs : scanBits (m i) 0 32 with
      | none =>
        rw [hs] at hbits
        refine hnext.skip (by omega) ?_
        intro g h1 h2
        rw [hword g h1 h2]
        exact hbits _ (by omega) (by omega)
      | some j =>
        rw [hs] at hbits
        obtain ⟨_, hj, hclear, hbefore⟩ := hbits
        refine ⟨by omega, by omega, ?_, ?_⟩
        · rw [hword _ (by omega) (by omega), show i * 32 + j - 32 * i = j by omega]
          exact hclear
        · intro g h1 h2
          rw [hword g h1 (by omega)]
          exact hbefore _ (by omega) (by omega)

/-- While a frame below `maxFrames` is free, allocation succeeds and returns
the least free frame, setting its bit and no other. -/
theorem allocFrame_spec {m : FrameMap} {free : ℕ} (hfree : bitmapTest m free = false)
    (hlt : free < m.maxFrames) (hmax : m.maxFrames < 2 ^ 32) :
    ∃ f m', allocFrame m = some (f, m') ∧ f ≤ free ∧ bitmapTest m f = false ∧
      (∀ g < f, bitmapTest m g = true) ∧ m'.maxFrames = m.maxFrames ∧
      ∀ g, bitmapTest m' g = (bitmapTest m g || decide (g = f)) := by
  have hspec := scanWords_finds m.frameMap 0 m.maxFrames
  cases hs : scanWords m.frameMap 0 m.maxFrames with
  | none =>
    rw [hs] at hspec
    have h := hspec free (by omega) (by omega)
    rw [bitmapTest, h] at hfree
    cases hfree
  | some f =>
    rw [hs] at hspec
    obtain ⟨_, _, hclear, hbefore⟩ := hspec
    have hle : f ≤ free := by
      by_contra hgt
      have h := hbefore free (by omega) (by omega)
      rw [bitmapTest, h] at hfree
      cases hfree
    refine ⟨f, { bitmapSet m f with usedFrames := add32 m.usedFrames 1 }, ?_, hle, hclear,
      fun g hg => hbefore g (by omega) hg, rfl, PackedBits.test_set m.frameMap f⟩
    have hpos : m.maxFrames ≠ 0 := by omega
    have hne : f ≠ 2 ^ 32 - 1 := by omega
    have hword : f % 2 ^ 32 = f := Nat.mod_eq_of_lt (by omega)
    simp only [allocFrame, getFirstFrame, hs, hpos, hne, if_false, Option.map_some, hword]

theorem allocFrame_eq {m m' : FrameMap} {f : ℕ} (h : allocFrame m = some (f, m')) :
    m' = { bitmapSet m f with usedFrames := add32 m.usedFrames 1 } := by
  unfold allocFrame at h
  split_ifs at h
  split at h
  · cases h
  · split_ifs at h
    obtain ⟨rfl, rfl⟩ := Prod.mk.inj (Option.some.inj h)
    rfl

end Bingos.Frames
