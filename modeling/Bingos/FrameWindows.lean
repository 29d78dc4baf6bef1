import Bingos.FrameModel

set_option autoImplicit false

/-! Allocation of consecutive frames. `get_first_frames` looks at a window of
bits for every clear bit, which starts `1 << j` bits into the word instead of
`j`, and counts the bits that are set in it. -/
namespace Bingos.Frames
open MachineWords

/-- The word and the bit in it that the C division and remainder select; array
indices wrap at the end of the address space, shifts at 32. -/
def wordIndex (bit : ℤ) : ℕ := (bit.tdiv 32 % 2 ^ 30).toNat

def bitIndex (bit : ℤ) : ℕ := (bit.tmod 32 % 32).toNat

def bitmapTestInt (m : FrameMap) (bit : ℤ) : Bool :=
  m.frameMap (wordIndex bit) &&& 1#32 <<< bitIndex bit != 0#32

def bitmapSetInt (m : FrameMap) (bit : ℤ) : FrameMap :=
  { m with
    frameMap := Function.update m.frameMap (wordIndex bit)
      (m.frameMap (wordIndex bit) ||| 1#32 <<< bitIndex bit) }

/-- The loop over `count`: whether it returns, or `none` while it runs. -/
def countLoop (m : FrameMap) (bit size : ℕ) : ℕ → ℕ → ℕ → Option Bool
  | _, _, 0 => none
  | free, count, fuel + 1 =>
    if count ≤ size then
      let free := if bitmapTestInt m (asInt (bit + count)) then add32 free 1 else free
      if free = size then some true else countLoop m bit size free (add32 count 1) fuel
    else some false

/-- The loop over the bits `j` of a word; `some none` goes on to the next word. -/
def scanWindows (m : FrameMap) (size fuel i : ℕ) : ℕ → ℕ → Option (Option ℕ)
  | _, 0 => some none
  | j, n + 1 =>
    if m.frameMap i &&& 1#32 <<< j = 0#32 then
      match countLoop m (i * 32 + 2 ^ j) size 0 0 fuel with
      | none => none
      | some true => some (some ((i * 32 + j) % 2 ^ 32))
      | some false => scanWindows m size fuel i (j + 1) n
    else scanWindows m size fuel i (j + 1) n

def scanWordWindows (m : FrameMap) (size fuel : ℕ) : ℕ → ℕ → Option (Option ℕ)
  | _, 0 => some none
  | i, n + 1 =>
    if m.frameMap i = 0xffffffff#32 then scanWordWindows m size fuel (i + 1) n
    else match scanWindows m size fuel i 0 32 with
      | none => none
      | some (some f) => some (some f)
      | some none => scanWordWindows m size fuel (i + 1) n

/-- `fuel` bounds the rounds of each loop over `count`; the search that fails
returns -1. -/
def getFirstFrames (m : FrameMap) (size fuel : ℕ) : Option ℕ :=
  (scanWordWindows m size fuel 0 m.maxFrames).map (Option.getD · (2 ^ 32 - 1))

def setFrames (m : FrameMap) (frame size : ℕ) : FrameMap :=
  (List.range size).foldl (fun m i => bitmapSetInt m (asInt (frame + i))) m

/-- `some none` is a panic, `none` a search that has not ended. -/
def allocFrames (m : FrameMap) (size fuel : ℕ) : Option (Option (ℕ × FrameMap)) :=
  if m.maxFrames = 0 then some none
  else match getFirstFrames m size fuel with
    | none => none
    | some frame =>
      if frame = 2 ^ 32 - 1 then some none
      else some (some (frame,
        { setFrames m frame size with usedFrames := add32 m.usedFrames size }))

def FreeRun (m : FrameMap) (f size : ℕ) : Prop :=
  f + size ≤ m.maxFrames ∧ ∀ g, f ≤ g → g < f + size → bitmapTest m g = false

/-- The result `alloc_frames` should have: a free run, of which exactly the
frames are marked, if there is one, and a panic otherwise. -/
def AllocatesRun (m : FrameMap) (size : ℕ) (r : Option (Option (ℕ × FrameMap))) : Prop :=
  ((∃ f, FreeRun m f size) → ∃ f m', r = some (some (f, m')) ∧ FreeRun m f size ∧
      m'.usedFrames = add32 m.usedFrames size ∧ m'.maxFrames = m.maxFrames ∧
      ∀ g, bitmapTest m' g = (bitmapTest m g || decide (f ≤ g ∧ g < f + size))) ∧
    ((¬ ∃ f, FreeRun m f size) → r = some none)

def windowBit (m : FrameMap) (b k : ℕ) : Bool :=
  bitmapTestInt m (asInt (b / 32 * 32 + 2 ^ (b % 32) + k))

/-- The loop over `count` returns for `b`. Its bound never ends it for the
largest size, so that it goes around the whole address space. -/
def Accepts (m : FrameMap) (size b : ℕ) : Prop :=
  if size = 2 ^ 32 - 1 then ∃ k < 2 ^ 32, windowBit m b k = true
  else size ≤ (List.range (size + 1)).countP (windowBit m b)

def Stops (m : FrameMap) (size b : ℕ) : Prop :=
  bitmapTest m b = false ∧ (Accepts m size b ∨ size = 2 ^ 32 - 1)

variable {m : FrameMap} {b count free fuel size : ℕ}

section Loop
variable (m : FrameMap) (bit size : ℕ)

/-- The bits of the window from `count` on, as the loop reads them. -/
def usedFrom (count n : ℕ) : ℕ :=
  (List.range' count n).countP fun k => bitmapTestInt m (asInt (bit + k))

variable {size}

theorem countLoop_bounded (hsize : size < 2 ^ 32 - 1) (hfree : free < size)
    (hcount : count ≤ size + 1) (hfuel : size + 1 - count < fuel) :
    countLoop m bit size free count fuel =
      some (decide (size ≤ free + usedFrom m bit count (size + 1 - count))) := by
  induction fuel generalizing free count with
  | zero => omega
  | succ fuel ih =>
    rw [countLoop]
    rcases Nat.eq_or_lt_of_le hcount with heq | hlt
    · have hlast : usedFrom m bit count (size + 1 - count) = 0 := by
        rw [heq, Nat.sub_self]
        rfl
      rw [if_neg (by omega), hlast, decide_eq_false (by omega)]
    · have hused : usedFrom m bit count (size + 1 - count) =
          (if bitmapTestInt m (asInt (bit + count)) then 1 else 0) +
            usedFrom m bit (count + 1) (size + 1 - (count + 1)) := by
        have hn : size + 1 - count = size + 1 - (count + 1) + 1 := by omega
        rw [hn, usedFrom, List.range'_succ, List.countP_cons, Nat.add_comm]
        rfl
      have hnext : add32 count 1 = count + 1 := add32_of_lt (by omega)
      rw [if_pos (by omega), hused, hnext]
      dsimp only
      cases bitmapTestInt m (asInt (bit + count)) with
      | false =>
        rw [if_neg Bool.false_ne_true, if_neg Bool.false_ne_true, if_neg (by omega),
          ih hfree (by omega) (by omega), Nat.zero_add]
      | true =>
        rw [if_pos rfl, if_pos rfl, add32_of_lt (by omega)]
        split_ifs with hend
        · rw [decide_eq_true (by omega)]
        · rw [ih (by omega) (by omega) (by omega), Nat.add_assoc]

theorem countLoop_hangs (hnone : ∀ k < 2 ^ 32, bitmapTestInt m (asInt (bit + k)) = false)
    (hfree : free < 2 ^ 32 - 1) (hcount : count < 2 ^ 32) (fuel : ℕ) :
    countLoop m bit (2 ^ 32 - 1) free count fuel = none := by
  induction fuel generalizing count with
  | zero => rfl
  | succ fuel ih =>
    have hlt : add32 count 1 < 2 ^ 32 := Nat.mod_lt _ (by decide)
    rw [countLoop, if_pos (by omega), hnone count hcount, if_neg Bool.false_ne_true]
    dsimp only
    rw [if_neg (by omega), ih hlt]

theorem countLoop_returns {k : ℕ} (hk : k < 2 ^ 32)
    (hset : bitmapTestInt m (asInt (bit + k)) = true)
    (hfree : free < 2 ^ 32 - 1) (hcount : count < 2 ^ 32)
    (hfuel : (2 ^ 32 - 2 - free) * 2 ^ 32 + (k + 2 ^ 32 - count) % 2 ^ 32 < fuel) :
    countLoop m bit (2 ^ 32 - 1) free count fuel = some true := by
  induction fuel generalizing free count with
  | zero => omega
  | succ fuel ih =>
    have hnext : add32 count 1 = (count + 1) % 2 ^ 32 := rfl
    have hlt : add32 count 1 < 2 ^ 32 := Nat.mod_lt _ (by decide)
    rw [countLoop, if_pos (by omega)]
    dsimp only
    cases hbit : bitmapTestInt m (asInt (bit + count)) with
    | false =>
      have hne : count ≠ k := by
        rintro rfl
        rw [hset] at hbit
        cases hbit
      rw [if_neg Bool.false_ne_true, if_neg (by omega)]
      exact ih hfree hlt (by omega)
    | true =>
      rw [if_pos rfl, add32_of_lt (by omega)]
      split_ifs with hend
      · rfl
      · have hdist : (k + 2 ^ 32 - add32 count 1) % 2 ^ 32 < 2 ^ 32 := Nat.mod_lt _ (by decide)
        have hround : 2 ^ 32 - 2 - free = 2 ^ 32 - 2 - (free + 1) + 1 := by omega
        rw [hround, Nat.add_mul, Nat.one_mul] at hfuel
        have hless : free + 1 < 2 ^ 32 - 1 := lt_of_le_of_ne hfree hend
        refine ih hless hlt ?_
        generalize (2 ^ 32 - 2 - (free + 1)) * 2 ^ 32 = rest at hfuel ⊢
        omega

end Loop

/-- The number of rounds after which every loop over `count` that ends has done so. -/
def windowRounds : ℕ := 2 ^ 64

section Verdict
variable (hpos : 1 ≤ size) (hsize : size < 2 ^ 32) (hfuel : windowRounds ≤ fuel)
include hpos hsize hfuel

theorem countLoop_of_lt (hlt : size ≠ 2 ^ 32 - 1) :
    countLoop m (b / 32 * 32 + 2 ^ (b % 32)) size 0 0 fuel =
      some (decide (size ≤ (List.range (size + 1)).countP (windowBit m b))) := by
  unfold windowRounds at hfuel
  rw [countLoop_bounded m _ (by omega) (by omega) (by omega) (by omega), Nat.zero_add,
    Nat.sub_zero, usedFrom, List.range_eq_range']
  rfl

theorem countLoop_accepts (h : Accepts m size b) :
    countLoop m (b / 32 * 32 + 2 ^ (b % 32)) size 0 0 fuel = some true := by
  unfold Accepts at h
  split_ifs at h with hmax
  · obtain ⟨k, hk, hset⟩ := h
    unfold windowRounds at hfuel
    rw [hmax]
    exact countLoop_returns m _ hk hset (by omega) (by omega) (by omega)
  · rw [countLoop_of_lt hpos hsize hfuel hmax, decide_eq_true h]

theorem countLoop_refuses (h : ¬ Accepts m size b) :
    countLoop m (b / 32 * 32 + 2 ^ (b % 32)) size 0 0 fuel =
      if size = 2 ^ 32 - 1 then none else some false := by
  unfold Accepts at h
  split_ifs at h ⊢ with hmax
  · rw [hmax]
    apply countLoop_hangs m _ _ (by omega) (by omega)
    intro k hk
    rw [← Bool.not_eq_true]
    exact fun hset => h ⟨k, hk, hset⟩
  · rw [countLoop_of_lt hpos hsize hfuel hmax, decide_eq_false h]

end Verdict

section Search
variable (m : FrameMap) (size fuel : ℕ)

def passes (b : ℕ) : Bool :=
  bitmapTest m b || countLoop m (b / 32 * 32 + 2 ^ (b % 32)) size 0 0 fuel == some false

def stopped (r : Option ℕ) : Option (Option ℕ) :=
  match r with
  | none => some none
  | some b => (countLoop m (b / 32 * 32 + 2 ^ (b % 32)) size 0 0 fuel).map fun _ =>
      some (b % 2 ^ 32)

theorem scanWindows_finds (i j n : ℕ) (hn : j + n ≤ 32) :
    ∃ r, PackedBits.Finds (passes m size fuel) (32 * i + j) (32 * i + j + n) r ∧
      scanWindows m size fuel i j n = stopped m size fuel r := by
  induction n generalizing j with
  | zero =>
    refine ⟨none, fun g hg hlt => ?_, rfl⟩
    omega
  | succ n ih =>
    have hdiv : (32 * i + j) / 32 = i := by omega
    have hmod : (32 * i + j) % 32 = j := by omega
    have hword : bitmapTest m (32 * i + j) = (m.frameMap i).getLsbD j := by
      rw [bitmapTest, PackedBits.test_eq, hdiv, hmod]
    have hbit := and_shift_eq_zero_iff (m.frameMap i) (show j < 32 by omega)
    have hpass : passes m size fuel (32 * i + j) = ((m.frameMap i).getLsbD j ||
        countLoop m (i * 32 + 2 ^ j) size 0 0 fuel == some false) := by
      rw [passes, hword, hdiv, hmod]
    have hgo : passes m size fuel (32 * i + j) = true →
        ∃ r, PackedBits.Finds (passes m size fuel) (32 * i + j) (32 * i + j + (n + 1)) r ∧
          scanWindows m size fuel i (j + 1) n = stopped m size fuel r := by
      intro hset
      obtain ⟨r, hr, hscan⟩ := ih (j + 1) (by omega)
      have hlo : 32 * i + (j + 1) = 32 * i + j + 1 := by omega
      have hhi : 32 * i + (j + 1) + n = 32 * i + j + (n + 1) := by omega
      rw [hhi, hlo] at hr
      refine ⟨r, hr.skip (by omega) ?_, hscan⟩
      intro g h1 h2
      obtain rfl : g = 32 * i + j := by omega
      exact hset
    have hstop : passes m size fuel (32 * i + j) = false →
        PackedBits.Finds (passes m size fuel) (32 * i + j) (32 * i + j + (n + 1))
          (some (32 * i + j)) := by
      intro hclear
      exact ⟨le_refl _, by omega, hclear, fun g h1 h2 => by omega⟩
    rw [scanWindows]
    split_ifs with hz
    · rw [hbit] at hz
      rw [hz, Bool.false_or] at hpass
      cases hc : countLoop m (i * 32 + 2 ^ j) size 0 0 fuel with
      | none =>
        refine ⟨some (32 * i + j), hstop (by rw [hpass, hc]; rfl), ?_⟩
        rw [stopped, hdiv, hmod, hc, Option.map_none]
      | some found =>
        cases found with
        | false => exact hgo (by rw [hpass, hc]; rfl)
        | true =>
          refine ⟨some (32 * i + j), hstop (by rw [hpass, hc]; rfl), ?_⟩
          rw [stopped, hdiv, hmod, hc, Option.map_some, Nat.mul_comm i 32]
    · rw [hbit, Bool.not_eq_false] at hz
      exact hgo (by rw [hpass, hz, Bool.true_or])

theorem scanWordWindows_finds (i n : ℕ) :
    ∃ r, PackedBits.Finds (passes m size fuel) (32 * i) (32 * (i + n)) r ∧
      scanWordWindows m size fuel i n = stopped m size fuel r := by
  induction n generalizing i with
  | zero =>
    refine ⟨none, fun g hg hlt => ?_, rfl⟩
    omega
  | succ n ih =>
    have hgo : (∀ g, 32 * i ≤ g → g < 32 * (i + 1) → passes m size fuel g = true) →
        ∃ r, PackedBits.Finds (passes m size fuel) (32 * i) (32 * (i + (n + 1))) r ∧
          scanWordWindows m size fuel (i + 1) n = stopped m size fuel r := by
      intro hset
      obtain ⟨r, hr, hscan⟩ := ih (i + 1)
      have hhi : i + 1 + n = i + (n + 1) := by omega
      rw [hhi] at hr
      exact ⟨r, hr.skip (by omega) hset, hscan⟩
    rw [scanWordWindows]
    split_ifs with hfull
    · apply hgo
      intro g h1 h2
      have hb := (PackedBits.allOnes_iff m.frameMap i).mp hfull (g - 32 * i) (by omega)
      have hg : 32 * i + (g - 32 * i) = g := by omega
      rw [hg] at hb
      rw [passes, bitmapTest, hb, Bool.true_or]
    · obtain ⟨r, hr, hscan⟩ := scanWindows_finds m size fuel i 0 32 (le_refl _)
      rw [Nat.add_zero] at hr
      cases r with
      | none =>
        rw [hscan]
        exact hgo fun g h1 h2 => hr g h1 (by omega)
      | some b =>
        obtain ⟨h1, h2, h3, h4⟩ := hr
        refine ⟨some b, ⟨h1, by omega, h3, h4⟩, ?_⟩
        rw [hscan, stopped]
        cases countLoop m (b / 32 * 32 + 2 ^ (b % 32)) size 0 0 fuel <;> rfl

end Search

theorem passes_iff (hpos : 1 ≤ size) (hsize : size < 2 ^ 32) (hfuel : windowRounds ≤ fuel) (b : ℕ) :
    passes m size fuel b = true ↔ ¬ Stops m size b := by
  rw [passes, Stops]
  by_cases hacc : Accepts m size b
  · rw [countLoop_accepts hpos hsize hfuel hacc]
    simp [hacc]
  · rw [countLoop_refuses hpos hsize hfuel hacc]
    by_cases hmax : size = 2 ^ 32 - 1
    · rw [if_pos hmax]
      simp [hmax]
    · rw [if_neg hmax]
      exact iff_of_true (by simp) fun h => h.2.elim hacc hmax

def FirstStop (m : FrameMap) (size b : ℕ) : Prop :=
  b < 32 * m.maxFrames ∧ Stops m size b ∧ ∀ b' < b, ¬ Stops m size b'

theorem getFirstFrames_cases (hpos : 1 ≤ size)
    (hsize : size < 2 ^ 32) (hfuel : windowRounds ≤ fuel) :
    ((∀ b < 32 * m.maxFrames, ¬ Stops m size b) ∧
      getFirstFrames m size fuel = some (2 ^ 32 - 1)) ∨
    ∃ b, FirstStop m size b ∧ (Accepts m size b ∧ getFirstFrames m size fuel = some (b % 2 ^ 32) ∨
      ¬ Accepts m size b ∧ getFirstFrames m size fuel = none) := by
  obtain ⟨r, hr, hscan⟩ := scanWordWindows_finds m size fuel 0 m.maxFrames
  rw [Nat.mul_zero, Nat.zero_add] at hr
  have hpass := passes_iff (m := m) hpos hsize hfuel
  rw [getFirstFrames, hscan]
  cases r with
  | none => exact Or.inl ⟨fun b hb => (hpass b).mp (hr b (Nat.zero_le b) hb), rfl⟩
  | some b =>
    obtain ⟨-, hlt, hclear, hbefore⟩ := hr
    have hstop : Stops m size b := by
      by_contra hnot
      rw [(hpass b).mpr hnot] at hclear
      cases hclear
    refine Or.inr ⟨b, ⟨hlt, hstop, fun g hg => (hpass g).mp (hbefore g (Nat.zero_le g) hg)⟩, ?_⟩
    rw [stopped]
    by_cases hacc : Accepts m size b
    · rw [countLoop_accepts hpos hsize hfuel hacc]
      exact Or.inl ⟨hacc, rfl⟩
    · rw [countLoop_refuses hpos hsize hfuel hacc, if_pos (hstop.2.resolve_left hacc)]
      exact Or.inr ⟨hacc, rfl⟩

theorem bitmapSetInt_word (m : FrameMap) {bit : ℕ} (hbit : bit < 2 ^ 31) :
    bitmapSetInt m (asInt bit) = bitmapSet m bit := by
  have hint : asInt bit = bit := by
    rw [asInt, Nat.mod_eq_of_lt (by omega), if_pos hbit]
  have hword : wordIndex (bit : ℤ) = bit / 32 := by
    rw [wordIndex, Int.tdiv_eq_ediv_of_nonneg (by omega)]
    omega
  have hmask : bitIndex (bit : ℤ) = bit % 32 := by
    rw [bitIndex, Int.tmod_eq_emod_of_nonneg (by omega)]
    omega
  rw [bitmapSetInt, hint, hword, hmask]
  rfl

theorem setFrames_spec (m : FrameMap) {frame : ℕ} (hend : frame + size ≤ 2 ^ 31) :
    (setFrames m frame size).maxFrames = m.maxFrames ∧
      ∀ g, bitmapTest (setFrames m frame size) g =
        (bitmapTest m g || decide (frame ≤ g ∧ g < frame + size)) := by
  induction size with
  | zero =>
    refine ⟨rfl, fun g => ?_⟩
    rw [decide_eq_false (by omega), Bool.or_false]
    rfl
  | succ size ih =>
    obtain ⟨hframes, htest⟩ := ih (by omega)
    have hstep : setFrames m frame (size + 1) =
        bitmapSet (setFrames m frame size) (frame + size) := by
      rw [setFrames, List.range_succ, List.foldl_append, List.foldl_cons, List.foldl_nil,
        bitmapSetInt_word _ (by omega)]
      rfl
    rw [hstep]
    refine ⟨hframes, fun g => ?_⟩
    have hset : bitmapTest (bitmapSet (setFrames m frame size) (frame + size)) g =
        (bitmapTest (setFrames m frame size) g || decide (g = frame + size)) :=
      PackedBits.test_set _ _ _
    rw [hset, htest, Bool.or_assoc, ← Bool.decide_or]
    exact congrArg _ (decide_eq_decide.mpr (by omega))

theorem windowBit_mod (m : FrameMap) (b k : ℕ) : windowBit m (b % 2 ^ 32) k = windowBit m b k := by
  have hbit : b % 2 ^ 32 % 32 = b % 32 := by omega
  have hmod : (b % 2 ^ 32 / 32 * 32 + 2 ^ (b % 32) + k) % 2 ^ 32 =
      (b / 32 * 32 + 2 ^ (b % 32) + k) % 2 ^ 32 := by omega
  rw [windowBit, windowBit, hbit, asInt, asInt, hmod]

theorem FirstStop.freeRun (h : FirstStop m size b) (hpos : 1 ≤ size)
    (hrun : FreeRun m (b % 2 ^ 32) size) : FreeRun m b size := by
  by_cases hb : b < 2 ^ 32
  · rwa [Nat.mod_eq_of_lt hb] at hrun
  · have hless : b % 2 ^ 32 < b := lt_of_lt_of_le (Nat.mod_lt _ (by decide)) (not_lt.mp hb)
    have hacc : Accepts m size (b % 2 ^ 32) ↔ Accepts m size b := by
      simp only [Accepts, windowBit_mod, funext (windowBit_mod m b)]
    refine absurd ⟨hrun.2 _ (le_refl _) (by omega), ?_⟩ (h.2.2 _ hless)
    rw [hacc]
    exact h.2.1.2

theorem FirstStop.unique {b' : ℕ} (h : FirstStop m size b) (h' : FirstStop m size b') : b' = b := by
  rcases lt_trichotomy b' b with hlt | heq | hgt
  · exact absurd h'.2.1 (h.2.2 b' hlt)
  · exact heq
  · exact absurd h.2.1 (h'.2.2 b hgt)

theorem FirstStop.exists_iff (h : FirstStop m size b) (P : ℕ → Prop) :
    (∃ b', FirstStop m size b' ∧ P b') ↔ P b := by
  constructor
  · rintro ⟨b', hb', hP⟩
    rwa [h.unique hb'] at hP
  · intro hP
    exact ⟨b, h, hP⟩

theorem FirstStop.maxFrames_ne_zero (h : FirstStop m size b) :
    m.maxFrames ≠ 0 := by
  have hlt := h.1
  omega

theorem allocatesRun_panic (m : FrameMap) (size : ℕ) :
    AllocatesRun m size (some none) ↔ ¬ ∃ f, FreeRun m f size := by
  constructor
  · intro h hrun
    obtain ⟨f, m', hr, -⟩ := h.1 hrun
    cases hr
  · intro hno
    exact ⟨fun hrun => absurd hrun hno, fun _ => rfl⟩

theorem not_allocatesRun_none (m : FrameMap) (size : ℕ) : ¬ AllocatesRun m size none := by
  intro h
  by_cases hrun : ∃ f, FreeRun m f size
  · obtain ⟨f, m', hr, -⟩ := h.1 hrun
    cases hr
  · cases h.2 hrun

theorem allocatesRun_frame (hmax : m.maxFrames < 2 ^ 30) (frame size : ℕ) :
    AllocatesRun m size (some (some (frame,
      { setFrames m frame size with usedFrames := add32 m.usedFrames size }))) ↔
      FreeRun m frame size := by
  constructor
  · intro h
    by_cases hrun : ∃ f, FreeRun m f size
    · obtain ⟨f, m', hr, hf, -⟩ := h.1 hrun
      cases hr
      exact hf
    · cases h.2 hrun
  · intro hf
    obtain ⟨hframes, htest⟩ := setFrames_spec m (show frame + size ≤ 2 ^ 31 by have := hf.1; omega)
    exact ⟨fun _ => ⟨frame, _, rfl, hf, rfl, hframes, htest⟩, fun hno => absurd ⟨frame, hf⟩ hno⟩

theorem FirstStop.allocFrames_iff (hmax : m.maxFrames < 2 ^ 30) (hpos : 1 ≤ size)
    (hb : FirstStop m size b) (hget : getFirstFrames m size fuel = some (b % 2 ^ 32)) :
    AllocatesRun m size (allocFrames m size fuel) ↔
      FreeRun m b size ∨ b % 2 ^ 32 = 2 ^ 32 - 1 ∧ ¬ ∃ f, FreeRun m f size := by
  simp only [allocFrames, hget, if_neg hb.maxFrames_ne_zero]
  by_cases hlast : b % 2 ^ 32 = 2 ^ 32 - 1
  · rw [if_pos hlast, allocatesRun_panic, and_iff_right hlast, or_iff_right_of_imp]
    intro hrun
    have hend := hrun.1
    omega
  · rw [if_neg hlast, allocatesRun_frame hmax, or_iff_left fun h => hlast h.1]
    constructor
    · exact hb.freeRun hpos
    · intro hrun
      have hend := hrun.1
      rwa [Nat.mod_eq_of_lt (by omega)]

theorem allocFrames_iff (hmax : m.maxFrames < 2 ^ 30)
    (hpos : 1 ≤ size) (hsize : size < 2 ^ 32) (hfuel : windowRounds ≤ fuel) :
    AllocatesRun m size (allocFrames m size fuel) ↔
      (∃ b, FirstStop m size b ∧ Accepts m size b ∧
        (FreeRun m b size ∨ b % 2 ^ 32 = 2 ^ 32 - 1 ∧ ¬ ∃ f, FreeRun m f size)) ∨
      (∀ b < 32 * m.maxFrames, ¬ Stops m size b) ∧ ¬ ∃ f, FreeRun m f size := by
  rcases getFirstFrames_cases (m := m) hpos hsize hfuel with
    ⟨hnone, hget⟩ | ⟨b, hb, ⟨hacc, hget⟩ | ⟨hacc, hget⟩⟩
  · have hpanic : allocFrames m size fuel = some none := by
      simp only [allocFrames, hget, if_true, ite_self]
    rw [hpanic, allocatesRun_panic, and_iff_right hnone, or_iff_right]
    rintro ⟨b, hb, -⟩
    exact hnone b hb.1 hb.2.1
  · rw [or_iff_left fun h => h.1 b hb.1 hb.2.1, hb.exists_iff, and_iff_right hacc]
    exact hb.allocFrames_iff hmax hpos hget
  · have hloop : allocFrames m size fuel = none := by
      simp only [allocFrames, hget, if_neg hb.maxFrames_ne_zero]
    rw [hloop, or_iff_left fun h => h.1 b hb.1 hb.2.1, hb.exists_iff]
    exact iff_of_false (not_allocatesRun_none m size) fun h => hacc h.1

/-- `alloc_frames` allocates a run of free frames iff the first clear bit it
accepts happens to start one, or if there is no run and it accepts no bit but
the one whose number reads as the -1 of a failed search. -/
theorem alloc_frames_iff {m : FrameMap} (hmax : m.maxFrames < 2 ^ 30) {size : ℕ} (hpos : 1 ≤ size)
    (hsize : size < 2 ^ 32) :
    (∃ rounds, ∀ fuel, rounds ≤ fuel → AllocatesRun m size (allocFrames m size fuel)) ↔
      (∃ b, FirstStop m size b ∧ Accepts m size b ∧
        (FreeRun m b size ∨ b % 2 ^ 32 = 2 ^ 32 - 1 ∧ ¬ ∃ f, FreeRun m f size)) ∨
      (∀ b < 32 * m.maxFrames, ¬ Stops m size b) ∧ ¬ ∃ f, FreeRun m f size := by
  constructor
  · rintro ⟨rounds, hall⟩
    exact (allocFrames_iff hmax hpos hsize (le_max_right rounds windowRounds)).mp
      (hall _ (le_max_left _ _))
  · intro h
    exact ⟨windowRounds, fun fuel hfuel => (allocFrames_iff hmax hpos hsize hfuel).mpr h⟩

def secondUsed : FrameMap := ⟨fun i => if i = 0 then 2#32 else 0#32, 1, 2⟩

theorem alloc_frames_iff_second_used : ∃ rounds, ∀ fuel, rounds ≤ fuel →
    AllocatesRun secondUsed 1 (allocFrames secondUsed 1 fuel) := by
  apply (alloc_frames_iff (by decide) (by decide) (by decide)).mpr
  refine Or.inl ⟨0, ⟨by decide, ⟨by decide, Or.inl ?_⟩, fun b hb => by omega⟩, ?_, Or.inl ?_⟩
  · rw [Accepts, if_neg (by decide)]
    decide
  · rw [Accepts, if_neg (by decide)]
    decide
  · refine ⟨by decide, fun g h1 h2 => ?_⟩
    obtain rfl : g = 0 := by omega
    decide

/-- One free frame is asked for and all are free: `alloc_frames` panics. -/
theorem all_free_panics : FreeRun ⟨fun _ => 0#32, 0, 1⟩ 0 1 ∧
    ∀ fuel, allocFrames ⟨fun _ => 0#32, 0, 1⟩ 1 (fuel + 3) = some none := by
  refine ⟨⟨by decide, fun g h1 h2 => ?_⟩, fun fuel => ?_⟩
  · obtain rfl : g = 0 := by omega
    decide
  · rfl

end Bingos.Frames
