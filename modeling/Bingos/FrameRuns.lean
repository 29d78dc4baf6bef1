import Bingos.ByteMemory
import Bingos.FrameModel
import Bingos.StepRuns

set_option autoImplicit false

/-! The frame bitmap from boot on: what `frame_init` clears, the frames held
along every run of the allocator, and the end of memory. -/
namespace Bingos.Frames
open MachineWords ByteMemory StepRuns

structure MultibootInfo where
  flags : ℕ
  memLower : ℕ
  memUpper : ℕ
  modsCount : ℕ
  modsAddr : ℕ

def checkFlag (flags bit : ℕ) : Bool := flags.testBit bit

structure BootMemory where
  mem : Memory
  frameMap : ℕ
  maxFrames : ℕ
  placementAddr : ℕ

/-- The last module's `mod_end` is the second word of its entry of 16 bytes. -/
def frameInit (mem : Memory) (mbi : MultibootInfo) : BootMemory :=
  let placement := add32 (load32 mem (sub32 (mbi.modsAddr + 16 * mbi.modsCount) 16 + 4)) 0x1000
  if checkFlag mbi.flags 0 ∧ checkFlag mbi.flags 6 then
    let maxFrames := add32 mbi.memLower mbi.memUpper / 4
    let block := preAlloc placement (maxFrames / 32) false
    ⟨store mem block.1 (List.replicate (maxFrames / 8) 0), block.1, maxFrames, block.2⟩
  else ⟨mem, 0, 0, placement⟩

def BootMemory.frames (b : BootMemory) : FrameMap :=
  ⟨fun i => BitVec.ofNat 32 (load32 b.mem (b.frameMap + 4 * i)), 0, b.maxFrames⟩

theorem frameInit_maxFrames_lt (mem : Memory) (mbi : MultibootInfo) :
    (frameInit mem mbi).maxFrames < 2 ^ 30 := by
  unfold frameInit
  split_ifs
  · simp only [add32]
    omega
  · exact Nat.two_pow_pos 30

theorem bitmapTest_frames (b : BootMemory) (f : ℕ) :
    bitmapTest b.frames f = (b.mem ((b.frameMap + f / 8) % 2 ^ 32)).toNat.testBit (f % 8) := by
  have hbit : f % 32 = 8 * (f % 32 / 8) + f % 8 := by omega
  have hbyte : b.frameMap + 4 * (f / 32) + f % 32 / 8 = b.frameMap + f / 8 := by omega
  have hlt : f % 32 / 8 < 4 := by omega
  have hload : (load b.mem (b.frameMap + 4 * (f / 32)) 4).getD (f % 32 / 8) 0 =
      b.mem ((b.frameMap + f / 8) % 2 ^ 32) := by
    rw [List.getD_eq_getElem _ _ (by simpa using hlt)]
    simp only [load, List.getElem_map, List.getElem_range, hbyte]
  rw [bitmapTest, PackedBits.test_eq, BootMemory.frames, BitVec.getLsbD_ofNat,
    decide_eq_true (Nat.mod_lt f (by decide)), Bool.true_and, load32,
    hbit, testBit_ofLE _ _ (Nat.mod_lt f (by decide)), hload]

theorem mod_two_pow_eq_zero_iff (x k : ℕ) : x % 2 ^ k = 0 ↔ ∀ j < k, x.testBit j = false := by
  constructor
  · intro h j hj
    have hb := Nat.testBit_mod_two_pow x k j
    rw [h, Nat.zero_testBit, decide_eq_true hj, Bool.true_and] at hb
    exact hb.symm
  · intro h
    refine Nat.zero_of_testBit_eq_false fun j => ?_
    rw [Nat.testBit_mod_two_pow]
    by_cases hj : j < k
    · rw [h j hj, Bool.and_false]
    · rw [decide_eq_false hj, Bool.false_and]

/-- The bits of the last frames, if their number is no multiple of eight, are
in a byte behind the part of the bitmap that `frame_init` clears. -/
def TailClear (mem : Memory) (b : BootMemory) : Prop :=
  (mem ((b.frameMap + b.maxFrames / 8) % 2 ^ 32)).toNat % 2 ^ (b.maxFrames % 8) = 0

instance (mem : Memory) (b : BootMemory) : Decidable (TailClear mem b) :=
  inferInstanceAs (Decidable (_ = _))

theorem frameInit_clear_iff (mem : Memory) (mbi : MultibootInfo) :
    (∀ f < (frameInit mem mbi).maxFrames, bitmapTest (frameInit mem mbi).frames f = false) ↔
      TailClear mem (frameInit mem mbi) := by
  have hmax := frameInit_maxFrames_lt mem mbi
  simp only [bitmapTest_frames, TailClear, mod_two_pow_eq_zero_iff]
  unfold frameInit at hmax ⊢
  split_ifs at hmax ⊢ with hflags
  · simp only at hmax ⊢
    generalize add32 mbi.memLower mbi.memUpper / 4 = n at *
    generalize (preAlloc _ (n / 32) false).1 = a
    -- byte `k` of the bitmap is cleared exactly for `k < n / 8`
    have hin : ∀ k < n / 8, store mem a (List.replicate (n / 8) 0) ((a + k) % 2 ^ 32) = 0 := by
      intro k hk
      have hlen : k < (List.replicate (n / 8) (0 : UInt8)).length := by simpa using hk
      rw [store_at hlen (by rw [List.length_replicate]; omega), List.getElem_replicate]
    have hout : store mem a (List.replicate (n / 8) 0) ((a + n / 8) % 2 ^ 32) =
        mem ((a + n / 8) % 2 ^ 32) := by
      refine store_off (fun i hi => ?_) (Nat.mod_lt _ (by decide))
      rw [List.length_replicate] at hi
      omega
    constructor
    · intro h j hj
      have hf := h (8 * (n / 8) + j) (by omega)
      rwa [show (8 * (n / 8) + j) / 8 = n / 8 by omega,
        show (8 * (n / 8) + j) % 8 = j by omega, hout] at hf
    · intro h f hf
      by_cases hk : f / 8 < n / 8
      · rw [hin _ hk]
        exact Nat.zero_testBit _
      · rw [show f / 8 = n / 8 by omega, hout]
        exact h _ (by omega)
  · simp

inductive FrameCall where
  | alloc
  | get (frame : ℕ)
  | free (frame : ℕ)

structure Holding where
  frames : FrameMap
  held : Finset ℕ

def powerOn (mem : Memory) (mbi : MultibootInfo) : Holding := ⟨(frameInit mem mbi).frames, ∅⟩

inductive Takes : Holding → FrameCall → Holding → Prop where
  | alloc {s : Holding} {f : ℕ} {m : FrameMap} (h : allocFrame s.frames = some (f, m)) :
      Takes s .alloc ⟨m, insert f s.held⟩
  | get {s : Holding} {f : ℕ} {m : FrameMap} (h : getFrame s.frames f = some m) :
      Takes s (.get f) ⟨m, insert f s.held⟩
  | free {s : Holding} {f : ℕ} : Takes s (.free f) ⟨freeFrame s.frames f, s.held.erase f⟩

def Fair (s : Holding) : FrameCall → Prop
  | .alloc => ∃ f < s.frames.maxFrames, f ∉ s.held
  | .get f => f < s.frames.maxFrames ∧ f ∉ s.held
  | .free f => f ∈ s.held

structure Owned (s : Holding) : Prop where
  bits : ∀ f < s.frames.maxFrames, (bitmapTest s.frames f = true ↔ f ∈ s.held)
  managed : ∀ f ∈ s.held, f < s.frames.maxFrames
  used : s.frames.usedFrames = s.held.card
  free : freePages s.frames = (Finset.range s.frames.maxFrames \ s.held).card

/-- A fair allocation returns the least frame not held and sets no other bit. -/
def AllocatesLeast (s : Holding) : Prop :=
  Fair s .alloc → ∃ f m, allocFrame s.frames = some (f, m) ∧ f < s.frames.maxFrames ∧
    f ∉ s.held ∧ (∀ g, g ∉ s.held → f ≤ g) ∧
    ∀ g, bitmapTest m g = (bitmapTest s.frames g || decide (g = f))

variable {held : Finset ℕ} {c : FrameCall} {m' : FrameMap} {t : Holding} {residue : ℕ}

theorem card_le_of_lt {n : ℕ} (h : ∀ f ∈ held, f < n) : held.card ≤ n := by
  have hsub : held ⊆ Finset.range n := fun f hf => Finset.mem_range.mpr (h f hf)
  simpa using Finset.card_le_card hsub

variable {m : FrameMap} {s : Holding} {f : ℕ}

theorem freePages_eq (hused : m.usedFrames = held.card)
    (hmanaged : ∀ f ∈ held, f < m.maxFrames) (hmax : m.maxFrames < 2 ^ 32) :
    freePages m = (Finset.range m.maxFrames \ held).card := by
  have hsub : held ⊆ Finset.range m.maxFrames := fun f hf => Finset.mem_range.mpr (hmanaged f hf)
  rw [Finset.card_sdiff_of_subset hsub, Finset.card_range, freePages, hused,
    sub32_of_le hmax (card_le_of_lt hmanaged)]

theorem Owned.take (h : Owned s) (hmax : s.frames.maxFrames < 2 ^ 32)
    (hf : f < s.frames.maxFrames) (hnot : f ∉ s.held) :
    Owned ⟨{ bitmapSet s.frames f with usedFrames := add32 s.frames.usedFrames 1 },
      insert f s.held⟩ := by
  have hmanaged : ∀ g ∈ insert f s.held, g < s.frames.maxFrames := by
    intro g hg
    rcases Finset.mem_insert.mp hg with rfl | hg
    · exact hf
    · exact h.managed g hg
  have hused : add32 s.frames.usedFrames 1 = (insert f s.held).card := by
    have hle := card_le_of_lt hmanaged
    rw [Finset.card_insert_of_notMem hnot] at hle ⊢
    rw [h.used, add32_of_lt (by omega)]
  refine ⟨?_, hmanaged, hused, freePages_eq hused hmanaged hmax⟩
  intro g hg
  have hset : bitmapTest { bitmapSet s.frames f with usedFrames := add32 s.frames.usedFrames 1 } g =
      (bitmapTest s.frames g || decide (g = f)) := PackedBits.test_set s.frames.frameMap f g
  rw [hset, Bool.or_eq_true, decide_eq_true_eq, h.bits g hg, Finset.mem_insert, or_comm]

theorem Owned.release (h : Owned s) (hmax : s.frames.maxFrames < 2 ^ 32)
    (hf : f ∈ s.held) : Owned ⟨freeFrame s.frames f, s.held.erase f⟩ := by
  have hmanaged : ∀ g ∈ s.held.erase f, g < s.frames.maxFrames :=
    fun g hg => h.managed g (Finset.mem_of_mem_erase hg)
  have hused : sub32 s.frames.usedFrames 1 = (s.held.erase f).card := by
    have hle := card_le_of_lt h.managed
    have hpos : 0 < s.held.card := Finset.card_pos.mpr ⟨f, hf⟩
    rw [Finset.card_erase_of_mem hf, h.used, sub32_of_le (by omega) hpos]
  refine ⟨?_, hmanaged, hused, freePages_eq hused hmanaged hmax⟩
  intro g hg
  rw [bitmapTest_freeFrame, Bool.and_eq_true, decide_eq_true_eq, h.bits g hg, Finset.mem_erase,
    and_comm]

theorem Owned.allocatesLeast (h : Owned s) (hmax : s.frames.maxFrames < 2 ^ 32) :
    AllocatesLeast s := by
  rintro ⟨free, hlt, hnot⟩
  have hclear : bitmapTest s.frames free = false := by
    rw [← Bool.not_eq_true, h.bits free hlt]
    exact hnot
  obtain ⟨f, m, halloc, hle, hf, hbelow, -, hbits⟩ := allocFrame_spec hclear hlt hmax
  have hfmax : f < s.frames.maxFrames := by omega
  refine ⟨f, m, halloc, hfmax, ?_, ?_, hbits⟩
  · rw [← h.bits f hfmax, hf]
    decide
  · intro g hg
    by_contra hgt
    exact hg ((h.bits g (by omega)).mp (hbelow g (by omega)))

theorem takes_maxFrames (h : Takes s c t) :
    t.frames.maxFrames = s.frames.maxFrames := by
  cases h with
  | alloc h => rw [allocFrame_eq h]; rfl
  | @get f m h =>
    unfold getFrame at h
    split_ifs at h <;> cases h <;> rfl
  | free => rfl

theorem step_owned (h : Owned s)
    (hmax : s.frames.maxFrames < 2 ^ 32) (hstep : Guarded Fair Takes s c t) : Owned t := by
  obtain ⟨hfair, htakes⟩ := hstep
  cases htakes with
  | alloc halloc =>
    obtain ⟨f, m, halloc', hlt, hnot, -⟩ := h.allocatesLeast hmax hfair
    obtain ⟨rfl, rfl⟩ := Prod.mk.inj (Option.some.inj (halloc'.symm.trans halloc))
    rw [allocFrame_eq halloc]
    exact h.take hmax hlt hnot
  | @get f m hget =>
    obtain ⟨hlt, hnot⟩ := hfair
    have hclear : bitmapTest s.frames f = false := by
      rw [← Bool.not_eq_true, h.bits f hlt]
      exact hnot
    rw [getFrame, if_neg (by omega), hclear, if_neg Bool.false_ne_true] at hget
    obtain rfl := Option.some.inj hget
    exact h.take hmax hlt hnot
  | free => exact h.release hmax hfair

theorem run_owned {init : Holding} {cs : List FrameCall} (h0 : Owned init)
    (hmax : init.frames.maxFrames < 2 ^ 32) (h : Reach (Guarded Fair Takes) init cs s) :
    Owned s ∧ s.frames.maxFrames = init.frames.maxFrames := by
  refine h.invariant (fun _ s => Owned s ∧ s.frames.maxFrames = init.frames.maxFrames)
    ⟨h0, rfl⟩ ?_
  rintro cs s c t - ⟨howned, heq⟩ hstep
  exact ⟨step_owned howned (heq ▸ hmax) hstep, (takes_maxFrames hstep.2).trans heq⟩

theorem powerOn_owned_iff (mem : Memory) (mbi : MultibootInfo) :
    Owned (powerOn mem mbi) ↔ TailClear mem (frameInit mem mbi) := by
  have hmax := frameInit_maxFrames_lt mem mbi
  rw [← frameInit_clear_iff]
  constructor
  · intro h f hf
    rw [← Bool.not_eq_true, show (frameInit mem mbi).frames = (powerOn mem mbi).frames from rfl,
      h.bits f hf]
    exact Finset.notMem_empty f
  · intro h
    refine ⟨fun f hf => ?_, nofun, rfl, freePages_eq rfl nofun ?_⟩
    · rw [show bitmapTest (powerOn mem mbi).frames f = false from h f hf]
      simp [powerOn]
    · change (frameInit mem mbi).maxFrames < 2 ^ 32
      omega

/-- The bitmap describes the frames held along every fair run from boot
exactly if the bits `frame_init` does not clear happen to be clear. -/
theorem frame_ownership_iff (mem : Memory) (mbi : MultibootInfo) :
    (∀ cs s, Reach (Guarded Fair Takes) (powerOn mem mbi) cs s →
      Owned s ∧ AllocatesLeast s ∧ ∀ f, Fair s (.get f) → ∃ t, Takes s (.get f) t) ↔
      TailClear mem (frameInit mem mbi) := by
  have hmax : (powerOn mem mbi).frames.maxFrames < 2 ^ 32 := by
    have h := frameInit_maxFrames_lt mem mbi
    change (frameInit mem mbi).maxFrames < 2 ^ 32
    omega
  rw [← powerOn_owned_iff]
  constructor
  · intro h
    exact (h [] _ .start).1
  · intro h0 cs s hrun
    obtain ⟨h, heq⟩ := run_owned h0 hmax hrun
    refine ⟨h, h.allocatesLeast (heq ▸ hmax), ?_⟩
    rintro f ⟨hlt, hnot⟩
    refine ⟨⟨{ bitmapSet s.frames f with usedFrames := add32 s.frames.usedFrames 1 }, _⟩, .get ?_⟩
    rw [getFrame, if_neg (by omega), if_neg]
    rw [h.bits f hlt]
    exact hnot

/-- With nine frames and memory that is not zero at boot, frame 8 is marked
used before anyone holds it. -/
theorem ninth_frame_marked_at_boot :
    (powerOn (fun _ => 0xff) ⟨0x41, 36, 0, 1, 0⟩).frames.maxFrames = 9 ∧
      bitmapTest (powerOn (fun _ => 0xff) ⟨0x41, 36, 0, 1, 0⟩).frames 8 = true ∧
      8 ∉ (powerOn (fun _ => 0xff) ⟨0x41, 36, 0, 1, 0⟩).held := by
  decide +kernel

def scanReads (m : PackedBits.Words) : ℕ → ℕ → List ℕ
  | _, 0 => []
  | i, n + 1 =>
    i :: if m i = 0xffffffff#32 then scanReads m (i + 1) n
      else match scanBits (m i) 0 32 with
        | some _ => []
        | none => scanReads m (i + 1) n

inductive Outcome where
  | panic
  | returns (frame : ℕ) (m : FrameMap)

/-- `alloc_frame` with its panics told apart from its results; `residue` is
what the caller of `get_first_frame` finds in the result register when the
search ends without a result. -/
def allocOutcome (residue : ℕ) (m : FrameMap) : Outcome :=
  if m.maxFrames = 0 then .panic
  else
    let frame := (getFirstFrame m).getD residue
    if frame = 2 ^ 32 - 1 then .panic
    else .returns frame { bitmapSet m frame with usedFrames := add32 m.usedFrames 1 }

def mapWords (m : FrameMap) : ℕ := (m.maxFrames + 31) / 32

/-- Allocation returns managed frames, reads the map only and panics when no
frame is left. -/
structure Detects (residue : ℕ) (m : FrameMap) : Prop where
  managed : ∀ f m', allocOutcome residue m = .returns f m' → f < m.maxFrames
  inside : ∀ i ∈ scanReads m.frameMap 0 m.maxFrames, i < mapWords m
  exhausted : (∀ f < m.maxFrames, bitmapTest m f = true) → allocOutcome residue m = .panic

theorem scanBits_of_ne {w : BitVec 32} (h : w ≠ 0xffffffff#32) : ∃ j, scanBits w 0 32 = some j := by
  have hfinds := scanBits_finds w 0 32 (by decide)
  cases hs : scanBits w 0 32 with
  | some j => exact ⟨j, rfl⟩
  | none =>
    rw [hs] at hfinds
    refine absurd ((PackedBits.allOnes_iff (fun _ => w) 0).mpr fun j hj => ?_) h
    rw [PackedBits.test_eq]
    exact hfinds _ (by omega) (by omega)

theorem scanReads_succ (m : PackedBits.Words) (i n : ℕ) :
    scanReads m i (n + 1) = i :: if m i = 0xffffffff#32 then scanReads m (i + 1) n else [] := by
  rw [scanReads]
  split_ifs with hfull
  · rfl
  · obtain ⟨j, hj⟩ := scanBits_of_ne hfull
    rw [hj]

theorem mem_scanReads (m : PackedBits.Words) (i n k : ℕ) :
    k ∈ scanReads m i n ↔ i ≤ k ∧ k < i + n ∧ ∀ g, 32 * i ≤ g → g < 32 * k →
      PackedBits.test m g = true := by
  induction n generalizing i with
  | zero =>
    simp only [scanReads, List.not_mem_nil, false_iff]
    omega
  | succ n ih =>
    rw [scanReads_succ, List.mem_cons]
    by_cases hfull : m i = 0xffffffff#32
    · have hword := (PackedBits.allOnes_iff m i).mp hfull
      have hset : ∀ g, 32 * i ≤ g → g < 32 * (i + 1) → PackedBits.test m g = true := by
        intro g h1 h2
        have h := hword (g - 32 * i) (by omega)
        rwa [show 32 * i + (g - 32 * i) = g by omega] at h
      rw [if_pos hfull, ih]
      constructor
      · rintro (rfl | ⟨h1, h2, h3⟩)
        · exact ⟨le_refl k, by omega, fun g h1 h2 => by omega⟩
        · refine ⟨by omega, by omega, fun g hg hlt => ?_⟩
          by_cases hi : g < 32 * (i + 1)
          · exact hset g hg hi
          · exact h3 g (by omega) hlt
      · rintro ⟨h1, h2, h3⟩
        by_cases hk : k = i
        · exact Or.inl hk
        · exact Or.inr ⟨by omega, by omega, fun g hg hlt => h3 g (by omega) hlt⟩
    · rw [if_neg hfull]
      constructor
      · rintro (rfl | h)
        · exact ⟨le_refl k, by omega, fun g h1 h2 => by omega⟩
        · cases h
      · rintro ⟨h1, h2, h3⟩
        left
        by_contra hk
        refine hfull ((PackedBits.allOnes_iff m i).mpr fun j hj => ?_)
        exact h3 _ (by omega) (by omega)

theorem allocOutcome_of_first (residue : ℕ) (hpos : m.maxFrames ≠ 0)
    (hfirst : getFirstFrame m = some f) (hne : f ≠ 2 ^ 32 - 1) :
    allocOutcome residue m =
      .returns f { bitmapSet m f with usedFrames := add32 m.usedFrames 1 } := by
  simp only [allocOutcome, if_neg hpos, hfirst, Option.getD_some, if_neg hne]

theorem allocOutcome_of_some (residue : ℕ)
    (h : allocFrame m = some (f, m')) : allocOutcome residue m = .returns f m' := by
  rw [allocFrame_eq h]
  unfold allocFrame at h
  split_ifs at h with hpos
  split at h
  · cases h
  · rename_i g hg
    split_ifs at h with hne
    obtain ⟨rfl, -⟩ := Prod.mk.inj (Option.some.inj h)
    exact allocOutcome_of_first residue hpos hg hne

theorem detects_of_free (residue : ℕ) (hmax : m.maxFrames < 2 ^ 30) {free : ℕ}
    (hfree : bitmapTest m free = false) (hlt : free < m.maxFrames) : Detects residue m := by
  obtain ⟨f, m', halloc, hle, -⟩ := allocFrame_spec hfree hlt (by omega)
  have hout := allocOutcome_of_some residue halloc
  refine ⟨?_, ?_, ?_⟩
  · intro g m'' h
    rw [hout] at h
    cases h
    omega
  · intro i hi
    obtain ⟨-, -, hfull⟩ := (mem_scanReads _ _ _ _).mp hi
    have hi : 32 * i ≤ free := by
      by_contra hgt
      rw [bitmapTest, hfull free (by omega) (by omega)] at hfree
      cases hfree
    unfold mapWords
    omega
  · intro hall
    rw [hall free hlt] at hfree
    cases hfree

/-- Without a free frame the search leaves the map, unless the map is a single
word for a single frame. -/
theorem detects_full (hpos : 0 < m.maxFrames) (hmax : m.maxFrames < 2 ^ 30)
    (hfull : ∀ f < m.maxFrames, bitmapTest m f = true) (h : Detects residue m) :
    m.maxFrames = 1 ∧ m.frameMap 0 = 0xffffffff#32 ∧ residue = 2 ^ 32 - 1 := by
  have hpanic := h.exhausted hfull
  have hread : ∀ (hset : ∀ g < 32 * mapWords m, bitmapTest m g = true), m.maxFrames ≤ mapWords m := by
    intro hset
    by_contra hgt
    have hmem := (mem_scanReads m.frameMap 0 m.maxFrames (mapWords m)).mpr
      ⟨by omega, by omega, fun g _ hg => hset g hg⟩
    exact lt_irrefl _ (h.inside _ hmem)
  have hfinds := scanWords_finds m.frameMap 0 m.maxFrames
  have hwords : mapWords m = (m.maxFrames + 31) / 32 := rfl
  unfold allocOutcome getFirstFrame at hpanic
  rw [if_neg (by omega)] at hpanic
  cases hs : scanWords m.frameMap 0 m.maxFrames with
  | some f =>
    rw [hs] at hfinds hpanic
    obtain ⟨-, hlt, hclear, hbefore⟩ := hfinds
    by_cases hin : f < 32 * mapWords m
    · simp only [Option.map_some, Option.getD_some, Nat.mod_eq_of_lt (show f < 2 ^ 32 by omega)] at hpanic
      rw [if_neg (by omega)] at hpanic
      cases hpanic
    · have hle := hread fun g hg => hbefore g (by omega) (by omega)
      omega
  | none =>
    rw [hs] at hfinds hpanic
    have hle := hread fun g hg => hfinds g (by omega) (by omega)
    refine ⟨by omega, (PackedBits.allOnes_iff _ _).mpr fun j hj => hfinds _ (by omega) (by omega), ?_⟩
    by_contra hne
    simp only [Option.map_none, Option.getD_none, if_neg hne] at hpanic
    cases hpanic

theorem detects_single (hone : m.maxFrames = 1) (hfull : m.frameMap 0 = 0xffffffff#32) :
    Detects (2 ^ 32 - 1) m := by
  have hpanic : allocOutcome (2 ^ 32 - 1) m = .panic := by
    simp [allocOutcome, getFirstFrame, scanWords, hone, hfull]
  refine ⟨?_, ?_, fun _ => hpanic⟩
  · intro f m' h
    rw [hpanic] at h
    cases h
  · intro i hi
    obtain ⟨-, hlt, -⟩ := (mem_scanReads _ _ _ _).mp hi
    rw [mapWords]
    omega

inductive PoolCall where
  | alloc
  | free (frame : ℕ)

inductive Uses (residue : ℕ) : FrameMap → PoolCall → FrameMap → Prop where
  | alloc {m m' : FrameMap} {f : ℕ} (h : allocOutcome residue m = .returns f m') :
      Uses residue m .alloc m'
  | free {m : FrameMap} {f : ℕ} : Uses residue m (.free f) (freeFrame m f)

/-- The word `bitmap_unset` reads and writes; its argument is an `int`, and a
negative one is not in the bitmap. -/
def unsetWord (frame : ℕ) : Option ℕ := if frame < 2 ^ 31 then some (frame / 32) else none

def Handled (residue : ℕ) (m : FrameMap) : PoolCall → Prop
  | .alloc => Detects residue m
  | .free f => ∃ i < mapWords m, unsetWord f = some i

def Meets (residue : ℕ) (m : FrameMap) : PoolCall → Prop
  | .alloc => (∃ f < m.maxFrames, bitmapTest m f = false) ∨
      m.maxFrames = 1 ∧ m.frameMap 0 = 0xffffffff#32 ∧ residue = 2 ^ 32 - 1
  | .free f => f < 32 * mapWords m

theorem handled_iff (residue : ℕ) (hpos : 0 < m.maxFrames)
    (hmax : m.maxFrames < 2 ^ 30) (c : PoolCall) : Handled residue m c ↔ Meets residue m c := by
  cases c with
  | alloc =>
    constructor
    · intro h
      by_cases hfree : ∃ f < m.maxFrames, bitmapTest m f = false
      · exact Or.inl hfree
      · right
        refine detects_full hpos hmax (fun f hf => ?_) h
        by_contra hclear
        exact hfree ⟨f, hf, Bool.not_eq_true _ ▸ hclear⟩
    · rintro (⟨f, hlt, hclear⟩ | ⟨hone, hfull, rfl⟩)
      · exact detects_of_free residue hmax hclear hlt
      · exact detects_single hone hfull
  | free f =>
    have hwords : mapWords m = (m.maxFrames + 31) / 32 := rfl
    simp only [Handled, Meets, unsetWord]
    constructor
    · rintro ⟨i, hi, h⟩
      split_ifs at h
      obtain rfl := Option.some.inj h
      omega
    · intro h
      refine ⟨f / 32, by omega, if_pos (by omega)⟩

theorem uses_maxFrames {c : PoolCall} (h : Uses residue m c m') :
    m'.maxFrames = m.maxFrames := by
  cases h with
  | alloc h =>
    unfold allocOutcome at h
    split_ifs at h
    simp only at h
    split_ifs at h
    cases h
    rfl
  | free => rfl

/-- Along every run from boot whose calls meet the condition, the next call
stays inside the map and detects the end of memory exactly if it meets it. -/
theorem exhaustion_detected_iff (mem : Memory) (mbi : MultibootInfo) (residue : ℕ)
    (hpos : 0 < (frameInit mem mbi).maxFrames) (cs : List PoolCall) (m : FrameMap)
    (hrun : Reach (Guarded (Meets residue) (Uses residue)) (frameInit mem mbi).frames cs m)
    (c : PoolCall) : Handled residue m c ↔ Meets residue m c := by
  have hmax : m.maxFrames = (frameInit mem mbi).maxFrames :=
    hrun.invariant (fun _ m => m.maxFrames = (frameInit mem mbi).maxFrames) rfl
      fun _ _ _ _ _ heq hstep => (uses_maxFrames hstep.2).trans heq
  have hlt := frameInit_maxFrames_lt mem mbi
  exact handled_iff residue (by omega) (by omega) c

def tiny : MultibootInfo := ⟨0x41, 8, 0, 1, 0⟩

theorem exhaustion_detected_iff_tiny :
    ∃ m, Reach (Guarded (Meets 0) (Uses 0)) (frameInit (fun _ => 0) tiny).frames [.alloc] m ∧
      Detects 0 m := by
  have hfree : bitmapTest (frameInit (fun _ => 0) tiny).frames 0 = false := by decide +kernel
  have hpos : 0 < (frameInit (fun _ => 0) tiny).maxFrames := by decide
  obtain ⟨f, m, halloc, hle, -, -, hmax, hbits⟩ := allocFrame_spec hfree hpos (by decide)
  have hrun : Reach (Guarded (Meets 0) (Uses 0)) (frameInit (fun _ => 0) tiny).frames [.alloc] m :=
    .next .start ⟨Or.inl ⟨0, hpos, hfree⟩, .alloc (allocOutcome_of_some 0 halloc)⟩
  have hone : bitmapTest (frameInit (fun _ => 0) tiny).frames 1 = false := by decide +kernel
  refine ⟨m, hrun, (exhaustion_detected_iff _ tiny 0 hpos _ m hrun .alloc).mpr (Or.inl ⟨1, ?_, ?_⟩)⟩
  · rw [hmax]
    decide
  · rw [hbits, hone]
    simp
    omega

/-- With both frames held, the third allocation returns frame 2. -/
theorem third_of_two_frames_returned :
    ∃ m m', Reach (Uses 0) (frameInit (fun _ => 0) tiny).frames [.alloc, .alloc] m ∧
      m.maxFrames = 2 ∧ (∀ f < 2, bitmapTest m f = true) ∧
      allocOutcome 0 m = .returns 2 m' := by
  let next (m : FrameMap) (f : ℕ) : FrameMap :=
    { bitmapSet m f with usedFrames := add32 m.usedFrames 1 }
  let m₀ := (frameInit (fun _ => 0) tiny).frames
  have h₀ : allocOutcome 0 m₀ = .returns 0 (next m₀ 0) :=
    allocOutcome_of_first 0 (by decide) (by decide +kernel) (by decide)
  have h₁ : allocOutcome 0 (next m₀ 0) = .returns 1 (next (next m₀ 0) 1) :=
    allocOutcome_of_first 0 (by decide) (by decide +kernel) (by decide)
  have h₂ : allocOutcome 0 (next (next m₀ 0) 1) = .returns 2 (next (next (next m₀ 0) 1) 2) :=
    allocOutcome_of_first 0 (by decide) (by decide +kernel) (by decide)
  exact ⟨_, _, .next (.next .start (.alloc h₀)) (.alloc h₁), rfl, by decide +kernel, h₂⟩

end Bingos.Frames
