import Bingos.BumpBlocks
import Bingos.FrameRuns

set_option autoImplicit false

/-! The blocks of `pre_alloc` behind the frame bitmap. `frame_init` reserves a
thirty-second of a byte for each frame, clears an eighth of one and addresses
the bitmap in words, so that the bitmap reaches into the blocks behind it. -/
namespace Bingos.EarlyBlocks
open MachineWords ByteMemory Frames BumpBlocks

def pageUp (p : ℕ) : ℕ := (p + 0xfff) / 0x1000 * 0x1000

theorem pageUp_monotone : Monotone pageUp := fun p q h => by
  unfold pageUp
  omega

theorem le_pageUp (p : ℕ) : p ≤ pageUp p := by
  unfold pageUp
  omega

theorem pageUp_pageUp (p : ℕ) : pageUp (pageUp p) ≤ pageUp p := by
  unfold pageUp
  omega

def pagePadding : ClosureOperator ℕ := .mk' pageUp pageUp_monotone le_pageUp pageUp_pageUp

theorem pagePadding_shift (x : ℕ) : pagePadding (x + 2 ^ 32) = pagePadding x + 2 ^ 32 := by
  change pageUp (x + 2 ^ 32) = pageUp x + 2 ^ 32
  unfold pageUp
  omega

/-- A call of `pre_alloc`; the address stored through `phys` is the one
returned. -/
structure Call where
  size : BitVec 32
  align : Bool

def Call.request (c : Call) : Request := ⟨c.size.toNat, c.align⟩

def preAllocAll : ℕ → List Call → List Block
  | _, [] => []
  | p, c :: cs =>
    ⟨(preAlloc p c.size.toNat c.align).1, c.size.toNat⟩ ::
      preAllocAll (preAlloc p c.size.toNat c.align).2 cs

def bytes (b : Block) : Set ℕ := b.bytes (2 ^ 32)

/-- The word of the bitmap that `bitmap_set`, `bitmap_unset` and `bitmap_test`
address for a frame. -/
def bitmapWord (b : BootMemory) (frame : ℕ) : Block := ⟨b.frameMap + 4 * (frame / 32), 4⟩

/-- The bytes of the `memset` in `frame_init` and of the bitmap operations on
the frames of the machine. -/
def touched (b : BootMemory) : Set ℕ :=
  bytes ⟨b.frameMap, b.maxFrames / 8⟩ ∪ {a | ∃ f < b.maxFrames, a ∈ bytes (bitmapWord b f)}

def reserved (b : BootMemory) : Block := ⟨b.frameMap, b.maxFrames / 32⟩

theorem touched_eq (b : BootMemory) :
    touched b = bytes ⟨b.frameMap, 4 * ((b.maxFrames + 31) / 32)⟩ := by
  ext a
  constructor
  · rintro (⟨i, hi, rfl⟩ | ⟨f, hf, i, hi, rfl⟩)
    · refine ⟨i, ?_, rfl⟩
      simp only at hi ⊢
      omega
    · refine ⟨4 * (f / 32) + i, ?_, ?_⟩
      · simp only [bitmapWord] at hi ⊢
        omega
      · simp only [bitmapWord, Nat.add_assoc]
  · rintro ⟨i, hi, rfl⟩
    simp only at hi
    refine Or.inr ⟨32 * (i / 4), by omega, i % 4, ?_, ?_⟩
    · exact Nat.mod_lt i (by decide)
    · simp only [bitmapWord]
      congr 1
      omega

theorem touched_subset_reserved_iff {b : BootMemory} (hmax : b.maxFrames < 2 ^ 30) :
    touched b ⊆ bytes (reserved b) ↔ b.maxFrames = 0 := by
  rw [touched_eq]
  constructor
  · intro hsub
    by_contra hpos
    -- The first byte behind the reserved ones belongs to a word of the bitmap.
    obtain ⟨i, hi, heq⟩ := hsub ⟨b.maxFrames / 32, by change _ < 4 * ((b.maxFrames + 31) / 32); omega,
      rfl⟩
    simp only [reserved] at hi heq
    omega
  · intro hzero a ⟨i, hi, _⟩
    simp only [hzero] at hi
    omega

theorem preAlloc_pad (p size : ℕ) (align : Bool) :
    preAlloc (p % 2 ^ 32) size align =
      ((if align then pagePadding p else p) % 2 ^ 32,
        ((if align then pagePadding p else p) + size) % 2 ^ 32) := by
  change _ = ((if align then pageUp p else p) % 2 ^ 32,
    ((if align then pageUp p else p) + size) % 2 ^ 32)
  simp only [preAlloc, pageUp, add32]
  cases align with
  | false => simp [Nat.mod_add_mod]
  | true =>
    by_cases hp : p % 2 ^ 32 % 4096 = 0
    · simp only [hp, ne_eq, not_true_eq_false, and_false, if_false, if_true, Prod.mk.injEq]
      omega
    · simp only [hp, ne_eq, not_false_eq_true, and_self, if_true, Prod.mk.injEq]
      omega

theorem preAllocAll_eq (p : ℕ) (cs : List Call) :
    preAllocAll (p % 2 ^ 32) cs =
      (bump pagePadding p (cs.map Call.request)).map fun b => ⟨b.start % 2 ^ 32, b.size⟩ := by
  induction cs generalizing p with
  | nil => rfl
  | cons c cs ih =>
    rw [preAllocAll, preAlloc_pad, ih]
    rfl

theorem bytes_wrap (b : Block) : bytes ⟨b.start % 2 ^ 32, b.size⟩ = bytes b := by
  ext a
  exact Block.mem_bytes_wrap

/-- The blocks and the padding between them, from the first byte handed out to
the last one, take no more than the 4 GiB of the address space. -/
def WithinSpace (p : ℕ) (cs : List Call) : Prop :=
  ∀ b ∈ bump pagePadding p (cs.map Call.request), ∀ c ∈ bump pagePadding p (cs.map Call.request),
    0 < b.size → 0 < c.size → c.start + c.size ≤ b.start + 2 ^ 32

theorem preAllocAll_disjoint_iff {p : ℕ} (hp : p < 2 ^ 32) (cs : List Call) :
    ((preAllocAll p cs).Pairwise fun b c => Disjoint (bytes b) (bytes c)) ↔ WithinSpace p cs := by
  have hsize : ∀ r ∈ cs.map Call.request, r.size < 2 ^ 32 := by
    intro r hr
    obtain ⟨c, _, rfl⟩ := List.mem_map.mp hr
    exact c.size.isLt
  have heq := preAllocAll_eq p cs
  rw [Nat.mod_eq_of_lt hp] at heq
  rw [heq, List.pairwise_map]
  simp only [bytes_wrap]
  exact pairwise_disjoint_iff pagePadding_shift hsize

/-- The early blocks are sound: disjoint from each other, with the accesses to
the bitmap inside its own block and outside all others. -/
structure Sound (b : BootMemory) (cs : List Call) : Prop where
  disjoint : (reserved b :: preAllocAll b.placementAddr cs).Pairwise
    fun c d => Disjoint (bytes c) (bytes d)
  inside : touched b ⊆ bytes (reserved b)
  apart : ∀ c ∈ preAllocAll b.placementAddr cs, Disjoint (touched b) (bytes c)

def NoFrames (mbi : MultibootInfo) : Prop :=
  checkFlag mbi.flags 0 = false ∨ checkFlag mbi.flags 6 = false ∨
    add32 mbi.memLower mbi.memUpper < 4

theorem frameInit_maxFrames_eq_zero_iff (mem : Memory) (mbi : MultibootInfo) :
    (frameInit mem mbi).maxFrames = 0 ↔ NoFrames mbi := by
  unfold frameInit NoFrames
  cases checkFlag mbi.flags 0 <;> cases checkFlag mbi.flags 6 <;> simp

theorem frameInit_placementAddr_lt (mem : Memory) (mbi : MultibootInfo) :
    (frameInit mem mbi).placementAddr < 2 ^ 32 := by
  unfold frameInit
  split_ifs
  · exact Nat.mod_lt _ (by decide)
  · exact Nat.mod_lt _ (by decide)

theorem bytes_empty {b : Block} (h : b.size = 0) : bytes b = ∅ := by
  ext a
  constructor
  · rintro ⟨i, hi, _⟩
    omega
  · exact fun h => h.elim

/-- After every boot and for every sequence of early allocations, the blocks
are sound exactly if no frames were counted and the blocks fit the address
space. -/
theorem early_blocks_sound_iff (mem : Memory) (mbi : MultibootInfo) (cs : List Call) :
    Sound (frameInit mem mbi) cs ↔
      NoFrames mbi ∧ WithinSpace (frameInit mem mbi).placementAddr cs := by
  have hinside := touched_subset_reserved_iff (frameInit_maxFrames_lt mem mbi)
  have hblocks := preAllocAll_disjoint_iff (frameInit_placementAddr_lt mem mbi) cs
  rw [← frameInit_maxFrames_eq_zero_iff mem]
  constructor
  · intro h
    exact ⟨hinside.mp h.inside, hblocks.mp (List.pairwise_cons.mp h.disjoint).2⟩
  · rintro ⟨hzero, hspace⟩
    have hreserved : bytes (reserved (frameInit mem mbi)) = ∅ :=
      bytes_empty (by rw [reserved, hzero])
    have htouched : touched (frameInit mem mbi) = ∅ :=
      Set.subset_eq_empty (hinside.mpr hzero) hreserved
    refine ⟨List.pairwise_cons.mpr ⟨fun c _ => ?_, hblocks.mpr hspace⟩, hinside.mpr hzero,
      fun c _ => ?_⟩
    · rw [hreserved]
      exact Set.empty_disjoint _
    · rw [htouched]
      exact Set.empty_disjoint _

def bootRam : Memory := store32 (fun _ => 0) 0x10004 0x200c00

def bootInfo : MultibootInfo := ⟨0x41, 639, 129920, 1, 0x10000⟩

/-- `mmu_init` gets its page directory from the first call behind
`frame_init`, and its first bytes are those of the word for frame 8192. -/
theorem page_directory_in_bitmap :
    ¬Sound (frameInit bootRam bootInfo) [⟨8196#32, true⟩] ∧
      0x202000 ∈ bytes (bitmapWord (frameInit bootRam bootInfo) 8192) ∧
      (preAllocAll (frameInit bootRam bootInfo).placementAddr [⟨8196#32, true⟩]).map Block.start =
        [0x202000] := by
  have hmap : (frameInit bootRam bootInfo).frameMap = 0x201c00 := by decide +kernel
  have hmax : (frameInit bootRam bootInfo).maxFrames = 32639 := by decide +kernel
  have hplace : (frameInit bootRam bootInfo).placementAddr = 0x201ffb := by decide +kernel
  have hword : 0x202000 ∈ bytes (bitmapWord (frameInit bootRam bootInfo) 8192) := by
    rw [bitmapWord, hmap]
    exact ⟨0, by decide, rfl⟩
  have hblocks : preAllocAll 0x201ffb [⟨8196#32, true⟩] = [⟨0x202000, 8196⟩] := by rfl
  rw [hplace, hblocks]
  refine ⟨fun h => ?_, hword, rfl⟩
  have hapart := h.apart ⟨0x202000, 8196⟩ (by rw [hplace, hblocks]; exact List.mem_singleton_self _)
  refine Set.disjoint_left.mp hapart (Or.inr ⟨8192, by rw [hmax]; decide, hword⟩) ?_
  exact ⟨0, by decide, rfl⟩

end Bingos.EarlyBlocks
