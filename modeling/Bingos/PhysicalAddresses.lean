import Bingos.DirectoryModel
import Bingos.KmallocRecycling

set_option autoImplicit false

/-! The physical address that `kmalloc_i` reports with a block: the placement
address before the heap is started, afterwards the result of `get_physaddr`,
in which the offset is part of the shift count. -/
namespace Bingos.Kmalloc
open MachineWords

structure Kernel where
  heap : Heap
  placementAddr : ℕ
  space : Mmap.Space
  kernelPd : Mmap.PageDir

def shl32 (a n : ℕ) : ℕ := a * 2 ^ (n % 32) % 2 ^ 32

/-- `page->addr << 12 + offset`, which adds before it shifts; `none` is a read
through a missing page table. -/
def getPhysaddr (space : Mmap.Space) (kernelPd : Mmap.PageDir) (virt : ℕ) : Option ℕ :=
  (kernelPd.tabls (Mmap.pageDirectoryIndex virt)).map fun t =>
    shl32 (Mmap.readPage space ⟨t, Mmap.pageTableIndex virt⟩).addr (12 + virt % 0x1000)

def Outcome.pointer : Outcome → Option ℕ
  | .block p => some p
  | .notFree | .noPage | .exhausted => some 0
  | .noOrder | .early | .fault => none

def kmallocI (k : Kernel) (size : ℕ) (align : Bool) : Option (ℕ × ℕ × Kernel) :=
  if k.heap.kmallocStart = 0 then
    let r := Frames.preAlloc k.placementAddr size align
    some (r.1, r.1, { k with placementAddr := r.2 })
  else
    let r := kmalloc k.heap size
    r.1.pointer.bind fun addr => (getPhysaddr k.space k.kernelPd addr).map fun phys =>
      (addr, phys, { k with heap := r.2 })

/-- `phys` is where `virt` is in memory: at the same address before the heap is
started, else where the kernel's page tables say. -/
def Translates (k : Kernel) (virt phys : ℕ) : Prop :=
  if k.heap.kmallocStart = 0 then phys = virt
  else ∃ t, k.kernelPd.tabls (Mmap.pageDirectoryIndex virt) = some t ∧
    phys = (Mmap.readPage k.space ⟨t, Mmap.pageTableIndex virt⟩).addr * 4096 + virt % 4096

theorem shl32_eq_iff {frame offset : ℕ} (hframe : frame < 2 ^ 20) (hoffset : offset < 4096) :
    shl32 frame (12 + offset) = frame * 4096 + offset ↔ offset = 0 := by
  constructor
  · intro h
    by_contra hne
    rcases Nat.lt_or_ge ((12 + offset) % 32) 12 with hsmall | hlarge
    · -- The frame number is shifted by too little to reach the frame.
      have hpow : 2 ^ ((12 + offset) % 32) ≤ 2 ^ 11 := Nat.pow_le_pow_right (by decide) (by omega)
      have hmul := Nat.mul_le_mul_left frame hpow
      rw [shl32, Nat.mod_eq_of_lt (by omega)] at h
      omega
    · -- The offset is lost: the low bits are zero.
      have hdvd : 2 ^ 12 ∣ shl32 frame (12 + offset) := by
        rw [shl32, Nat.dvd_mod_iff (by decide : (2 : ℕ) ^ 12 ∣ 2 ^ 32)]
        exact dvd_mul_of_dvd_right (pow_dvd_pow 2 hlarge) frame
      rw [h] at hdvd
      omega
  · rintro rfl
    change frame * 2 ^ 12 % 2 ^ 32 = _
    omega

theorem preAlloc_aligned (placement size : ℕ) :
    (Frames.preAlloc placement size true).1 % 4096 = 0 := by
  simp only [Frames.preAlloc, true_and]
  split_ifs with h
  · unfold add32
    omega
  · exact not_not.mp h

/-- The physical address of a block is right, and the block aligned if it has to be, iff the heap
is not started yet or the block lies at the start of a page. -/
theorem translates_iff {k k' : Kernel} {size v phys : ℕ} {align : Bool}
    (hfield : ∀ r, (Mmap.readPage k.space r).addr < 2 ^ 20)
    (h : kmallocI k size align = some (v, phys, k')) :
    (Translates k v phys ∧ (align = true → v % 4096 = 0)) ↔
      k.heap.kmallocStart = 0 ∨ v % 4096 = 0 := by
  by_cases hstart : k.heap.kmallocStart = 0
  · refine iff_of_true ⟨?_, ?_⟩ (Or.inl hstart)
    · simp only [kmallocI, if_pos hstart, Option.some.injEq, Prod.mk.injEq] at h
      rw [Translates, if_pos hstart, ← h.1, ← h.2.1]
    · rintro rfl
      simp only [kmallocI, if_pos hstart, Option.some.injEq, Prod.mk.injEq] at h
      rw [← h.1]
      exact preAlloc_aligned k.placementAddr size
  · simp only [kmallocI, if_neg hstart] at h
    obtain ⟨addr, -, h⟩ := Option.bind_eq_some_iff.mp h
    obtain ⟨found, hphys, h⟩ := Option.map_eq_some_iff.mp h
    obtain ⟨rfl, rfl, -⟩ := h
    obtain ⟨t, ht, rfl⟩ := Option.map_eq_some_iff.mp hphys
    have hright := shl32_eq_iff (hfield ⟨t, Mmap.pageTableIndex v⟩)
      (Nat.mod_lt v (show 0 < 4096 by decide))
    rw [or_iff_right hstart, Translates, if_neg hstart]
    constructor
    · rintro ⟨⟨t', ht', he⟩, -⟩
      obtain rfl : t = t' := Option.some.inj (ht.symm.trans ht')
      exact hright.mp he
    · intro hv
      exact ⟨⟨t, ht, hright.mpr hv⟩, fun _ => hv⟩

/-- No page of the size class has a free block, and the heap has reached the last page of the
address space, so that `__get_free_page` returns zero. -/
def OutOfPages (h : Heap) (size : ℕ) : Prop :=
  ∃ o, getOrder size = some o ∧ (h.sizes o).firstfree = 0 ∧ 2 ^ 32 ≤ h.kmallocEnd + pageSize

theorem Held.unaligned {h : Heap} {v : View} {live : List (ℕ × ℕ)} (hh : Holds h v live)
    {x : ℕ × ℕ} (hx : Held h v x) : x.1 % 4096 ≠ 0 := by
  obtain ⟨q, hq, b, hb, hslot, -⟩ := hx
  have hpage := hh.aligned q hq
  have hbounds := hslot.bounds (hh.order q hq)
  have hsize := (class_bounds (hh.order q hq)).1
  unfold headerSize at hb
  omega

theorem tries_formatted {h : Heap} {o q size : ℕ} (ho : o < 8) (hq : q ≠ 0) (tries : ℕ) :
    (kmallocTries (formatPage h o q) o size (tries + 1)).1 = .block (q + 28) := by
  have hlayout := (formatPage_layout h (q := q) ho).1
  have hcount := (class_bounds ho).2.2.2.1
  obtain ⟨n, hn⟩ : ∃ n, nblocks o = n + 1 := ⟨nblocks o - 1, by omega⟩
  rw [hn, blocksFrom] at hlayout
  have hfirst : ((formatPage h o q).sizes o).firstfree = q := by simp [formatPage]
  have hblock : (formatPage h o q).mem (q + 4) = q + descriptorSize := hlayout.links.1
  have hfree : (formatPage h o q).mem (q + descriptorSize) = mfFree :=
    hlayout.free _ List.mem_cons_self
  rw [kmallocTries_succ, hfirst, if_pos ⟨hq, by rw [hblock]; exact Nat.succ_ne_zero _⟩, hblock,
    if_pos hfree]
  rfl

theorem QueueHeap.pointer_aligned_iff {h : Heap} {v : View} {nodes : List ℕ}
    {small extents : List (ℕ × ℕ)} (hh : QueueHeap h v nodes small extents) {size p : ℕ}
    (hp : (kmalloc h size).1.pointer = some p) :
    p % 4096 = 0 ↔ 4080 < size ∨ OutOfPages h size := by
  have hpos := hh.holds.end_pos
  have hal := hh.holds.endAligned
  have hbound := hh.holds.endBound
  have hround : roundEnd h.kmallocEnd = (h.kmallocEnd + 4096) % 2 ^ 32 := by
    unfold roundEnd add32 pageSize
    rw [if_pos (by omega)]
    omega
  rcases Nat.lt_or_ge 4080 size with hhuge | hsmall
  · refine iff_of_true ?_ (Or.inl hhuge)
    obtain ⟨h', v', hscan, hq', -, hend⟩ := hh.scan size
    rw [kmalloc_huge hh.holds.started hhuge, kmallocHuge, hscan] at hp
    cases hlast : nodes.getLast? with
    | none =>
      rw [hlast] at hp
      obtain rfl : add32 (roundEnd h'.kmallocEnd) pageSize = p := Option.some.inj hp
      rw [hend, hround]
      unfold add32 pageSize
      omega
    | some n =>
      obtain ⟨x, hx, hvalue⟩ := hh.values n (List.mem_of_getLast? hlast)
      have hext := hh.extent x hx
      have habove := hext.above
      have haligned := hext.aligned
      rw [hlast, Option.map_some, Option.getD_some, hvalue] at hp
      dsimp only at hp
      rw [if_pos (by omega)] at hp
      obtain rfl : add32 x.1 pageSize = p := Option.some.inj hp
      unfold add32 pageSize
      omega
  · rw [kmalloc_small hh.holds.started hsmall] at hp
    rw [or_iff_right (by omega)]
    cases hsize : getOrder size with
    | none =>
      rw [kmallocBlock, hsize] at hp
      cases hp
    | some o =>
      obtain ⟨ho, -⟩ := getOrder_lt hsize
      have hfirst := (hh.holds.queue o ho).eq_null_iff
      have hout : OutOfPages h size ↔ v.avail o = [] ∧ 2 ^ 32 ≤ h.kmallocEnd + 4096 := by
        rw [← hfirst]
        constructor
        · rintro ⟨o', ho', hnone, hfull⟩
          obtain rfl : o = o' := Option.some.inj (hsize.symm.trans ho')
          exact ⟨hnone, hfull⟩
        · rintro ⟨hnone, hfull⟩
          exact ⟨o, hsize, hnone, hfull⟩
      rw [hout]
      rw [kmallocBlock_eq h hsize] at hp
      by_cases ha : v.avail o = []
      · rw [kmallocTries_succ, if_neg (by simp [hfirst.mpr ha]), hround] at hp
        by_cases hfull : 2 ^ 32 ≤ h.kmallocEnd + 4096
        · rw [if_pos (by omega)] at hp
          obtain rfl : 0 = p := Option.some.inj hp
          exact iff_of_true rfl ⟨ha, hfull⟩
        · rw [if_neg (by omega), tries_formatted ho (by omega)] at hp
          obtain rfl : (h.kmallocEnd + 4096) % 2 ^ 32 + 28 = p := Option.some.inj hp
          exact iff_of_false (by omega) (fun hf => hfull hf.2)
      · obtain ⟨p', h', v', hk, hh', -⟩ := tries_take hh.holds ho hsize ha 2
        rw [hk] at hp
        obtain rfl : p' = p := Option.some.inj hp
        exact iff_of_false ((hh'.held (p', size) List.mem_cons_self).unaligned hh') fun hf => ha hf.1

/-- The address that is reported is the block's, and the block aligned if it has to be, exactly if
the heap is not started yet, the request is for a huge block, or it fails for want of pages. -/
theorem kmalloc_i_iff {k k' : Kernel} {size v phys : ℕ} {align : Bool}
    (hfield : ∀ r, (Mmap.readPage k.space r).addr < 2 ^ 20)
    (hheap : k.heap.kmallocStart ≠ 0 →
      ∃ view nodes small extents, QueueHeap k.heap view nodes small extents)
    (h : kmallocI k size align = some (v, phys, k')) :
    (Translates k v phys ∧ (align = true → v % 4096 = 0)) ↔
      k.heap.kmallocStart = 0 ∨ 4080 < size ∨ OutOfPages k.heap size := by
  rw [translates_iff hfield h]
  by_cases hstart : k.heap.kmallocStart = 0
  · exact iff_of_true (Or.inl hstart) (Or.inl hstart)
  · rw [or_iff_right hstart, or_iff_right hstart]
    obtain ⟨view, nodes, small, extents, hh⟩ := hheap hstart
    simp only [kmallocI, if_neg hstart] at h
    obtain ⟨addr, hpointer, h⟩ := Option.bind_eq_some_iff.mp h
    obtain ⟨found, -, h⟩ := Option.map_eq_some_iff.mp h
    obtain rfl : addr = v := congrArg Prod.fst h
    exact hh.pointer_aligned_iff hpointer

def mappedKernel (h : Heap) (placement : ℕ) : Kernel where
  heap := h
  placementAddr := placement
  space := ⟨⟨fun _ => 0, 0, 0⟩,
    fun _ => some fun _ => { Mmap.Page.zero with present := true, addr := 5 }, fun _ => none, []⟩
  kernelPd := ⟨fun _ => some 1, fun _ => Mmap.Entry.zero, 0⟩

theorem mappedKernel_field (h : Heap) (placement : ℕ) (r : Mmap.PageRef) :
    (Mmap.readPage (mappedKernel h placement).space r).addr < 2 ^ 20 := by
  change 5 < 2 ^ 20
  decide

/-- A huge block on the heap as `kmalloc_init` leaves it. -/
theorem kmalloc_i_iff_huge : ∃ h₀ p phys k',
    kmallocInit (fun _ => 0) 0xc0000000 = some h₀ ∧
    kmallocI (mappedKernel h₀ 0) 5000 true = some (p, phys, k') ∧
    Translates (mappedKernel h₀ 0) p phys ∧ p % 4096 = 0 := by
  have hal : 0xc0000000 % 4096 = 0 := by decide
  obtain ⟨h₀, hboot, hend, hle, -⟩ := kmallocInit_room (fun _ => 0) hal (by decide) (by decide)
  obtain ⟨v, hh⟩ := kmallocInit_invariant hal (by decide) (by decide) hboot hend
  obtain ⟨hk, -⟩ := hh.fresh (show 4080 < 5000 by decide) (by decide) (by
    unfold hugePages hugeHeaderSize pageSize
    omega)
  have hstart : (mappedKernel h₀ 0).heap.kmallocStart ≠ 0 :=
    Nat.pos_iff_ne_zero.mp hh.holds.started
  have hcall : kmallocI (mappedKernel h₀ 0) 5000 true = some (h₀.kmallocEnd + 2 * pageSize,
      shl32 5 (12 + (h₀.kmallocEnd + 2 * pageSize) % 0x1000),
      { mappedKernel h₀ 0 with heap := drawHuge h₀ 5000 }) := by
    have hcall : kmalloc (mappedKernel h₀ 0).heap 5000 = _ := hk
    simp only [kmallocI, if_neg hstart, hcall]
    rfl
  have hright := (kmalloc_i_iff (mappedKernel_field h₀ 0)
    (fun _ => ⟨v, [], [], [], hh.toQueueHeap⟩) hcall).mpr (Or.inr (Or.inl (by decide)))
  exact ⟨h₀, _, _, _, hboot, hcall, hright.1, hright.2 rfl⟩

/-- On the heap as `kmalloc_init` leaves it, an aligned request for 16 bytes
gets a block inside a page and a physical address that is not the block's. -/
theorem small_block_physical_address : ∃ h₀ p phys k',
    kmallocInit (fun _ => 0) 0xc0000000 = some h₀ ∧
    kmallocI (mappedKernel h₀ 0) 16 true = some (p, phys, k') ∧ p % 4096 ≠ 0 ∧
    ¬ Translates (mappedKernel h₀ 0) p phys := by
  have hal : 0xc0000000 % 4096 = 0 := by decide
  obtain ⟨h₀, hboot, hend, hle, -⟩ := kmallocInit_room (fun _ => 0) hal (by decide) (by decide)
  obtain ⟨v, hh, -⟩ := kmallocInit_holds hal (by decide) (by decide) hboot hend
  obtain ⟨o, ho⟩ := getOrder_isSome (show 16 ≤ 4068 by omega)
  obtain ⟨p, h, v', hk, hh', -⟩ := kmallocBlock_room hh ho (fun _ => by omega)
  rw [← kmalloc_small hh.started (by omega)] at hk
  have hstart : (mappedKernel h₀ 0).heap.kmallocStart ≠ 0 := Nat.pos_iff_ne_zero.mp hh.started
  have hp : p % 4096 ≠ 0 := (hh'.held (p, 16) List.mem_cons_self).unaligned hh'
  refine ⟨h₀, p, shl32 5 (12 + p % 0x1000), { mappedKernel h₀ 0 with heap := h }, hboot, ?_, hp, ?_⟩
  · have hcall : kmalloc (mappedKernel h₀ 0).heap 16 = (.block p, h) := hk
    simp only [kmallocI, if_neg hstart, hcall]
    rfl
  · rw [Translates, if_neg hstart]
    rintro ⟨t, -, he⟩
    exact hp ((shl32_eq_iff (by decide) (Nat.mod_lt p (show 0 < 4096 by decide))).mp he)

end Bingos.Kmalloc
