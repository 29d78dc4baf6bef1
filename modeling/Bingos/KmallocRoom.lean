import Bingos.KmallocHuge

set_option autoImplicit false

/-! How much room a block of the fresh heap has: up to the end of its slot for
a size class, up to the end of the pages reserved for it for a huge block. -/
namespace Bingos.Kmalloc
open MachineWords

/-- The end of what the heap pointer was advanced by from `header` on, as far as
there are addresses. -/
def reservedEnd (h : Heap) (header : ℕ) : ℕ :=
  min (header + sub32 h.kmallocEnd header) (2 ^ 32)

/-- The call returns NULL, or a block with room for `size` bytes. A huge block
starts one page behind its header. -/
def Served (size : ℕ) (r : Outcome × Heap) : Prop :=
  match r.1 with
  | .block p =>
    if 4080 < size then p + size ≤ reservedEnd r.2 (p - pageSize)
    else ∃ q ∈ r.2.pages, ∃ b, IsSlot q (r.2.mem (q + 8)) b ∧ p = b + headerSize ∧
      p + size ≤ b + blockSize (r.2.mem (q + 8))
  | .notFree | .noPage | .exhausted => True
  | .noOrder | .early | .fault => False

variable {h : Heap} {p size : ℕ}

theorem getOrder_eq_none (h : 4068 < size) : getOrder size = none := by
  rw [getOrder, List.findIdx?_eq_none_iff]
  intro b hb
  have hle : ∀ b ∈ blockSizes, b ≤ 4080 := by decide
  have hmax := hle b hb
  rw [decide_eq_false_iff_not, headerSize]
  omega

theorem Holds.served {v : View} {live : List (ℕ × ℕ)}
    (hh : Holds h v ((p, size) :: live)) (hsize : size ≤ 4080) : Served size (.block p, h) := by
  obtain ⟨q, hq, b, hp, hslot, -, horder, -⟩ := hh.held (p, size) List.mem_cons_self
  have hpage := (hh.page q hq).order
  have hfit := (getOrder_lt horder).2
  have hp' : p = b + headerSize := hp
  dsimp only [Served]
  rw [if_neg (by omega)]
  refine ⟨q, hq, b, by rw [hpage]; exact hslot, hp', ?_⟩
  rw [hpage]
  omega

theorem kmalloc_huge_empty (hstart : 0 < h.kmallocStart) (hqueue : h.mem h.hugeQueue = 0)
    (hsize : 4080 < size) :
    ∃ m, kmalloc h size = (.block (add32 (roundEnd h.kmallocEnd) pageSize),
      { h with
        mem := m
        kmallocEnd := add32 (roundEnd h.kmallocEnd)
          ((add32 size hugeHeaderSize / pageSize + 2) * pageSize) }) := by
  have hscan : scanQueue h size (h.mem h.hugeQueue) 0 queueFuel = some (0, h) := by
    rw [hqueue]
    exact scanQueue_zero h size 0 (by decide)
  rw [kmalloc_huge hstart hsize, kmallocHuge, hscan]
  exact ⟨_, rfl⟩

theorem served_huge_iff (hp : 3 * pageSize ≤ p) (hlt : p < 2 ^ 32)
    (hsize : size < 2 ^ 32) (hhuge : 4080 < size)
    (hend : h.kmallocEnd = add32 (p - pageSize)
      ((add32 size hugeHeaderSize / pageSize + 2) * pageSize)) :
    Served size (.block p, h) ↔ p + size ≤ 2 ^ 32 := by
  unfold Served reservedEnd
  simp only [if_pos hhuge, hend]
  unfold pageSize hugeHeaderSize at *
  have hdist : sub32 (add32 (p - 0x1000) ((add32 size 48 / 0x1000 + 2) * 0x1000)) (p - 0x1000) =
      (add32 size 48 / 0x1000 + 2) * 0x1000 % 2 ^ 32 := by
    unfold sub32 add32
    omega
  rw [hdist, le_min_iff, and_iff_right_iff_imp]
  intro hfit
  rw [add32_of_lt (by omega), Nat.mod_eq_of_lt (by omega)]
  omega

theorem kmallocInit_end {m : Mem} {start : ℕ} (hal : start % 4096 = 0) (hpos : 0 < start)
    (hroom : start + 0x2000 < 2 ^ 32) (hboot : kmallocInit m start = some h) :
    ∃ v, Holds h v [(h.hugeQueue, 12)] ∧ h.mem h.hugeQueue = 0 ∧
      h.kmallocEnd = start + 0x2000 := by
  obtain ⟨h', hboot', hlo, hhi, -, hstart⟩ := kmallocInit_room m hal hpos hroom
  obtain rfl : h' = h := Option.some.inj (hboot'.symm.trans hboot)
  obtain ⟨v, hh, hqueue, -⟩ := kmallocInit_holds hal hpos (by omega) hboot hlo
  obtain ⟨q, hq, -⟩ := hh.held _ List.mem_cons_self
  have hpages := List.length_pos_of_mem hq
  have hdrawn := hh.drawn
  exact ⟨v, hh, hqueue, by omega⟩

/-- On the fresh heap a request is served iff its size has a class, or is huge
and the block ends inside the address space. Sizes from 4069 to 4080 are neither. -/
theorem fresh_heap_serves_iff {m : Mem} {start : ℕ} (hal : start % 4096 = 0) (hpos : 0 < start)
    (hroom : start + 0x4000 < 2 ^ 32) {h : Heap} (hboot : kmallocInit m start = some h) {size : ℕ}
    (hsize : size < 2 ^ 32) :
    Served size (kmalloc h size) ↔
      size ≤ 4068 ∨ 4080 < size ∧ start + 0x4000 + size ≤ 2 ^ 32 := by
  obtain ⟨v, hh, hqueue, hend⟩ := kmallocInit_end hal hpos (by omega) hboot
  rcases Nat.lt_or_ge 4080 size with hhuge | hsmall
  · have hround := roundEnd_of_aligned hh.end_pos hh.endAligned (by omega)
    obtain ⟨m', hcall⟩ := kmalloc_huge_empty hh.started hqueue hhuge
    have hp : add32 (roundEnd h.kmallocEnd) pageSize = start + 0x4000 := by
      unfold pageSize
      rw [hround, add32_of_lt (by omega)]
      omega
    have hheader : roundEnd h.kmallocEnd = start + 0x4000 - pageSize := by
      unfold pageSize
      omega
    rw [hcall, hp, served_huge_iff (by unfold pageSize; omega) hroom hsize hhuge (by rw [hheader])]
    constructor
    · intro hfit
      exact Or.inr ⟨hhuge, hfit⟩
    · rintro (hle | ⟨-, hfit⟩)
      · omega
      · exact hfit
  · rw [kmalloc_small hh.started hsmall]
    by_cases hclass : size ≤ 4068
    · obtain ⟨o, ho⟩ := getOrder_isSome hclass
      obtain ⟨p, h', v', hcall, hh', -⟩ := kmallocBlock_room hh ho (fun _ => by omega)
      rw [hcall]
      exact iff_of_true (hh'.served hsmall) (Or.inl hclass)
    · rw [kmallocBlock, getOrder_eq_none (by omega)]
      exact iff_of_false id (by omega)

theorem exists_heap_at_3GiB : ∃ h, kmallocInit (fun _ => 0) 0xc0000000 = some h := by
  have hal : 0xc0000000 % 4096 = 0 := by decide
  obtain ⟨h, hboot, -⟩ := kmallocInit_room (fun _ => 0) hal (by decide) (by decide)
  exact ⟨h, hboot⟩

theorem fresh_heap_serves_iff_page : ∃ h, kmallocInit (fun _ => 0) 0xc0000000 = some h ∧
    Served 4096 (kmalloc h 4096) := by
  obtain ⟨h, hboot⟩ := exists_heap_at_3GiB
  exact ⟨h, hboot, (fresh_heap_serves_iff (by decide) (by decide) (by decide) hboot
    (by decide)).mpr (Or.inr ⟨by decide, by decide⟩)⟩

/-- Between the last size class and the huge blocks `get_order` has no result. -/
theorem unclassed_size_not_served : ∃ h, kmallocInit (fun _ => 0) 0xc0000000 = some h ∧
    (kmalloc h 4070).1 = .noOrder ∧ ¬ Served 4070 (kmalloc h 4070) := by
  obtain ⟨h, hboot⟩ := exists_heap_at_3GiB
  obtain ⟨v, hh, -⟩ := kmallocInit_end (by decide) (by decide) (by decide) hboot
  have hcall : kmalloc h 4070 = (.noOrder, h) := by
    rw [kmalloc_small hh.started (by decide), kmallocBlock, getOrder_eq_none (by decide)]
  exact ⟨h, hboot, by rw [hcall], by rw [hcall]; exact id⟩

end Bingos.Kmalloc
