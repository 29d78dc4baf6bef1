import Bingos.KmallocBlocks

set_option autoImplicit false

/-! Formatting a page, and the spec of `kmalloc` and `kfree` for blocks. -/
namespace Bingos.Kmalloc
open MachineWords PointerChains

def blocksFrom (p sz : ℕ) : ℕ → List ℕ
  | 0 => []
  | n + 1 => p :: blocksFrom (p + sz) sz n

@[simp] theorem length_blocksFrom (p sz n : ℕ) : (blocksFrom p sz n).length = n := by
  induction n generalizing p with
  | zero => rfl
  | succ n ih => rw [blocksFrom, List.length_cons, ih]

theorem mem_blocksFrom {p sz n b : ℕ} : b ∈ blocksFrom p sz n ↔ ∃ k < n, b = p + k * sz := by
  induction n generalizing p with
  | zero => simp [blocksFrom]
  | succ n ih =>
    rw [blocksFrom, List.mem_cons, ih]
    constructor
    · rintro (rfl | ⟨k, hk, rfl⟩)
      · exact ⟨0, by omega, by omega⟩
      · exact ⟨k + 1, by omega, by rw [Nat.succ_mul]; omega⟩
    · rintro ⟨k, hk, rfl⟩
      cases k with
      | zero => exact Or.inl (by omega)
      | succ k => exact Or.inr ⟨k, by omega, by rw [Nat.succ_mul]; omega⟩

theorem chain_blocksFrom {next : ℕ → ℕ} {p sz n : ℕ} (hp : 0 < p)
    (hnext : ∀ k < n, next (p + k * sz) = p + (k + 1) * sz) (hlast : next (p + n * sz) = 0) :
    Chain 0 next p (blocksFrom p sz (n + 1)) := by
  induction n generalizing p with
  | zero => exact ⟨rfl, by omega, by simpa [blocksFrom] using hlast⟩
  | succ n ih =>
    refine ⟨rfl, by omega, ?_⟩
    have h0 := hnext 0 (by omega)
    rw [Nat.zero_mul, Nat.add_zero, Nat.zero_add, Nat.one_mul] at h0
    rw [h0]
    refine ih (by omega) (fun k hk => ?_) ?_
    · have h1 := hnext (k + 1) (by omega)
      rw [Nat.succ_mul (k + 1), Nat.succ_mul] at h1
      rw [Nat.succ_mul, show p + sz + k * sz = p + (k * sz + sz) by omega, h1]
      omega
    · rw [Nat.succ_mul] at hlast
      rw [show p + sz + n * sz = p + (n * sz + sz) by omega, hlast]

theorem formatBlock_apply (m : Mem) (p link a : ℕ) : formatBlock m p link a =
    if a = p + 8 then link else if a = p + 4 then blockMagic else if a = p then mfFree else m a := by
  simp only [formatBlock, store_apply]

def Formatted (m : Mem) (b link : ℕ) : Prop :=
  m b = mfFree ∧ m (b + 4) = blockMagic ∧ m (b + 8) = link

theorem formatBlock_formatted (m : Mem) (p link : ℕ) : Formatted (formatBlock m p link) p link := by
  refine ⟨?_, ?_, ?_⟩ <;> simp [formatBlock_apply]

theorem linkBlocks_spec (m : Mem) {p sz : ℕ} (hsz : 12 ≤ sz) (n : ℕ) :
    (linkBlocks m p sz n).2 = p + n * sz ∧
    (∀ k < n, Formatted (linkBlocks m p sz n).1 (p + k * sz) (p + (k + 1) * sz)) ∧
    ∀ a, a < p ∨ p + n * sz ≤ a → (linkBlocks m p sz n).1 a = m a := by
  induction n generalizing m p with
  | zero => exact ⟨by simp [linkBlocks], fun k hk => absurd hk (by omega), fun a _ => rfl⟩
  | succ n ih =>
    have hfirst := formatBlock_formatted m p (p + sz)
    obtain ⟨hlast, hblocks, hout⟩ := ih (p := p + sz) (formatBlock m p (p + sz))
    have hstep : linkBlocks m p sz (n + 1) = linkBlocks (formatBlock m p (p + sz)) (p + sz) sz n := by
      rw [linkBlocks, hfirst.2.2]
    rw [hstep]
    refine ⟨?_, ?_, ?_⟩
    · rw [hlast, Nat.succ_mul]
      omega
    · intro k hk
      cases k with
      | zero =>
        rw [Nat.zero_mul, Nat.add_zero, Nat.zero_add, Nat.one_mul]
        obtain ⟨h0, h4, h8⟩ := hfirst
        refine ⟨?_, ?_, ?_⟩
        · rw [hout p (by omega), h0]
        · rw [hout (p + 4) (by omega), h4]
        · rw [hout (p + 8) (by omega), h8]
      | succ k =>
        have hk' := hblocks k (by omega)
        rw [Nat.succ_mul] at hk'
        rw [Nat.succ_mul (k + 1), Nat.succ_mul]
        rw [show p + sz + k * sz = p + (k * sz + sz) by omega,
          show p + sz + (k * sz + sz) = p + (k * sz + sz + sz) by omega] at hk'
        exact hk'
    · intro a ha
      rw [Nat.succ_mul] at ha
      rw [hout a (by omega), formatBlock_apply, if_neg (by omega), if_neg (by omega),
        if_neg (by omega)]

theorem formatPage_mem (h : Heap) (o q a : ℕ) : (formatPage h o q).mem a =
    if a = q then (h.sizes o).firstfree else if a = q + 4 then q + descriptorSize
    else if a = q + 12 then nblocks o else if a = q + 8 then o
    else formatBlock (linkBlocks h.mem (q + descriptorSize) (blockSize o) (nblocks o - 1)).1
      (linkBlocks h.mem (q + descriptorSize) (blockSize o) (nblocks o - 1)).2 0 a := by
  simp only [formatPage, store_apply]

theorem formatPage_layout (h : Heap) {o q : ℕ} (ho : o < 8) :
    PageLayout (formatPage h o q).mem q o
      (blocksFrom (q + descriptorSize) (blockSize o) (nblocks o)) ∧
    ∀ a, a < q ∨ q + 4096 ≤ a → (formatPage h o q).mem a = h.mem a := by
  obtain ⟨hsz, -, hfit, hnb, -⟩ := class_bounds ho
  obtain ⟨n, hn⟩ : ∃ n, nblocks o = n + 1 := ⟨nblocks o - 1, by omega⟩
  obtain ⟨hlast, hblocks, hout⟩ :=
    linkBlocks_spec h.mem (p := q + descriptorSize) (show 12 ≤ blockSize o by omega) n
  have hmem := formatPage_mem h o q
  rw [hn, Nat.add_sub_cancel, hlast] at hmem
  rw [hn, Nat.succ_mul] at hfit
  unfold descriptorSize pageSize at *
  have hslot : ∀ b, IsSlot q o b → ∃ k ≤ n, b = q + 16 + k * blockSize o := by
    rintro b ⟨k, hk, rfl⟩
    exact ⟨k, by omega, rfl⟩
  -- the header of block `k` as the two loops leave it
  have hheader : ∀ k ≤ n, Formatted (formatPage h o q).mem (q + 16 + k * blockSize o)
      (if k = n then 0 else q + 16 + (k + 1) * blockSize o) := by
    intro k hk
    have hmul : k * blockSize o ≤ n * blockSize o := Nat.mul_le_mul_right _ hk
    have hdesc : ∀ d, (formatPage h o q).mem (q + 16 + k * blockSize o + d) =
        formatBlock (linkBlocks h.mem (q + 16) (blockSize o) n).1 (q + 16 + n * blockSize o) 0
          (q + 16 + k * blockSize o + d) := by
      intro d
      rw [hmem, if_neg (by omega), if_neg (by omega), if_neg (by omega), if_neg (by omega)]
    by_cases hkn : k = n
    · subst hkn
      rw [if_pos rfl]
      obtain ⟨h0, h4, h8⟩ := formatBlock_formatted
        (linkBlocks h.mem (q + 16) (blockSize o) k).1 (q + 16 + k * blockSize o) 0
      exact ⟨(hdesc 0).trans h0, (hdesc 4).trans h4, (hdesc 8).trans h8⟩
    · rw [if_neg hkn]
      have hlt : (k + 1) * blockSize o ≤ n * blockSize o :=
        Nat.mul_le_mul_right _ (by omega)
      rw [Nat.succ_mul] at hlt
      obtain ⟨h0, h4, h8⟩ := hblocks k (by omega)
      have hkeep : ∀ d, d ≤ 8 → (formatPage h o q).mem (q + 16 + k * blockSize o + d) =
          (linkBlocks h.mem (q + 16) (blockSize o) n).1 (q + 16 + k * blockSize o + d) := by
        intro d hd
        rw [hdesc, formatBlock_apply, if_neg (by omega), if_neg (by omega), if_neg (by omega)]
      exact ⟨(hkeep 0 (by omega)).trans h0, (hkeep 4 (by omega)).trans h4,
        (hkeep 8 (by omega)).trans h8⟩
  refine ⟨⟨?_, ?_, ?_, ?_, ?_, ?_, ?_⟩, ?_⟩
  · rw [hmem, if_neg (by omega), if_neg (by omega), if_neg (by omega), if_pos rfl]
  · rw [hmem, if_neg (by omega), if_neg (by omega), if_pos rfl, length_blocksFrom, hn]
  · rw [hmem, if_neg (by omega), if_pos rfl, hn]
    refine chain_blocksFrom (by omega) (fun k hk => ?_) ?_
    · have hk' := (hheader k (by omega)).2.2
      rwa [if_neg (by omega)] at hk'
    · have hk' := (hheader n (le_refl n)).2.2
      rwa [if_pos rfl] at hk'
  · intro hnil
    have := congrArg List.length hnil
    rw [length_blocksFrom, List.length_nil] at this
    omega
  · intro b hb
    exact mem_blocksFrom.mp hb
  · intro b hb
    obtain ⟨k, hk, rfl⟩ := mem_blocksFrom.mp hb
    exact (hheader k (by omega)).1
  · intro b hb
    obtain ⟨k, hk, rfl⟩ := hslot b hb
    exact (hheader k hk).2.1
  · intro a ha
    have hnn : 0 ≤ n * blockSize o := Nat.zero_le _
    rw [hmem, if_neg (by omega), if_neg (by omega), if_neg (by omega), if_neg (by omega),
      formatBlock_apply, if_neg (by omega), if_neg (by omega), if_neg (by omega)]
    exact hout a (by omega)

def View.addPage (v : View) (o q : ℕ) : View where
  order := Function.update v.order q o
  chain := Function.update v.chain q (blocksFrom (q + descriptorSize) (blockSize o) (nblocks o))
  avail := Function.update v.avail o (q :: v.avail o)

theorem Holds.format {h : Heap} {v : View} {live : List (ℕ × ℕ)} (hh : Holds h v live) {o q e : ℕ}
    (ho : o < 8) (hq : q = h.kmallocEnd + 4096) (he : e = h.kmallocEnd + 0x2000)
    (hlt : e < 2 ^ 32) :
    Holds (formatPage { h with kmallocEnd := e } o q) (v.addPage o q) live := by
  obtain ⟨hlayout, hout⟩ := formatPage_layout { h with kmallocEnd := e } (q := q) ho
  have hend := hh.endAligned
  have hdrawn := hh.drawn
  have hstart := hh.started
  have hnb := (class_bounds ho).2.2.2.1
  have hbelow : ∀ r ∈ h.pages, r + 4096 ≤ q := fun r hr => by
    have := (hh.inside r hr).2
    omega
  have hnew : q ∉ h.pages := fun hmem => by
    have := hbelow q hmem
    omega
  have hpages : (formatPage { h with kmallocEnd := e } o q).pages = q :: h.pages := rfl
  have hsizes : ∀ o' ≠ o, (formatPage { h with kmallocEnd := e } o q).sizes o' = h.sizes o' :=
    fun o' hne => Function.update_of_ne hne _ _
  have hsize : (formatPage { h with kmallocEnd := e } o q).sizes o =
      { h.sizes o with firstfree := q, npages := (h.sizes o).npages + 1 } :=
    Function.update_self _ _ _
  have hne : ∀ r ∈ h.pages, r ≠ q := by
    rintro r hr rfl
    exact hnew hr
  have hplace : Placement (formatPage { h with kmallocEnd := e } o q) := by
    refine ⟨hh.started, ?_, ?_, List.nodup_cons.mpr ⟨hnew, hh.nodup⟩, ?_, hlt, ?_⟩
    · intro r hr
      rcases List.mem_cons.mp hr with rfl | hr
      · omega
      · exact hh.aligned r hr
    · intro r hr
      change h.kmallocStart < r ∧ r + 4096 ≤ e
      rcases List.mem_cons.mp hr with rfl | hr
      · omega
      · have := hh.inside r hr
        omega
    · change e % 4096 = 0
      omega
    · change h.kmallocStart + 0x2000 * (q :: h.pages).length ≤ e
      rw [List.length_cons]
      omega
  refine { hplace with
    order := ?_
    page := ?_
    queue := ?_
    avail := ?_
    held := ?_
    once := hh.once
    count := ?_
    bytes := ?_ }
  · intro r hr
    rcases List.mem_cons.mp hr with rfl | hr
    · simpa [View.addPage] using ho
    · simpa [View.addPage, hne r hr] using hh.order r hr
  · intro r hr
    rcases List.mem_cons.mp hr with rfl | hr
    · simpa [View.addPage] using hlayout
    · simpa [View.addPage, hne r hr] using hh.other_page (by omega) hr (hne r hr) hout
  · intro o' ho'
    have hold := hh.queue o' ho'
    have hkeep : Chain 0 (formatPage { h with kmallocEnd := e } o q).mem (h.sizes o').firstfree
        (v.avail o') := by
      refine hold.congr (fun r hr => hout r ?_)
      have := hbelow r ((hh.avail o' ho' r).mp hr).1
      omega
    by_cases hoo : o' = o
    · subst hoo
      rw [hsize]
      simp only [View.addPage, Function.update_self]
      refine ⟨rfl, by omega, ?_⟩
      rw [formatPage_mem, if_pos rfl]
      exact hkeep
    · rw [hsizes o' hoo]
      simpa only [View.addPage, Function.update_of_ne hoo] using hkeep
  · intro o' ho' r
    rw [hpages, List.mem_cons]
    by_cases hrq : r = q
    · subst hrq
      have hblocks : blocksFrom (r + descriptorSize) (blockSize o) (nblocks o) ≠ [] := by
        intro hnil
        have := congrArg List.length hnil
        rw [length_blocksFrom, List.length_nil] at this
        omega
      by_cases hoo : o' = o
      · subst hoo
        simp [View.addPage, hblocks]
      · have hnot : r ∉ v.avail o' := fun hr => hnew ((hh.avail o' ho' r).mp hr).1
        simp [View.addPage, hoo, hnot, Ne.symm hoo]
    · by_cases hoo : o' = o
      · subst hoo
        simp [View.addPage, hrq, hh.avail o' ho' r]
      · simp [View.addPage, hrq, hoo, hh.avail o' ho' r]
  · intro x hx
    obtain ⟨r, hr, b, hxb, hb, hfree, hord, hflag, hlen⟩ := hh.held x hx
    have hbb := hb.bounds (hh.order r hr)
    have hsz := (class_bounds (hh.order r hr)).1
    have hrq := hbelow r hr
    refine ⟨r, List.mem_cons_of_mem _ hr, b, hxb, ?_, ?_, ?_, ?_, ?_⟩
    · simpa [View.addPage, hne r hr] using hb
    · simpa [View.addPage, hne r hr] using hfree
    · simpa [View.addPage, hne r hr] using hord
    · exact (hout b (by omega)).trans hflag
    · exact (hout (b + 8) (by omega)).trans hlen
  · intro o' ho'
    by_cases hoo : o' = o
    · subst hoo
      rw [hsize]
      exact hh.count o' ho'
    · rw [hsizes o' hoo]
      exact hh.count o' ho'
  · intro o' ho'
    by_cases hoo : o' = o
    · subst hoo
      rw [hsize]
      exact hh.bytes o' ho'
    · rw [hsizes o' hoo]
      exact hh.bytes o' ho'

end Bingos.Kmalloc
