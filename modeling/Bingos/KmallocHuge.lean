import Bingos.KmallocScan

set_option autoImplicit false

/-! Huge blocks: allocation, the way back to the queue, and reuse. -/
namespace Bingos.Kmalloc
open MachineWords PointerChains DisjointRanges StepRuns

def headerOf (x : ℕ × ℕ) : ℕ := x.1 - pageSize

/-- Every huge block is either on the queue or in use, and those in use are
large enough for what was asked. -/
structure HugeHeap (h : Heap) (v : View) (nodes : List ℕ) (small huge extents : List (ℕ × ℕ)) :
    Prop extends QueueHeap h v nodes small extents where
  owned : (nodes.map (fun n => h.mem (n + 8)) ++ huge.map headerOf).Perm
    (extents.map Prod.fst)
  fits : ∀ x ∈ huge, pageSize ≤ x.1 ∧ x.2 ≤ h.mem (headerOf x + 8)

variable {h : Heap} {extents huge small live : List (ℕ × ℕ)} {nodes : List ℕ} {v : View} {size : ℕ}
  {x : ℕ × ℕ}

theorem QueueHeap.headers_nodup (hh : QueueHeap h v nodes small extents) :
    (extents.map Prod.fst).Nodup := by
  refine List.pairwise_map.mpr (hh.apart.imp_of_mem (fun {x y} hx hy hap heq => ?_))
  have h1 := (hh.extent x hx).pages
  have h2 := (hh.extent y hy).pages
  unfold Apart span at hap
  simp only at hap
  omega

theorem HugeHeap.huge_extent (hh : HugeHeap h v nodes small huge extents)
    (hx : x ∈ huge) : ∃ e ∈ extents, x.1 = e.1 + pageSize ∧ x.2 ≤ (e.2 - 1) * 4096 := by
  have hmem : headerOf x ∈ extents.map Prod.fst :=
    hh.owned.mem_iff.mp (List.mem_append_right _ (List.mem_map.mpr ⟨x, hx, rfl⟩))
  obtain ⟨e, he, heq⟩ := List.mem_map.mp hmem
  obtain ⟨hge, hfit⟩ := hh.fits x hx
  refine ⟨e, he, by unfold headerOf at heq; omega, ?_⟩
  rw [← heq, (hh.extent e he).size] at hfit
  exact hfit

theorem HugeHeap.transfer {h' : Heap} {v' : View} {small' : List (ℕ × ℕ)}
    (hh : HugeHeap h v nodes small huge extents) (hq : QueueHeap h' v' nodes small' extents)
    (hvalue : ∀ n ∈ nodes, h'.mem (n + 8) = h.mem (n + 8)) :
    HugeHeap h' v' nodes small' huge extents := by
  refine { hq with owned := ?_, fits := fun x hx => ?_ }
  · rw [List.map_congr_left hvalue]
    exact hh.owned
  · obtain ⟨e, he, hxe, hfit⟩ := hh.huge_extent hx
    refine ⟨by omega, ?_⟩
    rw [headerOf, hxe, Nat.add_sub_cancel, (hq.extent e he).size]
    exact hfit

theorem Holds.live_sep (hh : Holds h v live) {x y : ℕ}
    (hx : (x, 12) ∈ live) (hy : (y, 12) ∈ live) (hne : x ≠ y) : Sep x y := by
  have hap := Held.apart hh (hh.held _ hx) (hh.held _ hy) hne
  obtain ⟨_, _, b, hxb, _⟩ := hh.held _ hx
  obtain ⟨_, _, c, hyc, _⟩ := hh.held _ hy
  unfold Apart headerSize at *
  unfold Sep
  simp only at *
  omega

theorem QueueHeap.push (hh : QueueHeap h v nodes small extents) (hx : x ∈ extents)
    (hroom : (h.sizes 0).firstfree = 0 → h.kmallocEnd + 0x2000 < 2 ^ 32) :
    ∃ n h' v', listPushFront h h.hugeQueue x.1 = some h' ∧
      QueueHeap h' v' (n :: nodes) small extents ∧ h'.mem (n + 8) = x.1 ∧
      ∀ y ∈ nodes, h'.mem (y + 8) = h.mem (y + 8) := by
  obtain ⟨n, h₁, v₁, hk, hq₁, hvalue, hg⟩ :=
    hh.malloc_small (show getOrder 12 = some 0 by decide) hroom
  obtain ⟨l, hl⟩ : ∃ l, h.hugeQueue = l := ⟨_, rfl⟩
  have hl₁ : h₁.hugeQueue = l := hg.hugeQueue.trans hl
  have hlive := hq₁.holds
  have hqueue := hq₁.queue
  rw [hl₁] at hlive hqueue
  have hnlive : (n, 12) ∈ queueBlocks l nodes ++ (n, 12) :: small := by simp
  have hllive : (l, 12) ∈ queueBlocks l nodes ++ (n, 12) :: small := by simp [queueBlocks]
  have hylive : ∀ y ∈ nodes, (y, 12) ∈ queueBlocks l nodes ++ (n, 12) :: small := by
    intro y hy
    exact List.mem_append_left _ (mem_queueBlocks.mpr (Or.inr ⟨y, hy, rfl⟩))
  have hnew : n ∉ (queueBlocks l nodes).map Prod.fst := by
    have honce := hlive.once
    rw [List.map_append, List.map_cons, List.nodup_middle, List.nodup_cons] at honce
    exact fun hmem => honce.1 (List.mem_append_left _ hmem)
  have hln : l ≠ n := fun he => hnew (by simp [queueBlocks, he])
  have hyn : ∀ y ∈ nodes, y ≠ n := by
    rintro y hy rfl
    exact hnew (List.mem_map.mpr ⟨(y, 12), mem_queueBlocks.mpr (Or.inr ⟨y, hy, rfl⟩), rfl⟩)
  have hn0 : n ≠ 0 := by
    obtain ⟨_, _, b, hnb, _⟩ := hlive.held _ hnlive
    unfold headerSize at hnb
    simp only at hnb
    omega
  obtain ⟨hpush, hval, hout⟩ := @Queue.push nodes h₁.mem l n x.1 hqueue hn0
    (hlive.live_sep hllive hnlive hln)
    (fun y hy => hlive.live_sep (hylive y hy) hnlive (hyn y hy))
  have hwritten : ∀ a, pushNode h₁.mem l n x.1 a ≠ h₁.mem a →
      ∃ y ∈ queueBlocks h₁.hugeQueue nodes ++ (n, 12) :: small, y.1 ≤ a ∧ a < y.1 + y.2 := by
    intro a hne
    rw [hl₁]
    by_contra hnone
    push Not at hnone
    refine hne (hout a ?_ ?_ (fun y hy => ?_))
    · have := hnone (l, 12) hllive
      omega
    · have := hnone (n, 12) hnlive
      omega
    · have := hnone (y, 12) (hylive y hy)
      omega
  obtain ⟨hholds, hextent⟩ := hq₁.write_live hwritten
  have hperm : (queueBlocks h₁.hugeQueue nodes ++ (n, 12) :: small).Perm
      (queueBlocks h₁.hugeQueue (n :: nodes) ++ small) := by
    refine List.perm_middle.trans ?_
    exact List.Perm.swap _ _ _
  have hkept : ∀ y ∈ nodes, pushNode h₁.mem l n x.1 (y + 8) = h.mem (y + 8) := by
    intro y hy
    have h1 := hqueue.sep y hy
    have h2 := hlive.live_sep (hylive y hy) hnlive (hyn y hy)
    refine (hout (y + 8) ?_ ?_ (fun z hz => ?_)).trans (hvalue y hy)
    · unfold Sep at h1
      omega
    · unfold Sep at h2
      omega
    · by_cases hyz : y = z
      · omega
      · have h3 := hqueue.spread y hy z hz hyz
        unfold Sep at h3
        omega
  refine ⟨n, { h₁ with mem := pushNode h₁.mem l n x.1 }, v₁, ?_,
    ⟨hholds.perm hperm, ?_, hextent, hq₁.apart, hq₁.offPages, ?_⟩, hval, hkept⟩
  · rw [hl, listPushFront, hk]
  · change Queue (pushNode h₁.mem l n x.1) h₁.hugeQueue (n :: nodes)
    rw [hl₁]
    exact hpush
  · intro y hy
    rcases List.mem_cons.mp hy with rfl | hy
    · exact ⟨x, hx, hval⟩
    · obtain ⟨z, hz, heq⟩ := hh.values y hy
      exact ⟨z, hz, (hkept y hy).trans heq⟩

/-- A huge block that is freed goes to the front of the queue, unless the word
where a small block has its magic number happens to hold it. -/
theorem HugeHeap.free_huge (hh : HugeHeap h v nodes small huge extents) {p : ℕ}
    (hx : (p, size) ∈ huge) (hword : h.mem (p - 8) ≠ blockMagic)
    (hroom : (h.sizes 0).firstfree = 0 → h.kmallocEnd + 0x2000 < 2 ^ 32) :
    ∃ n h' v', kfree h p = some h' ∧ h'.mem (n + 8) = p - pageSize ∧
      HugeHeap h' v' (n :: nodes) small (huge.erase (p, size)) extents := by
  obtain ⟨e, he, hpe, -⟩ := hh.huge_extent hx
  change p = e.1 + pageSize at hpe
  obtain ⟨n, h', v', hpush, hq, hval, hkept⟩ := hh.toQueueHeap.push he hroom
  have hext := hh.extent e he
  have hheader : headerOf (p, size) = e.1 := by rw [headerOf, hpe, Nat.add_sub_cancel]
  refine ⟨n, h', v', ?_, hval.trans hheader.symm,
    { hq with owned := ?_, fits := fun x hxm => ?_ }⟩
  · have h8 : p - headerSize + 4 = p - 8 := by
      unfold headerSize pageSize at *
      omega
    rw [kfree, if_neg (by unfold pageSize at hpe; omega), h8, if_neg hword,
      if_pos (by rw [hpe, Nat.add_sub_cancel]; exact hext.magic), hpe, Nat.add_sub_cancel]
    exact hpush
  · rw [List.map_cons, hval, List.map_congr_left hkept]
    refine List.Perm.trans ?_ hh.owned
    have hmap := (List.perm_cons_erase hx).map headerOf
    rw [List.map_cons, hheader] at hmap
    rw [List.cons_append]
    exact List.perm_middle.symm.trans (hmap.symm.append_left _)
  · have hmem := List.mem_of_mem_erase hxm
    obtain ⟨e', he', hpe', hfit⟩ := hh.huge_extent hmem
    refine ⟨(hh.fits x hmem).1, ?_⟩
    rw [headerOf, hpe', Nat.add_sub_cancel, (hq.extent e' he').size]
    exact hfit

def hugePages (size : ℕ) : ℕ := (size + hugeHeaderSize) / pageSize + 2

theorem Holds.length_lt (hh : Holds h v live) :
    live.length < 2 ^ 31 := by
  refine lt_of_le_of_lt ?_ hh.live_total
  rw [← List.length_map (fun x : ℕ × ℕ => x.2 + headerSize)]
  refine List.length_le_sum_of_one_le _ (fun n hn => ?_)
  obtain ⟨x, -, rfl⟩ := List.mem_map.mp hn
  unfold headerSize
  omega

theorem QueueHeap.scan (hh : QueueHeap h v nodes small extents) (size : ℕ) :
    ∃ h' v', scanQueue h size (h.mem h.hugeQueue) 0 queueFuel =
        some ((nodes.getLast?.map (fun n => h.mem (n + 8))).getD 0, h') ∧
      QueueHeap h' v' (nodes.filter (tooSmall h size)) small extents ∧
      (∀ n ∈ nodes.filter (tooSmall h size), h'.mem (n + 8) = h.mem (n + 8)) ∧
      h'.kmallocEnd = h.kmallocEnd := by
  have hlen := hh.holds.length_lt
  rw [List.length_append, queueBlocks, List.length_cons, List.length_map] at hlen
  have hfuel : nodes.length < queueFuel := by
    unfold queueFuel
    omega
  have hscan : QueueHeap h v ([] ++ nodes) small extents := hh
  rw [hh.queue.next.eq_head]
  exact scanQueue_spec hscan size 0 hfuel

theorem QueueHeap.extend (hh : QueueHeap h v nodes small extents) (hx : x.1 = h.kmallocEnd + 4096)
    (hk : 2 ≤ x.2) (hlt : x.1 + x.2 * 4096 < 2 ^ 32) :
    QueueHeap { h with
      mem := store (store h.mem (x.1 + 12) blockMagic) (x.1 + 8) ((x.2 - 1) * 4096)
      kmallocEnd := x.1 + x.2 * 4096 } v nodes small (x :: extents) := by
  let m := store (store h.mem (x.1 + 12) blockMagic) (x.1 + 8) ((x.2 - 1) * 4096)
  have hm : ∀ a, m a = if a = x.1 + 8 then (x.2 - 1) * 4096
      else if a = x.1 + 12 then blockMagic else h.mem a := by
    intro a
    simp only [m, store_apply]
  have hbelow : ∀ a, a < x.1 → m a = h.mem a := by
    intro a ha
    rw [hm, if_neg (by omega), if_neg (by omega)]
  have hpage : ∀ q ∈ h.pages, q + 4096 ≤ h.kmallocEnd := fun q hq => (hh.holds.inside q hq).2
  have hwrite : Holds { h with mem := m } v (queueBlocks h.hugeQueue nodes ++ small) := by
    refine hh.holds.write (fun q hq a ha => hbelow a ?_)
    have h1 := ha.bounds (hh.holds.order q hq)
    have h2 := hpage q hq
    omega
  have hblock : ∀ y ∈ queueBlocks h.hugeQueue nodes, y.1 + y.2 ≤ h.kmallocEnd :=
    fun y hy => hh.holds.live_below (List.mem_append_left _ hy)
  have hlist : h.hugeQueue + 12 ≤ h.kmallocEnd :=
    hblock (h.hugeQueue, 12) (mem_queueBlocks.mpr (Or.inl rfl))
  have hnode : ∀ n ∈ nodes, n + 12 ≤ h.kmallocEnd :=
    fun n hn => hblock (n, 12) (mem_queueBlocks.mpr (Or.inr ⟨n, hn, rfl⟩))
  have hal := hh.holds.endAligned
  have hdrawn := hh.holds.drawn
  refine ⟨{ hwrite with inside := ?_, endAligned := ?_, endBound := hlt, drawn := ?_ },
    hh.queue.congr ⟨hbelow _ (by omega), hbelow _ (by omega)⟩
      (fun n hn => ⟨hbelow _ (by have := hnode n hn; omega), hbelow _ (by have := hnode n hn; omega)⟩),
    ?_, ?_, ?_, ?_⟩
  · intro q hq
    have h1 := hh.holds.inside q hq
    exact ⟨h1.1, h1.2.trans (show h.kmallocEnd ≤ x.1 + x.2 * 4096 by omega)⟩
  · change (x.1 + x.2 * 4096) % 4096 = 0
    omega
  · change h.kmallocStart + 0x2000 * h.pages.length ≤ x.1 + x.2 * 4096
    omega
  · intro y hy
    rcases List.mem_cons.mp hy with rfl | hy
    · refine ⟨by omega, ?_, le_refl _, hk, ?_, ?_⟩
      · change h.kmallocStart < y.1
        omega
      · exact (hm _).trans (if_pos rfl)
      · exact (hm _).trans (by rw [if_neg (by omega), if_pos rfl])
    · obtain ⟨h1, h2, h3, h4, h5, h6⟩ := hh.extent y hy
      refine ⟨h1, h2, h3.trans (show h.kmallocEnd ≤ x.1 + x.2 * 4096 by omega), h4, ?_, ?_⟩
      · exact (hbelow _ (by omega)).trans h5
      · exact (hbelow _ (by omega)).trans h6
  · refine List.pairwise_cons.mpr ⟨fun y hy => ?_, hh.apart⟩
    have := (hh.extent y hy).inside
    unfold Apart span
    simp only
    omega
  · intro y hy q hq
    rcases List.mem_cons.mp hy with rfl | hy
    · have := hpage q hq
      unfold Apart span
      simp only
      omega
    · exact hh.offPages y hy q hq
  · intro n hn
    obtain ⟨y, hy, heq⟩ := hh.values n hn
    have := hnode n hn
    exact ⟨y, List.mem_cons_of_mem _ hy, (hbelow _ (by omega)).trans heq⟩

theorem kmalloc_huge (hstart : 0 < h.kmallocStart) (hsize : 4080 < size) :
    kmalloc h size = kmallocHuge h size queueFuel := by
  rw [kmalloc, if_neg (by omega), if_pos hsize]

theorem scanQueue_zero (h : Heap) (size header : ℕ) {fuel : ℕ} (hfuel : 0 < fuel) :
    scanQueue h size 0 header fuel = some (header, h) := by
  cases fuel with
  | zero => omega
  | succ fuel => rw [scanQueue, if_pos rfl]

def drawHuge (h : Heap) (size : ℕ) : Heap :=
  let header := h.kmallocEnd + 4096
  { h with
    mem := store (store h.mem (header + 12) blockMagic) (header + 8) ((hugePages size - 1) * 4096)
    kmallocEnd := header + hugePages size * 4096 }

theorem HugeHeap.fresh (hh : HugeHeap h v [] small huge extents) (hsize : 4080 < size)
    (hbound : size + hugeHeaderSize < 2 ^ 32)
    (hroom : h.kmallocEnd + (hugePages size + 1) * pageSize < 2 ^ 32) :
    kmalloc h size = (.block (h.kmallocEnd + 2 * pageSize), drawHuge h size) ∧
      HugeHeap (drawHuge h size) v [] small ((h.kmallocEnd + 2 * pageSize, size) :: huge)
        ((h.kmallocEnd + pageSize, hugePages size) :: extents) := by
  have hscan : scanQueue h size (h.mem h.hugeQueue) 0 queueFuel = some (0, h) := by
    rw [show h.mem h.hugeQueue = 0 from hh.queue.next]
    exact scanQueue_zero h size 0 (by decide)
  have hpages : add32 size hugeHeaderSize / pageSize + 2 = hugePages size := by
    rw [add32_of_lt hbound, hugePages]
  unfold pageSize at hroom
  have hround : roundEnd h.kmallocEnd = h.kmallocEnd + 4096 :=
    roundEnd_of_aligned hh.holds.end_pos hh.holds.endAligned (by omega)
  have hnext : add32 (h.kmallocEnd + 4096) (hugePages size * pageSize) =
      h.kmallocEnd + 4096 + hugePages size * 4096 := by
    unfold pageSize
    rw [add32_of_lt (by omega)]
  have htwo : 2 ≤ hugePages size := Nat.le_add_left 2 _
  have hlen : sub32 (hugePages size) 1 * pageSize % 2 ^ 32 = (hugePages size - 1) * 4096 := by
    unfold pageSize
    rw [sub32_of_le (by omega) (by omega), Nat.mod_eq_of_lt (by omega)]
  have hext : QueueHeap (drawHuge h size) v [] small
      ((h.kmallocEnd + 4096, hugePages size) :: extents) :=
    hh.extend (x := (h.kmallocEnd + 4096, hugePages size)) rfl htwo (by simp only; omega)
  have hheader : headerOf (h.kmallocEnd + 2 * pageSize, size) = h.kmallocEnd + pageSize := by
    unfold headerOf
    simp only
    omega
  refine ⟨?_, { hext with owned := ?_, fits := fun x hx => ?_ }⟩
  · rw [kmalloc_huge hh.holds.started hsize, kmallocHuge, hscan]
    simp only [ne_eq, not_true_eq_false, if_false, getFreePages, hpages, hround, hnext, hlen]
    rw [add32_of_lt (by unfold pageSize; omega)]
    unfold pageSize
    rw [show h.kmallocEnd + 4096 + 4096 = h.kmallocEnd + 2 * 4096 by omega]
    rfl
  · rw [List.map_nil, List.nil_append, List.map_cons, List.map_cons, hheader]
    have := hh.owned
    rw [List.map_nil, List.nil_append] at this
    exact this.cons _
  · rcases List.mem_cons.mp hx with rfl | hx
    · refine ⟨by simp only; omega, ?_⟩
      rw [hheader]
      have hsz := (hext.extent (h.kmallocEnd + 4096, hugePages size) (by simp)).size
      refine le_trans ?_ hsz.ge
      unfold hugePages hugeHeaderSize pageSize
      simp only
      omega
    · obtain ⟨e, he, hxe, hfit⟩ := hh.huge_extent hx
      refine ⟨(hh.fits x hx).1, ?_⟩
      rw [headerOf, hxe, Nat.add_sub_cancel]
      exact hfit.trans (hext.extent e (by simp [he])).size.ge

end Bingos.Kmalloc
