import Bingos.KmallocPages

set_option autoImplicit false

/-! What `kmalloc` of a small size and `kfree` of a block do to the heap. -/
namespace Bingos.Kmalloc
open MachineWords PointerChains

/-- From one heap to a later one: pages are only added above the old end, below
it only the allocator's own words change, and above the new end none. -/
structure Grows (h : Heap) (v : View) (h' : Heap) (v' : View) : Prop where
  start : h'.kmallocStart = h.kmallocStart
  hugeQueue : h'.hugeQueue = h.hugeQueue
  endLe : h.kmallocEnd ≤ h'.kmallocEnd
  pages : ∀ q ∈ h'.pages, q ∈ h.pages ∨ h.kmallocEnd ≤ q
  kept : ∀ q ∈ h.pages, q ∈ h'.pages ∧ v'.order q = v.order q
  mem : ∀ a < h.kmallocEnd, (∀ q ∈ h.pages, ¬ OwnWord q (v.order q) a) → h'.mem a = h.mem a
  above : ∀ a, h'.kmallocEnd ≤ a → h'.mem a = h.mem a

variable {h h' : Heap} {live : List (ℕ × ℕ)} {v v' : View} {a o q size b e : ℕ}

theorem OwnWord.le (h : OwnWord q o a) : q ≤ a := by
  rcases h with h | ⟨b, ⟨k, _, rfl⟩, h⟩
  · omega
  · unfold descriptorSize at h
    have := Nat.zero_le (k * blockSize o)
    omega

theorem Grows.foreign (hg : Grows h v h' v')
    (ha : a < h.kmallocEnd) (hown : ∀ q ∈ h.pages, ¬ OwnWord q (v.order q) a) :
    ∀ q ∈ h'.pages, ¬ OwnWord q (v'.order q) a := by
  intro q hq how
  rcases hg.pages q hq with hold | hnew
  · rw [(hg.kept q hold).2] at how
    exact hown q hold how
  · have := how.le
    omega

theorem Grows.trans {h'' : Heap} {v'' : View} (hg : Grows h v h' v')
    (hg' : Grows h' v' h'' v'') : Grows h v h'' v'' := by
  refine ⟨hg'.start.trans hg.start, hg'.hugeQueue.trans hg.hugeQueue, hg.endLe.trans hg'.endLe,
    ?_, ?_, ?_, fun a ha => (hg'.above a ha).trans (hg.above a (hg'.endLe.trans ha))⟩
  · intro q hq
    rcases hg'.pages q hq with hold | hnew
    · exact hg.pages q hold
    · exact Or.inr (hg.endLe.trans hnew)
  · intro q hq
    obtain ⟨hq', ho⟩ := hg.kept q hq
    obtain ⟨hq'', ho'⟩ := hg'.kept q hq'
    exact ⟨hq'', ho'.trans ho⟩
  · intro a ha hown
    rw [hg'.mem a (ha.trans_le hg.endLe) (hg.foreign ha hown), hg.mem a ha hown]

theorem Holds.grows_of_page (hh : Holds h v live) (hq : q ∈ h.pages) {m : Mem}
    (sizes : ℕ → SizeDescriptor) (bs ps : List ℕ)
    (hm : ∀ a, ¬ OwnWord q (v.order q) a → m a = h.mem a) :
    Grows h v { h with mem := m, sizes := sizes } (v.edit q bs ps) := by
  refine ⟨rfl, rfl, le_refl _, fun r hr => Or.inl hr, fun r hr => ⟨hr, rfl⟩,
    fun a _ hown => hm a (hown q hq), fun a ha => hm a (fun hown => ?_)⟩
  have h1 := hown.bounds (hh.order q hq)
  have h2 := (hh.inside q hq).2
  change h.kmallocEnd ≤ a at ha
  omega

theorem takeBlock_foreign (hb : IsSlot q o b)
    (ha : ¬ OwnWord q o a) : (takeBlock h o q b size).mem a = h.mem a := by
  simp only [OwnWord, not_or, not_exists, not_and] at ha
  obtain ⟨⟨h0, h4, -, h12⟩, hslot⟩ := ha
  obtain ⟨hb0, -, hb8⟩ := hslot b hb
  rw [takeBlock_mem rfl, if_neg hb8, if_neg hb0, if_neg (fun h => h0 h.1), if_neg h12, if_neg h4]

theorem giveBlock_foreign {chain : List ℕ} (hlayout : PageLayout h.mem q o chain) (ho : o < 8)
    (hb : IsSlot q o b) (ha : ¬ OwnWord q o a) : (giveBlock h b q o).mem a = h.mem a := by
  simp only [OwnWord, not_or, not_exists, not_and] at ha
  obtain ⟨⟨h0, h4, -, h12⟩, hslot⟩ := ha
  obtain ⟨hb0, -, hb8⟩ := hslot b hb
  have hcount := hlayout.length_le
  have hnb := (class_bounds ho).2.2.2.2
  have hn : add32 (h.mem (q + 12)) 1 = chain.length + 1 := by
    rw [hlayout.nfree, add32_of_lt (by omega)]
  have hz : chain.length + 1 = 1 → h.mem q = 0 := fun h1 =>
    hlayout.unlinked (List.eq_nil_of_length_eq_zero (by omega))
  rw [giveBlock_mem (hb.bounds ho).1 hn hz, if_neg (fun h => h0 h.1), if_neg h12, if_neg h4,
    if_neg hb8, if_neg hb0]

theorem format_grows (v : View) (ho : o < 8) (hq : h.kmallocEnd ≤ q)
    (hnew : q ∉ h.pages) (he : q + 4096 ≤ e) :
    Grows h v (formatPage { h with kmallocEnd := e } o q) (v.addPage o q) := by
  have hout := (formatPage_layout { h with kmallocEnd := e } (q := q) ho).2
  refine ⟨rfl, rfl, (show h.kmallocEnd ≤ e by omega), ?_, ?_, fun a ha _ => hout a (by omega),
    fun a ha => hout a (Or.inr (he.trans ha))⟩
  · intro r hr
    rcases List.mem_cons.mp hr with rfl | hr
    · exact Or.inr hq
    · exact Or.inl hr
  · intro r hr
    refine ⟨List.mem_cons_of_mem _ hr, ?_⟩
    have hne : r ≠ q := by
      rintro rfl
      exact hnew hr
    simp [View.addPage, hne]

theorem kmallocTries_succ (h : Heap) (o size tries : ℕ) : kmallocTries h o size (tries + 1) =
    if (h.sizes o).firstfree ≠ 0 ∧ h.mem ((h.sizes o).firstfree + 4) ≠ 0 then
      if h.mem (h.mem ((h.sizes o).firstfree + 4)) = mfFree then
        (.block (h.mem ((h.sizes o).firstfree + 4) + headerSize),
          takeBlock h o (h.sizes o).firstfree (h.mem ((h.sizes o).firstfree + 4)) size)
      else (.notFree, h)
    else if roundEnd h.kmallocEnd = 0 then
      (.noPage, { h with kmallocEnd := add32 (roundEnd h.kmallocEnd) pageSize })
    else kmallocTries (formatPage { h with kmallocEnd := add32 (roundEnd h.kmallocEnd) pageSize } o
      (roundEnd h.kmallocEnd)) o size tries := rfl

theorem tries_take (hh : Holds h v live)
    (ho : o < 8) (hsize : getOrder size = some o) (ha : v.avail o ≠ []) (tries : ℕ) :
    ∃ p h' v', kmallocTries h o size (tries + 1) = (.block p, h') ∧
      Holds h' v' ((p, size) :: live) ∧ Grows h v h' v' ∧ h'.kmallocEnd = h.kmallocEnd := by
  obtain ⟨q, rest, hav⟩ := List.exists_cons_of_ne_nil ha
  obtain ⟨hq, hqo, hne⟩ := (hh.avail o ho q).mp (by simp [hav])
  obtain ⟨b, bs, hc⟩ := List.exists_cons_of_ne_nil hne
  have hpage := hh.page q hq
  have hlinks := hpage.links
  have hqueue := hh.queue o ho
  rw [hc] at hlinks
  rw [hav] at hqueue
  have hfirst : h.mem (q + 4) = b := hlinks.1
  refine ⟨b + headerSize, takeBlock h o q b size, _, ?_, hh.take ho hav hc hsize, ?_, rfl⟩
  · have hfree : h.mem b = mfFree := hpage.free b (by simp [hc])
    have hguard : q ≠ 0 ∧ h.mem (q + 4) ≠ 0 := ⟨hqueue.2.1, by rw [hfirst]; exact hlinks.2.1⟩
    rw [kmallocTries_succ, hqueue.1, if_pos hguard, hfirst, if_pos hfree]
  · subst hqo
    exact hh.grows_of_page hq _ _ _ (fun a ha => takeBlock_foreign (hpage.slots b (by simp [hc])) ha)

theorem roundEnd_of_aligned (hpos : 0 < e) (hal : e % 4096 = 0) (hlt : e + 0x1000 < 2 ^ 32) :
    roundEnd e = e + 4096 := by
  unfold roundEnd pageSize
  rw [if_pos (by omega), add32_of_lt (by omega)]
  omega

theorem tries_end_le (h : Heap) (o size tries : ℕ) :
    (kmallocTries h o size tries).2.kmallocEnd ≤ h.kmallocEnd + 0x2000 * tries := by
  induction tries generalizing h with
  | zero => simp [kmallocTries]
  | succ tries ih =>
    have hround : add32 (roundEnd h.kmallocEnd) pageSize ≤ h.kmallocEnd + 0x2000 := by
      unfold add32 roundEnd add32 pageSize
      split_ifs <;> omega
    rw [kmallocTries_succ]
    split_ifs with hguard hfree hpage
    · change h.kmallocEnd ≤ _
      omega
    · change h.kmallocEnd ≤ _
      omega
    · exact hround.trans (by omega)
    · refine (ih _).trans ((Nat.add_le_add_right hround _).trans (by omega))

theorem getOrder_lt (h : getOrder size = some o) :
    o < 8 ∧ size + headerSize ≤ blockSize o := by
  obtain ⟨hlt, hfit, -⟩ := List.findIdx?_eq_some_iff_getElem.mp h
  refine ⟨hlt, ?_⟩
  rw [blockSize, List.getD_eq_getElem _ _ hlt]
  simpa using hfit

theorem getOrder_isSome (h : size ≤ 4068) : ∃ o, getOrder size = some o := by
  refine Option.isSome_iff_exists.mp ?_
  rw [getOrder, List.findIdx?_isSome]
  refine List.any_eq_true.mpr ⟨4080, by decide, ?_⟩
  rw [decide_eq_true_eq, headerSize]
  omega

theorem kmallocBlock_eq (h : Heap) (hsize : getOrder size = some o) :
    kmallocBlock h size = kmallocTries h o size 3 := by
  rw [kmallocBlock, hsize]

theorem Holds.end_pos (hh : Holds h v live) :
    0 < h.kmallocEnd := by
  have := hh.started
  have := hh.drawn
  omega

theorem kmallocBlock_room (hh : Holds h v live) (hsize : getOrder size = some o)
    (hroom : v.avail o = [] → h.kmallocEnd + 0x2000 < 2 ^ 32) :
    ∃ p h' v', kmallocBlock h size = (.block p, h') ∧ Holds h' v' ((p, size) :: live) ∧
      Grows h v h' v' ∧ h'.kmallocEnd ≤ h.kmallocEnd + 0x2000 := by
  obtain ⟨ho, -⟩ := getOrder_lt hsize
  rw [kmallocBlock_eq h hsize]
  by_cases ha : v.avail o = []
  · have hfirst : (h.sizes o).firstfree = 0 := ((hh.queue o ho).eq_null_iff).mpr ha
    have hlt := hroom ha
    have hround := roundEnd_of_aligned hh.end_pos hh.endAligned (by omega)
    have hnext : add32 (roundEnd h.kmallocEnd) pageSize = h.kmallocEnd + 0x2000 := by
      unfold pageSize
      rw [hround, add32_of_lt (by omega)]
    rw [kmallocTries_succ, if_neg (by simp [hfirst]), hnext, hround, if_neg (by omega)]
    have hformat := hh.format ho (q := h.kmallocEnd + 4096) rfl rfl hlt
    have hnew : h.kmallocEnd + 4096 ∉ h.pages := by
      intro hmem
      have := (hh.inside _ hmem).2
      omega
    obtain ⟨p, h', v', htries, hh', hg, hend⟩ :=
      tries_take hformat ho hsize (by simp [View.addPage]) 1
    exact ⟨p, h', v', htries, hh', (format_grows v ho (by omega) hnew (by omega)).trans hg, hend.le⟩
  · obtain ⟨p, h', v', htries, hh', hg, hend⟩ := tries_take hh ho hsize ha 2
    exact ⟨p, h', v', htries, hh', hg, by omega⟩

theorem kmallocBlock_spec (hh : Holds h v live) (hsize : getOrder size = some o)
    (hwrap : h.kmallocEnd ≤ (kmallocBlock h size).2.kmallocEnd) :
    ∃ p h' v', kmallocBlock h size = (.block p, h') ∧ Holds h' v' ((p, size) :: live) ∧
      Grows h v h' v' ∧ h'.kmallocEnd ≤ h.kmallocEnd + 0x2000 := by
  refine kmallocBlock_room hh hsize (fun ha => ?_)
  obtain ⟨ho, -⟩ := getOrder_lt hsize
  have hfirst : (h.sizes o).firstfree = 0 := ((hh.queue o ho).eq_null_iff).mpr ha
  have hal := hh.endAligned
  have hbound := hh.endBound
  have hpos := hh.end_pos
  rw [kmallocBlock_eq h hsize, kmallocTries_succ, if_neg (by simp [hfirst])] at hwrap
  by_contra hfull
  split_ifs at hwrap with hpage
  · change h.kmallocEnd ≤ add32 (roundEnd h.kmallocEnd) pageSize at hwrap
    rw [hpage] at hwrap
    unfold add32 pageSize at hwrap
    omega
  · have hend := hwrap.trans (tries_end_le _ o size 2)
    change h.kmallocEnd ≤ add32 (roundEnd h.kmallocEnd) pageSize + 0x2000 * 2 at hend
    unfold add32 roundEnd add32 pageSize at hend
    split_ifs at hend <;> omega

end Bingos.Kmalloc
