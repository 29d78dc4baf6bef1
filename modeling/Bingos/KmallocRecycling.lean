import Bingos.KmallocHuge

set_option autoImplicit false

/-! When the reuse of huge blocks is safe. -/
namespace Bingos.Kmalloc
open MachineWords PointerChains DisjointRanges StepRuns

def Queued (h : Heap) (b : ℕ) : Prop :=
  ∃ nodes, Chain 0 (fun n => h.mem (n + 4)) (h.mem h.hugeQueue) nodes ∧
    ∃ n ∈ nodes, h.mem (n + 8) = b

variable {h : Heap} {extents huge small : List (ℕ × ℕ)} {nodes : List ℕ} {v : View}
  {size : ℕ}

theorem QueueHeap.queued_iff (hh : QueueHeap h v nodes small extents) (b : ℕ) :
    Queued h b ↔ ∃ n ∈ nodes, h.mem (n + 8) = b := by
  constructor
  · rintro ⟨nodes', hchain, hb⟩
    rwa [hchain.unique hh.queue.next] at hb
  · intro hb
    exact ⟨nodes, hh.queue.next, hb⟩

structure HugeSystem where
  heap : Heap
  small : List (ℕ × ℕ)
  huge : List (ℕ × ℕ)

variable {s : HugeSystem}

/-- A request for a huge block ends well: the block is large enough, overlaps
no block in use and is off the queue, where all other freed blocks stay. -/
def Recycles (s : HugeSystem) (size : ℕ) (out : Outcome × Heap) : Prop :=
  ∃ p h, out = (.block p, h) ∧ size ≤ h.mem (p - pageSize + 8) ∧
    (∀ x ∈ s.small ++ s.huge, Apart (p, h.mem (p - pageSize + 8)) x) ∧
    ¬ Queued h (p - pageSize) ∧ ∀ b, Queued s.heap b → b ≠ p - pageSize → Queued h b

/-- On a queue that is not empty, the last block, freed first, is large enough
and no other one is. -/
def OnlyLastFits (h : Heap) (size : ℕ) : Prop :=
  ∀ pre n, Chain 0 (fun n => h.mem (n + 4)) (h.mem h.hugeQueue) (pre ++ [n]) →
    size ≤ h.mem (h.mem (n + 8) + 8) ∧ ∀ x ∈ pre, h.mem (h.mem (x + 8) + 8) < size

def FreshRoom (h : Heap) (size : ℕ) : Prop :=
  h.mem h.hugeQueue = 0 → size + hugeHeaderSize < 2 ^ 32 ∧
    h.kmallocEnd + (hugePages size + 1) * pageSize < 2 ^ 32

theorem QueueHeap.block_apart (hh : QueueHeap h v nodes small extents) {e : ℕ × ℕ}
    (he : e ∈ extents) (hhuge : ∀ x ∈ huge, ∃ e' ∈ extents, e' ≠ e ∧ x.1 = e'.1 + pageSize ∧
      x.2 ≤ (e'.2 - 1) * 4096) :
    ∀ x ∈ small ++ huge, Apart (e.1 + pageSize, (e.2 - 1) * 4096) x := by
  have hpages := (hh.extent e he).pages
  intro x hx
  rcases List.mem_append.mp hx with hx | hx
  · have hap := hh.extent_off_live he (List.mem_append_right _ hx)
    unfold Apart span pageSize at *
    simp only at *
    omega
  · obtain ⟨e', he', hne, hxe, hfit⟩ := hhuge x hx
    have hap := hh.extents_apart he he' hne.symm
    have hpages' := (hh.extent e' he').pages
    unfold Apart span pageSize at *
    simp only at *
    omega

theorem QueueHeap.recycle {pre : List ℕ} {n : ℕ} (hh : QueueHeap h v (pre ++ [n]) small extents)
    (hsize : 4080 < size) :
    ∃ h' v', kmalloc h size = (.block (h.mem (n + 8) + pageSize), h') ∧
      QueueHeap h' v' ((pre ++ [n]).filter (tooSmall h size)) small extents ∧
      ∀ y ∈ (pre ++ [n]).filter (tooSmall h size), h'.mem (y + 8) = h.mem (y + 8) := by
  obtain ⟨h', v', hscan, hq, hvalue, -⟩ := hh.scan size
  obtain ⟨x, hx, hval⟩ := hh.values n (by simp)
  obtain ⟨-, habove, hinside, hpages, -, -⟩ := hh.extent x hx
  have hbound := hh.holds.endBound
  refine ⟨h', v', ?_, hq, hvalue⟩
  rw [kmalloc_huge hh.holds.started hsize, kmallocHuge, hscan]
  simp only [List.getLast?_concat, Option.map_some, Option.getD_some]
  rw [if_pos (by omega), add32_of_lt (by unfold pageSize; omega)]

theorem HugeHeap.values_nodup (hh : HugeHeap h v nodes small huge extents) :
    (nodes.map (fun n => h.mem (n + 8))).Nodup ∧
    ∀ n ∈ nodes, h.mem (n + 8) ∉ huge.map headerOf := by
  have hnodup := hh.owned.nodup_iff.mpr hh.headers_nodup
  obtain ⟨hvalues, -, hdisjoint⟩ := List.nodup_append.mp hnodup
  refine ⟨hvalues, fun n hn hmem => ?_⟩
  exact hdisjoint _ (List.mem_map.mpr ⟨n, hn, rfl⟩) _ hmem rfl

theorem recycles_fresh (hh : HugeHeap s.heap v [] s.small s.huge extents) (hsize : 4080 < size)
    (hroom : FreshRoom s.heap size) : Recycles s size (kmalloc s.heap size) := by
  obtain ⟨hbound, hlt⟩ := hroom hh.queue.next
  obtain ⟨hk, hh'⟩ := hh.fresh hsize hbound hlt
  obtain ⟨e, he⟩ : ∃ e, e = (s.heap.kmallocEnd + pageSize, hugePages size) := ⟨_, rfl⟩
  rw [← he] at hh'
  have hext := hh'.extent e (by simp)
  have hheader : s.heap.kmallocEnd + 2 * pageSize - pageSize = e.1 := by
    rw [he]
    simp only
    omega
  have hfit := (hh'.fits (s.heap.kmallocEnd + 2 * pageSize, size) (by simp)).2
  refine ⟨_, _, hk, hfit, ?_, ?_, ?_⟩
  · rw [hheader, hext.size, show s.heap.kmallocEnd + 2 * pageSize = e.1 + pageSize by omega]
    refine hh'.block_apart (by simp) (fun x hx => ?_)
    obtain ⟨e', he', hxe, hle⟩ := hh.huge_extent hx
    refine ⟨e', by simp [he'], ?_, hxe, hle⟩
    rintro rfl
    have hin := (hh.extent e' he').inside
    rw [he] at hin
    unfold pageSize at hin
    simp only at hin
    omega
  · rw [hh'.queued_iff]
    simp
  · intro b hb
    rw [hh.queued_iff] at hb
    simp at hb

theorem recycles_iff (hh : HugeHeap s.heap v nodes s.small s.huge extents) (hsize : 4080 < size)
    (hroom : FreshRoom s.heap size) :
    Recycles s size (kmalloc s.heap size) ↔ OnlyLastFits s.heap size := by
  rcases List.eq_nil_or_concat nodes with rfl | ⟨pre, n, hnodes⟩
  · refine ⟨fun _ pre n hchain => ?_, fun _ => recycles_fresh hh hsize hroom⟩
    exact absurd (hchain.unique hh.queue.next) (by simp)
  · rw [List.concat_eq_append] at hnodes
    subst hnodes
    obtain ⟨h', v', hk, hq, hvalue⟩ := hh.recycle hsize
    obtain ⟨hnodup, hheld⟩ := hh.values_nodup
    obtain ⟨e, he, hval⟩ := hh.values n (by simp)
    have hsz : h'.mem (s.heap.mem (n + 8) + 8) = s.heap.mem (s.heap.mem (n + 8) + 8) :=
      hh.size_eq hq (by simp)
    have hlast : ∀ x ∈ pre, s.heap.mem (x + 8) ≠ s.heap.mem (n + 8) := by
      rw [List.map_append, List.nodup_append] at hnodup
      exact fun x hx => hnodup.2.2 _ (List.mem_map.mpr ⟨x, hx, rfl⟩) _ (by simp)
    have hqueued : ∀ b, Queued h' b ↔ ∃ x ∈ pre ++ [n], tooSmall s.heap size x = true ∧
        s.heap.mem (x + 8) = b := by
      intro b
      rw [hq.queued_iff]
      constructor
      · rintro ⟨x, hx, hb⟩
        rw [hvalue x hx] at hb
        exact ⟨x, (List.mem_filter.mp hx).1, (List.mem_filter.mp hx).2, hb⟩
      · rintro ⟨x, hx, hsmall, hb⟩
        have hmem := List.mem_filter.mpr ⟨hx, hsmall⟩
        exact ⟨x, hmem, (hvalue x hmem).trans hb⟩
    rw [hk]
    constructor
    · rintro ⟨p, h'', hout, hfit, -, -, hstay⟩ pre' n' hchain
      obtain ⟨hp, rfl⟩ := Prod.mk.inj hout
      obtain rfl := Outcome.block.inj hp
      obtain ⟨rfl, hn⟩ := List.append_inj' (hchain.unique hh.queue.next) rfl
      obtain rfl : n' = n := by simpa using hn
      rw [Nat.add_sub_cancel] at hfit hstay
      refine ⟨hfit.trans hsz.le, fun x hx => ?_⟩
      have hin : Queued s.heap (s.heap.mem (x + 8)) :=
        (hh.queued_iff _).mpr ⟨x, by simp [hx], rfl⟩
      obtain ⟨y, hy, hsmall, hxy⟩ := (hqueued _).mp (hstay _ hin (hlast x hx))
      rw [tooSmall, hxy] at hsmall
      simpa using hsmall
    · intro honly
      obtain ⟨hfit, hrest⟩ := honly pre n hh.queue.next
      refine ⟨_, h', rfl, ?_, ?_, ?_, ?_⟩
      · rw [Nat.add_sub_cancel, hsz]
        exact hfit
      · rw [Nat.add_sub_cancel, hval, (hq.extent e he).size]
        refine hq.block_apart he (fun x hx => ?_)
        obtain ⟨e', he', hxe, hle⟩ := hh.huge_extent hx
        refine ⟨e', he', ?_, hxe, hle⟩
        rintro rfl
        refine hheld n (by simp) (List.mem_map.mpr ⟨x, hx, ?_⟩)
        rw [headerOf, hxe, Nat.add_sub_cancel, hval]
      · rw [Nat.add_sub_cancel, hqueued]
        rintro ⟨x, hx, hsmall, hxn⟩
        rw [tooSmall, hxn, decide_eq_true_eq] at hsmall
        omega
      · intro b hb hne
        rw [Nat.add_sub_cancel] at hne
        obtain ⟨x, hx, hxb⟩ := (hh.queued_iff b).mp hb
        refine (hqueued b).mpr ⟨x, hx, ?_, hxb⟩
        have hxpre : x ∈ pre := by
          rcases List.mem_append.mp hx with hx | hx
          · exact hx
          · obtain rfl : x = n := by simpa using hx
            exact absurd hxb.symm hne
        simpa [tooSmall] using hrest x hxpre

theorem HugeHeap.malloc_huge (hh : HugeHeap s.heap v nodes s.small s.huge extents)
    (hsize : 4080 < size) (hroom : FreshRoom s.heap size) (honly : OnlyLastFits s.heap size) :
    ∃ p h' v' nodes' extents', kmalloc s.heap size = (.block p, h') ∧
      HugeHeap h' v' nodes' s.small ((p, size) :: s.huge) extents' := by
  rcases List.eq_nil_or_concat nodes with rfl | ⟨pre, n, hnodes⟩
  · obtain ⟨hbound, hlt⟩ := hroom hh.queue.next
    obtain ⟨hk, hh'⟩ := hh.fresh hsize hbound hlt
    exact ⟨_, _, v, [], _, hk, hh'⟩
  · rw [List.concat_eq_append] at hnodes
    subst hnodes
    obtain ⟨h', v', hk, hq, hvalue⟩ := hh.recycle hsize
    obtain ⟨hfit, hrest⟩ := honly pre n hh.queue.next
    have hfilter : (pre ++ [n]).filter (tooSmall s.heap size) = pre := by
      rw [List.filter_append, List.filter_eq_self.mpr (fun x hx => by simpa [tooSmall] using hrest x hx),
        List.filter_eq_nil_iff.mpr (fun x hx => ?_), List.append_nil]
      obtain rfl : x = n := by simpa using hx
      simpa [tooSmall] using hfit
    rw [hfilter] at hq hvalue
    obtain ⟨e, he, hval⟩ := hh.values n (by simp)
    have hheader : headerOf (s.heap.mem (n + 8) + pageSize, size) = s.heap.mem (n + 8) := by
      rw [headerOf, Nat.add_sub_cancel]
    refine ⟨_, h', v', pre, extents, hk, { hq with owned := ?_, fits := fun x hx => ?_ }⟩
    · rw [List.map_congr_left hvalue, List.map_cons, hheader]
      refine List.Perm.trans ?_ hh.owned
      rw [List.map_append, List.append_assoc]
      exact List.Perm.refl _
    · rcases List.mem_cons.mp hx with rfl | hx
      · refine ⟨by simp only; omega, ?_⟩
        rw [hheader, hval, (hq.extent e he).size, ← (hh.extent e he).size, ← hval]
        exact hfit
      · obtain ⟨e', he', hxe, hle⟩ := hh.huge_extent hx
        refine ⟨(hh.fits x hx).1, ?_⟩
        rw [headerOf, hxe, Nat.add_sub_cancel, (hq.extent e' he').size]
        exact hle

theorem QueueHeap.store (hh : QueueHeap h v nodes small extents) {a w : ℕ}
    (hown : ∀ q ∈ h.pages, ¬ OwnWord q (v.order q) a)
    (hqueue : ∀ y ∈ queueBlocks h.hugeQueue nodes, a < y.1 ∨ y.1 + y.2 ≤ a)
    (hext : ∀ e ∈ extents, a ≠ e.1 + 8 ∧ a ≠ e.1 + 12) :
    QueueHeap { h with mem := store h.mem a w } v nodes small extents ∧
    ∀ n ∈ nodes, store h.mem a w (n + 8) = h.mem (n + 8) := by
  have hkeep : ∀ b, b ≠ a → Kmalloc.store h.mem a w b = h.mem b := by
    intro b hne
    rw [store_apply, if_neg hne]
  have hlist := hqueue (h.hugeQueue, 12) (mem_queueBlocks.mpr (Or.inl rfl))
  have hnode : ∀ n ∈ nodes, a < n ∨ n + 12 ≤ a :=
    fun n hn => hqueue (n, 12) (mem_queueBlocks.mpr (Or.inr ⟨n, hn, rfl⟩))
  simp only at hlist
  have hvalue : ∀ n ∈ nodes, Kmalloc.store h.mem a w (n + 8) = h.mem (n + 8) := by
    intro n hn
    have := hnode n hn
    exact hkeep _ (by omega)
  refine ⟨⟨hh.holds.write (fun q hq b hb => hkeep b ?_), ?_, ?_, hh.apart, hh.offPages, ?_⟩, hvalue⟩
  · rintro rfl
    exact hown q hq hb
  · refine hh.queue.congr ⟨hkeep _ (by omega), hkeep _ (by omega)⟩ (fun n hn => ?_)
    have := hnode n hn
    exact ⟨hkeep _ (by omega), hkeep _ (by omega)⟩
  · intro e he
    obtain ⟨h1, h2, h3, h4, h5, h6⟩ := hh.extent e he
    obtain ⟨h8, h12⟩ := hext e he
    exact ⟨h1, h2, h3, h4, (hkeep _ h8.symm).trans h5, (hkeep _ h12.symm).trans h6⟩
  · intro n hn
    obtain ⟨e, he, heq⟩ := hh.values n hn
    exact ⟨e, he, (hvalue n hn).trans heq⟩

theorem HugeHeap.store (hh : HugeHeap h v nodes small huge extents) {x : ℕ × ℕ}
    (hx : x ∈ small ++ huge) {a w : ℕ} (hlo : x.1 ≤ a) (hhi : a < x.1 + x.2) :
    HugeHeap { h with mem := store h.mem a w } v nodes small huge extents := by
  have hquiet : (∀ q ∈ h.pages, ¬ OwnWord q (v.order q) a) ∧
      (∀ y ∈ queueBlocks h.hugeQueue nodes, a < y.1 ∨ y.1 + y.2 ≤ a) ∧
      ∀ e ∈ extents, a ≠ e.1 + 8 ∧ a ≠ e.1 + 12 := by
    rcases List.mem_append.mp hx with hx | hx
    · have hlive := List.mem_append_right (queueBlocks h.hugeQueue nodes) hx
      refine ⟨hh.holds.live_foreign hlive hlo hhi, fun y hy => ?_, fun e he => ?_⟩
      · have hap := (List.pairwise_append.mp hh.holds.sound.apart).2.2 y hy x hx
        unfold Apart at hap
        omega
      · have hap := hh.extent_off_live he hlive
        have hpages := (hh.extent e he).pages
        unfold Apart span at hap
        simp only at hap
        omega
    · obtain ⟨e, he, hxe, hfit⟩ := hh.huge_extent hx
      have hpages := (hh.extent e he).pages
      unfold pageSize at hxe
      refine ⟨hh.extent_foreign he (by omega) (by omega), fun y hy => ?_, fun e' he' => ?_⟩
      · have hap := hh.extent_off_live he (List.mem_append_left _ hy)
        unfold Apart span at hap
        simp only at hap
        omega
      · by_cases hee : e' = e
        · subst hee
          omega
        · have hap := hh.extents_apart he he' (Ne.symm hee)
          have hpages' := (hh.extent e' he').pages
          unfold Apart span at hap
          simp only at hap
          omega
  obtain ⟨hq, hvalue⟩ := hh.toQueueHeap.store (w := w) hquiet.1 hquiet.2.1 hquiet.2.2
  exact hh.transfer hq hvalue

/-- A call of `kmalloc` or of `kfree` on a block in use, or a write of a caller
into one. -/
inductive HugeStep (s : HugeSystem) : Event → HugeSystem → Prop where
  | malloc {size p : ℕ} {h : Heap} (hsize : size ≤ 4080)
      (hcall : kmalloc s.heap size = (.block p, h)) :
      HugeStep s (.malloc size (.block p)) ⟨h, (p, size) :: s.small, s.huge⟩
  | mallocHuge {size p : ℕ} {h : Heap} (hsize : 4080 < size)
      (hcall : kmalloc s.heap size = (.block p, h)) :
      HugeStep s (.malloc size (.block p)) ⟨h, s.small, (p, size) :: s.huge⟩
  | fail {size : ℕ} {r : Outcome} {h : Heap} (hfail : ∀ p, r ≠ .block p)
      (hcall : kmalloc s.heap size = (r, h)) : HugeStep s (.malloc size r) { s with heap := h }
  | free {p size : ℕ} {h : Heap} (hlive : (p, size) ∈ s.small) (hcall : kfree s.heap p = some h) :
      HugeStep s (.free p) ⟨h, s.small.erase (p, size), s.huge⟩
  | freeHuge {p size : ℕ} {h : Heap} (hlive : (p, size) ∈ s.huge)
      (hcall : kfree s.heap p = some h) :
      HugeStep s (.free p) ⟨h, s.small, s.huge.erase (p, size)⟩
  | store {a w : ℕ} {x : ℕ × ℕ} (hlive : x ∈ s.small ++ s.huge) (hlo : x.1 ≤ a)
      (hhi : a < x.1 + x.2) :
      HugeStep s (.store a w) ⟨{ s.heap with mem := store s.heap.mem a w }, s.small, s.huge⟩

/-- A page can be drawn for the order, should none have a free block. -/
def BlockRoom (h : Heap) (o : ℕ) : Prop :=
  (h.sizes o).firstfree = 0 → h.kmallocEnd + 0x2000 < 2 ^ 32

/-- What a call must meet: small requests have a size class, huge ones find
only the last queued block large enough, a freed huge block does not look like
a small one, and there is room for the pages drawn. -/
def Meets (s : HugeSystem) : Event → Prop
  | .malloc size _ =>
    if size ≤ 4080 then ∃ o, getOrder size = some o ∧ BlockRoom s.heap o
    else FreshRoom s.heap size ∧ OnlyLastFits s.heap size
  | .free p => p ∈ s.huge.map Prod.fst → s.heap.mem (p - 8) ≠ blockMagic ∧ BlockRoom s.heap 0
  | .store _ _ => True

def Invariant (s : HugeSystem) : Prop :=
  ∃ v nodes extents, HugeHeap s.heap v nodes s.small s.huge extents

theorem Invariant.malloc (hs : Invariant s) {r : Outcome}
    (hm : Meets s (.malloc size r)) : ∃ p h, kmalloc s.heap size = (.block p, h) ∧
      (size ≤ 4080 → Invariant ⟨h, (p, size) :: s.small, s.huge⟩) ∧
      (4080 < size → Invariant ⟨h, s.small, (p, size) :: s.huge⟩) := by
  obtain ⟨v, nodes, extents, hh⟩ := hs
  simp only [Meets] at hm
  split_ifs at hm with hsize
  · obtain ⟨o, ho, hroom⟩ := hm
    obtain ⟨p, h, v', hk, hq, hvalue, -⟩ := hh.malloc_small ho hroom
    rw [← kmalloc_small hh.holds.started hsize] at hk
    exact ⟨p, h, hk, fun _ => ⟨v', nodes, extents, hh.transfer hq hvalue⟩, fun hlt => by omega⟩
  · obtain ⟨p, h, v', nodes', extents', hk, hh'⟩ := hh.malloc_huge (by omega) hm.1 hm.2
    exact ⟨p, h, hk, fun hle => absurd hle hsize, fun _ => ⟨v', nodes', extents', hh'⟩⟩

theorem Invariant.step {t : HugeSystem} {e : Event} (hs : Invariant s)
    (hstep : Guarded Meets HugeStep s e t) : Invariant t := by
  obtain ⟨hmeets, hstep⟩ := hstep
  cases hstep with
  | malloc hsize hcall =>
    obtain ⟨p, h, hk, hsmall, -⟩ := hs.malloc hmeets
    rw [hcall] at hk
    obtain ⟨hp, rfl⟩ := Prod.mk.inj hk
    obtain rfl := Outcome.block.inj hp
    exact hsmall hsize
  | mallocHuge hsize hcall =>
    obtain ⟨p, h, hk, -, hhuge⟩ := hs.malloc hmeets
    rw [hcall] at hk
    obtain ⟨hp, rfl⟩ := Prod.mk.inj hk
    obtain rfl := Outcome.block.inj hp
    exact hhuge hsize
  | fail hfail hcall =>
    obtain ⟨p, h, hk, -⟩ := hs.malloc hmeets
    rw [hcall] at hk
    exact absurd (Prod.mk.inj hk).1 (hfail p)
  | free hlive hcall =>
    obtain ⟨v, nodes, extents, hh⟩ := hs
    obtain ⟨h, v', hk, hq, hvalue, -⟩ := hh.free_small hlive
    rw [hcall] at hk
    obtain rfl := Option.some.inj hk
    exact ⟨v', nodes, extents, hh.transfer hq hvalue⟩
  | freeHuge hlive hcall =>
    obtain ⟨v, nodes, extents, hh⟩ := hs
    obtain ⟨hword, hroom⟩ := hmeets (List.mem_map.mpr ⟨_, hlive, rfl⟩)
    obtain ⟨n, h, v', hk, -, hh'⟩ := hh.free_huge hlive hword hroom
    rw [hcall] at hk
    obtain rfl := Option.some.inj hk
    exact ⟨v', n :: nodes, extents, hh'⟩
  | store hlive hlo hhi =>
    obtain ⟨v, nodes, extents, hh⟩ := hs
    exact ⟨v, nodes, extents, hh.store hlive hlo hhi⟩

theorem HugeHeap.live_apart (hh : HugeHeap h v nodes small huge extents) :
    (small ++ huge).Pairwise Apart := by
  have hnodup := (List.nodup_append.mp (hh.owned.nodup_iff.mpr hh.headers_nodup)).2.1
  refine List.pairwise_append.mpr ⟨?_, ?_, ?_⟩
  · exact (List.pairwise_append.mp hh.holds.sound.apart).2.1
  · refine (List.pairwise_map.mp hnodup).imp_of_mem (fun {x y} hx hy hxy => ?_)
    obtain ⟨e, he, hxe, hfit⟩ := hh.huge_extent hx
    obtain ⟨e', he', hye, hfit'⟩ := hh.huge_extent hy
    have hne : e ≠ e' := by
      rintro rfl
      exact hxy (by rw [headerOf, headerOf, hxe, hye])
    have hap := hh.extents_apart he he' hne
    have h1 := (hh.extent e he).pages
    have h2 := (hh.extent e' he').pages
    unfold Apart span pageSize at *
    simp only at hap
    omega
  · intro x hx y hy
    obtain ⟨e, he, hye, hfit⟩ := hh.huge_extent hy
    have hap := hh.extent_off_live he (List.mem_append_right _ hx)
    have h1 := (hh.extent e he).pages
    unfold Apart span pageSize at *
    simp only at hap
    omega

theorem kmallocInit_invariant {m : Mem} {start : ℕ} (hal : start % 4096 = 0) (hpos : 0 < start)
    (hlt : start < 2 ^ 32) (hboot : kmallocInit m start = some h)
    (hend : start ≤ h.kmallocEnd) : ∃ v, HugeHeap h v [] [] [] [] := by
  obtain ⟨v, hh, hhead, htail⟩ := kmallocInit_holds hal hpos hlt hboot hend
  refine ⟨v, ⟨⟨hh, ⟨hhead, htail, nofun, nofun⟩, nofun, List.Pairwise.nil, nofun, nofun⟩,
    List.Perm.refl _, nofun⟩⟩

/-- In every run of calls that meet the condition all blocks in use are
disjoint, a freed huge block is put on the queue, and a request for a huge
block ends well exactly when only the last queued block fits. -/
theorem huge_recycling {m : Mem} {start : ℕ} (hal : start % 4096 = 0) (hpos : 0 < start)
    (hlt : start < 2 ^ 32) {h₀ : Heap} (hboot : kmallocInit m start = some h₀)
    (hend : start ≤ h₀.kmallocEnd) {es : List Event} {s : HugeSystem}
    (hrun : Reach (Guarded Meets HugeStep) ⟨h₀, [], []⟩ es s) :
    (s.small ++ s.huge).Pairwise Apart ∧
    (∀ size, 4080 < size → FreshRoom s.heap size →
      (Recycles s size (kmalloc s.heap size) ↔ OnlyLastFits s.heap size)) ∧
    ∀ p ∈ s.huge.map Prod.fst, Meets s (.free p) →
      ∃ h, kfree s.heap p = some h ∧ Queued h (p - pageSize) := by
  obtain ⟨v, nodes, extents, hh⟩ : Invariant s :=
    hrun.invariant (fun _ s => Invariant s)
      ((kmallocInit_invariant hal hpos hlt hboot hend).imp fun _ h => ⟨[], [], h⟩)
      (fun _ _ _ _ _ hs hstep => hs.step hstep)
  refine ⟨hh.live_apart, fun size hsize hroom => recycles_iff hh hsize hroom, ?_⟩
  intro p hp hmeets
  obtain ⟨x, hx, rfl⟩ := List.mem_map.mp hp
  obtain ⟨hword, hroom⟩ := hmeets hp
  obtain ⟨n, h, v', hk, hval, hh'⟩ := hh.free_huge hx hword hroom
  exact ⟨h, hk, (hh'.queued_iff _).mpr ⟨n, by simp, hval⟩⟩

theorem recycling_start : ∃ h₀ s p, kmallocInit (fun _ => 0) 0xc0000000 = some h₀ ∧
    0xc0000000 ≤ h₀.kmallocEnd ∧
    Reach (Guarded Meets HugeStep) ⟨h₀, [], []⟩ [.malloc 5000 (.block p), .free p] s ∧
    ∃ v n e, HugeHeap s.heap v [n] s.small s.huge [e] ∧ e.2 = 3 ∧ s.heap.mem (n + 8) = e.1 := by
  have hal : 0xc0000000 % 4096 = 0 := by decide
  have hpos : 0 < 0xc0000000 := by decide
  obtain ⟨h₀, hboot, hend, hle, habove, -⟩ := kmallocInit_room (fun _ => 0) hal hpos (by decide)
  obtain ⟨v, hh⟩ := kmallocInit_invariant hal hpos (by decide) hboot hend
  have hpages : hugePages 5000 = 3 := by decide
  have hbound : 5000 + hugeHeaderSize < 2 ^ 32 := by decide
  have hroom : h₀.kmallocEnd + (hugePages 5000 + 1) * pageSize < 2 ^ 32 := by
    rw [hpages]
    unfold pageSize
    omega
  obtain ⟨hk, hh₁⟩ := hh.fresh (by decide) hbound hroom
  obtain ⟨p, hp⟩ : ∃ p, p = h₀.kmallocEnd + 2 * pageSize := ⟨_, rfl⟩
  rw [← hp] at hk hh₁
  rw [hpages] at hh₁
  unfold pageSize at hp
  have hend₁ : (drawHuge h₀ 5000).kmallocEnd = h₀.kmallocEnd + 4096 + 3 * 4096 := by
    rw [← hpages]
    rfl
  -- the word that tells small blocks from huge ones was never written
  have hword : (drawHuge h₀ 5000).mem (p - 8) ≠ blockMagic := by
    simp only [drawHuge, store_apply]
    rw [if_neg (by omega), if_neg (by omega), habove _ (by omega)]
    decide
  have hblock : BlockRoom (drawHuge h₀ 5000) 0 := by
    intro _
    rw [hend₁]
    omega
  have hlive : (p, 5000) ∈ [(p, 5000)] := List.mem_singleton_self _
  obtain ⟨n, h₂, v₂, hk₂, hval, hh₂⟩ := hh₁.free_huge hlive hword hblock
  rw [List.erase_cons_head] at hh₂
  have hmeets : Meets ⟨h₀, [], []⟩ (.malloc 5000 (.block p)) := by
    simp only [Meets]
    rw [if_neg (by decide)]
    refine ⟨fun _ => ⟨hbound, hroom⟩, fun pre x hchain => ?_⟩
    exact absurd (hchain.unique hh.queue.next) (by simp)
  have hrun : Reach (Guarded Meets HugeStep) ⟨h₀, [], []⟩ [.malloc 5000 (.block p), .free p]
      ⟨h₂, [], []⟩ := by
    have hfirst : Reach (Guarded Meets HugeStep) ⟨h₀, [], []⟩ [.malloc 5000 (.block p)]
        ⟨drawHuge h₀ 5000, [], [(p, 5000)]⟩ :=
      .next .start ⟨hmeets, .mallocHuge (by decide) hk⟩
    have hstep := HugeStep.freeHuge (s := ⟨drawHuge h₀ 5000, [], [(p, 5000)]⟩) hlive hk₂
    rw [List.erase_cons_head] at hstep
    exact hfirst.next ⟨fun _ => ⟨hword, hblock⟩, hstep⟩
  refine ⟨h₀, ⟨h₂, [], []⟩, p, hboot, hend, hrun, v₂, n, _, hh₂, rfl, ?_⟩
  rw [hval]
  unfold pageSize
  simp only
  omega

theorem huge_recycling_once : ∃ h₀ s p, kmallocInit (fun _ => 0) 0xc0000000 = some h₀ ∧
    Reach (Guarded Meets HugeStep) ⟨h₀, [], []⟩ [.malloc 5000 (.block p), .free p] s ∧
    Recycles s 6000 (kmalloc s.heap 6000) := by
  obtain ⟨h₀, s, p, hboot, hend, hrun, v, n, e, hh, he, hval⟩ := recycling_start
  have hiff := (huge_recycling (by decide) (by decide) (by decide) hboot hend hrun).2.1 6000
    (by decide) (fun hempty => absurd (hh.queue.next.eq_null_iff.mp hempty) (by simp))
  refine ⟨h₀, s, p, hboot, hrun, hiff.mpr (fun pre x hchain => ?_)⟩
  have heq : pre ++ [x] = [] ++ [n] := hchain.unique hh.queue.next
  obtain ⟨rfl, hx⟩ := List.append_inj' heq rfl
  obtain rfl : x = n := by simpa using hx
  rw [hval, (hh.extent e (by simp)).size, he]
  exact ⟨by decide, nofun⟩

/-- With a block of 8192 bytes on the queue a request for 10000 bytes returns
that block, too small and still queued. -/
theorem small_block_recycled : ∃ h₀ s p q h, kmallocInit (fun _ => 0) 0xc0000000 = some h₀ ∧
    Reach HugeStep ⟨h₀, [], []⟩ [.malloc 5000 (.block p), .free p] s ∧
    kmalloc s.heap 10000 = (.block q, h) ∧ h.mem (q - pageSize + 8) = 8192 ∧
    Queued h (q - pageSize) ∧ ¬ Recycles s 10000 (kmalloc s.heap 10000) := by
  obtain ⟨h₀, s, p, hboot, -, hrun, v, n, e, hh, he, hval⟩ := recycling_start
  have hsz := (hh.extent e (by simp)).size
  have hqueue : QueueHeap s.heap v ([] ++ [n]) s.small [e] := hh.toQueueHeap
  obtain ⟨h, v', hk, hq, hvalue⟩ := hqueue.recycle (show 4080 < 10000 by decide)
  have hsmall : tooSmall s.heap 10000 n = true := by
    rw [tooSmall, hval, hsz, he]
    decide
  have hfilter : ([] ++ [n]).filter (tooSmall s.heap 10000) = [n] := by simp [hsmall]
  rw [hfilter] at hq hvalue
  refine ⟨h₀, s, p, _, h, hboot, hrun.forget, hk, ?_, ?_, ?_⟩
  · rw [Nat.add_sub_cancel, hval, (hq.extent e (by simp)).size, he]
  · rw [Nat.add_sub_cancel, hq.queued_iff]
    exact ⟨n, by simp, hvalue n (by simp)⟩
  · rw [hk]
    rintro ⟨q, h', hout, hfit, -⟩
    obtain ⟨hp, rfl⟩ := Prod.mk.inj hout
    obtain rfl := Outcome.block.inj hp
    rw [Nat.add_sub_cancel, hval, (hq.extent e (by simp)).size, he] at hfit
    omega

end Bingos.Kmalloc
