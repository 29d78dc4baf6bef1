import Bingos.KmallocSpec
import Bingos.DisjointRanges
import Bingos.StepRuns
import Mathlib.Data.Finset.Union

set_option autoImplicit false

/-! Runs of `kmalloc` and `kfree` on small blocks. -/
namespace Bingos.Kmalloc
open MachineWords PointerChains DisjointRanges StepRuns

variable {h : Heap} {live : List (ℕ × ℕ)} {v : View} {size start : ℕ} {x : ℕ × ℕ}

theorem Holds.payload_foreign (hh : Holds h v live)
    {q b a : ℕ} (hq : q ∈ h.pages) (hb : IsSlot q (v.order q) b) (hlo : b + headerSize ≤ a)
    (hhi : a < b + blockSize (v.order q)) : ∀ r ∈ h.pages, ¬ OwnWord r (v.order r) a := by
  intro r hr how
  have hqb := hb.bounds (hh.order q hq)
  have hrb := how.bounds (hh.order r hr)
  have hrq := hh.page_eq (a := a) hr hq hrb (by omega)
  subst hrq
  unfold headerSize at hlo
  rcases how with how | ⟨c, hc, how⟩
  · omega
  · by_cases hcb : c = b
    · omega
    · rcases hc.apart hb hcb with hap | hap
      · have := (class_bounds (hh.order r hr)).1
        omega
      · omega

theorem Holds.live_foreign (hh : Holds h v live) (hx : x ∈ live) {a : ℕ} (hlo : x.1 ≤ a)
    (hhi : a < x.1 + x.2) :
    ∀ r ∈ h.pages, ¬ OwnWord r (v.order r) a := by
  obtain ⟨q, hq, b, hxb, hb, -, hord, -⟩ := hh.held x hx
  have hfit := (getOrder_lt hord).2
  exact hh.payload_foreign hq hb (by omega) (by omega)

theorem Holds.live_below (hh : Holds h v live) (hx : x ∈ live) : x.1 + x.2 ≤ h.kmallocEnd := by
  obtain ⟨q, hq, b, hxb, hb, -, hord, -⟩ := hh.held x hx
  have hfit := (getOrder_lt hord).2
  have hbb := hb.bounds (hh.order q hq)
  have hin := hh.inside q hq
  omega

theorem kfree_spec (hh : Holds h v live) {p : ℕ} (hx : (p, size) ∈ live) :
    ∃ h' v', kfree h p = some h' ∧ Holds h' v' (live.erase (p, size)) ∧ Grows h v h' v' ∧
      h'.kmallocEnd = h.kmallocEnd := by
  obtain ⟨q, hq, b, hxb, hb, hfree, hord, hflag, hlen⟩ := hh.held _ hx
  change p = b + headerSize at hxb
  subst hxb
  have hperm := hh.perm (List.perm_cons_erase hx)
  have hbb := hb.bounds (hh.order q hq)
  have hsz := (class_bounds (hh.order q hq)).1
  have hal := hh.aligned q hq
  have ho := hh.order q hq
  have hmagic : h.mem (b + 4) = blockMagic := (hh.page q hq).magic b hb
  have horder : h.mem (q + 8) = v.order q := (hh.page q hq).order
  refine ⟨giveBlock h b q (v.order q), _, ?_, hperm.give hq hb hfree hord hlen, ?_, rfl⟩
  · rw [kfree, if_neg (by omega), Nat.add_sub_cancel, if_pos hmagic, freeBlock]
    have hpage : b / pageSize * pageSize = q := by
      unfold pageSize
      omega
    simp only [hpage, horder]
    rw [if_neg (by omega)]
  · exact hh.grows_of_page hq _ _ _ (fun a ha => giveBlock_foreign (hh.page q hq) ho hb ha)

structure Sound (h : Heap) (live : List (ℕ × ℕ)) : Prop where
  chains : ∀ q ∈ h.pages, ∃ chain, Chain 0 (fun b => h.mem (b + 8)) (h.mem (q + 4)) chain ∧
    chain.Nodup ∧ h.mem (q + 12) = chain.length ∧
    ∀ b ∈ chain, IsSlot q (h.mem (q + 8)) b ∧ h.mem b = mfFree ∧ ∀ x ∈ live, x.1 ≠ b + headerSize
  queues : ∀ o < 8, ∃ queue, Chain 0 h.mem (h.sizes o).firstfree queue ∧
    (∀ q ∈ queue, q ∈ h.pages) ∧
    ∀ q ∈ h.pages, queue.count q = if h.mem (q + 8) = o ∧ 0 < h.mem (q + 12) then 1 else 0
  apart : live.Pairwise Apart
  clear : ∀ x ∈ live, ∀ q ∈ h.pages, Apart x (q, descriptorSize) ∧
    ∀ b, IsSlot q (h.mem (q + 8)) b → Apart x (b, headerSize)
  bytes : ∀ o < 8, (h.sizes o).nbytesmalloced.toInt = bytesOf o live
  count : ∀ o < 8, ((h.sizes o).nmallocs - (h.sizes o).nfrees).toInt = blocksOf o live

theorem Held.apart (hh : Holds h v live) {y : ℕ × ℕ}
    (hx : Held h v x) (hy : Held h v y) (hne : x.1 ≠ y.1) :
    Apart (x.1 - headerSize, x.2 + headerSize) (y.1 - headerSize, y.2 + headerSize) := by
  obtain ⟨q, hq, b, hxb, hb, -, hord, -⟩ := hx
  obtain ⟨r, hr, c, hyc, hc, -, hord', -⟩ := hy
  have hfit := (getOrder_lt hord).2
  have hfit' := (getOrder_lt hord').2
  have hbb := hb.bounds (hh.order q hq)
  have hcb := hc.bounds (hh.order r hr)
  have h1 := hh.aligned q hq
  have h2 := hh.aligned r hr
  rw [hxb, hyc, Nat.add_sub_cancel, Nat.add_sub_cancel]
  unfold Apart
  by_cases hqr : q = r
  · subst hqr
    rcases hb.apart hc (by omega) with hap | hap <;> simp only <;> omega
  · simp only
    omega

theorem Holds.live_total (hh : Holds h v live) :
    (live.map (fun x => x.2 + headerSize)).sum < 2 ^ 31 := by
  let blocks := live.map (fun x => (x.1 - headerSize, x.2 + headerSize))
  let region := h.pages.toFinset.biUnion (fun q => Finset.Ico q (q + 4096))
  have hdis : blocks.Pairwise Apart := by
    have hne := List.pairwise_map.mp hh.once
    refine List.pairwise_map.mpr ?_
    refine hne.imp_of_mem (fun {x y} hx hy hxy => ?_)
    exact Held.apart hh (hh.held x hx) (hh.held y hy) hxy
  have hin : ∀ x ∈ blocks, Finset.Ico x.1 (x.1 + x.2) ⊆ region := by
    intro x hx a ha
    obtain ⟨y, hy, rfl⟩ := List.mem_map.mp hx
    obtain ⟨q, hq, b, hyb, hb, -, hord, -⟩ := hh.held y hy
    have hfit := (getOrder_lt hord).2
    have hbb := hb.bounds (hh.order q hq)
    simp only [hyb, Nat.add_sub_cancel, Finset.mem_Ico] at ha
    refine Finset.mem_biUnion.mpr ⟨q, by simpa using hq, Finset.mem_Ico.mpr ?_⟩
    omega
  have hsum := sum_length_le hdis hin
  have hcard : region.card ≤ h.pages.toFinset.card * 4096 :=
    Finset.card_biUnion_le_card_mul _ _ _ (fun q _ => by simp)
  have hlen := h.pages.toFinset_card_le
  have hdrawn := hh.drawn
  have hend := hh.endBound
  have hstart := hh.started
  simp only [blocks, List.map_map] at hsum
  change (live.map (Prod.snd ∘ fun x => (x.1 - headerSize, x.2 + headerSize))).sum < _
  omega

theorem bytesOf_le (o : ℕ) (live : List (ℕ × ℕ)) :
    bytesOf o live + headerSize * blocksOf o live ≤ (live.map (fun x => x.2 + headerSize)).sum := by
  induction live with
  | nil => simp [bytesOf, blocksOf]
  | cons x live ih =>
    obtain ⟨p, size⟩ := x
    rw [bytesOf_cons, blocksOf_cons, List.map_cons, List.sum_cons]
    unfold headerSize at *
    split_ifs <;> simp only <;> omega

theorem Holds.sound (hh : Holds h v live) :
    Sound h live := by
  have htotal := hh.live_total
  refine ⟨?_, ?_, ?_, ?_, ?_, ?_⟩
  · intro q hq
    have hpage := hh.page q hq
    refine ⟨v.chain q, hpage.links, hpage.links.nodup, hpage.nfree, ?_⟩
    intro b hb
    rw [hpage.order]
    refine ⟨hpage.slots b hb, hpage.free b hb, ?_⟩
    intro x hx hxb
    obtain ⟨r, hr, c, hxc, hc, hfree, -⟩ := hh.held x hx
    obtain rfl : b = c := by omega
    have hbb := (hpage.slots b hb).bounds (hh.order q hq)
    have hcb := hc.bounds (hh.order r hr)
    have hsz := (class_bounds (hh.order q hq)).1
    have hsz' := (class_bounds (hh.order r hr)).1
    obtain rfl := hh.page_eq (a := b) hq hr (by omega) (by omega)
    exact hfree hb
  · intro o ho
    refine ⟨v.avail o, hh.queue o ho, fun q hq => ((hh.avail o ho q).mp hq).1, ?_⟩
    intro q hq
    have hpage := hh.page q hq
    rw [hpage.order, hpage.nfree, (hh.queue o ho).nodup.count]
    refine if_congr ?_ rfl rfl
    rw [hh.avail o ho q, List.length_pos_iff]
    exact ⟨fun h => h.2, fun h => ⟨hq, h⟩⟩
  · refine (List.pairwise_map.mp hh.once).imp_of_mem (fun {x y} hx hy hxy => ?_)
    have hap := Held.apart hh (hh.held x hx) (hh.held y hy) hxy
    obtain ⟨_, _, b, hxb, _⟩ := hh.held x hx
    obtain ⟨_, _, c, hyc, _⟩ := hh.held y hy
    unfold Apart at *
    simp only at hap
    omega
  · intro x hx q hq
    obtain ⟨r, hr, b, hxb, hb, -, hord, -⟩ := hh.held x hx
    have hfit := (getOrder_lt hord).2
    have hbb := hb.bounds (hh.order r hr)
    have h1 := hh.aligned q hq
    have h2 := hh.aligned r hr
    rw [(hh.page q hq).order]
    unfold Apart descriptorSize headerSize at *
    refine ⟨?_, ?_⟩
    · simp only
      omega
    · intro c hc
      have hcb := hc.bounds (hh.order q hq)
      have hsz := (class_bounds (hh.order q hq)).1
      simp only
      by_cases hqr : q = r
      · subst hqr
        by_cases hcb' : c = b
        · omega
        · rcases hc.apart hb hcb' with hap | hap <;> omega
      · omega
  · intro o ho
    have hle := bytesOf_le o live
    rw [hh.bytes o ho, toInt_ofNat_of_lt (by omega)]
  · intro o ho
    have hle := bytesOf_le o live
    unfold headerSize at hle htotal
    rw [hh.count o ho, toInt_ofNat_of_lt (by omega)]

theorem kmalloc_small (hstart : 0 < h.kmallocStart) (hsize : size ≤ 4080) :
    kmalloc h size = kmallocBlock h size := by
  rw [kmalloc, if_neg (by omega), if_neg (by omega)]

def coldHeap (m : Mem) (start : ℕ) : Heap := ⟨m, coldSizes, start, start, 0, []⟩

theorem coldHeap_holds (m : Mem) (hal : start % 4096 = 0) (hpos : 0 < start)
    (hlt : start < 2 ^ 32) : Holds (coldHeap m start) ⟨fun _ => 0, fun _ => [], fun _ => []⟩ [] where
  started := hpos
  aligned := nofun
  inside := nofun
  nodup := List.nodup_nil
  endAligned := hal
  endBound := hlt
  drawn := le_refl _
  order := nofun
  page := nofun
  queue := fun _ _ => rfl
  avail := fun _ _ q => by simp [coldHeap]
  held := nofun
  once := List.nodup_nil
  count := fun _ _ => by simp [coldHeap, coldSizes, blocksOf]
  bytes := fun _ _ => rfl

theorem kmallocInit_holds {m : Mem} (hal : start % 4096 = 0) (hpos : 0 < start)
    (hlt : start < 2 ^ 32) (hboot : kmallocInit m start = some h)
    (hend : start ≤ h.kmallocEnd) : ∃ v, Holds h v [(h.hugeQueue, 12)] ∧
      h.mem h.hugeQueue = 0 ∧ h.mem (h.hugeQueue + 4) = 0 := by
  have hcold := coldHeap_holds m hal hpos hlt
  obtain ⟨o, ho⟩ := getOrder_isSome (show 12 ≤ 4068 by omega)
  rw [kmallocInit, show (⟨m, coldSizes, start, start, 0, []⟩ : Heap) = coldHeap m start from rfl,
    kmalloc_small hpos (by omega)] at hboot
  cases hk : kmallocBlock (coldHeap m start) 12 with
  | mk r h₁ =>
    rw [hk] at hboot
    cases r with
    | block l =>
      obtain rfl := Option.some.inj hboot
      obtain ⟨p, h', v, hk', hh, -⟩ := kmallocBlock_spec hcold ho (by rw [hk]; exact hend)
      rw [hk] at hk'
      obtain ⟨hp, rfl⟩ := Prod.mk.inj hk'
      obtain rfl := Outcome.block.inj hp
      have hclear := fun a (hlo : l ≤ a) (hhi : a < l + 12) =>
        hh.live_foreign (x := (l, 12)) (by simp) hlo hhi
      have hwrite : Holds { h₁ with mem := store (store (store h₁.mem l 0) (l + 4) 0) (l + 8) 0 } v
          [(l, 12)] := by
        refine hh.write (fun q hq a ha => ?_)
        simp only [store_apply]
        rw [if_neg, if_neg, if_neg]
        · rintro rfl
          exact hclear _ (by omega) (by omega) q hq ha
        · rintro rfl
          exact hclear _ (by omega) (by omega) q hq ha
        · rintro rfl
          exact hclear _ (by omega) (by omega) q hq ha
      refine ⟨v, { hwrite with }, ?_, ?_⟩ <;> simp [store_apply]
    | _ => cases hboot

theorem kmallocInit_room (m : Mem) (hal : start % 4096 = 0) (hpos : 0 < start)
    (hroom : start + 0x2000 < 2 ^ 32) :
    ∃ h, kmallocInit m start = some h ∧ start ≤ h.kmallocEnd ∧ h.kmallocEnd ≤ start + 0x2000 ∧
      (∀ a, h.kmallocEnd ≤ a → h.mem a = m a) ∧ h.kmallocStart = start := by
  obtain ⟨o, ho⟩ := getOrder_isSome (show 12 ≤ 4068 by omega)
  obtain ⟨p, h, v, hk, hh, hg, hle⟩ :=
    kmallocBlock_room (coldHeap_holds m hal hpos (by omega)) ho (fun _ => hroom)
  have hbelow : p + 12 ≤ h.kmallocEnd := hh.live_below (x := (p, 12)) (by simp)
  rw [← kmalloc_small (show 0 < (coldHeap m start).kmallocStart from hpos) (by omega)] at hk
  refine ⟨{ h with mem := store (store (store h.mem p 0) (p + 4) 0) (p + 8) 0, hugeQueue := p },
    ?_, hg.endLe, hle, fun a ha => ?_, hg.start⟩
  · rw [kmallocInit]
    unfold coldHeap at hk
    rw [hk]
  · change h.kmallocEnd ≤ a at ha
    simp only [store_apply]
    rw [if_neg (by omega), if_neg (by omega), if_neg (by omega)]
    exact hg.above a ha

structure System where
  heap : Heap
  live : List (ℕ × ℕ)

inductive Event where
  | malloc (size : ℕ) (r : Outcome)
  | free (p : ℕ)
  | store (a w : ℕ)

/-- A call of `kmalloc` with a size that has a class and a heap pointer that
does not wrap, a `kfree` of a block in use, or a write of a caller into one. -/
inductive SmallStep (s : System) : Event → System → Prop where
  | malloc {size : ℕ} {r : Outcome} {h : Heap} (hsize : size ≤ 4068)
      (hcall : kmalloc s.heap size = (r, h)) (hwrap : s.heap.kmallocEnd ≤ h.kmallocEnd) :
      SmallStep s (.malloc size r) ⟨h, match r with
        | .block p => (p, size) :: s.live
        | _ => s.live⟩
  | free {p size : ℕ} {h : Heap} (hlive : (p, size) ∈ s.live) (hcall : kfree s.heap p = some h) :
      SmallStep s (.free p) ⟨h, s.live.erase (p, size)⟩
  | store {a w : ℕ} {x : ℕ × ℕ} (hlive : x ∈ s.live) (hlo : x.1 ≤ a) (hhi : a < x.1 + x.2) :
      SmallStep s (.store a w) ⟨{ s.heap with mem := store s.heap.mem a w }, s.live⟩

theorem kmalloc_holds (hh : Holds h v live)
    (hsize : size ≤ 4068) (hwrap : h.kmallocEnd ≤ (kmalloc h size).2.kmallocEnd) :
    ∃ p h' v', kmalloc h size = (.block p, h') ∧ Holds h' v' ((p, size) :: live) := by
  obtain ⟨o, ho⟩ := getOrder_isSome hsize
  rw [kmalloc_small hh.started (by omega)] at hwrap ⊢
  obtain ⟨p, h', v', hk, hh', -⟩ := kmallocBlock_spec hh ho hwrap
  exact ⟨p, h', v', hk, hh'⟩

theorem SmallStep.holds {s t : System} {e : Event} (hh : Holds s.heap v s.live)
    (hstep : SmallStep s e t) : ∃ v', Holds t.heap v' t.live := by
  cases hstep with
  | malloc hsize hcall hwrap =>
    obtain ⟨p, h', v', hk, hh'⟩ := kmalloc_holds hh hsize (by rw [hcall]; exact hwrap)
    rw [hcall] at hk
    obtain ⟨rfl, rfl⟩ := Prod.mk.inj hk
    exact ⟨v', hh'⟩
  | free hlive hcall =>
    obtain ⟨h', v', hk, hh', -⟩ := kfree_spec hh hlive
    rw [hcall] at hk
    obtain rfl := Option.some.inj hk
    exact ⟨v', hh'⟩
  | store hlive hlo hhi =>
    refine ⟨v, hh.write (fun q hq a' ha' => ?_)⟩
    rw [store_apply, if_neg]
    rintro rfl
    exact hh.live_foreign hlive hlo hhi q hq ha'

/-- In every run from `kmalloc_init` with a heap pointer that does not wrap the
free chains, the page queues, the blocks in use and the counters fit together,
every further request gets a block, and every block in use can be freed. -/
theorem small_heap_sound {m : Mem} {start : ℕ} (hal : start % 4096 = 0) (hpos : 0 < start)
    (hlt : start < 2 ^ 32) {h₀ : Heap} (hboot : kmallocInit m start = some h₀)
    (hend : start ≤ h₀.kmallocEnd) {es : List Event} {s : System}
    (hrun : Reach SmallStep ⟨h₀, [(h₀.hugeQueue, 12)]⟩ es s) :
    Sound s.heap s.live ∧
    (∀ size ≤ 4068, s.heap.kmallocEnd ≤ (kmalloc s.heap size).2.kmallocEnd →
      ∃ p h, kmalloc s.heap size = (.block p, h)) ∧
    ∀ x ∈ s.live, (kfree s.heap x.1).isSome := by
  obtain ⟨v, hh⟩ : ∃ v, Holds s.heap v s.live :=
    hrun.invariant (fun _ s => ∃ v, Holds s.heap v s.live)
      ((kmallocInit_holds hal hpos hlt hboot hend).imp fun _ h => h.1)
      (fun _ _ _ _ _ hs hstep => hstep.holds hs.choose_spec)
  refine ⟨hh.sound, ?_, ?_⟩
  · intro size hsize hwrap
    obtain ⟨p, h, v', hk, -⟩ := kmalloc_holds hh hsize hwrap
    exact ⟨p, h, hk⟩
  · intro x hx
    obtain ⟨h, v', hk, -⟩ := kfree_spec hh hx
    rw [hk]
    rfl

theorem small_heap_sound_first : ∃ h₀ p s, kmallocInit (fun _ => 0) 0xc0000000 = some h₀ ∧
    Reach SmallStep ⟨h₀, [(h₀.hugeQueue, 12)]⟩ [.malloc 100 (.block p)] s ∧
    s.live = [(p, 100), (h₀.hugeQueue, 12)] ∧ Sound s.heap s.live := by
  have hal : 0xc0000000 % 4096 = 0 := by decide
  have hpos : 0 < 0xc0000000 := by decide
  obtain ⟨h₀, hboot, hend, hle, -⟩ := kmallocInit_room (fun _ => 0) hal hpos (by decide)
  obtain ⟨v, hh, -⟩ := kmallocInit_holds hal hpos (by decide) hboot hend
  obtain ⟨o, ho⟩ := getOrder_isSome (show 100 ≤ 4068 by omega)
  obtain ⟨p, h, _, hk, -, hg, -⟩ := kmallocBlock_room hh ho (fun _ => by omega)
  rw [← kmalloc_small hh.started (by omega)] at hk
  have hrun : Reach SmallStep ⟨h₀, [(h₀.hugeQueue, 12)]⟩ [.malloc 100 (.block p)]
      ⟨h, [(p, 100), (h₀.hugeQueue, 12)]⟩ :=
    .next .start (.malloc (by decide) hk hg.endLe)
  exact ⟨h₀, p, _, hboot, hrun, rfl, (small_heap_sound hal hpos (by decide) hboot hend hrun).1⟩

end Bingos.Kmalloc
