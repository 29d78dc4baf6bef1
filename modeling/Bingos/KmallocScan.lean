import Bingos.KmallocQueue

set_option autoImplicit false

/-! The scan of the queue of huge blocks. -/
namespace Bingos.Kmalloc
open MachineWords PointerChains DisjointRanges

structure Extent (h : Heap) (x : ℕ × ℕ) : Prop where
  aligned : x.1 % 4096 = 0
  above : h.kmallocStart < x.1
  inside : x.1 + x.2 * 4096 ≤ h.kmallocEnd
  pages : 2 ≤ x.2
  size : h.mem (x.1 + 8) = (x.2 - 1) * 4096
  magic : h.mem (x.1 + 12) = blockMagic

def span (x : ℕ × ℕ) : ℕ × ℕ := (x.1, x.2 * 4096)

def queueBlocks (l : ℕ) (nodes : List ℕ) : List (ℕ × ℕ) := (l, 12) :: nodes.map (fun n => (n, 12))

/-- A heap of small blocks with huge blocks between its pages and a queue of
some of them. -/
structure QueueHeap (h : Heap) (v : View) (nodes : List ℕ) (small extents : List (ℕ × ℕ)) :
    Prop where
  holds : Holds h v (queueBlocks h.hugeQueue nodes ++ small)
  queue : Queue h.mem h.hugeQueue nodes
  extent : ∀ x ∈ extents, Extent h x
  apart : extents.Pairwise (fun x y => Apart (span x) (span y))
  offPages : ∀ x ∈ extents, ∀ q ∈ h.pages, Apart (span x) (q, 4096)
  values : ∀ n ∈ nodes, ∃ x ∈ extents, h.mem (n + 8) = x.1

variable {h h' : Heap} {extents small small' : List (ℕ × ℕ)} {nodes post pre : List ℕ} {v v' : View}
  {x y : ℕ × ℕ} {n size : ℕ}

theorem mem_queueBlocks {l : ℕ} :
    x ∈ queueBlocks l nodes ↔ x = (l, 12) ∨ ∃ n ∈ nodes, x = (n, 12) := by
  simp only [queueBlocks, List.mem_cons, List.mem_map]
  constructor
  · rintro (h | ⟨n, hn, rfl⟩)
    · exact Or.inl h
    · exact Or.inr ⟨n, hn, rfl⟩
  · rintro (h | ⟨n, hn, rfl⟩)
    · exact Or.inl h
    · exact Or.inr ⟨n, hn, rfl⟩

section Kept

variable (hh : QueueHeap h v nodes small extents)
include hh

theorem QueueHeap.extents_apart
    (hx : x ∈ extents) (hy : y ∈ extents) (hne : x ≠ y) : Apart (span x) (span y) := by
  have hsymm : Std.Symm (fun x y : ℕ × ℕ => Apart (span x) (span y)) := ⟨fun _ _ => Or.symm⟩
  exact hh.apart.forall hx hy hne

theorem QueueHeap.extent_foreign
    (hx : x ∈ extents) {a : ℕ} (hlo : x.1 ≤ a) (hhi : a < x.1 + x.2 * 4096) :
    ∀ q ∈ h.pages, ¬ OwnWord q (v.order q) a := by
  intro q hq how
  have hb := how.bounds (hh.holds.order q hq)
  have hap := hh.offPages x hx q hq
  unfold Apart span at hap
  simp only at hap
  omega

theorem QueueHeap.extent_off_live
    (hx : x ∈ extents) (hy : y ∈ queueBlocks h.hugeQueue nodes ++ small) : Apart (span x) y := by
  obtain ⟨q, hq, b, hyb, hb, -, hord, -⟩ := hh.holds.held y hy
  have hfit := (getOrder_lt hord).2
  have hbb := hb.bounds (hh.holds.order q hq)
  have hap := hh.offPages x hx q hq
  unfold Apart span at *
  simp only at *
  omega

theorem QueueHeap.grow
    (hg : Grows h v h' v') (hholds : Holds h' v' (queueBlocks h.hugeQueue nodes ++ small')) :
    QueueHeap h' v' nodes small' extents ∧ ∀ n ∈ nodes, h'.mem (n + 8) = h.mem (n + 8) := by
  have hword : ∀ x ∈ queueBlocks h.hugeQueue nodes, ∀ a, x.1 ≤ a → a < x.1 + x.2 →
      h'.mem a = h.mem a := by
    intro x hx a hlo hhi
    have hmem : x ∈ queueBlocks h.hugeQueue nodes ++ small := List.mem_append_left _ hx
    have hbelow := hh.holds.live_below hmem
    exact hg.mem a (by omega) (hh.holds.live_foreign hmem hlo hhi)
  have hlist : ∀ a, h.hugeQueue ≤ a → a < h.hugeQueue + 12 → h'.mem a = h.mem a :=
    hword (h.hugeQueue, 12) (mem_queueBlocks.mpr (Or.inl rfl))
  have hnode : ∀ n ∈ nodes, ∀ a, n ≤ a → a < n + 12 → h'.mem a = h.mem a :=
    fun n hn => hword (n, 12) (mem_queueBlocks.mpr (Or.inr ⟨n, hn, rfl⟩))
  have hvalue : ∀ n ∈ nodes, h'.mem (n + 8) = h.mem (n + 8) :=
    fun n hn => hnode n hn _ (by omega) (by omega)
  refine ⟨⟨?_, ?_, ?_, hh.apart, ?_, ?_⟩, hvalue⟩
  · rw [hg.hugeQueue]
    exact hholds
  · rw [hg.hugeQueue]
    refine hh.queue.congr ⟨hlist _ (by omega) (by omega), hlist _ (by omega) (by omega)⟩ ?_
    intro n hn
    exact ⟨hnode n hn _ (by omega) (by omega), hnode n hn _ (by omega) (by omega)⟩
  · intro x hx
    obtain ⟨hal, habove, hinside, hpages, hsize, hmagic⟩ := hh.extent x hx
    have hkeep : ∀ a, x.1 ≤ a → a < x.1 + x.2 * 4096 → h'.mem a = h.mem a :=
      fun a hlo hhi => hg.mem a (by omega) (hh.extent_foreign hx hlo hhi)
    refine ⟨hal, hg.start ▸ habove, hinside.trans hg.endLe, hpages, ?_, ?_⟩
    · rw [hkeep _ (by omega) (by omega), hsize]
    · rw [hkeep _ (by omega) (by omega), hmagic]
  · intro x hx q hq
    rcases hg.pages q hq with hold | hnew
    · exact hh.offPages x hx q hold
    · have := (hh.extent x hx).inside
      unfold Apart span
      simp only
      omega
  · intro n hn
    rw [hvalue n hn]
    exact hh.values n hn

theorem QueueHeap.write_live {m : Mem}
    (hm : ∀ a, m a ≠ h.mem a →
      ∃ x ∈ queueBlocks h.hugeQueue nodes ++ small, x.1 ≤ a ∧ a < x.1 + x.2) :
    Holds { h with mem := m } v (queueBlocks h.hugeQueue nodes ++ small) ∧
    ∀ x ∈ extents, Extent { h with mem := m } x := by
  refine ⟨hh.holds.write (fun q hq a ha => ?_), fun x hx => ?_⟩
  · by_contra hne
    obtain ⟨x, hx, hlo, hhi⟩ := hm a hne
    exact hh.holds.live_foreign hx hlo hhi q hq ha
  · obtain ⟨hal, habove, hinside, hpages, hsize, hmagic⟩ := hh.extent x hx
    have hkeep : ∀ a, x.1 ≤ a → a < x.1 + x.2 * 4096 → m a = h.mem a := by
      intro a hlo hhi
      by_contra hne
      obtain ⟨y, hy, hylo, hyhi⟩ := hm a hne
      have hap := hh.extent_off_live hx hy
      unfold Apart span at hap
      simp only at hap
      omega
    refine ⟨hal, habove, hinside, hpages, ?_, ?_⟩
    · exact (hkeep _ (by omega) (by omega)).trans hsize
    · exact (hkeep _ (by omega) (by omega)).trans hmagic

theorem QueueHeap.free_small {p : ℕ} (hx : (p, size) ∈ small) :
    ∃ h' v', kfree h p = some h' ∧ QueueHeap h' v' nodes (small.erase (p, size)) extents ∧
      (∀ n ∈ nodes, h'.mem (n + 8) = h.mem (n + 8)) ∧ Grows h v h' v' ∧
      h'.kmallocEnd = h.kmallocEnd := by
  have hmem : (p, size) ∈ queueBlocks h.hugeQueue nodes ++ small := List.mem_append_right _ hx
  obtain ⟨h', v', hk, hholds, hg, hend⟩ := kfree_spec hh.holds hmem
  have hperm : ((queueBlocks h.hugeQueue nodes ++ small).erase (p, size)).Perm
      (queueBlocks h.hugeQueue nodes ++ small.erase (p, size)) := by
    refine List.Perm.cons_inv (a := (p, size)) ?_
    refine (List.perm_cons_erase hmem).symm.trans ?_
    exact ((List.perm_cons_erase hx).append_left _).trans List.perm_middle
  obtain ⟨hq, hvalue⟩ := hh.grow hg (hholds.perm hperm)
  exact ⟨h', v', hk, hq, hvalue, hg, hend⟩

theorem QueueHeap.malloc_small {o : ℕ} (hsize : getOrder size = some o)
    (hroom : (h.sizes o).firstfree = 0 → h.kmallocEnd + 0x2000 < 2 ^ 32) :
    ∃ p h' v', kmallocBlock h size = (.block p, h') ∧
      QueueHeap h' v' nodes ((p, size) :: small) extents ∧
      (∀ n ∈ nodes, h'.mem (n + 8) = h.mem (n + 8)) ∧ Grows h v h' v' := by
  have hfirst := (hh.holds.queue o (getOrder_lt hsize).1).eq_null_iff
  obtain ⟨p, h', v', hk, hholds, hg, -⟩ :=
    kmallocBlock_room hh.holds hsize (fun ha => hroom (hfirst.mpr ha))
  obtain ⟨hq, hvalue⟩ := hh.grow hg (hholds.perm List.perm_middle.symm)
  exact ⟨p, h', v', hk, hq, hvalue, hg⟩

end Kept

theorem QueueHeap.unlink (hh : QueueHeap h v (pre ++ n :: post) small extents) :
    QueueHeap { h with mem := listDelete h.mem h.hugeQueue n } v (pre ++ post)
      ((n, 12) :: small) extents ∧
    (∀ x ∈ pre ++ n :: post, listDelete h.mem h.hugeQueue n (x + 8) = h.mem (x + 8)) ∧
    listDelete h.mem h.hugeQueue n (n + 4) = h.mem (n + 4) := by
  obtain ⟨hdel, hout⟩ := hh.queue.delete
  have hnodup := hh.queue.next.nodup
  rw [List.nodup_middle, List.nodup_cons] at hnodup
  have hsub : ∀ x ∈ pre ++ post, x ∈ pre ++ n :: post := by
    intro x hx
    apply List.Sublist.subset _ hx
    exact (List.sublist_cons_self n post).append_left pre
  have hpair : ∀ x ∈ pre ++ n :: post, ∀ y ∈ pre ++ n :: post, x = y ∨ Sep x y := by
    intro x hx y hy
    by_cases hxy : x = y
    · exact Or.inl hxy
    · exact Or.inr (hh.queue.spread x hx y hy hxy)
  have hsep := hh.queue.sep
  unfold Sep at hpair hsep
  -- a word the deletion writes lies in a block of the queue
  have hwritten : ∀ a, listDelete h.mem h.hugeQueue n a ≠ h.mem a →
      ∃ x ∈ queueBlocks h.hugeQueue (pre ++ n :: post) ++ small, x.1 ≤ a ∧ a < x.1 + x.2 := by
    intro a hne
    by_contra hnone
    push Not at hnone
    refine hne (hout a ?_ (fun x hx => ?_))
    · have := hnone (h.hugeQueue, 12) (List.mem_append_left _ (mem_queueBlocks.mpr (Or.inl rfl)))
      omega
    · have := hnone (x, 12)
        (List.mem_append_left _ (mem_queueBlocks.mpr (Or.inr ⟨x, hsub x hx, rfl⟩)))
      omega
  obtain ⟨hholds, hextent⟩ := hh.write_live hwritten
  have hvalue : ∀ x ∈ pre ++ n :: post,
      listDelete h.mem h.hugeQueue n (x + 8) = h.mem (x + 8) := by
    intro x hx
    refine hout _ ?_ (fun y hy => ?_)
    · have := hsep x hx
      omega
    · have := hpair x hx y (hsub y hy)
      omega
  have hperm : (queueBlocks h.hugeQueue (pre ++ n :: post) ++ small).Perm
      (queueBlocks h.hugeQueue (pre ++ post) ++ (n, 12) :: small) := by
    have hmid : (queueBlocks h.hugeQueue (pre ++ n :: post)).Perm
        ((n, 12) :: queueBlocks h.hugeQueue (pre ++ post)) := by
      have hnode : ((pre ++ n :: post).map (fun n => (n, 12))).Perm
          ((n :: (pre ++ post)).map (fun n => (n, 12))) := List.perm_middle.map _
      exact (hnode.cons (h.hugeQueue, 12)).trans (List.Perm.swap _ _ _)
    exact (hmid.append_right _).trans List.perm_middle.symm
  refine ⟨⟨hholds.perm hperm, hdel, hextent, hh.apart, hh.offPages, ?_⟩, hvalue, ?_⟩
  · intro x hx
    obtain ⟨y, hy, heq⟩ := hh.values x (hsub x hx)
    exact ⟨y, hy, (hvalue x (hsub x hx)).trans heq⟩
  · refine hout _ ?_ (fun y hy => ?_)
    · have := hsep n (by simp)
      omega
    · have := hpair n (by simp) y (hsub y hy)
      have hne : n ≠ y := by
        rintro rfl
        exact hnodup.1 hy
      omega

theorem QueueHeap.size_eq (hh : QueueHeap h v nodes small extents)
    {nodes' : List ℕ} (hh' : QueueHeap h' v' nodes' small' extents)
    (hn : n ∈ nodes) : h'.mem (h.mem (n + 8) + 8) = h.mem (h.mem (n + 8) + 8) := by
  obtain ⟨x, hx, heq⟩ := hh.values n hn
  rw [heq, (hh'.extent x hx).size, (hh.extent x hx).size]

def tooSmall (h : Heap) (size n : ℕ) : Bool := h.mem (h.mem (n + 8) + 8) < size

/-- The scan drops every node whose block fits and returns the block of the
last node, whether it fits or not. -/
theorem scanQueue_spec (hh : QueueHeap h v (pre ++ post) small extents)
    (size header : ℕ) {fuel : ℕ} (hfuel : post.length < fuel) :
    ∃ h' v', scanQueue h size (post.head?.getD 0) header fuel =
        some ((post.getLast?.map (fun n => h.mem (n + 8))).getD header, h') ∧
      QueueHeap h' v' (pre ++ post.filter (tooSmall h size)) small extents ∧
      (∀ n ∈ pre ++ post.filter (tooSmall h size), h'.mem (n + 8) = h.mem (n + 8)) ∧
      h'.kmallocEnd = h.kmallocEnd := by
  induction post generalizing h v pre header fuel with
  | nil =>
    obtain ⟨fuel, rfl⟩ := Nat.exists_eq_succ_of_ne_zero (by omega : fuel ≠ 0)
    exact ⟨h, v, by simp [scanQueue], by simpa using hh, fun _ _ => rfl, rfl⟩
  | cons n post ih =>
    obtain ⟨fuel, rfl⟩ := Nat.exists_eq_succ_of_ne_zero (by omega : fuel ≠ 0)
    rw [List.length_cons] at hfuel
    have hn0 : n ≠ 0 := hh.queue.next.ne_null n (by simp)
    have hnext := hh.queue.next_eq
    have hlast : ((n :: post).getLast?.map (fun n => h.mem (n + 8))).getD header =
        (post.getLast?.map (fun n => h.mem (n + 8))).getD (h.mem (n + 8)) := by
      cases hpost : post.getLast? with
      | none =>
        obtain rfl := List.getLast?_eq_none_iff.mp hpost
        rfl
      | some y => simp [List.getLast?_cons, hpost]
    rw [hlast, List.head?_cons, Option.getD_some]
    by_cases hfit : size ≤ h.mem (h.mem (n + 8) + 8)
    · obtain ⟨hunlink, hvalue, hlink⟩ := hh.unlink
      have hmem : (n, 12) ∈ (n, 12) :: small := by simp
      obtain ⟨h₁, v₁, hk, hq₁, hvalue₁, hg, hend⟩ := hunlink.free_small hmem
      rw [List.erase_cons_head] at hq₁
      have hkept : ∀ y ∈ pre ++ post, h₁.mem (y + 8) = h.mem (y + 8) := by
        intro y hy
        refine (hvalue₁ y hy).trans (hvalue y ?_)
        rw [List.mem_append, List.mem_cons]
        rcases List.mem_append.mp hy with hy | hy
        · exact Or.inl hy
        · exact Or.inr (Or.inr hy)
      have hread : h₁.mem (n + 4) = post.head?.getD 0 := by
        have hlive := List.mem_append_right (queueBlocks h.hugeQueue (pre ++ post)) hmem
        have hbelow := hunlink.holds.live_below hlive
        rw [hg.mem (n + 4) (show n + 4 < h.kmallocEnd by exact (by omega : n + 4 < n + 12).trans_le hbelow)
          (hunlink.holds.live_foreign hlive (by omega) (by omega))]
        exact hlink.trans hnext
      have hsmall : ∀ y ∈ post, tooSmall h₁ size y = tooSmall h size y := by
        intro y hy
        have hsize := hh.size_eq hq₁ (n := y) (by simp [hy])
        unfold tooSmall
        rw [hkept y (by simp [hy]), hsize]
      obtain ⟨h', v', hscan, hq', hvalue', hend'⟩ := ih hq₁ (h.mem (n + 8)) (show _ < fuel by omega)
      have hn : tooSmall h size n = false := by simpa [tooSmall] using hfit
      rw [List.filter_congr hsmall] at hq' hvalue'
      rw [List.filter_cons_of_neg (by simp [hn])]
      refine ⟨h', v', ?_, hq', ?_, hend'.trans hend⟩
      · rw [scanQueue, if_neg hn0]
        simp only [if_pos hfit, hk, hread]
        rw [hscan]
        cases hpost : post.getLast? with
        | none => rfl
        | some y =>
          have := hkept y (List.mem_append_right _ (List.mem_of_getLast? hpost))
          simp [this]
      · intro y hy
        rw [hvalue' y hy]
        refine hkept y ?_
        rw [List.mem_append] at hy ⊢
        exact hy.imp id (fun hy => (List.mem_filter.mp hy).1)
    · have hassoc : pre ++ n :: post = (pre ++ [n]) ++ post := by simp
      rw [hassoc] at hh
      obtain ⟨h', v', hscan, hq', hvalue', hend'⟩ := ih hh (h.mem (n + 8)) (show _ < fuel by omega)
      have hn : tooSmall h size n = true := by simpa [tooSmall] using hfit
      rw [List.filter_cons_of_pos hn, show pre ++ n :: post.filter (tooSmall h size) =
        (pre ++ [n]) ++ post.filter (tooSmall h size) by simp]
      refine ⟨h', v', ?_, hq', hvalue', hend'⟩
      rw [scanQueue, if_neg hn0]
      simp only [if_neg hfit, hnext]
      exact hscan

end Bingos.Kmalloc
