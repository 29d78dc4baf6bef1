import Bingos.ForkIsolation

set_option autoImplicit false

/-! Releasing a cloned directory gives back exactly the frames cloning took. -/
namespace Bingos.Mmap
open MachineWords Frames ByteMemory

theorem foldl_releasePage (s : Space) (t : ℕ) (js : List ℕ) (m : FrameMap) :
    js.foldl (releasePage s t) m =
      ((framedPages s t js).map fun j => (readPage s ⟨t, j⟩).addr).foldl freeFrame m := by
  induction js generalizing m with
  | nil => rfl
  | cons j js ih =>
    rw [List.foldl_cons, ih, framedPages_cons, List.map_append, List.foldl_append]
    by_cases hp : (readPage s ⟨t, j⟩).addr = 0
    · simp [releasePage, framedPages, hp]
    · simp [releasePage, framedPages, hp]

theorem releaseSlot_eq (kernelPd dir : PageDir) (s : Space) (m : FrameMap) (i : ℕ) :
    releaseSlot kernelPd dir s m i = (slotFrames kernelPd dir s i).foldl freeFrame m := by
  unfold releaseSlot slotFrames
  cases h : dir.tabls i with
  | none =>
    rw [ownTable_eq_none.mpr (Or.inl h), Option.elim_none, List.foldl_nil]
  | some t =>
    by_cases hk : kernelPd.tabls i = some t
    · rw [ownTable_eq_none.mpr (Or.inr (hk.trans h.symm)), Option.elim_none, List.foldl_nil]
      simp [hk]
    · rw [ownTable_eq_some.mpr ⟨h, hk⟩, Option.elim_some, ← foldl_releasePage]
      simp [hk]

theorem releaseDirectory_frames (kernelPd dir : PageDir) (s : Space) :
    (releaseDirectory kernelPd dir s).frames =
      (ownFrames kernelPd dir s).foldl freeFrame s.frames := by
  have hslot : releaseSlot kernelPd dir s =
      fun m i => (slotFrames kernelPd dir s i).foldl freeFrame m :=
    funext fun m => funext (releaseSlot_eq kernelPd dir s m)
  rw [releaseDirectory, ownFrames, List.foldl_flatMap, hslot]

/-- Cloning a directory and releasing the clone restores bitmap and count. The
frames the release passes to `free_frame` were free before the clone, so that
after any number of these calls every frame marked before is still marked. -/
theorem clone_release {kmalloc : ℕ → ℕ} {kernelPd src : PageDir} {M : Machine}
    (hbacked : ∀ i t, src.tabls i = some t → (M.space.tables t).isSome)
    (hkernel : ∀ i t, kernelPd.tabls i = some t → (M.space.tables t).isSome)
    (hunused : ∀ i, M.space.tables (kmalloc i) = none) (hinj : Function.Injective kmalloc)
    (hmax : M.space.frames.maxFrames < 2 ^ 32) (hused : M.space.frames.usedFrames < 2 ^ 32)
    (hzero : bitmapTest M.space.frames 0 = true)
    (henough : (ownFrames kernelPd src M.space).length ≤ (room M.space.frames).card)
    (physaddr : ℕ → ℕ) (phys : ℕ) :
    ∃ dir M', pageDirClone kmalloc physaddr phys kernelPd src M = some (dir, M') ∧
      (releaseDirectory kernelPd dir M'.space).frames = M.space.frames ∧
      (releaseDirectory kernelPd dir M'.space).frames =
        (ownFrames kernelPd dir M'.space).foldl freeFrame M'.space.frames ∧
      ∀ n g, bitmapTest M.space.frames g = true →
        bitmapTest (((ownFrames kernelPd dir M'.space).take n).foldl freeFrame M'.space.frames) g =
          true := by
  obtain ⟨dir, M', hclone, h⟩ := pageDirClone_spec physaddr phys
    ⟨hbacked, fun i _ => hunused i, hinj⟩ hzero hmax henough
  have hne : ∀ i, kernelPd.tabls i ≠ some (kmalloc i) := by
    intro i hi
    have hb := hkernel i _ hi
    rw [hunused i] at hb
    cases hb
  have hallocs := h.allocs
  rw [← ownFrames_clone h hne] at hallocs
  refine ⟨dir, M', hclone, ?_, releaseDirectory_frames _ _ _, ?_⟩
  · rw [releaseDirectory_frames]
    exact hallocs.foldl_freeFrame hused
  · intro n g hg
    have hnot : g ∉ (ownFrames kernelPd dir M'.space).take n := by
      intro hmem
      have hfree := hallocs.fresh (List.mem_of_mem_take hmem)
      rw [hg] at hfree
      cases hfree
    rw [foldl_freeFrame_test, hallocs.test, hg, Bool.true_or, Bool.true_and, decide_eq_true hnot]

theorem forking_release : ∃ dir M',
    pageDirClone (fun i => i + 3) id 0x2000 kernelDir forkedDir (forking 3#32) = some (dir, M') ∧
      (releaseDirectory kernelDir dir M'.space).frames = (forking 3#32).space.frames := by
  obtain ⟨dir, M', hclone, hsame, -⟩ := clone_release forking_forkable.backed
    forking_forkable.kernel forking_forkable.unused forking_forkable.injective
    forking_forkable.word (by decide) forking_forkable.zero forking_forkable.enough id 0x2000
  exact ⟨dir, M', hclone, hsame⟩

/-- Frame 1 backs a page of the source but is not marked used: the clone takes
it, and the release clears its bit. -/
theorem unmarked_source_frame_freed :
    bitmapTest (forking 1#32).space.frames 0 = true ∧
    (readPage (forking 1#32).space ⟨2, 0⟩).addr = 1 ∧
    (ownFrames kernelDir forkedDir (forking 1#32).space).length ≤
      (room (forking 1#32).space.frames).card ∧
    ∃ dir M', pageDirClone (fun i => i + 3) id 0x2000 kernelDir forkedDir (forking 1#32) =
        some (dir, M') ∧
      bitmapTest M'.space.frames 1 = true ∧ 1 ∈ ownFrames kernelDir dir M'.space ∧
      bitmapTest (releaseDirectory kernelDir dir M'.space).frames 1 = false := by
  have hrun : (pageDirClone (fun i => i + 3) id 0x2000 kernelDir forkedDir (forking 1#32)).map
      (fun r => (bitmapTest r.2.space.frames 1, ownFrames kernelDir r.1 r.2.space,
        bitmapTest (releaseDirectory kernelDir r.1 r.2.space).frames 1)) =
      some (true, [1], false) := by
    decide +kernel
  obtain ⟨⟨dir, M'⟩, hclone, hr⟩ := Option.map_eq_some_iff.mp hrun
  obtain ⟨htaken, hr⟩ := Prod.mk.inj hr
  obtain ⟨hown, hcleared⟩ := Prod.mk.inj hr
  refine ⟨by decide, by rw [forking_addr, if_pos rfl], ?_, dir, M', hclone, htaken, ?_, hcleared⟩
  · rw [forking_ownFrames]
    decide
  · rw [hown]
    exact List.mem_cons_self

end Bingos.Mmap
