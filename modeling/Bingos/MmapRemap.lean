import Bingos.FrameBatches
import Bingos.HeapGrowth

set_option autoImplicit false

/-! Mapping a range anew: which frames its pages are given after `do_munmap`
has freed the ones they had. -/
namespace Bingos.Mmap
open MachineWords Frames

variable {s : Space} {fuel n v : ℕ} {kmalloc : ℕ → ℕ}

theorem MapStep.allocs {t : Space} (h : MapStep s kmalloc v t) :
    Allocs s.frames (([v].filter fun u => frameOf s u = 0).map (frameOf t)) t.frames := by
  obtain ⟨b, s₁', hget', hslot, hs₁, -, hframes, -, -, hframe⟩ :=
    getPage_shaped h.before.toShaped h.heap h.page
  obtain ⟨r, s₁, hget, hmap⟩ := h.run
  obtain ⟨hr, rfl⟩ := Prod.mk.inj (hget.symm.trans hget')
  obtain rfl := Option.some.inj hr
  have haddr : (readPage s₁ ⟨b, v % 1024⟩).addr = frameOf s v := by
    rw [← frameOf_eq_addr hslot, hframe]
  by_cases hf : frameOf s v = 0
  · obtain ⟨g, hg⟩ := Finset.card_pos.mp (h.room hf)
    simp only [freeFrames, Finset.mem_filter, Finset.mem_range] at hg
    have haddressable := h.before.addressable
    obtain ⟨f, m, halloc, hle, hclear, -, -, -⟩ := allocFrame_spec hg.2 hg.1 (by omega)
    obtain ⟨s₂', hmap', hm, htabls, hread, -, -⟩ := pageMap_bare false true
      (hs₁.backed _ _ hslot) (haddr.trans hf) (hframes ▸ halloc)
    obtain rfl := Option.some.inj (hmap.symm.trans hmap')
    have hnew : frameOf t v = f := by
      rw [frameOf_eq_addr (htabls ▸ hslot), hread, if_pos rfl]
      exact Nat.mod_eq_of_lt (by omega)
    rw [List.filter_cons_of_pos (by simpa using hf), List.filter_nil, List.map_singleton, hnew, hm]
    exact .cons halloc hclear (.nil m)
  · rw [pageMap, if_pos (by rw [haddr]; exact hf)] at hmap
    rw [List.filter_cons_of_neg (by simpa using hf), List.filter_nil, ← Option.some.inj hmap,
      hframes]
    exact .nil _

theorem mapLoop_allocs (h : Good s) (hk : Fresh s kmalloc)
    {last : ℕ} (hlast : v + n = last + 1) (hend : last ≤ kheapStart / pageSize)
    (hfree : lacking s v n ≤ (freeFrames s.frames).card) (hfuel : n < fuel) :
    ∃ t, mapLoop kmalloc s (pageSize * v) (pageSize * last) fuel = some t ∧
      Mapped s kmalloc v n t ∧
      Allocs s.frames (((List.range' v n).filter fun u => frameOf s u = 0).map (frameOf t))
        t.frames := by
  refine mapLoop_rule (R := fun s v n t => Allocs s.frames
    (((List.range' v n).filter fun u => frameOf s u = 0).map (frameOf t)) t.frames)
    (fun _ _ => .nil _) ?_ h hk hlast hend hfree hfuel
  intro s s₁ t v n hstep ht hallocs
  have hsame : frameOf t v = frameOf s₁ v := ht.kept v fun hin => by
    unfold InRange at hin
    omega
  have hrest : (List.range' (v + 1) n).filter (fun u => frameOf s₁ u = 0) =
      (List.range' (v + 1) n).filter (fun u => frameOf s u = 0) := by
    refine List.filter_congr fun u hu => ?_
    rw [List.mem_range'_1] at hu
    rw [hstep.mapped.kept u fun hin => by unfold InRange at hin; omega]
  rw [hrest] at hallocs
  have hone := hstep.allocs
  have hfirst : ([v].filter fun u => frameOf s u = 0).map (frameOf s₁) =
      ([v].filter fun u => frameOf s u = 0).map (frameOf t) := by
    refine List.map_congr_left fun u hu => ?_
    rw [List.mem_singleton.mp (List.mem_filter.mp hu).1, hsame]
  rw [hfirst] at hone
  rw [List.range'_succ, ← List.singleton_append, List.filter_append, List.map_append]
  exact hone.append hallocs

def Settled (s : Space) (v n : ℕ) : Prop :=
  ((List.range' v n).map (frameOf s)).Pairwise (· < ·) ∧
    ∀ u, InRange v n u → ∀ f < frameOf s u, bitmapTest s.frames f = true

theorem remap_restores (h : Good s) (hk : Fresh s kmalloc) (hend : v + n ≤ kheapStart / pageSize)
    (hcov : ∀ u, InRange v n u → frameOf s u ≠ 0)
    (hfree : lacking s v (n + 1) ≤ (freeFrames s.frames).card) (hfuel : n + 1 < fuel) :
    ∃ s₁ s₂, unmapLoop s (pageSize * v) (pageSize * (v + n)) fuel = some s₁ ∧
      mapLoop kmalloc s₁ (pageSize * v) (pageSize * (v + n)) fuel = some s₂ ∧
      Unmapped s v n s₁ ∧ Mapped s₁ kmalloc v (n + 1) s₂ ∧
      ((∀ u, InRange v n u → frameOf s₂ u = frameOf s u) ↔ Settled s v n) := by
  obtain ⟨s₁, hunmap, hs₁⟩ := unmapLoop_spec h hend hcov (show n < fuel by omega)
  obtain ⟨s₂, hmap, hs₂, hallocs⟩ := mapLoop_allocs hs₁.good (hk.of_tables hs₁.tabls hs₁.tables)
    (show v + (n + 1) = v + n + 1 by omega) hend (hs₁.lacking_le hfree) hfuel
  refine ⟨s₁, s₂, hunmap, hmap, hs₁, hs₂, ?_⟩
  -- the bitmap between the two loops
  have hfreed := hs₁.frames
  have hbare : (List.range' v n).filter (fun u => frameOf s₁ u = 0) = List.range' v n := by
    refine List.filter_eq_self.mpr fun u hu => ?_
    have hin : InRange v n u := List.mem_range'_1.mp hu
    rw [hs₁.frame, if_pos hin]
    rfl
  rw [List.range'_concat, List.filter_append, hbare, List.map_append] at hallocs
  obtain ⟨m₁, hrange, -⟩ := hallocs.split
  have hmem : ∀ g ∈ (List.range' v n).map (frameOf s), ∃ u, InRange v n u ∧ frameOf s u = g := by
    intro g hg
    obtain ⟨u, hu, rfl⟩ := List.mem_map.mp hg
    exact ⟨u, List.mem_range'_1.mp hu, rfl⟩
  have hmanaged : ∀ u, InRange v n u → frameOf s u < s.frames.maxFrames := by
    intro u hu
    refine h.managed u ?_
    unfold InRange at hu
    omega
  have hmax : s₁.frames.maxFrames = s.frames.maxFrames := by
    rw [hfreed, foldl_freeFrame_maxFrames]
  have hbits : ∀ f, bitmapTest s₁.frames f = (bitmapTest s.frames f &&
      decide (f ∉ (List.range' v n).map (frameOf s))) := by
    intro f
    rw [hfreed, foldl_freeFrame_test]
  have hsame := allocs_same_iff
    (by have := hs₁.good.addressable; omega)
    (List.Nodup.map_on (fun u hu v hv he => h.frameOf_injective (hcov u (List.mem_range'_1.mp hu))
      (hmanaged u (List.mem_range'_1.mp hu)) he) (List.nodup_range' _))
    (fun g hg => by
      obtain ⟨u, hu, rfl⟩ := hmem g hg
      exact h.frameOf_used (hcov u hu) (hmanaged u hu))
    (fun g hg => by
      obtain ⟨u, hu, rfl⟩ := hmem g hg
      rw [hmax]
      exact hmanaged u hu)
    hbits
  have hlist : (∀ u, InRange v n u → frameOf s₂ u = frameOf s u) ↔
      ∃ m', Allocs s₁.frames ((List.range' v n).map (frameOf s)) m' := by
    constructor
    · intro hall
      refine ⟨m₁, ?_⟩
      rw [← List.map_congr_left fun u hu => hall u (List.mem_range'_1.mp hu)]
      exact hrange
    · rintro ⟨m', h'⟩ u hu
      have heq := hrange.unique h' (by simp)
      exact List.map_inj_left.mp heq u (List.mem_range'_1.mpr hu)
  rw [hlist, hsame, Settled]
  refine and_congr_right fun _ => ⟨fun hall u hu => ?_, fun hall g hg => ?_⟩
  · exact hall _ (List.mem_map.mpr ⟨u, List.mem_range'_1.mpr hu, rfl⟩)
  · obtain ⟨u, hu, rfl⟩ := hmem g hg
    exact hall u hu

theorem doMmap_restores (h : Good s) (hk : Fresh s kmalloc) {addr len : ℕ} (hr : UserRange addr len)
    (hz : pageAlign len ≠ 0) (hany : s.mmap.any (overlaps addr (add32 addr (pageAlign len))) = true)
    (hcov : ∀ u, InRange (addr / pageSize) (pages len) u → frameOf s u ≠ 0)
    (hfree : lacking s (addr / pageSize) (pages len + 1) ≤ (freeFrames s.frames).card) {t : Space}
    (hrun : doMmap kmalloc s addr len = some t) :
    (∀ u, InRange (addr / pageSize) (pages len) u → frameOf t u = frameOf s u) ↔
      Settled s (addr / pageSize) (pages len) := by
  obtain ⟨-, halign⟩ := hr.align
  rw [hr.add_pageAlign] at hany
  simp only [doMmap, doMunmap, halign, if_neg hz, if_pos hany, hr.add_pageAlign] at hrun
  generalize s.mmap.filter _ = areas at hrun
  obtain ⟨s₁, s₂, hunmap, hmap, -, -, hsame⟩ :=
    remap_restores ((good_mmap_iff s areas).mpr h) ⟨hk.unused, hk.injective⟩ hr.end_le hcov hfree
      (pages_lt_pageFuel hr)
  rw [← hr.addr_eq] at hunmap hmap
  simp only [hunmap, hmap] at hrun
  obtain rfl := Option.some.inj hrun
  exact hsame

end Bingos.Mmap
