import Bingos.VirtualBytes

set_option autoImplicit false

/-! Which frames the pages of a process get over calls of `do_mmap`. A page without a frame takes
the least free one, and a range that meets an area gives its frames back before. -/
namespace Bingos.Mmap
open MachineWords Frames

structure Supply where
  frame : ℕ → ℕ
  free : Finset ℕ

def Supply.give (x : Supply) (u : ℕ) : Supply :=
  if h : x.frame u = 0 ∧ x.free.Nonempty then
    ⟨Function.update x.frame u (x.free.min' h.2), x.free.erase (x.free.min' h.2)⟩
  else x

def Supply.release (x : Supply) (v n : ℕ) : Supply :=
  ⟨fun u => if InRange v n u then 0 else x.frame u, x.free ∪ (Finset.Ico v (v + n)).image x.frame⟩

structure Plan where
  supply : Supply
  areas : List VmArea

def Plan.meets (x : Plan) (addr len : ℕ) : Bool :=
  x.areas.any (overlaps addr (add32 addr (pageAlign len)))

def Plan.mmap (x : Plan) (addr len : ℕ) : Plan :=
  ⟨(List.range' (addr / pageSize) (pages len + 1)).foldl Supply.give
    (if x.meets addr len then x.supply.release (addr / pageSize) (pages len) else x.supply),
    mapAreas x.areas addr len⟩

def Space.supply (s : Space) : Supply := ⟨frameOf s, freeFrames s.frames⟩

def Space.plan (s : Space) : Plan := ⟨s.supply, s.mmap⟩

theorem give_of_framed {x : Supply} {u : ℕ} (h : x.frame u ≠ 0) : x.give u = x :=
  dif_neg fun hbare => h hbare.1

theorem foldl_give_frame {x : Supply} {us : List ℕ} {u : ℕ} (h : u ∉ us) :
    (us.foldl Supply.give x).frame u = x.frame u := by
  induction us generalizing x with
  | nil => rfl
  | cons w us ih =>
    obtain ⟨hne, hrest⟩ := not_or.mp (mt List.mem_cons.mpr h)
    rw [List.foldl_cons, ih hrest, Supply.give]
    split_ifs
    · exact Function.update_of_ne hne _ _
    · rfl

theorem Plan.mmap_frame {x : Plan} {addr len u : ℕ}
    (h : ¬ InRange (addr / pageSize) (pages len + 1) u) :
    (x.mmap addr len).supply.frame u = x.supply.frame u := by
  rw [Plan.mmap]
  refine (foldl_give_frame fun hu => h (List.mem_range'_1.mp hu)).trans ?_
  split_ifs
  · refine if_neg fun hin => h ?_
    unfold InRange at *
    omega
  · rfl

section Loops
variable {s : Space} (h : Good s) {kmalloc : ℕ → ℕ} (hk : Fresh s kmalloc) {v n fuel : ℕ}

include h in
theorem unmapLoop_supply (hend : v + n ≤ kheapStart / pageSize)
    (hmapped : ∀ u, InRange v n u → frameOf s u ≠ 0) (hfuel : n < fuel) :
    ∃ t, unmapLoop s (pageSize * v) (pageSize * (v + n)) fuel = some t ∧ Unmapped s v n t ∧
      t.supply = s.supply.release v n := by
  obtain ⟨t, hloop, ht⟩ := unmapLoop_spec h hend hmapped hfuel
  have hfreed := ht.frames
  refine ⟨t, hloop, ht, ?_⟩
  have hfree : freeFrames t.frames = freeFrames s.frames ∪ (Finset.Ico v (v + n)).image (frameOf s) := by
    ext g
    simp only [freeFrames, Finset.mem_union, Finset.mem_filter, Finset.mem_range, Finset.mem_image,
      Finset.mem_Ico, hfreed, foldl_freeFrame_maxFrames, foldl_freeFrame_test, Bool.and_eq_false_iff,
      decide_eq_false_iff_not, not_not, List.mem_map, List.mem_range'_1]
    constructor
    · rintro ⟨hlt, hbit | hin⟩
      · exact .inl ⟨hlt, hbit⟩
      · exact .inr hin
    · rintro (⟨hlt, hbit⟩ | ⟨u, hu, rfl⟩)
      · exact ⟨hlt, .inl hbit⟩
      · exact ⟨h.managed u (by omega), .inr ⟨u, hu, rfl⟩⟩
  rw [Space.supply, Supply.release, hfree, funext ht.frame]
  rfl

theorem give_of_allocs {t : Space} (hmax : s.frames.maxFrames < 2 ^ 32) (hbare : frameOf s v = 0)
    (hfree : 0 < (freeFrames s.frames).card) (hallocs : Allocs s.frames [frameOf t v] t.frames)
    (hkept : ∀ u, u ≠ v → frameOf t u = frameOf s u) : t.supply = s.supply.give v := by
  obtain ⟨g, hg⟩ := Finset.card_pos.mp hfree
  have hne : (freeFrames s.frames).Nonempty := ⟨g, hg⟩
  have hclear := hallocs.fresh (List.mem_singleton.mpr rfl)
  have hle : ∀ g ∈ freeFrames s.frames, frameOf t v ≤ g := by
    intro g hg
    simp only [freeFrames, Finset.mem_filter, Finset.mem_range] at hg
    cases hallocs with
    | cons halloc _ _ =>
      obtain ⟨f, m, halloc', hle, -⟩ := allocFrame_spec hg.2 hg.1 hmax
      obtain ⟨rfl, -⟩ := Prod.mk.inj (Option.some.inj (halloc.symm.trans halloc'))
      exact hle
  have hmem : frameOf t v ∈ freeFrames s.frames := by
    have hlt := hle g hg
    simp only [freeFrames, Finset.mem_filter, Finset.mem_range] at hg ⊢
    exact ⟨by omega, hclear⟩
  have hmin : (freeFrames s.frames).min' hne = frameOf t v :=
    le_antisymm (Finset.min'_le _ _ hmem) (Finset.le_min' _ _ _ hle)
  have herase : freeFrames t.frames = (freeFrames s.frames).erase (frameOf t v) := by
    ext g
    simp only [freeFrames, Finset.mem_erase, Finset.mem_filter, Finset.mem_range, hallocs.test,
      hallocs.maxFrames_eq, List.mem_singleton, Bool.or_eq_false_iff, decide_eq_false_iff_not]
    tauto
  have hframe : frameOf t = Function.update (frameOf s) v (frameOf t v) := by
    refine funext fun u => ?_
    by_cases hu : u = v
    · rw [hu, Function.update_self]
    · rw [Function.update_of_ne hu, hkept u hu]
  have hgive : s.supply.give v = ⟨Function.update (frameOf s) v ((freeFrames s.frames).min' hne),
      (freeFrames s.frames).erase ((freeFrames s.frames).min' hne)⟩ := dif_pos ⟨hbare, hne⟩
  rw [hgive, hmin, ← herase, ← hframe]
  rfl

include h hk in
theorem mapLoop_supply {last : ℕ} (hlast : v + n = last + 1) (hend : last ≤ kheapStart / pageSize)
    (hfree : lacking s v n ≤ (freeFrames s.frames).card) (hfuel : n < fuel) :
    ∃ t, mapLoop kmalloc s (pageSize * v) (pageSize * last) fuel = some t ∧
      Mapped s kmalloc v n t ∧ t.supply = (List.range' v n).foldl Supply.give s.supply := by
  refine mapLoop_rule (R := fun s v n t => t.supply = (List.range' v n).foldl Supply.give s.supply)
    (fun _ _ => rfl) ?_ h hk hlast hend hfree hfuel
  intro s s₁ t v n hstep _ hsupply
  have hone := hstep.allocs
  have hkept := hstep.mapped.kept
  have hgive : s₁.supply = s.supply.give v := by
    by_cases hf : frameOf s v = 0
    · rw [List.filter_cons_of_pos (by simpa using hf), List.filter_nil, List.map_singleton] at hone
      have haddressable := hstep.before.addressable
      refine give_of_allocs (by omega) hf (hstep.room hf) hone fun u hu => ?_
      exact hkept u fun hin => absurd (by unfold InRange at hin; omega) hu
    · rw [List.filter_cons_of_neg (by simpa using hf), List.filter_nil, List.map_nil] at hone
      rw [give_of_framed hf, Space.supply, Space.supply, hone.eq_of_nil,
        funext fun u => hkept u fun hin => (show u = v by unfold InRange at hin; omega) ▸ hf]
  rw [hsupply, hgive, List.range'_succ, List.foldl_cons]

end Loops

structure Remapped (s : Space) (kmalloc : ℕ → ℕ) (v n : ℕ) (t : Space) : Prop where
  good : Good t
  fresh : Fresh t kmalloc
  given : ∀ u, InRange v (n + 1) u → frameOf t u ≠ 0
  spent : (freeFrames s.frames).card = (freeFrames t.frames).card + lacking s v (n + 1)
  outside : ∀ virt < 2 ^ 32, ¬ InRange v (n + 1) (virt / 0x1000) → walk t virt = walk s virt

section Calls
variable {s : Space} {kmalloc : ℕ → ℕ} {addr len : ℕ}
  (hr : UserRange (pageSize * (addr / pageSize)) len) (hz : pageAlign len ≠ 0)

include hr hz in
theorem doMmap_plan (h : Good s) (hk : Fresh s kmalloc)
    (hcov : s.plan.meets addr len = true →
      ∀ u, InRange (addr / pageSize) (pages len) u → frameOf s u ≠ 0)
    (hfree : lacking s (addr / pageSize) (pages len + 1) ≤ (freeFrames s.frames).card) :
    ∃ t, doMmap kmalloc s addr len = some t ∧
      Remapped s kmalloc (addr / pageSize) (pages len) t ∧ t.plan = s.plan.mmap addr len := by
  have hend := page_end_le hr
  have hfuel := pages_lt_pageFuel hr
  have hlast : addr / pageSize + (pages len + 1) = addr / pageSize + pages len + 1 := rfl
  have hout : ∀ virt, ¬ InRange (addr / pageSize) (pages len + 1) (virt / 0x1000) →
      virt / 0x1000 < addr / pageSize ∨ addr / pageSize + pages len < virt / 0x1000 := by
    intro virt hvirt
    unfold InRange at hvirt
    omega
  have hrun := @doMmap_pages kmalloc addr len hr hz s
  change _ = Option.bind (if s.plan.meets addr len then _ else _) _ at hrun
  by_cases hany : s.plan.meets addr len = true
  · let s₀ : Space := { s with
      mmap := s.mmap.filter (fun a => !overlaps addr (add32 addr (pageAlign len)) a) }
    have hs₀ : Good s₀ := (good_mmap_iff s _).mpr h
    have hk₀ : Fresh s₀ kmalloc := ⟨hk.unused, hk.injective⟩
    obtain ⟨s₁, hunmap, hs₁, hsupply₁⟩ := unmapLoop_supply hs₀ hend (hcov hany)
      (show pages len < pageFuel by omega)
    have hk₁ := hk₀.of_tables hs₁.tabls hs₁.tables
    obtain ⟨s₂, hmap, hs₂, hsupply₂⟩ := mapLoop_supply hs₁.good hk₁ hlast hend
      (hs₁.lacking_le hfree) hfuel
    rw [if_pos hany, hunmap, Option.bind_some, hmap, Option.map_some] at hrun
    refine ⟨_, hrun, ⟨(good_mmap_iff s₂ _).mpr hs₂.good, ⟨hs₂.fresh.unused, hs₂.fresh.injective⟩,
      hs₂.given, ?_, fun virt hvirt hnot => ?_⟩, ?_⟩
    · have hspent := hs₁.spent (hcov hany) hs₂
      exact hspent
    · have hsides := hout virt hnot
      exact (walk_mapLoop hs₁.good.toShaped hk₁ hend hmap hvirt hsides).trans
        (walk_unmapLoop (s := s₀) hs₀.toShaped hend hunmap hvirt (by omega))
    · rw [Plan.mmap, if_pos hany]
      exact congrArg₂ Plan.mk (hsupply₂.trans (by rw [hsupply₁]; rfl)) (doMmap_mmap hrun)
  · obtain ⟨s₂, hmap, hs₂, hsupply₂⟩ := mapLoop_supply h hk hlast hend hfree hfuel
    rw [if_neg hany, Option.bind_some, hmap, Option.map_some] at hrun
    refine ⟨_, hrun, ⟨(good_mmap_iff s₂ _).mpr hs₂.good, ⟨hs₂.fresh.unused, hs₂.fresh.injective⟩,
      hs₂.given, hs₂.spent, fun virt hvirt hnot => ?_⟩, ?_⟩
    · have hwalk := walk_mapLoop h.toShaped hk hend hmap hvirt (hout virt hnot)
      exact hwalk
    · rw [Plan.mmap, if_neg hany]
      exact congrArg₂ Plan.mk hsupply₂ (doMmap_mmap hrun)

end Calls

end Bingos.Mmap
