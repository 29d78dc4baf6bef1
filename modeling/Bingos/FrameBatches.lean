import Bingos.FrameModel

set_option autoImplicit false

/-! Frames taken one after the other and given back together. A page entry
names its frame in 20 bits, so only frames below `2 ^ 20` can back a page. -/
namespace Bingos.Frames
open MachineWords

def room (m : FrameMap) : Finset ℕ :=
  (Finset.range (min m.maxFrames (2 ^ 20))).filter fun f => bitmapTest m f = false

variable {m m' m₁ : FrameMap} {fs gs : List ℕ} {f : ℕ}

theorem mem_room :
    f ∈ room m ↔ (f < m.maxFrames ∧ f < 2 ^ 20) ∧ bitmapTest m f = false := by
  rw [room, Finset.mem_filter, Finset.mem_range, lt_min_iff]

theorem allocFrame_room (hroom : 0 < (room m).card) (hmax : m.maxFrames < 2 ^ 32) :
    ∃ f m', allocFrame m = some (f, m') ∧ f ∈ room m ∧ (room m).card = (room m').card + 1 ∧
      m'.maxFrames = m.maxFrames := by
  obtain ⟨g, hg⟩ := Finset.card_pos.mp hroom
  obtain ⟨hlt, hfree⟩ := mem_room.mp hg
  obtain ⟨f, m', halloc, hle, hclear, -, hsame, hbits⟩ := allocFrame_spec hfree hlt.1 hmax
  have hf : f ∈ room m := mem_room.mpr ⟨⟨by omega, by omega⟩, hclear⟩
  have herase : room m' = (room m).erase f := by
    ext g
    simp only [Finset.mem_erase, mem_room, hsame, hbits, Bool.or_eq_false_iff,
      decide_eq_false_iff_not]
    tauto
  refine ⟨f, m', halloc, hf, ?_, hsame⟩
  rw [herase, Finset.card_erase_add_one hf]

/-- `alloc_frame` called once for each frame of the list, each of them free
when it is returned. -/
inductive Allocs : FrameMap → List ℕ → FrameMap → Prop
  | nil (m : FrameMap) : Allocs m [] m
  | cons {m m₁ m' : FrameMap} {f : ℕ} {fs : List ℕ} (halloc : allocFrame m = some (f, m₁))
      (hfree : bitmapTest m f = false) (hrest : Allocs m₁ fs m') : Allocs m (f :: fs) m'

theorem bitmapTest_alloc (h : allocFrame m = some (f, m')) (g : ℕ) :
    bitmapTest m' g = (bitmapTest m g || decide (g = f)) := by
  rw [allocFrame_eq h]
  exact PackedBits.test_set m.frameMap f g

namespace Allocs

theorem test (h : Allocs m fs m') (g : ℕ) :
    bitmapTest m' g = (bitmapTest m g || decide (g ∈ fs)) := by
  induction h with
  | nil => simp
  | cons halloc _ _ ih =>
    rw [ih, bitmapTest_alloc halloc, Bool.or_assoc]
    simp

theorem fresh (h : Allocs m fs m') (hf : f ∈ fs) : bitmapTest m f = false := by
  induction h with
  | nil => cases hf
  | cons halloc hfree _ ih =>
    rcases List.mem_cons.mp hf with rfl | hf
    · exact hfree
    · have hlater := ih hf
      rw [bitmapTest_alloc halloc, Bool.or_eq_false_iff] at hlater
      exact hlater.1

theorem nodup (h : Allocs m fs m') : fs.Nodup := by
  induction h with
  | nil => exact List.nodup_nil
  | cons halloc _ hrest ih =>
    refine List.nodup_cons.mpr ⟨fun hmem => ?_, ih⟩
    have hlater := hrest.fresh hmem
    rw [bitmapTest_alloc halloc] at hlater
    simp at hlater

theorem maxFrames_eq (h : Allocs m fs m') : m'.maxFrames = m.maxFrames := by
  induction h with
  | nil => rfl
  | cons halloc _ _ ih =>
    rw [ih, allocFrame_eq halloc]
    rfl

theorem usedFrames_eq (h : Allocs m fs m') (hm : m.usedFrames < 2 ^ 32) :
    m'.usedFrames = (m.usedFrames + fs.length) % 2 ^ 32 := by
  induction h with
  | nil => exact (Nat.mod_eq_of_lt hm).symm
  | @cons m _ _ _ fs halloc _ _ ih =>
    have hstep := congrArg FrameMap.usedFrames (allocFrame_eq halloc)
    simp only [add32] at hstep
    rw [ih (by omega), hstep, List.length_cons]
    omega

theorem eq_of_nil (h : Allocs m [] m') : m' = m := by
  cases h
  rfl

theorem append (h : Allocs m fs m₁) (h' : Allocs m₁ gs m') :
    Allocs m (fs ++ gs) m' := by
  induction h with
  | nil => exact h'
  | cons halloc hfree _ ih => exact .cons halloc hfree (ih h')

theorem split (h : Allocs m (fs ++ gs) m') :
    ∃ m₁, Allocs m fs m₁ ∧ Allocs m₁ gs m' := by
  induction fs generalizing m with
  | nil => exact ⟨m, .nil m, h⟩
  | cons f fs ih =>
    cases h with
    | cons halloc hfree hrest =>
      obtain ⟨m₁, h₁, h₂⟩ := ih hrest
      exact ⟨m₁, .cons halloc hfree h₁, h₂⟩

theorem unique (h : Allocs m fs m') (h' : Allocs m gs m₁)
    (hlen : fs.length = gs.length) : fs = gs := by
  induction h generalizing gs with
  | nil => exact (List.length_eq_zero_iff.mp hlen.symm).symm
  | cons halloc _ _ ih =>
    cases h' with
    | nil => cases hlen
    | cons halloc' _ hrest' =>
      obtain ⟨rfl, rfl⟩ := Prod.mk.inj (Option.some.inj (halloc.symm.trans halloc'))
      rw [ih hrest' (Nat.succ.inj hlen)]

end Allocs

theorem foldl_freeFrame_test (m : FrameMap) (fs : List ℕ) (g : ℕ) :
    bitmapTest (fs.foldl freeFrame m) g = (bitmapTest m g && decide (g ∉ fs)) := by
  induction fs generalizing m with
  | nil => simp
  | cons f fs ih =>
    rw [List.foldl_cons, ih, bitmapTest_freeFrame, Bool.and_assoc]
    simp [List.mem_cons, not_or]

theorem foldl_freeFrame_maxFrames (m : FrameMap) (fs : List ℕ) :
    (fs.foldl freeFrame m).maxFrames = m.maxFrames := by
  induction fs generalizing m with
  | nil => rfl
  | cons f fs ih => rw [List.foldl_cons, ih, freeFrame_maxFrames]

theorem foldl_freeFrame_usedFrames {n : ℕ} (hn : n < 2 ^ 32)
    (hm : m.usedFrames = (n + fs.length) % 2 ^ 32) : (fs.foldl freeFrame m).usedFrames = n := by
  induction fs generalizing m with
  | nil => rw [List.foldl_nil, hm, List.length_nil, Nat.add_zero, Nat.mod_eq_of_lt hn]
  | cons f fs ih =>
    refine ih ?_
    change sub32 m.usedFrames 1 = _
    rw [hm, List.length_cons, sub32]
    omega

theorem Allocs.foldl_freeFrame (h : Allocs m fs m')
    (hm : m.usedFrames < 2 ^ 32) : fs.foldl freeFrame m' = m := by
  have hused := foldl_freeFrame_usedFrames hm (h.usedFrames_eq hm)
  have hmax := (foldl_freeFrame_maxFrames m' fs).trans h.maxFrames_eq
  have hmap : (fs.foldl freeFrame m').frameMap = m.frameMap := by
    refine PackedBits.ext_of_test fun g => ?_
    change bitmapTest _ g = bitmapTest m g
    rw [foldl_freeFrame_test, h.test]
    by_cases hg : g ∈ fs
    · simp [hg, h.fresh hg]
    · simp [hg]
  cases hfold : fs.foldl freeFrame m'
  rw [hfold] at hused hmax hmap
  subst hused hmax hmap
  rfl

/-- `alloc_frame` returns a free managed frame only if all below are in use. -/
theorem allocFrame_least (h : allocFrame m = some (f, m'))
    (hfree : bitmapTest m f = false) (hlt : f < m.maxFrames) (hmax : m.maxFrames < 2 ^ 32) :
    ∀ g < f, bitmapTest m g = true := by
  obtain ⟨f', m₁, halloc, -, -, hbelow, -, -⟩ := allocFrame_spec hfree hlt hmax
  obtain ⟨rfl, -⟩ := Prod.mk.inj (Option.some.inj (h.symm.trans halloc))
  exact hbelow

/-- Frames that are given back and asked for again come back in the same order
exactly when they ascend and nothing below them is free. -/
theorem allocs_same_iff {m₀ : FrameMap} (hmax : m.maxFrames < 2 ^ 32) (hnodup : gs.Nodup)
    (hused : ∀ g ∈ gs, bitmapTest m₀ g = true) (hlt : ∀ g ∈ gs, g < m.maxFrames)
    (hm : ∀ f, bitmapTest m f = (bitmapTest m₀ f && decide (f ∉ gs))) :
    (∃ m', Allocs m gs m') ↔
      gs.Pairwise (· < ·) ∧ ∀ g ∈ gs, ∀ f < g, bitmapTest m₀ f = true := by
  induction gs generalizing m with
  | nil => exact ⟨fun _ => ⟨.nil, nofun⟩, fun _ => ⟨m, .nil m⟩⟩
  | cons g gs ih =>
    obtain ⟨hg, htail⟩ := List.nodup_cons.mp hnodup
    have hgused := hused g List.mem_cons_self
    have hglt := hlt g List.mem_cons_self
    have hgfree : bitmapTest m g = false := by simp [hm]
    -- taking `g` first leaves the bitmap with only `gs` given back
    have hstep : ∀ {m₁}, allocFrame m = some (g, m₁) →
        m₁.maxFrames = m.maxFrames ∧
          ∀ f, bitmapTest m₁ f = (bitmapTest m₀ f && decide (f ∉ gs)) := by
      intro m₁ halloc
      refine ⟨by rw [allocFrame_eq halloc]; rfl, fun f => ?_⟩
      rw [bitmapTest_alloc halloc, hm]
      by_cases hf : f = g
      · simp [hf, hgused, hg]
      · simp [hf]
    have hbelow : (∀ f < g, bitmapTest m f = true) ↔
        (∀ a ∈ gs, g < a) ∧ ∀ f < g, bitmapTest m₀ f = true := by
      constructor
      · intro h
        refine ⟨fun a ha => ?_, fun f hf => ?_⟩
        · by_contra hle
          have hne : a ≠ g := fun he => hg (he ▸ ha)
          have := h a (by omega)
          simp [hm, ha] at this
        · have := h f hf
          rw [hm, Bool.and_eq_true] at this
          exact this.1
      · rintro ⟨h1, h2⟩ f hf
        have hnot : f ∉ g :: gs := by
          rw [List.mem_cons, not_or]
          exact ⟨by omega, fun ha => by have := h1 f ha; omega⟩
        rw [hm, h2 f hf, decide_eq_true hnot, Bool.and_true]
    constructor
    · rintro ⟨m', h⟩
      cases h with
      | cons halloc hfree hrest =>
        obtain ⟨hsame, hbits⟩ := hstep halloc
        obtain ⟨hmin, hlow⟩ := hbelow.mp (allocFrame_least halloc hfree hglt hmax)
        obtain ⟨hpair, hall⟩ := (ih (by rw [hsame]; exact hmax) htail
          (fun a ha => hused a (List.mem_cons_of_mem _ ha))
          (fun a ha => by rw [hsame]; exact hlt a (List.mem_cons_of_mem _ ha)) hbits).mp ⟨m', hrest⟩
        exact ⟨List.pairwise_cons.mpr ⟨hmin, hpair⟩, List.forall_mem_cons.mpr ⟨hlow, hall⟩⟩
    · rintro ⟨hpair, hall⟩
      obtain ⟨hmin, hascend⟩ := List.pairwise_cons.mp hpair
      obtain ⟨hlow, hrestLow⟩ := List.forall_mem_cons.mp hall
      obtain ⟨f, m₁, halloc, hle, hclear, -⟩ := allocFrame_spec hgfree hglt hmax
      obtain rfl : f = g := by
        by_contra hne
        rw [hbelow.mpr ⟨hmin, hlow⟩ f (by omega)] at hclear
        cases hclear
      obtain ⟨hsame, hbits⟩ := hstep halloc
      obtain ⟨m', hrest⟩ := (ih (by rw [hsame]; exact hmax) htail
        (fun a ha => hused a (List.mem_cons_of_mem _ ha))
        (fun a ha => by rw [hsame]; exact hlt a (List.mem_cons_of_mem _ ha)) hbits).mpr
          ⟨hascend, hrestLow⟩
      exact ⟨m', .cons halloc hclear hrest⟩

end Bingos.Frames
