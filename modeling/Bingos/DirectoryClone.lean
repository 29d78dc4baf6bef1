import Bingos.FrameBatches
import Bingos.FrameCopies
import Bingos.MmapPages

set_option autoImplicit false

/-! What `page_dir_clone` builds: the shared tables as they are, and for every
other table a copy whose frames are new. -/
namespace Bingos.Mmap
open MachineWords Frames ByteMemory

def framedPages (s : Space) (t : ℕ) (js : List ℕ) : List ℕ :=
  js.filter fun j => (readPage s ⟨t, j⟩).addr ≠ 0

def pagePairs (s : Space) (t : ℕ) (s' : Space) (t' : ℕ) (js : List ℕ) : List (ℕ × ℕ) :=
  (framedPages s t js).map fun j => ((readPage s ⟨t, j⟩).addr, (readPage s' ⟨t', j⟩).addr)

variable {M : Machine} {d kernelPd : PageDir} {s s' s₁ : Space} {i j src t tabl : ℕ} {js : List ℕ}
  {st : PageDir × Machine}

theorem mem_framedPages :
    j ∈ framedPages s t js ↔ j ∈ js ∧ (readPage s ⟨t, j⟩).addr ≠ 0 := by
  simp [framedPages]

theorem framedPages_cons (s : Space) (t j : ℕ) (js : List ℕ) :
    framedPages s t (j :: js) = framedPages s t [j] ++ framedPages s t js := by
  rw [framedPages, ← List.singleton_append, List.filter_append]
  rfl

theorem framedPages_congr (js : List ℕ) (h : ∀ j, readPage s' ⟨t, j⟩ = readPage s ⟨t, j⟩) :
    framedPages s' t js = framedPages s t js := by
  simp only [framedPages, h]

theorem readPage_congr (h : s'.tables t = s.tables t) (j : ℕ) :
    readPage s' ⟨t, j⟩ = readPage s ⟨t, j⟩ := by
  simp only [readPage, h]

/-- The pages `js` of the table `src` have been copied to those of `tabl`. -/
structure PagesCloned (src tabl : ℕ) (js : List ℕ) (M M' : Machine) : Prop where
  allocs : Allocs M.space.frames ((pagePairs M.space src M'.space tabl js).map Prod.snd)
    M'.space.frames
  phys : M'.phys = copyFrames M.phys (pagePairs M.space src M'.space tabl js)
  others : ∀ t, t ≠ tabl → M'.space.tables t = M.space.tables t
  backed : (M'.space.tables tabl).isSome
  kept : ∀ j, j ∉ framedPages M.space src js →
    readPage M'.space ⟨tabl, j⟩ = readPage M.space ⟨tabl, j⟩
  framed : ∀ j ∈ framedPages M.space src js,
    (readPage M'.space ⟨tabl, j⟩).addr ≠ 0 ∧ (readPage M'.space ⟨tabl, j⟩).addr < 2 ^ 20
  spent : (room M.space.frames).card =
    (room M'.space.frames).card + (framedPages M.space src js).length

theorem PagesCloned.cons {M₁ M' : Machine} (hne : src ≠ tabl)
    (hj : j ∉ js) (h₁ : PagesCloned src tabl [j] M M₁) (h : PagesCloned src tabl js M₁ M') :
    PagesCloned src tabl (j :: js) M M' := by
  have hsrc : ∀ i, readPage M₁.space ⟨src, i⟩ = readPage M.space ⟨src, i⟩ :=
    readPage_congr (h₁.others src hne)
  have hframed : framedPages M₁.space src js = framedPages M.space src js :=
    framedPages_congr js hsrc
  have hlater : readPage M'.space ⟨tabl, j⟩ = readPage M₁.space ⟨tabl, j⟩ :=
    h.kept j fun hmem => hj (mem_framedPages.mp hmem).1
  have hpairs : pagePairs M.space src M'.space tabl (j :: js) =
      pagePairs M.space src M₁.space tabl [j] ++ pagePairs M₁.space src M'.space tabl js := by
    rw [pagePairs, pagePairs, pagePairs, framedPages_cons, List.map_append, hframed]
    simp only [hsrc]
    refine congrArg (· ++ _) (List.map_congr_left fun i hi => ?_)
    obtain rfl : i = j := List.mem_singleton.mp (mem_framedPages.mp hi).1
    rw [hlater]
  refine ⟨?_, ?_, ?_, h.backed, ?_, ?_, ?_⟩
  · rw [hpairs, List.map_append]
    exact h₁.allocs.append h.allocs
  · rw [h.phys, h₁.phys, hpairs, copyFrames_append]
  · intro t ht
    rw [h.others t ht, h₁.others t ht]
  · intro i hi
    rw [framedPages_cons, List.mem_append, not_or] at hi
    rw [h.kept i (by rw [hframed]; exact hi.2), h₁.kept i hi.1]
  · intro i hi
    rw [framedPages_cons, List.mem_append] at hi
    rcases hi with hi | hi
    · have hone := h₁.framed i hi
      obtain rfl : i = j := List.mem_singleton.mp (mem_framedPages.mp hi).1
      rwa [hlater]
    · exact h.framed i (by rw [hframed]; exact hi)
  · rw [h₁.spent, h.spent, framedPages_cons M.space src j js, List.length_append, hframed]
    omega

theorem clonePage_spec (src : ℕ)
    (hbacked : (M.space.tables tabl).isSome) (hbare : (readPage M.space ⟨tabl, j⟩).addr = 0)
    (hzero : bitmapTest M.space.frames 0 = true) (hmax : M.space.frames.maxFrames < 2 ^ 32)
    (hroom : (framedPages M.space src [j]).length ≤ (room M.space.frames).card) :
    ∃ M', clonePage src tabl M j = some M' ∧ PagesCloned src tabl [j] M M' := by
  by_cases hp : (readPage M.space ⟨src, j⟩).addr = 0
  · have hnone : framedPages M.space src [j] = [] := by simp [framedPages, hp]
    refine ⟨M, by simp [clonePage, hp], ?_, ?_, fun _ _ => rfl, hbacked, fun _ _ => rfl, ?_, ?_⟩
    · rw [pagePairs, hnone]
      exact .nil _
    · rw [pagePairs, hnone]
      rfl
    · rw [hnone]
      simp
    · rw [hnone]
      rfl
  · have hone : framedPages M.space src [j] = [j] := by simp [framedPages, hp]
    rw [hone] at hroom
    obtain ⟨f, m, halloc, hf, hcard, -⟩ := allocFrame_room (by simpa using hroom) hmax
    obtain ⟨⟨-, hlt⟩, hfree⟩ := mem_room.mp hf
    have hf0 : f ≠ 0 := by
      rintro rfl
      rw [hzero] at hfree
      cases hfree
    obtain ⟨s₁, hmap, hm, -, hread₁, hothers₁, hsome₁⟩ :=
      pageMap_bare (r := ⟨tabl, j⟩) false false hbacked hbare halloc
    have hb₁ : (s₁.tables tabl).isSome := by
      rw [hsome₁]
      exact hbacked
    let q := cloneFlags (readPage M.space ⟨src, j⟩) (mappedPage false false f)
    have haddr : q.addr = f := Nat.mod_eq_of_lt hlt
    let s₂ := writePage s₁ ⟨tabl, j⟩ q
    have hread : ∀ r, readPage s₂ r = if r = ⟨tabl, j⟩ then q else readPage M.space r := by
      intro r
      rw [readPage_writePage (r := ⟨tabl, j⟩) hb₁]
      split_ifs with hr
      · rfl
      · rw [hread₁, if_neg hr]
    have hclone : clonePage src tabl M j = some ⟨s₂, copyPagePhysical M.phys
        ((readPage M.space ⟨src, j⟩).addr * 0x1000 % 2 ^ 32) (q.addr * 0x1000 % 2 ^ 32)⟩ := by
      rw [clonePage, if_neg hp, hmap, Option.map_some, hread₁, if_pos rfl]
    have hnew : (readPage s₂ ⟨tabl, j⟩).addr = f := by
      rw [hread, if_pos rfl, haddr]
    have hpairs : pagePairs M.space src s₂ tabl [j] = [((readPage M.space ⟨src, j⟩).addr, f)] := by
      rw [pagePairs, hone, List.map_singleton, hnew]
    have hframes : s₂.frames = m := by rw [writePage_frames, hm]
    refine ⟨_, hclone, ?_, ?_, ?_, ?_, ?_, ?_, ?_⟩
    · rw [hpairs, hframes]
      exact .cons halloc hfree (.nil m)
    · rw [hpairs, copyFrames_cons, haddr, copyFrames, List.foldl_nil]
    · intro t ht
      rw [writePage_tables_of_ne _ _ _ ht, hothers₁ t ht]
    · rw [writePage_isSome]
      exact hb₁
    · intro i hi
      rw [hone, List.mem_singleton] at hi
      rw [hread, if_neg fun he => hi (congrArg PageRef.index he)]
    · intro i hi
      rw [hone, List.mem_singleton] at hi
      rw [hi, hnew]
      exact ⟨hf0, hlt⟩
    · rw [hone, hframes, hcard]
      rfl

theorem clonePages_spec (js : List ℕ) (hnodup : js.Nodup)
    (hne : src ≠ tabl) (hbacked : (M.space.tables tabl).isSome)
    (hbare : ∀ j, (readPage M.space ⟨tabl, j⟩).addr ≠ 0 → j ∉ js)
    (hzero : bitmapTest M.space.frames 0 = true) (hmax : M.space.frames.maxFrames < 2 ^ 32)
    (hroom : (framedPages M.space src js).length ≤ (room M.space.frames).card) :
    ∃ M', js.foldlM (clonePage src tabl) M = some M' ∧ PagesCloned src tabl js M M' := by
  induction js generalizing M with
  | nil =>
    exact ⟨M, rfl, .nil _, rfl, fun _ _ => rfl, hbacked, fun _ _ => rfl, by simp [framedPages], rfl⟩
  | cons j js ih =>
    obtain ⟨hj, hnodup⟩ := List.nodup_cons.mp hnodup
    rw [framedPages_cons, List.length_append] at hroom
    have hbare' : (readPage M.space ⟨tabl, j⟩).addr = 0 := by
      by_contra h
      exact hbare j h List.mem_cons_self
    obtain ⟨M₁, hstep, h₁⟩ := clonePage_spec src hbacked hbare' hzero hmax (by omega)
    have hspent := h₁.spent
    have hsrc : framedPages M₁.space src js = framedPages M.space src js :=
      framedPages_congr js (readPage_congr (h₁.others src hne))
    have hbare₁ : ∀ i, (readPage M₁.space ⟨tabl, i⟩).addr ≠ 0 → i ∉ js := by
      intro i hi hmem
      rw [h₁.kept i fun h => hj (by
        obtain rfl : i = j := List.mem_singleton.mp (mem_framedPages.mp h).1
        exact hmem)] at hi
      exact hbare i hi (List.mem_cons_of_mem _ hmem)
    obtain ⟨M', hrest, h'⟩ := ih hnodup h₁.backed hbare₁
      (by rw [h₁.allocs.test, hzero, Bool.true_or]) (by rw [h₁.allocs.maxFrames_eq]; exact hmax)
      (by rw [hsrc]; omega)
    refine ⟨M', ?_, h₁.cons hne hj h'⟩
    rw [List.foldlM_cons, hstep]
    exact hrest

/-- A table of which each page with a frame has been given a frame, and no other. -/
structure TableCopy (s : Space) (t : ℕ) (s' : Space) (t' : ℕ) : Prop where
  backed : (s'.tables t').isSome
  bare : ∀ j < 1024, (readPage s ⟨t, j⟩).addr = 0 → readPage s' ⟨t', j⟩ = Page.zero
  framed : ∀ j < 1024, (readPage s ⟨t, j⟩).addr ≠ 0 →
    (readPage s' ⟨t', j⟩).addr ≠ 0 ∧ (readPage s' ⟨t', j⟩).addr < 2 ^ 20

theorem TableCopy.addr_eq_zero_iff {t' : ℕ} (h : TableCopy s t s' t')
    (hj : j < 1024) : (readPage s' ⟨t', j⟩).addr = 0 ↔ (readPage s ⟨t, j⟩).addr = 0 := by
  refine ⟨fun h0 => ?_, fun h0 => ?_⟩
  · by_contra hne
    exact (h.framed j hj hne).1 h0
  · rw [h.bare j hj h0]
    rfl

theorem tableClone_spec (hsrc : (M.space.tables src).isSome) (htabl : M.space.tables tabl = none)
    (hzero : bitmapTest M.space.frames 0 = true) (hmax : M.space.frames.maxFrames < 2 ^ 32)
    (hroom : (framedPages M.space src (List.range 1024)).length ≤ (room M.space.frames).card) :
    ∃ M', tableClone M src tabl = some M' ∧ TableCopy M.space src M'.space tabl ∧
      Allocs M.space.frames ((pagePairs M.space src M'.space tabl (List.range 1024)).map Prod.snd)
        M'.space.frames ∧
      M'.phys = copyFrames M.phys (pagePairs M.space src M'.space tabl (List.range 1024)) ∧
      (∀ t, t ≠ tabl → M'.space.tables t = M.space.tables t) ∧
      (room M.space.frames).card = (room M'.space.frames).card +
        (framedPages M.space src (List.range 1024)).length := by
  have hne : src ≠ tabl := by
    rintro rfl
    simp [htabl] at hsrc
  let M₀ : Machine := { M with space := zeroTable M.space tabl }
  have hothers : ∀ t, t ≠ tabl → M₀.space.tables t = M.space.tables t :=
    fun t ht => Function.update_of_ne ht _ _
  have hpage : ∀ j, readPage M₀.space ⟨src, j⟩ = readPage M.space ⟨src, j⟩ :=
    readPage_congr (hothers src hne)
  have hblank : ∀ j, readPage M₀.space ⟨tabl, j⟩ = Page.zero := by
    intro j
    simp [M₀, zeroTable, readPage]
  have hframed : framedPages M₀.space src (List.range 1024) =
      framedPages M.space src (List.range 1024) := framedPages_congr _ hpage
  have hpairs : ∀ s', pagePairs M₀.space src s' tabl (List.range 1024) =
      pagePairs M.space src s' tabl (List.range 1024) := by
    intro s'
    simp only [pagePairs, hframed, hpage]
  have hbare₀ : ∀ j, (readPage M₀.space ⟨tabl, j⟩).addr ≠ 0 → j ∉ List.range 1024 := by
    intro j hj
    rw [hblank] at hj
    exact absurd rfl hj
  have hb₀ : (M₀.space.tables tabl).isSome := by simp [M₀, zeroTable]
  obtain ⟨M', hloop, h⟩ := clonePages_spec (List.range 1024) (M := M₀) List.nodup_range hne hb₀
    hbare₀ hzero hmax (by rw [hframed]; exact hroom)
  have hallocs := h.allocs
  have hphys := h.phys
  have hspent := h.spent
  rw [hpairs] at hallocs hphys
  rw [hframed] at hspent
  refine ⟨M', hloop, ⟨h.backed, fun j _ hp => ?_, fun j hj hp => ?_⟩, hallocs, hphys, ?_, hspent⟩
  · rw [h.kept j fun hmem => (mem_framedPages.mp hmem).2 (by rw [hpage]; exact hp), hblank]
  · exact h.framed j (mem_framedPages.mpr ⟨List.mem_range.mpr hj, by rwa [hpage]⟩)
  · intro t ht
    rw [h.others t ht, hothers t ht]

/-- The table of a slot that is not the kernel's own. -/
def ownTable (kernelPd d : PageDir) (i : ℕ) : Option ℕ :=
  if kernelPd.tabls i = d.tabls i then none else d.tabls i

theorem ownTable_eq_some :
    ownTable kernelPd d i = some t ↔ d.tabls i = some t ∧ kernelPd.tabls i ≠ some t := by
  unfold ownTable
  split_ifs with h
  · simp only [false_iff, not_and, not_not]
    intro ht
    rw [h, ht]
  · refine ⟨fun ht => ⟨ht, fun hk => h (hk.trans ht.symm)⟩, fun ht => ht.1⟩

theorem ownTable_eq_none :
    ownTable kernelPd d i = none ↔ d.tabls i = none ∨ kernelPd.tabls i = d.tabls i := by
  unfold ownTable
  split_ifs with h
  · simp [h]
  · simp [h]

/-- The frames of the pages of a slot whose table is not the kernel's own. -/
def slotFrames (kernelPd d : PageDir) (s : Space) (i : ℕ) : List ℕ :=
  (ownTable kernelPd d i).elim [] fun t =>
    (framedPages s t (List.range 1024)).map fun j => (readPage s ⟨t, j⟩).addr

def ownFrames (kernelPd d : PageDir) (s : Space) : List ℕ :=
  (List.range 1024).flatMap (slotFrames kernelPd d s)

section Slots

variable (kmalloc : ℕ → ℕ) (kernelPd src : PageDir)

def slotPairs (s s' : Space) (i : ℕ) : List (ℕ × ℕ) :=
  (ownTable kernelPd src i).elim [] fun t => pagePairs s t s' (kmalloc i) (List.range 1024)

/-- The kernel heap returns blocks that hold no table yet, a different one for
each slot, and the tables of the directory are in kernel memory. -/
structure Allocatable (s : Space) (is : List ℕ) : Prop where
  backed : ∀ i t, src.tabls i = some t → (s.tables t).isSome
  unused : ∀ i ∈ is, s.tables (kmalloc i) = none
  injective : Function.Injective kmalloc

variable (physaddr : ℕ → ℕ)

structure SlotsCloned (is : List ℕ) (st st' : PageDir × Machine) : Prop where
  allocs : Allocs st.2.space.frames
    ((is.flatMap (slotPairs kmalloc kernelPd src st.2.space st'.2.space)).map Prod.snd)
    st'.2.space.frames
  phys : st'.2.phys =
    copyFrames st.2.phys (is.flatMap (slotPairs kmalloc kernelPd src st.2.space st'.2.space))
  others : ∀ t, t ∉ is.map kmalloc → st'.2.space.tables t = st.2.space.tables t
  own : ∀ i ∈ is, ∀ t, ownTable kernelPd src i = some t →
    st'.1.tabls i = some (kmalloc i) ∧ TableCopy st.2.space t st'.2.space (kmalloc i) ∧
      st'.1.entries i = ⟨true, true, true, physaddr (kmalloc i) / 2 ^ 12⟩
  shared : ∀ i ∈ is, ownTable kernelPd src i = none → st'.1.tabls i = src.tabls i ∧
    st'.1.entries i = if src.tabls i = none then st.1.entries i else src.entries i
  rest : ∀ i, i ∉ is → st'.1.tabls i = st.1.tabls i ∧ st'.1.entries i = st.1.entries i
  physical : st'.1.physical = st.1.physical
  spent : (room st.2.space.frames).card = (room st'.2.space.frames).card +
    (is.flatMap (slotFrames kernelPd src st.2.space)).length

end Slots

section SlotRuns

variable {kmalloc physaddr : ℕ → ℕ} {src : PageDir}

theorem slotPairs_congr {s₁' : Space} (hsrc : ∀ t, src.tabls i = some t → s₁.tables t = s.tables t)
    (hcopy : s₁'.tables (kmalloc i) = s'.tables (kmalloc i)) :
    slotPairs kmalloc kernelPd src s₁ s₁' i = slotPairs kmalloc kernelPd src s s' i := by
  unfold slotPairs
  cases h : ownTable kernelPd src i with
  | none => simp only [Option.elim_none]
  | some t =>
    have ht := readPage_congr (hsrc t (ownTable_eq_some.mp h).1)
    simp only [Option.elim_some, pagePairs, framedPages_congr _ ht, ht, readPage_congr hcopy]

theorem slotFrames_congr (h : ∀ t, d.tabls i = some t → s₁.tables t = s.tables t) :
    slotFrames kernelPd d s₁ i = slotFrames kernelPd d s i := by
  unfold slotFrames
  cases hown : ownTable kernelPd d i with
  | none => simp only [Option.elim_none]
  | some t =>
    have ht := readPage_congr (h t (ownTable_eq_some.mp hown).1)
    simp only [Option.elim_some, framedPages_congr _ ht, ht]

theorem SlotsCloned.cons {is : List ℕ} {st₁ st' : PageDir × Machine}
    (hk : Allocatable kmalloc src st.2.space (i :: is)) (hi : i ∉ is)
    (h₁ : SlotsCloned kmalloc kernelPd src physaddr [i] st st₁)
    (h : SlotsCloned kmalloc kernelPd src physaddr is st₁ st') :
    SlotsCloned kmalloc kernelPd src physaddr (i :: is) st st' := by
  have hsrc : ∀ k t, src.tabls k = some t → st₁.2.space.tables t = st.2.space.tables t := by
    intro k t ht
    refine h₁.others t fun hmem => ?_
    obtain rfl : t = kmalloc i := by simpa using hmem
    have hb := hk.backed k _ ht
    rw [hk.unused i List.mem_cons_self] at hb
    cases hb
  have hcopy : st'.2.space.tables (kmalloc i) = st₁.2.space.tables (kmalloc i) := by
    refine h.others _ fun hmem => ?_
    obtain ⟨k, hkmem, he⟩ := List.mem_map.mp hmem
    exact hi (hk.injective he ▸ hkmem)
  have hpairs : (i :: is).flatMap (slotPairs kmalloc kernelPd src st.2.space st'.2.space) =
      [i].flatMap (slotPairs kmalloc kernelPd src st.2.space st₁.2.space) ++
        is.flatMap (slotPairs kmalloc kernelPd src st₁.2.space st'.2.space) := by
    rw [List.flatMap_cons, List.flatMap_singleton, slotPairs_congr (fun _ _ => rfl) hcopy]
    refine congrArg (_ ++ ·) (List.flatMap_congr fun k _ => ?_)
    exact (slotPairs_congr (hsrc k) rfl).symm
  have hframes : is.flatMap (slotFrames kernelPd src st₁.2.space) =
      is.flatMap (slotFrames kernelPd src st.2.space) :=
    List.flatMap_congr fun k _ => slotFrames_congr (hsrc k)
  refine ⟨?_, ?_, ?_, ?_, ?_, ?_, h.physical.trans h₁.physical, ?_⟩
  · rw [hpairs, List.map_append]
    exact h₁.allocs.append h.allocs
  · rw [hpairs, copyFrames_append, h.phys, h₁.phys]
  · intro t ht
    rw [List.map_cons, List.mem_cons, not_or] at ht
    rw [h.others t ht.2, h₁.others t (by simpa using ht.1)]
  · intro k hmem t ht
    by_cases hki : k = i
    · subst hki
      obtain ⟨hslot, hcopied, hentry⟩ := h₁.own k List.mem_cons_self t ht
      have hread := readPage_congr hcopy
      refine ⟨(h.rest k hi).1.trans hslot, ⟨by rw [hcopy]; exact hcopied.backed, ?_, ?_⟩,
        (h.rest k hi).2.trans hentry⟩
      · intro j hj hp
        rw [hread, hcopied.bare j hj hp]
      · intro j hj hp
        rw [hread]
        exact hcopied.framed j hj hp
    · obtain ⟨hslot, hcopied, hentry⟩ := h.own k (List.mem_of_ne_of_mem hki hmem) t ht
      have hread := readPage_congr (hsrc k t (ownTable_eq_some.mp ht).1)
      refine ⟨hslot, ⟨hcopied.backed, ?_, ?_⟩, hentry⟩
      · intro j hj hp
        exact hcopied.bare j hj (by rw [hread]; exact hp)
      · intro j hj hp
        exact hcopied.framed j hj (by rw [hread]; exact hp)
  · intro k hmem hnone
    by_cases hki : k = i
    · subst hki
      rw [(h.rest k hi).1, (h.rest k hi).2]
      exact h₁.shared k List.mem_cons_self hnone
    · rw [← (h₁.rest k fun hone => hki (List.mem_singleton.mp hone)).2]
      exact h.shared k (List.mem_of_ne_of_mem hki hmem) hnone
  · intro k hmem
    rw [List.mem_cons, not_or] at hmem
    have hfirst := h₁.rest k (by simpa using hmem.1)
    rw [(h.rest k hmem.2).1, (h.rest k hmem.2).2]
    exact hfirst
  · rw [h₁.spent, h.spent, hframes, List.flatMap_singleton, List.flatMap_cons,
      List.length_append]
    omega

theorem cloneSlot_spec (physaddr : ℕ → ℕ) (kernelPd : PageDir)
    (hk : Allocatable kmalloc src st.2.space [i]) (hslot : st.1.tabls i = none)
    (hzero : bitmapTest st.2.space.frames 0 = true) (hmax : st.2.space.frames.maxFrames < 2 ^ 32)
    (hroom : (slotFrames kernelPd src st.2.space i).length ≤ (room st.2.space.frames).card) :
    ∃ st', cloneSlot kmalloc physaddr kernelPd src st i = some st' ∧
      SlotsCloned kmalloc kernelPd src physaddr [i] st st' := by
  cases hown : ownTable kernelPd src i with
  | none =>
    have hnone : ∀ s s', slotPairs kmalloc kernelPd src s s' i = [] := fun s s' => by
      simp [slotPairs, hown]
    have hframes : slotFrames kernelPd src st.2.space i = [] := by simp [slotFrames, hown]
    have hkeep : ∀ d : PageDir, d.tabls i = src.tabls i →
        (d.entries i = if src.tabls i = none then st.1.entries i else src.entries i) →
        (∀ k, k ≠ i → d.tabls k = st.1.tabls k ∧ d.entries k = st.1.entries k) →
        d.physical = st.1.physical →
        SlotsCloned kmalloc kernelPd src physaddr [i] st (d, st.2) := by
      intro d htabl hentry hrest hphysical
      refine ⟨?_, ?_, fun _ _ => rfl, ?_, ?_, ?_, hphysical, ?_⟩
      · rw [List.flatMap_singleton, hnone]
        exact .nil _
      · rw [List.flatMap_singleton, hnone]
        rfl
      · intro k hmem t ht
        rw [List.mem_singleton.mp hmem, hown] at ht
        cases ht
      · intro k hmem _
        rw [List.mem_singleton.mp hmem]
        exact ⟨htabl, hentry⟩
      · intro k hmem
        exact hrest k fun he => hmem (List.mem_singleton.mpr he)
      · rw [List.flatMap_singleton, hframes]
        rfl
    cases ht : src.tabls i with
    | none =>
      exact ⟨st, by simp [cloneSlot, ht],
        hkeep st.1 (hslot.trans ht.symm) (if_pos ht).symm (fun _ _ => ⟨rfl, rfl⟩) rfl⟩
    | some t =>
      have hshared : kernelPd.tabls i = some t := by
        rcases ownTable_eq_none.mp hown with h | h
        · rw [ht] at h
          cases h
        · rw [h, ht]
      refine ⟨(st.1.setSlot i (some t) (src.entries i), st.2), by simp [cloneSlot, ht, hshared],
        hkeep _ ?_ ?_ ?_ rfl⟩
      · simp [PageDir.setSlot, ht]
      · simp [PageDir.setSlot, ht]
      · intro k hki
        simp [PageDir.setSlot, hki]
  | some t =>
    obtain ⟨ht, hprivate⟩ := ownTable_eq_some.mp hown
    have hpairs : ∀ s s', slotPairs kmalloc kernelPd src s s' i =
        pagePairs s t s' (kmalloc i) (List.range 1024) := fun s s' => by
      simp [slotPairs, hown]
    have hframes : (slotFrames kernelPd src st.2.space i).length =
        (framedPages st.2.space t (List.range 1024)).length := by
      simp [slotFrames, hown]
    obtain ⟨M', hclone, hcopied, hallocs, hphys, hothers, hspent⟩ :=
      tableClone_spec (hk.backed i t ht) (hk.unused i List.mem_cons_self) hzero hmax
        (by rw [← hframes]; exact hroom)
    refine ⟨(st.1.setSlot i (some (kmalloc i)) ⟨true, true, true, physaddr (kmalloc i) / 2 ^ 12⟩, M'),
      by simp [cloneSlot, ht, hprivate, hclone], ?_, ?_, ?_, ?_, ?_, ?_, rfl, ?_⟩
    · rw [List.flatMap_singleton, hpairs]
      exact hallocs
    · rw [List.flatMap_singleton, hpairs]
      exact hphys
    · intro b hb
      exact hothers b (by simpa using hb)
    · intro k hmem t' ht'
      obtain rfl := List.mem_singleton.mp hmem
      obtain rfl : t = t' := Option.some.inj (hown.symm.trans ht')
      exact ⟨by simp [PageDir.setSlot], hcopied, by simp [PageDir.setSlot]⟩
    · intro k hmem hnone
      rw [List.mem_singleton.mp hmem, hown] at hnone
      cases hnone
    · intro k hmem
      have hki : k ≠ i := fun he => hmem (List.mem_singleton.mpr he)
      simp [PageDir.setSlot, hki]
    · rw [List.flatMap_singleton, hframes]
      exact hspent

theorem cloneSlots_spec (physaddr : ℕ → ℕ) (kernelPd : PageDir) (is : List ℕ)
    (st : PageDir × Machine) (hnodup : is.Nodup) (hk : Allocatable kmalloc src st.2.space is)
    (hslots : ∀ i ∈ is, st.1.tabls i = none)
    (hzero : bitmapTest st.2.space.frames 0 = true)
    (hmax : st.2.space.frames.maxFrames < 2 ^ 32)
    (hroom : (is.flatMap (slotFrames kernelPd src st.2.space)).length ≤
      (room st.2.space.frames).card) :
    ∃ st', is.foldlM (cloneSlot kmalloc physaddr kernelPd src) st = some st' ∧
      SlotsCloned kmalloc kernelPd src physaddr is st st' := by
  induction is generalizing st with
  | nil =>
    exact ⟨st, rfl, .nil _, rfl, fun _ _ => rfl, by simp, by simp, fun _ _ => ⟨rfl, rfl⟩, rfl, rfl⟩
  | cons i is ih =>
    obtain ⟨hi, hnodup⟩ := List.nodup_cons.mp hnodup
    rw [List.flatMap_cons, List.length_append] at hroom
    obtain ⟨st₁, hstep, h₁⟩ := cloneSlot_spec physaddr kernelPd
      ⟨hk.backed, fun k hmem => hk.unused k (List.mem_singleton.mp hmem ▸ List.mem_cons_self),
        hk.injective⟩ (hslots i List.mem_cons_self) hzero hmax (by omega)
    have hspent := h₁.spent
    rw [List.flatMap_singleton] at hspent
    have hsame : ∀ t, t ≠ kmalloc i → st₁.2.space.tables t = st.2.space.tables t :=
      fun t ht => h₁.others t (by simpa using ht)
    have hsrc : ∀ k t, src.tabls k = some t → st₁.2.space.tables t = st.2.space.tables t := by
      intro k t ht
      refine hsame t ?_
      rintro rfl
      have hb := hk.backed k _ ht
      rw [hk.unused i List.mem_cons_self] at hb
      cases hb
    have hk₁ : Allocatable kmalloc src st₁.2.space is := by
      refine ⟨fun k t ht => ?_, fun k hmem => ?_, hk.injective⟩
      · rw [hsrc k t ht]
        exact hk.backed k t ht
      · rw [hsame _ fun he => hi (hk.injective he ▸ hmem)]
        exact hk.unused k (List.mem_cons_of_mem _ hmem)
    have hslots₁ : ∀ k ∈ is, st₁.1.tabls k = none := by
      intro k hmem
      rw [(h₁.rest k fun h => hi (List.mem_singleton.mp h ▸ hmem)).1]
      exact hslots k (List.mem_cons_of_mem _ hmem)
    have hroom₁ : (is.flatMap (slotFrames kernelPd src st₁.2.space)).length ≤
        (room st₁.2.space.frames).card := by
      have hsame : is.flatMap (slotFrames kernelPd src st₁.2.space) =
          is.flatMap (slotFrames kernelPd src st.2.space) :=
        List.flatMap_congr fun k _ => slotFrames_congr (hsrc k)
      rw [hsame]
      omega
    obtain ⟨st', hrest, h'⟩ := ih st₁ hnodup hk₁ hslots₁ (by rw [h₁.allocs.test, hzero, Bool.true_or])
      (by rw [h₁.allocs.maxFrames_eq]; exact hmax) hroom₁
    refine ⟨st', ?_, h₁.cons hk hi h'⟩
    rw [List.foldlM_cons, hstep]
    exact hrest

end SlotRuns

end Bingos.Mmap
