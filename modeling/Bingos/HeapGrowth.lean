import Bingos.MmapFrames

set_option autoImplicit false

/-! Heap growth through `sys_brk`: the range between two breaks is unmapped and
mapped again by `do_mmap`. -/
namespace Bingos.Mmap
open MachineWords Frames StepRuns

def uheapStart : ℕ := 0x31100000

def uheapInitialSize : ℕ := 0x200000

structure BrkProcess where
  space : Space
  brk : ℕ

/-- `none` is a failed assertion; otherwise the value returned and the process
after the call. -/
def sysBrk (kmalloc : ℕ → ℕ) (p : BrkProcess) (brk : ℕ) : Option (ℕ × BrkProcess) :=
  if brk < p.brk then some (p.brk, p)
  else if pageAlign p.brk = pageAlign brk then some (brk, { p with brk := brk })
  else if brk ≤ p.brk then
    (doMunmap p.space (pageAlign brk) (sub32 (pageAlign p.brk) (pageAlign brk))).map
      fun s => (brk, ⟨s, brk⟩)
  else if asInt (freePages p.space.frames) < 0 then some (p.brk, p)
  else
    (doMmap kmalloc p.space (pageAlign p.brk) (sub32 (pageAlign brk) (pageAlign p.brk))).map
      fun s => (brk, ⟨s, brk⟩)

def HeapMapped (p : BrkProcess) : Prop :=
  ∀ v, uheapStart / pageSize ≤ v → pageSize * v < p.brk → frameOf p.space v ≠ 0

/-- The call returns, does not lower the break, maps the heap up to the new one
and leaves the frames of the pages below the old one. -/
def Grows (kmalloc : ℕ → ℕ) (p : BrkProcess) (brk : ℕ) : Prop :=
  ∃ ret q, sysBrk kmalloc p brk = some (ret, q) ∧ p.brk ≤ q.brk ∧ HeapMapped q ∧
    ∀ v, pageSize * v < p.brk → frameOf q.space v = frameOf p.space v

structure Extends (p : BrkProcess) (brk : ℕ) : Prop where
  above : p.brk < brk
  pages : pageAlign p.brk ≠ pageAlign brk
  counted : ¬ asInt (freePages p.space.frames) < 0

/-- Growth does not run into an area unless the whole range is mapped. -/
def Unobstructed (p : BrkProcess) (brk : ℕ) : Prop :=
  Extends p brk → Covered p.space (pageAlign p.brk) (pageAlign brk - pageAlign p.brk)

def Affordable (p : BrkProcess) (brk : ℕ) : Prop :=
  lacking p.space (pageAlign p.brk / pageSize) (pages (pageAlign brk - pageAlign p.brk) + 1) ≤
    (freeFrames p.space.frames).card

structure AfterExec (p : BrkProcess) : Prop where
  good : Good p.space
  heap : ⟨uheapStart, uheapStart + uheapInitialSize⟩ ∈ p.space.mmap
  mapped : ∀ v, InRange (uheapStart / pageSize) (uheapInitialSize / pageSize) v →
    frameOf p.space v ≠ 0
  brk : p.brk = uheapStart

def BrkStep (p : BrkProcess) (brk : ℕ) (q : BrkProcess) : Prop :=
  brk < kheapStart ∧ Affordable p brk ∧
    ∃ kmalloc ret, Fresh p.space kmalloc ∧ sysBrk kmalloc p brk = some (ret, q)

variable {p : BrkProcess} {s t : Space} {brk fuel v : ℕ} {kmalloc : ℕ → ℕ}

theorem pageMap_shaped (h : Shaped s) {b : ℕ} (hb : s.tabls (v / 1024) = some b)
    {kernel rw : Bool} (hmap : pageMap s ⟨b, v % 1024⟩ kernel rw = some t) :
    Shaped t ∧ t.tabls = s.tabls ∧ (∀ b, (t.tables b).isSome = (s.tables b).isSome) ∧
      ∀ u, u ≠ v → frameOf t u = frameOf s u := by
  unfold pageMap at hmap
  split_ifs at hmap
  · obtain rfl := Option.some.inj hmap
    exact ⟨h, rfl, fun _ => rfl, fun _ _ => rfl⟩
  · split at hmap
    · obtain rfl := Option.some.inj hmap
      refine ⟨h.of_tables (writePage_tabls _ _ _) (writePage_isSome _ _ _), writePage_tabls _ _ _,
        writePage_isSome _ _ _, fun u hu => ?_⟩
      rw [frameOf_writePage h hb, if_neg hu]
    · cases hmap

theorem mapLoop_below (h : Shaped s) (hk : Fresh s kmalloc)
    {last u : ℕ} (hend : last ≤ kheapStart / pageSize) (hu : u < v)
    (hloop : mapLoop kmalloc s (pageSize * v) (pageSize * last) fuel = some t) :
    frameOf t u = frameOf s u := by
  induction fuel generalizing s v with
  | zero => cases hloop
  | succ fuel ih =>
    by_cases hmore : v ≤ last
    · have hv := page_lt (hmore.trans hend)
      obtain ⟨b, s₁, hget, hslot, hs₁, hk₁, -, -, -, hframe₁⟩ := getPage_shaped h hk hv
      rw [mapLoop_next hmore hend hget] at hloop
      obtain ⟨s₂, hmap, hloop⟩ := Option.bind_eq_some_iff.mp hloop
      obtain ⟨hs₂, htabls, htables, hframe₂⟩ := pageMap_shaped hs₁ hslot hmap
      rw [ih hs₂ (hk₁.of_tables htabls htables) (by omega) hloop, hframe₂ u (by omega), hframe₁]
    · rw [mapLoop_done (Nat.not_le.mp hmore)] at hloop
      rw [← Option.some.inj hloop]

theorem mapLoop_zero (h : Shaped s) (hk : Fresh s kmalloc) {last : ℕ}
    (hend : last ≤ kheapStart / pageSize) (hv : v ≤ last) (hzero : bitmapTest s.frames 0 = false)
    (hpos : 0 < s.frames.maxFrames) (hmax : s.frames.maxFrames < 2 ^ 32) (hframe : frameOf s v = 0)
    (hloop : mapLoop kmalloc s (pageSize * v) (pageSize * last) fuel = some t) :
    frameOf t v = 0 := by
  cases fuel with
  | zero => cases hloop
  | succ fuel =>
    have hv' := page_lt (hv.trans hend)
    obtain ⟨b, s₁, hget, hslot, hs₁, hk₁, hframes₁, -, -, hframe₁⟩ := getPage_shaped h hk hv'
    obtain ⟨f, m, halloc, hle, -⟩ := allocFrame_spec hzero hpos hmax
    have haddr : (readPage s₁ ⟨b, v % 1024⟩).addr = 0 := by
      rw [← frameOf_eq_addr hslot, hframe₁, hframe]
    obtain rfl : f = 0 := by omega
    rw [mapLoop_next hv hend hget] at hloop
    simp only [pageMap, haddr, hframes₁, halloc, ne_eq, not_true_eq_false, if_false,
      Option.bind_some] at hloop
    have hs₂ := hs₁.of_tables (writePage_tabls { s₁ with frames := m } ⟨b, v % 1024⟩
      ⟨true, true, true, false, false, 0⟩) (writePage_isSome _ _ _)
    have hk₂ := hk₁.of_tables (writePage_tabls { s₁ with frames := m } ⟨b, v % 1024⟩
      ⟨true, true, true, false, false, 0⟩) (writePage_isSome _ _ _)
    rw [mapLoop_below hs₂ hk₂ hend (Nat.lt_succ_self v) hloop, frameOf_writePage hs₁ hslot, if_pos rfl]

section Calls
variable {addr len u : ℕ} (hr : UserRange (pageSize * (addr / pageSize)) len)
  (hz : pageAlign len ≠ 0)

include hr in
theorem page_end_le : addr / pageSize + pages len ≤ kheapStart / pageSize := by
  have hend := hr.end_le
  rwa [Nat.mul_div_cancel_left _ (by decide)] at hend

include hr hz in
theorem doMmap_pages (s : Space) :
    doMmap kmalloc s addr len =
      (if s.mmap.any (overlaps addr (add32 addr (pageAlign len))) then
        unmapLoop { s with mmap := s.mmap.filter (fun a =>
            !overlaps addr (add32 addr (pageAlign len)) a) } (pageSize * (addr / pageSize))
          (pageSize * (addr / pageSize + pages len)) pageFuel
      else some s).bind fun s₁ =>
        (mapLoop kmalloc s₁ (pageSize * (addr / pageSize))
          (pageSize * (addr / pageSize + pages len)) pageFuel).map fun s₂ =>
            { s₂ with mmap := insertVm s₂.mmap ⟨addr, add32 addr (pageAlign len)⟩ } := by
  have hend := page_end_le hr
  have hoff : addr % pageSize < pageSize := Nat.mod_lt _ (by decide)
  have hsplit := Nat.div_add_mod addr pageSize
  obtain ⟨-, halign⟩ := hr.align
  have hstop : add32 addr (pageAlign len) =
      pageSize * (addr / pageSize + pages len) + addr % pageSize := by
    rw [pageAlign_eq]
    unfold kheapStart at hend
    unfold pageSize at *
    rw [add32_of_lt (by omega)]
    omega
  have hunmap : ∀ s, unmapLoop s addr (add32 addr (pageAlign len)) pageFuel =
      unmapLoop s (pageSize * (addr / pageSize)) (pageSize * (addr / pageSize + pages len))
        pageFuel := fun s => by
    rw [hstop, ← unmapLoop_offset hoff hend, hsplit]
  have hmap : ∀ s, mapLoop kmalloc s addr (add32 addr (pageAlign len)) pageFuel =
      mapLoop kmalloc s (pageSize * (addr / pageSize)) (pageSize * (addr / pageSize + pages len))
        pageFuel := fun s => by
    rw [hstop, ← mapLoop_offset hoff hend, hsplit]
  have hfirst := doMunmap.eq_1 s addr (pageAlign len)
  simp only [halign, if_neg hz, hunmap] at hfirst
  rw [← hfirst]
  simp only [doMmap, if_neg hz, hmap]
  cases doMunmap s addr (pageAlign len) with
  | none => rfl
  | some s₁ =>
    dsimp only
    rw [Option.bind_some]
    cases mapLoop kmalloc s₁ (pageSize * (addr / pageSize))
      (pageSize * (addr / pageSize + pages len)) pageFuel <;> rfl

include hr hz in
/-- In a range that meets an area, unmapping a page without a frame frees frame zero, which is then
given to the first page. -/
theorem doMmap_meets_bare (h : Good s) (hk : Fresh s kmalloc)
    (hany : s.mmap.any (overlaps addr (add32 addr (pageAlign len))) = true)
    (hu : InRange (addr / pageSize) (pages len) u) (hbare : frameOf s u = 0)
    (hrun : doMmap kmalloc s addr len = some t) : frameOf t (addr / pageSize) = 0 := by
  have hend := page_end_le hr
  rw [doMmap_pages hr hz, if_pos hany] at hrun
  obtain ⟨s₁, hunmap, hrest⟩ := Option.bind_eq_some_iff.mp hrun
  obtain ⟨s₂, hmap, rfl⟩ := Option.map_eq_some_iff.mp hrest
  generalize s.mmap.filter _ = areas at hunmap
  have hgood := (good_mmap_iff s areas).mpr h
  have hlost := unmapLoop_zero hgood hend hu hbare hunmap
  have hs₁ := unmapLoop_released hgood.toShaped hend hunmap
  have hmax : s₁.frames.maxFrames = s.frames.maxFrames := by
    rw [hs₁.frames, foldl_freeFrame_maxFrames]
  have hmanaged := h.managed 0 (Nat.zero_le _)
  have haddressable := h.addressable
  change frameOf s₂ (addr / pageSize) = 0
  refine mapLoop_zero hs₁.shaped (hk.of_tables hs₁.tabls hs₁.tables) hend (Nat.le_add_right _ _)
    hlost (by omega) (by omega) ?_ hmap
  unfold InRange at hu
  rw [hs₁.frame, if_pos ⟨le_refl _, by omega⟩]

include hr hz in
theorem doMmap_no_table (h : Shaped s)
    (hany : s.mmap.any (overlaps addr (add32 addr (pageAlign len))) = true)
    (hu : InRange (addr / pageSize) (pages len) u) (htable : s.tabls (u / 1024) = none) :
    doMmap kmalloc s addr len = none := by
  rw [doMmap_pages hr hz, if_pos hany]
  generalize s.mmap.filter _ = areas
  cases hloop : unmapLoop { s with mmap := areas } (pageSize * (addr / pageSize))
      (pageSize * (addr / pageSize + pages len)) pageFuel with
  | none => rfl
  | some s₁ =>
    have hshaped : Shaped { s with mmap := areas } := ⟨h.backed, h.distinct⟩
    obtain ⟨b, hb⟩ := (unmapLoop_released hshaped (page_end_le hr) hloop).backed u hu
    cases htable.symm.trans hb

end Calls

theorem pageAlign_bounds {x : ℕ} (h : x ≤ kheapStart) :
    x ≤ pageAlign x ∧ pageAlign x < x + pageSize ∧ pageAlign x % pageSize = 0 ∧
      pageAlign x ≤ kheapStart := by
  unfold kheapStart at *
  unfold pageAlign pageSize
  rw [add32_of_lt (by omega)]
  omega

structure Heaped (p : BrkProcess) : Prop where
  good : Good p.space
  low : uheapStart ≤ p.brk
  high : p.brk ≤ kheapStart
  mapped : HeapMapped p

theorem AfterExec.heaped (h : AfterExec p) : Heaped p := by
  have hbrk := h.brk
  refine ⟨h.good, hbrk.ge, by rw [hbrk]; decide, fun v hlow hv => ?_⟩
  rw [hbrk] at hv
  unfold uheapStart pageSize at hlow hv
  omega

structure Growth (p : BrkProcess) (brk : ℕ) : Prop where
  lt : pageAlign p.brk < pageAlign brk
  length : sub32 (pageAlign brk) (pageAlign p.brk) = pageAlign brk - pageAlign p.brk
  range : UserRange (pageAlign p.brk) (pageAlign brk - pageAlign p.brk)
  aligned : pageAlign (pageAlign brk - pageAlign p.brk) = pageAlign brk - pageAlign p.brk
  stop : pageAlign p.brk / pageSize + pages (pageAlign brk - pageAlign p.brk) =
    pageAlign brk / pageSize

theorem aligned_range {old new : ℕ} (hold : old % pageSize = 0) (hnew : new % pageSize = 0)
    (hlt : old < new) (hend : new ≤ kheapStart) :
    UserRange old (new - old) ∧ pageAlign (new - old) = new - old ∧
      old / pageSize + pages (new - old) = new / pageSize := by
  have hself : pageAlign (new - old) = new - old := by
    unfold pageAlign kheapStart at *
    unfold pageSize at *
    rw [add32_of_lt (by omega)]
    omega
  refine ⟨⟨hold, by omega⟩, hself, ?_⟩
  rw [pages, hself]
  unfold pageSize at *
  omega

theorem Extends.growth (h : Heaped p) (he : Extends p brk)
    (hb : brk < kheapStart) : Growth p brk := by
  obtain ⟨h1, h2, h3, h4⟩ := pageAlign_bounds h.high
  obtain ⟨g1, g2, g3, g4⟩ := pageAlign_bounds hb.le
  have habove := he.above
  have hne := he.pages
  have hlt : pageAlign p.brk < pageAlign brk := by
    unfold pageSize at h2 h3 g2 g3
    omega
  obtain ⟨hrange, hself, hstop⟩ := aligned_range h3 g3 hlt g4
  refine ⟨hlt, sub32_of_le ?_ hlt.le, hrange, hself, hstop⟩
  unfold kheapStart at g4
  omega

theorem Growth.paged (h : Growth p brk) :
    UserRange (pageSize * (pageAlign p.brk / pageSize)) (pageAlign brk - pageAlign p.brk) ∧
      pageAlign (pageAlign brk - pageAlign p.brk) ≠ 0 := by
  have hlt := h.lt
  rw [← h.range.addr_eq, h.aligned]
  exact ⟨h.range, by omega⟩

theorem sysBrk_extends (kmalloc : ℕ → ℕ) (he : Extends p brk)
    (hg : Growth p brk) : sysBrk kmalloc p brk =
      (doMmap kmalloc p.space (pageAlign p.brk) (pageAlign brk - pageAlign p.brk)).map
        fun s => (brk, ⟨s, brk⟩) := by
  have habove := he.above
  rw [sysBrk, if_neg (by omega), if_neg he.pages, if_neg (by omega), if_neg he.counted, hg.length]

theorem grow_spec (h : Heaped p) (hk : Fresh p.space kmalloc) (hb : brk < kheapStart)
    (he : Extends p brk) (hc : Unobstructed p brk) (hfree : Affordable p brk) :
    ∃ s, sysBrk kmalloc p brk = some (brk, ⟨s, brk⟩) ∧ Heaped ⟨s, brk⟩ ∧
      ∀ v, pageSize * v < p.brk → frameOf s v = frameOf p.space v := by
  have hg := he.growth h hb
  have hcov := hc he
  rw [← hg.aligned] at hcov
  obtain ⟨s, hexec, hs⟩ := doMmap_spec h.good hk hg.range hcov hfree
  obtain ⟨h1, h2, h3, h4⟩ := pageAlign_bounds h.high
  obtain ⟨g1, g2, g3, g4⟩ := pageAlign_bounds hb.le
  have hstop := hg.stop
  have hlt := hg.lt
  have hlow := h.low
  have hz : pageAlign (pageAlign brk - pageAlign p.brk) ≠ 0 := by
    rw [hg.aligned]
    omega
  have hkept : ∀ v, pageSize * v < p.brk → frameOf s v = frameOf p.space v := by
    intro v hv
    have hbelow : v < pageAlign p.brk / pageSize := by
      unfold pageSize at *
      omega
    exact hs.kept v (by unfold InRange; omega) fun he => by omega
  refine ⟨s, ?_, ⟨hs.good, ?_, hb.le, ?_⟩, hkept⟩
  · rw [sysBrk_extends kmalloc he hg, hexec, Option.map_some]
  · exact hlow.trans he.above.le
  · intro v hlow' hv
    by_cases hin : pageAlign p.brk / pageSize ≤ v
    · refine hs.given hz v ⟨hin, ?_⟩
      change pageSize * v < brk at hv
      unfold pageSize at *
      omega
    · have hbelow : pageSize * v < p.brk := by
        unfold pageSize at *
        omega
      change frameOf s v ≠ 0
      rw [hkept v hbelow]
      exact h.mapped v hlow' hbelow

theorem stay_spec (h : Heaped p) (kmalloc : ℕ → ℕ) (hb : brk < kheapStart) (he : ¬ Extends p brk) :
    ∃ ret q, sysBrk kmalloc p brk = some (ret, q) ∧ Heaped q ∧ p.brk ≤ q.brk ∧
      q.space = p.space := by
  by_cases hlt : brk < p.brk
  · exact ⟨_, p, if_pos hlt, h, le_refl _, rfl⟩
  · by_cases hsame : pageAlign p.brk = pageAlign brk
    · refine ⟨brk, { p with brk := brk }, by rw [sysBrk, if_neg hlt, if_pos hsame], ?_, ?_, rfl⟩
      · refine ⟨h.good, h.low.trans (Nat.le_of_not_lt hlt), hb.le, fun v hlow hv => ?_⟩
        obtain ⟨h1, h2, h3, h4⟩ := pageAlign_bounds h.high
        obtain ⟨g1, g2, g3, g4⟩ := pageAlign_bounds hb.le
        refine h.mapped v hlow ?_
        change pageSize * v < brk at hv
        rw [← hsame] at g1 g2 g3
        unfold pageSize at *
        omega
      · exact Nat.le_of_not_lt hlt
    · have hgt : ¬ brk ≤ p.brk := by
        intro hle
        obtain rfl : brk = p.brk := by omega
        exact hsame rfl
      have hcount : asInt (freePages p.space.frames) < 0 := by
        by_contra hc
        exact he ⟨by omega, hsame, hc⟩
      refine ⟨p.brk, p, ?_, h, le_refl _, rfl⟩
      rw [sysBrk, if_neg hlt, if_neg hsame, if_neg hgt, if_pos hcount]

theorem obstructed_fails (h : Heaped p)
    (hk : Fresh p.space kmalloc) (hb : brk < kheapStart) (hc : ¬ Unobstructed p brk) :
    ¬ Grows kmalloc p brk := by
  rintro ⟨ret, q, hret, -, hmapped, -⟩
  obtain ⟨he, hcov⟩ := Classical.not_imp.mp hc
  have hg := he.growth h hb
  rw [sysBrk_extends kmalloc he hg] at hret
  obtain ⟨s, hexec, hq⟩ := Option.map_eq_some_iff.mp hret
  obtain ⟨-, rfl⟩ := Prod.mk.inj hq
  obtain ⟨h1, h2, h3, h4⟩ := pageAlign_bounds h.high
  obtain ⟨g1, g2, g3, g4⟩ := pageAlign_bounds hb.le
  have hlow := h.low
  have hlt := hg.lt
  simp only [Covered, not_forall, not_not] at hcov
  obtain ⟨hany, u, hu, hbare⟩ := hcov
  obtain ⟨hr, hz⟩ := hg.paged
  refine hmapped (pageAlign p.brk / pageSize) ?_ ?_
    (doMmap_meets_bare hr hz h.good hk (by rw [hg.aligned]; exact hany) hu hbare hexec)
  · exact Nat.div_le_div_right (hlow.trans h1)
  · change pageSize * (pageAlign p.brk / pageSize) < brk
    unfold pageSize at *
    omega

theorem run_heaped {q : BrkProcess} {bs : List ℕ} (h0 : Heaped p)
    (hrun : Reach (Guarded Unobstructed BrkStep) p bs q) : Heaped q := by
  refine hrun.invariant (fun _ q => Heaped q) h0 ?_
  rintro bs p b q - h ⟨hc, hb, hfree, kmalloc, ret, hk, hstep⟩
  by_cases he : Extends p b
  · obtain ⟨s, hrun, hs, -⟩ := grow_spec h hk hb he hc hfree
    obtain ⟨-, rfl⟩ := Prod.mk.inj (Option.some.inj (hrun.symm.trans hstep))
    exact hs
  · obtain ⟨ret', q', hrun, hq, -⟩ := stay_spec h kmalloc hb he
    obtain ⟨-, rfl⟩ := Prod.mk.inj (Option.some.inj (hrun.symm.trans hstep))
    exact hq

/-- Along every run of unobstructed calls from the state `do_exec` leaves, the
heap is mapped up to the break, and the next call grows the heap safely exactly
if it is unobstructed. -/
theorem heap_growth_iff {p q : BrkProcess} {bs : List ℕ} (h0 : AfterExec p)
    (hrun : Reach (Guarded Unobstructed BrkStep) p bs q) {kmalloc : ℕ → ℕ}
    (hk : Fresh q.space kmalloc) {brk : ℕ} (hb : brk < kheapStart) (hfree : Affordable q brk) :
    HeapMapped q ∧ (Grows kmalloc q brk ↔ Unobstructed q brk) := by
  have h := run_heaped h0.heaped hrun
  refine ⟨h.mapped, fun hgrows => ?_, fun hc => ?_⟩
  · by_contra hc
    exact obstructed_fails h hk hb hc hgrows
  · by_cases he : Extends q brk
    · obtain ⟨s, hrun, hs, hkept⟩ := grow_spec h hk hb he hc hfree
      exact ⟨brk, ⟨s, brk⟩, hrun, he.above.le, hs.mapped, hkept⟩
    · obtain ⟨ret, r, hrun, hr, hle, hsame⟩ := stay_spec h kmalloc hb he
      exact ⟨ret, r, hrun, hle, hr.mapped, fun v _ => by rw [hsame]⟩

theorem AfterExec.unobstructed (h : AfterExec p)
    (hb : brk ≤ uheapStart + uheapInitialSize) : Unobstructed p brk := by
  intro he _ u hu
  have hend : brk < kheapStart := Nat.lt_of_le_of_lt hb (by decide)
  have hstop := (he.growth h.heaped hend).stop
  obtain ⟨g1, g2, g3, g4⟩ := pageAlign_bounds hend.le
  refine h.mapped u ?_
  unfold InRange at hu ⊢
  rw [hstop, h.brk, show pageAlign uheapStart = uheapStart by decide] at hu
  unfold uheapStart uheapInitialSize at *
  unfold pageSize at *
  omega

/-- The table of the initial heap: its 512 pages and the one behind them, with
the frames from 1 on. -/
def heapTable : Table := fun i =>
  if 256 ≤ i ∧ i ≤ 768 then ⟨true, true, true, false, false, i - 255⟩ else Page.zero

/-- A process after `do_exec` on a machine of 4096 frames, with its heap only. -/
def execProcess : BrkProcess where
  space :=
    { frames := ⟨fun i => if i < 16 then 0xffffffff#32 else if i = 16 then 3#32 else 0#32, 514, 4096⟩
      tables := fun t => if t = 1 then some heapTable else none
      tabls := fun i => if i = 196 then some 1 else none
      mmap := [⟨uheapStart, uheapStart + uheapInitialSize⟩] }
  brk := uheapStart

theorem execProcess_bits (f : ℕ) :
    bitmapTest execProcess.space.frames f = decide (f < 514) := by
  have hones : ∀ j < 32, (0xffffffff#32).getLsbD j = true := by decide
  have hthree : ∀ j < 32, (3#32).getLsbD j = decide (j < 2) := by decide
  have hj : f % 32 < 32 := Nat.mod_lt f (by decide)
  rw [bitmapTest, PackedBits.test_eq]
  simp only [execProcess]
  split_ifs with h16 heq
  · rw [hones _ hj, eq_comm, decide_eq_true_eq]
    omega
  · rw [hthree _ hj, decide_eq_decide]
    omega
  · rw [BitVec.getLsbD_zero, eq_comm, decide_eq_false_iff_not]
    omega

theorem execProcess_free : (freeFrames execProcess.space.frames).card = 3582 := by
  have hfree : freeFrames execProcess.space.frames = Finset.Ico 514 4096 := by
    ext f
    rw [freeFrames, Finset.mem_filter, execProcess_bits, Finset.mem_range, Finset.mem_Ico,
      decide_eq_false_iff_not, Nat.not_lt, and_comm]
    rfl
  rw [hfree, Nat.card_Ico]

theorem execProcess_readPage (r : PageRef) : (readPage execProcess.space r).addr =
    if r.table = 1 ∧ 256 ≤ r.index ∧ r.index ≤ 768 then r.index - 255 else 0 := by
  by_cases ht : r.table = 1
  · simp only [readPage, execProcess, ht, if_true, true_and, heapTable]
    split_ifs <;> rfl
  · simp [readPage, execProcess, ht, Page.zero]

theorem execProcess_frameOf (v : ℕ) : frameOf execProcess.space v =
    if v / 1024 = 196 ∧ 256 ≤ v % 1024 ∧ v % 1024 ≤ 768 then v % 1024 - 255 else 0 := by
  by_cases hv : v / 1024 = 196
  · have htabls : execProcess.space.tabls (v / 1024) = some 1 := by simp [execProcess, hv]
    rw [frameOf_eq_addr htabls, execProcess_readPage]
    simp only [true_and, hv]
  · have htabls : execProcess.space.tabls (v / 1024) = none := by simp [execProcess, hv]
    simp [frameOf, htabls, hv]

theorem execProcess_good : Good execProcess.space := by
  have hrefers : ∀ r f, Refers execProcess.space r f ↔
      r.table = 1 ∧ r.index = f + 255 ∧ f ≠ 0 ∧ f < 514 := by
    intro r f
    rw [Refers, execProcess_readPage]
    split_ifs <;> omega
  refine ⟨⟨by decide, fun f hf0 hlt => ?_, fun f r r' _ hr hr' => ?_⟩,
    ⟨⟨?_, ?_⟩, fun v _ => ?_, by decide⟩⟩
  · rw [execProcess_bits, decide_eq_true_eq]
    constructor
    · exact fun h => ⟨⟨1, f + 255⟩, (hrefers _ _).mpr ⟨rfl, rfl, hf0, h⟩⟩
    · rintro ⟨r, hr⟩
      exact ((hrefers _ _).mp hr).2.2.2
  · obtain ⟨ht, hi, -⟩ := (hrefers _ _).mp hr
    obtain ⟨ht', hi', -⟩ := (hrefers _ _).mp hr'
    cases r
    cases r'
    simp_all
  · intro i t hi
    by_cases h : i = 196
    · simp only [execProcess, h, if_true, Option.some.injEq] at hi
      simp [execProcess, ← hi]
    · simp [execProcess, h] at hi
  · intro i j t hi hj
    by_cases h : i = 196 <;> by_cases h' : j = 196
    · rw [h, h']
    · simp [execProcess, h'] at hj
    · simp [execProcess, h] at hi
    · simp [execProcess, h] at hi
  · rw [execProcess_frameOf]
    change _ < 4096
    split_ifs <;> omega

theorem execProcess_afterExec : AfterExec execProcess := by
  refine ⟨execProcess_good, List.mem_singleton.mpr rfl, fun v hv => ?_, rfl⟩
  rw [execProcess_frameOf]
  unfold InRange uheapStart uheapInitialSize pageSize at hv
  rw [if_pos (by omega)]
  omega

theorem execProcess_fresh : Fresh execProcess.space (· + 2) := by
  refine ⟨fun i _ => ?_, fun i j h => Nat.add_right_cancel h⟩
  simp [execProcess]

theorem heap_growth_iff_first : Grows (· + 2) execProcess (uheapStart + 0x1800) := by
  have hfree : Affordable execProcess (uheapStart + 0x1800) := by
    unfold Affordable
    rw [show lacking execProcess.space (pageAlign execProcess.brk / pageSize)
      (pages (pageAlign (uheapStart + 0x1800) - pageAlign execProcess.brk) + 1) = 0 by decide]
    exact Nat.zero_le _
  exact (heap_growth_iff execProcess_afterExec .start execProcess_fresh (by decide) hfree).2.mpr
    (execProcess_afterExec.unobstructed (by decide))

/-- Growing the heap past its first page table at once fails an assertion, while
there are frames enough. -/
theorem large_growth_asserts :
    AfterExec execProcess ∧ Fresh execProcess.space (· + 2) ∧ Affordable execProcess 0x31500000 ∧
      sysBrk (· + 2) execProcess 0x31500000 = none := by
  refine ⟨execProcess_afterExec, execProcess_fresh, ?_, ?_⟩
  · refine (lacking_le_length _ _ _).trans ?_
    rw [execProcess_free]
    decide
  · have he : Extends execProcess 0x31500000 := ⟨by decide, by decide, by decide⟩
    have hg := he.growth execProcess_afterExec.heaped (by decide)
    obtain ⟨hr, hz⟩ := hg.paged
    rw [sysBrk_extends _ he hg, Option.map_eq_none_iff]
    exact doMmap_no_table (u := 0x31400) hr hz execProcess_good.toShaped (by decide)
      ⟨by decide, by decide⟩ (by decide)

end Bingos.Mmap
